import Mathlib.Data.List.TakeWhile
import MonteCarloSheet.Proofs.Formula.Lexing

/-! The lexical grammar, and the lexer as its longest match.

A number is digits with an optional fraction, or a fraction alone, and an optional
exponent behind it; a word begins with a letter or an underscore and goes on with these
and digits; the signs stand for themselves. `Spells` says so with no regard to what comes
behind. The lexer measures a text from its head instead. The two agree: what the lexer
takes off a text is spelled so (`spells_of_lexeme?`), and a lexeme in front of any text
makes the lexer take at least that much (`Spells.lexeme?_append`), so it takes the longest
(`longestAt_of_lexeme?`). -/
namespace MonteCarloSheet.Formula

/-! ### The grammar -/

/-- Digits of any script, at least one. -/
structure Digits (ds : List Char) : Prop where
  some : ds ≠ []
  all : ∀ c ∈ ds, Text.isDigit c = true

/-- What stands in front of the exponent of a number: its text, its digits without the point,
and how many of them are behind the point. -/
inductive Fixed : List Char → List Char → Nat → Prop where
  | whole {ds} (digits : Digits ds) : Fixed ds ds 0
  | mixed {ds fs} (digits : Digits ds) (fraction : Digits fs) :
      Fixed (ds ++ '.' :: fs) (ds ++ fs) fs.length
  | fraction {fs} (fraction : Digits fs) : Fixed ('.' :: fs) fs fs.length

/-- An optional sign and the number that it multiplies by. -/
inductive Signed : List Char → Int → Prop where
  | none : Signed [] 1
  | plus : Signed ['+'] 1
  | minus : Signed ['-'] (-1)

/-- An optional exponent and the power of ten that it stands for. -/
inductive Exponent : List Char → Int → Prop where
  | none : Exponent [] 0
  | some {c ss sign ds} (letter : c = 'e' ∨ c = 'E') (signed : Signed ss sign)
      (digits : Digits ds) :
      Exponent (c :: (ss ++ ds)) (sign * Number.ofDigits (digitsOf ds))

/-- A text is a lexeme. A number has the value of the double nearest to its decimal. -/
inductive Spells : List Char → Lexeme → Prop where
  | number {ms ds places es power} (fixed : Fixed ms ds places) (exponent : Exponent es power) :
      Spells (ms ++ es)
        (.number (Number.Decimal.mk (Number.ofDigits (digitsOf ds)) (power - places)).nearest)
  | word {c cs} (start : isNameStart c = true) (parts : ∀ d ∈ cs, isNamePart d = true) :
      Spells (c :: cs) (wordOf (c :: cs))
  | sign {c lexeme} (is : signOf c = some lexeme) : Spells [c] lexeme

/-- The longest lexeme at the head of a text. -/
structure LongestAt (cs : List Char) (lexeme : Lexeme) (word : List Char) : Prop where
  spelled : Spells word lexeme
  begins : word <+: cs
  longest : ∀ other lexeme', Spells other lexeme' → other <+: cs → other.length ≤ word.length

/-! ### Digits -/

theorem digitRun_append {ds : List Char} (all : ∀ c ∈ ds, Text.isDigit c = true)
    (tail : List Char) : digitRun (ds ++ tail) = ds.length + digitRun tail := by
  rw [digitRun, List.takeWhile_append_of_pos all, List.length_append, ← digitRun]

theorem Digits.length_pos {ds : List Char} (h : Digits ds) : 0 < ds.length :=
  List.length_pos_iff.2 h.some

theorem digitRun_cons {c : Char} (other : Text.isDigit c = false) (cs : List Char) :
    digitRun (c :: cs) = 0 := by
  rw [digitRun, List.takeWhile_cons_of_neg (by rw [other]; decide), List.length_nil]

theorem digits_of_digitRun {ds : List Char} (run : digitRun ds = ds.length)
    (some : digitRun ds ≠ 0) : Digits ds where
  some := by
    rintro rfl
    exact some rfl
  all := List.takeWhile_eq_self_iff.1 ((List.takeWhile_prefix _).eq_of_length run)

theorem digits_take {cs : List Char} (some : digitRun cs ≠ 0) : Digits (cs.take (digitRun cs)) := by
  have same : digitRun (cs.take (digitRun cs) ++ []) = digitRun cs :=
    digitRun_measure.cut (Nat.le_refl _) apart_nil
  rw [List.append_nil] at same
  refine digits_of_digitRun ?_ (by rwa [same])
  rw [same, List.length_take, Nat.min_eq_left (digitRun_measure.fits cs)]

/-! ### What stands in front of the exponent -/

/-- The length of the point and the digits behind it, where a text goes on with these after its
first digits. -/
def pointLength (cs : List Char) : Nat :=
  fractionLength (cs.drop (digitRun cs))

/-- The length of the number at the head of a text without its exponent. -/
def fixedLength (cs : List Char) : Nat :=
  digitRun cs + pointLength cs

theorem numberLength_eq (cs : List Char) : numberLength cs =
    if fixedLength cs = 0 then 0
    else fixedLength cs + exponentLength (cs.drop (fixedLength cs)) :=
  rfl

theorem decimalOf_eq (cs : List Char) : decimalOf cs =
    ⟨Number.ofDigits (digitsOf (cs.take (fixedLength cs))),
      exponentValue (cs.drop (fixedLength cs)) - (pointLength cs - 1 : Nat)⟩ :=
  rfl

/-- What may come behind the digits of a number and leaves them as they are. -/
def Ended (tail : List Char) : Prop :=
  ∀ c rest, tail = c :: rest → Text.isDigit c = false ∧ c ≠ '.'

theorem Ended.digitRun {tail : List Char} (h : Ended tail) : digitRun tail = 0 := by
  cases tail with
  | nil => rfl
  | cons c rest => exact digitRun_cons (h c rest rfl).1 rest

theorem Ended.fractionLength {tail : List Char} (h : Ended tail) : fractionLength tail = 0 := by
  cases tail with
  | nil => rfl
  | cons c rest => exact fractionLength_of_ne (h c rest rfl).2 rest

theorem fractionLength_append {fs : List Char} (h : Digits fs) (tail : List Char) :
    fractionLength ('.' :: (fs ++ tail)) = fs.length + digitRun tail + 1 := by
  have := h.length_pos
  rw [fractionLength, digitRun_append h.all, if_neg (by omega)]

theorem digitRun_of_point (rest : List Char) : digitRun ('.' :: rest) = 0 :=
  digitRun_cons (by decide) rest

/-- What comes behind a number can make it longer, but not if it leaves the digits as they are. -/
theorem Fixed.measures {ms ds : List Char} {places : Nat} (h : Fixed ms ds places)
    (tail : List Char) : ms.length ≤ fixedLength (ms ++ tail) ∧ (Ended tail →
      fixedLength (ms ++ tail) = ms.length ∧ pointLength (ms ++ tail) - 1 = places) := by
  rw [fixedLength, pointLength]
  cases h with
  | whole digits =>
    rw [digitRun_append digits.all]
    refine ⟨by omega, fun ended => ?_⟩
    rw [ended.digitRun, Nat.add_zero, List.drop_left, ended.fractionLength]
    exact ⟨rfl, rfl⟩
  | @mixed ds fs digits fraction =>
    rw [List.append_assoc, List.cons_append, digitRun_append digits.all, digitRun_of_point,
      Nat.add_zero, List.drop_left, fractionLength_append fraction, List.length_append,
      List.length_cons]
    refine ⟨by omega, fun ended => ?_⟩
    rw [ended.digitRun]
    exact ⟨rfl, rfl⟩
  | fraction fraction =>
    rw [List.cons_append, digitRun_of_point, List.drop_zero, fractionLength_append fraction,
      List.length_cons]
    refine ⟨by omega, fun ended => ?_⟩
    rw [ended.digitRun]
    exact ⟨by omega, rfl⟩

theorem Fixed.length_pos {ms ds : List Char} {places : Nat} (h : Fixed ms ds places) :
    0 < ms.length := by
  cases h with
  | whole digits => exact digits.length_pos
  | mixed digits fraction => rw [List.length_append]; exact Nat.add_pos_left digits.length_pos _
  | fraction fraction => exact Nat.succ_pos _

theorem Fixed.digitsOf {ms ds : List Char} {places : Nat} (h : Fixed ms ds places) :
    digitsOf ms = digitsOf ds := by
  have point : Text.digit? '.' = none := by decide
  cases h with
  | whole digits => rfl
  | mixed digits fraction =>
    simp only [Formula.digitsOf, List.filterMap_append, List.filterMap_cons_none point]
  | fraction fraction => exact List.filterMap_cons_none point

/-- What is measured in front of the exponent is spelled so. -/
theorem fixed_take {cs : List Char} (some : fixedLength cs ≠ 0) : ∃ ds,
    Fixed (cs.take (fixedLength cs)) ds (pointLength cs - 1) := by
  rw [fixedLength, pointLength] at some ⊢
  by_cases pointless : fractionLength (cs.drop (digitRun cs)) = 0
  · rw [pointless, Nat.add_zero] at some ⊢
    exact ⟨_, .whole (digits_take some)⟩
  · obtain ⟨fs, behind, digits⟩ : ∃ fs, cs.drop (digitRun cs) = '.' :: fs ∧ digitRun fs ≠ 0 := by
      rw [fractionLength.eq_def] at pointless
      split at pointless
      next fs behind => exact ⟨fs, behind, fun none => pointless (if_pos none)⟩
      next => exact (pointless rfl).elim
    have fraction := digits_take digits
    have places : (fs.take (digitRun fs)).length = digitRun fs := by
      rw [List.length_take, Nat.min_eq_left (digitRun_measure.fits fs)]
    rw [List.take_add, behind, fractionLength, if_neg digits, List.take_succ_cons,
      Nat.add_sub_cancel]
    by_cases whole : digitRun cs = 0
    · have alone := Fixed.fraction fraction
      rw [places] at alone
      rw [whole, List.take_zero]
      exact ⟨_, alone⟩
    · refine ⟨cs.take (digitRun cs) ++ fs.take (digitRun fs), ?_⟩
      have mixed := Fixed.mixed (digits_take whole) fraction
      rwa [places] at mixed

/-! ### Exponents -/

theorem Exponent.ended {es : List Char} {power : Int} (h : Exponent es power) : Ended es := by
  cases h with
  | none => rintro _ _ ⟨⟩
  | some letter _ _ =>
    rintro _ _ ⟨⟩
    obtain rfl | rfl := letter <;> decide

theorem Signed.signLength {ss ds : List Char} {sign : Int} (h : Signed ss sign) (digits : Digits ds)
    (tail : List Char) : signLength (ss ++ (ds ++ tail)) = ss.length := by
  cases h with
  | plus => rfl
  | minus => rfl
  | none =>
    cases ds with
    | nil => exact (digits.some rfl).elim
    | cons d ds =>
      have digit := digits.all d List.mem_cons_self
      rw [List.nil_append, List.cons_append, signLength.eq_def]
      split
      next same => cases same; exact absurd digit (by decide)
      next same => cases same; exact absurd digit (by decide)
      next => rfl

theorem exponentLength_append {es : List Char} {power : Int} (h : Exponent es power)
    (filled : es ≠ []) (tail : List Char) :
    exponentLength (es ++ tail) = es.length + digitRun tail := by
  cases h with
  | none => exact (filled rfl).elim
  | some letter signed digits =>
    have := digits.length_pos
    rw [List.cons_append, List.append_assoc, exponentLength, if_pos letter,
      signed.signLength digits]
    dsimp only
    rw [List.drop_left, digitRun_append digits.all, if_neg (by omega), List.length_cons,
      List.length_append]
    omega

theorem Exponent.exponentLength {es : List Char} {power : Int} (h : Exponent es power) :
    exponentLength es = es.length := by
  by_cases filled : es = []
  · rw [filled]
    rfl
  · have := exponentLength_append h filled []
    rwa [List.append_nil] at this

theorem Exponent.value {es : List Char} {power : Int} (h : Exponent es power) :
    exponentValue es = power := by
  cases h with
  | none => rfl
  | @some _ _ _ ds _ signed digits =>
    cases signed with
    | minus => exact (Int.neg_one_mul _).symm
    | plus => exact (Int.one_mul _).symm
    | none =>
      rw [Int.one_mul, List.nil_append, exponentValue.eq_def]
      split
      next same => cases same
      next same =>
        cases same
        exact absurd (digits.all '-' List.mem_cons_self) (by decide)
      next same => cases same; rfl

/-- A text that is measured as an exponent as a whole is one. -/
theorem exponent_of_exponentLength {es : List Char} (whole : exponentLength es = es.length) :
    Exponent es (exponentValue es) := by
  suffices ∃ power, Exponent es power by
    obtain ⟨power, exponent⟩ := this
    rwa [exponent.value]
  cases es with
  | nil => exact ⟨_, .none⟩
  | cons c rest =>
    rw [exponentLength, List.length_cons] at whole
    dsimp only at whole
    split at whole
    next letter =>
      obtain ⟨ss, sign, ds, rfl, signed, length⟩ : ∃ ss sign ds, rest = ss ++ ds ∧
          Signed ss sign ∧ signLength rest = ss.length := by
        rw [signLength.eq_def]
        split
        next ds => exact ⟨_, _, ds, rfl, .plus, rfl⟩
        next ds => exact ⟨_, _, ds, rfl, .minus, rfl⟩
        next => exact ⟨_, _, rest, rfl, .none, rfl⟩
      rw [length, List.drop_left, List.length_append] at whole
      split at whole
      next => omega
      next some => exact ⟨_, .some letter signed (digits_of_digitRun (by omega) some)⟩
    next => omega

/-! ### Classes of characters -/

/-- No digit and no point: what no number begins with. -/
theorem numberLength_of_other {c : Char} (digit : Text.isDigit c = false) (point : c ≠ '.')
    (rest : List Char) : numberLength (c :: rest) = 0 := by
  rw [numberLength, digitRun_cons digit, List.drop_zero, fractionLength_of_ne point]
  rfl

theorem nameLength_of_other {c : Char} (start : isNameStart c = false) (rest : List Char) :
    nameLength (c :: rest) = 0 :=
  if_neg (by rw [start]; decide)

theorem isDigit_of_isNameStart {c : Char} (start : isNameStart c = true) :
    Text.isDigit c = false ∧ c ≠ '.' := by
  have range : 65 ≤ c.toNat ∧ c.toNat ≤ 122 := by
    obtain alpha | underscore := Bool.or_eq_true_iff.1 start
    · obtain upper | lower := Bool.or_eq_true_iff.1 alpha
      · have : 65 ≤ c.toNat ∧ c.toNat ≤ 90 := toNat_bounds (of_decide_eq_true upper)
        omega
      · have : 97 ≤ c.toNat ∧ c.toNat ≤ 122 := toNat_bounds_of_and lower
        omega
    · obtain rfl := of_decide_eq_true underscore
      decide
  constructor
  · rw [Text.isDigit, Text.digit?, if_pos (by omega), if_neg, Option.isSome_none]
    intro digit
    have : 48 ≤ c.toNat ∧ c.toNat ≤ 57 := toNat_bounds_of_and digit
    omega
  · rintro rfl
    exact absurd range (by decide)

/-- The signs are neither in numbers nor in words nor blank. -/
theorem other_of_signOf {c : Char} {lexeme : Lexeme} (is : signOf c = some lexeme) :
    Text.isDigit c = false ∧ c ≠ '.' ∧ isNameStart c = false := by
  rw [signOf.eq_def] at is
  split at is <;> first | decide | cases is

/-! ### The lexer takes the longest lexeme -/

theorem Spells.length_pos {word : List Char} {lexeme : Lexeme} (h : Spells word lexeme) :
    0 < word.length := by
  cases h with
  | number fixed exponent => rw [List.length_append]; exact Nat.add_pos_left fixed.length_pos _
  | word _ _ => exact Nat.succ_pos _
  | sign _ => exact Nat.one_pos

theorem numberLength_append {ms es ds : List Char} {places : Nat} {power : Int}
    (fixed : Fixed ms ds places) (exponent : Exponent es power) (tail : List Char) :
    (ms ++ es).length ≤ numberLength (ms ++ es ++ tail) := by
  have some := fixed.length_pos
  obtain ⟨le, same⟩ := fixed.measures (es ++ tail)
  rw [List.append_assoc, numberLength_eq, if_neg (by omega), List.length_append]
  cases es with
  | nil =>
    rw [List.length_nil]
    omega
  | cons c es =>
    have ended : Ended (c :: es ++ tail) := by
      rintro _ _ ⟨⟩
      exact exponent.ended c es rfl
    rw [(same ended).1, List.drop_left, exponentLength_append exponent (List.cons_ne_nil c es)]
    omega

/-- In front of any text, a lexeme makes the lexer take at least that much. -/
theorem Spells.lexeme?_append {word : List Char} {lexeme : Lexeme} (h : Spells word lexeme)
    (tail : List Char) :
    ∃ lexeme' length, lexeme? (word ++ tail) = some (lexeme', length) ∧ word.length ≤ length := by
  have some := h.length_pos
  cases h with
  | number fixed exponent =>
    have le := numberLength_append fixed exponent tail
    rw [lexeme?, if_pos (by omega)]
    exact ⟨_, _, rfl, le⟩
  | word start parts =>
    have other := isDigit_of_isNameStart start
    rw [List.cons_append, lexeme?, numberLength_of_other other.1 other.2, nameLength, if_pos start,
      List.takeWhile_append_of_pos parts, if_neg (by decide), if_pos (by omega)]
    refine ⟨_, _, rfl, ?_⟩
    rw [List.length_cons, List.length_append]
    omega
  | sign is =>
    obtain ⟨digit, point, start⟩ := other_of_signOf is
    rw [List.cons_append, lexeme?, numberLength_of_other digit point, nameLength_of_other start,
      if_neg (by decide), if_neg (by decide), List.head?_cons, Option.bind_some, is]
    exact ⟨_, _, rfl, Nat.le_refl _⟩

/-- A lexeme alone is read as it is spelled. -/
theorem Spells.lexeme?_eq {word : List Char} {lexeme : Lexeme} (h : Spells word lexeme) :
    lexeme? word = some (lexeme, word.length) := by
  cases h with
  | @number ms ds places es power fixed exponent =>
    have pos := fixed.length_pos
    obtain ⟨front, behind⟩ := (fixed.measures es).2 exponent.ended
    have length : numberLength (ms ++ es) = (ms ++ es).length := by
      rw [numberLength_eq, front, if_neg (by omega), List.drop_left, exponent.exponentLength,
        List.length_append]
    rw [lexeme?, length, if_pos (by rw [List.length_append]; omega), List.take_length, decimalOf_eq,
      front, List.take_left, List.drop_left, fixed.digitsOf, exponent.value, behind]
  | @word c cs start parts =>
    have other := isDigit_of_isNameStart start
    have length : nameLength (c :: cs) = (c :: cs).length := by
      rw [nameLength, if_pos start, List.takeWhile_eq_self_iff.2 parts, List.length_cons]
      exact Nat.add_comm ..
    rw [lexeme?, numberLength_of_other other.1 other.2, length, if_neg (by decide),
      if_pos (by rw [List.length_cons]; omega), List.take_length]
  | sign is =>
    obtain ⟨digit, point, start⟩ := other_of_signOf is
    rw [lexeme?, numberLength_of_other digit point, nameLength_of_other start, if_neg (by decide),
      if_neg (by decide), List.head?_cons, Option.bind_some, is]
    rfl

theorem Spells.unique {word : List Char} {lexeme other : Lexeme} (h : Spells word lexeme)
    (h' : Spells word other) : lexeme = other :=
  (Prod.mk.inj (Option.some.inj (h.lexeme?_eq.symm.trans h'.lexeme?_eq))).1

/-- What the lexer takes off a text as a whole is a lexeme. -/
theorem spells_of_whole {word : List Char} {lexeme : Lexeme}
    (found : lexeme? word = some (lexeme, word.length)) : Spells word lexeme := by
  rw [lexeme?] at found
  split at found
  next some =>
    obtain ⟨rfl, length⟩ := Prod.mk.inj (Option.some.inj found)
    rw [length, List.take_length, decimalOf_eq]
    rw [numberLength_eq] at some length
    split at some
    next => exact (some rfl).elim
    next front =>
      obtain ⟨ds, fixed⟩ := fixed_take front
      rw [if_neg front] at length
      have exponent : Exponent (word.drop (fixedLength word)) _ :=
        exponent_of_exponentLength (by rw [List.length_drop]; omega)
      rw [fixed.digitsOf]
      have spelled := Spells.number fixed exponent
      rwa [List.take_append_drop] at spelled
  next =>
    split at found
    next some =>
      obtain ⟨rfl, length⟩ := Prod.mk.inj (Option.some.inj found)
      rw [length, List.take_length]
      cases word with
      | nil => exact (some rfl).elim
      | cons c rest =>
        rw [nameLength] at some length
        split at some
        next start =>
          rw [if_pos start, List.length_cons, Nat.add_comm] at length
          exact .word start (List.takeWhile_eq_self_iff.1
            ((List.takeWhile_prefix _).eq_of_length (Nat.succ.inj length)))
        next => exact (some rfl).elim
    next =>
      cases word with
      | nil => cases found
      | cons c rest =>
        obtain ⟨_, is, same⟩ := Option.map_eq_some_iff.1 found
        obtain ⟨rfl, length⟩ := Prod.mk.inj same
        obtain rfl := List.eq_nil_of_length_eq_zero (Nat.succ.inj length).symm
        exact .sign is

/-- What the lexer takes off the head of a text is a lexeme. -/
theorem spells_of_lexeme? {cs : List Char} {lexeme : Lexeme} {length : Nat}
    (found : lexeme? cs = some (lexeme, length)) : Spells (cs.take length) lexeme := by
  have cut := lexeme?_cut found (Nat.le_refl _) apart_nil
  rw [List.append_nil] at cut
  refine spells_of_whole ?_
  rw [cut, List.length_take, Nat.min_eq_left (lexeme?_fits found).2]

/-- The lexer takes the longest lexeme at the head of a text. -/
theorem longestAt_of_lexeme? {cs : List Char} {lexeme : Lexeme} {length : Nat}
    (found : lexeme? cs = some (lexeme, length)) : LongestAt cs lexeme (cs.take length) where
  spelled := spells_of_lexeme? found
  begins := List.take_prefix ..
  longest := by
    rintro other lexeme' spelled ⟨tail, rfl⟩
    obtain ⟨_, _, found', le⟩ := spelled.lexeme?_append tail
    obtain ⟨-, rfl⟩ := Prod.mk.inj (Option.some.inj (found.symm.trans found'))
    rwa [List.length_take, Nat.min_eq_left (lexeme?_fits found).2]

theorem LongestAt.lexeme?_eq {cs word : List Char} {lexeme : Lexeme}
    (h : LongestAt cs lexeme word) : lexeme? cs = some (lexeme, word.length) := by
  obtain ⟨tail, rfl⟩ := h.begins
  obtain ⟨lexeme', length, found, le⟩ := h.spelled.lexeme?_append tail
  have fits := (lexeme?_fits found).2
  have back := h.longest _ _ (spells_of_lexeme? found) (List.take_prefix ..)
  rw [List.length_take, Nat.min_eq_left fits] at back
  obtain rfl := Nat.le_antisymm back le
  have spelled := spells_of_lexeme? found
  rw [List.take_left] at spelled
  rw [found, h.spelled.unique spelled]

/-- Where the lexer takes nothing, no lexeme begins. -/
theorem lexeme?_eq_none_iff {cs : List Char} :
    lexeme? cs = none ↔ ∀ word lexeme, Spells word lexeme → ¬ word <+: cs := by
  constructor
  · rintro none word lexeme spelled ⟨tail, rfl⟩
    obtain ⟨_, _, found, -⟩ := spelled.lexeme?_append tail
    cases none.symm.trans found
  · intro nothing
    cases found : lexeme? cs with
    | none => rfl
    | some taken => exact (nothing _ _ (spells_of_lexeme? found) (List.take_prefix ..)).elim

end MonteCarloSheet.Formula
