import MonteCarloSheet.Formula.Lexer

/-! A text cut before a token.

A lexeme is measured by what it consists of and by the character behind it, which ends
it. So a text that is cut behind a lexeme, and goes on with a blank or not at all, has
the same lexeme there (`lexeme?_cut`). By induction on the tokens that are found before
the cut, a text cut where a token begins has these, whatever comes behind the cut, as long
as that is a blank (`Finds.append`, `Lexes.cut`). -/
namespace MonteCarloSheet.Formula

/-! ### Blanks -/

/-- The text is over or goes on with a blank. -/
def Apart (cs : List Char) : Prop :=
  ∀ c rest, cs = c :: rest → Text.isBlank c = true

theorem apart_nil : Apart [] := by
  rintro _ _ ⟨⟩

theorem apart_cons {c : Char} {cs : List Char} (blank : Text.isBlank c = true) :
    Apart (c :: cs) := by
  rintro _ _ ⟨⟩
  exact blank

theorem toNat_bounds {c low high : Char} (h : low.val ≤ c.val ∧ c.val ≤ high.val) :
    low.toNat ≤ c.toNat ∧ c.toNat ≤ high.toNat :=
  h.imp UInt32.le_iff_toNat_le.1 UInt32.le_iff_toNat_le.1

theorem toNat_bounds_of_and {c low high : Char}
    (h : (decide (low.val ≤ c.val) && decide (c.val ≤ high.val)) = true) :
    low.toNat ≤ c.toNat ∧ c.toNat ≤ high.toNat :=
  toNat_bounds ((Bool.and_eq_true_iff.1 h).imp of_decide_eq_true of_decide_eq_true)

theorem isDigit_of_isBlank {c : Char} (blank : Text.isBlank c = true) : Text.isDigit c = false := by
  simp only [Text.isBlank, Bool.or_eq_true, Bool.and_eq_true, decide_eq_true_eq,
    beq_iff_eq] at blank
  have away : ∀ first ∈ Text.zeros, first + 9 < 0x85 ∨ 0x85 < first ∧ first + 9 < 0x1680 ∧
      (first + 9 < 0xA0 ∨ 0xA0 < first) ∨ 0x1680 < first ∧ first + 9 < 0x2000 ∨
      0x205F < first ∧ (first + 9 < 0x3000 ∨ 0x3000 < first) := by
    decide
  rw [Text.isDigit, Text.digit?]
  split
  next ascii =>
    rw [if_neg, Option.isSome_none]
    intro digit
    have : 48 ≤ c.toNat ∧ c.toNat ≤ 57 := toNat_bounds_of_and digit
    omega
  next =>
    rw [List.find?_eq_none.2, Option.map_none, Option.isSome_none]
    intro first mem
    simp only [Bool.and_eq_true, decide_eq_true_eq]
    have := away first mem
    omega

theorem isNamePart_of_start {c : Char} (h : isNameStart c = true) : isNamePart c = true := by
  simp only [isNameStart, isNamePart, Char.isAlphanum, Bool.or_eq_true] at h ⊢
  exact h.imp_left .inl

theorem isNamePart_of_isBlank {c : Char} (blank : Text.isBlank c = true) :
    isNamePart c = false := by
  simp only [Text.isBlank, Bool.or_eq_true, Bool.and_eq_true, decide_eq_true_eq,
    beq_iff_eq] at blank
  rw [← Bool.not_eq_true]
  intro part
  obtain alphanum | underscore := Bool.or_eq_true_iff.1 part
  · obtain alpha | digit := Bool.or_eq_true_iff.1 alphanum
    · obtain upper | lower := Bool.or_eq_true_iff.1 alpha
      · have : 65 ≤ c.toNat ∧ c.toNat ≤ 90 := toNat_bounds (of_decide_eq_true upper)
        omega
      · have : 97 ≤ c.toNat ∧ c.toNat ≤ 122 := toNat_bounds_of_and lower
        omega
    · have : 48 ≤ c.toNat ∧ c.toNat ≤ 57 := toNat_bounds_of_and digit
      omega
  · obtain rfl := of_decide_eq_true underscore
    exact absurd blank (by decide)

/-! ### Measures -/

section

variable {cs tail : List Char} {n k : Nat}

theorem drop_cut (le : n ≤ k) (fits : n ≤ cs.length) :
    (cs.take k ++ tail).drop n = (cs.drop n).take (k - n) ++ tail := by
  rw [List.drop_append_of_le_length (by rw [List.length_take]; omega), List.drop_take]

theorem take_cut (le : n ≤ k) (fits : n ≤ cs.length) : (cs.take k ++ tail).take n = cs.take n := by
  rw [List.take_append_of_le_length (by rw [List.length_take]; omega), List.take_take,
    Nat.min_eq_left le]

end

/-- A measure of the head of a text that stays in the text and that a blank ends. -/
structure Measure (length : List Char → Nat) : Prop where
  fits : ∀ cs, length cs ≤ cs.length
  cut : ∀ {cs k tail}, length cs ≤ k → Apart tail → length (cs.take k ++ tail) = length cs

theorem takeWhile_measure {p : Char → Bool} (stops : ∀ c, Text.isBlank c = true → p c = false) :
    Measure fun cs => (cs.takeWhile p).length where
  fits cs := (List.takeWhile_sublist p).length_le
  cut {cs k tail} le apart := by
    have ended : tail.takeWhile p = [] := by
      cases tail with
      | nil => rfl
      | cons c tail => exact List.takeWhile_cons_of_neg (by simp [stops c (apart c tail rfl)])
    induction cs generalizing k with
    | nil => rw [List.take_nil, List.nil_append, ended, List.takeWhile_nil]
    | cons c cs ih =>
      by_cases part : p c = true
      · cases k with
        | zero =>
          rw [List.takeWhile_cons_of_pos part] at le
          cases le
        | succ k =>
          rw [List.takeWhile_cons_of_pos part, List.length_cons] at le
          rw [List.take_succ_cons, List.cons_append, List.takeWhile_cons_of_pos part,
            List.takeWhile_cons_of_pos part, List.length_cons, List.length_cons,
            ih (Nat.le_of_succ_le_succ le)]
      · rw [List.takeWhile_cons_of_neg part]
        cases k with
        | zero => rw [List.take_zero, List.nil_append, ended]
        | succ k =>
          rw [List.take_succ_cons, List.cons_append, List.takeWhile_cons_of_neg part]

theorem digitRun_measure : Measure digitRun :=
  takeWhile_measure fun _ => isDigit_of_isBlank

theorem Measure.apart {length : List Char → Nat} {tail : List Char} (h : Measure length)
    (apart : Apart tail) : length tail = 0 := by
  have nothing : length [] = 0 := Nat.le_zero.1 (h.fits [])
  have same : length ([].take 0 ++ tail) = length [] := h.cut (Nat.le_of_eq nothing) apart
  exact same.trans nothing

/-- A cut at the head leaves nothing to measure, so only cuts behind a first character count. -/
theorem Measure.of {length : List Char → Nat} (fits : ∀ cs, length cs ≤ cs.length)
    (ended : ∀ tail, Apart tail → length tail = 0)
    (cut : ∀ c rest k tail, length (c :: rest) ≤ k + 1 → Apart tail →
      length (c :: (rest.take k ++ tail)) = length (c :: rest)) : Measure length where
  fits := fits
  cut {cs k tail} le apart := by
    cases k with
    | zero => rw [List.take_zero, List.nil_append, ended tail apart, Nat.le_zero.1 le]
    | succ k =>
      cases cs with
      | nil => exact (ended tail apart).trans (ended [] apart_nil).symm
      | cons c rest => exact cut c rest k tail le apart

theorem fractionLength_of_ne {c : Char} (other : c ≠ '.') (rest : List Char) :
    fractionLength (c :: rest) = 0 := by
  rw [fractionLength.eq_def]
  split
  next same => exact (other (List.cons.inj same).1).elim
  next => rfl

theorem fractionLength_measure : Measure fractionLength := by
  refine .of (fun cs => ?_) (fun tail apart => ?_) fun c rest k tail le apart => ?_
  · rw [fractionLength.eq_def]
    split
    next rest =>
      have := digitRun_measure.fits rest
      rw [List.length_cons]
      split <;> omega
    next => exact Nat.zero_le _
  · cases tail with
    | nil => rfl
    | cons c rest =>
      refine fractionLength_of_ne ?_ rest
      rintro rfl
      exact absurd (apart _ _ rfl) (by decide)
  · by_cases point : c = '.'
    · obtain rfl := point
      rw [fractionLength] at le ⊢
      have digits : digitRun (rest.take k ++ tail) = digitRun rest :=
        digitRun_measure.cut (by split at le <;> omega) apart
      rw [digits, fractionLength]
    · rw [fractionLength_of_ne point, fractionLength_of_ne point]

theorem signLength_measure : Measure signLength := by
  refine .of (fun cs => ?_) (fun tail apart => ?_) fun c rest k tail le apart => ?_
  · rw [signLength.eq_def]
    split <;> simp
  · rw [signLength.eq_def]
    split
    next => exact absurd (apart _ _ rfl) (by decide)
    next => exact absurd (apart _ _ rfl) (by decide)
    next => rfl
  · rw [signLength.eq_def, signLength.eq_def]
    split <;> split <;> simp_all

theorem signLength_le_one (cs : List Char) : signLength cs ≤ 1 := by
  rw [signLength.eq_def]
  split <;> omega

theorem exponentLength_measure : Measure exponentLength := by
  refine .of (fun cs => ?_) (fun tail apart => ?_) fun c rest k tail le apart => ?_
  · cases cs with
    | nil => exact Nat.le_refl _
    | cons c rest =>
      have sign := signLength_measure.fits rest
      have digits := digitRun_measure.fits (rest.drop (signLength rest))
      rw [List.length_drop] at digits
      rw [exponentLength, List.length_cons]
      split
      · dsimp only
        split <;> omega
      · omega
  · cases tail with
    | nil => rfl
    | cons c rest =>
      rw [exponentLength, if_neg]
      rintro (rfl | rfl) <;> exact absurd (apart _ _ rfl) (by decide)
  · rw [exponentLength] at le ⊢
    rw [exponentLength]
    by_cases letter : c = 'e' ∨ c = 'E'
    · rw [if_pos letter] at le ⊢
      rw [if_pos letter]
      dsimp only at le ⊢
      by_cases enough : signLength rest ≤ k
      · rw [signLength_measure.cut enough apart, drop_cut enough (signLength_measure.fits rest),
          digitRun_measure.cut (by split at le <;> omega) apart]
      · -- The cut is between the letter and a sign, so no digits come behind the sign.
        have := signLength_le_one rest
        obtain rfl : k = 0 := by omega
        have digits : digitRun (rest.drop (signLength rest)) = 0 := by
          split at le <;> omega
        rw [List.take_zero, List.nil_append, signLength_measure.apart apart, List.drop_zero,
          digitRun_measure.apart apart, digits]
        rfl
    · rw [if_neg letter, if_neg letter]

theorem numberLength_measure : Measure numberLength where
  fits cs := by
    have whole := digitRun_measure.fits cs
    have fraction := fractionLength_measure.fits (cs.drop (digitRun cs))
    have exponent := exponentLength_measure.fits
      (cs.drop (digitRun cs + fractionLength (cs.drop (digitRun cs))))
    rw [List.length_drop] at fraction exponent
    rw [numberLength]
    split <;> omega
  cut {cs k tail} le apart := by
    have whole := digitRun_measure.fits cs
    have fraction := fractionLength_measure.fits (cs.drop (digitRun cs))
    rw [List.length_drop] at fraction
    rw [numberLength] at le
    have sameWhole : digitRun (cs.take k ++ tail) = digitRun cs :=
      digitRun_measure.cut (by split at le <;> omega) apart
    have sameFraction : fractionLength ((cs.take k ++ tail).drop (digitRun cs)) =
        fractionLength (cs.drop (digitRun cs)) := by
      rw [drop_cut (by split at le <;> omega) whole]
      exact fractionLength_measure.cut (by split at le <;> omega) apart
    rw [numberLength, numberLength, sameWhole, sameFraction]
    split
    · rfl
    next some =>
      rw [if_neg some] at le
      rw [drop_cut (by omega) (by omega), exponentLength_measure.cut (by omega) apart]

theorem nameLength_measure : Measure nameLength := by
  refine .of (fun cs => ?_) (fun tail apart => ?_) fun c rest k tail le apart => ?_
  · cases cs with
    | nil => exact Nat.le_refl _
    | cons c rest =>
      have := (List.takeWhile_sublist isNamePart (l := rest)).length_le
      rw [nameLength, List.length_cons]
      split <;> omega
  · cases tail with
    | nil => rfl
    | cons c rest =>
      rw [nameLength, if_neg]
      intro start
      have part := isNamePart_of_start start
      rw [isNamePart_of_isBlank (apart _ _ rfl)] at part
      cases part
  · rw [nameLength] at le ⊢
    rw [nameLength]
    split
    next start =>
      rw [if_pos start] at le
      rw [(takeWhile_measure fun _ => isNamePart_of_isBlank).cut (by omega) apart]
    next => rfl

/-! ### Lexemes -/

section

variable {cs tail : List Char} {lexeme : Lexeme} {length k : Nat}

theorem lexeme?_fits (found : lexeme? cs = some (lexeme, length)) :
    0 < length ∧ length ≤ cs.length := by
  rw [lexeme?] at found
  split at found
  next number =>
    cases found
    exact ⟨Nat.pos_of_ne_zero number, numberLength_measure.fits cs⟩
  · split at found
    next name =>
      cases found
      exact ⟨Nat.pos_of_ne_zero name, nameLength_measure.fits cs⟩
    next =>
      cases cs with
      | nil => cases found
      | cons c rest =>
        obtain ⟨_, -, same⟩ := Option.map_eq_some_iff.1 found
        cases same
        exact ⟨Nat.one_pos, Nat.le_add_left ..⟩

/-- Cut behind a lexeme, a text has the same lexeme. -/
theorem lexeme?_cut (found : lexeme? cs = some (lexeme, length)) (le : length ≤ k)
    (apart : Apart tail) : lexeme? (cs.take k ++ tail) = some (lexeme, length) := by
  have fits := lexeme?_fits found
  rw [lexeme?] at found ⊢
  split at found
  next number =>
    cases found
    rw [numberLength_measure.cut le apart, if_pos number,
      take_cut le (numberLength_measure.fits cs)]
  next number =>
    rw [numberLength_measure.cut (by omega) apart, if_neg number]
    split at found
    next name =>
      cases found
      rw [nameLength_measure.cut le apart, if_pos name, take_cut le (nameLength_measure.fits cs)]
    next name =>
      rw [nameLength_measure.cut (by omega) apart, if_neg name, ← found]
      cases cs with
      | nil => cases found
      | cons c rest =>
        obtain ⟨k, rfl⟩ := Nat.exists_eq_succ_of_ne_zero (show k ≠ 0 by omega)
        rw [List.take_succ_cons, List.cons_append, List.head?_cons, List.head?_cons]

theorem numberLength_le (found : lexeme? cs = some (lexeme, length)) :
    numberLength cs ≤ length := by
  rw [lexeme?] at found
  split at found
  next => cases found; exact Nat.le_refl _
  next number => omega

theorem isDotted_cut (found : lexeme? cs = some (lexeme, length))
    (undotted : isDotted length cs = false) (le : length ≤ k) (apart : Apart tail) :
    isDotted length (cs.take k ++ tail) = false := by
  have fits := (lexeme?_fits found).2
  have short : (cs.take k).length = min k cs.length := List.length_take
  have same := numberLength_measure.cut (Nat.le_trans (numberLength_le found) le) apart
  rw [isDotted, Bool.and_eq_false_iff, decide_eq_false_iff_not,
    decide_eq_false_iff_not] at undotted ⊢
  rw [same]
  refine undotted.imp_right fun pointless point => ?_
  by_cases inside : length < (cs.take k).length
  · rw [List.getElem?_append_left inside, List.getElem?_take_of_lt (by omega)] at point
    exact pointless point
  · have behind : length - (cs.take k).length = 0 := by omega
    rw [List.getElem?_append_right (by omega), behind] at point
    cases tail with
    | nil => cases point
    | cons c rest =>
      cases point
      exact absurd (apart _ _ rfl) (by decide)

end

/-! ### Tokens -/

/-- The tokens of a text whose first character has the given position, one step after another. -/
inductive Lexes : Nat → List Char → List Token → Prop where
  | nil {position} : Lexes position [] []
  | blank {position c rest ts} (blank : Text.isBlank c = true)
      (further : Lexes (position + 1) rest ts) : Lexes position (c :: rest) ts
  | token {position c rest lexeme length ts} (solid : Text.isBlank c = false)
      (found : lexeme? (c :: rest) = some (lexeme, length))
      (undotted : isDotted length (c :: rest) = false)
      (further : Lexes (position + length) ((c :: rest).drop length) ts) :
      Lexes position (c :: rest) (⟨lexeme, position⟩ :: ts)

theorem Lexes.tokensFrom {position : Nat} {cs : List Char} {ts : List Token}
    (h : Lexes position cs ts) : tokensFrom position cs = .ok ts := by
  induction h with
  | nil => rw [Formula.tokensFrom]
  | blank blank further ih => rw [Formula.tokensFrom, if_pos blank, ih]
  | @token position c rest lexeme length ts solid found undotted further ih =>
    obtain ⟨length, rfl⟩ := Nat.exists_eq_succ_of_ne_zero (Nat.ne_of_gt (lexeme?_fits found).1)
    rw [List.drop_succ_cons] at ih
    rw [Formula.tokensFrom, if_neg (by rw [solid]; decide), found]
    dsimp only
    rw [if_neg (by rw [undotted]; decide), Nat.succ_sub_one, ih]

theorem lexes_of_tokensFrom {position : Nat} {cs : List Char} {ts : List Token}
    (read : tokensFrom position cs = .ok ts) : Lexes position cs ts := by
  induction position, cs using tokensFrom.induct generalizing ts with
  | case1 position =>
    rw [tokensFrom] at read
    cases read
    exact .nil
  | case2 position c rest blank ih =>
    rw [tokensFrom, if_pos blank] at read
    exact .blank blank (ih read)
  | case3 position c rest solid none =>
    rw [tokensFrom, if_neg solid, none] at read
    cases read
  | case4 position c rest solid lexeme length found dotted =>
    rw [tokensFrom, if_neg solid, found] at read
    dsimp only at read
    rw [if_pos dotted] at read
    cases read
  | case5 position c rest solid lexeme length found undotted err further ih =>
    rw [tokensFrom, if_neg solid, found] at read
    dsimp only at read
    rw [if_neg undotted, further] at read
    cases read
  | case6 position c rest solid lexeme length found undotted others further ih =>
    rw [tokensFrom, if_neg solid, found] at read
    dsimp only at read
    rw [if_neg undotted, further] at read
    cases read
    obtain ⟨length, rfl⟩ := Nat.exists_eq_succ_of_ne_zero (Nat.ne_of_gt (lexeme?_fits found).1)
    exact .token (eq_false_of_ne_true solid) found (eq_false_of_ne_true undotted)
      (ih further)

/-- Where tokens begin, or the text ends. -/
def startOf (stop : Nat) : List Token → Nat
  | [] => stop
  | token :: _ => token.position

theorem Lexes.le_startOf {position : Nat} {cs : List Char} {ts before rest : List Token}
    (h : Lexes position cs ts) (split : ts = before ++ rest) {stop : Nat}
    (ends : position + cs.length = stop) : position ≤ startOf stop rest := by
  induction h generalizing before with
  | nil =>
    rw [(List.append_eq_nil_iff.1 split.symm).2]
    exact Nat.le.intro ends
  | blank blank further ih =>
    rw [List.length_cons] at ends
    exact Nat.le_of_succ_le (ih split (by omega))
  | @token position c cs lexeme length ts solid found undotted further ih =>
    cases before with
    | nil =>
      rw [← split.trans (List.nil_append rest)]
      exact Nat.le_refl _
    | cons token before =>
      have fits := (lexeme?_fits found).2
      have := ih (List.cons.inj split).2 (by rw [List.length_drop]; omega)
      exact Nat.le_trans (Nat.le_add_right ..) this

/-- The tokens in the first characters of a text, so many as the last number says, one step after
another. The text behind them counts, as it can make the last of them longer. -/
inductive Finds : Nat → List Char → List Token → Nat → Prop where
  | stop {position cs} : Finds position cs [] 0
  | blank {position c rest ts k} (blank : Text.isBlank c = true)
      (further : Finds (position + 1) rest ts k) : Finds position (c :: rest) ts (k + 1)
  | token {position c rest lexeme length ts k} (solid : Text.isBlank c = false)
      (found : lexeme? (c :: rest) = some (lexeme, length))
      (undotted : isDotted length (c :: rest) = false)
      (further : Finds (position + length) ((c :: rest).drop length) ts k) :
      Finds position (c :: rest) (⟨lexeme, position⟩ :: ts) (length + k)

/-- Up to where one of its tokens begins, or to its end, a text has the tokens before. -/
theorem Lexes.finds {position : Nat} {cs : List Char} {ts before rest : List Token}
    (h : Lexes position cs ts) (split : ts = before ++ rest) {stop k : Nat}
    (ends : position + cs.length = stop) (start : startOf stop rest = position + k) :
    Finds position cs before k := by
  induction h generalizing before k with
  | nil =>
    obtain ⟨rfl, rfl⟩ := List.append_eq_nil_iff.1 split.symm
    obtain rfl : k = 0 := by rw [startOf, ← ends, List.length_nil] at start; omega
    exact .stop
  | @blank position c cs ts blank behind ih =>
    rw [List.length_cons] at ends
    have le : position + 1 ≤ startOf stop rest := behind.le_startOf split (by omega)
    obtain ⟨k, rfl⟩ := Nat.exists_eq_add_of_le' (show 1 ≤ k by omega)
    rw [← Nat.add_assoc, Nat.add_right_comm] at start
    exact .blank blank (ih split (by omega) start)
  | @token position c cs lexeme length ts solid found undotted behind ih =>
    cases before with
    | nil =>
      rw [← split.trans (List.nil_append rest)] at start
      obtain rfl : k = 0 := Nat.left_eq_add.1 start
      exact .stop
    | cons token before =>
      obtain ⟨rfl, others⟩ := List.cons.inj split
      have fits := (lexeme?_fits found).2
      have ends : position + length + ((c :: cs).drop length).length = stop := by
        rw [List.length_drop]; omega
      have le := behind.le_startOf others ends
      obtain ⟨k, rfl⟩ := Nat.exists_eq_add_of_le (show length ≤ k by omega)
      exact .token solid found undotted
        (ih others ends (start.trans (Nat.add_assoc ..).symm))

/-- Cut behind the characters in which tokens are found, a text has these tokens, and behind them
those of what comes behind the cut, if that is a blank. -/
theorem Finds.append {position k : Nat} {cs tail : List Char} {before more : List Token}
    (h : Finds position cs before k) (apart : Apart tail)
    (further : Lexes (position + k) tail more) :
    Lexes position (cs.take k ++ tail) (before ++ more) := by
  induction h with
  | stop => exact further
  | @blank position c cs ts k blank behind ih =>
    rw [← Nat.add_assoc, Nat.add_right_comm] at further
    exact .blank blank (ih further)
  | @token position c cs lexeme length ts k solid found undotted behind ih =>
    obtain ⟨pos, fits⟩ := lexeme?_fits found
    have found' := lexeme?_cut found (Nat.le_add_right length k) apart
    have undotted' := isDotted_cut found undotted (Nat.le_add_right length k) apart
    have behind' := ih (by rwa [Nat.add_assoc])
    have dropped : ((c :: cs).take (length + k) ++ tail).drop length =
        ((c :: cs).drop length).take k ++ tail := by
      rw [drop_cut (Nat.le_add_right ..) fits, Nat.add_sub_cancel_left]
    rw [← dropped] at behind'
    obtain ⟨k', is⟩ := Nat.exists_eq_succ_of_ne_zero (show length + k ≠ 0 by omega)
    rw [is] at found' undotted' behind' ⊢
    exact .token solid found' undotted' behind'

/-- Cut where one of its tokens begins, or at its end, a text has the tokens before the cut, and
behind them those of what comes behind the cut, if that is a blank. -/
theorem Lexes.cut {position : Nat} {cs tail : List Char} {ts before rest more : List Token}
    (h : Lexes position cs ts) (split : ts = before ++ rest) {stop k : Nat}
    (ends : position + cs.length = stop) (start : startOf stop rest = position + k)
    (apart : Apart tail) (further : Lexes (position + k) tail more) :
    Lexes position (cs.take k ++ tail) (before ++ more) :=
  (h.finds split ends start).append apart further

end MonteCarloSheet.Formula
