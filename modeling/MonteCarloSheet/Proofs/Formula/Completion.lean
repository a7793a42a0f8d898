import MonteCarloSheet.Proofs.Formula.Lookahead
import MonteCarloSheet.Proofs.Formula.Parsing

/-! What has been read can be ended.

Where a parser fails, a number in the place of a missing expression and parentheses
in the place of the missing ones make the tokens before a part of the grammar, unless
there is no level left (`Scan.CanEnd`). A step hands this on from what it has read to
what it reads next, and a part that is open around another is ended behind the end of
the inner one, within the same levels (`range_canEnd`). -/
namespace MonteCarloSheet.Formula

/-! ### Parts and their ends -/

/-- What ends an open part: a number in the place of an expression, a closing parenthesis. -/
inductive Filler where
  | one
  | closing
deriving DecidableEq, Repr

namespace Filler

def char : Filler → Char
  | one => '1'
  | closing => ')'

def lexeme : Filler → Lexeme
  | one => .number (decimalOf ['1']).nearest
  | closing => .closing

end Filler

/-- The tokens are a part of the grammar. -/
def Forms (part : Part) (n : Nat) (ts : List Token) : Prop :=
  ∃ e, Derives part n ts e

/-- The tokens are a part of the grammar that stands one level further in. -/
def FormsInside (part : Part) (n : Nat) (ts : List Token) : Prop :=
  ∃ m, n = m + 1 ∧ Forms part m ts

/-- The tokens are the arguments of a call, one or more. -/
def FormsAll (n : Nat) (ts : List Token) : Prop :=
  ∃ m es, n = m + 1 ∧ DerivesAll m ts es

/-- With some fillers behind them, wherever these stand in a text, the tokens have a form. -/
def Endable (forms : List Token → Prop) (read : List Token) : Prop :=
  ∃ fill : List Filler, ∀ more : List Token,
    more.map Token.lexeme = fill.map Filler.lexeme → forms (read ++ more)

section

variable {forms forms' : List Token → Prop} {read read' : List Token}

theorem Endable.of (h : forms read) : Endable forms read := by
  refine ⟨[], fun more nothing => ?_⟩
  rw [List.map_eq_nil_iff.1 nothing, List.append_nil]
  exact h

theorem Endable.into (h : Endable forms read)
    (into : ∀ more, forms (read ++ more) → forms' (read' ++ more)) : Endable forms' read' := by
  obtain ⟨fill, ends⟩ := h
  exact ⟨fill, fun more fills => into more (ends more fills)⟩

theorem Endable.of_closing (h : ∀ p, forms (read ++ [⟨.closing, p⟩])) : Endable forms read := by
  refine ⟨[.closing], fun more fills => ?_⟩
  obtain ⟨p, rfl⟩ := @singleton_of_lexemes .closing 0 more fills
  exact h p

/-- Inside parentheses the closing one comes behind all other fillers. -/
theorem Endable.closing (h : Endable forms read)
    (into : ∀ more p, forms (read ++ more) → forms' (read' ++ (more ++ [⟨.closing, p⟩]))) :
    Endable forms' read' := by
  obtain ⟨fill, ends⟩ := h
  refine ⟨fill ++ [.closing], fun more fills => ?_⟩
  rw [List.map_append, List.map_eq_append_iff] at fills
  obtain ⟨more, last, rfl, fills, closes⟩ := fills
  obtain ⟨p, rfl⟩ := @singleton_of_lexemes .closing 0 last closes
  exact into more p (ends more fills)

end

theorem Forms.number {n : Nat} {x : Float} {p : Nat} (part : Part) :
    Forms part n [⟨.number x, p⟩] := by
  refine ⟨.number x, ?_⟩
  have power : Derives .power n [⟨.number x, p⟩] (.number x) := .ofAtom .number
  have product : Derives .product n [⟨.number x, p⟩] (.number x) := .ofNegation (.ofPower power)
  cases part with
  | range => exact .ofSum (.ofProduct product)
  | sum => exact .ofProduct product
  | product => exact product
  | negation => exact .ofPower power
  | power => exact power
  | atom => exact .number

/-- A number can stand where any part is missing. -/
theorem endable_nil (part : Part) (n : Nat) : Endable (Forms part n) [] := by
  refine ⟨[.one], fun more fills => ?_⟩
  obtain ⟨p, rfl⟩ := @singleton_of_lexemes Filler.one.lexeme 0 more fills
  exact Forms.number part

namespace Parser

/-! ### Steps -/

/-- Where the scan fails, and not for want of levels, what is read behind `before` up to there can
be ended. -/
def Scan.CanEnd (forms : List Token → Prop) (before : List Token) (f : Scan α) (ts : List Token) :
    Prop :=
  ∀ reason rest, f ts = (.error reason, rest) → (∀ n, reason ≠ .tooNested n) →
    ∃ read, ts = read ++ rest ∧ Endable forms (before ++ read)

namespace Scan

variable {forms forms' : List Token → Prop} {before : List Token} {ts : List Token}

theorem done_canEnd (x : α) : (done x).CanEnd forms before ts := by
  rintro reason rest ⟨⟩

theorem fails_canEnd {reason : List Token → Malformation} (h : Endable forms before) :
    (fails reason : Scan α).CanEnd forms before ts := by
  rintro _ _ ⟨⟩ -
  exact ⟨[], rfl, by rwa [List.append_nil]⟩

/-- A part of which the scan reads another. -/
theorem CanEnd.into {f : Scan α} (h : f.CanEnd forms [] ts)
    (into : ∀ read, Endable forms read → Endable forms' (before ++ read)) :
    f.CanEnd forms' before ts := by
  intro reason rest result levels
  obtain ⟨read, split, endable⟩ := h reason rest result levels
  exact ⟨read, split, into read endable⟩

theorem CanEnd.andThen {f : Scan α} {next : α → Scan β} (first : f.CanEnd forms before ts)
    (then_ : ∀ x rest, f ts = (.ok x, rest) →
      ∃ read, ts = read ++ rest ∧ (next x).CanEnd forms (before ++ read) rest) :
    (f.andThen next).CanEnd forms before ts := by
  intro reason rest result levels
  rw [Scan.andThen] at result
  cases out : f ts with
  | mk x mid =>
    rw [out] at result
    cases x with
    | error reason' =>
      cases result
      exact first reason rest out levels
    | ok x =>
      obtain ⟨read, rfl, ends⟩ := then_ x mid out
      obtain ⟨read', rfl, endable⟩ := ends reason rest result levels
      exact ⟨read ++ read', (List.append_assoc ..).symm, by rwa [← List.append_assoc]⟩

theorem take_canEnd {kind : Lexeme → Option β} {hit : β → Scan α} {miss : Scan α}
    (hits : ∀ x token rest, ts = token :: rest → kind token.lexeme = some x →
      (hit x).CanEnd forms (before ++ [token]) rest)
    (misses : miss.CanEnd forms before ts) : (take kind hit miss).CanEnd forms before ts := by
  intro reason rest result levels
  cases ts with
  | nil => exact misses reason rest result levels
  | cons token ts =>
    rw [take] at result
    cases is : kind token.lexeme with
    | none =>
      rw [is] at result
      exact misses reason rest result levels
    | some x =>
      rw [is] at result
      obtain ⟨read, rfl, endable⟩ := hits x token ts rfl is reason rest result levels
      rw [List.append_assoc] at endable
      exact ⟨token :: read, rfl, endable⟩

theorem peek_canEnd {kind : Lexeme → Option β} {hit miss : Scan α}
    (hits : hit.CanEnd forms before ts) (misses : miss.CanEnd forms before ts) :
    (peek kind hit miss).CanEnd forms before ts := by
  intro reason rest result
  rw [peek] at result
  split at result
  · exact hits reason rest result
  · exact misses reason rest result

end Scan

open Scan

/-! ### Kinds -/

theorem eq_of_name? {lexeme : Lexeme} {name : String} (is : name? lexeme = some name) :
    lexeme = .name name := by
  cases lexeme <;> cases is
  rfl

theorem eq_of_opening? {lexeme : Lexeme} {x : Unit} (is : opening? lexeme = some x) :
    lexeme = .opening := by
  cases lexeme <;> cases is
  rfl

theorem eq_of_comma? {lexeme : Lexeme} {x : Unit} (is : comma? lexeme = some x) :
    lexeme = .comma := by
  cases lexeme <;> cases is
  rfl

theorem eq_of_rangeWord? {lexeme : Lexeme} {x : Unit} (is : rangeWord? lexeme = some x) :
    ∃ word, lexeme = .rangeWord word := by
  cases lexeme <;> cases is
  exact ⟨_, rfl⟩

theorem eq_of_sign? {o : Operator} {lexeme : Lexeme} {x : Unit} (is : sign? o lexeme = some x) :
    lexeme = .operator o := by
  cases lexeme with
  | operator o' =>
    rw [sign?] at is
    split at is
    next same => rw [same]
    next => cases is
  | _ => cases is

theorem eq_of_ranked? {rank : Operator → Bool} {lexeme : Lexeme} {o : Operator}
    (is : ranked? rank lexeme = some o) : lexeme = .operator o ∧ rank o = true := by
  cases lexeme with
  | operator o' =>
    rw [ranked?] at is
    split at is
    next ranks =>
      cases is
      exact ⟨rfl, ranks⟩
    next => cases is
  | _ => cases is

/-! ### Parsers -/

theorem closed_canEnd {forms : List Token → Prop} {before ts : List Token} (what : Expected) (x : α)
    (h : Endable forms before) : (closed what x).CanEnd forms before ts :=
  take_canEnd (fun _ _ _ _ _ => done_canEnd x) (fails_canEnd h)

/-- What is read one level further in can be ended there. -/
structure Inner.CanEnd (n : Nat) (inner : Inner) : Prop where
  range : ∀ ts, (scan inner.range).CanEnd (FormsInside .range n) [] ts
  negation : ∀ ts, (scan inner.negation).CanEnd (FormsInside .negation n) [] ts
  power : ∀ ts, (scan inner.power).CanEnd (FormsInside .power n) [] ts

section

variable {n : Nat} {inner : Inner}

/-- Once the first argument has been read, what follows behind commas can be ended. -/
theorem moreArguments_canEnd (sound : inner.Sound n) (h : inner.CanEnd n) {first : List Token}
    (is : FormsInside .range n first) (ts : List Token) :
    (scan (moreArguments inner)).CanEnd (FormsAll n) first ts := by
  obtain ⟨m, rfl, e, is⟩ := is
  induction length : ts.length using Nat.strongRecOn generalizing first e ts with
  | _ k ih =>
    rw [scan_moreArguments]
    refine take_canEnd (fun _ token rest split comma => ?_) (done_canEnd _)
    obtain ⟨lexeme, p⟩ := token
    obtain rfl : lexeme = .comma := eq_of_comma? comma
    have ahead : ∀ {us es}, DerivesAll m us es →
        FormsAll (m + 1) (first ++ [⟨.comma, p⟩] ++ us) := by
      intro us es others
      exact ⟨m, _, rfl, by simpa using .more is others⟩
    refine CanEnd.andThen ((h.range rest).into fun read ends => ends.into ?_) ?_
    · rintro more ⟨m', same, e', next⟩
      obtain rfl := Nat.succ.inj same
      rw [List.append_assoc]
      exact ahead (.last next)
    · intro e' mid result
      obtain ⟨second, m', same, rfl, next⟩ := sound.range _ _ _ (reads_iff_scan.2 result)
      obtain rfl := Nat.succ.inj same
      have shorter : mid.length < k := by
        rw [← length, split, List.length_cons, List.length_append]
        omega
      refine ⟨second, rfl, CanEnd.andThen ?_ fun others rest' result' => ?_⟩
      · intro reason rest' result' levels
        obtain ⟨read, same, endable⟩ := ih _ shorter mid e' next rfl reason rest' result' levels
        refine ⟨read, same, endable.into ?_⟩
        rintro more ⟨m', es, same, others⟩
        obtain rfl := Nat.succ.inj same
        rw [List.append_assoc, List.append_assoc, ← List.append_assoc second]
        exact ahead others
      · obtain ⟨read, same, -⟩ := moreArguments_sound sound (reads_iff_scan.2 result')
        exact ⟨read, same, done_canEnd _⟩

theorem arguments_canEnd (sound : inner.Sound n) (h : inner.CanEnd n) (ts : List Token) :
    (scan (arguments inner)).CanEnd (FormsAll n) [] ts := by
  rw [scan_arguments]
  refine peek_canEnd (done_canEnd _) (CanEnd.andThen ((h.range ts).into fun read ends => ?_) ?_)
  · refine ends.into ?_
    rintro more ⟨m, rfl, e, first⟩
    exact ⟨m, _, rfl, .last first⟩
  · intro e mid result
    obtain ⟨first, m, rfl, rfl, is⟩ := sound.range _ _ _ (reads_iff_scan.2 result)
    refine ⟨first, rfl, (moreArguments_canEnd sound h ⟨m, rfl, e, is⟩ mid).andThen ?_⟩
    intro others rest result'
    obtain ⟨read, same, -⟩ := moreArguments_sound sound (reads_iff_scan.2 result')
    exact ⟨read, same, done_canEnd _⟩

theorem atom_canEnd (sound : inner.Sound n) (h : inner.CanEnd n) (ts : List Token) :
    (scan (atom inner)).CanEnd (Forms .atom n) [] ts := by
  rw [scan_atom]
  refine take_canEnd (fun x _ _ _ _ => done_canEnd _) ?_
  refine take_canEnd (fun f token rest _ name => ?call)
    (take_canEnd (fun _ token rest _ opening => ?parentheses) ?missing)
  case call =>
    obtain ⟨lexeme, p⟩ := token
    obtain rfl := eq_of_name? name
    refine take_canEnd (fun _ token rest' _ opening => ?_) (done_canEnd _)
    obtain ⟨lexeme, q⟩ := token
    obtain rfl : lexeme = .opening := eq_of_opening? opening
    refine CanEnd.andThen ((arguments_canEnd sound h rest').into fun read ends => ?_) ?_
    · refine ends.closing ?_
      rintro more r ⟨m, es, rfl, arguments⟩
      exact ⟨_, by simpa using Derives.call arguments⟩
    · intro es mid result
      obtain ⟨rfl, rfl⟩ | ⟨read, m, rfl, rfl, is⟩ :=
        arguments_sound sound (reads_iff_scan.2 result)
      · refine ⟨[], rfl, closed_canEnd _ _ (.of_closing fun r => ?_)⟩
        exact ⟨_, .emptyCall⟩
      · refine ⟨read, rfl, closed_canEnd _ _ (.of_closing fun r => ?_)⟩
        exact ⟨_, by simpa using Derives.call is⟩
  case parentheses =>
    obtain ⟨lexeme, p⟩ := token
    obtain rfl : lexeme = .opening := eq_of_opening? opening
    refine CanEnd.andThen ((h.range rest).into fun read ends => ?_) ?_
    · refine ends.closing ?_
      rintro more q ⟨m, rfl, e, inside⟩
      exact ⟨_, by simpa using Derives.parentheses inside⟩
    · intro e mid result
      obtain ⟨read, m, rfl, rfl, is⟩ := sound.range _ _ _ (reads_iff_scan.2 result)
      refine ⟨read, rfl, closed_canEnd _ _ (.of_closing fun q => ?_)⟩
      exact ⟨_, by simpa using Derives.parentheses is⟩
  case missing => exact fails_canEnd (endable_nil .atom n)

theorem exponent_canEnd (h : inner.CanEnd n) (ts : List Token) :
    (scan (exponent inner)).CanEnd (FormsInside .negation n) [] ts := by
  rw [scan_exponent]
  refine peek_canEnd (h.negation ts) ((h.power ts).into fun read ends => ends.into ?_)
  rintro more ⟨m, rfl, e, power⟩
  exact ⟨m, rfl, e, .ofPower power⟩

theorem power_canEnd (sound : inner.Sound n) (h : inner.CanEnd n) (ts : List Token) :
    (scan (power inner)).CanEnd (Forms .power n) [] ts := by
  rw [scan_power]
  refine CanEnd.andThen ((atom_canEnd sound h ts).into fun read ends => ends.into ?_) ?_
  · rintro more ⟨e, atom⟩
    exact ⟨e, .ofAtom atom⟩
  · intro a mid result
    obtain ⟨base, rfl, is⟩ := atom_sound sound _ _ _ (reads_iff_scan.2 result)
    refine ⟨base, rfl, take_canEnd (fun _ token rest _ sign => ?_) (done_canEnd _)⟩
    obtain ⟨lexeme, p⟩ := token
    obtain rfl := eq_of_sign? sign
    refine CanEnd.andThen ((exponent_canEnd h rest).into fun read ends => ends.into ?_) ?_
    · rintro more ⟨m, rfl, b, exponent⟩
      exact ⟨_, by simpa using Derives.power is exponent⟩
    · intro b rest' result'
      obtain ⟨read, -, -, same, -⟩ := exponent_sound sound (reads_iff_scan.2 result')
      exact ⟨read, same, done_canEnd _⟩

theorem negation_canEnd (sound : inner.Sound n) (h : inner.CanEnd n) (ts : List Token) :
    (scan (negation inner)).CanEnd (Forms .negation n) [] ts := by
  rw [scan_negation]
  refine take_canEnd (fun _ token rest _ sign => ?_) ?_
  · obtain ⟨lexeme, p⟩ := token
    obtain rfl := eq_of_sign? sign
    refine CanEnd.andThen ((h.negation rest).into fun read ends => ends.into ?_) ?_
    · rintro more ⟨m, rfl, e, operand⟩
      exact ⟨_, .negation operand⟩
    · intro e rest' result
      obtain ⟨read, -, -, same, -⟩ := sound.negation _ _ _ (reads_iff_scan.2 result)
      exact ⟨read, same, done_canEnd _⟩
  · refine (power_canEnd sound h ts).into fun read ends => ends.into ?_
    rintro more ⟨e, power⟩
    exact ⟨e, .ofPower power⟩

omit inner in
/-- The part to the left of a chain grows by one operand after another. -/
theorem ranked_canEnd {whole single : Part} {rank : Operator → Bool} {operand : Parser Expr}
    (ofSingle : ∀ {ts e}, Derives single n ts e → Derives whole n ts e)
    (step : ∀ {ls rs a b o p}, rank o = true → Derives whole n ls a → Derives single n rs b →
      Derives whole n (ls ++ ⟨.operator o, p⟩ :: rs) (.binary o a b))
    (sound : Sound single n operand) (h : ∀ ts, (scan operand).CanEnd (Forms single n) [] ts)
    (ts : List Token) : (scan (ranked rank operand)).CanEnd (Forms whole n) [] ts := by
  have chain_canEnd : ∀ k left before ts, ts.length = k → Derives whole n before left →
      (scan (chain rank operand left)).CanEnd (Forms whole n) before ts := by
    intro k
    induction k using Nat.strongRecOn with
    | _ k ih =>
      intro left before ts length is
      rw [scan_chain]
      refine take_canEnd (fun o token rest split kind => ?_) (done_canEnd _)
      obtain ⟨lexeme, p⟩ := token
      obtain ⟨rfl, ranks⟩ := eq_of_ranked? kind
      refine CanEnd.andThen ((h rest).into fun read ends => ends.into ?_) ?_
      · rintro more ⟨b, right⟩
        exact ⟨_, by simpa using step ranks is right⟩
      · intro b mid result
        obtain ⟨right, rfl, next⟩ := sound _ _ _ (reads_iff_scan.2 result)
        refine ⟨right, rfl, ih mid.length ?_ _ _ mid rfl (by simpa using step ranks is next)⟩
        rw [← length, split, List.length_cons, List.length_append]
        omega
  rw [scan_ranked]
  refine CanEnd.andThen ((h ts).into fun read ends => ends.into ?_) ?_
  · rintro more ⟨e, single⟩
    exact ⟨e, ofSingle single⟩
  · intro a mid result
    obtain ⟨left, rfl, is⟩ := sound _ _ _ (reads_iff_scan.2 result)
    exact ⟨left, rfl, chain_canEnd _ _ _ _ rfl (ofSingle is)⟩

theorem product_canEnd (sound : inner.Sound n) (h : inner.CanEnd n) (ts : List Token) :
    (scan (product inner)).CanEnd (Forms .product n) [] ts :=
  ranked_canEnd .ofNegation (fun ranks => .product (isProduct_iff.1 ranks)) (negation_sound sound)
    (negation_canEnd sound h) ts

theorem sum_canEnd (sound : inner.Sound n) (h : inner.CanEnd n) (ts : List Token) :
    (scan (sum inner)).CanEnd (Forms .sum n) [] ts :=
  ranked_canEnd .ofProduct (fun ranks => .sum (isSum_iff.1 ranks)) (product_sound sound)
    (product_canEnd sound h) ts

theorem range_canEnd (sound : inner.Sound n) (h : inner.CanEnd n) (ts : List Token) :
    (scan (range inner)).CanEnd (Forms .range n) [] ts := by
  rw [scan_range]
  refine CanEnd.andThen ((sum_canEnd sound h ts).into fun read ends => ends.into ?_) ?_
  · rintro more ⟨e, sum⟩
    exact ⟨e, .ofSum sum⟩
  · intro a mid result
    obtain ⟨left, rfl, is⟩ := sum_sound sound _ _ _ (reads_iff_scan.2 result)
    refine ⟨left, rfl, take_canEnd (fun _ token rest _ word => ?_) (done_canEnd _)⟩
    obtain ⟨lexeme, p⟩ := token
    obtain ⟨w, rfl⟩ := eq_of_rangeWord? word
    refine CanEnd.andThen ((sum_canEnd sound h rest).into fun read ends => ends.into ?_) ?_
    · rintro more ⟨b, right⟩
      exact ⟨_, by simpa using Derives.range is right⟩
    · intro b rest' result'
      obtain ⟨read, same, -⟩ := sum_sound sound _ _ _ (reads_iff_scan.2 result')
      exact ⟨read, same, done_canEnd _⟩

end

theorem within_canEnd (n : Nat) : (within n).CanEnd n := by
  induction n with
  | zero =>
    have nested : ∀ part (ts : List Token),
        (scan (fun ts => .error ⟨.tooNested levels, ts⟩ : Parser Expr)).CanEnd
          (FormsInside part 0) [] ts := by
      rintro part ts _ _ ⟨⟩ enough
      exact (enough _ rfl).elim
    exact ⟨nested .range, nested .negation, nested .power⟩
  | succ n ih =>
    have outward : ∀ {part : Part} {f : Scan Expr} {ts : List Token},
        f.CanEnd (Forms part n) [] ts → f.CanEnd (FormsInside part (n + 1)) [] ts :=
      fun h => h.into fun read ends => ends.into fun more forms => ⟨n, rfl, forms⟩
    exact ⟨fun ts => outward (range_canEnd (within_sound n) ih ts),
      fun ts => outward (negation_canEnd (within_sound n) ih ts),
      fun ts => outward (power_canEnd (within_sound n) ih ts)⟩

/-! ### Formulas -/

/-- The tokens before a failure begin a formula, unless there was no level left. -/
theorem ofTokens_error_endable {ts : List Token} {f : Failure} (fails : ofTokens ts = .error f)
    (levels : ∀ n, f.reason ≠ .tooNested n) :
    ∃ before, ts = before ++ f.rest ∧ Endable (Forms .range 64) before := by
  rw [ofTokens_eq_scan] at fails
  split at fails
  next reason rest result =>
    cases fails
    exact range_canEnd (within_sound 64) (within_canEnd 64) ts reason rest result levels
  next => cases fails
  next e token rest result =>
    cases fails
    obtain ⟨read, same, is⟩ := range_sound (within_sound 64) _ _ _ (reads_iff_scan.2 result)
    exact ⟨read, same, .of ⟨e, is⟩⟩

end Parser

end MonteCarloSheet.Formula
