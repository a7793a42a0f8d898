import MonteCarloSheet.Proofs.Formula.Lockstep

/-! Arithmetic sample by sample.

A formula of numbers, references and operators is evaluated on whole lists of
samples. What it comes to at the `i`-th position is what the operators make of the
`i`-th samples alone (`Expr.scalarAt`), and it fails exactly where they fail at some
position (`evaluate_at_once`). A power is the one operator that looks at the shape
of its right operand: an exponent that is a single number has shortcuts
(`Operator.shortcut`). So the same formula with its samples put in for the
references comes to the same numbers where no exponent with samples meets one of
these (`scalarAt_atSample`). -/
namespace MonteCarloSheet

open Formula (Expr Operator Evaluation Stop Answering)
open MonteCarloSheet.Random (Generator)

/-! ### Positions of a value -/

namespace Value

/-- The number of a value at a position. -/
def nth (i : Nat) : Value → Float
  | number x => x
  | samples xs => xs.getD i Number.nan

/-- A number, or exactly so many samples. -/
def Counts (count : Nat) : Value → Prop
  | number _ => True
  | samples xs => xs.length = count

/-- The operator on the numbers of two operands at a position. -/
def meet (o : Operator) (left right : Value) (i : Nat) : Float :=
  if right.isSamples then o.apply (left.nth i) (right.nth i)
  else o.applyTo (right.nth i) (left.nth i)

variable {count : Nat} {o : Operator} {left right v : Value}

theorem nth_map (f : Float → Float) (h : v.Counts count) {i : Nat} (below : i < count) :
    (v.map f).nth i = f (v.nth i) := by
  cases v with
  | number x => rfl
  | samples xs =>
    change xs.length = count at h
    simp [map, nth, h, below]

theorem counts_pair (hl : left.Counts count) (hr : right.Counts count) :
    (pair o left right).Counts count := by
  cases left <;> cases right <;> simp_all [pair, Counts]

theorem isSamples_pair : (pair o left right).isSamples = (left.isSamples || right.isSamples) := by
  cases left <;> cases right <;> rfl

/-- Samples pair by position, and a number meets every sample. -/
theorem nth_pair (hl : left.Counts count) (hr : right.Counts count) {i : Nat} (below : i < count) :
    (pair o left right).nth i = meet o left right i := by
  cases left <;> cases right <;> simp_all [pair, Counts, nth, meet, isSamples]

theorem checkCounts_ok (hl : left.Counts count) (hr : right.Counts count) :
    checkCounts count left right = .ok () := by
  cases left <;> cases right <;> simp_all [Counts, checkCounts, checkCount]

/-- A divisor has a zero exactly if it has one at some position. -/
theorem hasZero_iff (enough : 0 < count) (h : v.Counts count) :
    v.hasZero = true ↔ ∃ i < count, (v.nth i == 0.0) = true := by
  cases v with
  | number x => exact ⟨fun zero => ⟨0, enough, zero⟩, fun ⟨_, _, zero⟩ => zero⟩
  | samples xs =>
    change xs.length = count at h
    subst h
    rw [hasZero, List.any_eq_true]
    constructor
    · rintro ⟨x, mem, zero⟩
      obtain ⟨i, below, rfl⟩ := List.getElem_of_mem mem
      exact ⟨i, below, by simpa [nth, below] using zero⟩
    · rintro ⟨i, below, zero⟩
      exact ⟨xs[i], List.getElem_mem below, by simpa [nth, below] using zero⟩

end Value

namespace Formula

/-! ### Exponents with shortcuts -/

/-- The exponents for which a power with a single exponent is a quotient, a root or a product. -/
def Operator.shortcut (exponent : Float) : Bool :=
  exponent == -1.0 || exponent == 0.5 || exponent == 2.0

/-- All other operators, and a power with another exponent, are the same for a single right
operand. -/
theorem Operator.applyTo_eq {o : Operator} {right : Float}
    (plain : o = .power → shortcut right = false) (left : Float) :
    o.applyTo right left = o.apply left right := by
  cases o with
  | power =>
    have none := plain rfl
    rw [shortcut, Bool.or_eq_false_iff, Bool.or_eq_false_iff] at none
    obtain ⟨⟨quotient, root⟩, product⟩ := none
    simp [applyTo, raised, apply, quotient, root, product]
  | _ => rfl

namespace Expr

/-! ### Scalar evaluation -/

/-- Built from numbers, references, negation and the binary operators. -/
inductive Arithmetic : Expr → Prop where
  | number (x : Float) : Arithmetic (.number x)
  | reference (name : String) : Arithmetic (.reference name)
  | binary (o : Operator) {left right : Expr} (hl : Arithmetic left) (hr : Arithmetic right) :
      Arithmetic (.binary o left right)
  | negation {operand : Expr} (h : Arithmetic operand) : Arithmetic (.negation operand)

variable (values : String → Value)

/-- Whether a formula refers to samples. -/
def sampled (e : Expr) : Bool :=
  e.references.any fun name => (values name).isSamples

mutual

/-- The formula with each reference to samples replaced by the sample at a position. -/
def atSample (i : Nat) : Expr → Expr
  | number x => number x
  | reference name =>
    if (values name).isSamples then number ((values name).nth i) else reference name
  | range left right => range (left.atSample i) (right.atSample i)
  | call function arguments => call function (allAtSample i arguments)
  | binary o left right => binary o (left.atSample i) (right.atSample i)
  | negation operand => negation (operand.atSample i)

def allAtSample (i : Nat) : List Expr → List Expr
  | [] => []
  | e :: rest => e.atSample i :: allAtSample i rest

end

/-- What an arithmetic formula comes to at a position, if it stands in the room and divides by no
zero there. A power whose exponent refers to samples has no shortcuts. -/
def scalarAt (i : Nat) : Nat → Expr → Option Float
  | 0, _ => none
  | _ + 1, number x => some x
  | _ + 1, reference name => some ((values name).nth i)
  | room + 1, binary o left right => do
    let a ← scalarAt i room left
    let b ← scalarAt i room right
    if o = .divide ∧ b == 0.0 then none
    else if right.sampled values then some (o.apply a b)
    else some (o.applyTo b a)
  | room + 1, negation operand => (scalarAt i room operand).map (-·)
  | _ + 1, range _ _ => none
  | _ + 1, call _ _ => none

/-- No power whose exponent refers to samples has an exponent with a shortcut at the position. -/
def Plain (i : Nat) : Expr → Prop
  | binary o left right => left.Plain i ∧ right.Plain i ∧
      (o = .power → right.sampled values = true →
        ∀ room b, scalarAt values i room right = some b → Operator.shortcut b = false)
  | negation operand => operand.Plain i
  | _ => True

end Expr

/-! ### Evaluation at once -/

/-- An evaluation and the scalar ones at all positions end alike: with a value of the given shape
that has their numbers, or with a stop where one of them fails. -/
inductive AtOnce (count : Nat) (sampled : Bool) (scalar : Nat → Option Float) (g : Generator)
    (s : σ) : Except Stop (Option Value × Generator) × σ → Prop where
  | value (v : Value) (counts : v.Counts count) (shape : v.isSamples = sampled)
      (each : ∀ i < count, scalar i = some (v.nth i)) :
      AtOnce count sampled scalar g s (.ok (some v, g), s)
  | stop (x : Stop) (i : Nat) (below : i < count) (fails : scalar i = none) :
      AtOnce count sampled scalar g s (.error x, s)

section
variable {count : Nat} {values : String → Value} {refer : Nat → String → Answering σ (Option Value)}
  {s : σ}

/-- The last step of a binary operator on operands that have been evaluated at once. -/
theorem combined_at_once (enough : 0 < count) {o : Operator} {left right : Expr} {a b : Value}
    {room : Nat} {g : Generator} (countsA : a.Counts count) (countsB : b.Counts count)
    (shapeA : a.isSamples = left.sampled values) (shapeB : b.isSamples = right.sampled values)
    (eachA : ∀ i < count, left.scalarAt values i room = some (a.nth i))
    (eachB : ∀ i < count, right.scalarAt values i room = some (b.nth i)) :
    AtOnce count ((Expr.binary o left right).sampled values)
      ((Expr.binary o left right).scalarAt values · (room + 1)) g s
      ((some <$> check (combined count o (some a) (some b)) : Evaluation σ _) g s) := by
  have scalar : ∀ i < count, (Expr.binary o left right).scalarAt values i (room + 1) =
      if o = .divide ∧ b.nth i == 0.0 then none else some (Value.meet o a b i) := by
    intro i below
    rw [Expr.scalarAt, eachA i below, eachB i below, ← shapeB, Value.meet]
    simp only [Option.bind_eq_bind, Option.bind_some]
    split
    · rfl
    · split <;> rfl
  by_cases zero : o = .divide ∧ b.hasZero = true
  · have stops : combined count o (some a) (some b) = .error .divisionByZero := by
      simp only [combined, Option.getD_some, Value.combine, Value.checkCounts_ok countsA countsB]
      exact if_pos zero
    obtain ⟨i, below, nought⟩ := (Value.hasZero_iff enough countsB).1 zero.2
    rw [stops]
    exact .stop _ i below ((scalar i below).trans (if_pos ⟨zero.1, nought⟩))
  · have goes : combined count o (some a) (some b) = .ok (Value.pair o a b) := by
      simp only [combined, Option.getD_some, Value.combine, Value.checkCounts_ok countsA countsB]
      exact if_neg zero
    rw [goes]
    refine .value _ (Value.counts_pair countsA countsB) ?_ fun i below => ?_
    · rw [Value.isSamples_pair, shapeA, shapeB]
      simp [Expr.sampled, Expr.references]
    · rw [scalar i below, Value.nth_pair countsA countsB below, if_neg]
      exact fun nought => zero ⟨nought.1, (Value.hasZero_iff enough countsB).2 ⟨i, below, nought.2⟩⟩

/-- The last step of a negation of an operand that has been evaluated at once. -/
theorem negated_at_once {operand : Expr} {a : Value} {room : Nat} {g : Generator}
    (counts : a.Counts count) (shape : a.isSamples = operand.sampled values)
    (each : ∀ i < count, operand.scalarAt values i room = some (a.nth i)) :
    AtOnce count ((Expr.negation operand).sampled values)
      ((Expr.negation operand).scalarAt values · (room + 1)) g s
      ((do let b ← need (some a); some <$> check (b.negate count) : Evaluation σ _) g s) := by
  have negated : a.negate count = .ok (a.map (-·)) := by
    cases a with
    | number x => rfl
    | samples xs =>
      change xs.length = count at counts
      simp [Value.negate, Value.checkCount, counts, Value.map]
  change AtOnce _ _ _ g s ((some <$> check (a.negate count) : Evaluation σ _) g s)
  rw [negated]
  refine .value _ ?_ ?_ fun i below => ?_
  · cases a with
    | number x => trivial
    | samples xs => exact (List.length_map _).trans counts
  · cases a <;> exact shape
  · rw [Expr.scalarAt, each i below, Value.nth_map _ counts below]
    rfl

/-- Where references have values of the right count, arithmetic is evaluated at all positions at
once. -/
theorem evaluate_at_once (enough : 0 < count) {e : Expr} (arithmetic : e.Arithmetic)
    (answers : ∀ name ∈ e.references,
      (values name).Counts count ∧ ∀ room, refer room name s = (.ok (some (values name)), s))
    (room : Nat) (g : Generator) :
    AtOnce count (e.sampled values) (e.scalarAt values · room) g s
      (evaluate refer count room e g s) := by
  induction arithmetic generalizing room with
  | number x =>
    cases room with
    | zero => exact .stop _ 0 enough rfl
    | succ room => exact .value (.number x) trivial rfl fun _ _ => rfl
  | reference name =>
    cases room with
    | zero => exact .stop _ 0 enough rfl
    | succ room =>
      obtain ⟨counts, answer⟩ := answers name List.mem_cons_self
      rw [evaluate, lift_run, answer]
      exact .value (values name) counts (by simp [Expr.sampled, Expr.references]) fun _ _ => rfl
  | @binary o left right hl hr ihl ihr =>
    cases room with
    | zero => exact .stop _ 0 enough rfl
    | succ room =>
      have first := ihl (fun name mem => answers name (List.mem_append_left _ mem)) room
      have second := ihr (fun name mem => answers name (List.mem_append_right _ mem)) room
      rw [evaluate, bind_run]
      generalize evaluate refer count room left g s = out at first
      cases first with
      | stop x i below fails => exact .stop x i below (by rw [Expr.scalarAt, fails]; rfl)
      | value a countsA shapeA eachA =>
        dsimp only
        rw [bind_run]
        generalize evaluate refer count room right g s = out at second
        cases second with
        | stop x i below fails =>
          exact .stop x i below (by rw [Expr.scalarAt, eachA i below, fails]; rfl)
        | value b countsB shapeB eachB =>
          exact combined_at_once enough countsA countsB shapeA shapeB eachA eachB
  | @negation operand h ih =>
    cases room with
    | zero => exact .stop _ 0 enough rfl
    | succ room =>
      have inner := ih answers room
      rw [evaluate, bind_run]
      generalize evaluate refer count room operand g s = out at inner
      cases inner with
      | stop x i below fails => exact .stop x i below (by rw [Expr.scalarAt, fails]; rfl)
      | value a counts shape each => exact negated_at_once counts shape each

end

/-! ### Samples put in for references -/

section
variable {values : String → Value} {i : Nat} {e : Expr}

/-- A formula that refers to no samples comes to the same at all positions. -/
theorem scalarAt_of_single (h : e.Arithmetic) (single : e.sampled values = false) (i j room : Nat) :
    e.scalarAt values i room = e.scalarAt values j room := by
  induction h generalizing room with
  | number x => cases room <;> rfl
  | reference name =>
    cases room with
    | zero => rfl
    | succ room =>
      rw [Expr.scalarAt, Expr.scalarAt]
      cases same : values name with
      | number x => rfl
      | samples xs => simp [Expr.sampled, Expr.references, same, Value.isSamples] at single
  | @binary o left right _ _ ihl ihr =>
    cases room with
    | zero => rfl
    | succ room =>
      rw [Expr.sampled, Expr.references, List.any_append, Bool.or_eq_false_iff] at single
      rw [Expr.scalarAt, Expr.scalarAt, ihl single.1, ihr single.2]
  | negation _ ih =>
    cases room with
    | zero => rfl
    | succ room => rw [Expr.scalarAt, Expr.scalarAt, ih single]

theorem Expr.Arithmetic.atSample (h : e.Arithmetic) : (e.atSample values i).Arithmetic := by
  induction h with
  | number x => exact .number x
  | reference name =>
    rw [Expr.atSample]
    split
    · exact .number _
    · exact .reference name
  | binary o _ _ ihl ihr => exact .binary o ihl ihr
  | negation _ ih => exact .negation ih

/-- The references that are left are to numbers. -/
theorem Expr.Arithmetic.mem_references_atSample (h : e.Arithmetic) {name : String}
    (mem : name ∈ (e.atSample values i).references) :
    name ∈ e.references ∧ (values name).isSamples = false := by
  induction h with
  | number x => cases mem
  | reference other =>
    rw [Expr.atSample] at mem
    split at mem
    · cases mem
    next number =>
      obtain rfl := List.mem_singleton.1 mem
      exact ⟨mem, Bool.eq_false_iff.2 number⟩
  | binary o _ _ ihl ihr =>
    rcases List.mem_append.1 mem with left | right
    · exact (ihl left).imp_left (List.mem_append_left _)
    · exact (ihr right).imp_left (List.mem_append_right _)
  | negation _ ih => exact ih mem

theorem Expr.Arithmetic.sampled_atSample (h : e.Arithmetic) :
    (e.atSample values i).sampled values = false := by
  rw [Expr.sampled, List.any_eq_false]
  intro name mem
  rw [(h.mem_references_atSample mem).2]
  exact Bool.false_ne_true

/-- The formula with the samples of a position put in comes to the same number, unless an exponent
with samples meets a shortcut there. -/
theorem scalarAt_atSample (h : e.Arithmetic) (plain : e.Plain values i) (j room : Nat) :
    (e.atSample values i).scalarAt values j room = e.scalarAt values i room := by
  induction h generalizing room with
  | number x => cases room <;> rfl
  | reference name =>
    cases room with
    | zero => rw [Expr.scalarAt, Expr.scalarAt]
    | succ room =>
      rw [Expr.atSample]
      split
      · rfl
      next number =>
        rw [Expr.scalarAt, Expr.scalarAt]
        cases same : values name with
        | number x => rfl
        | samples xs => exact (number (by rw [same]; rfl)).elim
  | @binary o left right hl hr ihl ihr =>
    obtain ⟨plainL, plainR, exponent⟩ := plain
    cases room with
    | zero => rfl
    | succ room =>
      rw [Expr.atSample, Expr.scalarAt, Expr.scalarAt, ihl plainL, ihr plainR, hr.sampled_atSample]
      cases left.scalarAt values i room with
      | none => rfl
      | some a =>
        cases power : right.scalarAt values i room with
        | none => rfl
        | some b =>
          by_cases sampled : right.sampled values = true
          · have same : o.applyTo b a = o.apply a b :=
              Operator.applyTo_eq (fun raises => exponent raises sampled room b power) a
            simp [sampled, same]
          · simp [sampled]
  | @negation operand h ih =>
    cases room with
    | zero => rfl
    | succ room => rw [Expr.atSample, Expr.scalarAt, Expr.scalarAt, ih plain]

end

end Formula

end MonteCarloSheet
