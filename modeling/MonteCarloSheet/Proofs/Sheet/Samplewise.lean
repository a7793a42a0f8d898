import MonteCarloSheet.Proofs.Formula.Samplewise
import MonteCarloSheet.Proofs.Sheet.Steps

/-! Arithmetic on the cells of a sheet, sample by sample.

References to fresh valid cells only read them, so arithmetic on such cells comes to
what the operators make of the samples at each position, and it fails exactly if they
fail at some position (`arithmetic_sample_wise`). A single number as exponent has
shortcuts that samples do not have: the root of an infinity below zero is not a
number, but the power of it by samples of one half is infinite
(`not_sample_wise_by_roots`). -/
namespace MonteCarloSheet

open Formula (Expr Stop)
open MonteCarloSheet.Random (Generator)

/-- The cell is not being evaluated, and it is valid and fresh with the value, a number or as many
samples as are asked for. -/
structure Progress.Gives (p : Progress) (count : Nat) (name : String) (v : Value) : Prop where
  idle : name ∉ p.active
  held : ∃ c, p.sheet.get? name = some c ∧ c.status = .valid ∧ c.isStale = false ∧
    c.output.reading = some v
  counts : v.Counts count

/-- The number that an evaluation comes to, if it succeeds with one. -/
def numberOf : Except Stop (Option Value) → Option Float
  | .ok (some (.number x)) => some x
  | _ => none

/-- An evaluation succeeds exactly if all scalar ones do. Then it comes to their numbers as samples,
or without samples to the one number of them all. -/
def SampleWise (count : Nat) (sampled : Bool) (result : Except Stop (Option Value))
    (scalar : Nat → Option Float) : Prop :=
  ((∃ v, result = .ok v) ↔ ∀ i < count, ∃ x, scalar i = some x) ∧
  ∀ v, result = .ok v →
    if sampled then
      ∃ xs, v = some (.samples xs) ∧ xs.length = count ∧ ∀ i < count, scalar i = xs[i]?
    else ∃ x, v = some (.number x) ∧ ∀ i < count, scalar i = some x

theorem sampleWise_of_value {count : Nat} {sampled : Bool} {scalar : Nat → Option Float} {v : Value}
    (counts : v.Counts count) (shape : v.isSamples = sampled)
    (each : ∀ i < count, scalar i = some (v.nth i)) :
    SampleWise count sampled (.ok (some v)) scalar := by
  refine ⟨⟨fun _ i below => ⟨_, each i below⟩, fun _ => ⟨_, rfl⟩⟩, fun w same => ?_⟩
  cases same
  subst shape
  cases v with
  | number x => exact ⟨x, rfl, each⟩
  | samples xs =>
    change xs.length = count at counts
    subst counts
    refine ⟨xs, rfl, rfl, fun i below => (each i below).trans ?_⟩
    simp [Value.nth, below]

theorem sampleWise_of_stop {count : Nat} {sampled : Bool} {scalar : Nat → Option Float} {x : Stop}
    {i : Nat} (below : i < count) (fails : scalar i = none) :
    SampleWise count sampled (.error x) scalar := by
  refine ⟨⟨fun ⟨v, absurd⟩ => (by cases absurd), fun all => ?_⟩, fun v absurd => by cases absurd⟩
  obtain ⟨x, value⟩ := all i below
  rw [fails] at value
  cases value

/-- An evaluation that succeeds is sample-wise for one choice of scalars only. -/
theorem SampleWise.scalar_eq {count : Nat} {sampled : Bool} {result : Except Stop (Option Value)}
    {scalar other : Nat → Option Float} (h : SampleWise count sampled result scalar)
    (h' : SampleWise count sampled result other) {v : Option Value} (succeeds : result = .ok v)
    {i : Nat} (below : i < count) : scalar i = other i := by
  have first := h.2 v succeeds
  have second := h'.2 v succeeds
  cases sampled with
  | true =>
    obtain ⟨xs, rfl, -, each⟩ := first
    obtain ⟨ys, same, -, each'⟩ := second
    cases same
    exact (each i below).trans (each' i below).symm
  | false =>
    obtain ⟨x, rfl, each⟩ := first
    obtain ⟨y, same, each'⟩ := second
    cases same
    exact (each i below).trans (each' i below).symm

section
variable {sim : Simulation} {p : Progress} {e : Expr} {values : String → Value}

/-- A reference to such a cell reads its value. -/
theorem Progress.Gives.reference_eq {count : Nat} {name : String} {v : Value}
    (gives : p.Gives count name v) (bring : Refresh) (room : Nat) :
    reference count bring room name p = (.ok (some v), p) := by
  obtain ⟨c, here, valid, fresh, reading⟩ := gives.held
  have sound : c.fault = none := by
    rw [Cell.status] at valid
    cases fault : c.fault with
    | none => rfl
    | some f =>
      rw [fault] at valid
      dsimp only at valid
      split at valid <;> cases valid
  have read : c.read name count = .ok (some v) := by
    rw [Cell.read, sound, reading]
    cases v with
    | number x => rfl
    | samples xs => exact if_pos (.inr gives.counts)
  rw [reference_fresh count bring room gives.idle fun d there => ?_, readOf, here]
  · dsimp only
    rw [read]
  · cases here.symm.trans there
    exact fresh

theorem evaluateOn_at_once (enough : 0 < sim.count) (arithmetic : e.Arithmetic)
    (gives : ∀ name ∈ e.references, p.Gives sim.count name (values name)) (g : Generator) :
    Formula.AtOnce sim.count (e.sampled values) (e.scalarAt values · sim.room) g p
      (Formula.evaluate (reference sim.count (refresh sim p.sheet.size)) sim.count sim.room e
        g p) :=
  Formula.evaluate_at_once enough arithmetic
    (fun name mem => ⟨(gives name mem).counts, (gives name mem).reference_eq _⟩) sim.room g

theorem evaluateOn_sampleWise (enough : 0 < sim.count) (arithmetic : e.Arithmetic)
    (gives : ∀ name ∈ e.references, p.Gives sim.count name (values name)) (g : Generator) :
    SampleWise sim.count (e.sampled values) (evaluateOn sim g e p).1
      (e.scalarAt values · sim.room) := by
  have once := evaluateOn_at_once enough arithmetic gives g
  rw [evaluateOn_run]
  generalize Formula.evaluate _ _ _ _ g p = out at once
  cases once with
  | value v counts shape each => exact sampleWise_of_value counts shape each
  | stop x i below fails => exact sampleWise_of_stop below fails

/-- A formula that refers to no samples comes to a number, if to anything. -/
theorem numberOf_evaluateOn (enough : 0 < sim.count) (arithmetic : e.Arithmetic)
    (gives : ∀ name ∈ e.references, p.Gives sim.count name (values name))
    (single : e.sampled values = false) (g : Generator) :
    numberOf (evaluateOn sim g e p).1 = e.scalarAt values 0 sim.room := by
  have once := evaluateOn_at_once enough arithmetic gives g
  rw [evaluateOn_run]
  generalize Formula.evaluate _ _ _ _ g p = out at once
  cases once with
  | value v counts shape each =>
    rw [single] at shape
    cases v with
    | number x => exact (each 0 enough).symm
    | samples xs => cases shape
  | stop x i below fails =>
    exact (Formula.scalarAt_of_single arithmetic single 0 i sim.room).trans fails |>.symm

/-- With the samples of a position put in, the same holds. -/
theorem numberOf_atSample (enough : 0 < sim.count) (arithmetic : e.Arithmetic)
    (gives : ∀ name ∈ e.references, p.Gives sim.count name (values name)) (g : Generator)
    (i : Nat) :
    numberOf (evaluateOn sim g (e.atSample values i) p).1 =
      (e.atSample values i).scalarAt values 0 sim.room :=
  numberOf_evaluateOn enough arithmetic.atSample
    (fun name mem => gives name (arithmetic.mem_references_atSample mem).1)
    arithmetic.sampled_atSample g

/-- Arithmetic on fresh valid cells is sample-wise. The scalar at a position is what the formula
comes to with the samples there put in for the references, unless an exponent that refers to samples
is -1, 1/2 or 2 there: for a single exponent these are a quotient, a root and a product. -/
theorem arithmetic_sample_wise (enough : 0 < sim.count) (arithmetic : e.Arithmetic)
    (gives : ∀ name ∈ e.references, p.Gives sim.count name (values name)) (g : Generator) :
    SampleWise sim.count (e.sampled values) (evaluateOn sim g e p).1
        (e.scalarAt values · sim.room) ∧
      ∀ i, e.Plain values i →
        numberOf (evaluateOn sim g (e.atSample values i) p).1 = e.scalarAt values i sim.room := by
  refine ⟨evaluateOn_sampleWise enough arithmetic gives g, fun i plain => ?_⟩
  rw [numberOf_atSample enough arithmetic gives g]
  exact Formula.scalarAt_atSample arithmetic plain 0 sim.room

end

/-! ### Two sheets -/

/-- A valid fresh cell with the output. -/
def Cell.holding (output : Output) : Cell :=
  { displayName := "", formula := none, output, needsReevaluation := false, processed := true,
    settled := true }

/-- A product of a number and samples, less a power of the number by the samples. -/
theorem sample_wise_of_two_cells :
    let sim : Simulation := ⟨2, ⟨.permuted, some 1, none⟩, 980⟩
    let g := sim.source.generatorFor []
    let p : Progress := ⟨Roster.set (Roster.set Roster.empty "A" (.holding (.constant 3)))
      "B" (.holding (.distribution .data [1, 4] none)), []⟩
    let values : String → Value := fun name =>
      if name = "A" then .number 3 else .samples [1, 4]
    let e : Expr := .binary .subtract (.binary .multiply (.reference "A") (.reference "B"))
      (.binary .power (.reference "A") (.reference "B"))
    0 < sim.count ∧ e.Arithmetic ∧
      (∀ name ∈ e.references, p.Gives sim.count name (values name)) ∧
      e.Plain values 1 ∧
      SampleWise sim.count true (evaluateOn sim g e p).1 (e.scalarAt values · sim.room) ∧
      numberOf (evaluateOn sim g (e.atSample values 1) p).1 = e.scalarAt values 1 sim.room := by
  intro sim g p values e
  have arithmetic : e.Arithmetic :=
    .binary _ (.binary _ (.reference "A") (.reference "B"))
      (.binary _ (.reference "A") (.reference "B"))
  have gives : ∀ name ∈ e.references, p.Gives sim.count name (values name) := by
    intro name mem
    have either : name = "A" ∨ name = "B" := by
      simp only [e, Expr.references, List.mem_append, List.mem_singleton] at mem
      exact mem.elim id id
    rcases either with rfl | rfl
    · exact ⟨by decide, ⟨_, rfl, rfl, rfl, rfl⟩, trivial⟩
    · exact ⟨by decide, ⟨_, rfl, rfl, rfl, rfl⟩, rfl⟩
  have plain : e.Plain values 1 := by
    have product : Expr.Plain values 1 (.binary .multiply (.reference "A") (.reference "B")) :=
      ⟨trivial, trivial, fun absurd => by cases absurd⟩
    have power : Expr.Plain values 1 (.binary .power (.reference "A") (.reference "B")) := by
      refine ⟨trivial, trivial, fun _ _ room b same => ?_⟩
      cases room with
      | zero => cases same
      | succ room =>
        cases same
        decide +kernel
    exact ⟨product, power, fun absurd => by cases absurd⟩
  obtain ⟨whole, single⟩ := arithmetic_sample_wise (by decide) arithmetic gives g
  exact ⟨by decide, arithmetic, gives, plain, whole, single 1 plain⟩

/-- The samples one half, twice, as the exponent of an infinity below zero: the power is infinite,
and the root is not a number. -/
theorem not_sample_wise_by_roots :
    ¬ ∀ (sim : Simulation) (p : Progress) (e : Expr) (values : String → Value) (g : Generator),
      0 < sim.count → e.Arithmetic →
      (∀ name ∈ e.references, p.Gives sim.count name (values name)) →
      SampleWise sim.count (e.sampled values) (evaluateOn sim g e p).1
        (fun i => numberOf (evaluateOn sim g (e.atSample values i) p).1) := by
  intro all
  let sim : Simulation := ⟨2, ⟨.permuted, some 1, none⟩, 980⟩
  let g := sim.source.generatorFor []
  let p : Progress :=
    ⟨Roster.set Roster.empty "B" (.holding (.distribution .data [0.5, 0.5] none)), []⟩
  let values : String → Value := fun _ => .samples [0.5, 0.5]
  let e : Expr := .binary .power (.negation (.number Number.infinity)) (.reference "B")
  have enough : 0 < sim.count := by decide
  have arithmetic : e.Arithmetic := .binary _ (.negation (.number _)) (.reference "B")
  have gives : ∀ name ∈ e.references, p.Gives sim.count name (values name) := by
    intro name mem
    obtain rfl : name = "B" := by simpa [e, Expr.references] using mem
    exact ⟨by decide, ⟨_, rfl, rfl, rfl, rfl⟩, rfl⟩
  have power : (e.scalarAt values 0 sim.room).map Float.isNaN = some false := by decide +kernel
  have root : ((e.atSample values 0).scalarAt values 0 sim.room).map Float.isNaN = some true := by
    decide +kernel
  have powers : ∀ i < sim.count, ∃ x, e.scalarAt values i sim.room = some x := by
    have each : ∀ i < 2, (e.scalarAt values i 980).isSome = true := by decide +kernel
    exact fun i below => Option.isSome_iff_exists.1 (each i below)
  have actual := evaluateOn_sampleWise enough arithmetic gives g
  obtain ⟨v, succeeds⟩ := actual.1.2 powers
  have same := actual.scalar_eq (all sim p e values g enough arithmetic gives) succeeds enough
  rw [numberOf_atSample enough arithmetic gives g 0] at same
  rw [same, root] at power
  cases power

end MonteCarloSheet
