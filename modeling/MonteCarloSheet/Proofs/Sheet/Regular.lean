import MonteCarloSheet.Proofs.Sheet.Recording

/-! Regular outputs.

An output is regular if its samples have the right count or have been dropped, and
their summary is the one of these samples; a cell whose problem is its own has none.
Evaluations end regularly: no cell is left without a number, and no reference is
refused because the samples that it reads have another count
(`recordedWith_told`). What an evaluation does is told step by step, with the event
of each step, so whatever the single steps keep, of the cells and of the events that
led to them, sweeps keep (`recordSweeps_steps`, `Kept.steps`). -/
namespace MonteCarloSheet

open Formula (Answering AnswersWell Stop Whole)

/-! ### What cells have come to -/

/-- The output and the fault of a cell. -/
structure Yield where
  output : Output
  fault : Option Fault

def Cell.yield (c : Cell) : Yield :=
  ⟨c.output, c.fault⟩

/-- An output that fits the sample count. -/
def Output.Regular (count : Nat) : Output → Prop
  | none => True
  | constant _ => True
  | distribution _ xs summary =>
    (xs.length = 0 ∨ xs.length = count) ∧ summary = Samples.summaryOf xs
  | vacant _ => False

theorem Samples.summaryOf_nil : summaryOf [] = none := by
  rw [summaryOf, List.eq_nil_of_length_eq_zero (Number.length_ascending [])]
  rfl

theorem Output.Regular.invalidate {count : Nat} {o : Output} (h : o.Regular count) (other : Nat) :
    o.invalidate.Regular other := by
  cases o with
  | none => trivial
  | constant x => trivial
  | distribution d xs summary => exact ⟨.inl rfl, Samples.summaryOf_nil.symm⟩
  | vacant kept => exact h.elim

theorem Output.invalidate_invalidate (o : Output) : o.invalidate.invalidate = o.invalidate := by
  cases o with
  | none => rfl
  | constant x => rfl
  | distribution d xs summary => rfl
  | vacant kept => cases kept <;> rfl

/-- An ending with a regular output or with a fault. -/
def Ending.Regular (count : Nat) : Ending → Prop
  | settled output => output.Regular count
  | failed _ => True
  | vacant => False

theorem Ending.regular_failed (count : Nat) (f : Fault) : (failed f).Regular count :=
  trivial

theorem Ending.regular_ofValue (e : Formula.Expr) {count : Nat} {v : Value} (fits : v.Fits count) :
    (settled (.ofValue e v)).Regular count := by
  cases v with
  | number x => trivial
  | samples xs => exact ⟨fits, rfl⟩

namespace Yield

/-- Nothing, as a new cell has come to. -/
def nothing : Yield :=
  ⟨.none, none⟩

/-- What a cell has come to after an ending. -/
def after (y : Yield) : Ending → Yield
  | .settled output => ⟨output, none⟩
  | .failed f => ⟨if f.isDependency then y.output else .none, some f⟩
  | .vacant => ⟨y.output.vacate, none⟩

def invalidate (y : Yield) : Yield :=
  { y with output := y.output.invalidate }

/-- The output fits the sample count, and there is none if the cell has a problem of its own. -/
structure Regular (count : Nat) (y : Yield) : Prop where
  output : y.output.Regular count
  failed : ∀ f, y.fault = some f → f.isDependency = false → y.output = .none

theorem regular_nothing (count : Nat) : nothing.Regular count :=
  ⟨trivial, fun _ fault => by cases fault⟩

theorem Regular.after {count : Nat} {y : Yield} (h : y.Regular count) {ending : Ending}
    (regular : ending.Regular count) : (y.after ending).Regular count := by
  cases ending with
  | settled output => exact ⟨regular, fun _ fault => by cases fault⟩
  | failed f =>
    rw [Yield.after]
    cases dependency : f.isDependency with
    | true => exact ⟨h.output, fun g fault own => by cases fault; rw [dependency] at own; cases own⟩
    | false => exact ⟨trivial, fun _ _ _ => rfl⟩
  | vacant => exact regular.elim

theorem Regular.invalidate {count : Nat} {y : Yield} (h : y.Regular count) (other : Nat) :
    y.invalidate.Regular other :=
  ⟨h.output.invalidate other, fun f fault own => by
    rw [Yield.invalidate, h.failed f fault own]
    rfl⟩

end Yield

theorem Cell.yield_apply (ending : Ending) (c : Cell) :
    (ending.apply c).yield = c.yield.after ending := by
  cases ending <;> rfl

/-! ### Recorded steps -/

/-- The sheet and the events so far. -/
abbrev Recorded.told (r : Recorded) : Sheet × List Event :=
  (r.progress.sheet, r.events)

/-- The answer is not that samples have another count than the one that is asked for. -/
def Fitting (answer : Except Stop α) : Prop :=
  ∀ m, answer ≠ .error (.problem (.lengthMismatch m))

/-- What happens to a sheet while cells are evaluated, one step at a time and with the events. -/
inductive RecordedStep (count : Nat) : Sheet × List Event → Sheet × List Event → Prop where
  | begin {s : Sheet} {id : String} {c : Cell} (events : List Event) (here : s.get? id = some c) :
      RecordedStep count (s, events) (s.begun id c, .began id :: events)
  | answer (s : Sheet) (events : List Event) (name : String)
      {answer : Except Stop (Option Value)} (fits : Fitting answer) :
      RecordedStep count (s, events) (s, .answered name answer :: events)
  | finish (s : Sheet) (events : List Event) (id : String) {ending : Ending}
      (regular : ending.Regular count) :
      RecordedStep count (s, events) (s.modify id ending.apply, .ended id ending :: events)
  | announce (p : Progress) (events : List Event) (id : String) :
      RecordedStep count (p.sheet, events) ((MonteCarloSheet.announce id p).sheet, events)

abbrev RecordedSteps (count : Nat) : Sheet × List Event → Sheet × List Event → Prop :=
  Relation.ReflTransGen (RecordedStep count)

/-- The event is not about the cell. -/
def Event.Spares (id : String) : Event → Prop
  | entered x => x ≠ id
  | resized => False
  | began _ => True
  | answered _ _ => True
  | ended x _ => x ≠ id

namespace Sheet

/-- All cells of the sheet have come to what has the property. -/
abbrev Yields (P : String → Yield → Prop) (s : Sheet) : Prop :=
  s.All fun id c => P id c.yield

end Sheet

/-- A property of what cells have come to, with the sample count and the events that led to it, is
kept if every event of a cell brings it about or leaves it. -/
structure Kept (P : Nat → List Event → String → Yield → Prop) : Prop where
  entered : ∀ count events id, P count (.entered id :: events) id .nothing
  ended : ∀ {count events id y} {ending : Ending}, ending.Regular count → P count events id y →
    P count (.ended id ending :: events) id (y.after ending)
  resized : ∀ {count events id y} other, P count events id y →
    P other (.resized :: events) id y.invalidate
  spared : ∀ {count events id y event}, Event.Spares id event → P count events id y →
    P count (event :: events) id y

namespace Kept
variable {P : Nat → List Event → String → Yield → Prop}

theorem step (kept : Kept P) {count : Nat} {a b : Sheet × List Event}
    (step : RecordedStep count a b) (h : a.1.Yields (P count a.2)) : b.1.Yields (P count b.2) := by
  cases step with
  | @begin s id _ events here =>
    have noted : s.Yields (P count (.began id :: events)) :=
      fun x c there => kept.spared trivial (h x c there)
    exact Sheet.All.relink (noted.modify id (f := Cell.begin) fun _ hc => hc) _ _
      fun _ _ _ _ hc => hc
  | answer s events name fits => exact fun x c hc => kept.spared trivial (h x c hc)
  | finish s events id regular =>
    intro x c here
    rw [Roster.get?_modify] at here
    by_cases same : x = id
    · rw [if_pos same] at here
      obtain ⟨d, old, rfl⟩ := Option.map_eq_some_iff.1 here
      rw [Cell.yield_apply]
      subst same
      exact kept.ended regular (h x d old)
    · rw [if_neg same] at here
      exact kept.spared (Ne.symm same) (h x c here)
  | announce p events id =>
    have counted := h.modify id (f := fun c => { c with version := c.version + 1 }) fun _ hc => hc
    exact counted.modifyAll _ (f := Cell.markStale) fun _ _ _ hc => hc

theorem steps (kept : Kept P) {count : Nat} {a b : Sheet × List Event}
    (steps : RecordedSteps count a b) (h : a.1.Yields (P count a.2)) :
    b.1.Yields (P count b.2) := by
  induction steps with
  | refl => exact h
  | tail _ last ih => exact kept.step last ih

end Kept

/-- All cells have come to something regular. -/
abbrev Sheet.Regular (count : Nat) (s : Sheet) : Prop :=
  s.Yields fun _ y => y.Regular count

theorem kept_regular : Kept fun count _ _ y => y.Regular count where
  entered count _ _ := Yield.regular_nothing count
  ended regular h := h.after regular
  resized other h := h.invalidate other
  spared _ h := h

/-! ### Evaluations -/

variable {bring : Refresh} {recorded : RecordedRefresh} {count : Nat} {x : String} {r : Recorded}
  {before : Cell}

/-- Bringing a stale cell up to date is told in steps, and never refused for a sample count. -/
def BringsTold (count : Nat) (recorded : RecordedRefresh) : Prop :=
  ∀ room x (r : Recorded) before, r.progress.sheet.Tied → r.progress.Readable →
    r.progress.sheet.Regular count → x ∉ r.progress.active →
    r.progress.sheet.get? x = some before → before.isStale = true →
      Fitting (recorded room x (r.onProgress (Progress.activate x))).1 ∧
        RecordedSteps count r.told (recorded room x (r.onProgress (Progress.activate x))).2.told

theorem fitting_read {s : Sheet} (regular : s.Regular count) (name : String) :
    Fitting (readOf count name s) := by
  intro m refused
  rw [readOf] at refused
  cases here : s.get? name with
  | none => rw [here] at refused; cases refused
  | some c =>
    rw [here] at refused
    dsimp only at refused
    rw [Cell.read] at refused
    have fits := (regular name c here).output
    change c.output.Regular count at fits
    cases fault : c.fault with
    | some f => rw [fault] at refused; cases refused
    | none =>
      rw [fault] at refused
      cases output : c.output with
      | none => rw [output] at refused; cases refused
      | constant a => rw [output] at refused; cases refused
      | vacant kept => rw [output] at fits; exact fits.elim
      | distribution d xs summary =>
        rw [output] at fits
        have reading : c.output.reading = some (.samples xs) := by rw [output]; rfl
        rw [reading] at refused
        dsimp only at refused
        rw [if_pos fits.1] at refused
        cases refused

theorem conclude_told (id : String) (before : Cell) {ending : Ending}
    (regular : ending.Regular count) (r : Recorded) :
    RecordedSteps count r.told (r.conclude id before ending).2.told := by
  have ended : RecordedStep count r.told _ := .finish r.progress.sheet r.events id regular
  rw [Recorded.conclude, conclude]
  dsimp only [Progress.onSheet]
  split
  next out p same =>
    split at same
    · cases same
      exact .single ended
    · split at same
      · cases same
        exact (Relation.ReflTransGen.single ended).tail (.announce ⟨_, r.progress.active⟩ _ id)
      · cases same
        exact .single ended

theorem RecordedSteps.steps {a b : Sheet × List Event} (h : RecordedSteps count a b) :
    Steps a.1 b.1 := by
  induction h with
  | refl => exact .refl
  | tail _ last ih =>
    cases last with
    | begin events here => exact ih.tail (.begin here)
    | answer s events name fits => exact ih
    | finish s events id regular => exact ih.tail (.finish s id _)
    | announce p events id => exact ih.tail (.announce p id)

theorem recordedReference_told (told : BringsTold count recorded)
    (tied : r.progress.sheet.Tied) (readable : r.progress.Readable)
    (regular : r.progress.sheet.Regular count) (room : Nat) (name : String) :
    RecordedSteps count r.told (recordedReference count recorded room name r).2.told := by
  rw [recordedReference]
  by_cases active : name ∈ r.progress.active
  · rw [if_pos active]
    exact .single (.answer _ _ name fun m same => by cases same)
  rw [if_neg active]
  cases here : r.progress.sheet.get? name with
  | none => exact .single (.answer _ _ name fun m same => by cases same)
  | some c =>
    dsimp only
    rw [recordedAnswer]
    by_cases stale : c.isStale = true
    · rw [if_pos stale]
      obtain ⟨fits, steps⟩ := told room name r c tied readable regular active here stale
      generalize recorded room name _ = out at fits steps
      obtain ⟨x | u, r'⟩ := out
      · exact steps.tail (.answer _ _ name fun m same => by cases same; exact fits m rfl)
      · exact steps.tail (.answer _ _ name (fitting_read (kept_regular.steps steps regular) name))
    · rw [if_neg stale]
      exact .single (.answer _ _ name (fitting_read regular name))

theorem recordedWith_told {sim : Simulation}
    (mirrors : ∀ room name, Mirrors (recorded room name) (bring room name))
    (brings : BringsReadable bring) (told : BringsTold sim.count recorded) (room : Nat)
    (tied : r.progress.sheet.Tied) (readable : r.progress.Readable)
    (regular : r.progress.sheet.Regular sim.count) (here : r.progress.sheet.get? x = some before) :
    RecordedSteps sim.count r.told
      (recordedWith sim recorded room x (r.onProgress (Progress.activate x))).2.told := by
  have here' : (r.onProgress (Progress.activate x)).progress.sheet.get? x = some before := here
  let entered : Recorded := ⟨r.progress.enter x before, .began x :: r.events⟩
  have begins : ((r.onProgress (Progress.activate x)).onProgress
      (Progress.onSheet (Sheet.begun · x before))).note (.began x) = entered := rfl
  have begun : RecordedSteps sim.count r.told entered.told := .single (.begin r.events here)
  have tied' : entered.progress.sheet.Tied := Sheet.Tied.step (.begin here) tied
  have start := readable.enter here
  rw [recordedWith, here']
  dsimp only
  rw [begins]
  cases before.tree with
  | error err => exact begun.trans (conclude_told x before (Ending.regular_failed _ _) entered)
  | ok e =>
    dsimp only
    have refs : AnswersWell
        (fun r' => Moves Anything entered.progress r'.progress ∧ r'.progress.Readable ∧
          RecordedSteps sim.count entered.told r'.told)
        (fun _ => True) sim.count (recordedReference sim.count recorded) e.references := by
      rintro name - left r' ⟨moves, readable, steps⟩
      have tied := Steps.keep (fun _ _ => Sheet.Tied.step) moves.steps tied'
      have regular := kept_regular.steps (begun.trans steps) regular
      have same := recordedReference_mirrors mirrors sim.count left name r'
      have further := recordedReference_told told tied readable regular left name
      obtain ⟨whole, onward, after⟩ := reference_moves brings tied readable sim.count left name
      rw [← same] at whole onward after
      exact ⟨whole, fun _ _ => trivial, moves.trans onward, after, steps.trans further⟩
    obtain ⟨ends, -, -, steps⟩ := Formula.evaluate_ends e refs room
      (sim.source.generatorFor [x, before.formula.getD ""]) entered ⟨.refl _ _, start, .refl⟩
    generalize Formula.evaluate _ _ _ _ _ entered = out at ends steps
    obtain ⟨(f | _) | ⟨v, g⟩, r'⟩ := out
    · exact begun.trans (steps.trans (conclude_told x before (Ending.regular_failed _ _) r'))
    · exact ends.elim
    · obtain ⟨⟨v, rfl, fits⟩, -⟩ := ends
      exact begun.trans (steps.trans (conclude_told x before (Ending.regular_ofValue e fits) r'))

theorem recordedRefresh_told (sim : Simulation) (levels : Nat) :
    BringsTold sim.count (recordedRefresh sim levels) := by
  have refused : ∀ (room : Nat) (x : String) (r : Recorded),
      Fitting (.error (.problem .tooDeep) : Except Stop Unit) ∧
        RecordedSteps sim.count r.told (r.onProgress (Progress.activate x)).told :=
    fun _ _ _ => ⟨fun m same => (by cases same), .refl⟩
  induction levels with
  | zero => exact fun room x r _ _ _ _ _ _ _ => refused room x r
  | succ levels ih =>
    intro room x r before tied readable regular idle here stale
    match room with
    | 0 => exact refused 0 x r
    | 1 => exact refused 1 x r
    | room + 2 =>
      have steps := recordedWith_told (recordedRefresh_mirrors sim levels)
        (refresh_moves sim levels) ih room tied readable regular here
      rw [recordedRefresh]
      dsimp only
      generalize recordedWith sim _ room x _ = out at steps
      obtain ⟨_ | _ | _, r'⟩ := out <;> exact ⟨fun m same => (by cases same), steps⟩

/-! ### Recalculations -/

section
variable (sim : Simulation)

/-- A recorded reevaluation by itself is told in steps. -/
theorem recordAlone_steps {s : Sheet} (tied : s.Tied) (readable : s.idle.Readable)
    (regular : s.Regular sim.count) (here : s.get? x = some before) (events : List Event) :
    RecordedSteps sim.count (s, events)
      ((s.reevaluateAlone sim x).2, s.recordAlone sim x events) := by
  have steps := recordedWith_told (r := ⟨s.idle, events⟩) (recordedRefresh_mirrors sim s.size)
    (refresh_moves sim s.size) (recordedRefresh_told sim s.size) sim.room tied readable regular here
  rw [← recordAlone_mirrors sim s x events]
  exact steps

theorem recordSweep_steps (order : List String) {s : Sheet} (flag : Bool) (events : List Event)
    (tied : s.Tied) (readable : s.idle.Readable) (regular : s.Regular sim.count) :
    RecordedSteps sim.count (s, events)
      ((Sheet.sweep sim order (flag, s)).2, s.recordSweep sim order events) := by
  induction order generalizing s flag events with
  | nil => exact .refl
  | cons id rest ih =>
    rw [Sheet.sweep, Sheet.recordSweep]
    cases here : s.get? id with
    | none => exact ih flag events tied readable regular
    | some c =>
      dsimp only
      by_cases stale : c.isStale = true
      · rw [if_pos stale, if_pos stale]
        have first := recordAlone_steps sim tied readable regular here events
        obtain ⟨-, readable, -⟩ := reevaluateAlone_moves sim tied readable here stale
        exact first.trans (ih _ _ (Steps.keep (fun _ _ => Sheet.Tied.step) first.steps tied)
          readable (kept_regular.steps first regular))
      · rw [if_neg stale, if_neg stale]
        exact ih flag events tied readable regular

theorem recordSweeps_steps (order : List String) (left done : Nat) {s : Sheet}
    (events : List Event) (tied : s.Tied) (readable : s.idle.Readable)
    (regular : s.Regular sim.count) :
    RecordedSteps sim.count (s, events)
      ((Sheet.sweeps sim order left done s).2.2, s.recordSweeps sim order left events) := by
  induction left generalizing done s events with
  | zero => exact .refl
  | succ left ih =>
    have first := recordSweep_steps sim order false events tied readable regular
    rw [Sheet.sweeps, Sheet.recordSweeps]
    dsimp only
    split
    · exact first
    · exact first.trans (ih (done + 1) _
        (Steps.keep (fun _ _ => Sheet.Tied.step) first.steps tied)
        (sweep_moves sim order tied readable).2 (kept_regular.steps first regular))

end

end MonteCarloSheet
