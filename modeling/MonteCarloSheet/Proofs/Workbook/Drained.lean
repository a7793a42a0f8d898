import MonteCarloSheet.Proofs.Sheet.Workable

/-! Cells without samples.

A cell that has heard of a new sample count is drained: it needs reevaluation and has no
samples, or samples without numbers. It stays so, whatever is done with its sheet or with
a single cell, until its own evaluation begins (`DrainedBut`); evaluations are told in
steps for this. -/
namespace MonteCarloSheet

/-- The cell whose evaluation begins or ends. -/
def Event.evaluated? : Event → Option String
  | began id => some id
  | ended id _ => some id
  | _ => none

/-- The cell needs reevaluation, and its samples, if it has any, are without numbers. -/
def Cell.Drained (c : Cell) : Prop :=
  c.needsReevaluation = true ∧ ∀ xs, c.output.samples = some xs → xs = []

theorem Output.samples_invalidate {o : Output} {xs : List Float}
    (sampled : o.invalidate.samples = some xs) : xs = [] := by
  cases o with
  | none => cases sampled
  | constant x => cases sampled
  | distribution d ys summary => cases sampled; rfl
  | vacant kept =>
    cases kept with
    | none => cases sampled
    | some kept => cases sampled; rfl

namespace Cell

theorem drained_invalidate (c : Cell) : c.invalidateSamples.Drained :=
  ⟨rfl, fun _ sampled => Output.samples_invalidate sampled⟩

theorem drained_new (id : String) (formula name : Option String) :
    (Cell.new id formula name).Drained :=
  ⟨rfl, fun _ sampled => by cases sampled⟩

theorem Adjusts.drained {f : Cell → Cell} (adjusts : Adjusts f) {c : Cell} (h : c.Drained) :
    (f c).Drained := by
  refine ⟨adjusts.marks c h.1, fun xs sampled => ?_⟩
  obtain same | same := adjusts.yield c
  · rw [show (f c).output = c.output from congrArg Yield.output same] at sampled
    exact h.2 xs sampled
  · rw [show (f c).output = c.output.invalidate from congrArg Yield.output same] at sampled
    exact Output.samples_invalidate sampled

end Cell

namespace Sheet

/-- All cells of the sheet are drained, except where an evaluation may have begun. -/
def DrainedBut (P : String → Prop) (s : Sheet) : Prop :=
  s.All fun id c => P id ∨ c.Drained

namespace DrainedBut
variable {P Q : String → Prop} {s : Sheet}

theorem imp (h : s.DrainedBut P) (le : ∀ id, P id → Q id) : s.DrainedBut Q :=
  fun id c here => (h id c here).imp_left (le id)

theorem empty (P : String → Prop) : DrainedBut P Roster.empty :=
  fun _ _ here => by cases here

/-- Links and marks leave a drained cell drained. -/
theorem apart (x : String) (c : Cell) (deps readers : List String) (needs : Bool)
    (marks : c.needsReevaluation = true → needs = true) (h : P x ∨ c.Drained) :
    P x ∨ Cell.Drained
      { c with dependencies := deps, dependents := readers, needsReevaluation := needs } :=
  h.imp_right fun drained => ⟨marks drained.1, drained.2⟩

theorem define (h : s.DrainedBut P) (id : String) (formula name : Option String) :
    (s.define id formula name).DrainedBut P :=
  All.define_reworded apart (fun _ _ _ _ _ _ marks hc =>
    hc.imp_right fun drained => ⟨marks drained.1, drained.2⟩) h id formula name
      fun _ => .inr (Cell.drained_new id formula name)

theorem remove (h : s.DrainedBut P) {id : String} {c : Cell} {s' : Sheet}
    (removed : s.remove id = some (c, s')) : s'.DrainedBut P :=
  All.remove apart h removed

theorem rewritten (h : s.DrainedBut P) (definitions : Roster (Option String))
    (names : Roster String) : (s.rewritten definitions names).DrainedBut P :=
  rewritten_keep (fun _ _ _ _ removed h => h.remove removed)
    (fun _ id formula name h => h.define id formula name) h definitions names

theorem adjust (h : s.DrainedBut P) (id : String) {f : Cell → Cell} (adjusts : Cell.Adjusts f) :
    DrainedBut P (Roster.modify s id f) :=
  h.modify id fun _ hc => hc.imp_right adjusts.drained

theorem prepare (h : s.DrainedBut P) (id : String) : (s.prepare id).DrainedBut P :=
  All.prepare (fun _ _ _ _ _ hc => hc) h id

theorem invalidate (P : String → Prop) (s : Sheet) : DrainedBut P (Workbook.invalidate s) := by
  intro id c here
  rw [Workbook.invalidate, Roster.get?_map] at here
  obtain ⟨d, -, rfl⟩ := Option.map_eq_some_iff.1 here
  exact .inr d.drained_invalidate

theorem prepared (h : s.DrainedBut P) : s.prepared.DrainedBut P := by
  have cleared : DrainedBut P (Roster.map (fun _ c => c.beginCycle) s) :=
    h.map (f := fun _ c => c.beginCycle) fun _ _ hc => hc
  exact prepareAll_keep (I := DrainedBut P) (fun _ id h => h.prepare id) cleared

/-! ### Evaluations -/

/-- The events evaluate the cell. -/
def Evaluated (events : List Event) (id : String) : Prop :=
  id ∈ events.filterMap Event.evaluated?

theorem evaluated_of_cons {events : List Event} {id : String} (event : Event)
    (h : Evaluated events id) : Evaluated (event :: events) id := by
  rw [Evaluated, List.filterMap_cons]
  split
  · exact h
  · exact List.mem_cons_of_mem _ h

/-- What happens in one step leaves a cell drained, unless it evaluates the cell. -/
theorem step {count : Nat} {a b : Sheet × List Event} (step : RecordedStep count a b)
    (h : a.1.DrainedBut fun id => P id ∨ Evaluated a.2 id) :
    b.1.DrainedBut fun id => P id ∨ Evaluated b.2 id := by
  have noted : ∀ {s : Sheet} {events : List Event} (event : Event),
      (s.DrainedBut fun id => P id ∨ Evaluated events id) →
        s.DrainedBut fun id => P id ∨ Evaluated (event :: events) id := fun event hs =>
    hs.imp fun id => Or.imp_right (evaluated_of_cons event)
  cases step with
  | @begin s id c events here =>
    have begun : DrainedBut (fun x => P x ∨ Evaluated (.began id :: events) x)
        (s.modify id Cell.begin) :=
      (noted (.began id) h).modify id fun c _ => .inl (.inr List.mem_cons_self)
    exact begun.relink id _ fun _ _ _ _ hc => hc
  | answer s events name fits => exact noted _ h
  | @finish s events id ending regular =>
    exact (noted (.ended id ending) h).modify id fun c _ => .inl (.inr List.mem_cons_self)
  | announce p events id =>
    have counted := h.modify id (f := fun c => { c with version := c.version + 1 }) fun _ hc => hc
    exact counted.modifyAll _ (f := Cell.markStale) fun _ _ _ hc =>
      hc.imp_right fun drained => ⟨rfl, drained.2⟩

theorem steps {count : Nat} {a b : Sheet × List Event} (steps : RecordedSteps count a b)
    (h : a.1.DrainedBut fun id => P id ∨ Evaluated a.2 id) :
    b.1.DrainedBut fun id => P id ∨ Evaluated b.2 id := by
  induction steps with
  | refl => exact h
  | tail _ last ih => exact ih.step last

variable (sim : Simulation)

/-- A recalculation leaves a cell drained, unless it evaluates the cell. -/
theorem recalculate (h : s.DrainedBut P) (workable : s.Workable sim.count) :
    (s.recalculate sim).2.DrainedBut fun id => P id ∨ Evaluated (s.record sim []) id :=
  steps (record_steps sim workable.tied workable.regular []) (h.prepared.imp fun _ => .inl)

theorem reevaluate (h : s.DrainedBut P) (workable : s.Workable sim.count) (x : String) :
    (s.reevaluateAlone sim x).2.DrainedBut fun id =>
      P id ∨ Evaluated (s.recordAlone sim x []) id :=
  steps (workable.reevaluation_steps sim x []) (h.imp fun _ => .inl)

end DrainedBut

end Sheet

end MonteCarloSheet
