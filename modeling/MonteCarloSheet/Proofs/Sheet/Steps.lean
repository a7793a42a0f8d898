import Mathlib.Logic.Relation
import MonteCarloSheet.Proofs.Sheet.Reevaluation
import MonteCarloSheet.Sheet.Recalculation

/-! Recalculation as steps.

However evaluations are nested, a recalculation does three things to a sheet, one
cell at a time: it begins a cell, it ends a cell, and it announces a change, which
grows a version and marks cells stale. What every step keeps, a recalculation
keeps (`reevaluateWith_runs`, `sweeps_steps`), and it leaves the active cells as
they were. -/
namespace MonteCarloSheet

/-! ### Steps -/

/-- What happens to a sheet while cells are evaluated, one step at a time. -/
inductive Step : Sheet → Sheet → Prop where
  | begin {s : Sheet} {id : String} {c : Cell} (here : s.get? id = some c) :
      Step s (s.begun id c)
  | finish (s : Sheet) (id : String) (ending : Ending) : Step s (s.modify id ending.apply)
  | announce (p : Progress) (id : String) : Step p.sheet (announce id p).sheet

/-- Any number of steps. -/
abbrev Steps : Sheet → Sheet → Prop :=
  Relation.ReflTransGen Step

/-- What every step keeps, any number of steps keep. -/
theorem Steps.keep {I : Sheet → Prop} (step : ∀ s t, Step s t → I s → I t) {s t : Sheet}
    (steps : Steps s t) (h : I s) : I t := by
  induction steps with
  | refl => exact h
  | tail _ last ih => exact step _ _ last ih

theorem names_step {s t : Sheet} (step : Step s t) : t.names = s.names := by
  cases step with
  | begin here => rw [Sheet.begun, Sheet.names_relink, Roster.names_modify]
  | finish _ id ending => exact Roster.names_modify s id _
  | announce p id => exact (Sheet.names_invalidateDependents _ _ _).trans (Roster.names_modify _ id _)

theorem names_steps {s t : Sheet} (steps : Steps s t) : t.names = s.names :=
  steps.keep (I := fun u => u.names = s.names) (fun _ _ step h => (names_step step).trans h) rfl

/-- A run leaves the active cells as they were, and does to the sheet what steps do. -/
structure Runs (p q : Progress) : Prop where
  active : q.active = p.active
  steps : Steps p.sheet q.sheet

theorem Runs.refl (p : Progress) : Runs p p :=
  ⟨rfl, .refl⟩

theorem Runs.trans {p q r : Progress} (first : Runs p q) (second : Runs q r) : Runs p r :=
  ⟨second.active.trans first.active, first.steps.trans second.steps⟩

theorem conclude_runs (id : String) (before : Cell) (ending : Ending) (p : Progress) :
    Runs p (conclude id before ending.apply p).2 := by
  have ended : Step p.sheet (p.sheet.modify id ending.apply) := .finish _ id ending
  rw [conclude]
  dsimp only [Progress.onSheet]
  split
  · exact ⟨rfl, .single ended⟩
  · split
    · exact ⟨rfl, (Relation.ReflTransGen.single ended).tail (.announce ⟨_, p.active⟩ id)⟩
    · exact ⟨rfl, .single ended⟩

theorem conclude_ne_abandoned (id : String) (before : Cell) (finish : Cell → Cell) (p : Progress) :
    (conclude id before finish p).1 ≠ .abandoned := by
  rw [conclude]
  split
  · exact Outcome.noConfusion
  · split <;> exact Outcome.noConfusion

theorem filter_ne_cons {name : String} {names : List String} (fresh : name ∉ names) :
    (name :: names).filter (· ≠ name) = names := by
  rw [List.filter_cons_of_neg (by simp)]
  refine List.filter_eq_self.2 fun other mem => decide_eq_true ?_
  intro same
  exact fresh (same ▸ mem)

theorem Progress.deactivate_activate {p : Progress} {name : String} (idle : name ∉ p.active) :
    (p.activate name).deactivate name = p :=
  congrArg (Progress.mk p.sheet) (filter_ne_cons idle)

/-! ### References -/

/-- The cell is not stale, if it exists. -/
def Sheet.Fresh (s : Sheet) (x : String) : Prop :=
  ∀ c, s.get? x = some c → c.isStale = false

/-- A reference to a cell that is neither active nor stale only reads it. -/
theorem reference_fresh (count : Nat) (bring : Refresh) (room : Nat) {name : String} {p : Progress}
    (other : name ∉ p.active) (fresh : p.sheet.Fresh name) :
    reference count bring room name p = (readOf count name p.sheet, p) := by
  rw [reference, if_neg other]
  cases here : p.sheet.get? name with
  | none =>
    rw [readOf, here]
  | some c =>
    dsimp only
    rw [answer_run, fresh c here]
    change (readOf count name p.sheet, (p.activate name).deactivate name) = _
    rw [Progress.deactivate_activate other]

/-- A reference fails at once with a problem and changes nothing, or reads a cell that is fresh, or
brings a stale cell up to date and reads it if that has not failed. -/
theorem reference_cases (count : Nat) (bring : Refresh) (room : Nat) (name : String) (p : Progress) :
    (∃ f, reference count bring room name p = (.error (.problem f), p)) ∨
    (name ∉ p.active ∧ p.sheet.Fresh name ∧
      reference count bring room name p = (readOf count name p.sheet, p)) ∨
    ∃ c, name ∉ p.active ∧ p.sheet.get? name = some c ∧ c.isStale = true ∧
      reference count bring room name p =
        match bring room name (p.activate name) with
        | (.ok (), q) => (readOf count name q.sheet, q.deactivate name)
        | (.error x, q) => (.error x, q.deactivate name) := by
  by_cases active : name ∈ p.active
  · rw [reference, if_pos active]
    exact .inl ⟨_, rfl⟩
  cases here : p.sheet.get? name with
  | none =>
    rw [reference, if_neg active, here]
    exact .inl ⟨_, rfl⟩
  | some c =>
    by_cases stale : c.isStale = true
    · refine .inr (.inr ⟨c, active, rfl, stale, ?_⟩)
      rw [reference, if_neg active, here]
      dsimp only
      rw [answer_run, if_pos stale]
      rcases bring room name (p.activate name) with ⟨x | u, q⟩ <;> rfl
    · have fresh : p.sheet.Fresh name := fun d there => by
        cases here.symm.trans there
        exact Bool.eq_false_iff.2 stale
      exact .inr (.inl ⟨active, fresh, reference_fresh count bring room active fresh⟩)

section
variable {bring : Refresh}

theorem reference_runs (runs : ∀ room name p, Runs p (bring room name p).2) (count room : Nat)
    (name : String) (p : Progress) : Runs p (reference count bring room name p).2 := by
  obtain ⟨f, refers⟩ | ⟨-, -, refers⟩ | ⟨c, idle, -, -, refers⟩ :=
    reference_cases count bring room name p
  · rw [refers]
    exact .refl p
  · rw [refers]
    exact .refl p
  · have inner := runs room name (p.activate name)
    have outside : ∀ q, Runs (p.activate name) q → Runs p (q.deactivate name) := fun q ran => by
      refine ⟨?_, ran.steps⟩
      change List.filter _ q.active = _
      rw [ran.active]
      exact filter_ne_cons idle
    rw [refers]
    generalize bring room name _ = out at inner
    obtain ⟨x | u, q⟩ := out <;> exact outside q inner

/-- After a reevaluation has begun its cell it runs. -/
theorem reevaluateWith_begins (sim : Simulation)
    (runs : ∀ room name p, Runs p (bring room name p).2) (room : Nat) {id : String} {p : Progress}
    {before : Cell} (here : p.sheet.get? id = some before) :
    Runs (p.onSheet (Sheet.begun · id before)) (reevaluateWith sim bring room id p).2 := by
  rw [reevaluateWith_eq sim bring room here]
  split
  · exact conclude_runs id before _ _
  next e _ =>
    have inner : Runs (p.onSheet (Sheet.begun · id before)) _ :=
      Formula.evaluate_keeps (I := fun q => Runs (p.onSheet (Sheet.begun · id before)) q)
        (fun room name q h => h.trans (reference_runs runs sim.count room name q)) sim.count room e
        (sim.source.generatorFor [id, before.formula.getD ""]) (.refl _)
    split <;> rename_i same <;> rw [same] at inner
    · exact inner.trans (conclude_runs id before _ _)
    · exact inner.trans (conclude_runs id before _ _)
    · exact inner.trans ⟨rfl, .single (.finish _ id .vacant)⟩
    · exact inner

theorem reevaluateWith_runs (sim : Simulation)
    (runs : ∀ room name p, Runs p (bring room name p).2) (room : Nat) (id : String) (p : Progress) :
    Runs p (reevaluateWith sim bring room id p).2 := by
  cases here : p.sheet.get? id with
  | none =>
    rw [reevaluateWith, here]
    exact .refl p
  | some before =>
    have begin : Runs p (p.onSheet (Sheet.begun · id before)) := ⟨rfl, .single (.begin here)⟩
    exact begin.trans (reevaluateWith_begins sim runs room here)

theorem refresh_runs (sim : Simulation) (levels : Nat) :
    ∀ room name p, Runs p (refresh sim levels room name p).2 := by
  induction levels with
  | zero => intro room name p; exact .refl p
  | succ levels ih =>
    intro room name p
    match room with
    | 0 => exact .refl p
    | 1 => exact .refl p
    | room + 2 =>
      have runs := reevaluateWith_runs sim ih room name p
      rw [refresh_run]
      split <;> rename_i same <;> rw [same] at runs <;> exact runs

end

/-! ### Sweeps -/

theorem reevaluateAlone_begins (sim : Simulation) {s : Sheet} {id : String} {before : Cell}
    (here : s.get? id = some before) : Steps (s.begun id before) (s.reevaluateAlone sim id).2 :=
  (reevaluateWith_begins sim (refresh_runs sim s.size) sim.room (p := ⟨s, [id]⟩) here).steps

theorem reevaluateAlone_steps (sim : Simulation) (s : Sheet) (id : String) :
    Steps s (s.reevaluateAlone sim id).2 :=
  (reevaluateWith_runs sim (refresh_runs sim s.size) sim.room id ⟨s, [id]⟩).steps

/-- What the two ways of dealing with a cell keep, for the cells of the order so far, holds after
a sweep for all of them. -/
theorem Sheet.sweep_induct {sim : Simulation} {order : List String}
    {I : List String → Bool → Sheet → Prop}
    (skip : ∀ before id after flag s, order = before ++ id :: after → I before flag s →
      s.Fresh id → I (before ++ [id]) flag s)
    (visit : ∀ before id after flag s c, order = before ++ id :: after → I before flag s →
      s.get? id = some c → c.isStale = true →
      I (before ++ [id]) (flag || (s.reevaluateAlone sim id).1) (s.reevaluateAlone sim id).2)
    {s : Sheet} (start : I [] false s) :
    I order (sweep sim order (false, s)).1 (sweep sim order (false, s)).2 := by
  suffices go : ∀ rest before flag s, order = before ++ rest → I before flag s →
      I order (sweep sim rest (flag, s)).1 (sweep sim rest (flag, s)).2 from
    go order [] false s rfl start
  intro rest
  induction rest with
  | nil =>
    intro before flag s split h
    rw [split, List.append_nil]
    exact h
  | cons id rest ih =>
    intro before flag s split h
    have further : order = (before ++ [id]) ++ rest := by
      rw [split, List.append_assoc]
      rfl
    rw [sweep]
    cases here : s.get? id with
    | none =>
      refine ih _ flag s further (skip before id rest flag s split h ?_)
      intro c there
      rw [here] at there
      cases there
    | some c =>
      dsimp only
      by_cases stale : c.isStale = true
      · rw [if_pos stale]
        exact ih _ _ _ further (visit before id rest flag s c split h here stale)
      · rw [if_neg stale]
        refine ih _ flag s further (skip before id rest flag s split h ?_)
        intro d there
        cases here.symm.trans there
        exact Bool.eq_false_iff.2 stale

theorem sweep_steps (sim : Simulation) (order : List String) (s : Sheet) :
    Steps s (Sheet.sweep sim order (false, s)).2 :=
  Sheet.sweep_induct (I := fun _ _ t => Steps s t)
    (fun _ _ _ _ _ _ steps _ => steps)
    (fun _ id _ _ t _ _ steps _ _ => steps.trans (reevaluateAlone_steps sim t id)) .refl

theorem sweeps_steps (sim : Simulation) (order : List String) (left done : Nat) (s : Sheet) :
    Steps s (Sheet.sweeps sim order left done s).2.2 := by
  induction left generalizing done s with
  | zero => exact .refl
  | succ left ih =>
    have first := sweep_steps sim order s
    rw [Sheet.sweeps]
    dsimp only
    split
    · exact first
    · exact first.trans (ih (done + 1) _)

end MonteCarloSheet
