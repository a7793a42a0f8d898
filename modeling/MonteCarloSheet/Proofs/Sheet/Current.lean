import MonteCarloSheet.Proofs.Sheet.Order
import MonteCarloSheet.Proofs.Sheet.Tied

/-! What a recalculation leaves current.

A tree that a cell keeps is that of its formula, in every reachable sheet
(`Reachable.faithful`). A cell that the cycle has reached names exactly the cells
in its formula and has no histogram (`Begun`). A recalculation reaches every cell
(`recalculate_reaches`), so right after it all links are those of the formulas
(`links_symmetric_and_current`). -/
namespace MonteCarloSheet

open Formula (Expr)

theorem Cell.edit_cases (c : Cell) (formula name : Option String) :
    (∃ shown, c.edit formula name = { c with displayName := shown }) ∨
      ∃ shown, c.edit formula name = { c with
        displayName := shown, formula, parsed := none, needsReevaluation := true } := by
  rw [edit]
  dsimp only
  split
  · exact .inr ⟨_, rfl⟩
  · exact .inl ⟨_, rfl⟩

namespace Sheet

/-! ### Properties of all cells -/

/-- Every cell of the sheet has the property, which may depend on its id. -/
def All (P : String → Cell → Prop) (s : Sheet) : Prop :=
  ∀ id c, s.get? id = some c → P id c

namespace All
variable {P : String → Cell → Prop} {s : Sheet}

theorem map (h : s.All P) {f : String → Cell → Cell} (keep : ∀ id c, P id c → P id (f id c)) :
    All P (Roster.map f s) := by
  intro id c here
  rw [Roster.get?_map] at here
  obtain ⟨d, old, rfl⟩ := Option.map_eq_some_iff.1 here
  exact keep id d (h id d old)

theorem modify (h : s.All P) (id : String) {f : Cell → Cell} (keep : ∀ c, P id c → P id (f c)) :
    All P (Roster.modify s id f) := by
  refine h.map fun other c hc => ?_
  by_cases same : other = id
  · rw [if_pos same]
    cases same
    exact keep c hc
  · rw [if_neg same]
    exact hc

theorem modifyAt (h : s.All P) {id : String} {c : Cell} (here : s.get? id = some c)
    {f : Cell → Cell} (new : P id (f c)) : All P (Roster.modify s id f) := by
  intro x d there
  rw [Roster.get?_modify] at there
  by_cases same : x = id
  · cases same
    rw [if_pos rfl, here] at there
    cases there
    exact new
  · rw [if_neg same] at there
    exact h x d there

theorem modifyAll (h : s.All P) (ids : List String) {f : Cell → Cell}
    (keep : ∀ id ∈ ids, ∀ c, P id c → P id (f c)) : All P (s.modifyAll ids f) := by
  induction ids generalizing s with
  | nil => exact h
  | cons id rest ih =>
    exact ih (h.modify id (keep id List.mem_cons_self)) fun x mem =>
      keep x (List.mem_cons_of_mem _ mem)

theorem relink (h : s.All P) (id : String) (targets : List String)
    (keep : ∀ x c deps readers, P x c →
      P x { c with dependencies := deps, dependents := readers }) : All P (s.relink id targets) :=
  ((h.modifyAll _ fun x _ c hc => keep x c c.dependencies _ hc).modifyAll _ fun x _ c hc =>
    keep x c c.dependencies _ hc).modify id fun c hc => keep id c targets c.dependents hc

/-- A tree that is kept and links do not matter to what a property depends on neither. -/
theorem prepare (keep : ∀ x (c : Cell) kept deps readers, P x c →
    P x { c with parsed := kept, dependencies := deps, dependents := readers })
    (h : s.All P) (id : String) : All P (s.prepare id) := by
  rw [Sheet.prepare]
  split
  · exact h
  · split
    · exact h.relink id _ fun x c _ _ hc => keep x c c.parsed _ _ hc
    · split
      · exact h
      next e _ =>
        have parsed := h.modify id (f := fun c => { c with parsed := some e }) fun c hc =>
          keep id c (some e) c.dependencies c.dependents hc
        exact relink parsed id _ fun x c _ _ hc => keep x c c.parsed _ _ hc

/-! The following is for properties that do not depend on links and are kept when a cell is marked. -/

section
variable (apart : ∀ x (c : Cell) deps readers needs, (c.needsReevaluation = true → needs = true) →
  P x c → P x { c with dependencies := deps, dependents := readers, needsReevaluation := needs })
include apart

theorem attach (h : s.All P) (id : String) : All P (s.attach id) := by
  have introduced : All P (introduce s id) := by
    refine h.modify id fun c hc => ?_
    generalize s.readers id = ids
    induction ids generalizing c with
    | nil => exact hc
    | cons reader rest ih => exact ih (c.addDependent reader) (apart id c _ _ _ (fun h => h) hc)
  have marked := introduced.modifyAll (s.readers id) (f := Cell.markStale)
    fun x _ c hc => apart x c _ _ _ (fun _ => rfl) hc
  rw [attach_eq]
  exact marked.relink id _ fun x c _ _ hc => apart x c _ _ _ (fun h => h) hc

theorem detach (h : s.All P) (id : String) : All P (s.detach id) := by
  have unlinked := h.relink id [] fun x c _ _ hc => apart x c _ _ _ (fun h => h) hc
  have marked := unlinked.modifyAll ((s.relink id []).dependents id) (f := Cell.markStale)
    fun x _ c hc => apart x c _ _ _ (fun _ => rfl) hc
  exact marked.modify id (f := fun c => { c with dependents := [] }) fun c hc =>
    apart id c _ _ _ (fun h => h) hc

theorem define (h : s.All P) (id : String) (formula name : Option String)
    (new : s.contains id = false → P id (.new id formula name))
    (edited : ∀ c, P id c → P id (c.edit formula name)) : All P (s.define id formula name) := by
  rw [Sheet.define]
  split
  next absent =>
    refine attach apart (fun x c here => ?_) id
    rw [Roster.get?_set] at here
    by_cases same : x = id
    · rw [if_pos same] at here
      cases here
      rw [same]
      exact new (by rw [Roster.contains, absent]; rfl)
    · rw [if_neg same] at here
      exact h x c here
  next c here => exact h.modify id edited

/-- An edit changes texts and the kept tree and may mark the cell, so it keeps what depends on none
of them. -/
theorem define_reworded (reworded : ∀ x (c : Cell) shown text kept needs,
    (c.needsReevaluation = true → needs = true) → P x c →
    P x { c with
      displayName := shown, formula := text, parsed := kept, needsReevaluation := needs })
    (h : s.All P) (id : String) (formula name : Option String)
    (new : s.contains id = false → P id (.new id formula name)) :
    All P (s.define id formula name) := by
  refine All.define apart h id formula name new fun c hc => ?_
  obtain ⟨shown, same⟩ | ⟨shown, same⟩ := c.edit_cases formula name <;> rw [same]
  · exact reworded id c shown c.formula c.parsed c.needsReevaluation (fun h => h) hc
  · exact reworded id c shown formula none true (fun _ => rfl) hc

theorem remove (h : s.All P) {id : String} {c : Cell} {s' : Sheet}
    (removed : s.remove id = some (c, s')) : s'.All P := by
  rw [Sheet.remove] at removed
  obtain ⟨d, -, same⟩ := Option.map_eq_some_iff.1 removed
  cases same
  intro x e here
  rw [Roster.get?_erase] at here
  split at here
  · cases here
  · exact h.detach apart id x e here

end

end All

/-! ### Relinking changes links only -/

theorem get?_relink_links (s : Sheet) (id : String) (targets : List String) (x : String) :
    ∃ readers, (s.relink id targets).get? x = (s.get? x).map fun c =>
      { c with
        dependencies := if x = id then targets else c.dependencies
        dependents := readers } := by
  rw [get?_relink]
  cases s.get? x with
  | none => exact ⟨[], rfl⟩
  | some c =>
    obtain ⟨kept, dropped⟩ : ∃ readers, (if x ∈ s.dependencies id ∧ x ∉ targets then
        c.dropDependent id else c) = { c with dependents := readers } := by
      split <;> exact ⟨_, rfl⟩
    obtain ⟨readers, added⟩ : ∃ readers, (if x ∈ targets then
        Cell.addDependent id { c with dependents := kept } else { c with dependents := kept }) =
        { c with dependents := readers } := by
      split <;> exact ⟨_, rfl⟩
    refine ⟨readers, ?_⟩
    rw [Option.map_some, Option.map_some]
    dsimp only
    rw [dropped, added]
    by_cases self : x = id
    · rw [if_pos self, if_pos self]
      rfl
    · rw [if_neg self, if_neg self]

/-- What the beginning of an evaluation does to one cell. -/
theorem get?_begun {s : Sheet} {id : String} {c : Cell} (here : s.get? id = some c) (x : String) :
    ∃ readers, (s.begun id c).get? x = (s.get? x).map fun d =>
      if x = id then
        { c.begin with dependencies := linksOf c.tree, dependents := readers }
      else { d with dependents := readers } := by
  obtain ⟨readers, relinked⟩ := get?_relink_links (s.modify id Cell.begin) id (linksOf c.tree) x
  refine ⟨readers, ?_⟩
  rw [begun, relinked, Roster.get?_modify]
  by_cases self : x = id
  · rw [if_pos self, self, here]
    simp
  · simp [self]

/-- The beginning of an evaluation changes other cells in their dependents at most. -/
theorem get?_begun_of_ne {s : Sheet} {id : String} {c : Cell} (here : s.get? id = some c)
    {x : String} (other : x ≠ id) :
    ∃ readers, (s.begun id c).get? x =
      (s.get? x).map fun d => { d with dependents := readers } := by
  obtain ⟨readers, begun⟩ := get?_begun here x
  simp only [if_neg other] at begun
  exact ⟨readers, begun⟩

end Sheet

/-! ### Kept trees -/

/-- The tree of a cell is that of its formula, also if the cell has kept it. -/
def Cell.Faithful (c : Cell) : Prop :=
  c.tree = Formula.parse c.formula

theorem Cell.faithful_of_unparsed {c : Cell} (h : c.parsed = none) : c.Faithful := by
  rw [Faithful, tree, h]
  rfl

theorem Cell.Faithful.edit {c : Cell} (h : c.Faithful) (formula name : Option String) :
    (c.edit formula name).Faithful := by
  obtain ⟨shown, same⟩ | ⟨shown, same⟩ := c.edit_cases formula name <;> rw [same]
  · exact h
  · exact faithful_of_unparsed rfl

theorem Cell.Faithful.begin {c : Cell} (h : c.Faithful) : c.begin.Faithful := by
  rw [Faithful] at h
  rw [Faithful, Cell.begin, tree, h]
  change (Formula.parse c.formula).toOption.elim (Formula.parse c.formula) .ok =
    Formula.parse c.formula
  cases Formula.parse c.formula <;> rfl

theorem Ending.faithful {c : Cell} (h : c.Faithful) (ending : Ending) :
    (ending.apply c).Faithful := by
  cases ending <;> exact h

namespace Sheet

/-- All trees that the cells keep are those of their formulas. -/
abbrev Faithful (s : Sheet) : Prop :=
  s.All fun _ c => c.Faithful

namespace Faithful
variable {s : Sheet}

theorem relink (h : s.Faithful) (id : String) (targets : List String) :
    Faithful (s.relink id targets) :=
  All.relink h id targets fun _ _ _ _ hc => hc

theorem define (h : s.Faithful) (id : String) (formula name : Option String) :
    (s.define id formula name).Faithful :=
  All.define (fun _ _ _ _ _ _ hc => hc) h id formula name (fun _ => Cell.faithful_of_unparsed rfl)
    fun _ hc => hc.edit formula name

theorem remove (h : s.Faithful) {id : String} {c : Cell} {s' : Sheet}
    (removed : s.remove id = some (c, s')) : s'.Faithful :=
  All.remove (fun _ _ _ _ _ _ hc => hc) h removed

theorem prepare (h : s.Faithful) (id : String) : (s.prepare id).Faithful := by
  rw [Sheet.prepare]
  split
  · exact h
  next c here =>
    split
    · exact h.relink id _
    next unparsed =>
      split
      · exact h
      next e parsed =>
        have kept : Cell.Faithful { c with parsed := some e } := parsed.symm
        exact Faithful.relink (h.modifyAt here kept) id _

theorem prepareAll (h : s.Faithful) : s.prepareAll.Faithful :=
  prepareAll_keep (fun _ id h => h.prepare id) h

theorem step {t : Sheet} (step : Step s t) (h : s.Faithful) : t.Faithful := by
  cases step with
  | begin here => exact Faithful.relink (h.modify _ fun _ hc => hc.begin) _ _
  | finish _ id ending => exact h.modify id fun _ hc => ending.faithful hc
  | announce p id =>
    have counted := h.modify id (f := fun c => { c with version := c.version + 1 }) fun _ hc => hc
    exact counted.modifyAll _ (f := Cell.markStale) fun _ _ _ hc => hc

theorem recalculate (h : s.Faithful) (sim : Simulation) : (s.recalculate sim).2.Faithful := by
  have cleared : Faithful (Roster.map (fun _ c => c.beginCycle) s) :=
    h.map (f := fun _ c => c.beginCycle) fun _ _ hc => hc
  exact (sweeps_steps sim (order _) (sweepLimit _) 0 _).keep (fun _ _ => Faithful.step)
    cleared.prepareAll

end Faithful

theorem Reachable.faithful {s : Sheet} (h : s.Reachable) : s.Faithful := by
  induction h with
  | empty => exact fun _ _ here => by cases here
  | define h id formula name ih => exact ih.define id formula name
  | remove h id removed ih => exact ih.remove removed
  | recalculate h sim ih => exact ih.recalculate sim
  | invalidate h ih => exact ih.map (f := fun _ c => c.invalidateSamples) fun _ _ hc => hc
  | keepBins h id count ih => exact ih.modify id (f := (Cell.keepBins · count)) fun _ hc => hc

end Sheet

/-! ### Cells that the cycle has reached -/

/-- A cell as its evaluation has begun: its tree and its links are those of its formula, and there
is no histogram. -/
structure Cell.Begun (c : Cell) : Prop where
  parsed : c.parsed = (Formula.parse c.formula).toOption
  links : c.dependencies = linksOf (Formula.parse c.formula)
  histogram : c.histogram = none

/-- The cycle has reached a cell that is not stale. -/
theorem Cell.processed_of_fresh {c : Cell} (fresh : c.isStale = false) : c.processed = true := by
  rw [isStale] at fresh
  cases h : c.processed with
  | true => rfl
  | false => rw [h] at fresh; simp at fresh

namespace Sheet

/-- Every cell that the cycle has reached is as its beginning left it. -/
abbrev Reached (s : Sheet) : Prop :=
  s.All fun _ c => c.processed = true → c.Begun

/-- What holds at every moment of a recalculation. -/
structure Underway (s : Sheet) : Prop where
  tied : s.Tied
  faithful : s.Faithful
  reached : s.Reached

theorem Reached.step {s t : Sheet} (step : Step s t) (faithful : s.Faithful) (h : s.Reached) :
    t.Reached := by
  cases step with
  | @begin _ id c here =>
    intro x d there
    obtain ⟨readers, begun⟩ := get?_begun here x
    rw [begun] at there
    obtain ⟨old, before, rfl⟩ := Option.map_eq_some_iff.1 there
    have same : c.tree = Formula.parse c.formula := faithful id c here
    by_cases self : x = id
    · rw [if_pos self]
      intro _
      exact ⟨congrArg Except.toOption same, congrArg linksOf same, rfl⟩
    · rw [if_neg self]
      intro processed
      have := h x old before processed
      exact ⟨this.parsed, this.links, this.histogram⟩
  | finish _ id ending =>
    refine h.modify id fun c hc processed => ?_
    cases ending <;> exact ⟨(hc processed).parsed, (hc processed).links, (hc processed).histogram⟩
  | announce p id =>
    have counted := h.modify id (f := fun c => { c with version := c.version + 1 })
      fun c hc processed => ⟨(hc processed).parsed, (hc processed).links, (hc processed).histogram⟩
    exact counted.modifyAll _ (f := Cell.markStale)
      fun _ _ c hc processed =>
        ⟨(hc processed).parsed, (hc processed).links, (hc processed).histogram⟩

theorem Underway.step {s t : Sheet} (step : Step s t) (h : s.Underway) : t.Underway :=
  ⟨h.tied.step step, h.faithful.step step, h.reached.step step h.faithful⟩

/-- The sheet when the sweeps of a recalculation begin. -/
def prepared (s : Sheet) : Sheet :=
  prepareAll (s.map fun _ c => c.beginCycle)

theorem recalculate_eq (sim : Simulation) (s : Sheet) :
    s.recalculate sim =
      let (iterations, converged, after) :=
        sweeps sim s.prepared.order (sweepLimit s.prepared) 0 s.prepared
      (⟨iterations, converged, versionChanges s.prepared after⟩, after) := rfl

theorem prepare_unprocessed {s : Sheet} (h : s.All fun _ c => c.processed = false) (id : String) :
    (s.prepare id).All fun _ c => c.processed = false :=
  All.prepare (fun _ _ _ _ _ hc => hc) h id

theorem prepared_unprocessed (s : Sheet) : s.prepared.All fun _ c => c.processed = false := by
  have cleared : All (fun _ c => c.processed = false) (Roster.map (fun _ c => c.beginCycle) s) := by
    intro x c here
    rw [Roster.get?_map] at here
    obtain ⟨d, -, rfl⟩ := Option.map_eq_some_iff.1 here
    rfl
  exact prepareAll_keep (I := All fun _ c => c.processed = false)
    (fun _ id h => prepare_unprocessed h id) cleared

theorem Tied.prepared {s : Sheet} (h : s.Tied) : s.prepared.Tied :=
  (h.map (f := fun _ c => c.beginCycle) (fun _ _ => rfl) fun _ _ => rfl).prepareAll

theorem Reachable.underway {s : Sheet} (h : s.Reachable) : s.prepared.Underway := by
  have faithful : Faithful (Roster.map (fun _ c => c.beginCycle) s) :=
    h.faithful.map (f := fun _ c => c.beginCycle) fun _ _ hc => hc
  refine ⟨h.tied.prepared, faithful.prepareAll, fun x c here processed => ?_⟩
  rw [prepared_unprocessed s x c here] at processed
  cases processed

/-! ### Every cell is reached -/

/-- The cycle has reached the cell. -/
def Processed (s : Sheet) (id : String) : Prop :=
  ∃ c, s.get? id = some c ∧ c.processed = true

theorem Processed.map {s : Sheet} {x : String} (h : s.Processed x) {f : String → Cell → Cell}
    (keep : ∀ id c, c.processed = true → (f id c).processed = true) :
    Processed (Roster.map f s) x := by
  obtain ⟨c, here, processed⟩ := h
  refine ⟨f x c, ?_, keep x c processed⟩
  rw [Roster.get?_map, here]
  rfl

theorem Processed.modify {s : Sheet} {x : String} (h : s.Processed x) (id : String)
    {f : Cell → Cell} (keep : ∀ c, c.processed = true → (f c).processed = true) :
    Processed (Roster.modify s id f) x := by
  refine h.map fun other c hc => ?_
  by_cases same : other = id
  · rw [if_pos same]
    exact keep c hc
  · rw [if_neg same]
    exact hc

theorem Processed.step {s t : Sheet} {x : String} (step : Step s t) (h : s.Processed x) :
    t.Processed x := by
  cases step with
  | @begin _ id c here =>
    obtain ⟨d, there, processed⟩ := h
    obtain ⟨readers, begun⟩ := get?_begun here x
    rw [there, Option.map_some] at begun
    refine ⟨_, begun, ?_⟩
    by_cases self : x = id
    · rw [if_pos self]
      rfl
    · rw [if_neg self]
      exact processed
  | finish _ id ending => exact h.modify id fun c hc => by cases ending <;> exact hc
  | announce p id =>
    have counted := h.modify id (f := fun c => { c with version := c.version + 1 }) fun _ hc => hc
    rw [announce]
    change Processed (modifyAll _ _ _) x
    generalize List.filter _ _ = ids
    generalize Roster.modify _ _ _ = u at counted
    induction ids generalizing u with
    | nil => exact counted
    | cons y rest ih => exact ih _ (counted.modify y fun _ hc => hc)

theorem processed_begun {s : Sheet} {id : String} {c : Cell} (here : s.get? id = some c) :
    (s.begun id c).Processed id := by
  obtain ⟨readers, begun⟩ := get?_begun here id
  rw [here, Option.map_some, if_pos rfl] at begun
  exact ⟨_, begun, rfl⟩

theorem Processed.steps {s t : Sheet} {x : String} (steps : Steps s t) (h : s.Processed x) :
    t.Processed x :=
  steps.keep (I := fun u => u.Processed x) (fun _ _ step h => h.step step) h

/-- A sweep reaches every cell in its order. -/
theorem sweep_processed (sim : Simulation) (order : List String) (s : Sheet) :
    ∀ x ∈ order, x ∈ s.names → (sweep sim order (false, s)).2.Processed x := by
  refine (sweep_induct (I := fun before _ t => t.names = s.names ∧
    ∀ x ∈ before, x ∈ s.names → t.Processed x) ?_ ?_ ⟨rfl, fun x mem => by cases mem⟩).2
  · intro before id after flag t split ⟨same, reached⟩ fresh
    refine ⟨same, fun x mem here => ?_⟩
    rcases List.mem_append.1 mem with mem | mem
    · exact reached x mem here
    · rw [← same] at here
      obtain ⟨c, found⟩ := Roster.mem_names.1 here
      cases List.mem_singleton.1 mem
      exact ⟨c, found, Cell.processed_of_fresh (fresh c found)⟩
  · intro before id after flag t c split ⟨same, reached⟩ found stale
    have steps := reevaluateAlone_steps sim t id
    refine ⟨(names_steps steps).trans same, fun x mem here => ?_⟩
    rcases List.mem_append.1 mem with mem | mem
    · exact (reached x mem here).steps steps
    · cases List.mem_singleton.1 mem
      exact (processed_begun found).steps (reevaluateAlone_begins sim found)

theorem sweeps_processed (sim : Simulation) (order : List String) (left done : Nat) (s : Sheet)
    {x : String} (here : x ∈ s.names) (mem : x ∈ order) :
    (sweeps sim order (left + 1) done s).2.2.Processed x := by
  have reached := sweep_processed sim order s x mem here
  rw [sweeps]
  dsimp only
  split
  · exact reached
  · exact reached.steps (sweeps_steps sim order left (done + 1) _)

theorem names_prepared (s : Sheet) : s.prepared.names = s.names :=
  prepareAll_keep (I := fun t => t.names = s.names)
    (fun t id h => (names_prepare t id).trans h) (Roster.names_map _ s)

/-- A recalculation reaches every cell, and leaves the sheet as it is underway. -/
theorem recalculate_reaches (sim : Simulation) {s : Sheet} (h : s.Reachable) :
    (s.recalculate sim).2.Underway ∧ ∀ x ∈ s.names, (s.recalculate sim).2.Processed x := by
  have steps := sweeps_steps sim s.prepared.order (sweepLimit s.prepared) 0 s.prepared
  refine ⟨steps.keep (fun _ _ => Underway.step) h.underway, fun x here => ?_⟩
  rw [← names_prepared] at here
  exact sweeps_processed sim s.prepared.order (2 * s.prepared.size + 9) 0 s.prepared here
    (mem_order.2 here)

/-! ### Links -/

theorem names_recalculate (sim : Simulation) (s : Sheet) :
    (s.recalculate sim).2.names = s.names := by
  have steps := sweeps_steps sim s.prepared.order (sweepLimit s.prepared) 0 s.prepared
  exact (names_steps steps).trans (names_prepared s)

/-- After a recalculation every cell is as its beginning left it. -/
theorem begun_of_recalculate (sim : Simulation) {s : Sheet} (h : s.Reachable) {id : String}
    {c : Cell} (here : (s.recalculate sim).2.get? id = some c) : c.Begun := by
  obtain ⟨underway, processed⟩ := recalculate_reaches sim h
  have mem : id ∈ s.names := by
    rw [← names_recalculate sim s]
    exact Roster.mem_names.2 ⟨c, here⟩
  obtain ⟨d, there, reached⟩ := processed id mem
  rw [here] at there
  cases there
  exact underway.reached id c here reached

theorem mem_linksOf {t : Except SyntaxError Expr} {name : String} :
    name ∈ linksOf t ↔ ∃ e, t = .ok e ∧ name ∈ e.references := by
  cases t with
  | error err => simp [linksOf]
  | ok e => simp [linksOf, Expr.mem_dependencies]

end Sheet

end MonteCarloSheet
