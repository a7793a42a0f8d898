import MonteCarloSheet.Proofs.Sheet.AtRest

/-! Sweeps that change nothing.

A cell of a sheet at rest is calm when its evaluation reports no change and leaves
the sheet at rest, and a sweep over calm cells changes nothing (`sweep_calm`). A
cell is calm if what nests in its evaluation fits (`calm_of_along`), and nothing
nests where all that a cell reads comes ahead of it in the order (`calm_of_order`).
So a recalculation of a sheet at rest that has no stale cell gives it back
(`AtRest.recalculate_again`). -/
namespace MonteCarloSheet

open Formula (Expr Fit)

/-! ### Sweeps -/

theorem Sheet.isSettled_of_fresh {s : Sheet} (fresh : ∀ x ∈ s.names, s.Fresh x) :
    s.isSettled = true := by
  rw [isSettled, List.all_eq_true]
  intro entry mem
  have here : s.get? entry.1 = some entry.2 := Roster.mem_entries.1 mem
  have known : entry.1 ∈ s.names := Roster.mem_names.2 ⟨_, here⟩
  rw [(fresh_iff.1 (fresh _ known _ here)).1]
  rfl

/-- A sweep that changes nothing and leaves no cell to reevaluate is the last one. -/
theorem Sheet.sweeps_of_calm {sim : Simulation} {order : List String} {s t : Sheet}
    (swept : sweep sim order (false, s) = (false, t)) (settled : t.isSettled = true)
    (left done : Nat) : sweeps sim order (left + 1) done s = (done + 1, true, t) := by
  rw [sweeps, swept]
  dsimp only
  rw [settled]
  rfl

section
variable {sim : Simulation} {roomOf : Expr → Nat} {F : Formulas} {s : Sheet}

/-- The evaluations of the cell leave the sheet at rest as it is, but for marks, and report no
change. -/
def CalmAt (sim : Simulation) (s : Sheet) (id : String) : Prop :=
  ∀ c, s.get? id = some c →
    ∃ t, s.reevaluateAlone sim id = (false, t) ∧ Fresher (s.begun id c) t

/-- If every evaluation of a sheet at rest leaves it so, a sweep makes its cells fresh and changes
nothing else. -/
theorem AtRest.sweep_calm (h : AtRest sim roomOf F s) {order : List String}
    (calm : ∀ before id after t, order = before ++ id :: after → Fresher s t →
      (∀ x ∈ before, t.Fresh x) → CalmAt sim t id) :
    ∃ t, Sheet.sweep sim order (false, s) = (false, t) ∧ Fresher s t ∧ ∀ x ∈ order, t.Fresh x := by
  obtain ⟨same, fresher, fresh⟩ := Sheet.sweep_induct
    (I := fun before flag t => flag = false ∧ Fresher s t ∧ ∀ x ∈ before, t.Fresh x)
    (fun before id after flag t split ⟨same, fresher, fresh⟩ here => by
      refine ⟨same, fresher, fun x mem => ?_⟩
      rcases List.mem_append.1 mem with mem | mem
      · exact fresh x mem
      · rw [List.mem_singleton.1 mem]
        exact here)
    (fun before id after flag t c split ⟨same, fresher, fresh⟩ here _ => by
      obtain ⟨u, alone, further⟩ := calm before id after t split fresher fresh c here
      have rest := h.fresher fresher
      have all : Fresher t u := (rest.fresher_begun here).trans further
      rw [alone, same]
      refine ⟨rfl, fresher.trans all, fun x mem => ?_⟩
      rcases List.mem_append.1 mem with mem | mem
      · exact (fresh x mem).fresher all
      · rw [List.mem_singleton.1 mem]
        refine Sheet.Fresh.fresher (fun d there => ?_) further
        cases (rest.get?_begun here).symm.trans there
        rfl)
    ⟨rfl, Fresher.refl s, fun _ absurd => by cases absurd⟩
  exact ⟨_, Prod.ext same rfl, fresher, fresh⟩

/-- A right ending in a sheet that has stayed at rest changes nothing. -/
theorem AtRest.calm_of_ends (h : AtRest sim roomOf F s) {id : String} {c : Cell}
    (here : s.get? id = some c) {q : Progress} {ending : Ending}
    (kept : Fresher (s.begun id c) q.sheet) (right : RightEnding sim roomOf F id ending)
    (ends : reevaluate sim id ⟨s, [id]⟩ = conclude id c ending.apply q) :
    ∃ t, s.reevaluateAlone sim id = (false, t) ∧ Fresher (s.begun id c) t := by
  have rest := (h.fresher (h.fresher_begun here)).fresher kept
  have begun := h.get?_begun here
  obtain ⟨d, there⟩ : ∃ d, q.sheet.get? id = some d := by
    refine Roster.mem_names.1 ?_
    rw [kept.names]
    exact Roster.mem_names.2 ⟨_, begun⟩
  obtain ⟨needs, processed, rfl⟩ := kept.mark_of_get? begun there
  refine ⟨q.sheet, ?_, kept⟩
  rw [Sheet.reevaluateAlone, ends, rest.conclude_calm there c rfl right]
  rfl

/-- A cell of a sheet at rest is calm if the evaluations that nest in its own fit. -/
theorem AtRest.calm_of_along (h : AtRest sim roomOf F s) {Along : List String → Prop}
    (nestable : Nestable sim roomOf F Along) (suits : F.Suits sim.room roomOf) {id : String}
    (along : ∀ y, F.Refers id y → ¬ s.Fresh y → Along [y, id]) : CalmAt sim s id := by
  intro c here
  have first := h.fresher_begun here
  obtain ⟨q, ending, inner, right, ends⟩ := reevaluate_nested nestable suits
    (h.fresher first).keeps h.sound here (.refl _) fun q y kept refers stale =>
      along y refers fun fresh => stale ((fresh.fresher first).fresher kept)
  exact h.calm_of_ends here inner.kept right ends

/-! ### A second recalculation -/

/-- No chain of references leads from a cell back to it. -/
def Formulas.Acyclic (F : Formulas) : Prop :=
  ∀ x, ¬ Relation.TransGen F.Refers x x

namespace AtRest

/-- The links of a sheet at rest are the references in its formulas. -/
theorem mem_dependencies (h : AtRest sim roomOf F s) {x y : String} :
    y ∈ s.dependencies x ↔ F.Refers x y := by
  cases here : s.get? x with
  | none =>
    rw [Sheet.dependencies_of_absent here, Formulas.Refers, ← h.formulas, Sheet.formulas, here]
    simp
  | some c =>
    rw [Sheet.dependencies, here, Formulas.Refers, h.formula_eq here]
    change y ∈ c.dependencies ↔ _
    rw [(h.begun x c here).links, Sheet.mem_linksOf]
    simp

theorem not_onLoop (h : AtRest sim roomOf F s) (acyclic : F.Acyclic) (x : String) :
    ¬ s.OnLoop x :=
  fun loop => acyclic x (Relation.TransGen.mono (fun _ _ => h.mem_dependencies.1) x x loop)

/-- A sheet at rest has been prepared. -/
theorem prepare_eq (h : AtRest sim roomOf F s) (id : String) : s.prepare id = s := by
  rw [Sheet.prepare]
  cases here : s.get? id with
  | none => rfl
  | some c =>
    have begun := h.begun id c here
    have links := begun.links
    have parsed := begun.parsed
    dsimp only
    cases tree : Formula.parse c.formula with
    | error err =>
      rw [tree] at parsed
      rw [parsed]
      rfl
    | ok e =>
      rw [tree] at parsed links
      rw [parsed]
      change s.relink id (linksOf (.ok e)) = s
      rw [← links]
      exact Sheet.relink_self h.tied here

theorem beginCycle (h : AtRest sim roomOf F s) :
    AtRest sim roomOf F (Roster.map (fun _ c => c.beginCycle) s) where
  formulas := (Sheet.formulas_map (f := fun _ c => c.beginCycle) fun _ _ => rfl).trans h.formulas
  tied := h.tied.map (fun _ _ => rfl) fun _ _ => rfl
  begun := h.begun.map (f := fun _ c => c.beginCycle) fun _ _ hc =>
    ⟨hc.parsed, hc.links, hc.histogram⟩
  shows_ := h.shows_.map (f := fun _ c => c.beginCycle) fun _ _ hc => hc

theorem prepared_eq (h : AtRest sim roomOf F s) :
    s.prepared = Roster.map (fun _ c => c.beginCycle) s :=
  Sheet.prepareAll_keep (I := fun t => t = Roster.map (fun _ c => c.beginCycle) s)
    (fun t id same => by rw [same]; exact h.beginCycle.prepare_eq id) rfl

/-- A cell of a sheet at rest without cycles nests no evaluation in its own, if all that comes
earlier in the order is fresh. -/
theorem calm_of_order (h : AtRest sim roomOf F s) (acyclic : F.Acyclic)
    (roomy : ∀ e : Expr, e.height ≤ sim.room → e.height ≤ roomOf e)
    (suits : F.Suits sim.room roomOf) {before after : List String} {id : String} {t : Sheet}
    (split : s.order = before ++ id :: after) (fresher : Fresher s t)
    (fresh : ∀ x ∈ before, t.Fresh x) : CalmAt sim t id := by
  have none : Nestable sim roomOf F fun _ => False := ⟨fun _ _ h => h, fun _ _ => False.elim, roomy⟩
  refine (h.fresher fresher).calm_of_along none suits fun y refers stale => stale fun d there => ?_
  have known : y ∈ s.names := by
    rw [← fresher.names]
    exact Roster.mem_names.2 ⟨d, there⟩
  have earlier := Sheet.mem_before_of_reads split (.inr rfl) (h.not_onLoop acyclic id)
    (h.mem_dependencies.2 refers) known
  exact fresh y earlier d there

/-- A fresh sheet at rest is what a sweep makes of it when no cell has been reached. -/
theorem eq_of_fresher {t : Sheet} (fresh : ∀ x ∈ s.names, s.Fresh x)
    (fresher : Fresher (Roster.map (fun _ c => c.beginCycle) s) t)
    (fresh' : ∀ x ∈ s.names, t.Fresh x) : t = s := by
  refine Roster.ext (fresher.names.trans (Roster.names_map _ s)) fun x => ?_
  obtain ⟨needs, processed, after, -⟩ := fresher.cells x
  rw [after, Roster.get?_map]
  cases here : s.get? x with
  | none => rfl
  | some c =>
    have known : x ∈ s.names := Roster.mem_names.2 ⟨c, here⟩
    rw [Roster.get?_map, here] at after
    obtain ⟨calm, reached⟩ := Sheet.fresh_iff.1 (fresh x known c here)
    obtain ⟨calm', reached'⟩ := Sheet.fresh_iff.1 (fresh' x known _ after)
    change needs = false at calm'
    change processed = true at reached'
    rw [calm', reached']
    change some { c with needsReevaluation := false, processed := true } = some c
    rw [← calm, ← reached]

theorem versionChanges_beginCycle (s : Sheet) :
    Sheet.versionChanges (Roster.map (fun _ c => c.beginCycle) s) s = [] := by
  rw [Sheet.versionChanges, List.map_eq_nil_iff, List.filter_eq_nil_iff]
  intro entry mem
  rw [Roster.get?_map, Roster.mem_entries.1 mem]
  simp [Cell.beginCycle]

/-- Recalculating a sheet at rest without cycles and stale cells takes one sweep and gives back
the sheet. -/
theorem recalculate_again (h : AtRest sim roomOf F s) (acyclic : F.Acyclic)
    (roomy : ∀ e : Expr, e.height ≤ sim.room → e.height ≤ roomOf e)
    (suits : F.Suits sim.room roomOf) (fresh : ∀ x ∈ s.names, s.Fresh x) :
    s.recalculate sim = (⟨1, true, []⟩, s) := by
  have begin := h.beginCycle
  obtain ⟨t, swept, fresher, fresh'⟩ := begin.sweep_calm fun before id after t split fresher all =>
    begin.calm_of_order acyclic roomy suits split fresher all
  have same : t = s := by
    refine eq_of_fresher fresh fresher fun x known => fresh' x (Sheet.mem_order.2 ?_)
    rw [Roster.names_map]
    exact known
  subst same
  rw [Sheet.recalculate_eq, h.prepared_eq, Sheet.sweepLimit,
    Sheet.sweeps_of_calm swept (Sheet.isSettled_of_fresh fresh)]
  dsimp only
  rw [versionChanges_beginCycle]

end AtRest

end

end MonteCarloSheet
