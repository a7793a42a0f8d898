import MonteCarloSheet.Proofs.Sheet.Noticed
import MonteCarloSheet.Proofs.Sheet.Settling

/-! Where a sweep finds fresh cells.

A cell is straight if no chain of links leads from it into a loop. When a sweep has
passed straight cells, they stay as they are for the rest of the sweep
(`Moves.straight_same`): all that they read is straight and has been passed too. So a
visited cell finds every straight cell that it refers to fresh
(`references_found_fresh`), whatever the room, and without loops of links no
evaluation nests. -/
namespace MonteCarloSheet

open Formula (Expr)

namespace Sheet

/-- No chain of links leads from the cell into a loop. -/
def Straight (u : Sheet) (x : String) : Prop :=
  ∀ z, u.Leads x z → ¬ u.OnLoop z

theorem Straight.not_onLoop {u : Sheet} {x : String} (h : u.Straight x) : ¬ u.OnLoop x :=
  h x .refl

theorem Straight.of_link {u : Sheet} {x y : String} (h : u.Straight x)
    (link : y ∈ u.dependencies x) : u.Straight y :=
  fun z leads => h z (.head link leads)

theorem version_of_absent {s : Sheet} {x : String} (absent : x ∉ s.names) : s.version x = 0 := by
  have none : s.get? x = none := by
    by_contra some
    exact absent (Roster.mem_names.2 (Option.ne_none_iff_exists'.1 some))
  rw [version, none]
  rfl

end Sheet

variable {F : Formulas} {u : Sheet} {S : String → Prop} {p q : Progress}
  {before after rest : List String} {id : String}

/-- Straight cells that a sweep has passed stay as they are while others are evaluated. -/
theorem Moves.straight_same (moves : Moves S p q) (ready : Ready F u) (steps : Steps u p.sheet)
    (split : u.order = before ++ rest) (fresh : ∀ x ∈ before, u.Straight x → p.sheet.Fresh x) :
    ∀ x ∈ before, u.Straight x → p.sheet.Same q.sheet x := by
  -- what the last cell reads comes before it in the order
  induction before using List.reverseRecOn generalizing rest with
  | nil => exact fun _ absurd => (List.not_mem_nil absurd).elim
  | append_singleton front last ih =>
    have split' : u.order = front ++ last :: rest := by simp [split]
    have earlier := ih split' fun x mem => fresh x (List.mem_append_left _ mem)
    intro x mem straight
    rcases List.mem_append.1 mem with inside | self
    · exact earlier x inside straight
    · rw [List.mem_singleton.1 self] at straight ⊢
      by_cases active : last ∈ p.active
      · exact moves.waiting last active
      · refine moves.fresh last active (fresh last (by simp) straight) fun y link _ => ?_
        have old : y ∈ u.dependencies last :=
          Sheet.dependencies_of_steps ready.linked ready.underway.faithful steps last link
        by_cases known : y ∈ u.names
        · have place := Sheet.mem_before_of_reads split' (.inr rfl) straight.not_onLoop old known
          exact (earlier y place (straight.of_link old)).still.version
        · rw [Sheet.version_of_absent, Sheet.version_of_absent]
          · rwa [names_steps steps]
          · rwa [names_steps moves.steps, names_steps steps]

/-- A straight cell that a visited cell refers to has been passed. -/
theorem Ready.mem_passed (ready : Ready F u) (split : u.order = before ++ id :: after)
    {y : String} (refers : F.Refers id y) (known : y ∈ u.names) (straight : u.Straight y) :
    y ∈ before := by
  obtain ⟨text, e, formula, parsed, mem⟩ := refers
  have link : y ∈ u.dependencies id := by
    rw [ready.linked id text e (by rw [ready.formulas, formula]) parsed]
    exact Expr.mem_dependencies.2 mem
  exact (Sheet.before_or_onLoop split link known).resolve_right fun both =>
    straight.not_onLoop both.2

/-- What a sweep has done when it has passed a part of the order. -/
structure Unmoved (u : Sheet) (passed : List String) (t : Sheet) : Prop where
  steps : Steps u t
  readable : t.idle.Readable
  fresh : ∀ x ∈ passed, u.Straight x → t.Fresh x

theorem Unmoved.visit (sim : Simulation) (ready : Ready F u) {t : Sheet} {c : Cell}
    (split : u.order = before ++ id :: after) (h : Unmoved u before t)
    (here : t.get? id = some c) (stale : c.isStale = true) :
    Unmoved u (before ++ [id]) (t.reevaluateAlone sim id).2 := by
  have underway : t.Underway := h.steps.keep (fun _ _ => Sheet.Underway.step) ready.underway
  obtain ⟨moves, readable, fresh⟩ := reevaluateAlone_moves sim underway.tied h.readable here stale
  refine ⟨h.steps.trans moves.steps, readable, fun x mem straight => ?_⟩
  rcases List.mem_append.1 mem with mem | self
  · have same := moves.straight_same ready h.steps split h.fresh x mem straight
    exact same.fresh.2 (h.fresh x mem straight)
  · rw [List.mem_singleton.1 self]
    exact fresh

/-- A cell that is fresh is passed over. -/
theorem Unmoved.skip {t : Sheet} (h : Unmoved u before t) (fresh : t.Fresh id) :
    Unmoved u (before ++ [id]) t := by
  refine ⟨h.steps, h.readable, fun x mem straight => ?_⟩
  rcases List.mem_append.1 mem with mem | self
  · exact h.fresh x mem straight
  · rw [List.mem_singleton.1 self]
    exact fresh

/-- A part of a sweep leaves the straight cells that it passes fresh. -/
theorem Unmoved.sweep (sim : Simulation) (ready : Ready F u) (split : u.order = before ++ rest)
    {t : Sheet} (h : Unmoved u [] t) :
    Unmoved u before (Sheet.sweep sim before (false, t)).2 := by
  refine Sheet.sweep_induct (I := fun passed _ t => Unmoved u passed t) ?_ ?_ h
  · exact fun front id back flag t _ h fresh => h.skip fresh
  · intro front id back flag t c split' h here stale
    rw [split', List.append_assoc, List.cons_append] at split
    exact h.visit sim ready split here stale

namespace Sheet

/-- The sheet after so many sweeps of a recalculation. -/
def afterSweeps (sim : Simulation) (s : Sheet) : Nat → Sheet
  | 0 => s.prepared
  | n + 1 => (sweep sim s.prepared.order (false, s.afterSweeps sim n)).2

/-- A recalculation leaves the sheet as it is after its sweeps. -/
theorem recalculate_afterSweeps (sim : Simulation) (s : Sheet) :
    (s.recalculate sim).2 = s.afterSweeps sim (s.recalculate sim).1.iterations := by
  have go : ∀ left done, (sweeps sim s.prepared.order left done (s.afterSweeps sim done)).2.2 =
      s.afterSweeps sim (sweeps sim s.prepared.order left done (s.afterSweeps sim done)).1 := by
    intro left
    induction left with
    | zero => exact fun done => rfl
    | succ left ih =>
      intro done
      rw [sweeps]
      dsimp only
      split
      · rfl
      · exact ih (done + 1)
  exact go (sweepLimit s.prepared) 0

theorem ready_prepared {s : Sheet} (h : s.Reachable) : Ready s.formulas s.prepared :=
  ⟨h.underway, prepared_linked h.faithful, formulas_prepared s⟩

end Sheet

theorem unmoved_afterSweeps (sim : Simulation) {s : Sheet} (h : s.Reachable) (n : Nat) :
    Unmoved s.prepared [] (s.afterSweeps sim n) := by
  induction n with
  | zero => exact ⟨.refl, readable_prepared s, fun _ absurd => (List.not_mem_nil absurd).elim⟩
  | succ n ih =>
    have swept := ih.sweep sim (Sheet.ready_prepared h) (List.append_nil _).symm
    exact ⟨swept.steps, swept.readable, fun _ absurd => (List.not_mem_nil absurd).elim⟩

/-- Whenever a sweep of a recalculation comes to a cell, the straight cells that it refers to are
fresh. -/
theorem references_found_fresh {s : Sheet} (h : s.Reachable) (sim : Simulation) (n : Nat)
    (split : s.prepared.order = before ++ id :: after) {y : String}
    (refers : s.formulas.Refers id y) (straight : s.prepared.Straight y) :
    (Sheet.sweep sim before (false, s.afterSweeps sim n)).2.Fresh y := by
  have ready := Sheet.ready_prepared h
  have unmoved := (unmoved_afterSweeps sim h n).sweep sim ready split
  intro c there
  have known : y ∈ s.prepared.names := by
    rw [← names_steps unmoved.steps]
    exact Roster.mem_names.2 ⟨c, there⟩
  exact unmoved.fresh y (ready.mem_passed split refers known straight) straight c there

/-- A cell that is defined before the cell that it reads comes after it in the order. -/
theorem reference_of_two_cells :
    let s := Sheet.define (Sheet.define Roster.empty "A" (some "B + 1") none)
      "B" (some "1 to 2") none
    let sim : Simulation := ⟨5000, ⟨.permuted, some 1, none⟩, 980⟩
    s.Reachable ∧ s.prepared.order = ["B"] ++ "A" :: [] ∧ s.formulas.Refers "A" "B" ∧
      s.prepared.Straight "B" ∧
      ∀ n, Sheet.Fresh (Sheet.sweep sim ["B"] (false, s.afterSweeps sim n)).2 "B" := by
  intro s sim
  have reachable : s.Reachable := .define (.define .empty "A" _ _) "B" _ _
  have split : s.prepared.order = ["B"] ++ "A" :: [] := by decide +kernel
  have links : "B" ∈ linksOf (Formula.parse (some "B + 1")) := by decide +kernel
  obtain ⟨e, parsed, mem⟩ := Sheet.mem_linksOf.1 links
  have refers : s.formulas.Refers "A" "B" := ⟨some "B + 1", e, by decide +kernel, parsed, mem⟩
  have none : s.prepared.dependencies "B" = [] := by decide +kernel
  have straight : s.prepared.Straight "B" := by
    intro z leads loop
    rcases Relation.ReflTransGen.cases_head leads with rfl | ⟨y, link, -⟩
    · obtain ⟨y, link, -⟩ := Relation.TransGen.head'_iff.1 loop
      rw [none] at link
      cases link
    · rw [none] at link
      cases link
  exact ⟨reachable, split, refers, straight, fun n =>
    references_found_fresh reachable sim n split refers straight⟩

end MonteCarloSheet
