import MonteCarloSheet.Proofs.Sheet.Announced

/-! What a reevaluation leaves alone.

Whatever happens inside an evaluation, the active cells are the same after it as
before it (`active_restored`). A reevaluation begins, ends and announces only the
cell itself and cells that it reaches by references. Every other cell keeps what it
is but for its readers and its mark, and is marked only if it reads a cell whose
version has grown (`Framed`). Framed changes compose, so a reevaluation is framed by
what its cell reaches, however deep it nests (`reevaluate_frame`). -/
namespace MonteCarloSheet

/-! ### Active cells -/

/-- Evaluating a formula on its own, reevaluating a cell, and bringing one up to date inside another
evaluation leave the active cells as they find them, whatever the sheet is like, whatever the room
and however they end. -/
theorem active_restored (sim : Simulation) (p : Progress) :
    (∀ g e, (evaluateOn sim g e p).2.active = p.active) ∧
    (∀ x, (reevaluate sim x p).2.active = p.active) ∧
    ∀ levels room x, (refresh sim levels room x p).2.active = p.active := by
  refine ⟨fun g e => ?_, fun x => ?_, fun levels room x => ?_⟩
  · have kept := Formula.evaluate_keeps (I := fun q => q.active = p.active)
      (fun room name q same =>
        (reference_runs (refresh_runs sim p.sheet.size) sim.count room name q).active.trans same)
      sim.count sim.room e g rfl
    rw [evaluateOn_run]
    generalize Formula.evaluate _ _ _ _ g p = out at kept
    obtain ⟨x | r, q⟩ := out <;> exact kept
  · exact (reevaluateWith_runs sim (refresh_runs sim p.sheet.size) sim.room x p).active
  · exact (refresh_runs sim levels room x p).active

/-! ### Framed changes -/

namespace Sheet

/-- The cell is marked for reevaluation. -/
def Marked (s : Sheet) (x : String) : Prop :=
  ∃ c, s.get? x = some c ∧ c.needsReevaluation = true

theorem Same.marked {s t : Sheet} {x : String} (h : s.Same t x) : t.Marked x ↔ s.Marked x := by
  have same := h.map (f := Cell.needsReevaluation) fun _ => rfl
  have marked : ∀ u : Sheet, u.Marked x ↔ (u.get? x).map Cell.needsReevaluation = some true :=
    fun u => Option.map_eq_some_iff.symm
  rw [marked, marked, same]

/-- Both ends of links are written, and kept trees are those of the formulas, which are the given
ones. -/
structure Consistent (F : Formulas) (s : Sheet) : Prop where
  linked : s.Linked
  faithful : s.Faithful
  formulas : s.formulas = F

theorem Consistent.steps {F : Formulas} {s t : Sheet} (h : s.Consistent F) (steps : Steps s t) :
    t.Consistent F :=
  ⟨steps.keep (fun _ _ => Linked.step) h.linked, steps.keep (fun _ _ => Faithful.step) h.faithful,
    (formulas_steps steps).trans h.formulas⟩

end Sheet

/-- What happens to the sheet happens to cells that satisfy `S`. Any other cell stays as it is but
for its readers and its mark, which it keeps, and gets only if it reads a cell whose version has
grown. -/
structure Framed (S : String → Prop) (s t : Sheet) : Prop where
  steps : Steps s t
  still : ∀ y, ¬ S y → s.Still t y
  kept : ∀ y, ¬ S y → s.Marked y → t.Marked y
  told : ∀ y, ¬ S y → t.Marked y → s.Marked y ∨ ∃ z ∈ s.dependencies y, s.version z < t.version z

namespace Framed
variable {S : String → Prop} {s t u : Sheet} {x : String}

theorem of_same (steps : Steps s t) (same : ∀ y, ¬ S y → s.Same t y) : Framed S s t where
  steps := steps
  still := fun y not => (same y not).still
  kept := fun y not => (same y not).marked.2
  told := fun y not marked => .inl ((same y not).marked.1 marked)

theorem refl (S : String → Prop) (s : Sheet) : Framed S s s :=
  of_same .refl fun _ _ => rfl

theorem trans (first : Framed S s t) (second : Framed S t u) : Framed S s u where
  steps := first.steps.trans second.steps
  still := fun y not => (first.still y not).trans (second.still y not)
  kept := fun y not marked => second.kept y not (first.kept y not marked)
  told := by
    intro y not marked
    obtain between | ⟨z, link, grown⟩ := second.told y not marked
    · refine (first.told y not between).imp_right fun ⟨z, link, grown⟩ => ?_
      exact ⟨z, link, grown.trans_le (Sheet.version_steps second.steps z)⟩
    · rw [(first.still y not).dependencies] at link
      exact .inr ⟨z, link, (Sheet.version_steps first.steps z).trans_lt grown⟩

theorem begun (mem : S x) {c : Cell} (here : s.get? x = some c) : Framed S s (s.begun x c) := by
  refine of_same (.single (.begin here)) fun y not => Sheet.same_begun here ?_
  rintro rfl
  exact not mem

theorem finished (mem : S x) (ending : Ending) : Framed S s (s.modify x ending.apply) := by
  refine of_same (.single (.finish s x ending)) fun y not => ?_
  have other : y ≠ x := fun self => not (self ▸ mem)
  rw [Sheet.Same, Roster.get?_modify, if_neg other]

/-- The cells that an announcement marks read the cell that has changed. -/
theorem announced {p : Progress} (linked : p.sheet.Linked) (mem : S x) :
    Framed S p.sheet (announce x p).sheet := by
  have step : Steps p.sheet (announce x p).sheet := .single (.announce p x)
  have others : ∀ y, ¬ S y → (announce x p).sheet.get? y = (p.sheet.get? y).map fun c =>
      if y ∈ p.sheet.dependents x ∧ y ∉ p.active then c.markStale else c := by
    intro y not
    have other : y ≠ x := fun self => not (self ▸ mem)
    rw [get?_announce]
    simp only [if_neg other]
  refine ⟨step, fun y not => ?_, fun y not ⟨c, here, marked⟩ => ?_,
    fun y not ⟨c, here, marked⟩ => ?_⟩
  · rw [Sheet.Still, others y not, Option.map_map]
    congr 1
    funext c
    dsimp only [Function.comp_apply]
    split <;> rfl
  · refine ⟨_, (others y not).trans (congrArg _ here), ?_⟩
    split
    · rfl
    · exact marked
  · rw [others y not] at here
    obtain ⟨d, there, rfl⟩ := Option.map_eq_some_iff.1 here
    by_cases reader : y ∈ p.sheet.dependents x ∧ y ∉ p.active
    · -- a cell with readers is a cell of the sheet, so the link is written at its other end too
      obtain ⟨b, changed⟩ : ∃ b, p.sheet.get? x = some b := by
        cases absent : p.sheet.get? x with
        | none =>
          have reads := reader.1
          rw [Sheet.dependents, absent] at reads
          cases reads
        | some b => exact ⟨b, rfl⟩
      refine .inr ⟨x, ?_, ?_⟩
      · exact (linked x (Roster.mem_names.2 ⟨b, changed⟩) y (Roster.mem_names.2 ⟨d, there⟩)).1
          reader.1
      · obtain ⟨b', found, -, -, -, grown, -⟩ := exists_announced x changed
        rw [if_pos rfl] at grown
        rw [Sheet.version_of_get? changed, Sheet.version_of_get? found, grown]
        exact Nat.lt_succ_self _
    · rw [if_neg reader] at marked
      exact .inl ⟨d, there, marked⟩

theorem concluded {q : Progress} (linked : q.sheet.Linked) (mem : S x) (before : Cell)
    (ending : Ending) : Framed S q.sheet (conclude x before ending.apply q).2.sheet := by
  have ended : Framed S q.sheet (q.sheet.modify x ending.apply) := finished mem ending
  have still_linked := ended.steps.keep (fun _ _ => Sheet.Linked.step) linked
  rw [conclude]
  dsimp only [Progress.onSheet]
  split
  · exact ended
  · split
    · exact ended.trans (announced (p := ⟨_, q.active⟩) still_linked mem)
    · exact ended

end Framed

/-! ### Evaluations -/

/-- Bringing a cell that satisfies `S` up to date is framed by `S`. -/
def Frames (S : String → Prop) (F : Formulas) (bring : Refresh) : Prop :=
  ∀ room name p, S name → p.sheet.Consistent F → Framed S p.sheet (bring room name p).2.sheet

section
variable {S : String → Prop} {F : Formulas} {bring : Refresh}

theorem reference_framed (frames : Frames S F bring) (count room : Nat) {name : String}
    (mem : S name) {p : Progress} (consistent : p.sheet.Consistent F) :
    Framed S p.sheet (reference count bring room name p).2.sheet := by
  obtain ⟨f, refers⟩ | ⟨-, -, refers⟩ | ⟨c, -, -, -, refers⟩ :=
    reference_cases count bring room name p
  · rw [refers]
    exact .refl S p.sheet
  · rw [refers]
    exact .refl S p.sheet
  · have inner := frames room name (p.activate name) mem consistent
    rw [refers]
    generalize bring room name _ = out at inner
    obtain ⟨x | u, q⟩ := out <;> exact inner

/-- A reevaluation is framed if what the formulas of framed cells name is framed. -/
theorem reevaluateWith_framed (sim : Simulation) (closed : ∀ x y, S x → F.Refers x y → S y)
    (frames : Frames S F bring) (room : Nat) {x : String} (mem : S x) {p : Progress}
    (consistent : p.sheet.Consistent F) :
    Framed S p.sheet (reevaluateWith sim bring room x p).2.sheet := by
  cases here : p.sheet.get? x with
  | none =>
    rw [reevaluateWith, here]
    exact .refl S p.sheet
  | some before =>
    have begun : Framed S p.sheet (p.sheet.begun x before) := .begun mem here
    have tree : before.tree = Formula.parse before.formula := consistent.faithful x before here
    rw [reevaluateWith_eq sim bring room here]
    split
    · exact begun.trans (.concluded (q := p.onSheet (Sheet.begun · x before))
        (consistent.steps begun.steps).linked mem before _)
    next e parsed =>
      have named : ∀ name ∈ e.references, S name := fun name reference => by
        refine closed x name mem ⟨before.formula, e, ?_, tree.symm.trans parsed, reference⟩
        rw [← consistent.formulas]
        exact Sheet.formulas_of_get? here
      -- every reference to a name of the formula adds to what has happened since the call
      have inner : Framed S p.sheet _ :=
        Formula.evaluate_keeps_named (I := fun q => Framed S p.sheet q.sheet)
          (fun name reference room q framed => framed.trans <|
            reference_framed frames sim.count room (named name reference)
              (consistent.steps framed.steps))
          sim.count room (sim.source.generatorFor [x, before.formula.getD ""])
          (s := p.onSheet (Sheet.begun · x before)) begun
      have linked := (consistent.steps inner.steps).linked
      split <;> rename_i same <;> rw [same] at inner linked
      · exact inner.trans (.concluded linked mem before _)
      · exact inner.trans (.concluded linked mem before _)
      · exact inner.trans (.finished mem .vacant)
      · exact inner

theorem refresh_framed (sim : Simulation) (closed : ∀ x y, S x → F.Refers x y → S y)
    (levels : Nat) : Frames S F (refresh sim levels) := by
  induction levels with
  | zero => exact fun _ _ p _ _ => .refl S p.sheet
  | succ levels ih =>
    intro room x p mem consistent
    match room with
    | 0 => exact .refl S p.sheet
    | 1 => exact .refl S p.sheet
    | room + 2 =>
      have framed := reevaluateWith_framed sim closed ih room mem consistent
      rw [refresh_run]
      split <;> rename_i same <;> rw [same] at framed <;> exact framed

end

/-- Where links are written at both ends and kept trees are those of the formulas, a reevaluation,
whatever is active and however it ends, changes no formula. A cell that the reevaluated one does not
reach by references stays as it is but for its readers and its mark, which is never taken away, and
is set only where the cell depends on one whose version has grown. -/
theorem reevaluate_frame (sim : Simulation) {p : Progress} (linked : p.sheet.Linked)
    (faithful : p.sheet.Faithful) (x : String) :
    let q := (reevaluate sim x p).2
    q.sheet.formulas = p.sheet.formulas ∧
    ∀ y c, p.sheet.get? y = some c → ¬ p.sheet.formulas.Reaches x y →
      ∃ marked readers,
        q.sheet.get? y = some { c with needsReevaluation := marked, dependents := readers } ∧
        (c.needsReevaluation = true → marked = true) ∧
        (marked = true → c.needsReevaluation = false →
          ∃ z ∈ c.dependencies, p.sheet.version z < q.sheet.version z) := by
  intro q
  have closed : ∀ a b, p.sheet.formulas.Reaches x a → p.sheet.formulas.Refers a b →
      p.sheet.formulas.Reaches x b := fun a b reaches refers => reaches.tail refers
  have framed : Framed (p.sheet.formulas.Reaches x) p.sheet q.sheet :=
    reevaluateWith_framed sim closed (refresh_framed sim closed p.sheet.size) sim.room .refl
      ⟨linked, faithful, rfl⟩
  refine ⟨Sheet.formulas_steps framed.steps, fun y c here apart => ?_⟩
  obtain ⟨d, there, still⟩ := (framed.still y apart).get? here
  refine ⟨d.needsReevaluation, d.dependents, there.trans (congrArg some ?_), ?_, ?_⟩
  · calc d
        = { d.still with needsReevaluation := d.needsReevaluation, dependents := d.dependents } :=
          rfl
      _ = { c with needsReevaluation := d.needsReevaluation, dependents := d.dependents } := by
          rw [still]; rfl
  · intro before
    obtain ⟨d', found, marked⟩ := framed.kept y apart ⟨c, here, before⟩
    cases there.symm.trans found
    exact marked
  · intro marked unmarked
    obtain ⟨c', found, before⟩ | ⟨z, link, grown⟩ := framed.told y apart ⟨d, there, marked⟩
    · cases here.symm.trans found
      rw [unmarked] at before
      cases before
    · rw [Sheet.dependencies, here] at link
      exact ⟨z, link, grown⟩

/-- A reevaluated cell brings another one up to date, and a third one, which reads it too, is
marked: its number has changed. -/
theorem frame_of_three_cells :
    let sim : Simulation := ⟨2, ⟨.permuted, some 1, none⟩, 980⟩
    let t := (Sheet.define (Sheet.define (Sheet.define Roster.empty
      "A" (some "2") none) "X" (some "A + 1") none) "Y" (some "A * 2") none).recalculate sim
    let s := t.2.define "A" (some "3") none
    let q := (reevaluate sim "X" ⟨s, ["X"]⟩).2
    s.Linked ∧ s.Faithful ∧ ¬ s.formulas.Reaches "X" "Y" ∧
    ∃ c readers, s.get? "Y" = some c ∧ c.needsReevaluation = false ∧
      q.sheet.get? "Y" = some { c with needsReevaluation := true, dependents := readers } ∧
      ∃ z ∈ c.dependencies, s.version z < q.sheet.version z := by
  intro sim t s q
  have reachable : s.Reachable :=
    .define (.recalculate (.define (.define (.define .empty "A" _ _) "X" _ _) "Y" _ _) sim) "A" _ _
  have linked : s.Linked := reachable.tied.linked
  have unmarked : (s.get? "Y").map Cell.needsReevaluation = some false := by decide +kernel
  have marked : (q.sheet.get? "Y").map Cell.needsReevaluation = some true := by decide +kernel
  have apart : ¬ s.formulas.Reaches "X" "Y" := fun reaches =>
    absurd (Formulas.mem_of_reaches ["X", "A"] (by decide +kernel) (by decide) reaches)
      (by decide)
  obtain ⟨c, here, calm⟩ := Option.map_eq_some_iff.1 unmarked
  obtain ⟨-, others⟩ := reevaluate_frame sim (p := ⟨s, ["X"]⟩) linked reachable.faithful "X"
  obtain ⟨mark, readers, there, -, told⟩ := others "Y" c here apart
  have set : mark = true := by
    rw [there] at marked
    exact Option.some.inj marked
  subst set
  exact ⟨linked, reachable.faithful, apart, c, readers, here, calm, there, told rfl calm⟩

end MonteCarloSheet
