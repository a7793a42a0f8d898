import MonteCarloSheet.Proofs.Sheet.Noticed
import MonteCarloSheet.Proofs.Sheet.Rewriting
import MonteCarloSheet.Proofs.Sheet.Settling

/-! Edits are local.

A recalculation evaluates every cell again, in an order that an edit may change. What a
cell means depends only on the formulas that it reaches, so an edit of another cell
leaves its meaning alone. After an edit of a sheet at rest, links close no loop: the
edited cell alone may keep old ones, which are the references of its old formula
(`Edit.not_onLoop`). So the recalculation that follows nests nothing, and a cell that
shows what it still means holds (`edits_are_local`). -/
namespace MonteCarloSheet

open Formula (Expr)

namespace Sheet

/-! ### Links that are left -/

/-- A cell whose formula does not parse is left as it is. -/
theorem prepare_of_unparsed {s : Sheet} (faithful : s.Faithful) {id : String}
    (unparsed : ¬ ∃ text e, s.formulas id = some text ∧ Formula.parse text = .ok e) :
    s.prepare id = s := by
  rw [prepare]
  split
  · rfl
  next c here =>
    have fails : ∀ e, Formula.parse c.formula ≠ .ok e := fun e parsed =>
      unparsed ⟨c.formula, e, formulas_of_get? here, parsed⟩
    split
    next e kept =>
      have tree : c.tree = Formula.parse c.formula := faithful id c here
      rw [Cell.tree, kept] at tree
      exact (fails e tree.symm).elim
    next =>
      split
      · rfl
      next e parsed => exact (fails e parsed).elim

/-- So it still has its old links when the sweeps begin. -/
theorem dependencies_prepared_of_unparsed {s : Sheet} (faithful : s.Faithful) {x : String}
    (unparsed : ¬ ∃ text e, s.formulas x = some text ∧ Formula.parse text = .ok e) :
    s.prepared.dependencies x = s.dependencies x := by
  have cleared : Faithful (Roster.map (fun _ c => c.beginCycle) s) :=
    faithful.map (f := fun _ c => c.beginCycle) fun _ _ hc => hc
  have same : s.prepared.Faithful ∧ s.prepared.formulas = s.formulas ∧
      s.prepared.dependencies x = s.dependencies x := by
    refine prepareAll_keep (I := fun t => t.Faithful ∧ t.formulas = s.formulas ∧
      t.dependencies x = s.dependencies x) ?_ ⟨cleared, ?_, ?_⟩
    · intro t id ⟨faithful, formulas, links⟩
      refine ⟨faithful.prepare id, (formulas_prepare t id).trans formulas, ?_⟩
      by_cases self : x = id
      · rw [← self, prepare_of_unparsed faithful (by rw [formulas]; exact unparsed), links]
      · rw [dependencies_prepare_of_ne t self, links]
    · exact formulas_map (f := fun _ c => c.beginCycle) fun _ _ => rfl
    · exact dependencies_map (f := fun _ c => c.beginCycle) (fun _ _ => rfl) x
  exact same.2.2

/-- When the sweeps begin, a link is a reference, or it is an old one of a cell that has no
references. -/
theorem refers_or_left {s : Sheet} (faithful : s.Faithful) {x y : String}
    (link : y ∈ s.prepared.dependencies x) :
    s.formulas.Refers x y ∨ (∀ z, ¬ s.formulas.Refers x z) ∧ y ∈ s.dependencies x := by
  by_cases parses : ∃ text e, s.formulas x = some text ∧ Formula.parse text = .ok e
  · obtain ⟨text, e, formula, parsed⟩ := parses
    rw [← formulas_prepared] at formula
    rw [prepared_linked faithful x text e formula parsed] at link
    rw [formulas_prepared] at formula
    exact .inl ⟨text, e, formula, parsed, Expr.mem_dependencies.1 link⟩
  · rw [dependencies_prepared_of_unparsed faithful parses] at link
    exact .inr ⟨fun z ⟨text, e, formula, parsed, _⟩ => parses ⟨text, e, formula, parsed⟩, link⟩

/-- Without loops of links nothing enters one. -/
theorem loopsFit_of_no_loops {s : Sheet} (none : ∀ x, ¬ s.OnLoop x) (room : Nat) :
    s.LoopsFit room := by
  rintro trail - ⟨_, y, _, -, loop⟩
  exact (none y loop).elim

/-! ### Edits -/

/-- The second sheet comes from the first by giving the cell a formula or by taking it out. -/
inductive Edit (s : Sheet) (x : String) : Sheet → Prop where
  | define (formula name : Option String) : Edit s x (s.define x formula name)
  | remove {c : Cell} {s' : Sheet} (removed : s.remove x = some (c, s')) : Edit s x s'

namespace Edit
variable {s s' : Sheet} {x y : String}

theorem reachable (edit : s.Edit x s') (h : s.Reachable) : s'.Reachable := by
  cases edit with
  | define formula name => exact h.define x formula name
  | remove removed => exact h.remove x removed

theorem formulas_eq (edit : s.Edit x s') (other : y ≠ x) : s'.formulas y = s.formulas y := by
  cases edit with
  | define formula name => rw [formulas_define, if_neg other]
  | remove removed =>
    have gone := formulas_without s x y
    rw [without, removed, if_neg other] at gone
    exact gone

theorem dependencies_subset (edit : s.Edit x s') (y : String) :
    s'.dependencies y ⊆ s.dependencies y := by
  cases edit with
  | define formula name => rw [dependencies_define]; exact List.Subset.refl _
  | remove removed =>
    rw [Sheet.remove] at removed
    obtain ⟨c, -, same⟩ := Option.map_eq_some_iff.1 removed
    cases same
    rw [dependencies, Roster.get?_erase]
    split
    · exact List.nil_subset _
    next other =>
      rw [← dependencies, dependencies_detach, if_neg other]
      exact List.Subset.refl _

theorem holds (edit : s.Edit x s') (other : y ≠ x) {c : Cell} (h : s.Holds y c) :
    s'.Holds y c := by
  cases edit with
  | define formula name => exact h.define other formula name
  | remove removed => exact h.remove other removed

variable {sim : Simulation} {roomOf : Expr → Nat} {F : Formulas}

/-- After an edit of a sheet at rest no cell lies on a loop of links, if there is no cycle before
or after. -/
theorem not_onLoop (edit : s.Edit x s') (rest : AtRest sim roomOf F s) (faithful : s'.Faithful)
    (before : F.Acyclic) (after : s'.formulas.Acyclic) (z : String) : ¬ s'.prepared.OnLoop z := by
  have either : ∀ a b, b ∈ s'.prepared.dependencies a →
      s'.formulas.Refers a b ∨ (∀ z, ¬ s'.formulas.Refers a z) ∧ F.Refers a b := by
    intro a b link
    refine (refers_or_left faithful link).imp_right fun ⟨bare, old⟩ => ⟨bare, ?_⟩
    exact rest.mem_dependencies.1 (edit.dependencies_subset a old)
  have elsewhere : ∀ a b, a ≠ x → (s'.formulas.Refers a b ↔ F.Refers a b) := by
    intro a b other
    rw [Formulas.Refers, Formulas.Refers, edit.formulas_eq other, rest.formulas]
  -- all links are references of the same formulas, the new ones or the old ones
  intro loop
  by_cases new : ∃ b, s'.formulas.Refers x b
  · refine after z (Relation.TransGen.mono (fun a b link => ?_) z z loop)
    rcases either a b link with refers | ⟨bare, refers⟩
    · exact refers
    · by_cases self : a = x
      · subst self
        obtain ⟨y, absurd⟩ := new
        exact (bare y absurd).elim
      · exact (elsewhere a b self).2 refers
  · refine before z (Relation.TransGen.mono (fun a b link => ?_) z z loop)
    rcases either a b link with refers | ⟨-, refers⟩
    · by_cases self : a = x
      · subst self
        exact (new ⟨b, refers⟩).elim
      · exact (elsewhere a b self).1 refers
    · exact refers

end Edit

/-! ### Cells that hold -/

theorem Holds.version_eq {s : Sheet} {x : String} {c : Cell} (h : s.Holds x c)
    (known : x ∈ s.names) : s.version x = c.version := by
  obtain ⟨d, here⟩ := Roster.mem_names.1 known
  rw [version_of_get? here]
  exact Cell.eq_of_core (h x d here rfl) fun _ => rfl

/-- A fresh cell that holds is the same but for its readers. -/
theorem Holds.get?_eq {s : Sheet} {x : String} {c : Cell} (h : s.Holds x c) (known : x ∈ s.names)
    (before : c.isStale = false) (after : s.Fresh x) :
    ∃ readers, s.get? x = some { c with dependents := readers } := by
  obtain ⟨d, here⟩ := Roster.mem_names.1 known
  have core := h x d here rfl
  obtain ⟨calm, reached⟩ := fresh_iff.1 before
  obtain ⟨calm', reached'⟩ := fresh_iff.1 (after d here)
  refine ⟨d.dependents, here.trans (congrArg some ?_)⟩
  calc d
      = { d.core with needsReevaluation := false, processed := true, dependents := d.dependents } := by
        rw [← calm', ← reached']; rfl
    _ = { c with dependents := d.dependents } := by
        rw [core, ← calm, ← reached]; rfl

end Sheet

/-- Right after a recalculation, if neither the sheet nor the edited one has a cycle, an edit and the
recalculation that follows leave every cell as it is but for its readers, and do not report it, if
no chain of references leads from it to the edited cell. The formulas before the edit say whether
one does: those after it differ in the edited cell only. Only the first recalculation needs room for
what nests where old links close a loop. -/
theorem edits_are_local {t s' : Sheet} {x y : String} {c : Cell} (h : t.Reachable)
    {sim : Simulation} (before : t.formulas.Acyclic) (enough : t.prepared.LoopsFit sim.room)
    (edit : (t.recalculate sim).2.Edit x s') (after : s'.formulas.Acyclic)
    (apart : ¬ t.formulas.Reaches y x) (here : (t.recalculate sim).2.get? y = some c) :
    y ∉ (s'.recalculate sim).1.changed ∧
      ∃ readers, (s'.recalculate sim).2.get? y = some { c with dependents := readers } := by
  have other : y ≠ x := by
    rintro rfl
    exact apart .refl
  have reachable := edit.reachable (h.recalculate sim)
  obtain ⟨_, s, result, -, rest, fresh, -⟩ := recalculate_rests h before enough
    (keeps_trivial sim _ _) (fun _ _ _ => id) trivial
  rw [result] at edit here
  obtain ⟨r, means, shows_⟩ := rest.shows_ y c here
  have begun := rest.begun y c here
  have formula : s'.formulas y = some c.formula :=
    (edit.formulas_eq other).trans (Sheet.formulas_of_get? here)
  have meaning : Denotes sim (fun _ => sim.room) s'.formulas y r := by
    refine means.congr fun z reaches => ?_
    have apart_z : z ≠ x := by
      rintro rfl
      exact apart reaches
    rw [edit.formulas_eq apart_z, rest.formulas]
  have holds : s'.Holds y c := edit.holds other (.of_get? here rfl)
  have fit := Sheet.loopsFit_of_no_loops
    (edit.not_onLoop rest reachable.faithful before after) sim.room
  obtain ⟨_, u, result', -, -, fresh', holds'⟩ := recalculate_rests reachable after fit
    (keeps_holds begun formula meaning shows_) (fun _ _ fresher h => h.fresher fresher)
    (holds.prepared begun)
  have known : y ∈ s'.names := Sheet.isSome_formulas.1 (by rw [formula]; rfl)
  have known' : y ∈ u.names := by
    rw [← congrArg (fun r => r.2.names) result', Sheet.names_recalculate]
    exact known
  constructor
  · intro changed
    have grown := (Sheet.mem_changed.1 changed).2
    rw [result'] at grown
    exact grown ((holds'.version_eq known').trans (holds.version_eq known).symm)
  · have fresh_c := fresh y (Roster.mem_names.2 ⟨c, here⟩) c here
    rw [result']
    exact holds'.get?_eq known' fresh_c (fresh' y known')

/-- A cell gets another number: the cell beside it that the same product reads stays as it is. -/
theorem edit_beside_a_cell :
    let t := Sheet.define (Sheet.define (Sheet.define (Sheet.define Roster.empty
      "P" (some "A * X") none) "A" (some "B + 1") none) "B" (some "1 to 2") none)
      "X" (some "3") none
    let sim : Simulation := ⟨5000, ⟨.permuted, some 1, none⟩, 980⟩
    let s' := Sheet.define (t.recalculate sim).2 "X" (some "4") none
    t.Reachable ∧ t.formulas.Acyclic ∧ t.prepared.LoopsFit sim.room ∧
      (t.recalculate sim).2.Edit "X" s' ∧ s'.formulas.Acyclic ∧ ¬ t.formulas.Reaches "A" "X" ∧
      ∃ c, (t.recalculate sim).2.get? "A" = some c ∧ "A" ∉ (s'.recalculate sim).1.changed ∧
        ∃ readers, (s'.recalculate sim).2.get? "A" = some { c with dependents := readers } := by
  intro t sim s'
  have reachable : t.Reachable :=
    .define (.define (.define (.define .empty "P" _ _) "A" _ _) "B" _ _) "X" _ _
  let rank : String → Nat := fun id => if id = "P" then 2 else if id = "A" then 1 else 0
  have before : t.formulas.Acyclic := Sheet.acyclic_of_links rank (by decide +kernel)
  have same : s'.formulas = (t.define "X" (some "4") none).formulas := by
    funext x
    rw [Sheet.formulas_define, Sheet.formulas_define, Sheet.formulas_recalculate]
  have after : s'.formulas.Acyclic := by
    rw [same]
    exact Sheet.acyclic_of_links rank (by decide +kernel)
  have fit : t.prepared.formulas.FitIn sim.room :=
    Formulas.fitIn_of_span_le (fun _ => Sheet.isSome_formulas.1) (by decide +kernel)
  have enough : t.prepared.LoopsFit sim.room := fun trail is _ => fit trail is
  have edit : (t.recalculate sim).2.Edit "X" s' := .define _ _
  have apart : ¬ t.formulas.Reaches "A" "X" := fun reaches =>
    absurd (Formulas.mem_of_reaches ["A", "B"] (by decide +kernel) (by decide) reaches)
      (by decide)
  have known : "A" ∈ (t.recalculate sim).2.names := by
    rw [Sheet.names_recalculate]
    decide +kernel
  obtain ⟨c, here⟩ := Roster.mem_names.1 known
  exact ⟨reachable, before, enough, edit, after, apart, c, here,
    edits_are_local reachable before enough edit after apart here⟩

end MonteCarloSheet
