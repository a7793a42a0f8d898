import MonteCarloSheet.Proofs.Sheet.Reachable
import MonteCarloSheet.Proofs.Sheet.Steps

/-! Both ends of every link.

A sheet is tied if every link between its cells is written at both ends and every
reader of a cell is a cell of the sheet. Changes that leave the links of cells
alone keep a sheet tied, and so do relinking a cell, entering one and removing
one; in between, a removed cell has lost its readers but they still name it.
Hence every reachable sheet is tied (`Reachable.tied`), and at every moment of a
recalculation (`Tied.steps`). -/
namespace MonteCarloSheet.Sheet

/-! ### Changes that leave links alone -/

section
variable {s : Sheet}

theorem dependencies_map {f : String → Cell → Cell}
    (keep : ∀ id c, (f id c).dependencies = c.dependencies) (x : String) :
    dependencies (Roster.map f s) x = s.dependencies x := by
  rw [dependencies, Roster.get?_map, dependencies, Option.map_map]
  congr 2
  exact funext (keep x)

theorem dependents_map {f : String → Cell → Cell}
    (keep : ∀ id c, (f id c).dependents = c.dependents) (x : String) :
    dependents (Roster.map f s) x = s.dependents x := by
  rw [dependents, Roster.get?_map, dependents, Option.map_map]
  congr 2
  exact funext (keep x)

theorem dependencies_modify (id : String) {f : Cell → Cell}
    (keep : ∀ c, (f c).dependencies = c.dependencies) (x : String) :
    dependencies (Roster.modify s id f) x = s.dependencies x := by
  refine dependencies_map (fun other c => ?_) x
  by_cases same : other = id
  · rw [if_pos same, keep]
  · rw [if_neg same]

theorem dependents_modify (id : String) {f : Cell → Cell}
    (keep : ∀ c, (f c).dependents = c.dependents) (x : String) :
    dependents (Roster.modify s id f) x = s.dependents x := by
  refine dependents_map (fun other c => ?_) x
  by_cases same : other = id
  · rw [if_pos same, keep]
  · rw [if_neg same]

theorem dependencies_modifyAll (ids : List String) {f : Cell → Cell}
    (keep : ∀ c, (f c).dependencies = c.dependencies) (x : String) :
    (s.modifyAll ids f).dependencies x = s.dependencies x := by
  induction ids generalizing s with
  | nil => rfl
  | cons id rest ih => exact ih.trans (dependencies_modify id keep x)

theorem dependents_modifyAll (ids : List String) {f : Cell → Cell}
    (keep : ∀ c, (f c).dependents = c.dependents) (x : String) :
    (s.modifyAll ids f).dependents x = s.dependents x := by
  induction ids generalizing s with
  | nil => rfl
  | cons id rest ih => exact ih.trans (dependents_modify id keep x)

end

theorem Linked.congr {s t : Sheet} (h : s.Linked) (names : t.names = s.names)
    (deps : ∀ x, t.dependencies x = s.dependencies x)
    (readers : ∀ x, t.dependents x = s.dependents x) : t.Linked := by
  intro x hx y hy
  rw [names] at hx hy
  rw [deps, readers]
  exact h x hx y hy

theorem Linked.modify {s : Sheet} (h : s.Linked) (id : String) {f : Cell → Cell}
    (deps : ∀ c, (f c).dependencies = c.dependencies)
    (readers : ∀ c, (f c).dependents = c.dependents) : Linked (Roster.modify s id f) :=
  h.congr (Roster.names_modify s id f) (dependencies_modify id deps) (dependents_modify id readers)

theorem Linked.modifyAll {s : Sheet} (h : s.Linked) (ids : List String) {f : Cell → Cell}
    (deps : ∀ c, (f c).dependencies = c.dependencies)
    (readers : ∀ c, (f c).dependents = c.dependents) : Linked (s.modifyAll ids f) :=
  h.congr (names_modifyAll s ids f) (dependencies_modifyAll ids deps)
    (dependents_modifyAll ids readers)

/-- The two ends of every link are written, and the readers of a cell are cells of the sheet. -/
structure Tied (s : Sheet) : Prop where
  linked : s.Linked
  known : ∀ x, ∀ y ∈ s.dependents x, y ∈ s.names

namespace Tied
variable {s : Sheet}

theorem congr {t : Sheet} (h : s.Tied) (names : t.names = s.names)
    (deps : ∀ x, t.dependencies x = s.dependencies x)
    (readers : ∀ x, t.dependents x = s.dependents x) : t.Tied := by
  refine ⟨h.linked.congr names deps readers, fun x y mem => ?_⟩
  rw [readers] at mem
  rw [names]
  exact h.known x y mem

theorem map (h : s.Tied) {f : String → Cell → Cell}
    (deps : ∀ id c, (f id c).dependencies = c.dependencies)
    (readers : ∀ id c, (f id c).dependents = c.dependents) : Tied (Roster.map f s) :=
  h.congr (Roster.names_map f s) (dependencies_map deps) (dependents_map readers)

theorem modify (h : s.Tied) (id : String) {f : Cell → Cell}
    (deps : ∀ c, (f c).dependencies = c.dependencies)
    (readers : ∀ c, (f c).dependents = c.dependents) : Tied (Roster.modify s id f) :=
  h.congr (Roster.names_modify s id f) (dependencies_modify id deps) (dependents_modify id readers)

theorem modifyAll (h : s.Tied) (ids : List String) {f : Cell → Cell}
    (deps : ∀ c, (f c).dependencies = c.dependencies)
    (readers : ∀ c, (f c).dependents = c.dependents) : Tied (s.modifyAll ids f) :=
  h.congr (names_modifyAll s ids f) (dependencies_modifyAll ids deps)
    (dependents_modifyAll ids readers)

theorem relink (h : s.Tied) {id : String} {targets : List String}
    (here : id ∈ s.names ∨ targets = []) : Tied (s.relink id targets) := by
  refine ⟨h.linked.relink id targets, fun x y mem => ?_⟩
  rw [names_relink]
  obtain ⟨-, mem⟩ := mem_dependents_relink.1 mem
  by_cases self : y = id
  · rw [if_pos self] at mem
    rcases here with here | rfl
    · exact self ▸ here
    · rcases mem with absurd | ⟨mem, -⟩
      · cases absurd
      · exact h.known x y mem
  · rw [if_neg self] at mem
    exact h.known x y mem

end Tied

/-! ### Entering a cell -/

theorem mem_readers {s : Sheet} {id y : String} :
    y ∈ s.readers id ↔ y ≠ id ∧ id ∈ s.dependencies y := by
  rw [readers, dependencies, List.mem_map]
  constructor
  · rintro ⟨⟨name, c⟩, mem, rfl⟩
    rw [List.mem_filter, Roster.mem_entries] at mem
    obtain ⟨here, reads⟩ := mem
    rw [here]
    exact of_decide_eq_true reads
  · rintro ⟨other, link⟩
    cases here : s.get? y with
    | none => rw [here] at link; cases link
    | some c =>
      rw [here] at link
      exact ⟨(y, c), List.mem_filter.2 ⟨Roster.mem_entries.2 here, decide_eq_true ⟨other, link⟩⟩, rfl⟩

theorem dependencies_foldl_addDependent (ids : List String) (c : Cell) :
    (ids.foldl (fun c id => c.addDependent id) c).dependencies = c.dependencies := by
  induction ids generalizing c with
  | nil => rfl
  | cons id rest ih => exact ih (c.addDependent id)

theorem mem_foldl_addDependent {ids : List String} {c : Cell} {y : String} :
    y ∈ (ids.foldl (fun c id => c.addDependent id) c).dependents ↔ y ∈ ids ∨ y ∈ c.dependents := by
  induction ids generalizing c with
  | nil => simp
  | cons id rest ih =>
    rw [List.foldl_cons, ih, Cell.mem_addDependent, List.mem_cons, or_left_comm, ← or_assoc]

theorem dependencies_of_absent {s : Sheet} {id : String} (absent : s.get? id = none) :
    s.dependencies id = [] := by
  rw [dependencies, absent]
  rfl

theorem dependencies_set {s : Sheet} {id : String} (absent : s.get? id = none) {c : Cell}
    (noLinks : c.dependencies = []) (x : String) :
    dependencies (Roster.set s id c) x = s.dependencies x := by
  rw [dependencies, Roster.get?_set]
  by_cases same : x = id
  · rw [if_pos same, same, dependencies_of_absent absent]
    exact noLinks
  · rw [if_neg same, dependencies]

/-- Tells a cell of the cells that name it. -/
def introduce (s : Sheet) (id : String) : Sheet :=
  s.modify id fun c => (s.readers id).foldl (fun c reader => c.addDependent reader) c

theorem attach_eq (s : Sheet) (id : String) :
    s.attach id =
      let t := (s.introduce id).modifyAll (s.readers id) Cell.markStale
      t.relink id (t.dependencies id) := rfl

theorem dependencies_introduce (s : Sheet) (id x : String) :
    (s.introduce id).dependencies x = s.dependencies x := by
  rw [introduce, dependencies, Roster.get?_modify, dependencies]
  split
  · rw [Option.map_map]
    congr 2
    exact funext fun c => dependencies_foldl_addDependent _ c
  · rfl

theorem mem_dependents_introduce {s : Sheet} {id x y : String} :
    y ∈ (s.introduce id).dependents x ↔
      y ∈ s.dependents x ∨ x = id ∧ x ∈ s.names ∧ y ∈ s.readers id := by
  rw [introduce, dependents, Roster.get?_modify, dependents]
  by_cases same : x = id
  · subst same
    cases here : s.get? x with
    | none =>
      have := Roster.not_mem_of_get?_eq_none here
      simp [this]
    | some c =>
      have : x ∈ s.names := Roster.mem_names.2 ⟨c, here⟩
      simp [mem_foldl_addDependent, this, or_comm]
  · simp [same]

/-- A new cell that has been told of its readers is tied into the sheet. -/
theorem Tied.enter {s : Sheet} (h : s.Tied) {id : String} (absent : s.get? id = none) {c : Cell}
    (noDependencies : c.dependencies = []) (noDependents : c.dependents = []) :
    Tied (introduce (Roster.set s id c) id) := by
  have unread : id ∉ s.names := Roster.not_mem_of_get?_eq_none absent
  -- a cell that does not exist reads nothing, so the dependencies are the old ones
  have deps : ∀ x, (introduce (Roster.set s id c) id).dependencies x = s.dependencies x := fun x => by
    rw [dependencies_introduce, dependencies_set absent noDependencies]
  have names : ∀ x, x ∈ (introduce (Roster.set s id c) id).names ↔ x = id ∨ x ∈ s.names := fun x => by
    rw [introduce, Roster.names_modify, Roster.mem_names_set]
  have readersOf : ∀ x y, y ∈ (introduce (Roster.set s id c) id).dependents x ↔
      if x = id then y ≠ id ∧ id ∈ s.dependencies y else y ∈ s.dependents x := by
    intro x y
    rw [mem_dependents_introduce, mem_readers, dependencies_set absent noDependencies,
      Roster.mem_names_set, dependents, Roster.get?_set]
    by_cases same : x = id
    · simp [same, noDependents]
    · simp [same, dependents]
  refine ⟨fun x hx y hy => ?_, fun x y mem => ?_⟩
  · rw [names] at hx hy
    rw [readersOf, deps]
    by_cases same : x = id
    · rw [if_pos same, same]
      refine ⟨fun both => both.2, fun link => ⟨?_, link⟩⟩
      rintro rfl
      rw [dependencies_of_absent absent] at link
      cases link
    · have old := hx.resolve_left same
      rw [if_neg same]
      rcases hy with rfl | hy
      · rw [dependencies_of_absent absent]
        exact ⟨fun mem => (unread (h.known x y mem)).elim, fun absurd => by cases absurd⟩
      · exact h.linked x old y hy
  · rw [readersOf] at mem
    rw [names]
    by_cases same : x = id
    · rw [if_pos same] at mem
      refine .inr (Roster.mem_names.2 ?_)
      cases here : s.get? y with
      | none => rw [dependencies_of_absent here] at mem; cases mem.2
      | some d => exact ⟨d, rfl⟩
    · rw [if_neg same] at mem
      exact .inr (h.known x y mem)

theorem Tied.define {s : Sheet} (h : s.Tied) (id : String) (formula name : Option String) :
    (s.define id formula name).Tied := by
  rw [Sheet.define]
  split
  next absent =>
    have entered := h.enter absent (c := Cell.new id formula name) rfl rfl
    have marked := entered.modifyAll (readers (Roster.set s id (.new id formula name)) id)
      (f := Cell.markStale) (fun _ => rfl) (fun _ => rfl)
    rw [attach_eq]
    refine marked.relink (.inl ?_)
    rw [names_modifyAll, introduce, Roster.names_modify, Roster.mem_names_set]
    exact .inl rfl
  next c here =>
    refine h.modify id (fun c => ?_) fun c => ?_
    · rw [Cell.edit]
      split <;> rfl
    · rw [Cell.edit]
      split <;> rfl

/-- A definition leaves all dependencies as they are. -/
theorem dependencies_define (s : Sheet) (id : String) (formula name : Option String) (x : String) :
    (s.define id formula name).dependencies x = s.dependencies x := by
  rw [define]
  split
  next absent =>
    rw [attach_eq]
    dsimp only
    rw [dependencies_relink]
    have unlinked : ∀ y, dependencies (modifyAll (introduce (Roster.set s id (.new id formula name)) id)
        (readers (Roster.set s id (.new id formula name)) id) Cell.markStale) y = s.dependencies y := by
      intro y
      rw [dependencies_modifyAll _ (f := Cell.markStale) (fun _ => rfl), dependencies_introduce,
        dependencies_set absent (c := .new id formula name) rfl]
    split
    next self => rw [unlinked, self.1]
    next => exact unlinked x
  next c here =>
    refine dependencies_modify id (fun c => ?_) x
    rw [Cell.edit]
    split <;> rfl

/-! ### Removing a cell -/

theorem dependencies_detach (s : Sheet) (id x : String) :
    (s.detach id).dependencies x = if x = id then [] else s.dependencies x := by
  rw [detach, dependencies_modify id (f := fun c => { c with dependents := [] }) (fun _ => rfl),
    dependencies_modifyAll _ (f := Cell.markStale) (fun _ => rfl), dependencies_relink]
  by_cases same : x = id
  · rw [if_pos same]
    cases here : s.get? id with
    | none => simp [same, dependencies_of_absent here]
    | some c => simp [same]
  · simp [same]

theorem dependents_detach (s : Sheet) (id x : String) :
    (s.detach id).dependents x = if x = id then [] else (s.relink id []).dependents x := by
  rw [detach]
  by_cases same : x = id
  · rw [if_pos same, dependents, Roster.get?_modify, if_pos same, Option.map_map]
    cases Roster.get? _ x <;> rfl
  · rw [if_neg same, dependents, Roster.get?_modify, if_neg same, ← dependents,
      dependents_modifyAll _ (f := Cell.markStale) (fun _ => rfl)]

/-- A cell that reads nothing reads no cell any more. -/
theorem Tied.mem_dependents_detach {s : Sheet} (h : s.Tied) {id x y : String} :
    y ∈ (s.detach id).dependents x ↔ x ≠ id ∧ y ≠ id ∧ y ∈ s.dependents x := by
  rw [dependents_detach]
  by_cases same : x = id
  · simp [same]
  · rw [if_neg same, mem_dependents_relink]
    constructor
    · rintro ⟨here, mem⟩
      by_cases self : y = id
      · subst self
        rw [if_pos rfl] at mem
        obtain absurd | ⟨reads, unlinked⟩ := mem
        · cases absurd
        · exact (unlinked ((h.linked x (Roster.contains_iff.1 here) y (h.known x y reads)).1 reads)).elim
      · rw [if_neg self] at mem
        exact ⟨same, self, mem⟩
    · rintro ⟨-, self, mem⟩
      rw [if_neg self]
      refine ⟨?_, mem⟩
      cases here : s.get? x with
      | none => rw [dependents, here] at mem; cases mem
      | some c => rfl

theorem Tied.remove {s s' : Sheet} (h : s.Tied) {id : String} {c : Cell}
    (removed : s.remove id = some (c, s')) : s'.Tied := by
  rw [Sheet.remove] at removed
  obtain ⟨d, -, same⟩ := Option.map_eq_some_iff.1 removed
  cases same
  have other : ∀ x, x ∈ ((s.detach id).erase id).names → x ≠ id ∧ x ∈ s.names := fun x mem => by
    rw [Roster.mem_names_erase, names_detach] at mem
    exact mem
  have deps : ∀ x, x ≠ id → dependencies ((s.detach id).erase id) x = s.dependencies x := by
    intro x ne
    rw [dependencies, Roster.get?_erase, if_neg ne, ← dependencies, dependencies_detach, if_neg ne]
  have readersOf : ∀ x y, y ∈ dependents ((s.detach id).erase id) x ↔
      x ≠ id ∧ y ≠ id ∧ y ∈ s.dependents x := by
    intro x y
    rw [dependents, Roster.get?_erase]
    by_cases same : x = id
    · simp [same]
    · rw [if_neg same, ← dependents, h.mem_dependents_detach]
  refine ⟨fun x hx y hy => ?_, fun x y mem => ?_⟩
  · obtain ⟨xne, hx⟩ := other x hx
    obtain ⟨yne, hy⟩ := other y hy
    rw [readersOf, deps y yne, ← h.linked x hx y hy]
    exact ⟨fun mem => mem.2.2, fun mem => ⟨xne, yne, mem⟩⟩
  · obtain ⟨-, yne, mem⟩ := (readersOf x y).1 mem
    rw [Roster.mem_names_erase, names_detach]
    exact ⟨yne, h.known x y mem⟩

/-- No links at either end. -/
def Bare (s : Sheet) (x : String) : Prop :=
  s.dependencies x = [] ∧ s.dependents x = []

theorem Bare.detach {s : Sheet} {x : String} (h : s.Bare x) (id : String) : (s.detach id).Bare x := by
  constructor
  · rw [dependencies_detach, h.1, ite_self]
  · rw [dependents_detach]
    by_cases same : x = id
    · rw [if_pos same]
    · rw [if_neg same]
      refine List.eq_nil_iff_forall_not_mem.2 fun y mem => ?_
      obtain ⟨-, mem⟩ := mem_dependents_relink.1 mem
      rw [h.2] at mem
      split at mem <;> simp at mem

theorem Tied.prepare {s : Sheet} (h : s.Tied) (id : String) : (s.prepare id).Tied := by
  rw [Sheet.prepare]
  split
  · exact h
  next c here =>
    have there : id ∈ s.names := Roster.mem_names.2 ⟨c, here⟩
    split
    · exact h.relink (.inl there)
    · split
      · exact h
      next e _ =>
        have parsed := h.modify id (f := fun c => { c with parsed := some e }) (fun _ => rfl)
          fun _ => rfl
        refine parsed.relink (.inl ?_)
        rw [Roster.names_modify]
        exact there

/-- What preparing one cell keeps, preparing all cells keeps. -/
theorem prepareAll_keep {I : Sheet → Prop} (keep : ∀ s id, I s → I (s.prepare id)) {s : Sheet}
    (h : I s) : I s.prepareAll := by
  rw [prepareAll]
  generalize s.names = ids
  induction ids generalizing s with
  | nil => exact h
  | cons id rest ih => exact ih (keep s id h)

theorem Tied.prepareAll {s : Sheet} (h : s.Tied) : s.prepareAll.Tied :=
  prepareAll_keep (fun _ id h => h.prepare id) h

theorem links_ending (ending : Ending) (c : Cell) :
    (ending.apply c).dependencies = c.dependencies ∧
      (ending.apply c).dependents = c.dependents := by
  cases ending <;> exact ⟨rfl, rfl⟩

/-- What happens while cells are evaluated writes both ends of links. -/
theorem Linked.step {s t : Sheet} (step : Step s t) (h : s.Linked) : t.Linked := by
  cases step with
  | begin here => exact (h.modify _ (f := Cell.begin) (fun _ => rfl) fun _ => rfl).relink _ _
  | finish _ id ending =>
    exact h.modify id (fun c => (links_ending ending c).1) fun c => (links_ending ending c).2
  | announce p id =>
    have counted := h.modify id (f := fun c => { c with version := c.version + 1 }) (fun _ => rfl)
      fun _ => rfl
    exact counted.modifyAll _ (f := Cell.markStale) (fun _ => rfl) fun _ => rfl

/-- What happens while cells are evaluated keeps a sheet tied. -/
theorem Tied.step {s t : Sheet} (step : Step s t) (h : s.Tied) : t.Tied := by
  cases step with
  | @begin _ id c here =>
    have begun := h.modify id (f := Cell.begin) (fun _ => rfl) fun _ => rfl
    refine begun.relink (.inl ?_)
    rw [Roster.names_modify]
    exact Roster.mem_names.2 ⟨c, here⟩
  | finish _ id ending =>
    exact h.modify id (fun c => (links_ending ending c).1) fun c => (links_ending ending c).2
  | announce p id =>
    have counted := h.modify id (f := fun c => { c with version := c.version + 1 }) (fun _ => rfl)
      fun _ => rfl
    exact counted.modifyAll _ (f := Cell.markStale) (fun _ => rfl) fun _ => rfl

theorem Tied.recalculate {s : Sheet} (h : s.Tied) (sim : Simulation) :
    (s.recalculate sim).2.Tied := by
  have cleared := h.map (f := fun _ c => c.beginCycle) (fun _ _ => rfl) fun _ _ => rfl
  exact (sweeps_steps sim (order _) (sweepLimit _) 0 _).keep (fun _ _ => Tied.step)
    cleared.prepareAll

theorem Tied.empty : Tied Roster.empty :=
  ⟨fun _ mem => (by cases mem), fun _ _ mem => by cases mem⟩

/-- Every reachable sheet is tied. -/
theorem Reachable.tied {s : Sheet} (h : s.Reachable) : s.Tied := by
  induction h with
  | empty => exact .empty
  | define h id formula name ih => exact ih.define id formula name
  | remove h id removed ih => exact ih.remove removed
  | recalculate h sim ih => exact ih.recalculate sim
  | invalidate h ih => exact ih.map (f := fun _ c => c.invalidateSamples) (fun _ _ => rfl) fun _ _ => rfl
  | keepBins h id count ih => exact ih.modify id (fun _ => rfl) fun _ => rfl

end MonteCarloSheet.Sheet
