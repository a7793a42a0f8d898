import MonteCarloSheet.Proofs.Sheet.Nesting

/-! What evaluations do to the cells around them.

An evaluation of some cells moves a sheet: versions grow, and a cell whose version
has not grown shows the same result; active cells wait as they are; a fresh cell
stays as it is unless a cell that it reads has changed; and a cell that is not among
those evaluated keeps everything, and is fresh afterwards only if it was before and
nothing that it reads has changed (`Moves`). Moves compose, and evaluating one more
cell around a move is a move (`Moves.around`). -/
namespace MonteCarloSheet

/-! ### Parts of cells -/

namespace Cell

/-- The cell but for the cells that read it. -/
def unread (c : Cell) : Cell :=
  { c with dependents := [] }

/-- The cell but for the cells that read it and whether it is to be reevaluated. -/
def still (c : Cell) : Cell :=
  { c with needsReevaluation := false, dependents := [] }

/-- What a cell has come to: the cell but for its tree, its histogram, its links and its marks. -/
def result (c : Cell) : Cell :=
  { c with
    parsed := none, histogram := none, dependencies := [], dependents := [],
    needsReevaluation := false, processed := false }

section
variable {c d : Cell} {f : Cell → α}

/-- What depends on a part of a cell only is the same for cells with the same part. -/
theorem eq_of_part {part : Cell → Cell} (h : part d = part c) (keep : ∀ c, f (part c) = f c) :
    f d = f c := by
  rw [← keep d, h, keep c]

theorem eq_of_still (h : d.still = c.still) (keep : ∀ c, f c.still = f c) : f d = f c :=
  eq_of_part h keep

theorem eq_of_result (h : d.result = c.result) (keep : ∀ c, f c.result = f c) : f d = f c :=
  eq_of_part h keep

theorem result_of_still (h : d.still = c.still) : d.result = c.result :=
  eq_of_still h fun _ => rfl

end

end Cell

namespace Sheet
variable {s t : Sheet} {x : String}

/-- How often the result of the cell has changed, zero if there is no such cell. -/
def version (s : Sheet) (x : String) : Nat :=
  ((s.get? x).map Cell.version).getD 0

/-- The cell is the same in both sheets but for its readers. -/
def Same (s t : Sheet) (x : String) : Prop :=
  (t.get? x).map Cell.unread = (s.get? x).map Cell.unread

/-- The cell is the same in both sheets but for its readers and whether it is to be
reevaluated. -/
def Still (s t : Sheet) (x : String) : Prop :=
  (t.get? x).map Cell.still = (s.get? x).map Cell.still

theorem Still.map (h : s.Still t x) {f : Cell → α} (keep : ∀ c, f c.still = f c) :
    (t.get? x).map f = (s.get? x).map f := by
  have := congrArg (Option.map f) h
  simpa [Option.map_map, Function.comp_def, keep] using this

theorem Still.trans {u : Sheet} (first : s.Still t x) (second : t.Still u x) : s.Still u x :=
  Eq.trans second first

theorem Still.symm (h : s.Still t x) : t.Still s x :=
  Eq.symm h

theorem Still.version (h : s.Still t x) : t.version x = s.version x :=
  congrArg (Option.getD · 0) (h.map fun _ => rfl)

theorem Still.dependencies (h : s.Still t x) : t.dependencies x = s.dependencies x :=
  congrArg (Option.getD · []) (h.map fun _ => rfl)

theorem Same.trans {u : Sheet} (first : s.Same t x) (second : t.Same u x) : s.Same u x :=
  Eq.trans second first

theorem Same.symm (h : s.Same t x) : t.Same s x :=
  Eq.symm h

theorem Same.map (h : s.Same t x) {f : Cell → α} (keep : ∀ c, f c.unread = f c) :
    (t.get? x).map f = (s.get? x).map f := by
  have := congrArg (Option.map f) h
  simpa [Option.map_map, Function.comp_def, keep] using this

theorem Same.still (h : s.Same t x) : s.Still t x :=
  h.map fun _ => rfl

theorem fresh_iff_all : s.Fresh x ↔ ((s.get? x).map Cell.isStale).all (! ·) = true := by
  rw [Fresh]
  cases s.get? x <;> simp

theorem Same.fresh (h : s.Same t x) : t.Fresh x ↔ s.Fresh x := by
  rw [fresh_iff_all, fresh_iff_all, h.map (f := Cell.isStale) fun _ => rfl]

/-- Both sheets have the cell, and the parts that `still` keeps are the same. -/
theorem Still.get? (h : s.Still t x) {c : Cell} (here : s.get? x = some c) :
    ∃ d, t.get? x = some d ∧ d.still = c.still := by
  rw [Still, here] at h
  exact Option.map_eq_some_iff.1 h

theorem Same.get? (h : s.Same t x) {c : Cell} (here : s.get? x = some c) :
    ∃ d, t.get? x = some d ∧ d.unread = c.unread := by
  rw [Same, here] at h
  exact Option.map_eq_some_iff.1 h

theorem version_of_get? {c : Cell} (here : s.get? x = some c) : s.version x = c.version := by
  rw [version, here]
  rfl

end Sheet

/-! ### Conclusions -/

theorem Cell.version_apply (ending : Ending) (c : Cell) : (ending.apply c).version = c.version := by
  cases ending <;> rfl

theorem get?_announce (id : String) (p : Progress) (x : String) :
    (announce id p).sheet.get? x = (p.sheet.get? x).map fun c =>
      let c := if x = id then { c with version := c.version + 1 } else c
      if x ∈ p.sheet.dependents id ∧ x ∉ p.active then c.markStale else c := by
  have readers : Sheet.dependents
      (p.sheet.modify id fun c => { c with version := c.version + 1 }) id = p.sheet.dependents id :=
    Sheet.dependents_modify (s := p.sheet) id (f := fun c => { c with version := c.version + 1 })
      (fun _ => rfl) id
  rw [announce]
  simp only [Progress.onSheet, Sheet.invalidateDependents, readers]
  rw [Sheet.get?_modifyAll _ _ Cell.markStale (fun _ => rfl), Roster.get?_modify]
  simp only [List.mem_filter, decide_eq_true_eq]
  cases p.sheet.get? x with
  | none => simp
  | some c => by_cases self : x = id <;> by_cases reader : x ∈ p.sheet.dependents id <;> by_cases
      waits : x ∈ p.active <;> simp [self, reader, waits] <;> simp_all

/-- The cell after an ending, with a grown version if its result has changed. -/
def Cell.ended (ending : Ending) (c : Cell) : Cell :=
  if c.changed (ending.apply c) then { ending.apply c with version := c.version + 1 }
  else ending.apply c

theorem Cell.ended_result (ending : Ending) (c : Cell) :
    (c.result.ended ending).result = (c.ended ending).result := by
  have same : c.result.changed (ending.apply c.result) = c.changed (ending.apply c) := by
    cases ending <;> rfl
  rw [ended, ended, same]
  split <;> cases ending <;> rfl

theorem Cell.changed_apply {c before : Cell} (same : c.result = before.result) (ending : Ending) :
    before.changed (ending.apply c) = before.changed (ending.apply before) := by
  rw [changed, changed]
  congr 2
  exact eq_of_result (f := fun c => (ending.apply c).observation) same fun _ => by
    cases ending <;> rfl

theorem Cell.version_ended (ending : Ending) (c : Cell) :
    (c.ended ending).version =
      if c.changed (ending.apply c) then c.version + 1 else c.version := by
  rw [ended]
  split
  · rfl
  · exact version_apply ending c

section
variable {x : String} {before c : Cell} {ending : Ending} {q : Progress}

/-- A conclusion ends the cell, and announces the change if there is one. -/
theorem conclude_cases (before : Cell) (ending : Ending) (here : q.sheet.get? x = some c) :
    before.changed (ending.apply c) = false ∧
        conclude x before ending.apply q =
          (.unchanged, q.onSheet (Roster.modify · x ending.apply)) ∨
      before.changed (ending.apply c) = true ∧
        conclude x before ending.apply q =
          (.changed, announce x (q.onSheet (Roster.modify · x ending.apply))) := by
  have ended : (q.sheet.modify x ending.apply).get? x = some (ending.apply c) := by
    rw [Roster.get?_modify, if_pos rfl, here]
    rfl
  rw [conclude]
  dsimp only [Progress.onSheet]
  rw [ended]
  dsimp only
  cases before.changed (ending.apply c) <;> simp

/-- What a conclusion does to each cell: the one that ends, and those that it marks. -/
theorem get?_conclude (before : Cell) (ending : Ending) (here : q.sheet.get? x = some c)
    (active : x ∈ q.active) (y : String) :
    (conclude x before ending.apply q).2.sheet.get? y = (q.sheet.get? y).map fun d =>
      if y = x then
        if before.changed (ending.apply c) then
          { ending.apply d with version := d.version + 1 }
        else ending.apply d
      else if before.changed (ending.apply c) ∧ y ∈ q.sheet.dependents x ∧ y ∉ q.active then
        d.markStale
      else d := by
  have readers : Sheet.dependents (q.sheet.modify x ending.apply) x = q.sheet.dependents x :=
    Sheet.dependents_modify (s := q.sheet) x (fun c => (Sheet.links_ending ending c).2) x
  obtain ⟨same, ends⟩ | ⟨differs, ends⟩ := conclude_cases before ending here
  · rw [ends]
    simp only [Progress.onSheet, same, Roster.get?_modify]
    by_cases self : y = x <;> simp [self]
  · rw [ends, get?_announce]
    simp only [Progress.onSheet, differs, Roster.get?_modify, readers]
    by_cases self : y = x
    · subst self
      simp [active, Option.map_map, Function.comp_def, Cell.version_apply]
    · simp [self]

theorem still_conclude (here : q.sheet.get? x = some c) (active : x ∈ q.active) {y : String}
    (other : y ≠ x) : q.sheet.Still (conclude x before ending.apply q).2.sheet y := by
  rw [Sheet.Still, get?_conclude before ending here active, Option.map_map]
  simp only [if_neg other, Function.comp_def]
  congr 1
  funext d
  split <;> rfl

/-- Only the readers of a cell that has changed are marked, and none that is active. -/
theorem same_conclude (here : q.sheet.get? x = some c) (active : x ∈ q.active) {y : String}
    (other : y ≠ x)
    (unmarked : ¬ (before.changed (ending.apply c) ∧ y ∈ q.sheet.dependents x ∧ y ∉ q.active)) :
    q.sheet.Same (conclude x before ending.apply q).2.sheet y := by
  rw [Sheet.Same, get?_conclude before ending here active, Option.map_map]
  simp only [if_neg other, if_neg unmarked]
  rfl

end

/-! ### Moves -/

/-- What evaluations of cells that satisfy `S` do. -/
structure Moves (S : String → Prop) (p q : Progress) : Prop where
  active : q.active = p.active
  steps : Steps p.sheet q.sheet
  waiting : ∀ x ∈ p.active, p.sheet.Same q.sheet x
  grows : ∀ x, p.sheet.version x ≤ q.sheet.version x
  shows_ : ∀ x c d, p.sheet.get? x = some c → q.sheet.get? x = some d → d.version = c.version →
    c.observation.same d.observation = true
  fresh : ∀ x, x ∉ p.active → p.sheet.Fresh x →
    (∀ y ∈ p.sheet.dependencies x, y ≠ x → q.sheet.version y = p.sheet.version y) →
    p.sheet.Same q.sheet x
  spared : ∀ x, x ∉ p.active → ¬ S x → p.sheet.Still q.sheet x
  unmarked : ∀ x, x ∉ p.active → ¬ S x → q.sheet.Fresh x → p.sheet.Fresh x ∧
    ∀ y ∈ p.sheet.dependencies x, q.sheet.version y = p.sheet.version y

/-- A cell that shows the same as one with a fault has a fault with the same message. -/
theorem Cell.fault_of_same {c d : Cell} (h : c.observation.same d.observation = true) {f : Fault}
    (fault : c.fault = some f) : ∃ g, d.fault = some g ∧ g.message = f.message := by
  simp only [Observation.same, Bool.and_eq_true, beq_iff_eq] at h
  obtain ⟨⟨⟨⟨⟨⟨⟨same, -⟩, -⟩, -⟩, -⟩, -⟩, -⟩, -⟩ := h
  rw [observation, observation, fault] at same
  exact Option.map_eq_some_iff.1 same.symm

theorem Cell.Observation.same_trans {a b c : Observation} (first : a.same b = true)
    (second : b.same c = true) : a.same c = true := by
  have numbers : ∀ {x y z : Option Float}, sameNumber x y = true → sameNumber y z = true →
      sameNumber x z = true := by
    intro x y z first second
    cases x <;> cases y <;> cases z <;> simp_all [sameNumber]
    exact Number.same_trans first second
  simp only [same, Bool.and_eq_true, beq_iff_eq] at first second ⊢
  obtain ⟨⟨⟨⟨⟨⟨⟨m, d⟩, k⟩, v⟩, e⟩, l⟩, u⟩, n⟩ := first
  obtain ⟨⟨⟨⟨⟨⟨⟨m', d'⟩, k'⟩, v'⟩, e'⟩, l'⟩, u'⟩, n'⟩ := second
  exact ⟨⟨⟨⟨⟨⟨⟨m.trans m', d.trans d'⟩, k.trans k'⟩, numbers v v'⟩, numbers e e'⟩, numbers l l'⟩,
    numbers u u'⟩, n.trans n'⟩

namespace Moves
variable {S : String → Prop} {p q r : Progress}

theorem refl (S : String → Prop) (p : Progress) : Moves S p p where
  active := rfl
  steps := .refl
  waiting := fun _ _ => rfl
  grows := fun _ => Nat.le_refl _
  shows_ := fun x c d here there _ => by
    cases here.symm.trans there
    exact c.observation.same_refl
  fresh := fun _ _ _ _ => rfl
  spared := fun _ _ _ => rfl
  unmarked := fun _ _ _ fresh => ⟨fresh, fun _ _ => rfl⟩

theorem mono {S' : String → Prop} (h : Moves S p q) (le : ∀ x, S x → S' x) : Moves S' p q where
  active := h.active
  steps := h.steps
  waiting := h.waiting
  grows := h.grows
  shows_ := h.shows_
  fresh := h.fresh
  spared := fun x waits not => h.spared x waits fun mem => not (le x mem)
  unmarked := fun x waits not => h.unmarked x waits fun mem => not (le x mem)

/-- A cell whose version is the same after two moves has the same one in between. -/
theorem version_between (first : Moves S p q) (second : Moves S q r) {y : String}
    (same : r.sheet.version y = p.sheet.version y) :
    q.sheet.version y = p.sheet.version y ∧ r.sheet.version y = q.sheet.version y := by
  have := first.grows y
  have := second.grows y
  omega

theorem trans (first : Moves S p q) (second : Moves S q r) : Moves S p r where
  active := second.active.trans first.active
  steps := first.steps.trans second.steps
  waiting := fun x mem => (first.waiting x mem).trans (second.waiting x (first.active ▸ mem))
  grows := fun x => (first.grows x).trans (second.grows x)
  shows_ := by
    intro x c e here there same
    have known : x ∈ q.sheet.names := by
      rw [names_steps first.steps]
      exact Roster.mem_names.2 ⟨c, here⟩
    obtain ⟨d, between⟩ := Roster.mem_names.1 known
    have low := first.grows x
    have high := second.grows x
    rw [Sheet.version_of_get? here, Sheet.version_of_get? between] at low
    rw [Sheet.version_of_get? there, Sheet.version_of_get? between] at high
    exact Cell.Observation.same_trans (first.shows_ x c d here between (by omega))
      (second.shows_ x d e between there (by omega))
  fresh := by
    intro x waits fresh same
    have now := first.fresh x waits fresh fun y link other =>
      (first.version_between second (same y link other)).1
    refine now.trans (second.fresh x (first.active ▸ waits) (now.fresh.2 fresh) ?_)
    intro y link other
    rw [now.still.dependencies] at link
    exact (first.version_between second (same y link other)).2
  spared := fun x waits not =>
    (first.spared x waits not).trans (second.spared x (first.active ▸ waits) not)
  unmarked := by
    intro x waits not fresh
    obtain ⟨between, later⟩ := second.unmarked x (first.active ▸ waits) not fresh
    obtain ⟨before, earlier⟩ := first.unmarked x waits not between
    refine ⟨before, fun y link => (later y ?_).trans (earlier y link)⟩
    rw [(first.spared x waits not).dependencies]
    exact link

end Moves

/-! ### One more cell around a move -/

namespace Sheet
variable {s : Sheet} {x : String} {before : Cell}

theorem same_begun (here : s.get? x = some before) {y : String} (other : y ≠ x) :
    s.Same (s.begun x before) y := by
  obtain ⟨readers, begun⟩ := get?_begun_of_ne here other
  rw [Same, begun, Option.map_map]
  rfl

/-- A cell that has begun keeps its result and is fresh. -/
theorem exists_begun (here : s.get? x = some before) :
    ∃ c, (s.begun x before).get? x = some c ∧ c.result = before.result ∧ c.isStale = false := by
  obtain ⟨readers, begun⟩ := get?_begun here x
  rw [here, Option.map_some, if_pos rfl] at begun
  exact ⟨_, begun, rfl, rfl⟩

theorem version_of_result {c : Cell} {t : Sheet} (there : t.get? x = some c)
    (same : c.result = before.result) (here : s.get? x = some before) :
    t.version x = s.version x := by
  rw [version_of_get? there, version_of_get? here]
  exact Cell.eq_of_result same fun _ => rfl

theorem version_begun (here : s.get? x = some before) (y : String) :
    (s.begun x before).version y = s.version y := by
  by_cases self : y = x
  · subst self
    obtain ⟨c, begun, same, -⟩ := exists_begun here
    exact version_of_result begun same here
  · exact (same_begun here self).still.version

end Sheet

/-- The state in which the evaluation of a cell begins. -/
def Progress.enter (p : Progress) (x : String) (before : Cell) : Progress :=
  (p.activate x).onSheet (Sheet.begun · x before)

/-- The state after the cell has ended. -/
def Progress.leave (q : Progress) (x : String) (before : Cell) (ending : Ending) : Progress :=
  (conclude x before ending.apply q).2.deactivate x

theorem Progress.idle_enter {p : Progress} {x y : String} {before : Cell} (idle : y ∉ p.active)
    (other : y ≠ x) : y ∉ (p.enter x before).active := by
  intro active
  rcases List.mem_cons.1 active with rfl | active
  · exact other rfl
  · exact idle active

namespace Moves
variable {S : String → Prop} {p q : Progress} {x : String} {before : Cell}

/-- While a cell is evaluated it keeps its result, and nothing marks it. -/
theorem exists_waiting (inner : Moves S (p.enter x before) q)
    (here : p.sheet.get? x = some before) :
    ∃ c, q.sheet.get? x = some c ∧ c.result = before.result ∧ c.isStale = false := by
  obtain ⟨c, begun, same, fresh⟩ := Sheet.exists_begun here
  obtain ⟨d, found, waiting⟩ := (inner.waiting x List.mem_cons_self).get? begun
  exact ⟨d, found, (Cell.eq_of_part (f := Cell.result) waiting fun _ => rfl).trans same,
    (Cell.eq_of_part (f := Cell.isStale) waiting fun _ => rfl).trans fresh⟩

theorem active_leave (inner : Moves S (p.enter x before) q) (idle : x ∉ p.active)
    (ending : Ending) : (q.leave x before ending).active = p.active := by
  have same : (conclude x before ending.apply q).2.active = x :: p.active :=
    (conclude_runs x before ending q).active.trans inner.active
  rw [Progress.leave, Progress.deactivate, same]
  exact filter_ne_cons idle

theorem mem_active (inner : Moves S (p.enter x before) q) : x ∈ q.active :=
  inner.active ▸ List.mem_cons_self

section
variable (here : p.sheet.get? x = some before) (inner : Moves S (p.enter x before) q)
  (ending : Ending)
include here inner

theorem still_leave {y : String} (other : y ≠ x) :
    q.sheet.Still (q.leave x before ending).sheet y := by
  obtain ⟨c, found, -⟩ := inner.exists_waiting here
  exact still_conclude found inner.mem_active other

/-- The cell is ended from the result that it had before its evaluation, and it is fresh. -/
theorem exists_leave : ∃ d, (q.leave x before ending).sheet.get? x = some d ∧
    d.result = (before.ended ending).result ∧ d.isStale = false := by
  obtain ⟨c, found, same, fresh⟩ := inner.exists_waiting here
  have compared : before.changed (ending.apply c) = c.changed (ending.apply c) := by
    rw [Cell.changed, Cell.changed, Cell.eq_of_result (f := Cell.observation) same fun _ => rfl]
  have ended := get?_conclude before ending found inner.mem_active x
  rw [found, Option.map_some, if_pos rfl, compared, ← Cell.ended] at ended
  refine ⟨_, ended, ?_, ?_⟩
  · rw [← Cell.ended_result, same, Cell.ended_result]
  · rw [← fresh, Cell.ended]
    split <;> cases ending <;> rfl

/-- The cell is fresh when it is left. -/
theorem fresh_left : (q.leave x before ending).sheet.Fresh x := by
  intro c there
  obtain ⟨d, found, -, fresh⟩ := inner.exists_leave here ending
  cases there.symm.trans found
  exact fresh

/-- The version of the cell grows exactly if its result changes. -/
theorem version_leave : (q.leave x before ending).sheet.version x =
    if before.changed (ending.apply before) then p.sheet.version x + 1 else p.sheet.version x := by
  obtain ⟨d, there, same, -⟩ := inner.exists_leave here ending
  rw [Sheet.version_of_get? there, Sheet.version_of_get? here, ← Cell.version_ended]
  exact Cell.eq_of_result same fun _ => rfl

/-- The readers of the cell that are not active are marked if its result changes. -/
theorem same_leave {y : String} (other : y ≠ x)
    (unmarked : ¬ (before.changed (ending.apply before) ∧ y ∈ q.sheet.dependents x ∧
      y ∉ q.active)) : q.sheet.Same (q.leave x before ending).sheet y := by
  obtain ⟨c, found, same, -⟩ := inner.exists_waiting here
  rw [← Cell.changed_apply same ending] at unmarked
  exact same_conclude found inner.mem_active other unmarked

theorem not_marked {y : String} {d : Cell} (other : y ≠ x) (there : q.sheet.get? y = some d)
    (fresh : (q.leave x before ending).sheet.Fresh y) :
    ¬ (before.changed (ending.apply before) ∧ y ∈ q.sheet.dependents x ∧ y ∉ q.active) := by
  intro marked
  obtain ⟨c, found, same, -⟩ := inner.exists_waiting here
  rw [← Cell.changed_apply same ending] at marked
  have ended := get?_conclude before ending found inner.mem_active y
  rw [there, Option.map_some, if_neg other, if_pos marked] at ended
  have := fresh _ ended
  simp [Cell.markStale, Cell.isStale] at this

theorem grows_leave (y : String) :
    p.sheet.version y ≤ (q.leave x before ending).sheet.version y := by
  by_cases self : y = x
  · rw [self, inner.version_leave here ending]
    split <;> omega
  · rw [(inner.still_leave here ending self).version, ← Sheet.version_begun here y]
    exact inner.grows y

/-- A cell whose version is the same in the end has not changed inside either. -/
theorem version_inside {y : String}
    (same : (q.leave x before ending).sheet.version y = p.sheet.version y) :
    q.sheet.version y = (p.enter x before).sheet.version y := by
  have low := inner.grows y
  have begun : (p.enter x before).sheet.version y = p.sheet.version y := Sheet.version_begun here y
  by_cases self : y = x
  · obtain ⟨c, found, waiting, -⟩ := inner.exists_waiting here
    rw [self] at begun ⊢
    rw [begun, Sheet.version_of_result found waiting here]
  · rw [(inner.still_leave here ending self).version] at same
    omega

theorem waiting_leave (idle : x ∉ p.active) {y : String} (mem : y ∈ p.active) :
    p.sheet.Same (q.leave x before ending).sheet y := by
  have other : y ≠ x := fun same => idle (same ▸ mem)
  have inside : y ∈ (p.enter x before).active := List.mem_cons_of_mem _ mem
  refine ((Sheet.same_begun here other).trans (inner.waiting y inside)).trans
    (inner.same_leave here ending other fun marked => marked.2.2 ?_)
  rw [inner.active]
  exact inside

theorem shows_all {y : String} {d e : Cell} (first : p.sheet.get? y = some d)
    (last : (q.leave x before ending).sheet.get? y = some e) (same : e.version = d.version) :
    d.observation.same e.observation = true := by
  by_cases self : y = x
  · subst self
    cases here.symm.trans first
    have calm : ¬ before.changed (ending.apply before) = true := fun differs => by
      have grown := inner.version_leave here ending
      rw [if_pos differs, Sheet.version_of_get? last, Sheet.version_of_get? here] at grown
      omega
    obtain ⟨e', last', ended, -⟩ := inner.exists_leave here ending
    cases last.symm.trans last'
    rw [Cell.ended, if_neg calm] at ended
    rw [Cell.eq_of_result (f := Cell.observation) ended fun _ => rfl]
    simpa [Cell.changed] using calm
  · obtain ⟨d', begun, first'⟩ := (Sheet.same_begun here self).still.get? first
    have back : (q.leave x before ending).sheet.Still q.sheet y :=
      (inner.still_leave here ending self).symm
    obtain ⟨e', ended, last'⟩ := back.get? last
    rw [← Cell.eq_of_still first' (f := Cell.observation) fun _ => rfl,
      ← Cell.eq_of_still last' (f := Cell.observation) fun _ => rfl]
    refine inner.shows_ y d' e' begun ended ?_
    rw [Cell.eq_of_still last' (f := Cell.version) fun _ => rfl, same,
      Cell.eq_of_still first' (f := Cell.version) fun _ => rfl]

theorem steps_inside : Steps p.sheet q.sheet :=
  (Relation.ReflTransGen.single (.begin here)).trans inner.steps

theorem tied_inside (tied : p.sheet.Tied) : q.sheet.Tied :=
  Steps.keep (fun _ _ => Sheet.Tied.step) (inner.steps_inside here) tied

/-- The readers of the cell, among the cells of the sheet, are those that it is linked to. -/
theorem mem_dependents (tied : p.sheet.Tied) {y : String} (known : y ∈ q.sheet.names) :
    y ∈ q.sheet.dependents x ↔ x ∈ q.sheet.dependencies y := by
  refine (inner.tied_inside here tied).linked x ?_ y known
  rw [names_steps (inner.steps_inside here)]
  exact Roster.mem_names.2 ⟨before, here⟩

/-- The cell is among those that each of its readers reads. -/
theorem reads_of_mem_dependents (tied : p.sheet.Tied) {y : String}
    (reads : y ∈ q.sheet.dependents x) : x ∈ q.sheet.dependencies y :=
  (inner.mem_dependents here tied ((inner.tied_inside here tied).known x y reads)).1 reads

theorem fresh_leave (tied : p.sheet.Tied) {y : String} (idle : y ∉ p.active) (other : y ≠ x)
    (fresh : p.sheet.Fresh y)
    (same : ∀ z ∈ p.sheet.dependencies y, z ≠ y →
      (q.leave x before ending).sheet.version z = p.sheet.version z) :
    p.sheet.Same (q.leave x before ending).sheet y := by
  have begun := Sheet.same_begun here other
  have now : p.sheet.Same q.sheet y := by
    refine begun.trans (inner.fresh y (Progress.idle_enter idle other) (begun.fresh.2 fresh) ?_)
    intro z link ne
    exact inner.version_inside here ending (same z (begun.still.dependencies ▸ link) ne)
  refine now.trans (inner.same_leave here ending other fun ⟨differs, reads, _⟩ => ?_)
  have link := inner.reads_of_mem_dependents here tied reads
  rw [now.still.dependencies] at link
  have := same x link (Ne.symm other)
  rw [inner.version_leave here ending, if_pos differs] at this
  omega

theorem unmarked_leave (tied : p.sheet.Tied) {y : String} (idle : y ∉ p.active) (other : y ≠ x)
    (not : ¬ S y) (fresh : (q.leave x before ending).sheet.Fresh y) :
    p.sheet.Fresh y ∧ ∀ z ∈ p.sheet.dependencies y,
      (q.leave x before ending).sheet.version z = p.sheet.version z := by
  have begun := Sheet.same_begun here other
  have waits : y ∉ (p.enter x before).active := Progress.idle_enter idle other
  have spared := begun.still.trans (inner.spared y waits not)
  cases there : p.sheet.get? y with
  | none =>
    refine ⟨fun d absurd => (by cases there.symm.trans absurd), fun z link => ?_⟩
    rw [Sheet.dependencies_of_absent there] at link
    cases link
  | some d =>
    obtain ⟨e, last, -⟩ := spared.get? there
    have waiting : y ∉ q.active := inner.active ▸ waits
    have told := inner.not_marked here ending other last fresh
    have same := inner.same_leave here ending other told
    obtain ⟨first, inside⟩ := inner.unmarked y waits not (same.fresh.1 fresh)
    refine ⟨begun.fresh.1 first, fun z link => ?_⟩
    have version := (inside z (begun.still.dependencies.symm ▸ link)).trans
      (Sheet.version_begun here z)
    by_cases self : z = x
    · subst self
      have mark : y ∈ q.sheet.dependents z := by
        rw [inner.mem_dependents here tied (Roster.mem_names.2 ⟨e, last⟩), spared.dependencies]
        exact link
      rw [inner.version_leave here ending, if_neg fun differs => told ⟨differs, mark, waiting⟩]
    · rw [(inner.still_leave here ending self).version, version]

end

/-- Evaluating a stale cell around a move is a move. -/
theorem around (tied : p.sheet.Tied) (idle : x ∉ p.active) (mem : S x)
    (here : p.sheet.get? x = some before) (stale : before.isStale = true)
    (inner : Moves S (p.enter x before) q) (ending : Ending) :
    Moves S p (q.leave x before ending) where
  active := inner.active_leave idle ending
  steps := ((Relation.ReflTransGen.single (.begin here)).trans inner.steps).trans
    (conclude_runs x before ending q).steps
  waiting := fun _ mem => inner.waiting_leave here ending idle mem
  grows := inner.grows_leave here ending
  shows_ := fun _ _ _ => inner.shows_all here ending
  fresh := by
    intro y waits fresh same
    refine inner.fresh_leave here ending tied waits ?_ fresh same
    rintro rfl
    rw [fresh before here] at stale
    cases stale
  spared := by
    intro y waits not
    have other : y ≠ x := fun same => not (same ▸ mem)
    exact ((Sheet.same_begun here other).still.trans
      (inner.spared y (Progress.idle_enter waits other) not)).trans
        (inner.still_leave here ending other)
  unmarked := fun y waits not fresh =>
    inner.unmarked_leave here ending tied waits (fun same => not (same ▸ mem)) not fresh

end Moves

end MonteCarloSheet
