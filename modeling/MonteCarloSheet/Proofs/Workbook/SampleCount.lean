import MonteCarloSheet.Proofs.Workbook.Session

/-! A new sample count reaches everyone who listens.

A sheet listens, once, exactly from when it is opened until it is closed (`Sound`). So
what is done in a session is done to its workbook (`workbook_run`). A refused sample count
changes nothing. An accepted one that differs is announced to every listener as often as it
listens, in order, and drains the cells of all open sheets; these stay drained until they
are evaluated, whatever happens in between (`sample_count_changes`). Each change begins
with the sample count that the one before led to. -/
namespace MonteCarloSheet

namespace Workbook

theorem invalidate_invalidate (s : Sheet) : invalidate (invalidate s) = invalidate s := by
  refine Roster.ext ?_ fun id => ?_
  · rw [invalidate, invalidate, Roster.names_map]
  · simp only [invalidate, Roster.get?_map, Option.map_map]
    refine congrArg (Option.map · (s.get? id)) (funext fun c => ?_)
    exact congrArg (fun output => { c with output, histogram := none, needsReevaluation := true })
      c.output.invalidate_invalidate

/-- The sheets that hear of a new sample count lose their samples, those that hear of it twice no
more than the others. -/
theorem sheet_announce (listeners : List Nat) (w : Workbook) (i : Nat) :
    (w.announce listeners).sheet i =
      if i ∈ listeners then invalidate (w.sheet i) else w.sheet i := by
  induction listeners generalizing w with
  | nil => rfl
  | cons j rest ih =>
    refine (ih (w.modifySheet j invalidate)).trans ?_
    obtain ⟨rfl, same⟩ | ⟨same, missing⟩ := sheet_modifySheet w j invalidate i
    · rw [same, if_pos List.mem_cons_self, invalidate_invalidate, ite_self]
    · rw [same]
      by_cases this : i = j
      · -- there is no such sheet, so none that has samples to lose
        rw [missing this.symm]
        exact (ite_self _).trans (ite_self _).symm
      · exact if_congr (by rw [List.mem_cons, or_iff_right this]) rfl rfl

theorem length_announce (listeners : List Nat) (w : Workbook) :
    (w.announce listeners).sheets.length = w.sheets.length := by
  induction listeners generalizing w with
  | nil => rfl
  | cons j rest ih => exact (ih (w.modifySheet j invalidate)).trans (List.length_modify ..)

end Workbook

namespace Session
variable {x y : Session}

theorem workbook_changed (x : Session) (count : Nat) :
    (x.changed count).workbook =
      (workbook { x with settings := { x.settings with sampleCount := count, binCount := none } }
        ).announce x.workbook.settings.listeners := by
  have settings := Workbook.settings_announce x.workbook.settings.listeners
    (workbook { x with settings := { x.settings with sampleCount := count, binCount := none } })
  exact congrArg (Workbook.mk · _) settings.symm

/-- A sample count that is set in a session is set in its workbook. -/
theorem workbook_update (x : Session) (given : Given) :
    x.workbook.changeSampleCount given = (x.update given).map fun y =>
      (decide (y.settings.sampleCount ≠ x.settings.sampleCount), y.workbook) := by
  rw [Workbook.changeSampleCount, Settings.update_eq, update_eq]
  cases given.sampleCount with
  | error e => rfl
  | ok count =>
    dsimp only
    change (if count = x.settings.sampleCount then _ else _ : Except SettingError _) >>= _ = _
    by_cases same : count = x.settings.sampleCount
    · rw [if_pos same, if_pos same]
      change Except.ok (false, x.workbook) = .ok (decide _, x.workbook)
      rw [decide_eq_false fun differs => differs rfl]
    · have differs : (x.changed count).settings.sampleCount ≠ x.settings.sampleCount := same
      rw [if_neg same, if_neg same]
      change Except.ok (true, _) = .ok (decide _, (x.changed count).workbook)
      rw [decide_eq_true differs, workbook_changed]
      rfl

/-! ### What happens to each sheet -/

theorem sheet_openSheet (x : Session) (i : Nat) : x.openSheet.sheet i = x.sheet i := by
  rw [sheet, workbook_openSheet, Workbook.sheet_openSheet]
  rfl

theorem sheet_of_absent {i : Nat} (absent : x.sheets.length ≤ i) : x.sheet i = Roster.empty := by
  have beyond : x.workbook.sheets[i]? = none := List.getElem?_eq_none absent
  rw [sheet, Workbook.sheet, List.getD_eq_getElem?_getD, beyond, Option.getD_none]

theorem sheet_closeSheet {i j : Nat} (known : i < x.sheets.length) (other : j ≠ i) :
    (x.closeSheet i).sheet j = x.sheet j := by
  rw [sheet, workbook_closeSheet known]
  obtain ⟨same, -⟩ | ⟨same, -⟩ :=
    Workbook.sheet_modifySheet x.workbook i (fun _ => Roster.empty) j
  · exact (other same.symm).elim
  · exact same

theorem open_closeSheet {i j : Nat} (known : i < x.sheets.length) :
    (x.closeSheet i).Open j ↔ j ≠ i ∧ x.Open j := by
  have length : (x.closeSheet i).sheets.length = x.sheets.length := by
    rw [closeSheet, if_pos known]
    exact List.length_modify ..
  have closed : (x.closeSheet i).closed = x.closed ++ [(i, (x.workbook.close i).1)] := by
    rw [closeSheet, if_pos known]
  rw [Open, Open, length, closed]
  constructor
  · rintro ⟨below, apart⟩
    exact ⟨(apart _ (List.mem_append_right _ (List.mem_singleton_self _))).symm, below,
      fun entry mem => apart entry (List.mem_append_left _ mem)⟩
  · rintro ⟨other, below, apart⟩
    refine ⟨below, fun entry mem => ?_⟩
    obtain old | new := List.mem_append.1 mem
    · exact apart entry old
    · rw [List.mem_singleton.1 new]
      exact Ne.symm other

/-- A new sample count empties the samples of the sheets that listen. -/
theorem sheet_changed (x : Session) (count i : Nat) :
    (x.changed count).sheet i =
      if x.workbook.IsOpen i then Workbook.invalidate (x.sheet i) else x.sheet i := by
  rw [sheet, workbook_changed, Workbook.sheet_announce]
  rfl

theorem open_changed {count i : Nat} : (x.changed count).Open i ↔ x.Open i := by
  have length : (x.changed count).sheets.length = x.sheets.length := Workbook.length_announce _ _
  rw [Open, Open, length]
  rfl

section
variable {i : Nat} {f : Sheet → Sheet} {events : List Event} (worked : Worked x y i f events)
include worked

theorem Worked.length : y.sheets.length = x.sheets.length := by
  rw [worked.sheets]
  exact List.length_modify ..

theorem Worked.open_iff {j : Nat} : y.Open j ↔ x.Open j := by
  rw [Open, Open, worked.length, worked.closed]

theorem Worked.sheet_cases (j : Nat) :
    i = j ∧ y.sheet j = f (x.sheet j) ∨ y.sheet j = x.sheet j := by
  have same : y.sheet j = (x.workbook.modifySheet i f).sheet j := by
    rw [sheet, Workbook.sheet, workbook, worked.sheets]
    rfl
  rw [same]
  exact (Workbook.sheet_modifySheet x.workbook i f j).imp_right And.left

end

/-! ### Open sheets -/

/-- The open sheets can be worked on, and each of them listens once. -/
structure Sound (x : Session) : Prop where
  workable : ∀ i, x.Open i → (x.sheet i).Workable x.settings.sampleCount
  past : ∀ entry ∈ x.closed, entry.1 < x.sheets.length
  once : x.workbook.settings.listeners.Nodup
  listens : ∀ i, x.workbook.IsOpen i ↔ x.Open i

namespace Sound

theorem start (settings : Settings Listener) : (Session.start settings).Sound where
  workable i isOpen := (Nat.not_lt_zero i isOpen.1).elim
  past _ mem := by cases mem
  once := List.nodup_nil
  listens i := ⟨fun mem => (by cases mem), fun isOpen => (Nat.not_lt_zero i isOpen.1).elim⟩

/-- Where no sheet is opened or closed, the same sheets listen. -/
theorem of_same (h : x.Sound)
    (workable : ∀ i, x.Open i → (y.sheet i).Workable y.settings.sampleCount)
    (listeners : y.workbook.settings.listeners = x.workbook.settings.listeners)
    (length : y.sheets.length = x.sheets.length) (closed : y.closed = x.closed) : y.Sound := by
  have opened : ∀ i, y.Open i ↔ x.Open i := fun i => by rw [Open, Open, length, closed]
  refine ⟨fun i isOpen => workable i ((opened i).1 isOpen), fun entry mem => ?_, ?_, fun i => ?_⟩
  · rw [length]
    exact h.past entry (closed ▸ mem)
  · exact listeners ▸ h.once
  · rw [Workbook.IsOpen, listeners, opened]
    exact h.listens i

theorem openSheet (h : x.Sound) : x.openSheet.Sound := by
  have length : x.openSheet.sheets.length = x.sheets.length + 1 := List.length_append
  have listeners : x.openSheet.workbook.settings.listeners =
      x.workbook.settings.listeners ++ [x.sheets.length] := by
    rw [workbook_openSheet]
    rfl
  have fresh : x.sheets.length ∉ x.workbook.settings.listeners := fun mem =>
    Nat.lt_irrefl _ ((h.listens _).1 mem).1
  refine ⟨fun i isOpen => ?_, fun entry mem => ?_, ?_, fun i => ?_⟩
  · rw [sheet_openSheet]
    by_cases old : i < x.sheets.length
    · exact h.workable i ⟨old, isOpen.2⟩
    · rw [sheet_of_absent (Nat.le_of_not_lt old)]
      exact .empty _
  · rw [length]
    exact Nat.lt_succ_of_lt (h.past entry mem)
  · rw [listeners]
    exact List.nodup_append.2 ⟨h.once, List.nodup_singleton _, fun a mem b new same =>
      fresh (List.mem_singleton.1 new ▸ same ▸ mem)⟩
  · rw [Workbook.IsOpen, listeners, List.mem_append, List.mem_singleton, Open, length]
    change x.workbook.IsOpen i ∨ _ ↔ _ ∧ ∀ entry ∈ x.closed, _
    rw [h.listens, Open, Nat.lt_succ_iff_lt_or_eq, or_and_right]
    refine or_congr_right ⟨fun same => ⟨same, fun entry mem => ?_⟩, And.left⟩
    rw [same]
    exact Nat.ne_of_lt (h.past entry mem)

theorem closeSheet (h : x.Sound) {i : Nat} (known : i < x.sheets.length) :
    (x.closeSheet i).Sound := by
  have closed : (x.closeSheet i).closed = x.closed ++ [(i, (x.workbook.close i).1)] := by
    rw [Session.closeSheet, if_pos known]
  have length : (x.closeSheet i).sheets.length = x.sheets.length := by
    rw [Session.closeSheet, if_pos known]
    exact List.length_modify ..
  have count : (x.closeSheet i).settings.sampleCount = x.settings.sampleCount := by
    rw [Session.closeSheet, if_pos known]
    rfl
  have listeners : (x.closeSheet i).workbook.settings.listeners =
      x.workbook.settings.listeners.erase i := by
    rw [workbook_closeSheet known]
    rfl
  refine ⟨fun j isOpen => ?_, fun entry mem => ?_, ?_, fun j => ?_⟩
  · obtain ⟨other, isOpen⟩ := (open_closeSheet known).1 isOpen
    rw [sheet_closeSheet known other, count]
    exact h.workable j isOpen
  · rw [length]
    rw [closed] at mem
    obtain old | new := List.mem_append.1 mem
    · exact h.past entry old
    · rw [List.mem_singleton.1 new]
      exact known
  · rw [listeners]
    exact h.once.erase i
  · rw [Workbook.IsOpen, listeners, h.once.mem_erase_iff, open_closeSheet known]
    exact and_congr_right fun _ => h.listens j

theorem step (step : Step x y) (h : x.Sound) : y.Sound := by
  cases step with
  | openSheet => exact h.openSheet
  | closeSheet known => exact h.closeSheet known
  | @attend listeners sheets => exact h.of_same h.workable sheets rfl rfl
  | @change count pos differs =>
    refine h.of_same (fun i isOpen => ?_) rfl (Workbook.length_announce _ _) rfl
    rw [sheet_changed, if_pos ((h.listens i).2 isOpen)]
    exact (h.workable i isOpen).resize count
  | @work _ i f events worked =>
    have listeners : y.workbook.settings.listeners = x.workbook.settings.listeners := by
      rw [workbook, worked.settings]
      rfl
    have count : y.settings.sampleCount = x.settings.sampleCount := by rw [worked.settings]
    refine h.of_same (fun j isOpen => ?_) listeners worked.length worked.closed
    rw [count]
    obtain ⟨rfl, same⟩ | same := worked.sheet_cases j <;> rw [same]
    · exact worked.workable (h.workable i isOpen)
    · exact h.workable j isOpen

theorem run (steps : Relation.ReflTransGen Step x y) (h : x.Sound) : y.Sound := by
  induction steps with
  | refl => exact h
  | tail _ last ih => exact ih.step last

end Sound

/-! ### The workbook of a session -/

/-- What is done in a session is done to its workbook. -/
theorem Sound.workbook_apply (h : x.Sound) (operation : Operation) :
    (x.apply operation).workbook = x.workbook.perform operation := by
  cases operation with
  | openSheet => exact x.workbook_openSheet
  | closeSheet i =>
    by_cases known : i < x.sheets.length
    · exact workbook_closeSheet known
    · -- where there is no such sheet, none is emptied and none ceases to listen
      have silent : i ∉ x.workbook.settings.listeners := fun mem => known ((h.listens i).1 mem).1
      have beyond : x.workbook.sheets.modify i (fun _ => Roster.empty) = x.workbook.sheets :=
        List.modify_eq_self (Nat.le_of_not_lt known)
      rw [apply, Session.closeSheet, if_neg known, Workbook.perform, Workbook.close]
      dsimp only
      rw [Settings.removeListener, Workbook.clear, Workbook.withSheet, Workbook.modifySheet]
      dsimp only
      rw [beyond, List.erase_of_not_mem silent]
  | listen observer =>
    rw [apply, Workbook.perform, workbook, Settings.addListener]
    dsimp only
    rw [List.filterMap_append]
    exact congrArg (fun listeners => Workbook.mk { x.workbook.settings with listeners } x.sheets)
      (List.append_nil _)
  | ignore observer =>
    rw [apply, Workbook.perform, workbook, Settings.removeListener]
    dsimp only
    rw [sheets_erase_observer]
    rfl
  | setCount given =>
    rw [apply, Workbook.perform, workbook_update]
    cases x.update given <;> rfl
  | setCountBy i given =>
    rw [apply, Workbook.perform, Workbook.setSampleCount, workbook_update]
    cases x.update given <;> rfl
  | define i id formula name => rfl
  | remove i id =>
    rw [apply, Workbook.perform]
    cases removed : x.workbook.remove i id with
    | none => rfl
    | some result =>
      obtain ⟨⟨c, s⟩, gone, rfl⟩ := Option.map_eq_some_iff.1 removed
      rfl
  | recalculate i => rfl
  | sync i formulas names => rfl
  | clear i => rfl
  | histogram i id =>
    rw [apply, Workbook.perform]
    cases asked : x.workbook.histogram i id with
    | error e => rfl
    | ok result =>
      obtain ⟨bins, w⟩ := result
      rw [Workbook.histogram] at asked
      split at asked
      · cases asked
      · split at asked
        · split at asked <;> cases asked
          rfl
        · cases asked
          rfl
  | adjust i id adjustment => rfl
  | prepare i id => rfl
  | reevaluate i id => rfl

/-- All through a session, its workbook is the one on which the same is done. -/
theorem workbook_run (settings : Settings Listener) (operations : List Operation) :
    ((start settings).run operations).workbook =
      operations.foldl Workbook.perform (start settings).workbook := by
  suffices all : ∀ x : Session, x.Sound →
      (x.run operations).workbook = operations.foldl Workbook.perform x.workbook from
    all _ (.start settings)
  induction operations with
  | nil => exact fun _ _ => rfl
  | cons operation rest ih =>
    intro x sound
    refine (ih _ (sound.run (x.apply_steps operation))).trans ?_
    rw [sound.workbook_apply, List.foldl_cons]

/-! ### Drained sheets -/

/-- The cells of the open sheets are drained, but for those that were evaluated since. -/
def Waiting (since : List (Nat × String)) (x : Session) : Prop :=
  ∀ i, x.Open i → (x.sheet i).DrainedBut fun id => (i, id) ∈ since

namespace Waiting
variable {since : List (Nat × String)}

/-- All open sheets hear of a new sample count. -/
theorem changed (sound : x.Sound) (count : Nat) (since : List (Nat × String)) :
    (x.changed count).Waiting since := by
  intro i isOpen
  rw [sheet_changed, if_pos ((sound.listens i).2 (open_changed.1 isOpen))]
  exact .invalidate _ _

theorem step (step : Step x y) (sound : x.Sound) (h : x.Waiting since) :
    ∃ more, y.evaluated = x.evaluated ++ more ∧ y.Waiting (since ++ more) := by
  have idle : ∀ {z : Session}, z.Waiting since → z.Waiting (since ++ []) := fun waits =>
    (List.append_nil since).symm ▸ waits
  cases step with
  | openSheet =>
    refine ⟨[], (List.append_nil _).symm, idle fun i isOpen => ?_⟩
    rw [sheet_openSheet]
    by_cases old : i < x.sheets.length
    · exact h i ⟨old, isOpen.2⟩
    · rw [sheet_of_absent (Nat.le_of_not_lt old)]
      exact .empty _
  | @closeSheet i known =>
    refine ⟨[], ?_, idle fun j isOpen => ?_⟩
    · rw [closeSheet, if_pos known, List.append_nil]
    · obtain ⟨other, isOpen⟩ := (open_closeSheet known).1 isOpen
      rw [sheet_closeSheet known other]
      exact h j isOpen
  | attend sheets => exact ⟨[], (List.append_nil _).symm, idle h⟩
  | @change count pos differs =>
    exact ⟨[], (List.append_nil _).symm, idle (changed sound count since)⟩
  | @work _ i f events worked =>
    refine ⟨evaluations i events, worked.evaluated, fun j isOpen => ?_⟩
    have wasOpen := worked.open_iff.1 isOpen
    obtain ⟨rfl, same⟩ | same := worked.sheet_cases j <;> rw [same]
    · refine (worked.drained (sound.workable i wasOpen) _ (h i wasOpen)).imp fun id evaluated => ?_
      rw [List.mem_append]
      exact evaluated.imp_right mem_evaluations.2
    · exact (h j wasOpen).imp fun _ mem => List.mem_append_left _ mem

theorem run (steps : Relation.ReflTransGen Step x y) (sound : x.Sound) (h : x.Waiting since) :
    ∃ more, y.evaluated = x.evaluated ++ more ∧ y.Waiting (since ++ more) := by
  induction steps with
  | refl => exact ⟨[], (List.append_nil _).symm, (List.append_nil since).symm ▸ h⟩
  | tail before last ih =>
    obtain ⟨first, evaluated, waits⟩ := ih
    obtain ⟨more, later, waits⟩ := waits.step last (sound.run before)
    refine ⟨first ++ more, ?_, ?_⟩
    · rw [later, evaluated, List.append_assoc]
    · rw [← List.append_assoc]
      exact waits

end Waiting

/-! ### Changes -/

/-- The changes lead from one sample count to another, each from where the one before led to. -/
def Leads : Nat → List (Nat × Nat) → Nat → Prop
  | count, [], last => count = last
  | count, (old, new) :: rest, last => count = old ∧ old ≠ new ∧ Leads new rest last

theorem Leads.snoc {first count new : Nat} {changes : List (Nat × Nat)}
    (h : Leads first changes count) (differs : count ≠ new) :
    Leads first (changes ++ [(count, new)]) new := by
  induction changes generalizing first with
  | nil =>
    cases h
    exact ⟨rfl, differs, rfl⟩
  | cons change rest ih =>
    obtain ⟨old, next⟩ := change
    obtain ⟨start, other, rest⟩ := h
    exact ⟨start, other, ih rest⟩

theorem leads_step {first : Nat} (step : Step x y)
    (h : Leads first x.changes x.settings.sampleCount) :
    Leads first y.changes y.settings.sampleCount := by
  cases step with
  | openSheet => exact h
  | @closeSheet i known =>
    rw [closeSheet, if_pos known]
    exact h
  | attend sheets => exact h
  | change pos differs => exact h.snoc (Ne.symm differs)
  | work worked =>
    rw [worked.changes, worked.settings]
    exact h

theorem leads_run {first : Nat} (steps : Relation.ReflTransGen Step x y)
    (h : Leads first x.changes x.settings.sampleCount) :
    Leads first y.changes y.settings.sampleCount := by
  induction steps with
  | refl => exact h
  | tail _ last ih => exact leads_step last ih

/-- The cells of a closed sheet stay as they were left. -/
theorem closed_step (step : Step x y) : x.closed <+: y.closed := by
  cases step with
  | openSheet => exact List.prefix_refl _
  | @closeSheet i known =>
    rw [closeSheet, if_pos known]
    exact List.prefix_append _ _
  | attend sheets => exact List.prefix_refl _
  | change pos differs => exact List.prefix_refl _
  | work worked =>
    rw [worked.closed]

theorem closed_run (steps : Relation.ReflTransGen Step x y) : x.closed <+: y.closed := by
  induction steps with
  | refl => exact List.prefix_refl _
  | tail _ last ih => exact ih.trans (closed_step last)

/-- What a new sample count does: it is announced to all listeners in order, sheets that are not
open stay as they are, and a cell of an open sheet is drained from now on until it is evaluated. -/
structure Announced (x y : Session) (count : Nat) : Prop where
  settings : y.settings = { x.settings with sampleCount := count, binCount := none }
  calls : y.calls = x.calls ++ x.settings.listeners.map (⟨·, x.settings.sampleCount, count⟩)
  changes : y.changes = x.changes ++ [(x.settings.sampleCount, count)]
  closed : y.closed = x.closed
  evaluated : y.evaluated = x.evaluated
  deaf : ∀ i, ¬ x.Open i → y.sheet i = x.sheet i
  drained : ∀ later, ∃ since, (y.run later).evaluated = y.evaluated ++ since ∧
    ∀ i, (y.run later).Open i → ∀ id c, ((y.run later).sheet i).get? id = some c →
      (i, id) ∈ since ∨ c.Drained

theorem announced_changed (sound : x.Sound) {count : Nat} (pos : 0 < count)
    (differs : count ≠ x.settings.sampleCount) : x.Announced (x.changed count) count where
  settings := rfl
  calls := rfl
  changes := rfl
  closed := rfl
  evaluated := rfl
  deaf i notOpen := by
    rw [sheet_changed, if_neg (mt (sound.listens i).1 notOpen)]
  drained later :=
    (Waiting.changed sound count []).run (run_steps _ later) (sound.step (.change pos differs))

end Session

/-- Whatever is done in a session is done to its workbook. A refused sample count changes nothing, nor
does the current one; another one is announced to everyone who listens and drains the open sheets.
Through a sheet it does the same, and the sheet is recalculated. The cells of closed sheets stay as
they were left, and the changes lead from the first sample count to the current one. -/
theorem sample_count_changes (settings : Settings Listener) (operations : List Operation) :
    let x := (Session.start settings).run operations
    x.workbook = operations.foldl Workbook.perform (Session.start settings).workbook ∧
      Session.Leads settings.sampleCount x.changes x.settings.sampleCount ∧
      (∀ later, x.closed <+: (x.run later).closed) ∧
      ∀ given : Given,
        (∀ e, given.sampleCount = .error e →
          x.apply (.setCount given) = x ∧ ∀ i, x.apply (.setCountBy i given) = x) ∧
        ∀ count, given.sampleCount = .ok count →
          (count = x.settings.sampleCount → x.apply (.setCount given) = x) ∧
          (count ≠ x.settings.sampleCount → x.Announced (x.apply (.setCount given)) count) ∧
          ∀ i, x.apply (.setCountBy i given) =
            (x.apply (.setCount given)).apply (.recalculate i) := by
  intro x
  have steps : Relation.ReflTransGen Session.Step (Session.start settings) x :=
    Session.run_steps _ operations
  have sound : x.Sound := (Session.Sound.start settings).run steps
  refine ⟨Session.workbook_run settings operations, Session.leads_run steps rfl,
    fun later => Session.closed_run (x.run_steps later), fun given =>
    ⟨fun e refused => ?_, fun count counted => ?_⟩⟩
  · have update : x.update given = .error e := by rw [Session.update_eq, refused]
    refine ⟨?_, fun i => ?_⟩ <;> rw [Session.apply, update]
  · have update : x.update given =
        .ok (if count = x.settings.sampleCount then x else x.changed count) := by
      rw [Session.update_eq, counted]
    have set : x.apply (.setCount given) =
        if count = x.settings.sampleCount then x else x.changed count := by
      rw [Session.apply, update]
    refine ⟨fun same => ?_, fun differs => ?_, fun i => ?_⟩
    · rw [set, if_pos same]
    · rw [set, if_neg differs]
      exact Session.announced_changed sound (Given.sampleCount_pos counted) differs
    · rw [set, Session.apply, update]
      rfl

/-- An observer listens twice, and one of two sheets has been closed; the cell of the other one has
samples before the sample count changes. -/
theorem announced_to_a_sheet_and_an_observer :
    let settings : Settings Listener := ⟨1, ⟨.permuted, some 1, none⟩, 3, none, []⟩
    let x := (Session.start settings).run
      [.openSheet, .openSheet, .listen "o", .listen "o",
        .define 0 "A" (some "array(7)") none, .reevaluate 0 "A", .closeSheet 1]
    let y := x.apply (.setCount (.whole 20))
    ((Given.whole 20).sampleCount = .ok 20 ∧ 20 ≠ x.settings.sampleCount) ∧
      x.Announced y 20 ∧
      y.calls = [⟨.sheet 0, 1, 20⟩, ⟨.observer "o", 1, 20⟩, ⟨.observer "o", 1, 20⟩] ∧
      y.Open 0 ∧ ¬ y.Open 1 ∧
      ((x.sheet 0).get? "A").map (fun c => c.output.samples.map List.length) = some (some 1) ∧
      ((y.sheet 0).get? "A").map (fun c => c.output.samples.map List.length) = some (some 0) := by
  intro settings x y
  have counted : (Given.whole 20).sampleCount = .ok 20 := rfl
  have differs : 20 ≠ x.settings.sampleCount := by decide +kernel
  have set := (sample_count_changes settings
    [.openSheet, .openSheet, .listen "o", .listen "o",
      .define 0 "A" (some "array(7)") none, .reevaluate 0 "A",
      .closeSheet 1]).2.2.2 (.whole 20)
  have announced : x.Announced y 20 := (set.2 20 counted).2.1 differs
  refine ⟨⟨counted, differs⟩, announced, ?_, ?_, ?_, ?_, ?_⟩
  · rw [announced.calls]
    decide +kernel
  · decide +kernel
  · decide +kernel
  · decide +kernel
  · decide +kernel

end MonteCarloSheet
