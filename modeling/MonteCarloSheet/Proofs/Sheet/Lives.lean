import MonteCarloSheet.Proofs.Sheet.Reachable
import MonteCarloSheet.Proofs.Sheet.Regular

/-! Lives of open sheets.

A sheet lives while it is open: cells are defined and removed, it is recalculated
with the sample count that is set, and the count may change. Its life is told as the
list of its events (`Sheet.Lives`). What every event keeps holds all through a life
(`Kept.lives`), and every open sheet of a reachable workbook has lived so far
(`Workbook.Reachable.lives`). -/
namespace MonteCarloSheet

/-! ### Changes around what cells have come to -/

namespace Sheet.All
variable {P : String → Yield → Prop} {s : Sheet}

/-- A cell that is defined has come to nothing if it is new, and the others stay as they are. -/
theorem define_yields (h : s.Yields P) (id : String) (formula name : Option String)
    (new : s.contains id = false → P id .nothing) : (s.define id formula name).Yields P :=
  All.define_reworded (fun _ _ _ _ _ _ hc => hc) (fun _ _ _ _ _ _ _ hc => hc) h id formula name new

theorem remove_yields (h : s.Yields P) {id : String} {c : Cell} {s' : Sheet}
    (removed : s.remove id = some (c, s')) : s'.Yields P :=
  All.remove (fun _ _ _ _ _ _ hc => hc) h removed

theorem prepared_yields (h : s.Yields P) : s.prepared.Yields P := by
  intro x c here
  have same := result_prepared s x
  rw [here] at same
  obtain ⟨d, old, equal⟩ := Option.map_eq_some_iff.1 same.symm
  rw [show c.yield = d.yield from Cell.eq_of_result equal.symm fun _ => rfl]
  exact h x d old

end Sheet.All

/-! ### Lives -/

/-- The sheet has come from an empty one with the events, the latest first, while it was open; the
sample count is the one that is set now. -/
inductive Sheet.Lives : Nat → Sheet → List Event → Prop where
  | opened (count : Nat) : Lives count Roster.empty []
  | define {count : Nat} {s : Sheet} {events : List Event} (h : Lives count s events) (id : String)
      (formula name : Option String) :
      Lives count (s.define id formula name)
        (if s.contains id then events else .entered id :: events)
  | remove {count : Nat} {s : Sheet} {events : List Event} (h : Lives count s events) (id : String)
      {c : Cell} {s' : Sheet} (removed : s.remove id = some (c, s')) : Lives count s' events
  | recalculate {s : Sheet} {events : List Event} (sim : Simulation)
      (h : Lives sim.count s events) :
      Lives sim.count (s.recalculate sim).2 (s.record sim events)
  | resize {count : Nat} {s : Sheet} {events : List Event} (h : Lives count s events)
      (other : Nat) : Lives other (Workbook.invalidate s) (.resized :: events)
  | keepBins {count : Nat} {s : Sheet} {events : List Event} (h : Lives count s events)
      (id : String) (bins : Nat) : Lives count (s.modify id (Cell.keepBins · bins)) events
  | clear {count : Nat} {s : Sheet} {events : List Event} (h : Lives count s events) :
      Lives count Roster.empty events

namespace Sheet.Lives
variable {count : Nat} {s : Sheet} {events : List Event}

theorem reachable (h : Lives count s events) : s.Reachable := by
  induction h with
  | opened count => exact .empty
  | define h id formula name ih => exact ih.define id formula name
  | remove h id removed ih => exact ih.remove id removed
  | recalculate sim h ih => exact ih.recalculate sim
  | resize h other ih => exact ih.invalidate
  | keepBins h id bins ih => exact ih.keepBins id bins
  | clear h ih => exact .empty

theorem rewritten (h : Lives count s events) (definitions : Roster (Option String))
    (names : Roster String) : ∃ events, Lives count (s.rewritten definitions names) events :=
  Sheet.rewritten_keep (I := fun s => ∃ events, Lives count s events)
    (fun _ id _ _ removed ⟨events, h⟩ => ⟨events, h.remove id removed⟩)
    (fun _ id formula name ⟨_, h⟩ => ⟨_, h.define id formula name⟩) ⟨events, h⟩ definitions names

end Sheet.Lives

/-- A recalculation is told in steps from the sheet as the sweeps find it. -/
theorem record_steps (sim : Simulation) {s : Sheet} (tied : s.Tied)
    (regular : s.Regular sim.count) (events : List Event) :
    RecordedSteps sim.count (s.prepared, events)
      ((s.recalculate sim).2, s.record sim events) :=
  recordSweeps_steps sim s.prepared.order (Sheet.sweepLimit s.prepared) 0 events tied.prepared
    (readable_prepared s) regular.prepared_yields

namespace Kept
variable {P : Nat → List Event → String → Yield → Prop}

theorem and {Q : Nat → List Event → String → Yield → Prop} (first : Kept P) (second : Kept Q) :
    Kept fun count events id y => P count events id y ∧ Q count events id y where
  entered count events id := ⟨first.entered count events id, second.entered count events id⟩
  ended regular h := ⟨first.ended regular h.1, second.ended regular h.2⟩
  resized other h := ⟨first.resized other h.1, second.resized other h.2⟩
  spared spares h := ⟨first.spared spares h.1, second.spared spares h.2⟩

theorem resizing (kept : Kept P) {count : Nat} {s : Sheet} {events : List Event}
    (h : s.Yields (P count events)) (other : Nat) :
    (Workbook.invalidate s).Yields (P other (.resized :: events)) := by
  intro x c here
  rw [Workbook.invalidate, Roster.get?_map] at here
  obtain ⟨d, old, rfl⟩ := Option.map_eq_some_iff.1 here
  exact kept.resized other (h x d old)

theorem defining (kept : Kept P) {count : Nat} {s : Sheet} {events : List Event}
    (h : s.Yields (P count events)) (id : String) (formula name : Option String) :
    (s.define id formula name).Yields
      (P count (if s.contains id then events else .entered id :: events)) := by
  cases known : s.contains id with
  | true =>
    rw [if_pos rfl]
    exact h.define_yields id formula name fun absent => by rw [known] at absent; cases absent
  | false =>
    rw [if_neg Bool.false_ne_true]
    refine Sheet.All.define_yields (fun x c here => ?_) id formula name fun _ =>
      kept.entered count events id
    refine kept.spared (fun same => ?_) (h x c here)
    rw [same, Roster.contains, here] at known
    cases known

/-- What every event keeps holds of all cells of an open sheet. -/
theorem lives (kept : Kept P) {count : Nat} {s : Sheet} {events : List Event}
    (h : s.Lives count events) : s.Yields (P count events) := by
  -- a recalculation is told in steps only if the sheet is regular, which it stays
  have both := kept_regular.and kept
  suffices all : s.Yields fun id y => y.Regular count ∧ P count events id y from
    fun x c here => (all x c here).2
  induction h with
  | opened count => exact fun _ _ here => by cases here
  | define h id formula name ih => exact both.defining ih id formula name
  | remove h id removed ih => exact ih.remove_yields removed
  | @recalculate s events sim h ih =>
    have steps := record_steps sim h.reachable.tied (fun x c here => (ih x c here).1) events
    exact both.steps steps ih.prepared_yields
  | resize h other ih => exact both.resizing ih other
  | keepBins h id bins ih => exact ih.modify id (f := (Cell.keepBins · bins)) fun _ hc => hc
  | clear h ih => exact fun _ _ here => by cases here

end Kept

/-- An open sheet is regular all through its life. -/
theorem Sheet.Lives.regular {count : Nat} {s : Sheet} {events : List Event}
    (h : s.Lives count events) : s.Regular count :=
  kept_regular.lives h

/-! ### Open sheets of a workbook -/

theorem Settings.update_cases {s t : Settings ι} {given : Given} {a : Option (Announcement ι)}
    (updated : s.update given = .ok (a, t)) :
    a = none ∧ t = s ∨ ∃ b, a = some b ∧ b.listeners = s.listeners ∧ t.listeners = s.listeners ∧
      t.binCount = none := by
  rw [update] at updated
  cases count : given.sampleCount with
  | error e => rw [count] at updated; cases updated
  | ok n =>
    rw [count] at updated
    change (if n = s.sampleCount then _ else _ : Except SettingError _) = _ at updated
    split at updated
    · cases updated
      exact .inl ⟨rfl, rfl⟩
    · cases updated
      exact .inr ⟨_, rfl, rfl, rfl, rfl⟩

namespace Workbook
variable {w : Workbook}

/-- The sheet listens to the settings, as it does from when it is opened until it is closed. -/
def IsOpen (w : Workbook) (i : Nat) : Prop :=
  i ∈ w.settings.listeners

instance (w : Workbook) (i : Nat) : Decidable (w.IsOpen i) :=
  inferInstanceAs (Decidable (i ∈ w.settings.listeners))

/-- All open sheets of the workbook have lived so far. -/
def Live (w : Workbook) : Prop :=
  ∀ i, w.IsOpen i → ∃ events, (w.sheet i).Lives w.settings.sampleCount events

theorem sheet_modifySheet (w : Workbook) (i : Nat) (f : Sheet → Sheet) (j : Nat) :
    i = j ∧ (w.modifySheet i f).sheet j = f (w.sheet j) ∨
      (w.modifySheet i f).sheet j = w.sheet j ∧ (i = j → w.sheet j = Roster.empty) := by
  simp only [sheet, modifySheet, List.getD_eq_getElem?_getD, List.getElem?_modify]
  cases w.sheets[j]? with
  | none => exact .inr ⟨rfl, fun _ => rfl⟩
  | some s =>
    by_cases same : i = j
    · exact .inl ⟨same, by simp [same]⟩
    · exact .inr ⟨by simp [same], fun absurd => (same absurd).elim⟩

/-- A sheet that is opened is empty, as is every sheet that there is not. -/
theorem sheet_openSheet (w : Workbook) (i : Nat) : w.openSheet.sheet i = w.sheet i := by
  simp only [sheet, Workbook.openSheet, List.getD_eq_getElem?_getD]
  by_cases known : i < w.sheets.length
  · rw [List.getElem?_append_left known]
  · have absent : w.sheets[i]? = none := List.getElem?_eq_none (Nat.le_of_not_lt known)
    rw [List.getElem?_append_right (Nat.le_of_not_lt known), absent]
    cases i - w.sheets.length <;> rfl

theorem settings_announce (listeners : List Nat) (w : Workbook) :
    (w.announce listeners).settings = w.settings := by
  induction listeners generalizing w with
  | nil => rfl
  | cons i rest ih => exact ih (w.modifySheet i invalidate)

/-- Every sheet hears of a new sample count that listens, and may hear of it more than once. -/
theorem lives_announce (listeners : List Nat) {i count other : Nat} {events : List Event}
    {w : Workbook} (h : (w.sheet i).Lives count events) (hears : i ∈ listeners ∨ count = other) :
    ∃ events, ((w.announce listeners).sheet i).Lives other events := by
  induction listeners generalizing w count events with
  | nil =>
    obtain mem | rfl := hears
    · cases mem
    · exact ⟨events, h⟩
  | cons j rest ih =>
    change ∃ events, ((Workbook.announce (w.modifySheet j invalidate) rest).sheet i).Lives _ events
    obtain ⟨rfl, same⟩ | ⟨same, missing⟩ := sheet_modifySheet w j invalidate i
    · exact ih (same ▸ h.resize other) (.inr rfl)
    · by_cases this : j = i
      · have lives : ((w.modifySheet j invalidate).sheet i).Lives other [] := by
          rw [same, missing this]
          exact .opened other
        exact ih lives (.inr rfl)
      · rw [← same] at h
        refine ih h (hears.imp_left fun mem => ?_)
        exact (List.mem_cons.1 mem).resolve_left (Ne.symm this)

namespace Live

theorem modifySheet (h : w.Live) {i : Nat} {f : Sheet → Sheet}
    (keep : ∀ events, (w.sheet i).Lives w.settings.sampleCount events →
      ∃ events, (f (w.sheet i)).Lives w.settings.sampleCount events) :
    (w.modifySheet i f).Live := by
  intro j isOpen
  obtain ⟨events, lives⟩ := h j isOpen
  obtain ⟨rfl, same⟩ | ⟨same, -⟩ := sheet_modifySheet w i f j
  · rw [same]
    exact keep events lives
  · rw [same]
    exact ⟨events, lives⟩

theorem openSheet (h : w.Live) : w.openSheet.Live := by
  intro i isOpen
  rw [sheet_openSheet]
  obtain old | new := List.mem_append.1 isOpen
  · exact h i old
  · have absent : w.sheet i = Roster.empty := by
      rw [List.mem_singleton.1 new, sheet, List.getD_eq_getElem?_getD,
        List.getElem?_eq_none (Nat.le_refl _)]
      rfl
    rw [absent]
    exact ⟨[], .opened _⟩

/-- A workbook whose sheets are all empty. -/
theorem of_empty (empty : ∀ i, w.sheet i = Roster.empty) : w.Live := by
  intro i _
  rw [empty]
  exact ⟨[], .opened _⟩

theorem changeSampleCount (h : w.Live) {given : Given} {changed : Bool} {w' : Workbook}
    (accepted : w.changeSampleCount given = .ok (changed, w')) : w'.Live := by
  rw [Workbook.changeSampleCount] at accepted
  cases updated : w.settings.update given with
  | error e => rw [updated] at accepted; cases accepted
  | ok result =>
    obtain ⟨announcement, settings⟩ := result
    rw [updated] at accepted
    obtain ⟨rfl, rfl⟩ | ⟨a, rfl, hear, listen, -⟩ := Settings.update_cases updated
    · cases accepted
      exact h
    · cases accepted
      intro i isOpen
      rw [settings_announce]
      rw [IsOpen, settings_announce, listen] at isOpen
      obtain ⟨events, lives⟩ := h i isOpen
      rw [← hear] at isOpen
      exact lives_announce a.listeners (w := { w with settings }) lives (.inl isOpen)

theorem histogram (h : w.Live) {i : Nat} {id : String} {bins : List Samples.Bin} {w' : Workbook}
    (asked : w.histogram i id = .ok (bins, w')) : w'.Live := by
  rw [Workbook.histogram] at asked
  split at asked
  · cases asked
  · split at asked
    · split at asked
      · cases asked
      · cases asked
        have kept : Live { w with settings := w.settings.keepBins } := h
        exact kept.modifySheet fun events lives => ⟨_, lives.keepBins id _⟩
    · cases asked
      exact h.modifySheet fun events lives => ⟨_, lives.keepBins id _⟩

end Live

/-- Every open sheet of a reachable workbook has lived so far. -/
theorem Reachable.lives (h : w.Reachable) : w.Live := by
  induction h with
  | new settings => exact Live.openSheet (w := ⟨settings, []⟩) (.of_empty fun _ => rfl)
  | unattended settings => exact .of_empty fun i => by cases i <;> rfl
  | openSheet h ih => exact ih.openSheet
  | define h i id formula name ih =>
    exact ih.modifySheet fun events lives => ⟨_, lives.define id formula name⟩
  | @remove w h i id c w' removed ih =>
    rw [Workbook.remove] at removed
    obtain ⟨⟨c, s⟩, gone, same⟩ := Option.map_eq_some_iff.1 removed
    cases same
    exact ih.modifySheet fun events lives => ⟨_, lives.remove id gone⟩
  | @recalculate w h i ih =>
    exact ih.modifySheet fun events lives => ⟨_, lives.recalculate w.settings.simulation⟩
  | @sync w h i formulas names ih =>
    refine ih.modifySheet fun events lives => ?_
    obtain ⟨events, rewritten⟩ := lives.rewritten formulas names
    exact ⟨_, rewritten.recalculate w.settings.simulation⟩
  | changeSampleCount h accepted ih => exact ih.changeSampleCount accepted
  | clear h i ih => exact ih.modifySheet fun events lives => ⟨_, lives.clear⟩
  | close h i ih =>
    have cleared := ih.modifySheet (i := i) (f := fun _ => Roster.empty)
      fun events lives => ⟨_, lives.clear⟩
    exact fun j isOpen => cleared j (List.mem_of_mem_erase isOpen)
  | histogram h i id asked ih => exact ih.histogram asked

end Workbook

end MonteCarloSheet
