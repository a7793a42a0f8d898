import MonteCarloSheet.Workbook

/-! Reachable sheets.

A sheet is reachable if it comes from the empty one by giving cells formulas,
removing cells, recalculating, changing the sample count and asking for
histograms, in any order. A recalculation may use any settings, so a reachable
sheet has any history. Every sheet of a reachable workbook is reachable
(`Workbook.Reachable.sheet`). -/
namespace MonteCarloSheet

/-- The sheets that come from the empty sheet by the operations on sheets. -/
inductive Sheet.Reachable : Sheet → Prop where
  | empty : Reachable Roster.empty
  | define {s : Sheet} (h : Reachable s) (id : String) (formula name : Option String) :
      Reachable (s.define id formula name)
  | remove {s : Sheet} (h : Reachable s) (id : String) {c : Cell} {s' : Sheet}
      (removed : s.remove id = some (c, s')) : Reachable s'
  | recalculate {s : Sheet} (h : Reachable s) (sim : Simulation) :
      Reachable (s.recalculate sim).2
  | invalidate {s : Sheet} (h : Reachable s) : Reachable (Workbook.invalidate s)
  | keepBins {s : Sheet} (h : Reachable s) (id : String) (count : Nat) :
      Reachable (s.modify id (Cell.keepBins · count))

namespace Sheet

/-- The cells made those of the definitions, before they are recalculated. -/
def rewritten (s : Sheet) (definitions : Roster (Option String)) (names : Roster String) : Sheet :=
  definitions.entries.foldl (fun s entry => define s entry.1 entry.2 (names.get? entry.1))
    (s.prune definitions)

theorem sync_eq (sim : Simulation) (s : Sheet) (definitions : Roster (Option String))
    (names : Roster String) :
    s.sync sim definitions names = (s.rewritten definitions names).recalculate sim := rfl

/-- What the removal of a cell keeps, pruning keeps. -/
theorem prune_keep {I : Sheet → Prop}
    (removal : ∀ s id c s', s.remove id = some (c, s') → I s → I s') {s : Sheet} (h : I s)
    (definitions : Roster (Option String)) : I (s.prune definitions) := by
  rw [prune]
  generalize s.names.filter _ = ids
  induction ids generalizing s with
  | nil => exact h
  | cons id rest ih =>
    refine ih ?_
    dsimp only
    cases removed : s.remove id with
    | none => exact h
    | some result => exact removal s id result.1 result.2 removed h

/-- What removals and definitions of cells keep, making the cells those of definitions keeps. -/
theorem rewritten_keep {I : Sheet → Prop}
    (removal : ∀ s id c s', s.remove id = some (c, s') → I s → I s')
    (definition : ∀ s id formula name, I s → I (s.define id formula name)) {s : Sheet} (h : I s)
    (definitions : Roster (Option String)) (names : Roster String) :
    I (s.rewritten definitions names) := by
  have pruned := prune_keep removal h definitions
  rw [rewritten]
  generalize s.prune definitions = t at pruned
  induction definitions.entries generalizing t with
  | nil => exact pruned
  | cons entry rest ih =>
    exact ih _ (definition t entry.1 entry.2 (names.get? entry.1) pruned)

namespace Reachable

theorem rewritten {s : Sheet} (h : Reachable s) (definitions : Roster (Option String))
    (names : Roster String) : Reachable (s.rewritten definitions names) :=
  rewritten_keep (fun _ id _ _ removed h => h.remove id removed)
    (fun _ id formula name h => h.define id formula name) h definitions names

theorem sync {s : Sheet} (h : Reachable s) (sim : Simulation) (formulas : Roster (Option String))
    (names : Roster String) : Reachable (s.sync sim formulas names).2 :=
  (h.rewritten formulas names).recalculate sim

end Reachable

end Sheet

namespace Workbook

/-- The workbooks that come from a new one by the operations on workbooks. -/
inductive Reachable : Workbook → Prop where
  | new (settings : Settings Nat) : Reachable (Workbook.new settings)
  | unattended (settings : Settings Nat) : Reachable (Workbook.unattended settings)
  | openSheet {w : Workbook} (h : Reachable w) : Reachable w.openSheet
  | define {w : Workbook} (h : Reachable w) (i : Nat) (id : String)
      (formula name : Option String) : Reachable (w.define i id formula name)
  | remove {w : Workbook} (h : Reachable w) (i : Nat) (id : String) {c : Cell} {w' : Workbook}
      (removed : w.remove i id = some (c, w')) : Reachable w'
  | recalculate {w : Workbook} (h : Reachable w) (i : Nat) : Reachable (w.recalculate i).2
  | sync {w : Workbook} (h : Reachable w) (i : Nat) (formulas : Roster (Option String))
      (names : Roster String) : Reachable (w.sync i formulas names).2
  | changeSampleCount {w : Workbook} (h : Reachable w) {given : Given} {changed : Bool}
      {w' : Workbook} (accepted : w.changeSampleCount given = .ok (changed, w')) : Reachable w'
  | clear {w : Workbook} (h : Reachable w) (i : Nat) : Reachable (w.clear i).2
  | close {w : Workbook} (h : Reachable w) (i : Nat) : Reachable (w.close i).2
  | histogram {w : Workbook} (h : Reachable w) (i : Nat) (id : String) {bins : List Samples.Bin}
      {w' : Workbook} (asked : w.histogram i id = .ok (bins, w')) : Reachable w'

variable {w : Workbook}

theorem reachable_modifySheet {i : Nat} {f : Sheet → Sheet} (all : ∀ s ∈ w.sheets, s.Reachable)
    (keep : ∀ s, s.Reachable → (f s).Reachable) : ∀ s ∈ (w.modifySheet i f).sheets, s.Reachable := by
  intro s mem
  obtain ⟨j, at_⟩ := List.mem_iff_getElem?.1 mem
  rw [modifySheet, List.getElem?_modify] at at_
  obtain ⟨t, old, rfl⟩ := Option.map_eq_some_iff.1 at_
  have h := all t (List.mem_iff_getElem?.2 ⟨j, old⟩)
  by_cases this : i = j
  · rw [if_pos this]
    exact keep t h
  · rw [if_neg this]
    exact h

theorem reachable_openSheet (all : ∀ s ∈ w.sheets, s.Reachable) :
    ∀ s ∈ w.openSheet.sheets, s.Reachable := by
  intro s mem
  rcases List.mem_append.1 mem with old | new
  · exact all s old
  · rw [List.mem_singleton.1 new]
    exact .empty

theorem reachable_announce {listeners : List Nat} (all : ∀ s ∈ w.sheets, s.Reachable) :
    ∀ s ∈ (w.announce listeners).sheets, s.Reachable := by
  induction listeners generalizing w with
  | nil => exact all
  | cons i rest ih => exact ih (reachable_modifySheet all fun _ h => h.invalidate)

theorem reachable_getD (all : ∀ s ∈ w.sheets, s.Reachable) (i : Nat) : (w.sheet i).Reachable := by
  rw [sheet, List.getD_eq_getElem?_getD]
  cases here : w.sheets[i]? with
  | none => exact .empty
  | some s => exact all s (List.mem_iff_getElem?.2 ⟨i, here⟩)

theorem reachable_changeSampleCount {given : Given} {changed : Bool} {w' : Workbook}
    (accepted : w.changeSampleCount given = .ok (changed, w'))
    (all : ∀ s ∈ w.sheets, s.Reachable) : ∀ s ∈ w'.sheets, s.Reachable := by
  rw [changeSampleCount] at accepted
  cases updated : w.settings.update given with
  | error e => rw [updated] at accepted; cases accepted
  | ok result =>
    obtain ⟨announcement, settings⟩ := result
    rw [updated] at accepted
    cases announcement with
    | none => cases accepted; exact all
    | some a =>
      cases accepted
      exact reachable_announce (w := { w with settings }) all

theorem reachable_histogram {i : Nat} {id : String} {bins : List Samples.Bin} {w' : Workbook}
    (asked : w.histogram i id = .ok (bins, w')) (all : ∀ s ∈ w.sheets, s.Reachable) :
    ∀ s ∈ w'.sheets, s.Reachable := by
  rw [histogram] at asked
  split at asked
  · cases asked
  · split at asked
    · split at asked
      · cases asked
      · cases asked
        exact reachable_modifySheet (w := { w with settings := w.settings.keepBins }) all
          fun _ h => h.keepBins id _
    · cases asked
      exact reachable_modifySheet all fun _ h => h.keepBins id _

/-- The sheets of a reachable workbook are reachable. -/
theorem Reachable.sheets (h : Reachable w) : ∀ s ∈ w.sheets, s.Reachable := by
  induction h with
  | new settings => exact reachable_openSheet (w := ⟨settings, []⟩) fun _ mem => by cases mem
  | unattended settings =>
    intro s mem
    rw [List.mem_singleton.1 mem]
    exact .empty
  | openSheet h ih => exact reachable_openSheet ih
  | define h i id formula name ih =>
    exact reachable_modifySheet ih fun _ reachable => reachable.define id formula name
  | remove h i id removed ih =>
    rw [Workbook.remove] at removed
    obtain ⟨⟨c, s⟩, gone, same⟩ := Option.map_eq_some_iff.1 removed
    cases same
    exact reachable_modifySheet ih fun _ _ => (reachable_getD ih i).remove id gone
  | recalculate h i ih =>
    exact reachable_modifySheet ih fun _ _ => (reachable_getD ih i).recalculate _
  | sync h i formulas names ih =>
    exact reachable_modifySheet ih fun _ _ => (reachable_getD ih i).sync _ formulas names
  | changeSampleCount h accepted ih => exact reachable_changeSampleCount accepted ih
  | clear h i ih => exact reachable_modifySheet ih fun _ _ => .empty
  | close h i ih => exact reachable_modifySheet ih fun _ _ => .empty
  | histogram h i id asked ih => exact reachable_histogram asked ih

theorem Reachable.sheet (h : Reachable w) (i : Nat) : (w.sheet i).Reachable :=
  reachable_getD h.sheets i

end Workbook

end MonteCarloSheet
