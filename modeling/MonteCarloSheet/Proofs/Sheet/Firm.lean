import MonteCarloSheet.Proofs.Sheet.Moves

/-! Cells that keep their version.

While one cell is reevaluated by itself, suppose that no other cell changes that was
fresh when this began (`Quiet`). Then at each moment the cells that were fresh in the
beginning, and those that are fresh by now and read only such cells, keep their
version to the end (`Firm`, `Firm.version`). Evaluating one more cell keeps cells
firm: it marks only cells that read one that has changed, and none of these is
firm. -/
namespace MonteCarloSheet

/-- No cell but the given one that was fresh in the first sheet has changed in the second. -/
def Quiet (s : Sheet) (x : String) (t : Sheet) : Prop :=
  ∀ y, y ≠ x → s.Fresh y → t.version y = s.version y

/-- Between a sheet and one in which no cell has changed that was fresh, none has either. -/
theorem Quiet.before {s t u : Sheet} {x : String} (h : Quiet s x u)
    (first : ∀ y, s.version y ≤ t.version y) (second : ∀ y, t.version y ≤ u.version y) :
    Quiet s x t := by
  intro y other fresh
  have := h y other fresh
  have := first y
  have := second y
  omega

/-- The cell will keep its version while `x` is evaluated: it was fresh in the sheet `s` in which
this began, or it is fresh now and reads only such cells. -/
inductive Firm (s : Sheet) (x : String) (q : Progress) : String → Prop where
  | start {y : String} (other : y ≠ x) (fresh : s.Fresh y) : Firm s x q y
  | done {y : String} (idle : y ∉ q.active) (fresh : q.sheet.Fresh y)
      (reads : ∀ z ∈ q.sheet.dependencies y, z ≠ y → Firm s x q z) : Firm s x q y

namespace Firm
variable {S : String → Prop} {s : Sheet} {x y z : String} {p q r : Progress} {before : Cell}

/-- A firm cell keeps its version. -/
theorem version (h : Firm s x q y) (moves : Moves S q r) (now : Quiet s x q.sheet)
    (later : Quiet s x r.sheet) : r.sheet.version y = q.sheet.version y := by
  induction h with
  | start other fresh => rw [later _ other fresh, now _ other fresh]
  | done idle fresh _ ih => exact (moves.fresh _ idle fresh ih).still.version

theorem moves (h : Firm s x q y) (moves : Moves S q r) (now : Quiet s x q.sheet)
    (later : Quiet s x r.sheet) : Firm s x r y := by
  induction h with
  | start other fresh => exact .start other fresh
  | @done y idle fresh reads ih =>
    have same := moves.fresh y idle fresh fun z link other =>
      (reads z link other).version moves now later
    refine .done (moves.active ▸ idle) (same.fresh.2 fresh) fun z link other => ?_
    exact ih z (same.still.dependencies ▸ link) other

/-- A cell that is entered was not fresh, so what was firm did not lean on that. -/
theorem enter (h : Firm s x p y) (here : p.sheet.get? z = some before)
    (stale : before.isStale = true) : Firm s x (p.enter z before) y := by
  induction h with
  | start other fresh => exact .start other fresh
  | @done y idle fresh reads ih =>
    have other : y ≠ z := by
      rintro rfl
      rw [fresh before here] at stale
      cases stale
    have same := Sheet.same_begun here other
    refine .done (Progress.idle_enter idle other) (same.fresh.2 fresh) fun z link other => ?_
    exact ih z (same.still.dependencies ▸ link) other

section
variable (inner : Moves S (p.enter z before) q) (here : p.sheet.get? z = some before)
  (ending : Ending) (later : Quiet s x (q.leave z before ending).sheet)
include inner here later

/-- A firm cell that is being evaluated has not changed when it is left. -/
theorem unchanged (firm : Firm s x q z) (begun : ∀ y, s.version y ≤ p.sheet.version y) :
    ¬ before.changed (ending.apply before) = true := by
  intro differs
  have grown := inner.version_leave here ending
  rw [if_pos differs] at grown
  cases firm with
  | start other fresh =>
    have := later z other fresh
    have := begun z
    omega
  | done idle => exact idle inner.mem_active

theorem leave (h : Firm s x q y) (tied : p.sheet.Tied) (idle : z ∉ p.active)
    (begun : ∀ y, s.version y ≤ p.sheet.version y) :
    Firm s x (q.leave z before ending) y := by
  induction h with
  | start other fresh => exact .start other fresh
  | @done y waits fresh reads ih =>
    have other : y ≠ z := fun same => waits (same ▸ inner.mem_active)
    -- the cell would be marked only if it read the one that is left, which would be firm then
    have unmarked : ¬ (before.changed (ending.apply before) ∧ y ∈ q.sheet.dependents z ∧
        y ∉ q.active) := fun ⟨differs, reader, _⟩ => by
      have link := inner.reads_of_mem_dependents here tied reader
      exact (reads z link (Ne.symm other)).unchanged inner here ending later begun differs
    have same := inner.same_leave here ending other unmarked
    refine .done ?_ (same.fresh.2 fresh) fun w link ne => ih w ?_ ne
    · rw [inner.active_leave idle ending]
      exact fun active => waits (inner.active ▸ List.mem_cons_of_mem _ active)
    · rw [same.still.dependencies] at link
      exact link

end

end Firm

end MonteCarloSheet
