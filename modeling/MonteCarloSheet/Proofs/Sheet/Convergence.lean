import Mathlib.Data.List.Sort
import MonteCarloSheet.Proofs.Sheet.Grounded
import MonteCarloSheet.Proofs.Sheet.Rewriting

/-! Recalculations that converge.

A recalculation ends after a number of sweeps that is limited by the size of the sheet
(`iterations_le`). If no cell lies on two cycles, each sweep after the first one brings
one more cell to rest, so all cells rest in time (`rests_afterSweeps`), and a sweep of
cells that rest is the last one: the recalculation converges
(`recalculation_converges`). -/
namespace MonteCarloSheet

open Formula (Expr)

variable {sim : Simulation} {s : Sheet} {x : String}

/-! ### The number of sweeps -/

theorem Sheet.sweeps_le (sim : Simulation) (order : List String) (left done : Nat) (s : Sheet) :
    (sweeps sim order left done s).1 ≤ done + left := by
  induction left generalizing done s with
  | zero => exact Nat.le_refl done
  | succ left ih =>
    rw [sweeps]
    dsimp only
    split
    · exact Nat.add_le_add_left (Nat.le_add_left 1 left) done
    · exact (ih (done + 1) _).trans (by omega)

/-- A recalculation ends, whether it converges or not. -/
theorem Sheet.iterations_le (sim : Simulation) (s : Sheet) :
    (s.recalculate sim).1.iterations ≤ 2 * Roster.size s + 10 := by
  calc (s.recalculate sim).1.iterations
      ≤ 0 + sweepLimit s.prepared :=
        sweeps_le sim s.prepared.order (sweepLimit s.prepared) 0 s.prepared
    _ = 2 * Roster.size s + 10 := by rw [sweepLimit, size_prepared, Nat.zero_add]

/-! ### Rounds of a recalculation -/

open Classical in
/-- The cells that do not rest yet, so many sweeps after the first one. -/
noncomputable def moving (sim : Simulation) (s : Sheet) (n : Nat) : Finset String :=
  s.names.toFinset.filter fun x =>
    ¬ Rests sim (fun _ => sim.room) s.formulas (s.afterSweeps sim (n + 1)) x

section
variable (h : s.Reachable) (enough : s.prepared.StraysFit sim.room)
include h enough

theorem turned_afterSweeps (n : Nat) : Turned sim (fun _ => sim.room) s.formulas
    (s.afterSweeps sim n) (s.afterSweeps sim (n + 1)) := by
  have round := round_afterSweeps h enough n
  refine ⟨round.later, fun x there => round.fresh x (Sheet.mem_order.2 ?_)⟩
  rw [Sheet.names_prepared]
  exact Sheet.isSome_formulas.1 there

/-- After the first sweep all cells have been reached. -/
theorem steady_afterSweeps (n : Nat) :
    Steady sim (fun _ => sim.room) s.formulas (s.afterSweeps sim (n + 1)) := by
  have midway : Midway s.formulas s.prepared := midway_afterSweeps sim h 0
  have later := later_afterSweeps h enough (n + 1)
  refine ⟨midway_afterSweeps sim h (n + 1), (Coherent.prepared s).later midway later,
    (Uniform.prepared s).later midway later, fun x there => ?_⟩
  obtain ⟨m, first, rest, fresh⟩ := (turned_afterSweeps h enough n).fresh x there
  have midway_m := first.midway (midway_afterSweeps sim h n)
  rw [← midway_m.formulas] at there
  obtain ⟨c, here⟩ := Roster.mem_names.1 (Sheet.isSome_formulas.1 there)
  exact Sheet.Processed.steps (rest.moves midway_m).steps
    ⟨c, here, Cell.processed_of_fresh (fresh c here)⟩

theorem mem_moving {n : Nat} : x ∈ moving sim s n ↔
    ¬ Rests sim (fun _ => sim.room) s.formulas (s.afterSweeps sim (n + 1)) x := by
  classical
  rw [moving, Finset.mem_filter, List.mem_toFinset, and_iff_right_iff_imp]
  intro moves
  refine Sheet.isSome_formulas.1 (by_contra fun absent => moves ?_)
  exact (steady_afterSweeps h enough n).rests_of_free fun stuck => absent stuck.1

theorem moving_subset (n : Nat) : moving sim s (n + 1) ⊆ moving sim s n := fun _ mem =>
  (mem_moving h enough).2 fun rests => (mem_moving h enough).1 mem
    (rests.later (turned_afterSweeps h enough (n + 1)).later)

/-- If no cell lies on two cycles, each sweep leaves one moving cell less. -/
theorem card_moving_le (unshared : s.formulas.Unshared) (n : Nat) :
    (moving sim s n).card ≤ Roster.size s - n := by
  classical
  refine card_le_of_fewer ?_ (moving_subset h enough) (fun n ⟨y, mem⟩ => ?_) n
  · calc (moving sim s 0).card
        ≤ s.names.toFinset.card := Finset.card_filter_le _ _
      _ ≤ s.names.length := List.toFinset_card_le _
      _ = Roster.size s := List.length_map _
  · obtain ⟨z, moves, rests⟩ := (turned_afterSweeps h enough (n + 1)).rests_one unshared
      (steady_afterSweeps h enough n) ⟨y, (mem_moving h enough).1 mem⟩
    exact ⟨z, (mem_moving h enough).2 moves, fun still => (mem_moving h enough).1 still rests⟩

/-- If no cell lies on two cycles, all cells rest after one more sweep than there are cells. -/
theorem rests_afterSweeps (unshared : s.formulas.Unshared) (x : String) :
    Rests sim (fun _ => sim.room) s.formulas (s.afterSweeps sim (Roster.size s + 1)) x := by
  have none := card_moving_le h enough unshared (Roster.size s)
  rw [Nat.sub_self, Nat.le_zero, Finset.card_eq_zero] at none
  by_contra moves
  exact Finset.notMem_empty x (none ▸ (mem_moving h enough).2 moves)

/-- A sweep of cells that rest changes nothing and leaves none stale. -/
theorem sweep_of_rests (n : Nat)
    (rest : ∀ x, Rests sim (fun _ => sim.room) s.formulas (s.afterSweeps sim (n + 1)) x) :
    (Sheet.sweep sim s.prepared.order (false, s.afterSweeps sim (n + 1))).1 = false ∧
      (s.afterSweeps sim (n + 2)).isSettled = true := by
  have round := round_afterSweeps h enough (n + 1)
  constructor
  · by_contra changed
    obtain ⟨x, grown⟩ := round.reported (Bool.eq_true_of_not_eq_false changed)
    have same := rest x _ round.later
    omega
  · refine Sheet.isSettled_of_fresh fun x known => ?_
    have there : (s.formulas x).isSome := by
      rw [← (midway_afterSweeps sim h (n + 2)).formulas]
      exact Sheet.isSome_formulas.2 known
    exact ((turned_afterSweeps h enough (n + 1)).rests_of_refers (steady_afterSweeps h enough n)
      there fun y _ _ => rest y).2

/-- If no cell lies on two cycles, a recalculation converges, after two more sweeps than there are
cells at most. -/
theorem recalculation_converges (unshared : s.formulas.Unshared) :
    (s.recalculate sim).1.converged = true ∧
      (s.recalculate sim).1.iterations ≤ Roster.size s + 2 := by
  obtain ⟨calm, settled⟩ :=
    sweep_of_rests h enough (Roster.size s) (rests_afterSweeps h enough unshared)
  exact Sheet.converges_by calm settled (by omega)

end

/-! ### Syncing -/

/-- Syncing any sheet with any definitions ends after a limited number of sweeps. If no cell lies on
two cycles and the references that leave the straight cells fit in the room, it converges. -/
theorem sync_converges {s : Sheet} (h : s.Reachable) (sim : Simulation)
    (definitions : Roster (Option String)) (names : Roster String) :
    (s.sync sim definitions names).1.iterations ≤ 2 * definitions.size + 10 ∧
      (Formulas.Unshared definitions.get? →
        (s.rewritten definitions names).prepared.StraysFit sim.room →
          (s.sync sim definitions names).1.converged = true ∧
          (s.sync sim definitions names).1.iterations ≤ definitions.size + 2 ∧
          (s.sync sim definitions names).2.isSettled = true) := by
  have size := s.size_rewritten definitions names
  rw [Sheet.sync_eq]
  refine ⟨size ▸ Sheet.iterations_le sim _, fun unshared enough => ?_⟩
  rw [← s.formulas_rewritten definitions names] at unshared
  obtain ⟨converged, few⟩ := recalculation_converges (h.rewritten definitions names) enough unshared
  exact ⟨converged, size ▸ few, Sheet.isSettled_of_converged converged⟩

/-- Two cells that refer to each other. -/
theorem syncing_of_two_cells :
    let definitions : Roster (Option String) := Roster.ofList [("A", some "B"), ("B", some "A + 1")]
    let sim : Simulation := ⟨5000, ⟨.permuted, some 1, none⟩, 980⟩
    let s : Sheet := Roster.empty
    s.Reachable ∧ Formulas.Unshared definitions.get? ∧
      (s.rewritten definitions Roster.empty).prepared.StraysFit sim.room ∧
      (s.sync sim definitions Roster.empty).1.converged = true ∧
      (s.sync sim definitions Roster.empty).1.iterations ≤ definitions.size + 2 ∧
      (s.sync sim definitions Roster.empty).2.isSettled = true := by
  intro definitions sim s
  have one : ∀ x ∈ definitions.names,
      ∀ y ∈ linksOf (Formula.parse ((definitions.get? x).getD none)),
      ∀ z ∈ linksOf (Formula.parse ((definitions.get? x).getD none)), y = z := by decide +kernel
  have unshared : Formulas.Unshared definitions.get? := by
    rintro x y z ⟨text, e, here, parsed, mem⟩ - ⟨text', e', here', parsed', mem'⟩ -
    have known : x ∈ definitions.names := Roster.mem_names.2 ⟨text, here⟩
    refine one x known y ?_ z ?_
    · rw [here]
      exact Sheet.mem_linksOf.2 ⟨e, parsed, mem⟩
    · rw [here']
      exact Sheet.mem_linksOf.2 ⟨e', parsed', mem'⟩
  have fit : (s.rewritten definitions Roster.empty).prepared.formulas.FitIn sim.room :=
    Formulas.fitIn_of_span_le (fun _ => Sheet.isSome_formulas.1) (by decide +kernel)
  have enough : (s.rewritten definitions Roster.empty).prepared.StraysFit sim.room :=
    fun trail is _ => fit trail is
  have reachable : s.Reachable := .empty
  exact ⟨reachable, unshared, enough,
    (sync_converges reachable sim definitions Roster.empty).2 unshared enough⟩

/-! ### Cells on two cycles -/

theorem Sheet.converged_eq (sim : Simulation) (s : Sheet) : (s.recalculate sim).1.converged =
    (sweeps sim s.prepared.order (sweepLimit s.prepared) 0 s.prepared).2.1 := rfl

/-- The walk of `Sheet.walk`, with the names put in order by insertion. -/
def Sheet.insertionWalk (s : Sheet) : Nat → String → Walk → Walk
  | 0, _, w => w
  | depth + 1, id, w =>
    if id ∈ w.visited then w
    else
      match s.get? id with
      | none => w
      | some c =>
        let w := { w with visited := id :: w.visited }
        let w := (c.dependencies.insertionSort (· ≤ ·)).foldl
          (fun w next => insertionWalk s depth next w) w
        { w with left := id :: w.left }

theorem sortedNames_eq (names : List String) : sortedNames names = names.insertionSort (· ≤ ·) :=
  List.mergeSort_eq_insertionSort (· ≤ ·) names

theorem Sheet.insertionWalk_eq (s : Sheet) (depth : Nat) :
    s.insertionWalk depth = s.walk depth := by
  induction depth with
  | zero => rfl
  | succ depth ih =>
    funext id w
    unfold insertionWalk walk
    by_cases visited : id ∈ w.visited
    · rw [if_pos visited, if_pos visited]
    · rw [if_neg visited, if_neg visited]
      cases s.get? id with
      | none => rfl
      | some c => simp only [ih, sortedNames_eq]

/-- Two cycles that share two cells, with one more cell that reads them: the messages go round, and
the sheet never settles. -/
theorem two_cycles_do_not_converge :
    ¬ ∀ (s : Sheet) (_ : s.Reachable) (sim : Simulation) (definitions : Roster (Option String))
      (names : Roster String), (s.sync sim definitions names).1.converged = true := by
  let definitions : Roster (Option String) :=
    Roster.ofList [("A", some "B + D"), ("C", some "D"), ("D", some "A"), ("B", some "A")]
  let sim : Simulation := ⟨5000, ⟨.permuted, some 1, none⟩, 980⟩
  have order : (Sheet.rewritten Roster.empty definitions Roster.empty).prepared.order =
      ["B", "D", "A", "C"] := by
    rw [Sheet.order]
    simp only [← Sheet.insertionWalk_eq]
    decide +kernel
  have ends : (Sheet.sweeps sim ["B", "D", "A", "C"]
      (Sheet.sweepLimit (Sheet.rewritten Roster.empty definitions Roster.empty).prepared) 0
      (Sheet.rewritten Roster.empty definitions Roster.empty).prepared).2.1 = false := by
    decide +kernel
  intro converges
  have converged := converges Roster.empty .empty sim definitions Roster.empty
  rw [Sheet.sync_eq, Sheet.converged_eq, order, ends] at converged
  cases converged

end MonteCarloSheet
