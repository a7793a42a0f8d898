import Mathlib.Data.Finset.Card
import MonteCarloSheet.Proofs.Sheet.Converged
import MonteCarloSheet.Proofs.Sheet.Resting

/-! Sheets without cycles converge.

A cell is grounded if it is fresh and all that it reads is grounded. Evaluations leave
grounded cells as they are (`Grounded.moves`), and a sweep grounds a cell if all that
its formula refers to is grounded (`grounded_of_sweep`). Where no references go round in
a cycle there is such a cell as long as not all are grounded, so after as many sweeps as
there are cells all are, and the recalculation converges, however little room there is
(`acyclic_converges`). -/
namespace MonteCarloSheet

/-! ### Grounded cells -/

/-- The cell is fresh, and so are the cells that it reads, and those that they read. -/
inductive Grounded (s : Sheet) : String → Prop where
  | mk {x : String} (fresh : s.Fresh x) (reads : ∀ y ∈ s.dependencies x, Grounded s y) :
      Grounded s x

variable {sim : Simulation} {F : Formulas} {S : String → Prop} {s t : Sheet} {x : String}

theorem Grounded.fresh (h : Grounded s x) : s.Fresh x := by
  obtain ⟨fresh, -⟩ := h
  exact fresh

theorem grounded_of_absent (absent : s.get? x = none) : Grounded s x := by
  refine .mk (fun c here => ?_) fun y link => ?_
  · cases absent.symm.trans here
  · rw [Sheet.dependencies_of_absent absent] at link
    cases link

/-- Evaluations leave a grounded cell as it is. -/
theorem Grounded.moves (h : Grounded s x) (moves : Moves S s.idle t.idle) :
    s.Same t x ∧ Grounded t x := by
  induction h with
  | @mk x fresh reads ih =>
    have same : s.Same t x := moves.fresh x List.not_mem_nil fresh fun y link _ =>
      (ih y link).1.still.version
    refine ⟨same, same.fresh.2 fresh, fun y link => (ih y ?_).2⟩
    rw [same.still.dependencies] at link
    exact link

/-- A fresh cell is grounded if all that its formula refers to is. -/
theorem Midway.grounded (h : Midway F s) (fresh : s.Fresh x)
    (refs : ∀ y, F.Refers x y → Grounded s y) : Grounded s x := by
  cases here : s.get? x with
  | none => exact grounded_of_absent here
  | some c =>
    refine .mk fresh fun y link => refs y ?_
    exact (h.mem_dependencies ⟨c, here, Cell.processed_of_fresh (fresh c here)⟩).1 link

/-- A sweep grounds a cell if all that its formula refers to is grounded. -/
theorem grounded_of_sweep (sim : Simulation) {order : List String} (midway : Midway F s)
    (readable : s.idle.Readable) (refs : ∀ y, F.Refers x y → Grounded s y)
    (visited : x ∈ s.names → x ∈ order) :
    Grounded (Sheet.sweep sim order (false, s)).2 x := by
  suffices kept : Moves Anything s.idle (Sheet.sweep sim order (false, s)).2.idle ∧
      (Sheet.sweep sim order (false, s)).2.idle.Readable ∧
      (x ∈ order → Grounded (Sheet.sweep sim order (false, s)).2 x) by
    obtain ⟨moves, -, grounded⟩ := kept
    by_cases known : x ∈ s.names
    · exact grounded (visited known)
    · refine grounded_of_absent (by_contra fun here => known ?_)
      rw [← names_steps moves.steps]
      exact Roster.mem_names.2 (Option.ne_none_iff_exists'.1 here)
  refine Sheet.sweep_induct (I := fun passed _ t => Moves Anything s.idle t.idle ∧
    t.idle.Readable ∧ (x ∈ passed → Grounded t x)) ?_ ?_
    ⟨.refl _ _, readable, fun absurd => (List.not_mem_nil absurd).elim⟩
  · intro before id after flag t _ ⟨moves, readable, grounded⟩ fresh
    refine ⟨moves, readable, fun mem => ?_⟩
    rcases List.mem_append.1 mem with mem | self
    · exact grounded mem
    · rw [List.mem_singleton.1 self] at refs ⊢
      exact (midway.steps moves.steps).grounded fresh fun y refers => ((refs y refers).moves moves).2
  · intro before id after flag t c _ ⟨moves, readable, grounded⟩ here stale
    have midway_t := midway.steps moves.steps
    obtain ⟨further, after, fresh⟩ :=
      reevaluateAlone_moves sim midway_t.underway.tied readable here stale
    have all := moves.trans further
    refine ⟨all, after, fun mem => ?_⟩
    rcases List.mem_append.1 mem with mem | self
    · exact ((grounded mem).moves further).2
    · rw [List.mem_singleton.1 self] at refs ⊢
      exact (midway.steps all.steps).grounded fresh fun y refers => ((refs y refers).moves all).2

/-! ### One more cell in each sweep -/

/-- Of finite sets that lose an element each as long as there is one, all are gone in time. -/
theorem card_le_of_fewer {α : Type} {sets : Nat → Finset α} {size : Nat}
    (start : (sets 0).card ≤ size) (fewer : ∀ n, sets (n + 1) ⊆ sets n)
    (less : ∀ n, (sets n).Nonempty → ∃ z ∈ sets n, z ∉ sets (n + 1)) (n : Nat) :
    (sets n).card ≤ size - n := by
  induction n with
  | zero => exact start
  | succ n ih =>
    rcases (sets n).eq_empty_or_nonempty with none | some_
    · have := Finset.card_le_card (fewer n)
      rw [none, Finset.card_empty] at this
      omega
    · obtain ⟨z, mem, gone⟩ := less n some_
      have := Finset.card_lt_card ((Finset.ssubset_iff_of_subset (fewer n)).2 ⟨z, mem, gone⟩)
      omega

open Classical in
/-- The cells that are not grounded after so many sweeps. -/
noncomputable def afloat (sim : Simulation) (s : Sheet) (n : Nat) : Finset String :=
  s.names.toFinset.filter fun x => ¬ Grounded (s.afterSweeps sim n) x

section
variable (h : s.Reachable)
include h

theorem mem_afloat {n : Nat} : x ∈ afloat sim s n ↔ ¬ Grounded (s.afterSweeps sim n) x := by
  classical
  rw [afloat, Finset.mem_filter, List.mem_toFinset, and_iff_right_iff_imp]
  intro floats
  by_contra absent
  refine floats (grounded_of_absent (by_contra fun here => absent ?_))
  rw [← Sheet.names_prepared, ← names_steps (unmoved_afterSweeps sim h n).steps]
  exact Roster.mem_names.2 (Option.ne_none_iff_exists'.1 here)

theorem moves_afterSweeps (n : Nat) :
    Moves Anything (s.afterSweeps sim n).idle (s.afterSweeps sim (n + 1)).idle := by
  have unmoved := unmoved_afterSweeps sim h n
  exact (sweep_moves sim _ (midway_afterSweeps sim h n).underway.tied unmoved.readable).1

theorem afloat_subset (n : Nat) : afloat sim s (n + 1) ⊆ afloat sim s n := fun _ mem =>
  (mem_afloat h).2 fun grounded => (mem_afloat h).1 mem (grounded.moves (moves_afterSweeps h n)).2

/-- Without cycles, one more cell is grounded after each sweep. -/
theorem exists_grounded (acyclic : s.formulas.Acyclic) (n : Nat)
    (some_ : (afloat sim s n).Nonempty) : ∃ x ∈ afloat sim s n, x ∉ afloat sim s (n + 1) := by
  have known : ∀ x, x ∈ afloat sim s n → x ∈ (afloat sim s n).toList := fun x =>
    Finset.mem_toList.2
  obtain ⟨x, floats, last⟩ := s.formulas.exists_last known some_
  refine ⟨x, floats, fun mem => (mem_afloat h).1 mem ?_⟩
  refine grounded_of_sweep sim (midway_afterSweeps sim h n)
    (unmoved_afterSweeps sim h n).readable (fun y refers => ?_) fun known => Sheet.mem_order.2 ?_
  · by_contra floats_y
    have back := last y ((mem_afloat h).2 floats_y) (.single refers)
    exact acyclic x (.head' refers back)
  · rwa [← names_steps (unmoved_afterSweeps sim h n).steps]

/-- Without cycles, all cells are grounded after as many sweeps as there are cells. -/
theorem grounded_afterSweeps (acyclic : s.formulas.Acyclic) (x : String) :
    Grounded (s.afterSweeps sim (Roster.size s)) x := by
  classical
  have start : (afloat sim s 0).card ≤ Roster.size s := by
    calc (afloat sim s 0).card
        ≤ s.names.toFinset.card := Finset.card_filter_le _ _
      _ ≤ s.names.length := List.toFinset_card_le _
      _ = Roster.size s := List.length_map _
  have none := card_le_of_fewer start (afloat_subset h) (exists_grounded h acyclic) (Roster.size s)
  rw [Nat.sub_self, Nat.le_zero, Finset.card_eq_zero] at none
  by_contra floats
  exact Finset.notMem_empty x (none ▸ (mem_afloat h).2 floats)

end

/-! ### The last sweep -/

namespace Sheet

theorem size_prepared (s : Sheet) : Roster.size s.prepared = Roster.size s := by
  have lengths := congrArg List.length (names_prepared s)
  rwa [Roster.names, Roster.names, List.length_map, List.length_map] at lengths

/-- If a sweep that a recalculation may take changes nothing and leaves no cell to reevaluate, it is
the last one, if none before it is. -/
theorem converges_by {n : Nat}
    (calm : (sweep sim s.prepared.order (false, s.afterSweeps sim n)).1 = false)
    (settled : (s.afterSweeps sim (n + 1)).isSettled = true) (few : n < 2 * Roster.size s + 10) :
    (s.recalculate sim).1.converged = true ∧ (s.recalculate sim).1.iterations ≤ n + 1 := by
  have go : ∀ left done, done ≤ n → n < done + left →
      (sweeps sim s.prepared.order left done (s.afterSweeps sim done)).2.1 = true ∧
        (sweeps sim s.prepared.order left done (s.afterSweeps sim done)).1 ≤ n + 1 := by
    intro left
    induction left with
    | zero => intro done early late; omega
    | succ left ih =>
      intro done early late
      rw [sweeps]
      dsimp only
      split
      next => exact ⟨rfl, by omega⟩
      next further =>
        by_cases end_ : done = n
        · subst end_
          refine (further ?_).elim
          rw [calm]
          exact settled
        · exact ih (done + 1) (by omega) (by omega)
  have limit : n < 0 + sweepLimit s.prepared := by
    rw [sweepLimit, size_prepared]
    omega
  exact go (sweepLimit s.prepared) 0 (Nat.zero_le _) limit

/-- A sweep passes over fresh cells. -/
theorem sweep_of_fresh (sim : Simulation) (order : List String) (fresh : ∀ x, s.Fresh x) :
    sweep sim order (false, s) = (false, s) := by
  induction order with
  | nil => rfl
  | cons id rest ih =>
    rw [sweep]
    cases here : s.get? id with
    | none => exact ih
    | some c =>
      dsimp only
      rw [fresh id c here]
      exact ih

end Sheet

/-- Without cycles a recalculation converges, however little room there is, after one more sweep
than there are cells at most. -/
theorem acyclic_converges (sim : Simulation) (h : s.Reachable) (acyclic : s.formulas.Acyclic) :
    (s.recalculate sim).1.converged = true ∧
      (s.recalculate sim).1.iterations ≤ Roster.size s + 1 := by
  have fresh : ∀ x, (s.afterSweeps sim (Roster.size s)).Fresh x := fun x =>
    (grounded_afterSweeps h acyclic x).fresh
  have last := Sheet.sweep_of_fresh sim s.prepared.order fresh
  refine Sheet.converges_by (n := Roster.size s) ?_ ?_ (by omega)
  · rw [last]
  · rw [Sheet.afterSweeps, last]
    exact Sheet.isSettled_of_fresh fun x _ => fresh x

end MonteCarloSheet
