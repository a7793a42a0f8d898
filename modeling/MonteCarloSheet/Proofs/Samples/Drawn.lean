import MonteCarloSheet.Proofs.Number
import MonteCarloSheet.Samples.Distribution

/-! What is drawn.

However a distribution is made, its samples end up in ascending order
(`sortedBy_ascending`). Resampled data are elements of the data (`mem_of_resample`), and
data of the right count are only sorted, without a draw (`resample_of_length`). Samples
that are the same before they are sorted are the same afterwards, position by position
(`ascending_same`). -/
namespace MonteCarloSheet

open MonteCarloSheet.Random (Generator)

/-! ### Draws -/

namespace Random.Generator

theorem element_mem (first : Float) (rest : List Float) (place : Nat) :
    element first rest place ∈ first :: rest := by
  rw [element]
  obtain inside | outside := Nat.lt_or_ge place (first :: rest).length
  · rw [List.getD_eq_getElem _ _ inside]
    exact List.getElem_mem inside
  · rw [List.getD_eq_default _ _ outside]
    exact List.mem_cons_self

/-- What is chosen stands in the data, whatever places the engine draws. -/
theorem mem_of_choices {first : Float} {rest xs : List Float} {n : Nat} {g g' : Generator}
    {x : Float} (h : g.choices first rest n = .ok (xs, g')) (mem : x ∈ xs) : x ∈ first :: rest := by
  rw [choices] at h
  split at h
  · cases h
  · cases h
    obtain ⟨place, -, rfl⟩ := List.mem_map.1 mem
    exact element_mem first rest place

end Random.Generator

/-! ### Samples in order -/

namespace Samples

/-- The samples stand in ascending order, with everything that is not a number at the end. -/
def Ascending (xs : List Float) : Prop :=
  xs.Pairwise fun a b => Number.before a b = true

theorem sortedBy_ok {f : Float → Float} {d : Except Random.Exhausted (List Float × Generator)}
    {xs : List Float} {g : Generator} (h : sortedBy f (drawn d) = .ok (xs, g)) :
    ∃ ys, d = .ok (ys, g) ∧ xs = Number.ascending (ys.map f) := by
  rcases d with e | ⟨ys, g'⟩ <;> cases h
  exact ⟨ys, rfl, rfl⟩

theorem sortedBy_ascending {f : Float → Float}
    {d : Except Random.Exhausted (List Float × Generator)} {xs : List Float} {g : Generator}
    (h : sortedBy f (drawn d) = .ok (xs, g)) : Ascending xs := by
  obtain ⟨ys, -, rfl⟩ := sortedBy_ok h
  exact Number.pairwise_ascending _

theorem resample_ascending {data xs : List Float} {count : Nat} {g g' : Generator}
    (h : resample data count g = .ok (xs, g')) : Ascending xs := by
  cases data with
  | nil => cases h; exact .nil
  | cons first rest =>
    rw [resample] at h
    split at h
    · cases h; exact Number.pairwise_ascending _
    · exact sortedBy_ascending h

/-- Data are resampled to none exactly if there are none, and to the right count otherwise. -/
theorem length_of_resample {data xs : List Float} {count : Nat} {g g' : Generator}
    (h : resample data count g = .ok (xs, g')) : xs.length = if data = [] then 0 else count := by
  cases data with
  | nil => cases h; rfl
  | cons first rest =>
    rw [if_neg (List.cons_ne_nil first rest)]
    rw [resample] at h
    split at h
    next exact =>
      cases h
      rw [Number.length_ascending, exact]
    next =>
      obtain ⟨ys, drawn, rfl⟩ := sortedBy_ok h
      rw [Number.length_ascending, List.length_map, Generator.length_of_choices drawn]

theorem mem_of_resample {data xs : List Float} {count : Nat} {g g' : Generator}
    (h : resample data count g = .ok (xs, g')) : ∀ x ∈ xs, x ∈ data := by
  intro x mem
  cases data with
  | nil => cases h; cases mem
  | cons first rest =>
    rw [resample] at h
    split at h
    · cases h
      exact (Number.ascending_perm _).mem_iff.1 mem
    · obtain ⟨ys, drawn, rfl⟩ := sortedBy_ok h
      rw [List.map_id, (Number.ascending_perm ys).mem_iff] at mem
      exact Generator.mem_of_choices drawn mem

/-- Data of the right count are sorted, whatever the generator. -/
theorem resample_of_length {data : List Float} {count : Nat} (exact : data.length = count)
    (g : Generator) : resample data count g = .ok (Number.ascending data, g) := by
  cases data with
  | nil => rw [resample, Number.ascending, List.mergeSort_nil]
  | cons first rest => rw [resample, if_pos exact]

/-! ### The same samples -/

/-- The samples are the same position by position: equal as numbers, or both not a number. -/
def Same (xs ys : List Float) : Prop :=
  List.Forall₂ (fun x y => Number.same x y = true) xs ys

theorem same_iff_ranks {xs ys : List Float} :
    Same xs ys ↔ xs.map Number.rank = ys.map Number.rank := by
  rw [Same, ← List.forall₂_eq_eq_eq, List.forall₂_map_left_iff, List.forall₂_map_right_iff]
  simp only [Number.same_iff]

theorem same_map {f g : Float → Float} (zs : List Float)
    (same : ∀ z, Number.same (f z) (g z) = true) : Same (zs.map f) (zs.map g) := by
  rw [Same, List.forall₂_map_left_iff, List.forall₂_map_right_iff, List.forall₂_same]
  exact fun z _ => same z

/-- Ranks in order are determined by how often each occurs, so sorting keeps samples the same. -/
theorem ascending_same {xs ys : List Float} (same : Same xs ys) :
    Same (Number.ascending xs) (Number.ascending ys) := by
  rw [same_iff_ranks] at same ⊢
  have sorted : ∀ zs, ((Number.ascending zs).map Number.rank).Pairwise Number.Rank.le := fun zs =>
    List.pairwise_map.2 ((Number.pairwise_ascending zs).imp Number.before_iff.1)
  refine List.Perm.eq_of_pairwise (fun _ _ _ _ => Number.Rank.le_antisymm) (sorted xs) (sorted ys) ?_
  have left := (Number.ascending_perm xs).map Number.rank
  have right := (Number.ascending_perm ys).map Number.rank
  rw [same] at left
  exact left.trans right.symm

end Samples

end MonteCarloSheet
