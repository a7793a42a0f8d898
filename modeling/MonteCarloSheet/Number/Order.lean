import MonteCarloSheet.Number.Rank

/-! The order of samples.

Samples stand in ascending order with everything that is not a number at the
end. The sort is stable, so two zeros of different sign keep their places. A
sample may stand before another exactly when its rank is no greater
(`before_iff`), and two are the same exactly when they have one rank
(`same_iff`). -/
namespace MonteCarloSheet.Number

/-- Whether `a` may stand before `b`. -/
def before (a b : Float) : Bool :=
  b.isNaN || decide (a ≤ b)

def ascending (xs : List Float) : List Float :=
  xs.mergeSort before

theorem ascending_perm (xs : List Float) : (ascending xs).Perm xs :=
  List.mergeSort_perm xs before

theorem length_ascending (xs : List Float) : (ascending xs).length = xs.length :=
  (ascending_perm xs).length_eq

theorem le_eq_unpacked (a b : Float) : decide (a ≤ b) = a.toModel.unpack.le b.toModel.unpack := by
  have unfolded : (a ≤ b) = (decide (a.toModel ≤ b.toModel) = true) := rfl
  simp only [unfolded, Bool.decide_eq_true]
  exact Bool.decide_eq_true

theorem before_iff {a b : Float} : before a b = true ↔ (rank a).le (rank b) := by
  rw [before, le_eq_unpacked]
  exact Rank.le_unpacked_iff a.toModel.unpack b.toModel.unpack

theorem before_total (a b : Float) : (before a b || before b a) = true := by
  rw [Bool.or_eq_true, before_iff, before_iff]
  exact Rank.le_total _ _

theorem before_trans (a b c : Float) (h : before a b = true) (k : before b c = true) :
    before a c = true :=
  before_iff.2 (Rank.le_trans (before_iff.1 h) (before_iff.1 k))

theorem pairwise_ascending (xs : List Float) :
    (ascending xs).Pairwise fun a b => before a b = true :=
  List.pairwise_mergeSort before_trans before_total xs

/-- Equal as numbers, or both not a number. -/
def same (a b : Float) : Bool :=
  a == b || (a.isNaN && b.isNaN)

theorem same_iff {a b : Float} : same a b = true ↔ rank a = rank b :=
  Rank.same_unpacked_iff a.toModel.unpack b.toModel.unpack

theorem same_refl (a : Float) : same a a = true :=
  same_iff.2 rfl

theorem same_symm {a b : Float} (h : same a b = true) : same b a = true :=
  same_iff.2 (same_iff.1 h).symm

theorem same_trans {a b c : Float} (h : same a b = true) (k : same b c = true) :
    same a c = true :=
  same_iff.2 ((same_iff.1 h).trans (same_iff.1 k))

end MonteCarloSheet.Number
