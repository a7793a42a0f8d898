/-! Ranks of numbers.

A number ranks by its class, then by its exponent, then by its significand, both
turned round below zero. The two zeros share a rank, and what is not a number
ranks above everything. Comparing numbers is comparing their ranks
(`compare_unpacked`), which makes the comparison of doubles a total order. -/
namespace MonteCarloSheet.Number

open Float.Model (UnpackedFloat)

structure Rank where
  side : Int
  exponent : Int
  significand : Int

namespace Rank

def order (p q : Rank) : Ordering :=
  (compare p.side q.side).then
    ((compare p.exponent q.exponent).then (compare p.significand q.significand))

def le (p q : Rank) : Prop :=
  p.side < q.side ∨ p.side = q.side ∧
    (p.exponent < q.exponent ∨ p.exponent = q.exponent ∧ p.significand ≤ q.significand)

theorem isLE_order {p q : Rank} : (p.order q).isLE = true ↔ p.le q := by
  rw [order, Ordering.isLE_then_iff_or, Ordering.isLE_then_iff_or, Int.compare_eq_lt,
    Int.compare_eq_eq, Int.compare_eq_lt, Int.compare_eq_eq, Int.isLE_compare]
  rfl

theorem order_eq_eq {p q : Rank} : p.order q = .eq ↔ p = q := by
  rw [order, Ordering.then_eq_eq, Ordering.then_eq_eq, Int.compare_eq_eq, Int.compare_eq_eq,
    Int.compare_eq_eq]
  cases p; cases q
  exact (Rank.mk.injEq ..).symm.to_iff

theorem le_total (p q : Rank) : p.le q ∨ q.le p := by
  unfold le; omega

theorem le_trans {p q r : Rank} (h : p.le q) (k : q.le r) : p.le r := by
  unfold le at *; omega

theorem le_antisymm {p q : Rank} (h : p.le q) (k : q.le p) : p = q := by
  cases p
  cases q
  simp only [le, mk.injEq] at *
  omega

/-! ### The rank of a number -/

def ofUnpacked : UnpackedFloat → Rank
  | .infinity .negative => ⟨-2, 0, 0⟩
  | .finite .negative m e _ => ⟨-1, -e, -m⟩
  | .zero _ => ⟨0, 0, 0⟩
  | .finite .positive m e _ => ⟨1, e, m⟩
  | .infinity .positive => ⟨2, 0, 0⟩
  | .notANumber => ⟨3, 0, 0⟩

theorem compare_neg (a b : Int) : compare (-a) (-b) = (compare a b).swap := by
  rw [Int.compare_swap, Int.compare_eq_ite_lt, Int.compare_eq_ite_lt]
  simp only [Int.neg_lt_neg_iff]

theorem compare_ofNat (m n : Nat) : compare (m : Int) (n : Int) = compare m n := by
  rw [Int.compare_eq_ite_lt, Nat.compare_eq_ite_lt]
  simp only [Int.ofNat_lt]

/-- Numbers are compared by their ranks. -/
theorem compare_unpacked (a b : UnpackedFloat) :
    a.compare b =
      if a.isNaN || b.isNaN then none else some ((ofUnpacked a).order (ofUnpacked b)) := by
  rcases a with (_ | _) | _ | (_ | _) | ⟨_ | _, m, e, _⟩ <;>
    rcases b with (_ | _) | _ | (_ | _) | ⟨_ | _, n, d, _⟩
  all_goals first | rfl | skip
  · refine congrArg some ?_
    change _ = (compare (-1) (-1)).then ((compare (-e) (-d)).then (compare (-(m : Int)) (-n)))
    rw [compare_neg e, compare_neg (m : Int), compare_ofNat, Ordering.swap_then]
    rfl
  · refine congrArg some ?_
    change _ = (compare 1 1).then ((compare e d).then (compare (m : Int) n))
    rw [compare_ofNat]
    rfl

/-- What is not a number has a rank of its own, above all others. -/
theorem isNaN_cases (a : UnpackedFloat) :
    a.isNaN = true ∧ ofUnpacked a = ⟨3, 0, 0⟩ ∨ a.isNaN = false ∧ (ofUnpacked a).side < 3 := by
  rcases a with (_ | _) | _ | (_ | _) | ⟨_ | _, m, e, _⟩
  · exact .inr ⟨rfl, (by decide : (-2 : Int) < 3)⟩
  · exact .inr ⟨rfl, (by decide : (2 : Int) < 3)⟩
  · exact .inl ⟨rfl, rfl⟩
  · exact .inr ⟨rfl, (by decide : (0 : Int) < 3)⟩
  · exact .inr ⟨rfl, (by decide : (0 : Int) < 3)⟩
  · exact .inr ⟨rfl, (by decide : (-1 : Int) < 3)⟩
  · exact .inr ⟨rfl, (by decide : (1 : Int) < 3)⟩

theorem le_unpacked_iff (a b : UnpackedFloat) :
    (b.isNaN || a.le b) = true ↔ (ofUnpacked a).le (ofUnpacked b) := by
  rw [show a.le b = (a.compare b).any (·.isLE) from rfl, compare_unpacked]
  rcases isNaN_cases a with ⟨ha, ra⟩ | ⟨ha, ra⟩ <;> rcases isNaN_cases b with ⟨hb, rb⟩ | ⟨hb, rb⟩
  · simp [hb, ra, rb, le]
  · simp [ha, hb, ra, le]
    omega
  · simp [hb, rb, le, ra]
  · simp [ha, hb, isLE_order]

theorem same_unpacked_iff (a b : UnpackedFloat) :
    (a.beq b || (a.isNaN && b.isNaN)) = true ↔ ofUnpacked a = ofUnpacked b := by
  rw [show a.beq b = (a.compare b == some .eq) from rfl, compare_unpacked]
  rcases isNaN_cases a with ⟨ha, ra⟩ | ⟨ha, ra⟩ <;> rcases isNaN_cases b with ⟨hb, rb⟩ | ⟨hb, rb⟩
  · simp [ha, hb, ra, rb]
  · have : ofUnpacked a ≠ ofUnpacked b := fun h => by
      rw [← h, ra] at rb
      exact absurd rb (by decide)
    simp [ha, hb, this]
  · have : ofUnpacked a ≠ ofUnpacked b := fun h => by
      rw [h, rb] at ra
      exact absurd ra (by decide)
    simp [ha, hb, this]
  · simp [ha, hb, order_eq_eq]

end Rank

def rank (x : Float) : Rank :=
  .ofUnpacked x.toModel.unpack

end MonteCarloSheet.Number
