import Mathlib
import MonteCarloSheet.Number.Order

/-! Numbers that are the same.

Two numbers that compare as the same are equal in every bit, unless both are zero: there
is one way to be not a number, and only the zeros come with both signs
(`eq_or_zeros_of_same`). Adding to a zero keeps a number the same (`same_zero_add`), and what
is not a number stays so in sums and quotients. -/
namespace MonteCarloSheet.Number

open Float.Model (UnpackedFloat)

theorem eq_or_zeros_of_same {a b : Float} (h : same a b = true) :
    a = b ∨ a = 0 ∧ b = -0 ∨ a = -0 ∧ b = 0 := by
  rw [same, Bool.or_eq_true, Bool.and_eq_true, Float.beq_iff_ne_nan_and_eq] at h
  obtain ⟨-, -, equal⟩ | ⟨left, right⟩ := h
  · exact equal
  · rw [Float.isNaN_eq_decide_eq_nan, decide_eq_true_eq] at left right
    exact .inl (left.trans right.symm)

/-- A number is below another one if it ranks lower and neither is not a number. -/
theorem lt_iff {a b : Float} :
    a < b ↔ (a.isNaN = false ∧ b.isNaN = false) ∧ (rank a).le (rank b) ∧ rank a ≠ rank b := by
  have unfolded : a < b ↔ (a.toModel.unpack.compare b.toModel.unpack == some .lt) = true := by
    rw [show (a < b) = (decide (a.toModel < b.toModel) = true) from rfl, decide_eq_true_eq]
    rfl
  rw [unfolded, Rank.compare_unpacked, ← Rank.isLE_order, ne_eq, ← Rank.order_eq_eq,
    ← Bool.or_eq_false_iff]
  change (if (a.isNaN || b.isNaN) = true then none else some ((rank a).order (rank b))) == some .lt ↔
    _
  cases a.isNaN || b.isNaN
  · rw [if_neg Bool.false_ne_true]
    cases (rank a).order (rank b) <;> simp
  · simp

/-! ### Arithmetic with zeros and with what is not a number -/

theorem isNaN_iff_unpack {a : Float} : a.isNaN = true ↔ a.toModel.unpack = .notANumber :=
  UnpackedFloat.isNaN_iff

theorem toModel_add (a b : Float) :
    (a + b).toModel = .pack (.add .binary64 a.toModel.unpack b.toModel.unpack) :=
  rfl

theorem toModel_div (a b : Float) :
    (a / b).toModel = .pack (.div .binary64 a.toModel.unpack b.toModel.unpack) :=
  rfl

theorem isNaN_add {a : Float} (h : a.isNaN = true) (b : Float) : (a + b).isNaN = true := by
  rw [isNaN_iff_unpack] at h ⊢
  rw [toModel_add, h]
  exact UnpackedFloat.unpack_packedNaN

theorem isNaN_div {a : Float} (h : a.isNaN = true) (b : Float) : (a / b).isNaN = true := by
  rw [isNaN_iff_unpack] at h ⊢
  rw [toModel_div, h]
  exact UnpackedFloat.unpack_packedNaN

theorem pack_unpack (a : Float) : Float.Model.pack a.toModel.unpack = a.toModel := by
  obtain ⟨⟨x, valid⟩⟩ := a
  have bits : UnpackedFloat.pack .binary64 (UnpackedFloat.unpack .binary64 x.toBitVec) =
      x.toBitVec := UnpackedFloat.pack_unpack_of_valid valid
  change (⟨⟨UnpackedFloat.pack .binary64 (.unpack .binary64 x.toBitVec)⟩, _⟩ : Float.Model) = _
  simp only [bits]

/-- Adding to a zero changes at most the sign of another zero. -/
theorem same_zero_add {z : Float} {sign : UnpackedFloat.Sign}
    (zero : z.toModel.unpack = .zero sign) (d : Float) : same (z + d) d = true := by
  have kept : UnpackedFloat.add .binary64 (.zero sign) d.toModel.unpack = d.toModel.unpack →
      rank (z + d) = rank d := by
    intro added
    rw [rank, rank, toModel_add, zero, added, pack_unpack]
  rw [same_iff]
  cases unpacked : d.toModel.unpack with
  | notANumber => exact kept (by rw [unpacked]; rfl)
  | infinity t => exact kept (by rw [unpacked]; rfl)
  | finite => exact kept (by rw [unpacked]; rfl)
  | zero t =>
    rw [rank, rank, toModel_add, zero, unpacked, UnpackedFloat.add]
    change Rank.ofUnpacked (.unpack .binary64 (UnpackedFloat.pack .binary64 _)) = _
    split <;> rw [UnpackedFloat.pack, UnpackedFloat.unpack_packedZero] <;> rfl

end MonteCarloSheet.Number
