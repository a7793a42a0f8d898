import MonteCarloSheet.Proofs.Formula.Undrawn
import MonteCarloSheet.Proofs.Samples.Drawn

/-! Ranges with their ends exchanged.

The lesser and the greater of two numbers do not depend on which comes first, as long as
both are numbers or neither is: what may differ then is the sign of a zero, and samples
around one zero are those around the other (`normal_same`). If exactly one end is not a
number, every comparison fails and the first end is taken for both: the range is of that
end alone (`ranges_symmetric`). -/
namespace MonteCarloSheet

open MonteCarloSheet.Random (Generator)

/-! ### Draws that are the same -/

namespace Samples

/-- The same samples with the same generator left, or the same problem. -/
def SameDrawn : Drawn → Drawn → Prop
  | .ok (xs, g), .ok (ys, h) => Same xs ys ∧ g = h
  | .error p, .error q => p = q
  | _, _ => False

theorem SameDrawn.refl (d : Drawn) : SameDrawn d d := by
  rcases d with p | ⟨xs, g⟩
  · rfl
  · exact ⟨same_iff_ranks.2 rfl, rfl⟩

theorem sortedBy_same {f f' : Float → Float} (same : ∀ z, Number.same (f z) (f' z) = true)
    (d : Drawn) : SameDrawn (sortedBy f d) (sortedBy f' d) := by
  rcases d with p | ⟨zs, g⟩
  · rfl
  · exact ⟨ascending_same (same_map zs same), rfl⟩

/-- A number to itself, with a zero of either sign. -/
theorem normal_same {x y : Float} (same : Number.same x y = true) (count : Nat) (g : Generator) :
    SameDrawn (normal x x count g) (normal y y count g) := by
  -- The mean of two zeros is a zero again, and the deviation is the positive zero for both.
  have means : (0 + 0 : Float) / 2.0 = 0 ∧ (-0 + -0 : Float) / 2.0 = -0 := by decide +kernel
  have deviations : (0 - 0 : Float) / centralScore = 0 ∧ (-0 - -0 : Float) / centralScore = 0 := by
    decide +kernel
  have positive : ∀ d : Float, Number.same (0 + d) d = true :=
    @Number.same_zero_add 0 .positive rfl
  have negative : ∀ d : Float, Number.same (-0 + d) d = true :=
    @Number.same_zero_add (-0) .negative rfl
  obtain rfl | ⟨rfl, rfl⟩ | ⟨rfl, rfl⟩ := Number.eq_or_zeros_of_same same
  · exact .refl _
  · simp only [normal, means, deviations]
    exact sortedBy_same (fun z => Number.same_trans (positive _) (Number.same_symm (negative _))) _
  · simp only [normal, means, deviations]
    exact sortedBy_same (fun z => Number.same_trans (negative _) (Number.same_symm (positive _))) _

/-- A range of what is not a number has no numbers. -/
theorem normal_isNaN {x : Float} (nan : x.isNaN = true) {count : Nat} {g g' : Generator}
    {xs : List Float} (h : normal x x count g = .ok (xs, g')) : ∀ z ∈ xs, z.isNaN = true := by
  intro z mem
  obtain ⟨ys, -, rfl⟩ := sortedBy_ok h
  rw [(Number.ascending_perm _).mem_iff] at mem
  obtain ⟨y, -, rfl⟩ := List.mem_map.1 mem
  exact Number.isNaN_add (Number.isNaN_div (Number.isNaN_add nan x) 2.0) _

end Samples

namespace Formula

/-! ### The lesser and the greater of two numbers -/

theorem lesser_of_not_lt {x y : Float} (h : ¬ y < x) : lesser x y = x :=
  if_neg h

theorem greater_of_not_lt {x y : Float} (h : ¬ x < y) : greater x y = x :=
  if_neg h

theorem not_lt_of_isNaN {x y : Float} (h : x.isNaN = true ∨ y.isNaN = true) : ¬ x < y := by
  intro less
  obtain ⟨⟨left, right⟩, -⟩ := Number.lt_iff.1 less
  rw [left, right] at h
  simp at h

/-- Two numbers, or two that are not, can be exchanged unless they are the same. -/
theorem ends_symmetric {x y : Float} (alike : x.isNaN = y.isNaN) :
    (lesser x y = lesser y x ∧ greater x y = greater y x) ∨
      Number.same x y = true ∧ ¬ x < y ∧ ¬ y < x := by
  by_cases less : x < y
  · have notGreater : ¬ y < x := fun greater =>
      (Number.lt_iff.1 less).2.2 (Number.Rank.le_antisymm (Number.lt_iff.1 less).2.1
        (Number.lt_iff.1 greater).2.1)
    exact .inl ⟨(lesser_of_not_lt notGreater).trans (if_pos less).symm,
      (if_pos less).trans (greater_of_not_lt notGreater).symm⟩
  · by_cases more : y < x
    · exact .inl ⟨(if_pos more).trans (lesser_of_not_lt less).symm,
        (greater_of_not_lt less).trans (if_pos more).symm⟩
    · refine .inr ⟨?_, less, more⟩
      cases left : x.isNaN with
      | true => rw [Number.same, left, ← alike, left, Bool.and_self, Bool.or_true]
      | false =>
        have right := alike.symm.trans left
        rw [Number.same_iff]
        by_contra differ
        obtain le | le := Number.Rank.le_total (Number.rank x) (Number.rank y)
        · exact less (Number.lt_iff.2 ⟨⟨left, right⟩, le, differ⟩)
        · exact more (Number.lt_iff.2 ⟨⟨right, left⟩, le, Ne.symm differ⟩)

/-! ### Ranges -/

/-- What a range makes of a draw of samples. -/
def ranged : Samples.Drawn → Except Stop (Option Value × Generator)
  | .ok (xs, g) => .ok (some (.samples xs), g)
  | .error p => .error (.problem p)

/-- The same samples with the same generator left, or the same stop. -/
def SameOutcome : Except Stop (Option Value × Generator) →
    Except Stop (Option Value × Generator) → Prop
  | .ok (some (.samples xs), g), .ok (some (.samples ys), h) => Samples.Same xs ys ∧ g = h
  | .error x, .error y => x = y
  | _, _ => False

theorem sameOutcome_ranged {d e : Samples.Drawn} (h : Samples.SameDrawn d e) :
    SameOutcome (ranged d) (ranged e) := by
  rcases d with p | ⟨xs, g⟩ <;> rcases e with q | ⟨ys, g'⟩
  · exact congrArg Stop.problem h
  · exact h.elim
  · exact h.elim
  · exact h

section
variable {σ : Type} {refer : Nat → String → Answering σ (Option Value)} {count room : Nat}
  {a b : Expr} {x y : Float} {g g₁ g₂ : Generator} {s s₁ s₂ : σ}

/-- The ends of a range are evaluated without a draw. -/
theorem evaluate_range
    (first : evaluate refer count room a g s = (.ok (some (.number x), g₁), s₁))
    (second : evaluate refer count room b g₁ s₁ = (.ok (some (.number y), g₂), s₂)) :
    (evaluate refer count (room + 1) (.range a b) g s).1 =
      ranged (Samples.normal (lesser x y) (greater x y) count g) := by
  have left := evaluate_undrawn a (unsampled_number x) first
  have right := evaluate_undrawn b (unsampled_number y) second
  rw [evaluate, left.followed, right.followed, map_run, drawing_run, spread]
  rcases Samples.normal (lesser x y) (greater x y) count g with p | ⟨xs, g'⟩ <;> rfl

end

/-- Exchanging the ends of a range gives the same samples position by position, or the same stop, if
both ends are numbers or neither is. Otherwise the range is of its first end alone. -/
theorem ranges_symmetric {σ : Type} {refer : Nat → String → Answering σ (Option Value)}
    {count room : Nat} {a b : Expr} {x y : Float} {g g₁ g₂ g₃ g₄ : Generator} {s s₁ s₂ s₃ s₄ : σ}
    (first : evaluate refer count room a g s = (.ok (some (.number x), g₁), s₁))
    (second : evaluate refer count room b g₁ s₁ = (.ok (some (.number y), g₂), s₂))
    (exchanged : evaluate refer count room b g s = (.ok (some (.number y), g₃), s₃))
    (last : evaluate refer count room a g₃ s₃ = (.ok (some (.number x), g₄), s₄)) :
    let forth := (evaluate refer count (room + 1) (.range a b) g s).1
    let back := (evaluate refer count (room + 1) (.range b a) g s).1
    (x.isNaN = y.isNaN → SameOutcome forth back) ∧
      (x.isNaN = true → y.isNaN = false →
        (∀ xs g', forth = .ok (some (.samples xs), g') → ∀ z ∈ xs, z.isNaN = true) ∧
          back = (evaluate refer count (room + 1) (.range (.number y) (.number y)) g s).1) := by
  intro forth back
  have forth_eq : forth = _ := evaluate_range first second
  have back_eq : back = _ := evaluate_range exchanged last
  rw [forth_eq, back_eq]
  refine ⟨fun alike => ?_, fun nan number => ?_⟩
  · obtain ⟨lesser, greater⟩ | ⟨same, less, more⟩ := ends_symmetric alike
    · rw [lesser, greater]
      exact sameOutcome_ranged (.refl _)
    · rw [lesser_of_not_lt more, greater_of_not_lt less, lesser_of_not_lt less,
        greater_of_not_lt more]
      exact sameOutcome_ranged (Samples.normal_same same count g)
  · have below : ¬ y < x := not_lt_of_isNaN (.inr nan)
    have above : ¬ x < y := not_lt_of_isNaN (.inl nan)
    rw [lesser_of_not_lt below, greater_of_not_lt above, lesser_of_not_lt above,
      greater_of_not_lt below]
    refine ⟨fun xs g' h => ?_, ?_⟩
    · rcases drawn : Samples.normal x x count g with p | ⟨ys, g''⟩ <;> rw [drawn] at h <;> cases h
      exact Samples.normal_isNaN nan drawn
    · obtain ⟨room, rfl⟩ : ∃ inner, room = inner + 1 := by
        cases room with
        | zero => rw [evaluate] at first; cases first
        | succ inner => exact ⟨inner, rfl⟩
      have itself : ¬ y < y := fun less => (Number.lt_iff.1 less).2.2 rfl
      have literal : ∀ g s, evaluate refer count (room + 1) (.number y) g s =
          (.ok (some (.number y), g), s) := fun g s => by rw [evaluate]; rfl
      rw [evaluate_range (literal g s) (literal g s), lesser_of_not_lt itself,
        greater_of_not_lt itself]

/-- Two zeros of different sign can be exchanged, a number and what is not a number cannot. -/
theorem ranges_of_zeros_and_of_nan :
    let g := Random.Source.generatorFor ⟨.congruential, some 1, none⟩ []
    let refer : Nat → String → Answering Unit (Option Value) :=
      fun _ _ u => (.ok (some (.number Number.nan)), u)
    let range := fun a b => (evaluate refer 2 3 (.range a b) g ()).1
    (evaluate refer 2 2 (.negation (.number 0)) g () = (.ok (some (.number (-0)), g), ()) ∧
      SameOutcome (range (.number 0) (.negation (.number 0)))
        (range (.negation (.number 0)) (.number 0))) ∧
      Number.nan.isNaN = true ∧
      (∀ xs g', range (.reference "c") (.number 1) = .ok (some (.samples xs), g') →
        ∀ z ∈ xs, z.isNaN = true) ∧
      range (.number 1) (.reference "c") = range (.number 1) (.number 1) := by
  intro g refer range
  have zero : ∀ u, evaluate refer 2 2 (.number 0) g u = (.ok (some (.number 0), g), u) :=
    fun _ => rfl
  have negative : ∀ u, evaluate refer 2 2 (.negation (.number 0)) g u =
      (.ok (some (.number (-0)), g), u) := fun _ => rfl
  have one : ∀ u, evaluate refer 2 2 (.number 1) g u = (.ok (some (.number 1), g), u) :=
    fun _ => rfl
  have gap : ∀ u, evaluate refer 2 2 (.reference "c") g u =
      (.ok (some (.number Number.nan), g), u) := fun _ => rfl
  have nan : Number.nan.isNaN = true := by decide +kernel
  have zeros := ranges_symmetric (zero ()) (negative ()) (negative ()) (zero ())
  have gaps := ranges_symmetric (gap ()) (one ()) (one ()) (gap ())
  exact ⟨⟨negative (), zeros.1 (by decide +kernel)⟩, nan, gaps.2 nan (by decide +kernel)⟩

end Formula

end MonteCarloSheet
