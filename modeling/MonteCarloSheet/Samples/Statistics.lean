import MonteCarloSheet.Number.Order

/-! Mean and interval of samples.

The mean divides a pairwise sum: short lists are added in order, lists up to 128
samples in eight interleaved lanes, and longer ones half by half, which keeps
the rounding error small. The interval holds the central ninety percent of
ascending samples, from the place at one twentieth of their count, rounded down,
to the place before nineteen twentieths, rounded up. -/
namespace MonteCarloSheet.Samples

/-! ### Sums -/

/-- Eight running sums. -/
structure Lanes where
  a : Float
  b : Float
  c : Float
  d : Float
  e : Float
  f : Float
  g : Float
  h : Float

def Lanes.total (l : Lanes) : Float :=
  ((l.a + l.b) + (l.c + l.d)) + ((l.e + l.f) + (l.g + l.h))

/-- Adds whole blocks of eight to the lanes, then the rest to their total. -/
def Lanes.add (l : Lanes) : List Float → Float
  | x₀ :: x₁ :: x₂ :: x₃ :: x₄ :: x₅ :: x₆ :: x₇ :: rest =>
    Lanes.add ⟨l.a + x₀, l.b + x₁, l.c + x₂, l.d + x₃, l.e + x₄, l.f + x₅, l.g + x₆, l.h + x₇⟩ rest
  | rest => rest.foldl (· + ·) l.total

/-- The sum of at most 128 samples. -/
def blockSum : List Float → Float
  | x₀ :: x₁ :: x₂ :: x₃ :: x₄ :: x₅ :: x₆ :: x₇ :: rest =>
    Lanes.add ⟨x₀, x₁, x₂, x₃, x₄, x₅, x₆, x₇⟩ rest
  | xs => xs.foldl (· + ·) (-0.0)

/-- Where a long list is cut: the last multiple of eight up to the middle. -/
def cut (n : Nat) : Nat :=
  n / 2 - n / 2 % 8

theorem cut_pos {n : Nat} (h : 128 < n) : 0 < cut n := by
  unfold cut; omega

theorem cut_lt {n : Nat} (h : 128 < n) : cut n < n := by
  unfold cut; omega

def pairwiseSum (xs : List Float) : Float :=
  if xs.length ≤ 128 then blockSum xs
  else pairwiseSum (xs.take (cut xs.length)) + pairwiseSum (xs.drop (cut xs.length))
termination_by xs.length
decreasing_by
  all_goals
    have long : 128 < xs.length := by omega
    have := cut_pos long
    have := cut_lt long
    simp only [List.length_take, List.length_drop]
    omega

def mean (xs : List Float) : Float :=
  (0.0 + pairwiseSum xs) / xs.length.toFloat

/-! ### The interval -/

structure Interval where
  lower : Float
  upper : Float

/-- The place of the lower end among `n` samples: `n / 20`, rounded down. -/
def lowerPlace (n : Nat) : Nat :=
  n / 20

/-- The place of the upper end among `n` samples: one before `19 * n / 20`, rounded up. -/
def upperPlace (n : Nat) : Nat :=
  (19 * n + 19) / 20 - 1

theorem lowerPlace_lt {n : Nat} (h : 0 < n) : lowerPlace n < n := by
  unfold lowerPlace; omega

theorem upperPlace_lt {n : Nat} (h : 0 < n) : upperPlace n < n := by
  unfold upperPlace; omega

theorem lowerPlace_le_upperPlace (n : Nat) : lowerPlace n ≤ upperPlace n := by
  unfold lowerPlace upperPlace; omega

structure Summary where
  mean : Float
  interval : Interval

/-- The summary of samples that are ascending already; no samples have none. -/
def summary? (xs : List Float) : Option Summary :=
  if h : 0 < xs.length then
    some ⟨mean xs, xs.get ⟨_, lowerPlace_lt h⟩, xs.get ⟨_, upperPlace_lt h⟩⟩
  else none

theorem summary?_nil : summary? [] = none := rfl

theorem summary?_isSome {xs : List Float} : (summary? xs).isSome ↔ xs ≠ [] := by
  cases xs <;> simp [summary?]

/-- The summary of samples in any order. -/
def summaryOf (xs : List Float) : Option Summary :=
  summary? (Number.ascending xs)

end MonteCarloSheet.Samples
