import MonteCarloSheet.Number.Order

/-! Histograms of samples.

The finite samples fall into bins of equal width between the least and the
greatest of them; equal samples share a single bin. The number of bins is the
Terrell-Scott count, the cube root of twice the sample count rounded up. A
quotient that is no place among the bins, because the width vanishes or
overflows, counts in the first bin, and one past the last bin in the last. -/
namespace MonteCarloSheet.Samples

/-! ### The bin count -/

/-- The number of bins for a sample count, never less than one. -/
def binCount (n : Int) : Nat :=
  if n ≤ 1 then 1 else max 1 (2 * n.toNat).toFloat.cbrt.ceil.toUInt64.toNat

/-- The first sample count whose double takes more than 64 bits. -/
def countLimit : Int := 9223372036854775808

/-- The number of bins, which only a sample count below the limit has. -/
def binCount? (n : Int) : Option Nat :=
  if n < countLimit then some (binCount n) else none

/-! ### Bins -/

/-- A bin from `lower` to `upper` with its number of samples. -/
structure Bin where
  lower : Float
  upper : Float
  frequency : Nat

/-- The place of a quotient among `bins` bins. -/
def placeOf (bins : Nat) (quotient : Float) : Nat :=
  if quotient < 9223372036854775808.0 then min quotient.toUInt64.toNat (bins - 1) else 0

/-- Bins between two different numbers, counted from the given places. -/
def binsFrom (bins : Nat) (low width : Float) (places : List Nat) : List Bin :=
  (List.range bins).map fun i =>
    ⟨low + i.toFloat * width, low + (i + 1).toFloat * width, places.count i⟩

/-- The histogram of ascending finite samples. -/
def histogramOf (bins : Nat) : List Float → List Bin
  | [] => []
  | low :: rest =>
    let xs := low :: rest
    let high := rest.getLastD low
    if low == high then [⟨low, high, xs.length⟩]
    else
      let width := (high - low) / bins.toFloat
      binsFrom bins low width (xs.map fun x => placeOf bins ((x - low) / width))

/-- The samples that a histogram counts, in ascending order. -/
def finiteAscending (xs : List Float) : List Float :=
  (Number.ascending xs).filter Float.isFinite

def histogram (bins : Nat) (xs : List Float) : List Bin :=
  histogramOf bins (finiteAscending xs)

/-- The histogram with the bin count that the number of finite samples calls for. -/
def histogramByRule (xs : List Float) : List Bin :=
  let finite := finiteAscending xs
  histogramOf (binCount finite.length) finite

/-- A number of bins that no histogram of unequal samples can have. -/
inductive BinCountError where
  | zero
  | negative
deriving DecidableEq, Repr

/-- The histogram with any requested number of bins; the request matters only for unequal
samples. -/
def histogramWith (bins : Int) (xs : List Float) : Except BinCountError (List Bin) :=
  match finiteAscending xs with
  | [] => .ok []
  | low :: rest =>
    if low == rest.getLastD low then .ok (histogramOf 1 (low :: rest))
    else if bins = 0 then .error .zero
    else if bins < 0 then .error .negative
    else .ok (histogramOf bins.toNat (low :: rest))

end MonteCarloSheet.Samples
