import MonteCarloSheet.Number.Order
import MonteCarloSheet.Problem
import MonteCarloSheet.Random.Generator

/-! Distributions that a formula can declare.

Each makes a given number of samples in ascending order from a generator. The
estimate from a minimum, a likely value and a maximum inverts the triangular
distribution at uniform draws. The normal distribution has its fifth and
ninety-fifth percentiles at the given ends. Resampling draws from inline data
with replacement, unless the data have the right count already. -/
namespace MonteCarloSheet.Samples

open MonteCarloSheet.Random (Generator)

/-- Draws with the generator they leave, or the problem that stopped them. -/
abbrev Drawn := Except Problem (List Float × Generator)

def drawn : Except Random.Exhausted (List Float × Generator) → Drawn
  | .ok r => .ok r
  | .error e => .error (.exhausted e)

/-- Applies a function to every draw and sorts the results. -/
def sortedBy (f : Float → Float) : Drawn → Drawn
  | .ok (xs, g) => .ok (Number.ascending (xs.map f), g)
  | .error p => .error p

/-- The triangular distribution's value at the share `u` of its probability. -/
def triangular (minimum likely maximum u : Float) : Float :=
  let span := maximum - minimum
  let split := (likely - minimum) / span
  if u < split then minimum + (u * span * (likely - minimum)).sqrt
  else maximum - ((1.0 - u) * span * (maximum - likely)).sqrt

/-- The three numbers of an estimate, least first. -/
def inOrder (minimum likely maximum : Float) : Bool :=
  minimum ≤ likely && likely ≤ maximum

/-- Samples of an estimate whose ends differ. -/
def spreadEstimate (minimum likely maximum : Float) (count : Nat) (g : Generator) : Drawn :=
  sortedBy (triangular minimum likely maximum) (drawn (g.uniforms count))

/-- Samples of an estimate; equal ends give that number `count` times. -/
def estimate (minimum likely maximum : Float) (count : Nat) (g : Generator) : Drawn :=
  if !inOrder minimum likely maximum then .error (.estimateOrder minimum likely maximum)
  else if minimum == maximum then .ok (List.replicate count minimum, g)
  else spreadEstimate minimum likely maximum count g

/-- The standard score that bounds the central ninety percent of a normal distribution. -/
def centralScore : Float := 1.645

/-- Samples of the normal distribution with the given fifth and ninety-fifth percentiles. -/
def normal (lower upper : Float) (count : Nat) (g : Generator) : Drawn :=
  let mean := (lower + upper) / 2.0
  let deviation := (upper - mean) / centralScore
  sortedBy (fun z => mean + deviation * z) (drawn (g.normals count))

/-- Brings inline data to `count` samples; no data stay no data. -/
def resample (data : List Float) (count : Nat) (g : Generator) : Drawn :=
  match data with
  | [] => .ok ([], g)
  | first :: rest =>
    if (first :: rest).length = count then .ok (Number.ascending (first :: rest), g)
    else sortedBy id (drawn (g.choices first rest count))

end MonteCarloSheet.Samples
