/-! Engines of random draws.

Samples rest on three kinds of draws: from the unit interval, from the standard normal
distribution, and of places in data. How they are made is left open. Anything that seed
words start, that keeps its state in words and that makes as many draws at a time as it
is asked for is an `Engine`. -/
namespace MonteCarloSheet.Random

/-- What an engine keeps from one request to the next, in words of any size. -/
abbrev State := List Nat

/-- Makes `n` draws and leaves another state. The draws stand in the order they are made. -/
abbrev Draw (α : Type) := (n : Nat) → State → Vector α n × State

structure Engine where
  seeded : List Nat → State
  /-- From the unit interval without its upper end. -/
  uniforms : Draw Float
  /-- From the standard normal distribution. -/
  normals : Draw Float
  /-- Places below a count, each with the same chance. -/
  places : Nat → Draw Nat

end MonteCarloSheet.Random
