import MonteCarloSheet.Random.Allowance
import MonteCarloSheet.Random.Checksum
import MonteCarloSheet.Random.Congruential
import MonteCarloSheet.Random.Permuted

/-! Random draws for samples.

A `Generator` is an engine in some state, with an optional allowance of draws. A
`Source` makes generators: the same keys always give the same stream, which keeps a
cell's samples fixed while its formula stays as it is. Two engines are given, and any
other can take their place. -/
namespace MonteCarloSheet.Random

structure Generator where
  engine : Engine
  state : State
  allowance : Option Allowance

namespace Generator

/-- `n` draws in the order they are made. -/
def draws (draw : Draw α) (n : Nat) (g : Generator) : Except Exhausted (List α × Generator) :=
  match Allowance.spend n g.allowance with
  | .error e => .error e
  | .ok allowance =>
    let (drawn, state) := draw n g.state
    .ok (drawn.toList, { g with state, allowance })

theorem length_of_draws {draw : Draw α} {n : Nat} {g g' : Generator} {xs : List α}
    (h : g.draws draw n = .ok (xs, g')) : xs.length = n := by
  unfold draws at h
  split at h
  · cases h
  · obtain ⟨rfl, rfl⟩ := Prod.mk.inj (Except.ok.inj h)
    exact Vector.length_toList

/-- Uniform draws from the unit interval without its upper end. -/
def uniforms (n : Nat) (g : Generator) : Except Exhausted (List Float × Generator) :=
  g.draws g.engine.uniforms n

/-- Draws from the standard normal distribution. -/
def normals (n : Nat) (g : Generator) : Except Exhausted (List Float × Generator) :=
  g.draws g.engine.normals n

/-- The element of the data at a place; the first one stands for places beyond them. -/
def element (first : Float) (rest : List Float) (place : Nat) : Float :=
  (first :: rest).getD place first

/-- Draws from the data with replacement, every element with the same chance. -/
def choices (first : Float) (rest : List Float) (n : Nat) (g : Generator) :
    Except Exhausted (List Float × Generator) :=
  match g.draws (g.engine.places (rest.length + 1)) n with
  | .error e => .error e
  | .ok (places, g) => .ok (places.map (element first rest), g)

theorem length_of_choices {first : Float} {rest xs : List Float} {n : Nat} {g g' : Generator}
    (h : g.choices first rest n = .ok (xs, g')) : xs.length = n := by
  unfold choices at h
  split at h
  · cases h
  next drawn =>
    obtain ⟨rfl, rfl⟩ := Prod.mk.inj (Except.ok.inj h)
    rw [List.length_map, length_of_draws drawn]

end Generator

/-! ### Sources -/

/-- Which engine draws: one of the two given here, or any other. -/
inductive Method where
  | congruential
  | permuted
  | other (engine : Engine)

namespace Method

/-- Engines cannot be compared, but it can be told which of the two is at work. -/
instance (m : Method) : Decidable (m = permuted) :=
  match m with
  | congruential => isFalse nofun
  | permuted => isTrue rfl
  | other _ => isFalse nofun

def engine : Method → Engine
  | congruential => Congruential.machine.engine
  | permuted => Permuted.machine.engine
  | other engine => engine

end Method

/-- Where the generators of a sheet come from. -/
structure Source where
  method : Method
  seed : Option Nat
  limit : Option Nat

namespace Source

/-- The generator that the given seed words determine. -/
def ofWords (s : Source) (words : List Nat) : Generator where
  engine := s.method.engine
  state := s.method.engine.seeded words
  allowance := s.limit.map fun limit => ⟨limit, limit⟩

/-- The generator for the given keys: the seed, then the checksum of each key. -/
def generatorFor (s : Source) (keys : List String) : Generator :=
  s.ofWords (s.seed.toList ++ keys.map fun key => (checksum key).toNat)

end Source

end MonteCarloSheet.Random
