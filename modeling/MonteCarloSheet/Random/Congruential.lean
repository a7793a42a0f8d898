import MonteCarloSheet.Random.Machine

/-! A congruential generator modulo `2 ^ 64`.

The state is one word. Each seed limb is folded into it by exclusive or and a
step; each draw is a step and the upper 53 bits of the new state. -/
namespace MonteCarloSheet.Random

structure Congruential where
  state : UInt64

namespace Congruential

def step (x : UInt64) : UInt64 :=
  x * 6364136223846793005 + 1442695040888963407

def seeded (seed : List UInt32) : Congruential :=
  ⟨seed.foldl (fun x limb => step (x ^^^ limb.toUInt64)) 0x9E3779B97F4A7C15⟩

def uniform (g : Congruential) : Float × Congruential :=
  let x := step g.state
  (unitFloat x, ⟨x⟩)

/-- A place below `count`: the whole part of a uniform share of it. -/
def place (count : Nat) (g : Congruential) : Nat × Congruential :=
  let (u, g) := g.uniform
  ((u * count.toFloat).toUInt64.toNat, g)

def machine : Machine Congruential where
  seeded := seeded
  uniform := uniform
  place := place
  encode g := [g.state.toNat]
  decode words := ⟨(words.headD 0).toUInt64⟩
  decode_encode _ := congrArg mk UInt64.ofNat_toNat

end Congruential

end MonteCarloSheet.Random
