import MonteCarloSheet.Random.Machine

/-! A permuted congruential generator with 128 bits of state.

The seed limbs are first mixed into a pool of four words, so that every limb
reaches every word; the pool gives four 64-bit words, two for the state and two
for the increment. Each draw multiplies and adds modulo `2 ^ 128` and gives the
exclusive or of the two halves, rotated by the six highest bits. A 32-bit draw
uses the low half of a word and keeps the high half for the next 32-bit draw. -/
namespace MonteCarloSheet.Random

/-! ### The seed pool -/

/-- A mixed word and the multiplier for the next one. -/
def hashMix (hash value : UInt32) : UInt32 × UInt32 :=
  let next := hash * 0x931E8875
  let mixed := (value ^^^ hash) * next
  (mixed ^^^ (mixed >>> 16), next)

def poolMix (x y : UInt32) : UInt32 :=
  let r := 0xCA01F9DD * x - 0x4973F715 * y
  r ^^^ (r >>> 16)

structure Pool where
  words : Vector UInt32 4
  hash : UInt32

/-- Mixes a value into one word of the pool. -/
def Pool.absorb (p : Pool) (i : Fin 4) (value : UInt32) : Pool :=
  let (mixed, hash) := hashMix p.hash value
  ⟨p.words.set i (poolMix p.words[i] mixed), hash⟩

/-- Fills the pool with the first four limbs, zero where there is none. -/
def Pool.fill (seed : List UInt32) : Pool :=
  (List.finRange 4).foldl
    (fun (p : Pool) (i : Fin 4) =>
      let (mixed, hash) := hashMix p.hash (seed.getD i 0)
      ⟨p.words.set i mixed, hash⟩)
    ⟨Vector.replicate 4 0, 0x43B0D7E5⟩

/-- Mixes every word of the pool into the three others. -/
def Pool.spread (p : Pool) : Pool :=
  (List.finRange 4).foldl
    (fun p source =>
      (List.finRange 4).foldl
        (fun p target => if target = source then p else p.absorb target p.words[source]) p)
    p

/-- Mixes one more limb into all four words. -/
def Pool.add (p : Pool) (limb : UInt32) : Pool :=
  (List.finRange 4).foldl (fun p target => p.absorb target limb) p

def Pool.seeded (seed : List UInt32) : Pool :=
  (seed.drop 4).foldl Pool.add (Pool.fill seed).spread

/-- The next `n` output limbs from the given place in the pool on. -/
def Pool.output (p : Pool) : Nat → Fin 4 → UInt32 → List UInt32
  | 0, _, _ => []
  | n + 1, i, hash =>
    let next := hash * 0x58F38DED
    let mixed := (p.words[i] ^^^ hash) * next
    (mixed ^^^ (mixed >>> 16)) :: p.output n (i + 1) next

/-! ### The generator -/

structure Permuted where
  state : BitVec 128
  increment : BitVec 128
  held : Option UInt32

namespace Permuted

def multiplier : BitVec 128 := 0x2360ED051FC65DA44385DF649FCCF645

def advance (g : Permuted) : Permuted :=
  { g with state := g.state * multiplier + g.increment }

/-- The 128-bit number of two 64-bit words of two limbs each, the higher word first. -/
def wide (high low : List UInt32) : BitVec 128 :=
  BitVec.ofNat 128 (ofLimbs (low ++ high))

def seeded (seed : List UInt32) : Permuted :=
  let output := (Pool.seeded seed).output 8 0 0x8B51F9DD
  let pair (i : Nat) := (output.drop (2 * i)).take 2
  let increment := (wide (pair 2) (pair 3) <<< 1) ||| 1
  let started : Permuted := advance ⟨0, increment, none⟩
  advance { started with state := started.state + wide (pair 0) (pair 1) }

def word (g : Permuted) : UInt64 × Permuted :=
  let g := g.advance
  let high : BitVec 64 := (g.state >>> 64).setWidth 64
  let low : BitVec 64 := g.state.setWidth 64
  (UInt64.ofBitVec ((high ^^^ low).rotateRight (g.state >>> 122).toNat), g)

def halfWord (g : Permuted) : UInt32 × Permuted :=
  match g.held with
  | some high => (high, { g with held := none })
  | none =>
    let (x, g) := g.word
    (x.toUInt32, { g with held := some (x >>> 32).toUInt32 })

def uniform (g : Permuted) : Float × Permuted :=
  let (x, g) := g.word
  (unitFloat x, g)

/-- A product of a half word and `count` whose low half is not in the uneven remainder; after
`tries` refusals the last product stands. -/
def product (count : Nat) : Nat → Permuted → Nat × Permuted
  | 0, g =>
    let (x, g) := g.halfWord
    (x.toNat * count, g)
  | tries + 1, g =>
    let (x, g) := g.halfWord
    let p := x.toNat * count
    if p % limbBase < (limbBase - count) % count then product count tries g else (p, g)

/-- A place below `count`, every one equally likely; a single place needs no draw. -/
def place (count : Nat) (g : Permuted) : Nat × Permuted :=
  if count = 1 then (0, g)
  else
    let (p, g) := product count 1000 g
    (p / limbBase, g)

def encode (g : Permuted) : State :=
  g.state.toNat :: g.increment.toNat :: (g.held.map UInt32.toNat).toList

def decode : State → Permuted
  | state :: increment :: held =>
    ⟨.ofNat 128 state, .ofNat 128 increment, held.head?.map Nat.toUInt32⟩
  | _ => ⟨0, 0, none⟩

theorem decode_encode (g : Permuted) : decode g.encode = g := by
  obtain ⟨state, increment, held⟩ := g
  cases held <;> simp [encode, decode]

def machine : Machine Permuted where
  seeded := seeded
  uniform := uniform
  place := place
  encode := encode
  decode := decode
  decode_encode := decode_encode

end Permuted

end MonteCarloSheet.Random
