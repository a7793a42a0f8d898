/-! Double-precision numbers, read exactly.

A number is decoded from its 64 bits into what it stands for: not a number, an
infinity, or a sign with a significand times a power of two. Every decimal text
of a number is computed from this exact value. -/
namespace MonteCarloSheet.Number

/-- A power of two. -/
def twoTo (k : Nat) : Nat :=
  Nat.pow 2 k

theorem twoTo_pos (k : Nat) : 0 < twoTo k :=
  Nat.pow_pos (by decide)

def nan : Float := Float.ofBits 0x7FF8000000000000

def infinity : Float := Float.ofBits 0x7FF0000000000000

/-- What a double stands for; a finite one is `significand * 2 ^ exponent` with a sign. -/
inductive Meaning where
  | notNumber
  | infinite (negative : Bool)
  | finite (negative : Bool) (significand : Nat) (exponent : Int)
deriving Repr, DecidableEq

/-- The fields of the 64 bits: one of sign, eleven of exponent, fifty-two of fraction. -/
def meaning (x : Float) : Meaning :=
  let bits := x.toBits.toNat
  let negative := decide (twoTo 63 ≤ bits)
  let power : Nat := bits / twoTo 52 % twoTo 11
  let fraction := bits % twoTo 52
  if power = 2047 then
    if fraction = 0 then .infinite negative else .notNumber
  else if power = 0 then .finite negative fraction (-1074)
  else .finite negative (twoTo 52 + fraction) ((power : Int) - 1075)

/-- The numerator of `significand * 2 ^ exponent`. -/
def numerator (significand : Nat) (exponent : Int) : Nat :=
  significand * twoTo exponent.toNat

/-- The denominator of `significand * 2 ^ exponent`. -/
def denominator (exponent : Int) : Nat :=
  twoTo (-exponent).toNat

theorem denominator_pos (exponent : Int) : 0 < denominator exponent :=
  twoTo_pos _

end MonteCarloSheet.Number
