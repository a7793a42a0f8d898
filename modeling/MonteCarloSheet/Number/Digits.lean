import MonteCarloSheet.Number.Binary64

/-! Decimal digits of exact values.

A positive value is a quotient of naturals. `roundDiv` rounds a quotient to the
nearest natural, a tie to the even one. `significant` rounds a value to a number
of significant digits. `shortest` finds the fewest digits that read back as a
given double, and of those the nearest to it: it tries one digit, two digits and
so on, testing the two neighbours of the value on each decimal grid against the
interval of reals that round to the double. -/
namespace MonteCarloSheet.Number

/-- Digits without a point: the value is `digits * 10 ^ exponent`. -/
structure Decimal where
  digits : Nat
  exponent : Int
deriving Repr, DecidableEq

/-- The nearest natural to `num / den`, a tie going to the even one. -/
def roundDiv (num den : Nat) : Nat :=
  let below := num / den
  let twice := 2 * (num % den)
  if twice < den then below
  else if den < twice then below + 1
  else if below % 2 = 0 then below else below + 1

theorem roundDiv_one (n : Nat) : roundDiv n 1 = n := by
  simp [roundDiv, Nat.mod_one]

/-- Half a unit bounds what rounding adds or takes away. -/
theorem roundDiv_near (num : Nat) {den : Nat} (h : 0 < den) :
    2 * num ≤ 2 * (roundDiv num den * den) + den ∧
      2 * (roundDiv num den * den) ≤ 2 * num + den := by
  have split := Nat.div_add_mod num den
  have small := Nat.mod_lt num h
  have step : (num / den + 1) * den = num / den * den + den := Nat.succ_mul _ _
  rw [Nat.mul_comm] at split
  unfold roundDiv
  dsimp only
  split
  · omega
  · split
    · omega
    · split <;> omega

/-- A power of ten. -/
def tenTo (k : Nat) : Nat :=
  Nat.pow 10 k

theorem tenTo_pos (k : Nat) : 0 < tenTo k :=
  Nat.pow_pos (by decide)

def digitCount (n : Nat) : Nat :=
  (Nat.toDigits 10 n).length

/-- The power of ten at the first digit of the positive value `num / den`. -/
def leadingPower (num den : Nat) : Int :=
  let power : Int := digitCount num - digitCount den
  if den * tenTo power.toNat ≤ num * tenTo (-power).toNat then power else power - 1

/-- `num / den` to the given number of significant digits. -/
def significant (count num den : Nat) : Decimal :=
  let unit := leadingPower num den - (count - 1 : Nat)
  ⟨roundDiv (num * tenTo (-unit).toNat) (den * tenTo unit.toNat), unit⟩

/-- The reals that round to a double, in quarters of its last place; the ends belong to it if
`closed`. -/
structure Rounding where
  low : Nat
  value : Nat
  high : Nat
  closed : Bool

/-- Below a power of two the spacing of the doubles halves. -/
def rounding (significand : Nat) (exponent : Int) : Rounding where
  low := if significand = twoTo 52 ∧ -1074 < exponent then 4 * significand - 1
    else 4 * significand - 2
  value := 4 * significand
  high := 4 * significand + 2
  closed := significand % 2 = 0

def Rounding.contains (r : Rounding) (scale candidate gridScale : Nat) : Bool :=
  let point := candidate * gridScale
  if r.closed then r.low * scale ≤ point && point ≤ r.high * scale
  else r.low * scale < point && point < r.high * scale

/-- The multiple of `gridScale` nearest to the value among its two neighbours that read back. -/
def Rounding.nearest (r : Rounding) (scale gridScale : Nat) : Option Nat :=
  let value := r.value * scale
  let below := value / gridScale
  match r.contains scale below gridScale, r.contains scale (below + 1) gridScale with
  | true, true => some (roundDiv value gridScale)
  | true, false => some below
  | false, true => some (below + 1)
  | false, false => none

/-- Tries grids of `count`, `count + 1`, … digits, `left` of them in all; seventeen digits
suffice. -/
def shortestFrom (r : Rounding) (exponent power : Int) : Nat → Nat → Decimal
  | 0, count => ⟨0, power - count⟩
  | left + 1, count =>
    let unit := power - (count - 1 : Nat)
    let quarter := exponent - 2
    let gridScale := tenTo unit.toNat * twoTo (-quarter).toNat
    let scale := tenTo (-unit).toNat * twoTo quarter.toNat
    match r.nearest scale gridScale with
    | some digits => ⟨digits, unit⟩
    | none => shortestFrom r exponent power left (count + 1)

/-- The shortest decimal that reads back as `significand * 2 ^ exponent`, for a positive
significand. -/
def shortest (significand : Nat) (exponent : Int) : Decimal :=
  shortestFrom (rounding significand exponent) exponent
    (leadingPower (numerator significand exponent) (denominator exponent)) 17 1

end MonteCarloSheet.Number
