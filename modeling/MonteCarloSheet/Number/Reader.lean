import MonteCarloSheet.Number.Digits

/-! From decimal digits to the nearest double.

A number in a formula is a natural number of units, each a power of ten. Its
value is the nearest double; a value beyond the largest double is infinite, and
one below half the smallest is zero, which is settled before any large power of
ten is computed. -/
namespace MonteCarloSheet.Number

/-- The number that decimal digits, first to last, stand for. -/
def ofDigits (digits : List Nat) : Nat :=
  digits.foldl (fun n digit => 10 * n + digit) 0

theorem ofDigits_append_singleton (digits : List Nat) (d : Nat) :
    ofDigits (digits ++ [d]) = 10 * ofDigits digits + d := by
  simp [ofDigits]

/-- The double nearest to a decimal. -/
def Decimal.nearest (d : Decimal) : Float :=
  let point : Int := digitCount d.digits + d.exponent
  if d.digits = 0 then 0.0
  else if 310 < point then infinity
  else if point < -330 then 0.0
  else Float.ofScientific d.digits (decide (d.exponent < 0)) d.exponent.natAbs

end MonteCarloSheet.Number
