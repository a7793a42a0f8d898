import MonteCarloSheet.Number.Binary64

/-! Powers of doubles.

A power of a finite base is rounded by the machine. A power of an infinity is never
rounded: its size is that of the exponent's sign, and it is negative where the base is
and the exponent is an odd integer. -/
namespace MonteCarloSheet.Number

/-- Whether a double is an odd integer. -/
def isOdd (x : Float) : Bool :=
  match meaning x with
  | .finite _ significand exponent =>
    numerator significand exponent % denominator exponent == 0 &&
      numerator significand exponent / denominator exponent % 2 == 1
  | _ => false

/-- A power of an infinity of the given sign. -/
def powerOfInfinity (negative : Bool) (exponent : Float) : Float :=
  if exponent.isNaN then nan
  else if exponent == 0.0 then 1.0
  else
    let size := if 0.0 < exponent then infinity else 0.0
    if negative && isOdd exponent then -size else size

def power (base exponent : Float) : Float :=
  if base.isInf then powerOfInfinity (base < 0.0) exponent else base ^ exponent

end MonteCarloSheet.Number
