import MonteCarloSheet.Number.Digits

/-! Texts of numbers.

Three texts are written. `text` has the fewest digits that read back, positional
for powers of ten from -4 to 15, with a point always: `12.0`, `0.0001`, `1e-05`,
`1e+16`. `brief` has six significant digits without trailing zeros, positional
up to the sixth power of ten: `12`, `1e+06`. `fixed` has a given number of
places, rounded from the exact value. All three write `nan`, `inf` and `-inf`,
and keep the sign of a zero. -/
namespace MonteCarloSheet.Number

/-- Where positional writing ends, and whether a whole number keeps a point. -/
structure Layout where
  positionalBelow : Int
  keepsPoint : Bool

/-- Positional below ten to the sixteenth, `12.0` with its point. -/
def Layout.shortest : Layout := ⟨16, true⟩

/-- Positional below ten to the sixth, `12` without a point. -/
def Layout.brief : Layout := ⟨6, false⟩

def signed (negative : Bool) (s : String) : String :=
  if negative then "-" ++ s else s

def zeroes (n : Nat) : List Char :=
  List.replicate n '0'

/-- The digits of a number without the zeros at its end. -/
def strippedDigits (n : Nat) : List Char :=
  ((Nat.toDigits 10 n).reverse.dropWhile (· == '0')).reverse

/-- A power of ten in two digits or more, with its sign. -/
def powerText (power : Int) : String :=
  let magnitude := toString power.natAbs
  (if power < 0 then "-" else "+") ++ (if magnitude.length < 2 then "0" ++ magnitude else magnitude)

/-- Digits with the point after the first `point` of them, which may lie outside the digits. -/
def Layout.positional (l : Layout) (digits : List Char) (point : Int) : String :=
  if point ≤ 0 then "0." ++ String.ofList (zeroes (-point).toNat ++ digits)
  else if digits.length ≤ point.toNat then
    String.ofList (digits ++ zeroes (point.toNat - digits.length)) ++
      (if l.keepsPoint then ".0" else "")
  else
    String.ofList (digits.take point.toNat) ++ "." ++ String.ofList (digits.drop point.toNat)

/-- One digit, the others after a point, and the power of ten. -/
def scientific (digits : List Char) (power : Int) : String :=
  let rest := digits.drop 1
  String.ofList (digits.take 1) ++ (if rest.isEmpty then "" else "." ++ String.ofList rest) ++
    "e" ++ powerText power

/-- The text of a positive decimal. -/
def Layout.write (l : Layout) (d : Decimal) : String :=
  let digits := strippedDigits d.digits
  let point := (digitCount d.digits : Int) + d.exponent
  if point - 1 < -4 ∨ l.positionalBelow ≤ point - 1 then scientific digits (point - 1)
  else l.positional digits point

/-- The fewest digits that read back: `0.1`, `100000.0`, `1e+16`, `1e-05`. -/
def text (x : Float) : String :=
  match meaning x with
  | .notNumber => "nan"
  | .infinite negative => signed negative "inf"
  | .finite negative 0 _ => signed negative "0.0"
  | .finite negative significand exponent =>
    signed negative (Layout.shortest.write (shortest significand exponent))

/-- Six significant digits: `0.1`, `100000`, `1e+06`. -/
def brief (x : Float) : String :=
  match meaning x with
  | .notNumber => "nan"
  | .infinite negative => signed negative "inf"
  | .finite negative 0 _ => signed negative "0"
  | .finite negative significand exponent =>
    signed negative (Layout.brief.write
      (significant 6 (numerator significand exponent) (denominator exponent)))

/-- A count of units of `10 ^ -places`, with its point. -/
def fixedDigits (places units : Nat) : String :=
  let whole := toString (units / tenTo places)
  if places = 0 then whole
  else
    let digits := Nat.toDigits 10 (units % tenTo places)
    whole ++ "." ++ String.ofList (zeroes (places - digits.length) ++ digits)

/-- The given number of places, a half going to the even neighbour: `2.500`, `-0.000`. -/
def fixed (places : Nat) (x : Float) : String :=
  match meaning x with
  | .notNumber => "nan"
  | .infinite negative => signed negative "inf"
  | .finite negative significand exponent =>
    signed negative (fixedDigits places
      (roundDiv (numerator significand exponent * tenTo places) (denominator exponent)))

end MonteCarloSheet.Number
