import MonteCarloSheet.Number.Reader
import MonteCarloSheet.Text.Blank
import MonteCarloSheet.Text.Digit

/-! Whole numbers as they are typed.

A whole number is digits of any script with an optional sign, single underscores
between digits, and blanks around it; the four ASCII separators from 28 to 31
are no blanks here. More than 4300 digits are refused. -/
namespace MonteCarloSheet.Number

def isMargin (c : Char) : Bool :=
  Text.isBlank c && !(28 ≤ c.toNat && c.toNat ≤ 31)

/-- Digits with single underscores between them. -/
def groupedDigits? : List Char → Option (List Nat)
  | [] => none
  | [c] => (Text.digit? c).map ([·])
  | c :: '_' :: rest => do return (← Text.digit? c) :: (← groupedDigits? rest)
  | c :: rest => do return (← Text.digit? c) :: (← groupedDigits? rest)

def digitLimit : Nat := 4300

def natural? (cs : List Char) : Option Nat := do
  let digits ← groupedDigits? cs
  if digitLimit < digits.length then none else return ofDigits digits

def withoutMargins (cs : List Char) : List Char :=
  ((cs.dropWhile isMargin).reverse.dropWhile isMargin).reverse

/-- The whole number that a text stands for. -/
def whole? (s : String) : Option Int :=
  match withoutMargins s.toList with
  | '-' :: rest => (natural? rest).map fun n => -(n : Int)
  | '+' :: rest => (natural? rest).map Int.ofNat
  | cs => (natural? cs).map Int.ofNat

end MonteCarloSheet.Number
