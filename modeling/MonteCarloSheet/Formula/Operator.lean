import MonteCarloSheet.Number.Power

/-! Binary operators.

The five arithmetic operators, their symbols, and what they do to two numbers.
Numbers are doubles throughout: overflow gives an infinity, and what has no
value is not a number. A power whose exponent is a single number takes the
exponents -1, 1/2 and 2 for a quotient, a square root and a product, each of which
is rounded once; a power with samples for its exponent does not. -/
namespace MonteCarloSheet.Formula

inductive Operator where
  | add
  | subtract
  | multiply
  | divide
  | power
deriving DecidableEq, Repr

namespace Operator

def symbol : Operator → String
  | add => "+"
  | subtract => "-"
  | multiply => "*"
  | divide => "/"
  | power => "^"

def ofSymbol? : String → Option Operator
  | "+" => some add
  | "-" => some subtract
  | "*" => some multiply
  | "/" => some divide
  | "^" => some power
  | _ => none

theorem ofSymbol?_symbol (o : Operator) : ofSymbol? o.symbol = some o := by
  cases o <;> rfl

def apply : Operator → Float → Float → Float
  | add, a, b => a + b
  | subtract, a, b => a - b
  | multiply, a, b => a * b
  | divide, a, b => a / b
  | power, a, b => Number.power a b

/-- A power with one exponent for all bases. -/
def raised (exponent base : Float) : Float :=
  if exponent == -1.0 then 1.0 / base
  else if exponent == 0.5 then base.sqrt
  else if exponent == 2.0 then base * base
  else Number.power base exponent

/-- An operator whose right operand is a single number. -/
def applyTo (o : Operator) (right left : Float) : Float :=
  match o with
  | power => raised right left
  | o => o.apply left right

end Operator

end MonteCarloSheet.Formula
