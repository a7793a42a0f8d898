import MonteCarloSheet.Problem

/-! Sample-wise arithmetic.

A value is a number or a list of samples. Samples pair by position: the `i`-th
sample of one operand meets the `i`-th of the other, and a number meets every
sample. Samples of the wrong count are refused, and so is a division with a zero
anywhere in the divisor. -/
namespace MonteCarloSheet

open Formula (Operator)

inductive Value where
  | number (x : Float)
  | samples (xs : List Float)

namespace Value

def isSamples : Value → Bool
  | number _ => false
  | samples _ => true

/-- Applies a function to a number or to every sample. -/
def map (f : Float → Float) : Value → Value
  | number x => number (f x)
  | samples xs => samples (xs.map f)

/-- Applies an operator to two operands position by position. -/
def pair (o : Operator) : Value → Value → Value
  | number x, number y => number (o.applyTo y x)
  | number x, samples ys => samples (ys.map (o.apply x))
  | samples xs, number y => samples (xs.map (o.applyTo y))
  | samples xs, samples ys => samples (List.zipWith o.apply xs ys)

/-- Whether some divisor would be a zero of either sign. -/
def hasZero : Value → Bool
  | number x => x == 0.0
  | samples xs => xs.any (· == 0.0)

/-- Refuses samples of another count than expected. -/
def checkCount (side : Side) (xs : List Float) (count : Int) : Except Problem Unit :=
  if xs.length = count then .ok ()
  else .error (.lengthMismatch (.operand side xs.length count))

def checkCounts (count : Int) : Value → Value → Except Problem Unit
  | number _, number _ => .ok ()
  | samples xs, number _ => checkCount .left xs count
  | number _, samples ys => checkCount .right ys count
  | samples xs, samples ys =>
    if xs.length = count ∧ ys.length = count then .ok ()
    else .error (.lengthMismatch (.operands xs.length ys.length count))

/-- One operator on two operands of `count` samples each, or of none. -/
def combine (count : Int) (o : Operator) (left right : Value) : Except Problem Value :=
  match checkCounts count left right with
  | .error p => .error p
  | .ok () =>
    if o = .divide ∧ right.hasZero then .error .divisionByZero else .ok (pair o left right)

def negate (count : Int) : Value → Except Problem Value
  | number x => .ok (number (-x))
  | samples xs =>
    match checkCount .only xs count with
    | .error p => .error p
    | .ok () => .ok (samples (xs.map (-·)))

/-- The operator with the given symbol on two operands. -/
def combineBy (symbol : String) (count : Int) (left right : Value) : Except Problem Value :=
  match Operator.ofSymbol? symbol with
  | none => .error (.unknownOperator symbol)
  | some o => combine count o left right

/-- The unary operator with the given symbol; only negation is one. -/
def negateBy (symbol : String) (count : Int) (operand : Value) : Except Problem Value :=
  if symbol = "-" then negate count operand else .error (.unknownOperator symbol)

theorem checkCounts_error_not_dependency {count : Int} {left right : Value} {p : Problem}
    (h : checkCounts count left right = .error p) : p.isDependency = false := by
  cases left <;> cases right <;> simp only [checkCounts, checkCount] at h
  · cases h
  all_goals
    split at h
    · cases h
    · cases h; rfl

end Value

end MonteCarloSheet
