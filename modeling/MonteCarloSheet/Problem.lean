import MonteCarloSheet.Formula.Token
import MonteCarloSheet.Number.Layout
import MonteCarloSheet.Random.Allowance
import MonteCarloSheet.Text.Quoted

/-! What can be wrong with a formula.

A `Problem` is a cause that a formula has by itself: its text, its functions and
arguments, its arithmetic, its draws, or a reference that leads nowhere or back
to itself. A `Fault` is what a cell carries: a problem of its own, or the problem
of a cell it reads, named together with that cell. A fault passed on keeps the
root problem only, so causes never nest.

A fault that lies with the references of a formula, and not with the formula, is
a *dependency* fault; a cell with such a fault keeps the output it had. -/
namespace MonteCarloSheet

open Formula (shownAt)

/-- What a formula had to contain at the place of an error. -/
inductive Expected where
  | expression
  | closingArguments
  | closingExpression
deriving DecidableEq, Repr

def Expected.text : Expected → String
  | expression => "expression"
  | closingArguments => "')' after function arguments"
  | closingExpression => "')' after expression"

/-- Why a text is no formula. -/
inductive Malformation where
  | empty
  | unrecognized (c : Char)
  | malformedNumber (lexeme : List Char)
  | unexpected (found : String)
  | expected (what : Expected) (found : String)
  | tooNested (levels : Nat)
deriving DecidableEq, Repr

/-- A malformation, the place where it shows and the text from there on; an empty formula has no
place. -/
structure SyntaxError where
  reason : Malformation
  position : Option Nat
  fragment : String
deriving DecidableEq, Repr

def SyntaxError.empty : SyntaxError := ⟨.empty, none, ""⟩

def SyntaxError.message (e : SyntaxError) : String :=
  match e.reason with
  | .empty => "Formula cannot be empty."
  | .unrecognized c =>
    "Unrecognized character " ++ Text.quotedChars [c] ++ " at position " ++
      toString (e.position.getD 0)
  | .malformedNumber lexeme => "Malformed number " ++ Text.quotedChars lexeme
  | .unexpected found => "Unexpected " ++ found ++ " after expression"
  | .expected what found => "Expected " ++ what.text ++ ", found " ++ found
  | .tooNested levels => "Formula nested more than " ++ toString levels ++ " levels deep"

/-- The operand of an operator whose samples are counted. -/
inductive Side where
  | left
  | right
  | only
deriving DecidableEq, Repr

def Side.text : Side → String
  | left => "Left"
  | right => "Right"
  | only => "Unary"

/-- A sample count other than the one that is asked for. -/
inductive LengthMismatch where
  | operand (side : Side) (count : Nat) (expected : Int)
  | operands (left right : Nat) (expected : Int)
  | cell (name : String) (count expected : Nat)
deriving DecidableEq, Repr

def LengthMismatch.message : LengthMismatch → String
  | operand side count expected =>
    side.text ++ " operand has " ++ toString count ++ " samples, expected " ++ toString expected
  | operands left right expected =>
    "Array operands have " ++ toString left ++ " and " ++ toString right ++ " samples, expected " ++
      toString expected
  | cell name count expected =>
    "Cell '" ++ name ++ "' has " ++ toString count ++ " samples, expected " ++ toString expected

/-- The two counts that differ. -/
def LengthMismatch.lengths : LengthMismatch → Nat × Int
  | operand _ count expected => (count, expected)
  | operands left right _ => (left, right)
  | cell _ count expected => (count, expected)

inductive Problem where
  | malformed (e : SyntaxError)
  | unknownFunction (name : String)
  | argumentCount (function : String) (count : Nat) (expected : String)
  | argumentOrder (minimum likely maximum : Float)
  | estimateOrder (minimum likely maximum : Float)
  | notNumbers (function : String)
  | divisionByZero
  | lengthMismatch (m : LengthMismatch)
  | unknownOperator (symbol : String)
  | exhausted (e : Random.Exhausted)
  | tooDeep
  | unknownCell (name : String)
  | circular (name : String)

namespace Problem

def message : Problem → String
  | malformed e => e.message
  | unknownFunction name => "Unknown function '" ++ name ++ "'"
  | argumentCount function count expected =>
    "Function '" ++ function ++ "' called with " ++ toString count ++ " argument(s); expected " ++
      expected
  | argumentOrder minimum likely maximum =>
    "PERT arguments must satisfy min <= likely <= max (min=" ++ Number.brief minimum ++
      ", likely=" ++ Number.brief likely ++ ", max=" ++ Number.brief maximum ++ ")"
  | estimateOrder minimum likely maximum =>
    "PERT requires min <= likely <= max, got min=" ++ Number.text minimum ++
      ", likely=" ++ Number.text likely ++ ", max=" ++ Number.text maximum
  | notNumbers function =>
    "Arguments of '" ++ function ++ "' must evaluate to numbers, not distributions"
  | divisionByZero => "Division by zero"
  | lengthMismatch m => m.message
  | unknownOperator symbol => "Unknown operator '" ++ symbol ++ "'"
  | exhausted e => "Calculation failed: " ++ e.message
  | tooDeep => "Formula or reference chain too deep to evaluate"
  | unknownCell name => "Unknown cell identifier '" ++ name ++ "'"
  | circular name => "Circular dependency detected involving cell '" ++ name ++ "'"

/-- Whether the references of the formula are to blame, and not the formula. -/
def isDependency : Problem → Bool
  | unknownCell _ => true
  | circular _ => true
  | _ => false

end Problem

/-- What a cell carries when it has no result. -/
inductive Fault where
  | own (p : Problem)
  | inherited (name : String) (root : Problem)

namespace Fault

/-- The problem at the root of a fault, which cells downstream report. -/
def root : Fault → Problem
  | own p => p
  | inherited _ p => p

def cause (f : Fault) : String :=
  f.root.message

def message : Fault → String
  | own p => p.message
  | inherited name p => "Dependency '" ++ name ++ "' has an error: " ++ p.message

def isDependency : Fault → Bool
  | own p => p.isDependency
  | inherited _ _ => true

end Fault

end MonteCarloSheet
