import MonteCarloSheet.Formula.Operator
import MonteCarloSheet.Number.Layout
import MonteCarloSheet.Text.Quoted

/-! Tokens of a formula.

A token is a lexeme and the place of its first character. Messages show a number
by its shortest decimal and any other lexeme as quoted text; where the formula
is over they say so. -/
namespace MonteCarloSheet.Formula

inductive Lexeme where
  | number (value : Float)
  | name (text : String)
  | rangeWord (text : String)
  | operator (o : Operator)
  | opening
  | closing
  | comma

structure Token where
  lexeme : Lexeme
  position : Nat

/-- The characters of a lexeme; a number is shown by its value. -/
def Lexeme.text : Lexeme → String
  | number value => Number.text value
  | name text => text
  | rangeWord text => text
  | operator o => o.symbol
  | opening => "("
  | closing => ")"
  | comma => ","

/-- A lexeme in a message. -/
def Lexeme.shown : Lexeme → String
  | number value => Number.text value
  | lexeme => Text.quoted lexeme.text

/-- What stands at a place of the formula, in a message. -/
def shownAt : List Token → String
  | [] => "end of formula"
  | token :: _ => token.lexeme.shown

end MonteCarloSheet.Formula
