import MonteCarloSheet.Formula.Operator

/-! Formulas as trees.

A formula is built from numbers, references to cells by name, ranges that
declare a normal distribution, function calls, the binary operators and
negation. Its dependencies are the cells it names, each once. -/
namespace MonteCarloSheet.Formula

inductive Expr where
  | number (value : Float)
  | reference (name : String)
  | range (left right : Expr)
  | call (function : String) (arguments : List Expr)
  | binary (o : Operator) (left right : Expr)
  | negation (operand : Expr)

namespace Expr

mutual

/-- The names of cells in a formula, in reading order. -/
def references : Expr → List String
  | number _ => []
  | reference name => [name]
  | range left right => left.references ++ right.references
  | call _ arguments => referencesOfAll arguments
  | binary _ left right => left.references ++ right.references
  | negation operand => operand.references

def referencesOfAll : List Expr → List String
  | [] => []
  | e :: rest => e.references ++ referencesOfAll rest

end

/-- The cells that a formula names, each once. -/
def dependencies (e : Expr) : List String :=
  e.references.eraseDups

theorem mem_dependencies {e : Expr} {name : String} :
    name ∈ e.dependencies ↔ name ∈ e.references := by
  simp [dependencies]

theorem referencesOfAll_eq (es : List Expr) : referencesOfAll es = es.flatMap references := by
  induction es with
  | nil => rfl
  | cons e rest ih => simp [referencesOfAll, ih]

end Expr

end MonteCarloSheet.Formula
