import MonteCarloSheet.Formula.Evaluation

/-! Kinds of results.

A result is a constant, or samples of a distribution that the formula declares
outright or computes from others. The outermost node of the formula decides. -/
namespace MonteCarloSheet

open Formula (Expr Builtin)

/-- Where the samples of a cell come from. -/
inductive Distribution where
  | estimate
  | normal
  | data
  | derived
deriving DecidableEq, Repr

/-- What samples computed by a formula are. -/
def Distribution.ofExpr : Expr → Distribution
  | .call function _ =>
    match Builtin.named? function with
    | some .estimate => estimate
    | some .data => data
    | none => derived
  | .range _ _ => normal
  | _ => derived

inductive Kind where
  | constant
  | distribution (d : Distribution)
deriving DecidableEq, Repr

namespace Kind

def label : Kind → String
  | constant => "constant"
  | distribution .estimate => "pert"
  | distribution .normal => "normal"
  | distribution .data => "data_array"
  | distribution .derived => "formula_result"

def isDistribution : Kind → Bool
  | constant => false
  | distribution _ => true

end Kind

end MonteCarloSheet
