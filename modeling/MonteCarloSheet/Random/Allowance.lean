/-! Allowances of draws.

A generator may be limited to a number of draws in all. A request for more draws
than are left is refused as a whole and uses nothing up. -/
namespace MonteCarloSheet.Random

/-- How many draws a generator may make in all, and how many of them are left. -/
structure Allowance where
  limit : Nat
  left : Nat
deriving DecidableEq

/-- A request beyond the allowance. -/
structure Exhausted where
  limit : Nat
deriving DecidableEq, Repr

def Exhausted.message (e : Exhausted) : String :=
  "draw limit " ++ toString e.limit ++ " exceeded"

/-- What is left of an allowance after `n` draws. -/
def Allowance.spend (n : Nat) : Option Allowance → Except Exhausted (Option Allowance)
  | none => .ok none
  | some a => if n ≤ a.left then .ok (some { a with left := a.left - n }) else .error ⟨a.limit⟩

end MonteCarloSheet.Random
