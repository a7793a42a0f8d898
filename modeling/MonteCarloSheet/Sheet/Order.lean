import MonteCarloSheet.Sheet.Links

/-! The order of evaluation.

Cells are evaluated with their dependencies ahead of them, so that a reference
rarely finds a stale cell and long chains do not nest evaluations. A walk from
each cell in order of definition visits the dependencies of a cell in the order
of their names and then the cell itself. A cycle is cut where the walk first
meets a cell that it has visited. -/
namespace MonteCarloSheet

/-- Names in the order of their code points. -/
def sortedNames (names : List String) : List String :=
  names.mergeSort fun a b => decide (a ≤ b)

/-- The cells that a walk has visited, and those that it has left, the last one first. -/
structure Walk where
  visited : List String
  left : List String

namespace Sheet

/-- Walks a cell and what it depends on; a walk is no deeper than there are cells. -/
def walk (s : Sheet) : Nat → String → Walk → Walk
  | 0, _, w => w
  | depth + 1, id, w =>
    if id ∈ w.visited then w
    else
      match s.get? id with
      | none => w
      | some c =>
        let w := { w with visited := id :: w.visited }
        let w := (sortedNames c.dependencies).foldl (fun w next => walk s depth next w) w
        { w with left := id :: w.left }

/-- All cells, dependencies first. -/
def order (s : Sheet) : List String :=
  (s.names.foldl (fun w id => walk s s.size id w) ⟨[], []⟩).left.reverse

/-- Parses and links every cell without evaluating any. -/
def prepareAll (s : Sheet) : Sheet :=
  s.names.foldl prepare s

end Sheet

end MonteCarloSheet
