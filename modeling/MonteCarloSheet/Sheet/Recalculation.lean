import MonteCarloSheet.Sheet.Order
import MonteCarloSheet.Sheet.Reevaluation

/-! Recalculating a sheet.

A recalculation sweeps the cells in order of evaluation and reevaluates the
stale ones, until a sweep changes nothing and leaves no cell that needs
reevaluation. The number of sweeps is limited by the size of the sheet, so that
circular formulas which keep changing their errors end; such a sheet has not
converged. -/
namespace MonteCarloSheet

/-- How a recalculation went; the changed cells are those whose version has grown. -/
structure Recalculation where
  iterations : Nat
  converged : Bool
  changed : List String

/-- What is reported of a recalculation that did not converge. -/
def Recalculation.warning (r : Recalculation) : Option String :=
  if r.converged then none
  else some ("Calculation stopped after " ++ toString r.iterations ++
    " iterations without settling; possible circular or unstable formulas")

namespace Sheet

/-- Reevaluates a cell by itself, with only the cell active. -/
def reevaluateAlone (sim : Simulation) (s : Sheet) (id : String) : Bool × Sheet :=
  let (outcome, p) := reevaluate sim id ⟨s, [id]⟩
  (outcome = .changed, p.sheet)

/-- Reevaluates the stale cells among the given ones; the answer says whether one has changed.
None is abandoned, because a cell that is not being evaluated has a result or a fault by the time
it is read. -/
def sweep (sim : Simulation) : List String → Bool × Sheet → Bool × Sheet
  | [], state => state
  | id :: rest, (changed, s) =>
    match s.get? id with
    | none => sweep sim rest (changed, s)
    | some c =>
      if c.isStale then
        let (now, s) := reevaluateAlone sim s id
        sweep sim rest (changed || now, s)
      else sweep sim rest (changed, s)

def isSettled (s : Sheet) : Bool :=
  s.entries.all fun entry => !entry.2.needsReevaluation

/-- Sweeps at most `left` times, after `done` sweeps. -/
def sweeps (sim : Simulation) (order : List String) : Nat → Nat → Sheet → Nat × Bool × Sheet
  | 0, done, s => (done, false, s)
  | left + 1, done, s =>
    let (changed, s) := sweep sim order (false, s)
    if !changed && isSettled s then (done + 1, true, s) else sweeps sim order left (done + 1) s

/-- How many sweeps a sheet may take. -/
def sweepLimit (s : Sheet) : Nat :=
  2 * s.size + 10

/-- The cells of the second sheet whose version is not the one in the first. -/
def versionChanges (before after : Sheet) : List String :=
  (after.entries.filter fun entry =>
    entry.2.version ≠ ((before.get? entry.1).map Cell.version).getD 0).map Prod.fst

def recalculate (sim : Simulation) (s : Sheet) : Recalculation × Sheet :=
  let s := prepareAll (s.map fun _ c => c.beginCycle)
  let (iterations, converged, after) := sweeps sim (order s) (sweepLimit s) 0 s
  (⟨iterations, converged, versionChanges s after⟩, after)

/-! ### The collection of cells -/

/-- Gives the cell with the id a formula and a name; a cell that is new is linked to its readers. -/
def define (s : Sheet) (id : String) (formula name : Option String) : Sheet :=
  match s.get? id with
  | none => attach (s.set id (.new id formula name)) id
  | some _ => s.modify id fun c => c.edit formula name

/-- Takes a cell out of the sheet without its links. The cell is given as it is afterwards. -/
def remove (s : Sheet) (id : String) : Option (Cell × Sheet) :=
  let s := detach s id
  (s.get? id).map fun c => (c, s.erase id)

/-- The cells of the sheet, all unlinked. -/
def detachAll (s : Sheet) : Sheet :=
  s.names.foldl detach s

/-- Removes the cells that have no definition. -/
def prune (s : Sheet) (formulas : Roster (Option String)) : Sheet :=
  (s.names.filter fun id => !formulas.contains id).foldl
    (fun s id => ((remove s id).map Prod.snd).getD s) s

/-- Makes the cells those of the definitions and recalculates once. -/
def sync (sim : Simulation) (s : Sheet) (formulas : Roster (Option String))
    (names : Roster String) : Recalculation × Sheet :=
  recalculate sim
    (formulas.entries.foldl (fun s entry => define s entry.1 entry.2 (names.get? entry.1))
      (prune s formulas))

/-- A short summary of every cell with any requested number of places. -/
def summary (s : Sheet) (places : Int) : Except Cell.Unwritable (List (String × String)) :=
  s.entries.mapM fun entry => do return (entry.1, ← entry.2.describe places)

end Sheet

end MonteCarloSheet
