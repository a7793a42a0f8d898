import MonteCarloSheet.Sheet.Links

/-! Reevaluating a cell.

A reevaluation parses the formula, links the cells it names, evaluates it and
settles the cell with the result or the fault. If the observable result has
changed, the version grows and the dependents become stale. An evaluation that
lacks a number is abandoned instead: the cell stays as its start left it, and so
do all cells whose evaluation has asked for it.

Evaluation follows references on demand: a stale cell that is referenced is
reevaluated first. The cells being evaluated are *active*; a reference to an
active cell is circular. A cell is active only while it is evaluated, so the
active cells are the same after a reevaluation as before it.

Every nested reevaluation makes one more cell of the sheet active, so the depth
of nesting is at most the number of cells; a reevaluation is given that many
levels, and the end of the levels is never reached. What may be reached is the
end of the room: trees inside trees and cells read from cells share the room of
one evaluation, and a cell takes two places of it. -/
namespace MonteCarloSheet

open Formula (Answering Expr)

/-- How formulas are evaluated: with how many samples, from which source of draws, and with how
much room for trees and cells inside one another. -/
structure Simulation where
  count : Nat
  source : Random.Source
  room : Nat

/-- The sheet in the middle of an evaluation, and the cells being evaluated. -/
structure Progress where
  sheet : Sheet
  active : List String

namespace Progress

/-- Changes the sheet and not the active cells. -/
def onSheet (f : Sheet → Sheet) (p : Progress) : Progress :=
  { p with sheet := f p.sheet }

def activate (name : String) (p : Progress) : Progress :=
  { p with active := name :: p.active }

def deactivate (name : String) (p : Progress) : Progress :=
  { p with active := p.active.filter (· ≠ name) }

end Progress

/-! ### References -/

/-- What a reference reads: the number of a cell, or its samples, which have the right count or
have been dropped. -/
def Cell.read (name : String) (count : Nat) (c : Cell) : Except Fault (Option Value) :=
  match c.fault with
  | some f => .error (.inherited name f.root)
  | none =>
    match c.output.reading with
    | some (.samples xs) =>
      if xs.length = 0 ∨ xs.length = count then .ok (some (.samples xs))
      else .error (.own (.lengthMismatch (.cell name xs.length count)))
    | reading => .ok reading

/-- Brings a cell up to date in the room that is left. -/
abbrev Refresh := Nat → String → Answering Progress Unit

/-- Reads a cell after `refresh` has brought it up to date, if it is stale. -/
def answer (count : Nat) (refresh : Refresh) (room : Nat) (name : String) (c : Cell) :
    Answering Progress (Option Value) := do
  if c.isStale then refresh room name
  let p ← get
  match p.sheet.get? name with
  | none => throw (.problem (.unknownCell name))
  | some c =>
    match c.read name count with
    | .error f => throw (.fault f)
    | .ok value => pure value

/-- The value of a reference. The cell is active while it is brought up to date and read. -/
def reference (count : Nat) (refresh : Refresh) (room : Nat) (name : String) :
    Answering Progress (Option Value) := fun p =>
  if name ∈ p.active then (.error (.problem (.circular name)), p)
  else
    match p.sheet.get? name with
    | none => (.error (.problem (.unknownCell name)), p)
    | some c =>
      let (result, p) := answer count refresh room name c (p.activate name)
      (result, p.deactivate name)

/-! ### Cells -/

/-- Evaluates a parsed formula with the generator that belongs to the id and the formula text. -/
def evaluateCell (sim : Simulation) (refresh : Refresh) (room : Nat) (id : String)
    (formula : Option String) (e : Expr) : Answering Progress (Option Value) := do
  let generator := sim.source.generatorFor [id, formula.getD ""]
  let (value, _) ← Formula.evaluate (reference sim.count refresh) sim.count room e generator
  pure value

/-- Parses, links and evaluates the formula of a cell; the output is the cell's new one, and
nothing if the formula has no value. -/
def compute (sim : Simulation) (refresh : Refresh) (room : Nat) (id : String) (c : Cell) :
    Answering Progress (Option Output) := do
  match c.parsed.elim (Formula.parse c.formula) .ok with
  | .error e =>
    modify (Progress.onSheet (Sheet.relink · id []))
    throw (.problem (.malformed e))
  | .ok e =>
    modify (Progress.onSheet (Roster.modify · id fun c => { c with parsed := some e }))
    modify (Progress.onSheet (Sheet.relink · id e.dependencies))
    let value ← evaluateCell sim refresh room id c.formula e
    pure (value.map (.ofValue e))

/-- What a reevaluation has done to the observable result. -/
inductive Outcome where
  | unchanged
  | changed
  | abandoned
deriving DecidableEq, Repr

/-- Counts a change of a cell and tells its dependents. -/
def announce (id : String) (p : Progress) : Progress :=
  p.onSheet fun s =>
    let s := s.modify id fun c => { c with version := c.version + 1 }
    Sheet.invalidateDependents s id p.active

/-- Gives a cell the end of its evaluation, which is compared with the cell before it. -/
def conclude (id : String) (before : Cell) (finish : Cell → Cell) : StateM Progress Outcome :=
  fun p =>
    let p := p.onSheet (Roster.modify · id finish)
    match p.sheet.get? id with
    | none => (.unchanged, p)
    | some after => if before.changed after then (.changed, announce id p) else (.unchanged, p)

/-- Reevaluates a cell in the given room. -/
def reevaluateWith (sim : Simulation) (refresh : Refresh) (room : Nat) (id : String) :
    StateM Progress Outcome := fun p =>
  match p.sheet.get? id with
  | none => (.unchanged, p)
  | some before =>
    match compute sim refresh room id before (p.onSheet (Roster.modify · id Cell.start)) with
    | (.ok (some output), p) => conclude id before (·.settle output) p
    | (.error (.fault f), p) => conclude id before (·.fail f) p
    | (.ok none, p) => (.abandoned, p.onSheet (Roster.modify · id Cell.vacate))
    | (.error .missing, p) => (.abandoned, p)

/-- Brings a cell up to date with so many levels left; the cell takes two places of the room. -/
def refresh (sim : Simulation) : Nat → Refresh
  | levels + 1, room + 2, id => do
    let outcome ← ExceptT.lift (reevaluateWith sim (refresh sim levels) room id)
    if outcome = .abandoned then throw .missing
  | _, _, _ => throw (.problem .tooDeep)

/-- Reevaluates a cell while the given cells are active. -/
def reevaluate (sim : Simulation) (id : String) : StateM Progress Outcome := fun p =>
  reevaluateWith sim (refresh sim p.sheet.size) sim.room id p

/-- Evaluates a formula on its own against a sheet. -/
def evaluateOn (sim : Simulation) (generator : Random.Generator) (e : Expr) :
    Answering Progress (Option Value) := fun p =>
  let evaluation := Formula.evaluate (reference sim.count (refresh sim p.sheet.size)) sim.count
    sim.room e
  ((fun r => r.1) <$> evaluation generator) p

end MonteCarloSheet
