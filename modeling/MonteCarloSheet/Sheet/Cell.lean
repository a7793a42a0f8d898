import MonteCarloSheet.Formula.Parser
import MonteCarloSheet.Samples.Histogram
import MonteCarloSheet.Samples.Statistics
import MonteCarloSheet.Sheet.Kind

/-! Cells.

A cell is a formula with its latest output. The output is nothing, a number, or
samples with their summary; it is absent after a problem of the cell's own and
stays as it was after a dependency fault. A change of the sample count empties
the samples and takes their summary away.

A formula that only refers to a cell without a result has no value. The output is
then vacant: a constant as far as its kind goes, but without a number, and
samples that were there before are not taken away.

A cell also remembers what it needs to be brought up to date: the tree of its
formula once parsed, the histogram once asked for, the cells it reads and the
cells that read it, whether it has to be evaluated again, whether this cycle has
reached it, and how often its observable result has changed. -/
namespace MonteCarloSheet

open Formula (Expr)
open Samples (Bin Interval Summary)

/-! ### Outputs -/

inductive Output where
  | none
  | constant (x : Float)
  | distribution (d : Distribution) (samples : List Float) (summary : Option Summary)
  | vacant (kept : Option (List Float × Option Summary))

namespace Output

def kind : Output → Option Kind
  | none => .none
  | constant _ => some .constant
  | distribution d _ _ => some (.distribution d)
  | vacant _ => some .constant

def value : Output → Option Float
  | constant x => some x
  | _ => .none

def samples : Output → Option (List Float)
  | distribution _ xs _ => some xs
  | vacant kept => kept.map Prod.fst
  | _ => .none

/-- The summary of the samples, if there are any. -/
def summary : Output → Option Summary
  | distribution _ _ summary => summary
  | vacant kept => kept.bind Prod.snd
  | _ => .none

def mean (o : Output) : Option Float :=
  o.value.or (o.summary.map Summary.mean)

def interval (o : Output) : Option Interval :=
  (o.value.map fun x => ⟨x, x⟩).or (o.summary.map Summary.interval)

/-- The output of a formula that has the given value. -/
def ofValue (e : Expr) : Value → Output
  | .number x => constant x
  | .samples xs => distribution (.ofExpr e) xs (Samples.summaryOf xs)

/-- Samples lose their numbers; the rest stays. -/
def invalidate : Output → Output
  | distribution d _ _ => distribution d [] .none
  | vacant (some _) => vacant (some ([], .none))
  | output => output

/-- The output of a formula without a value, which keeps the number or the samples before it. -/
def vacate : Output → Output
  | none => vacant .none
  | distribution _ xs summary => vacant (some (xs, summary))
  | output => output

/-- The samples or else the number; a cell without a result has neither. -/
def reading (o : Output) : Option Value :=
  (o.samples.map Value.samples).or (o.value.map Value.number)

/-- The histogram of the samples, or one bin around a number. -/
def histogram (bins : Nat) (o : Output) : List Bin :=
  match o.reading with
  | .none => []
  | some (.number x) => [⟨x, x, 1⟩]
  | some (.samples xs) => Samples.histogram bins xs

end Output

/-! ### Cells -/

inductive Status where
  | uninitialized
  | valid
  | localError
  | dependencyError
deriving DecidableEq, Repr

def Status.label : Status → String
  | uninitialized => "uninitialized"
  | valid => "valid"
  | localError => "local_error"
  | dependencyError => "dependency_error"

structure Cell where
  displayName : String
  formula : Option String
  parsed : Option Expr := none
  output : Output := .none
  fault : Option Fault := none
  histogram : Option (List Bin) := none
  dependencies : List String := []
  dependents : List String := []
  needsReevaluation : Bool := true
  processed : Bool := false
  settled : Bool := false
  version : Nat := 0

/-- A name to display, unless there is none or it is empty. -/
def displayNameOr (fallback : String) : Option String → String
  | none => fallback
  | some name => if name = "" then fallback else name

namespace Cell

/-- A new cell, shown under its id unless it has a name of its own. -/
def new (id : String) (formula : Option String) (name : Option String) : Cell :=
  { displayName := displayNameOr id name, formula }

def status (c : Cell) : Status :=
  match c.fault with
  | some f => if f.isDependency then .dependencyError else .localError
  | none => if c.settled then .valid else .uninitialized

/-- A cell is stale if something it reads has changed or this cycle has not reached it. -/
def isStale (c : Cell) : Bool :=
  c.needsReevaluation || !c.processed

/-! ### Marks -/

def markStale (c : Cell) : Cell :=
  { c with needsReevaluation := true }

def beginCycle (c : Cell) : Cell :=
  { c with processed := false }

/-- A cell whose evaluation begins. -/
def start (c : Cell) : Cell :=
  { c with needsReevaluation := false, processed := true, histogram := none }

/-- Whether replacing the formula by the given text changes it. -/
def differs (c : Cell) (formula : Option String) : Bool :=
  formula != c.formula

/-- Replaces the formula and the name; the same text changes nothing but the name. -/
def edit (c : Cell) (formula : Option String) (name : Option String) : Cell :=
  let c := { c with displayName := displayNameOr c.displayName name }
  if c.differs formula then { c with formula, parsed := none, needsReevaluation := true } else c

/-- Drops the samples after the sample count has changed. -/
def invalidateSamples (c : Cell) : Cell :=
  { c with output := c.output.invalidate, histogram := none, needsReevaluation := true }

/-! ### Results -/

def settle (c : Cell) (output : Output) : Cell :=
  { c with output, fault := none, settled := true }

/-- Settles a cell whose formula has no value. -/
def vacate (c : Cell) : Cell :=
  c.settle c.output.vacate

/-- Only a dependency fault leaves the output as it was. -/
def fail (c : Cell) (f : Fault) : Cell :=
  { c with fault := some f, output := if f.isDependency then c.output else .none }

/-- The histogram of the output, computed when it is first asked for. -/
def bins (c : Cell) (count : Nat) : List Bin :=
  c.histogram.getD (c.output.histogram count)

def keepBins (c : Cell) (count : Nat) : Cell :=
  { c with histogram := some (c.bins count) }

/-! ### What can be observed -/

/-- The observable result of a cell: the error and its class, and the result but for single
samples. -/
structure Observation where
  message : Option String
  isDependency : Bool
  kind : Option Kind
  value : Option Float
  mean : Option Float
  lower : Option Float
  upper : Option Float
  count : Option Nat

def observation (c : Cell) : Observation where
  message := c.fault.map Fault.message
  isDependency := c.fault.any Fault.isDependency
  kind := c.output.kind
  value := c.output.value
  mean := c.output.mean
  lower := c.output.interval.map Interval.lower
  upper := c.output.interval.map Interval.upper
  count := c.output.samples.map List.length

/-- Equal as numbers, both not a number, or both absent. -/
def sameNumber : Option Float → Option Float → Bool
  | some a, some b => Number.same a b
  | none, none => true
  | _, _ => false

def Observation.same (a b : Observation) : Bool :=
  a.message == b.message && a.isDependency == b.isDependency && a.kind == b.kind &&
    sameNumber a.value b.value && sameNumber a.mean b.mean && sameNumber a.lower b.lower &&
    sameNumber a.upper b.upper && a.count == b.count

theorem sameNumber_refl (a : Option Float) : sameNumber a a = true := by
  cases a with
  | none => rfl
  | some x => exact Number.same_refl x

theorem Observation.same_refl (a : Observation) : a.same a = true := by
  simp [same, sameNumber_refl]

/-- Whether two states of a cell show different results. -/
def changed (before after : Cell) : Bool :=
  !before.observation.same after.observation

/-! ### Texts -/

/-- The most places that a number is written with. -/
def mostPlaces : Int := 2147483647

/-- Why a cell has no summary: the requested places, or the number to write is missing. -/
inductive Unwritable where
  | places
  | missing
deriving DecidableEq, Repr

/-- A number with any requested number of places. -/
def written (places : Int) (x : Float) : Except Unwritable String :=
  if 0 ≤ places ∧ places ≤ mostPlaces then .ok (Number.fixed places.toNat x) else .error .places

/-- A short summary: `12.500`, `12.500 (9.100 to 15.800)`, or `Error: …`. -/
def describe (c : Cell) (places : Int) : Except Unwritable String :=
  match c.fault, c.output with
  | some f, _ => .ok ("Error: " ++ f.message)
  | none, .none => .ok ""
  | none, .constant x => written places x
  | none, .vacant _ => .error .missing
  | none, .distribution _ _ none => .ok "(no samples)"
  | none, .distribution _ _ (some s) => do
    let mean ← written places s.mean
    let lower ← written places s.interval.lower
    let upper ← written places s.interval.upper
    return mean ++ " (" ++ lower ++ " to " ++ upper ++ ")"

/-- The cell by its id, formula and status. -/
def text (id : String) (c : Cell) : String :=
  let formula := match c.formula with
    | none => "None"
    | some formula => Text.quoted formula
  "Cell(" ++ Text.quoted id ++ ", " ++ formula ++ ", status=" ++ c.status.label ++ ")"

end Cell

end MonteCarloSheet
