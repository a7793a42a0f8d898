import MonteCarloSheet.Settings
import MonteCarloSheet.Sheet.Recalculation

/-! Sheets that share settings.

A workbook holds sheets by number and the settings that all of them use. An open
sheet listens to the settings: when the sample count changes, its cells lose
their samples and become stale. A closed sheet has no cells and listens no more.
The sheets themselves never touch each other. -/
namespace MonteCarloSheet

structure Workbook where
  settings : Settings Nat
  sheets : List Sheet

namespace Workbook

/-- A workbook with one sheet that does not listen to the settings. -/
def unattended (settings : Settings Nat) : Workbook :=
  ⟨settings, [Roster.empty]⟩

/-- Opens one more sheet, which listens to the settings. -/
def openSheet (w : Workbook) : Workbook :=
  ⟨w.settings.addListener w.sheets.length, w.sheets ++ [Roster.empty]⟩

/-- A workbook with one open sheet. -/
def new (settings : Settings Nat) : Workbook :=
  openSheet ⟨settings, []⟩

def sheet (w : Workbook) (i : Nat) : Sheet :=
  w.sheets.getD i Roster.empty

def modifySheet (w : Workbook) (i : Nat) (f : Sheet → Sheet) : Workbook :=
  { w with sheets := w.sheets.modify i f }

def withSheet (w : Workbook) (i : Nat) (s : Sheet) : Workbook :=
  w.modifySheet i fun _ => s

/-! ### The sample count -/

/-- A sheet after the sample count has changed. -/
def invalidate (s : Sheet) : Sheet :=
  s.map fun _ c => c.invalidateSamples

/-- Tells each listening sheet, as often as it listens. -/
def announce (w : Workbook) (listeners : List Nat) : Workbook :=
  listeners.foldl (fun w i => w.modifySheet i invalidate) w

/-- Sets a new sample count for all sheets; the answer says whether it differs from the old one. -/
def changeSampleCount (w : Workbook) (given : Given) : Except SettingError (Bool × Workbook) := do
  let (announcement, settings) ← w.settings.update given
  match announcement with
  | none => return (false, { w with settings })
  | some a => return (true, announce { w with settings } a.listeners)

/-! ### Sheets -/

def recalculate (w : Workbook) (i : Nat) : Recalculation × Workbook :=
  let (r, s) := Sheet.recalculate w.settings.simulation (w.sheet i)
  (r, w.withSheet i s)

/-- Gives a cell a formula, without recalculating. -/
def define (w : Workbook) (i : Nat) (id : String) (formula name : Option String) : Workbook :=
  w.modifySheet i fun s => Sheet.define s id formula name

/-- Removes a cell, without recalculating; nothing happens if there is none. -/
def remove (w : Workbook) (i : Nat) (id : String) : Option (Cell × Workbook) :=
  (Sheet.remove (w.sheet i) id).map fun (c, s) => (c, w.withSheet i s)

def sync (w : Workbook) (i : Nat) (formulas : Roster (Option String)) (names : Roster String) :
    Recalculation × Workbook :=
  let (r, s) := Sheet.sync w.settings.simulation (w.sheet i) formulas names
  (r, w.withSheet i s)

/-- Sets a new sample count for all sheets and recalculates one of them. -/
def setSampleCount (w : Workbook) (i : Nat) (given : Given) :
    Except SettingError (Recalculation × Workbook) := do
  let (_, w) ← w.changeSampleCount given
  return w.recalculate i

/-- Removes all cells. They are given as they are afterwards. -/
def clear (w : Workbook) (i : Nat) : Sheet × Workbook :=
  (Sheet.detachAll (w.sheet i), w.withSheet i Roster.empty)

/-- Removes all cells and stops listening to the settings. -/
def close (w : Workbook) (i : Nat) : Sheet × Workbook :=
  let (cells, w) := w.clear i
  (cells, { w with settings := w.settings.removeListener i })

/-! ### Reading -/

/-- The number or the samples of a cell, if it has any. -/
def value? (w : Workbook) (i : Nat) (id : String) : Option Value :=
  ((w.sheet i).get? id).bind fun c => c.output.reading

/-- The formula of a cell, empty if there is no such cell. -/
def formula (w : Workbook) (i : Nat) (id : String) : Option String :=
  match (w.sheet i).get? id with
  | none => some ""
  | some c => c.formula

/-- Whether the histogram of a cell has to be computed from samples. -/
def needsBins (c : Cell) : Bool :=
  c.histogram.isNone && c.output.samples.isSome

/-- Why there is no histogram. -/
inductive HistogramError where
  | noCell
  | noBinCount
deriving DecidableEq, Repr

/-- Asks a cell for its histogram, which it remembers. -/
def askBins (w : Workbook) (i : Nat) (id : String) (c : Cell) (count : Nat) :
    List Samples.Bin × Workbook :=
  (c.bins count, w.modifySheet i fun s => s.modify id (Cell.keepBins · count))

/-- The histogram of a cell. The settings remember the bin count if it was needed. -/
def histogram (w : Workbook) (i : Nat) (id : String) :
    Except HistogramError (List Samples.Bin × Workbook) :=
  match (w.sheet i).get? id with
  | none => .error .noCell
  | some c =>
    if needsBins c then
      match w.settings.bins? with
      | none => .error .noBinCount
      | some count => .ok ({ w with settings := w.settings.keepBins }.askBins i id c count)
    else .ok (w.askBins i id c 1)

/-- A short summary of every cell, with the places of the settings. -/
def summary (w : Workbook) (i : Nat) : Except Cell.Unwritable (List (String × String)) :=
  Sheet.summary (w.sheet i) w.settings.decimals

end Workbook

end MonteCarloSheet
