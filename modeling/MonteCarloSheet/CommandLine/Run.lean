import MonteCarloSheet.CommandLine.Definition
import MonteCarloSheet.CommandLine.Options
import MonteCarloSheet.Workbook

/-! What the command line does.

The settings are checked first and then the definitions; the first error is the
only one reported. Otherwise the definitions become a sheet, and each cell is
reported under its name in the order of definition. The exit code says whether
the recalculation converged. A setting that is no number, and more decimals than
can be written, are failures: nothing is reported. -/
namespace MonteCarloSheet.CommandLine

/-- Why the options and definitions make no sheet. -/
inductive InputError where
  | setting (e : SettingError)
  | definition (e : DefinitionError)
deriving DecidableEq, Repr

def InputError.message : InputError → String
  | setting e => e.message
  | definition e => e.message

/-- Settings and formulas from the options. -/
def input (method : Random.Method) (limit : Option Nat) (o : Options) :
    Except InputError (Settings Nat × Roster (Option String)) :=
  match Settings.make method limit o.samples o.decimals o.seed with
  | .error e => .error (.setting e)
  | .ok settings =>
    match addDefinitions Roster.empty o.definitions with
    | .error e => .error (.definition e)
    | .ok formulas => .ok (settings, formulas)

/-- Why nothing is reported. -/
inductive Failure where
  | notNumber (given : String)
  | unwritable (e : Cell.Unwritable)
deriving DecidableEq, Repr

def Failure.message : Failure → String
  | notNumber given => "a number was expected, got " ++ given
  | unwritable .places => "too many decimals"
  | unwritable .missing => "a number is missing"

/-- What is reported: an error, or a text for each cell and whether the sheet has settled. -/
inductive Report where
  | error (message : String)
  | cells (entries : List String) (converged : Bool) (warning : Option String)
  | failed (f : Failure)
deriving DecidableEq, Repr

def Report.code : Report → UInt32
  | error _ => 2
  | cells _ converged _ => if converged then 0 else 1
  | failed _ => 1

def entryText (entry : String × String) : String :=
  entry.1 ++ ": " ++ entry.2

/-- The report of a sheet that has been recalculated. -/
def reportSheet (r : Recalculation) (w : Workbook) : Report :=
  match w.summary 0 with
  | .error e => .failed (.unwritable e)
  | .ok entries => .cells (entries.map entryText) r.converged r.warning

def report (method : Random.Method) (limit : Option Nat) (o : Options) : Report :=
  match input method limit o with
  | .error (.setting (.notNumber given)) => .failed (.notNumber given)
  | .error e => .error ("Error: " ++ e.message)
  | .ok (settings, formulas) =>
    let (r, w) := (Workbook.new settings).sync 0 formulas Roster.empty
    reportSheet r w

end MonteCarloSheet.CommandLine
