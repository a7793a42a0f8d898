import MonteCarloSheet.Roster
import MonteCarloSheet.Text.Blank
import MonteCarloSheet.Text.Quoted

/-! Definitions of cells on the command line.

A definition is a name, an equals sign and a formula, with blanks around either
dropped. The first equals sign divides them. No name may be defined twice. -/
namespace MonteCarloSheet.CommandLine

inductive DefinitionError where
  | malformed (text : String)
  | repeated (name : String)
deriving DecidableEq, Repr

def DefinitionError.message : DefinitionError → String
  | malformed text => "Expected 'name = formula', got " ++ Text.quoted text
  | repeated name => "Cell " ++ Text.quoted name ++ " is defined more than once"

structure Definition where
  name : String
  formula : String
deriving DecidableEq, Repr

/-- The name and the formula of a definition. -/
def Definition.parse (text : String) : Except DefinitionError Definition :=
  let name := Text.trimChars (text.toList.takeWhile (· ≠ '='))
  match text.toList.dropWhile (· ≠ '=') with
  | [] => .error (.malformed text)
  | _ :: formula =>
    if name = [] then .error (.malformed text)
    else .ok ⟨String.ofList name, String.ofList (Text.trimChars formula)⟩

/-- Adds definitions to those already read; the first error in order stops it. -/
def addDefinitions (formulas : Roster (Option String)) :
    List String → Except DefinitionError (Roster (Option String))
  | [] => .ok formulas
  | text :: rest =>
    match Definition.parse text with
    | .error e => .error e
    | .ok d =>
      if formulas.contains d.name then .error (.repeated d.name)
      else addDefinitions (formulas.set d.name (some d.formula)) rest

end MonteCarloSheet.CommandLine
