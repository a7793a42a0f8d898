import MonteCarloSheet.Number.Whole
import MonteCarloSheet.Settings

/-! Options on the command line.

Arguments are definitions and options. A long option may be cut short as long as
it is the only one that begins so; its value follows as the next argument or
behind an equals sign. Short options have no value and may be written together.
An equals sign after the first of them is dropped. An argument with a dash is a
definition after all if it is a negative number or holds a space, unless it
begins like an option. After `--` every argument is a definition; behind an
equals sign it leaves an option with a value that is no number.

The definitions stand together: those in a second run, after an option, are too
many. Arguments are read from left to right, and the first error or the request
for help ends the reading; what was too many is refused at the end. -/
namespace MonteCarloSheet.CommandLine

inductive Flag where
  | help
  | samples
  | seed
  | decimals
  | verbose
deriving DecidableEq, Repr

namespace Flag

def all : List Flag := [help, samples, seed, decimals, verbose]

def long : Flag → String
  | help => "--help"
  | samples => "--samples"
  | seed => "--seed"
  | decimals => "--decimals"
  | verbose => "--verbose"

def short? : Char → Option Flag
  | 'h' => some help
  | 'v' => some verbose
  | _ => none

def takesValue : Flag → Bool
  | samples => true
  | seed => true
  | decimals => true
  | _ => false

end Flag

/-! ### Arguments -/

inductive Argument where
  | definition (text : String)
  | separator
  | option (flag : Flag) (value : Option String)
  | cluster (letters : List Char)
  | unknown
deriving DecidableEq, Repr

/-- Negative whole numbers and fractions, which are no options; one line feed may follow. -/
def isNegativeNumber (cs : List Char) : Bool :=
  let body := if cs.getLast? = some '\n' then cs.dropLast else cs
  match body with
  | '-' :: rest =>
    let fraction := (rest.dropWhile Text.isDigit).drop 1
    (!rest.isEmpty && rest.all Text.isDigit) ||
      ((rest.dropWhile Text.isDigit).head? = some '.' && !fraction.isEmpty &&
        fraction.all Text.isDigit)
  | _ => false

/-- An argument with a dash that begins no option. -/
def otherwise (cs : List Char) : Argument :=
  if isNegativeNumber cs || cs.contains ' ' then .definition (String.ofList cs) else .unknown

/-- A long option by its full spelling or the start of it; nothing if several begin so. -/
def classifyLong (cs : List Char) : Option Argument :=
  let spelling := String.ofList (cs.takeWhile (· ≠ '='))
  let value := match cs.dropWhile (· ≠ '=') with
    | [] => none
    | _ :: value => some (String.ofList value)
  match Flag.all.find? (·.long = spelling) with
  | some flag => some (.option flag value)
  | none =>
    match Flag.all.filter fun flag => spelling.toList.isPrefixOf flag.long.toList with
    | [] => some (otherwise cs)
    | [flag] => some (.option flag value)
    | _ => none

/-- The letters of short options written together: an equals sign between the first and the
others does not count. -/
def clusterLetters (first : Char) : List Char → List Char
  | '=' :: c :: rest => first :: c :: rest
  | rest => first :: rest

/-- What an argument before any separator is; nothing if it is ambiguous. -/
def classify (text : String) : Option Argument :=
  match text.toList with
  | '-' :: '-' :: rest => classifyLong ('-' :: '-' :: rest)
  | '-' :: c :: rest =>
    if (Flag.short? c).isSome then some (.cluster (clusterLetters c rest))
    else some (otherwise ('-' :: c :: rest))
  | _ => some (.definition text)

/-- All arguments by what they are; nothing if one is ambiguous. -/
def classifyAll : List String → Option (List Argument)
  | [] => some []
  | text :: rest =>
    if text = "--" then some (.separator :: rest.map .definition)
    else do return (← classify text) :: (← classifyAll rest)

/-- The short options written together, unless a letter is none. -/
def shortFlags (letters : List Char) : Option (List Flag) :=
  letters.mapM Flag.short?

/-- What the text of an option's value gives; a separator gives an empty list. -/
def valueOf (text : String) : Option Given :=
  if text = "--" then some (.list []) else (Number.whole? text).map Given.whole

/-! ### Reading -/

/-- What the options give for the settings, and the definitions. -/
structure Options where
  samples : Given := .whole defaultSampleCount
  seed : Given := .nothing
  decimals : Given := .whole defaultDecimals
  definitions : List String := []

/-- How reading the arguments ends. -/
inductive Reading where
  | help
  | refused
  | options (o : Options)

/-- Where the run of definitions is. -/
inductive Run where
  | ahead
  | here
  | past
deriving DecidableEq, Repr

/-- What has been read so far. -/
structure Reader where
  options : Options := {}
  run : Run := .ahead
  tooMany : Bool := false

namespace Reader

def takeDefinition (r : Reader) (text : String) : Reader :=
  match r.run with
  | .past => { r with tooMany := true }
  | _ =>
    { r with
      run := .here
      options := { r.options with definitions := r.options.definitions ++ [text] } }

/-- A separator belongs to the run of definitions it stands in or before. -/
def takeSeparator (r : Reader) (followed : Bool) : Reader :=
  match r.run with
  | .here => r
  | .ahead => { r with tooMany := r.tooMany || !followed }
  | .past => { r with tooMany := true }

/-- An option ends a run of definitions. -/
def endRun (r : Reader) : Reader :=
  { r with run := if r.run = .here then .past else r.run }

/-- Sets an option to a value, if the text gives one. -/
def setValue (r : Reader) (flag : Flag) (text : String) : Option Reader := do
  let value ← valueOf text
  match flag with
  | .samples => return { r with options := { r.options with samples := value } }
  | .seed => return { r with options := { r.options with seed := value } }
  | .decimals => return { r with options := { r.options with decimals := value } }
  | _ => none

def finish (r : Reader) : Reading :=
  if r.tooMany || r.options.definitions.isEmpty then .refused else .options r.options

end Reader

/-- Reads classified arguments. -/
def readArguments : List Argument → Reader → Reading
  | [], r => r.finish
  | .definition text :: rest, r => readArguments rest (r.takeDefinition text)
  | .separator :: rest, r => readArguments rest (r.takeSeparator !rest.isEmpty)
  | .unknown :: rest, r => readArguments rest { r.endRun with tooMany := true }
  | .cluster letters :: rest, r =>
    match shortFlags letters with
    | none => .refused
    | some flags => if Flag.help ∈ flags then .help else readArguments rest r.endRun
  | .option flag (some value) :: rest, r =>
    if flag.takesValue then
      match r.endRun.setValue flag value with
      | none => .refused
      | some r => readArguments rest r
    else .refused
  | .option flag none :: rest, r =>
    if flag = .help then .help
    else if flag.takesValue then
      match rest with
      | .definition value :: rest =>
        match r.endRun.setValue flag value with
        | none => .refused
        | some r => readArguments rest r
      | _ => .refused
    else readArguments rest r.endRun

/-- Reads the arguments of the command line. -/
def read (arguments : List String) : Reading :=
  match classifyAll arguments with
  | none => .refused
  | some arguments => readArguments arguments {}

end MonteCarloSheet.CommandLine
