import MonteCarloSheet.Random.Generator
import MonteCarloSheet.Samples.Histogram
import MonteCarloSheet.Sheet.Reevaluation
import MonteCarloSheet.Text.Quoted

/-! Settings that sheets share.

The sample count is the one setting that changes while sheets are open. A new
count is checked first; a count that is refused changes nothing. An accepted
count that differs from the old one takes the remembered bin count away and is
announced to the listeners, once for each time they were added, in the order in
which they were added. -/
namespace MonteCarloSheet

/-! ### Settings as they are given -/

/-- Something that is given for a setting. -/
inductive Given where
  | nothing
  | truth (b : Bool)
  | whole (n : Int)
  | fraction (x : Float)
  | text (s : String)
  | list (items : List Given)
  | record (fields : List (String × Given))

/-- Texts with commas between them. -/
def commaSeparated (texts : List String) : String :=
  ", ".intercalate texts

namespace Given

mutual

/-- What was given, in a message. -/
def shown : Given → String
  | nothing => "None"
  | truth true => "True"
  | truth false => "False"
  | whole n => toString n
  | fraction x => Number.text x
  | text s => Text.quoted s
  | list items => "[" ++ commaSeparated (shownItems items) ++ "]"
  | record fields => "\x7b" ++ commaSeparated (shownFields fields) ++ "\x7d"

def shownItems : List Given → List String
  | [] => []
  | item :: rest => item.shown :: shownItems rest

def shownFields : List (String × Given) → List String
  | [] => []
  | (name, item) :: rest => (Text.quoted name ++ ": " ++ item.shown) :: shownFields rest

end

end Given

/-- A setting that is refused. -/
inductive SettingError where
  | notWhole (given : String)
  | notPositive (count : Int)
  | negativeDecimals (decimals : Int)
  | negativeSeed (seed : Int)
  | notNumber (given : String)
deriving DecidableEq, Repr

def SettingError.message : SettingError → String
  | notWhole given => "sample count must be an integer, got " ++ given
  | notPositive count => "sample count must be positive, got " ++ toString count
  | negativeDecimals decimals => "decimals must be non-negative, got " ++ toString decimals
  | negativeSeed seed => "seed must be non-negative, got " ++ toString seed
  | notNumber given => "a number was expected, got " ++ given

/-- The sample count that is given, if it is one. -/
def Given.sampleCount : Given → Except SettingError Nat
  | whole n => if 0 < n then .ok n.toNat else .error (.notPositive n)
  | given => .error (.notWhole given.shown)

/-- The whole number that is given, if it is not negative. -/
def Given.natural (refused : Int → SettingError) : Given → Except SettingError Nat
  | whole n => if n < 0 then .error (refused n) else .ok n.toNat
  | given => .error (.notNumber given.shown)

/-- The number of places that is given. -/
def Given.decimals (given : Given) : Except SettingError Nat :=
  given.natural .negativeDecimals

/-- The seed that is given, which may be none. -/
def Given.seed : Given → Except SettingError (Option Nat)
  | nothing => .ok none
  | given =>
    match given.natural .negativeSeed with
    | .error e => .error e
    | .ok seed => .ok (some seed)

theorem Given.sampleCount_pos {given : Given} {n : Nat} (h : given.sampleCount = .ok n) :
    0 < n := by
  unfold sampleCount at h
  split at h
  · split at h
    · cases h; omega
    · cases h
  · cases h

/-! ### Settings -/

def defaultSampleCount : Int := 5000

def defaultDecimals : Int := 3

/-- How many trees and cells an evaluation has room for inside one another. -/
def evaluationRoom : Nat := 980

/-- The settings, with listeners of type `ι` and the bin count once it was asked for. -/
structure Settings (ι : Type) where
  sampleCount : Nat
  source : Random.Source
  decimals : Nat
  binCount : Option Nat := none
  listeners : List ι := []

/-- A new sample count, and the listeners that hear of it. -/
structure Announcement (ι : Type) where
  listeners : List ι
  old : Nat
  new : Nat

namespace Settings

/-- Settings from what is given; the sample count is checked first, then the decimals, then the
seed. -/
def make (method : Random.Method) (limit : Option Nat) (samples decimals seed : Given) :
    Except SettingError (Settings ι) := do
  let sampleCount ← samples.sampleCount
  let decimals ← decimals.decimals
  let seed ← seed.seed
  return { sampleCount, source := ⟨method, seed, limit⟩, decimals }

def simulation (s : Settings ι) : Simulation :=
  ⟨s.sampleCount, s.source, evaluationRoom⟩

/-- Sets a new sample count; the same count changes nothing and is not announced. -/
def update (s : Settings ι) (given : Given) :
    Except SettingError (Option (Announcement ι) × Settings ι) := do
  let count ← given.sampleCount
  if count = s.sampleCount then return (none, s)
  return (some ⟨s.listeners, s.sampleCount, count⟩,
    { s with sampleCount := count, binCount := none })

/-- The bin count for the sample count, if it has one, remembered from the first time on. -/
def bins? (s : Settings ι) : Option Nat :=
  s.binCount.or (Samples.binCount? s.sampleCount)

def keepBins (s : Settings ι) : Settings ι :=
  { s with binCount := s.bins? }

def addListener (s : Settings ι) (listener : ι) : Settings ι :=
  { s with listeners := s.listeners ++ [listener] }

/-- Removes the first occurrence of a listener. -/
def removeListener [BEq ι] (s : Settings ι) (listener : ι) : Settings ι :=
  { s with listeners := s.listeners.erase listener }

/-- The settings in one line. -/
def text (s : Settings ι) : String :=
  let seed := match s.source.seed with
    | none => "None"
    | some seed => toString seed
  "SimulationConfig(sample_count=" ++ toString s.sampleCount ++ ", seed=" ++ seed ++
    ", decimals=" ++ toString s.decimals ++ ")"

end Settings

end MonteCarloSheet
