import MonteCarloSheet.Formula.Expr
import MonteCarloSheet.Problem
import MonteCarloSheet.Random.Generator
import MonteCarloSheet.Samples.Arithmetic
import MonteCarloSheet.Samples.Distribution

/-! Evaluating a formula.

An evaluation draws from its own generator, may end in a fault, and keeps some
state `σ` in which references are answered: looking up a cell may settle that
cell first. The state survives a fault, the generator need not. Operands are
evaluated from left to right.

A reference may lead to a cell that has no result and no fault yet, and then has
no value. Binary operators and data take what is missing for not a number.
Ranges, estimates and negation need their numbers, and without one the whole
evaluation is abandoned: that is no fault of any cell.

Only so many trees may stand inside one another, the trees of referenced cells
included; what is deeper is too deep to evaluate. A reference is answered with
the room that is left where it stands. -/
namespace MonteCarloSheet.Formula

open MonteCarloSheet.Random (Generator)

/-- Why an evaluation ends early: by a fault, or because a number is missing. -/
inductive Stop where
  | fault (f : Fault)
  | missing

/-- What answers the references: a state, and an answer for each name or the reason for none. -/
abbrev Answering (σ α : Type) := ExceptT Stop (StateM σ) α

abbrev Evaluation (σ α : Type) := StateT Generator (Answering σ) α

/-! ### Steps -/

def Stop.problem (p : Problem) : Stop :=
  .fault (.own p)

def fail (p : Problem) : Evaluation σ α :=
  throw (.problem p)

/-- A step that may fail by itself. -/
def check : Except Problem α → Evaluation σ α
  | .ok x => pure x
  | .error p => fail p

/-- A step that draws. -/
def drawing (draw : Generator → Except Stop (α × Generator)) : Evaluation σ α := do
  match draw (← get) with
  | .error s => throw s
  | .ok (x, g) =>
    set g
    pure x

/-- What a step needs. -/
def need : Option α → Evaluation σ α
  | none => throw .missing
  | some x => pure x

/-! ### Functions -/

/-- The functions that a formula may call. -/
inductive Builtin where
  | estimate
  | data
deriving DecidableEq, Repr

/-- Names of functions may be written in any case. -/
def Builtin.named? (name : String) : Option Builtin :=
  if name.toLower = "pert" then some .estimate
  else if name.toLower = "array" then some .data
  else none

/-- The numbers among the arguments of a function, which takes no samples. -/
def numbers (function : String) : List (Option Value) → Except Problem (List (Option Float))
  | [] => .ok []
  | some (.samples _) :: _ => .error (.notNumbers function)
  | some (.number x) :: rest =>
    match numbers function rest with
    | .error p => .error p
    | .ok xs => .ok (some x :: xs)
  | none :: rest =>
    match numbers function rest with
    | .error p => .error p
    | .ok xs => .ok (none :: xs)

/-- The lesser of two numbers; the first where neither is less. -/
def lesser (a b : Float) : Float :=
  if b < a then b else a

/-- The greater of two numbers; the first where neither is greater. -/
def greater (a b : Float) : Float :=
  if a < b then b else a

/-- What a function makes of its arguments, and the generator that it leaves. -/
abbrev Applied := Except Stop (Value × Generator)

/-- Samples from a draw of samples. -/
def samplesOf : Samples.Drawn → Applied
  | .ok (xs, g) => .ok (.samples xs, g)
  | .error p => .error (.problem p)

/-- A range `left to right`, whose ends may stand in either order. -/
def spread (count : Nat) (left right : Option Value) (g : Generator) : Applied :=
  match left, right with
  | some (.samples _), _ => .error (.problem (.notNumbers "to"))
  | _, some (.samples _) => .error (.problem (.notNumbers "to"))
  | some (.number a), some (.number b) =>
    samplesOf (Samples.normal (lesser a b) (greater a b) count g)
  | _, _ => .error .missing

/-- The minimum, likely value and maximum of an estimate; a shape may follow and is not used. -/
def estimateOf : List (Option Float) → Except Stop (Float × Float × Float)
  | [some minimum, some maximum] => .ok (minimum, (minimum + maximum) / 2.0, maximum)
  | [some minimum, some likely, some maximum] => .ok (minimum, likely, maximum)
  | [some minimum, some likely, some maximum, _] => .ok (minimum, likely, maximum)
  | args =>
    if 2 ≤ args.length ∧ args.length ≤ 4 then .error .missing
    else .error (.problem (.argumentCount "pert" args.length "2, 3 or 4"))

/-- An estimate whose ends are equal is a number. -/
def estimate (count : Nat) (args : List (Option Float)) (g : Generator) : Applied :=
  match estimateOf args with
  | .error s => .error s
  | .ok (minimum, likely, maximum) =>
    if !Samples.inOrder minimum likely maximum then
      .error (.problem (.argumentOrder minimum likely maximum))
    else if minimum == maximum then .ok (.number minimum, g)
    else samplesOf (Samples.spreadEstimate minimum likely maximum count g)

def Builtin.apply (count : Nat) (values : List (Option Value)) (g : Generator) : Builtin → Applied
  | estimate =>
    match numbers "pert" values with
    | .error p => .error (.problem p)
    | .ok args => Formula.estimate count args g
  | data =>
    match numbers "array" values with
    | .error p => .error (.problem p)
    | .ok args => samplesOf (Samples.resample (args.map (·.getD Number.nan)) count g)

/-! ### Trees -/

/-- A binary operator on two values, either of which may be missing. -/
def combined (count : Nat) (o : Operator) (left right : Option Value) : Except Problem Value :=
  Value.combine count o (left.getD (.number Number.nan)) (right.getD (.number Number.nan))

variable (refer : Nat → String → Answering σ (Option Value)) (count : Nat)

mutual

/-- The value of a formula with `count` samples where `room` trees may stand inside one another.
Only a reference by itself may have none. -/
def evaluate (room : Nat) (e : Expr) : Evaluation σ (Option Value) :=
  match room, e with
  | 0, _ => fail .tooDeep
  | _ + 1, .number x => pure (some (.number x))
  | room + 1, .reference name => StateT.lift (refer room name)
  | room + 1, .range left right => do
    let a ← evaluate room left
    let b ← evaluate room right
    some <$> drawing (spread count a b)
  | room + 1, .call function arguments =>
    match Builtin.named? function with
    | none => fail (.unknownFunction function)
    | some builtin => do
      let values ← evaluateAll room arguments
      some <$> drawing fun g => builtin.apply count values g
  | room + 1, .binary o left right => do
    let a ← evaluate room left
    let b ← evaluate room right
    some <$> check (combined count o a b)
  | room + 1, .negation operand => do
    let a ← need (← evaluate room operand)
    some <$> check (Value.negate count a)
termination_by structural e

def evaluateAll (room : Nat) (es : List Expr) : Evaluation σ (List (Option Value)) :=
  match es with
  | [] => pure []
  | e :: rest => do
    let value ← evaluate room e
    let values ← evaluateAll room rest
    pure (value :: values)
termination_by structural es

end

end MonteCarloSheet.Formula
