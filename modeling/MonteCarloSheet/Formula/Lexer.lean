import MonteCarloSheet.Number.Reader
import MonteCarloSheet.Problem
import MonteCarloSheet.Text.Blank
import MonteCarloSheet.Text.Digit

/-! From text to tokens.

Lexemes are numbers, names, the word `to` in any case, operators, parentheses and
commas; blanks may stand between them. A number has digits of any script, an
optional fraction and an optional exponent, or a fraction alone. At each place
the longest lexeme is taken. A character that begins no lexeme is an error, and
so is a number with a point right after it: `3.` and `1.2.3` are no numbers. -/
namespace MonteCarloSheet.Formula

/-! ### Numbers -/

/-- How many digits a text begins with. -/
def digitRun (cs : List Char) : Nat :=
  (cs.takeWhile Text.isDigit).length

/-- The length of a point with digits after it at the head of a text. -/
def fractionLength : List Char → Nat
  | '.' :: rest => if digitRun rest = 0 then 0 else digitRun rest + 1
  | _ => 0

/-- The length of an optional sign at the head of a text. -/
def signLength : List Char → Nat
  | '+' :: _ => 1
  | '-' :: _ => 1
  | _ => 0

/-- The length of an exponent at the head of a text: `e`, an optional sign and digits. -/
def exponentLength : List Char → Nat
  | c :: rest =>
    if c = 'e' ∨ c = 'E' then
      let digits := digitRun (rest.drop (signLength rest))
      if digits = 0 then 0 else 1 + signLength rest + digits
    else 0
  | [] => 0

/-- The length of the number at the head of a text, zero if there is none. -/
def numberLength (cs : List Char) : Nat :=
  let whole := digitRun cs
  let fraction := fractionLength (cs.drop whole)
  if whole + fraction = 0 then 0
  else whole + fraction + exponentLength (cs.drop (whole + fraction))

def digitsOf (cs : List Char) : List Nat :=
  cs.filterMap Text.digit?

/-- The exponent that the text after the fraction of a number gives. -/
def exponentValue : List Char → Int
  | [] => 0
  | _ :: '-' :: rest => -(Number.ofDigits (digitsOf rest) : Int)
  | _ :: rest => Number.ofDigits (digitsOf rest)

/-- The decimal that a number lexeme stands for. -/
def decimalOf (lexeme : List Char) : Number.Decimal :=
  let whole := digitRun lexeme
  let fraction := fractionLength (lexeme.drop whole)
  ⟨Number.ofDigits (digitsOf (lexeme.take (whole + fraction))),
    exponentValue (lexeme.drop (whole + fraction)) - (fraction - 1 : Nat)⟩

/-! ### Names and signs -/

def isNameStart (c : Char) : Bool :=
  c.isAlpha || c = '_'

def isNamePart (c : Char) : Bool :=
  c.isAlphanum || c = '_'

/-- The length of the name at the head of a text, zero if there is none. -/
def nameLength : List Char → Nat
  | c :: rest => if isNameStart c then 1 + (rest.takeWhile isNamePart).length else 0
  | [] => 0

/-- The word `to` in any case joins the ends of a range; any other word is a name. -/
def wordOf (cs : List Char) : Lexeme :=
  if cs.map Char.toLower = ['t', 'o'] then .rangeWord (String.ofList cs)
  else .name (String.ofList cs)

def signOf : Char → Option Lexeme
  | '+' => some (.operator .add)
  | '-' => some (.operator .subtract)
  | '*' => some (.operator .multiply)
  | '/' => some (.operator .divide)
  | '^' => some (.operator .power)
  | '(' => some .opening
  | ')' => some .closing
  | ',' => some .comma
  | _ => none

/-! ### Lexemes and tokens -/

/-- The longest lexeme at the head of a text, and its length. -/
def lexeme? (cs : List Char) : Option (Lexeme × Nat) :=
  if numberLength cs ≠ 0 then
    some (.number (decimalOf (cs.take (numberLength cs))).nearest, numberLength cs)
  else if nameLength cs ≠ 0 then some (wordOf (cs.take (nameLength cs)), nameLength cs)
  else (cs.head?.bind signOf).map (·, 1)

/-- Whether a number of the given length has a point right after it. -/
def isDotted (length : Nat) (cs : List Char) : Bool :=
  numberLength cs = length && cs[length]? = some '.'

/-- The tokens of a text whose first character has the given position. -/
def tokensFrom (position : Nat) (cs : List Char) : Except SyntaxError (List Token) :=
  match cs with
  | [] => .ok []
  | c :: rest =>
    if Text.isBlank c then tokensFrom (position + 1) rest
    else
      match lexeme? (c :: rest) with
      | none => .error ⟨.unrecognized c, some position, String.ofList (c :: rest)⟩
      | some (lexeme, length) =>
        if isDotted length (c :: rest) then
          .error ⟨.malformedNumber ((c :: rest).take (length + 1)), some position,
            String.ofList (c :: rest)⟩
        else
          match tokensFrom (position + length) (rest.drop (length - 1)) with
          | .error e => .error e
          | .ok tokens => .ok (⟨lexeme, position⟩ :: tokens)
termination_by cs.length

/-- The tokens of a formula. -/
def tokens (text : String) : Except SyntaxError (List Token) :=
  tokensFrom 0 text.toList

end MonteCarloSheet.Formula
