import MonteCarloSheet.Text.Printable

/-! Quoted text, as messages show it.

Single quotes stand around the text, or double ones if it holds a single quote
and no double one. The backslash and the chosen quote are escaped by a
backslash; tab, line feed and carriage return have letters; any other
unprintable character is its code point in two, four or eight hexadecimal
digits. -/
namespace MonteCarloSheet.Text

/-- The last `n` hexadecimal digits of a number, in lower case. -/
def hexDigits : Nat → Nat → List Char
  | 0, _ => []
  | n + 1, value => hexDigits n (value / 16) ++ [Nat.digitChar (value % 16)]

theorem length_hexDigits (n value : Nat) : (hexDigits n value).length = n := by
  induction n generalizing value with
  | zero => rfl
  | succ n ih => simp [hexDigits, ih]

/-- How one character stands between quotes of the given kind. -/
def escape (quote c : Char) : List Char :=
  if c = quote ∨ c = '\\' then ['\\', c]
  else if c = '\t' then ['\\', 't']
  else if c = '\n' then ['\\', 'n']
  else if c = '\r' then ['\\', 'r']
  else if isPrintable c then [c]
  else if c.toNat < 0x100 then '\\' :: 'x' :: hexDigits 2 c.toNat
  else if c.toNat < 0x10000 then '\\' :: 'u' :: hexDigits 4 c.toNat
  else '\\' :: 'U' :: hexDigits 8 c.toNat

/-- The quote that needs fewer escapes: double only for a text with a single quote and no double. -/
def quoteFor (cs : List Char) : Char :=
  if cs.contains '\'' && !cs.contains '"' then '"' else '\''

def quotedChars (cs : List Char) : String :=
  let quote := quoteFor cs
  String.ofList (quote :: cs.flatMap (escape quote) ++ [quote])

def quoted (s : String) : String :=
  quotedChars s.toList

end MonteCarloSheet.Text
