import MonteCarloSheet.Formula.Expr
import MonteCarloSheet.Formula.Lexer

/-! From tokens to trees.

From the loosest to the tightest, a formula is a range `x to y`, a sum, a
product, a negation, a power and an atom. Sums and products associate to the
left and powers to the right; a negation may stand in an exponent.

Parentheses, call arguments, negations and exponents nest, at most 64 deep. What
may stand one level further in is given as a record of parsers, so that the
levels recurse on the number of levels left and the loops on the tokens. A
parser's result carries a proof that the rest is no longer than the input. -/
namespace MonteCarloSheet.Formula

/-- A value read from the head of `ts`, and the tokens after it. -/
structure Parsed (α : Type) (ts : List Token) where
  value : α
  rest : List Token
  shorter : rest.length ≤ ts.length

/-- Why the tokens are no formula, and the tokens from the offending one on. -/
structure Failure where
  reason : Malformation
  rest : List Token

abbrev Parser (α : Type) := (ts : List Token) → Except Failure (Parsed α ts)

namespace Parsed

def map (f : α → β) (p : Parsed α ts) : Parsed β ts :=
  ⟨f p.value, p.rest, p.shorter⟩

/-- The same result, read from a longer input. -/
def widen (p : Parsed α ts) (h : ts.length ≤ us.length) : Parsed α us :=
  ⟨p.value, p.rest, Nat.le_trans p.shorter h⟩

end Parsed

namespace Parser

/-- What may stand one level further in. -/
structure Inner where
  range : Parser Expr
  negation : Parser Expr
  power : Parser Expr

def levels : Nat := 64

/-- No level is left. -/
def Inner.none : Inner where
  range := fun ts => .error ⟨.tooNested levels, ts⟩
  negation := fun ts => .error ⟨.tooNested levels, ts⟩
  power := fun ts => .error ⟨.tooNested levels, ts⟩

def expected (what : Expected) (ts : List Token) : Except Failure α :=
  .error ⟨.expected what (shownAt ts), ts⟩

/-! ### Atoms and calls -/

/-- A closing parenthesis after something already read. -/
def close (what : Expected) (p : Parsed α ts) : Except Failure (Parsed α ts) :=
  match h : p.rest with
  | ⟨.closing, _⟩ :: rest =>
    .ok ⟨p.value, rest, by
      have := p.shorter
      rw [h, List.length_cons] at this
      omega⟩
  | others => expected what others

/-- The arguments after the first, each behind a comma. -/
def moreArguments (inner : Inner) (ts : List Token) : Except Failure (Parsed (List Expr) ts) :=
  match ts with
  | ⟨.comma, _⟩ :: rest =>
    match inner.range rest with
    | .error e => .error e
    | .ok first =>
      match moreArguments inner first.rest with
      | .error e => .error e
      | .ok others =>
        .ok ⟨first.value :: others.value, others.rest, by
          have := first.shorter
          have := others.shorter
          simp only [List.length_cons]
          omega⟩
  | ts => .ok ⟨[], ts, Nat.le_refl _⟩
termination_by ts.length
decreasing_by
  have := first.shorter
  simp only [List.length_cons]
  omega

/-- The arguments of a call up to its closing parenthesis, which stays. -/
def arguments (inner : Inner) : Parser (List Expr)
  | ⟨.closing, position⟩ :: rest => .ok ⟨[], ⟨.closing, position⟩ :: rest, Nat.le_refl _⟩
  | ts =>
    match inner.range ts with
    | .error e => .error e
    | .ok first =>
      match moreArguments inner first.rest with
      | .error e => .error e
      | .ok others =>
        .ok ⟨first.value :: others.value, others.rest, Nat.le_trans others.shorter first.shorter⟩

/-- A number, a reference, a call or an expression in parentheses. -/
def atom (inner : Inner) : Parser Expr
  | ⟨.number value, _⟩ :: rest => .ok ⟨.number value, rest, Nat.le_succ _⟩
  | ⟨.name function, _⟩ :: ⟨.opening, _⟩ :: rest =>
    match arguments inner rest with
    | .error e => .error e
    | .ok args =>
      match close .closingArguments args with
      | .error e => .error e
      | .ok args =>
        .ok ((args.map (Expr.call function)).widen (by simp only [List.length_cons]; omega))
  | ⟨.name name, _⟩ :: rest => .ok ⟨.reference name, rest, Nat.le_succ _⟩
  | ⟨.opening, _⟩ :: rest =>
    match inner.range rest with
    | .error e => .error e
    | .ok e =>
      match close .closingExpression e with
      | .error e => .error e
      | .ok e => .ok (e.widen (Nat.le_succ _))
  | ts => expected .expression ts

/-! ### Powers and negations -/

/-- What an exponent may be: a negation if it begins with a minus sign, else a power. -/
def exponent (inner : Inner) : Parser Expr
  | ⟨.operator .subtract, position⟩ :: rest =>
    inner.negation (⟨.operator .subtract, position⟩ :: rest)
  | ts => inner.power ts

/-- An atom with an optional exponent. -/
def power (inner : Inner) : Parser Expr := fun ts =>
  match atom inner ts with
  | .error e => .error e
  | .ok base =>
    match h : base.rest with
    | ⟨.operator .power, _⟩ :: rest =>
      match exponent inner rest with
      | .error e => .error e
      | .ok raised =>
        .ok ⟨.binary .power base.value raised.value, raised.rest, by
          have := base.shorter
          have := raised.shorter
          rw [h, List.length_cons] at *
          omega⟩
    | _ => .ok base

def negation (inner : Inner) : Parser Expr
  | ⟨.operator .subtract, _⟩ :: rest =>
    match inner.negation rest with
    | .error e => .error e
    | .ok operand => .ok ((operand.map Expr.negation).widen (Nat.le_succ _))
  | ts => power inner ts

/-! ### Products, sums and ranges -/

/-- Operators of one rank with their right operands, gathered to the left. -/
def chain (ranked : Operator → Bool) (operand : Parser Expr) (left : Expr) (ts : List Token) :
    Except Failure (Parsed Expr ts) :=
  match ts with
  | ⟨.operator o, position⟩ :: rest =>
    if ranked o then
      match operand rest with
      | .error e => .error e
      | .ok right =>
        match chain ranked operand (.binary o left right.value) right.rest with
        | .error e => .error e
        | .ok whole => .ok (whole.widen (Nat.le_trans right.shorter (Nat.le_succ _)))
    else .ok ⟨left, ⟨.operator o, position⟩ :: rest, Nat.le_refl _⟩
  | ts => .ok ⟨left, ts, Nat.le_refl _⟩
termination_by ts.length
decreasing_by
  have := right.shorter
  simp only [List.length_cons]
  omega

/-- An operand and a chain of operators of one rank behind it. -/
def ranked (rank : Operator → Bool) (operand : Parser Expr) : Parser Expr := fun ts =>
  match operand ts with
  | .error e => .error e
  | .ok left =>
    match chain rank operand left.value left.rest with
    | .error e => .error e
    | .ok whole => .ok (whole.widen left.shorter)

def isProduct : Operator → Bool
  | .multiply => true
  | .divide => true
  | _ => false

def isSum : Operator → Bool
  | .add => true
  | .subtract => true
  | _ => false

def product (inner : Inner) : Parser Expr := ranked isProduct (negation inner)

def sum (inner : Inner) : Parser Expr := ranked isSum (product inner)

def range (inner : Inner) : Parser Expr := fun ts =>
  match sum inner ts with
  | .error e => .error e
  | .ok left =>
    match h : left.rest with
    | ⟨.rangeWord _, _⟩ :: rest =>
      match sum inner rest with
      | .error e => .error e
      | .ok right =>
        .ok ⟨.range left.value right.value, right.rest, by
          have := left.shorter
          have := right.shorter
          rw [h, List.length_cons] at *
          omega⟩
    | _ => .ok left

/-! ### Formulas -/

/-- What may stand inside when so many levels are left. -/
def within : Nat → Inner
  | 0 => Inner.none
  | n + 1 =>
    let inner := within n
    ⟨range inner, negation inner, power inner⟩

/-- A whole formula from its tokens. -/
def ofTokens (ts : List Token) : Except Failure Expr :=
  match range (within levels) ts with
  | .error e => .error e
  | .ok whole =>
    match whole.rest with
    | [] => .ok whole.value
    | others => .error ⟨.unexpected (shownAt others), others⟩

end Parser

/-- The place of a failure in the text. -/
def Failure.locate (text : String) (e : Failure) : SyntaxError :=
  let position := match e.rest with
    | [] => text.length
    | token :: _ => token.position
  ⟨e.reason, some position, String.ofList (text.toList.drop position)⟩

/-- The tree of a formula; there is no formula, or an empty one, in a blank text. -/
def parse : Option String → Except SyntaxError Expr
  | .none => .error .empty
  | some text =>
    if Text.isBlankText text.toList then .error .empty
    else
      match tokens text with
      | .error e => .error e
      | .ok ts =>
        match Parser.ofTokens ts with
        | .error e => .error (e.locate text)
        | .ok e => .ok e

end MonteCarloSheet.Formula
