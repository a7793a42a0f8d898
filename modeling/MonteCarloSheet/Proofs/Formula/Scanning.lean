import MonteCarloSheet.Proofs.Formula.Reading

/-! The parsers as steps.

What a parser comes to, with a tree or with a failure, and the tokens that it leaves,
is a `Scan`: a function of the tokens that is put together from steps, each of which
looks at the first token that is left or goes on with another scan. Every parser is
such a composition (`scan_atom` to `scan_range`), so what holds of the steps holds of
the parsers. -/
namespace MonteCarloSheet.Formula.Parser

/-- What is read from tokens or the reason why nothing is, and the tokens that are left. -/
abbrev Scan (α : Type) := List Token → Except Malformation α × List Token

/-- What a parser has come to. -/
def outcome : Except Failure (Parsed α ts) → Except Malformation α × List Token
  | .ok r => (.ok r.value, r.rest)
  | .error f => (.error f.reason, f.rest)

def scan (p : Parser α) : Scan α := fun ts => outcome (p ts)

theorem reads_iff_scan {p : Parser α} {ts : List Token} {x : α} {rest : List Token} :
    Reads p ts x rest ↔ scan p ts = (.ok x, rest) := by
  rw [Reads, scan]
  cases p ts with
  | error f => simp [outcome]
  | ok r => simp [outcome]

/-! ### Steps -/

namespace Scan

/-- Takes nothing. -/
def done (x : α) : Scan α := fun ts => (.ok x, ts)

/-- Fails at the first token. -/
def fails (reason : List Token → Malformation) : Scan α := fun ts => (.error (reason ts), ts)

/-- Goes on where the first scan stops. -/
def andThen (first : Scan α) (next : α → Scan β) : Scan β := fun ts =>
  match first ts with
  | (.ok x, rest) => next x rest
  | (.error reason, rest) => (.error reason, rest)

/-- Takes the first token if it is of some kind. -/
def take (kind : Lexeme → Option β) (hit : β → Scan α) (miss : Scan α) : Scan α := fun ts =>
  match ts with
  | [] => miss []
  | token :: rest =>
    match kind token.lexeme with
    | some x => hit x rest
    | none => miss (token :: rest)

/-- Looks whether the first token is of some kind. -/
def peek (kind : Lexeme → Option β) (hit miss : Scan α) : Scan α := fun ts =>
  if ts.head?.any (kind ·.lexeme |>.isSome) then hit ts else miss ts

end Scan

/-! ### Kinds of tokens -/

def number? : Lexeme → Option Float
  | .number x => some x
  | _ => none

def name? : Lexeme → Option String
  | .name text => some text
  | _ => none

/-- An operator of a rank. -/
def ranked? (rank : Operator → Bool) : Lexeme → Option Operator
  | .operator o => if rank o then some o else none
  | _ => none

/-- The sign of an operator. -/
def sign? (o : Operator) : Lexeme → Option Unit
  | .operator o' => if o' = o then some () else none
  | _ => none

def rangeWord? : Lexeme → Option Unit
  | .rangeWord _ => some ()
  | _ => none

def opening? : Lexeme → Option Unit
  | .opening => some ()
  | _ => none

def closing? : Lexeme → Option Unit
  | .closing => some ()
  | _ => none

def comma? : Lexeme → Option Unit
  | .comma => some ()
  | _ => none

/-! ### The parsers -/

/-- Fails where something is expected. -/
def lacks (what : Expected) : Scan α :=
  .fails fun ts => .expected what (shownAt ts)

/-- A closing parenthesis behind what has been read. -/
def closed (what : Expected) (x : α) : Scan α :=
  .take closing? (fun _ => .done x) (lacks what)

section
variable (inner : Inner)

theorem scan_moreArguments : scan (moreArguments inner) =
    .take comma? (fun _ => (scan inner.range).andThen fun first =>
      (scan (moreArguments inner)).andThen fun others => .done (first :: others)) (.done []) := by
  funext ts
  rw [scan, moreArguments.eq_def]
  split
  next p rest =>
    simp only [Scan.take, comma?, Scan.andThen, scan]
    cases inner.range rest with
    | error f => rfl
    | ok first =>
      simp only [outcome]
      cases moreArguments inner first.rest <;> rfl
  next other =>
    rcases ts with _ | ⟨⟨lexeme, q⟩, rest⟩
    · rfl
    · cases lexeme <;> first | rfl | exact (other q rest rfl).elim

theorem scan_arguments : scan (arguments inner) =
    .peek closing? (.done [])
      ((scan inner.range).andThen fun first =>
        (scan (moreArguments inner)).andThen fun others => .done (first :: others)) := by
  funext ts
  have others : (∀ p rest, ts ≠ ⟨.closing, p⟩ :: rest) →
      ts.head?.any (closing? ·.lexeme |>.isSome) = false := by
    intro other
    rcases ts with _ | ⟨⟨lexeme, q⟩, rest⟩
    · rfl
    · cases lexeme <;> first | rfl | exact (other q rest rfl).elim
  rw [scan]
  unfold arguments
  split
  next p rest => rfl
  next other =>
    rw [Scan.peek, others fun p rest => other p rest]
    simp only [Scan.andThen, scan]
    cases inner.range ts with
    | error f => rfl
    | ok first =>
      simp only [outcome]
      cases moreArguments inner first.rest <;> rfl

theorem scan_atom : scan (atom inner) =
    .take number? (fun x => .done (.number x)) (
    .take name? (fun name =>
      .take opening? (fun _ => (scan (arguments inner)).andThen fun es =>
          closed .closingArguments (.call name es))
        (.done (.reference name))) (
    .take opening? (fun _ => (scan inner.range).andThen (closed .closingExpression)) (
    lacks .expression))) := by
  funext ts
  rcases ts with _ | ⟨⟨lexeme, p⟩, rest⟩
  · rfl
  · cases lexeme with
    | name f =>
      rcases rest with _ | ⟨⟨lexeme, q⟩, rest⟩
      · rfl
      · cases lexeme with
        | opening =>
          simp only [Scan.take, number?, name?, opening?, Scan.andThen, scan, atom]
          cases arguments inner rest with
          | error f => rfl
          | ok es =>
            obtain ⟨es, behind, shorter⟩ := es
            rcases behind with _ | ⟨⟨lexeme, r⟩, rest⟩
            · rfl
            · cases lexeme <;> rfl
        | _ => rfl
    | opening =>
      simp only [Scan.take, number?, name?, opening?, Scan.andThen, scan, atom]
      cases inner.range rest with
      | error f => rfl
      | ok e =>
        obtain ⟨e, behind, shorter⟩ := e
        rcases behind with _ | ⟨⟨lexeme, q⟩, rest⟩
        · rfl
        · cases lexeme <;> rfl
    | _ => rfl

theorem scan_exponent : scan (exponent inner) =
    .peek (sign? .subtract) (scan inner.negation) (scan inner.power) := by
  funext ts
  cases ts with
  | nil => rfl
  | cons token rest =>
    obtain ⟨lexeme, q⟩ := token
    cases lexeme with
    | operator o => cases o <;> rfl
    | _ => rfl

theorem scan_power : scan (power inner) =
    (scan (atom inner)).andThen fun base =>
      .take (sign? .power) (fun _ => (scan (exponent inner)).andThen fun raised =>
        .done (.binary .power base raised)) (.done base) := by
  funext ts
  rw [scan, power, Scan.andThen, scan]
  cases atom inner ts with
  | error f => rfl
  | ok base =>
    obtain ⟨x, mid, shorter⟩ := base
    simp only [outcome]
    rcases mid with _ | ⟨⟨lexeme, q⟩, rest⟩
    · rfl
    · cases lexeme with
      | operator o =>
        cases o with
        | power =>
          simp only [Scan.take, sign?, if_true, Scan.andThen, scan]
          cases exponent inner rest <;> rfl
        | _ => rfl
      | _ => rfl

theorem scan_negation : scan (negation inner) =
    .take (sign? .subtract) (fun _ => (scan inner.negation).andThen fun operand =>
      .done (.negation operand)) (scan (power inner)) := by
  funext ts
  rcases ts with _ | ⟨⟨lexeme, q⟩, rest⟩
  · rfl
  · cases lexeme with
    | operator o =>
      cases o with
      | subtract =>
        simp only [Scan.take, sign?, if_true, Scan.andThen, scan, negation]
        cases inner.negation rest <;> rfl
      | _ => rfl
    | _ => rfl

theorem scan_chain (rank : Operator → Bool) (operand : Parser Expr) (left : Expr) :
    scan (chain rank operand left) =
      .take (ranked? rank) (fun o => (scan operand).andThen fun right =>
        scan (chain rank operand (.binary o left right))) (.done left) := by
  funext ts
  rw [scan, chain.eq_def]
  split
  next o p rest =>
    by_cases ranks : rank o = true
    · simp only [Scan.take, ranked?, ranks, if_true, Scan.andThen, scan]
      cases operand rest with
      | error f => rfl
      | ok right =>
        simp only [outcome]
        cases chain rank operand (.binary o left right.value) right.rest <;> rfl
    · simp only [Scan.take, ranked?, ranks]
      rfl
  next other =>
    rcases ts with _ | ⟨⟨lexeme, q⟩, rest⟩
    · rfl
    · cases lexeme <;> first | rfl | exact (other _ q rest rfl).elim

theorem scan_ranked (rank : Operator → Bool) (operand : Parser Expr) :
    scan (ranked rank operand) = (scan operand).andThen fun left =>
      scan (chain rank operand left) := by
  funext ts
  rw [scan, ranked, Scan.andThen, scan]
  cases operand ts with
  | error f => rfl
  | ok left =>
    simp only [outcome, scan]
    cases chain rank operand left.value left.rest <;> rfl

theorem scan_range : scan (range inner) =
    (scan (sum inner)).andThen fun left =>
      .take rangeWord? (fun _ => (scan (sum inner)).andThen fun right =>
        .done (.range left right)) (.done left) := by
  funext ts
  rw [scan, range, Scan.andThen, scan]
  cases sum inner ts with
  | error f => rfl
  | ok left =>
    obtain ⟨x, mid, shorter⟩ := left
    simp only [outcome]
    rcases mid with _ | ⟨⟨lexeme, q⟩, rest⟩
    · rfl
    · cases lexeme with
      | rangeWord w =>
        simp only [Scan.take, rangeWord?, Scan.andThen, scan]
        cases sum inner rest <;> rfl
      | _ => rfl

end

end MonteCarloSheet.Formula.Parser
