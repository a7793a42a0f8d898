import MonteCarloSheet.Proofs.Formula.Completion
import MonteCarloSheet.Proofs.Formula.Lexing

/-! Syntax errors show at the earliest token.

The token at which a text is rejected, or its end, is the first one that no formula can
go on with. Up to and with it, the tokens begin no formula, as a failure depends on no
token behind the one at which it is reported (`Parser.ofTokens_error_early`). The tokens
before it begin a formula, unless levels are missing: the text before that token, with
fillers for what is still open behind it, is a text of one (`Parser.ofTokens_error_endable`,
`Lexes.cut`). -/
namespace MonteCarloSheet.Formula

/-! ### Texts of fillers -/

namespace Filler

/-- Fillers with a blank before each. -/
def spread (fill : List Filler) : List Char :=
  fill.flatMap fun filler => [' ', filler.char]

theorem spread_apart (fill : List Filler) : Apart (spread fill) := by
  cases fill with
  | nil => exact apart_nil
  | cons filler fill => exact apart_cons (by decide)

theorem lexeme?_char (filler : Filler) : lexeme? [filler.char] = some (filler.lexeme, 1) := by
  cases filler <;> rfl

theorem lexes_spread (position : Nat) (fill : List Filler) :
    ∃ more, Lexes position (spread fill) more ∧
      more.map Token.lexeme = fill.map Filler.lexeme := by
  induction fill generalizing position with
  | nil => exact ⟨[], .nil, rfl⟩
  | cons filler fill ih =>
    obtain ⟨more, lexes, fills⟩ := ih (position + 1 + 1)
    have found : lexeme? (filler.char :: spread fill) = some (filler.lexeme, 1) :=
      lexeme?_cut (lexeme?_char filler) (Nat.le_refl 1) (spread_apart fill)
    have undotted : isDotted 1 (filler.char :: spread fill) = false :=
      isDotted_cut (lexeme?_char filler) (by cases filler <;> decide) (Nat.le_refl 1)
        (spread_apart fill)
    refine ⟨⟨filler.lexeme, position + 1⟩ :: more, ?_, by rw [List.map_cons, fills, List.map_cons]⟩
    exact .blank (by decide) (.token (by cases filler <;> decide) found undotted lexes)

end Filler

/-! ### Texts of formulas -/

theorem Lexes.inked {position : Nat} {cs : List Char} {ts : List Token}
    (h : Lexes position cs ts) (filled : ts ≠ []) : Text.isBlankText cs = false := by
  induction h with
  | nil => exact (filled rfl).elim
  | blank _ _ ih =>
    rw [Text.isBlankText, List.all_cons, Bool.and_eq_false_iff]
    exact .inr (ih filled)
  | token solid _ _ _ _ =>
    rw [Text.isBlankText, List.all_cons, solid]
    rfl

theorem parse_eq {text : String} {ts : List Token} (inked : Text.isBlankText text.toList = false)
    (lexes : tokens text = .ok ts) :
    parse (some text) = (Parser.ofTokens ts).mapError (Failure.locate text) := by
  rw [parse, if_neg (by rw [inked]; decide), lexes]
  dsimp only
  cases Parser.ofTokens ts <;> rfl

/-- A text of the tokens of a formula is read as that formula. -/
theorem parse_of_lexes {cs : List Char} {ts : List Token} {e : Expr} (lexes : Lexes 0 cs ts)
    (derives : Derives .range 64 ts e) : parse (some (String.ofList cs)) = .ok e := by
  have filled : ts ≠ [] := by
    obtain ⟨lexeme, p, rest, rfl, -⟩ := derives.begins
    exact List.cons_ne_nil _ _
  rw [← String.toList_ofList (l := cs)] at lexes
  rw [parse_eq (lexes.inked filled) lexes.tokensFrom, Parser.ofTokens_eq_ok.2 derives.reads]
  rfl

/-! ### The earliest token -/

/-- The lexemes of tokens and, behind them, the end of the formula. -/
def withEnd (ts : List Token) : List (Option Lexeme) :=
  ts.map (some ∘ Token.lexeme) ++ [none]

theorem take_withEnd (before rest : List Token) :
    (withEnd (before ++ rest)).take (before.length + 1) =
      before.map (some ∘ Token.lexeme) ++ [rest.head?.map Token.lexeme] := by
  rw [withEnd, List.map_append, List.append_assoc,
    show before.length = (before.map (some ∘ Token.lexeme)).length from (List.length_map ..).symm,
    List.take_length_add_append]
  cases rest <;> rfl

/-- What begins with given lexemes begins with tokens that have these lexemes. -/
theorem append_of_prefix {before us : List Token} {next : Option Lexeme}
    (begins : before.map (some ∘ Token.lexeme) ++ [next] <+: withEnd us) :
    ∃ same behind, us = same ++ behind ∧ same.map Token.lexeme = before.map Token.lexeme ∧
      behind.head?.map Token.lexeme = next := by
  induction before generalizing us with
  | nil =>
    obtain ⟨more, begins⟩ := begins
    refine ⟨[], us, rfl, rfl, ?_⟩
    cases us <;> exact (List.cons.inj begins).1.symm
  | cons token before ih =>
    cases us with
    | nil =>
      obtain ⟨more, begins⟩ := begins
      cases (List.cons.inj begins).1
    | cons first us =>
      obtain ⟨heads, begins⟩ := List.cons_prefix_cons.1 begins
      obtain ⟨same, behind, rfl, lexemes, next⟩ := ih begins
      refine ⟨first :: same, behind, rfl, ?_, next⟩
      rw [List.map_cons, List.map_cons, lexemes, Option.some.inj heads]

/-- Tokens with the lexemes of a formula are a formula, wherever they stand. -/
theorem ofTokens_moved {ts us : List Token} {e : Expr} (accepted : Parser.ofTokens ts = .ok e)
    (same : us.map Token.lexeme = ts.map Token.lexeme) : Parser.ofTokens us = .ok e := by
  obtain ⟨read, split, derives⟩ :=
    Parser.range_sound (Parser.within_sound 64) _ _ _ (Parser.ofTokens_eq_ok.1 accepted)
  rw [List.append_nil] at split
  rw [split] at same
  exact Parser.ofTokens_eq_ok.2 (derives.moved same).reads

theorem Parser.ofTokens_error_no_prefix {ts before us : List Token} {f : Failure} {e : Expr}
    (split : ts = before ++ f.rest)
    (early : ∀ tail, tail.head? = f.rest.head? → ∀ e, ofTokens (before ++ tail) ≠ .ok e)
    (accepted : ofTokens us = .ok e) :
    ¬ (withEnd ts).take (before.length + 1) <+: withEnd us := by
  intro begins
  rw [split, take_withEnd] at begins
  obtain ⟨same, behind, rfl, lexemes, next⟩ := append_of_prefix begins
  cases rest : f.rest with
  | nil =>
    rw [rest] at early next
    cases behind with
    | nil => exact early [] rfl e (ofTokens_moved accepted (by simp [lexemes]))
    | cons first behind => cases next
  | cons token rest' =>
    rw [rest] at early next
    cases behind with
    | nil => cases next
    | cons first behind =>
      have heads : first.lexeme = token.lexeme := Option.some.inj next
      exact early (token :: behind) rfl e (ofTokens_moved accepted (by simp [lexemes, heads]))

/-- A text whose tokens are no formula is rejected at the first of them, the end of the text
included, up to and with which no formula begins; the error names its position and shows the text
from there on. The tokens before it begin a formula, unless the nesting is what is wrong. -/
theorem rejected_at_earliest_token {text : String} {ts : List Token} {err : SyntaxError}
    (lexes : tokens text = .ok ts) (inked : Text.isBlankText text.toList = false)
    (rejected : parse (some text) = .error err) :
    ∃ before rest, ts = before ++ rest ∧
      err.position = some (startOf text.length rest) ∧
      err.fragment = String.ofList (text.toList.drop (startOf text.length rest)) ∧
      (∀ us e, Parser.ofTokens us = .ok e →
        ¬ (withEnd ts).take (before.length + 1) <+: withEnd us) ∧
      ((∀ n, err.reason ≠ .tooNested n) →
        ∃ whole more e, tokens whole = .ok (before ++ more) ∧ parse (some whole) = .ok e) := by
  rw [parse_eq inked lexes] at rejected
  cases fails : Parser.ofTokens ts with
  | ok e =>
    rw [fails] at rejected
    cases rejected
  | error f =>
    rw [fails] at rejected
    cases rejected
    have place : (f.locate text).position = some (startOf text.length f.rest) := by
      rw [Failure.locate]
      cases f.rest <;> rfl
    have shown : (f.locate text).fragment =
        String.ofList (text.toList.drop (startOf text.length f.rest)) := by
      rw [Failure.locate]
      cases f.rest <;> rfl
    obtain ⟨before, split, early⟩ := Parser.ofTokens_error_early fails
    refine ⟨before, f.rest, split, place, shown,
      fun us e => Parser.ofTokens_error_no_prefix split early, fun levels => ?_⟩
    obtain ⟨before', split', fill, ends⟩ := Parser.ofTokens_error_endable fails levels
    obtain rfl : before = before' := List.append_cancel_right (split.symm.trans split')
    have start := Nat.zero_add (startOf text.length f.rest)
    obtain ⟨more, behind, fills⟩ := Filler.lexes_spread (0 + startOf text.length f.rest) fill
    obtain ⟨e, derives⟩ := ends more fills
    have whole := (lexes_of_tokensFrom lexes).cut split (Nat.zero_add text.length) start.symm
      (Filler.spread_apart fill) behind
    refine ⟨_, more, e, ?_, parse_of_lexes whole derives⟩
    rw [tokens, String.toList_ofList]
    exact whole.tokensFrom

/-- In `2 * ) + 1` the parenthesis is rejected, whatever comes behind it. -/
theorem rejected_at_parenthesis : ∃ ts err before rest,
    tokens "2 * ) + 1" = .ok ts ∧ parse (some "2 * ) + 1") = .error err ∧ ts = before ++ rest ∧
      startOf 9 rest = 4 ∧ err.position = some 4 ∧ err.fragment = ") + 1" ∧
      (∀ us e, Parser.ofTokens us = .ok e →
        ¬ (withEnd ts).take (before.length + 1) <+: withEnd us) ∧
      ∃ whole more e, tokens whole = .ok (before ++ more) ∧ parse (some whole) = .ok e := by
  have reading : (tokens "2 * ) + 1").toOption.isSome = true := by decide +kernel
  have failing : (match parse (some "2 * ) + 1") with
      | .error err => some (err.position, err.fragment, err.reason)
      | .ok _ => none) = some (some 4, ") + 1", .expected .expression "')'") := by
    decide +kernel
  cases lexes : tokens "2 * ) + 1" with
  | error err =>
    rw [lexes] at reading
    cases reading
  | ok ts =>
    cases rejected : parse (some "2 * ) + 1") with
    | ok e =>
      rw [rejected] at failing
      cases failing
    | error err =>
      rw [rejected] at failing
      obtain ⟨place, shown, reason⟩ : err.position = some 4 ∧ err.fragment = ") + 1" ∧
          err.reason = .expected .expression "')'" := by
        simpa using failing
      obtain ⟨before, rest, split, position, -, early, ends⟩ :=
        rejected_at_earliest_token lexes (by decide) rejected
      have start : startOf 9 rest = 4 := Option.some.inj (position.symm.trans place)
      refine ⟨ts, err, before, rest, rfl, rfl, split, start, place, shown, early, ends ?_⟩
      rintro n nested
      rw [reason] at nested
      cases nested

end MonteCarloSheet.Formula
