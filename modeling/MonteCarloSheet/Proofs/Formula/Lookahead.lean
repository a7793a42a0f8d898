import MonteCarloSheet.Proofs.Formula.Scanning

/-! One token of lookahead.

A parser takes some tokens and looks at no more than one behind them: whatever else
follows that one, it comes to the same result and leaves what follows
(`Scan.LooksAt`). Each step of a scan keeps this, and the loops keep it by induction
on the tokens that are left, so all parsers have it, whether they read a tree or fail
(`range_looksAt`). Hence a failure is reported at the first token after which no
formula can go on (`ofTokens_error_early`). -/
namespace MonteCarloSheet.Formula.Parser

/-! ### Steps -/

namespace Scan

/-- From these tokens the scan takes some and looks at one more at most. -/
def LooksAt (f : Scan α) (ts : List Token) : Prop :=
  ∃ read out rest, ts = read ++ rest ∧
    ∀ tail, tail.head? = rest.head? → f (read ++ tail) = (out, tail)

variable {f : Scan α} {ts : List Token}

theorem LooksAt.exists_eq (h : f.LooksAt ts) : ∃ read out rest, ts = read ++ rest ∧
    f ts = (out, rest) ∧ ∀ tail, tail.head? = rest.head? → f (read ++ tail) = (out, tail) := by
  obtain ⟨read, out, rest, rfl, looks⟩ := h
  exact ⟨read, out, rest, rfl, looks rest rfl, looks⟩

theorem LooksAt.length_le (h : f.LooksAt ts) {out : Except Malformation α} {rest : List Token}
    (result : f ts = (out, rest)) : rest.length ≤ ts.length := by
  obtain ⟨read, out', rest', rfl, result', -⟩ := h.exists_eq
  obtain ⟨-, rfl⟩ := Prod.mk.inj (result.symm.trans result')
  rw [List.length_append]
  exact Nat.le_add_left ..

theorem head?_append {tail rest : List Token} (read : List Token) (same : tail.head? = rest.head?) :
    (read ++ tail).head? = (read ++ rest).head? := by
  cases read with
  | nil => exact same
  | cons token read => rfl

theorem done_looksAt (x : α) (ts : List Token) : (done x).LooksAt ts :=
  ⟨[], .ok x, ts, rfl, fun _ _ => rfl⟩

theorem fails_looksAt {reason : List Token → Malformation}
    (first : ∀ ts us, ts.head? = us.head? → reason ts = reason us) (ts : List Token) :
    (fails reason : Scan α).LooksAt ts :=
  ⟨[], .error (reason ts), ts, rfl, fun tail same => by
    rw [List.nil_append, fails, first tail ts same]⟩

theorem LooksAt.andThen {next : α → Scan β} (first : f.LooksAt ts)
    (then_ : ∀ x rest, f ts = (.ok x, rest) → (next x).LooksAt rest) :
    (f.andThen next).LooksAt ts := by
  obtain ⟨read, out, rest, split, result, looks⟩ := first.exists_eq
  cases out with
  | error reason =>
    refine ⟨read, .error reason, rest, split, fun tail same => ?_⟩
    rw [Scan.andThen, looks tail same]
  | ok x =>
    obtain ⟨more, out, rest', rfl, looks'⟩ := then_ x rest result
    refine ⟨read ++ more, out, rest', by rw [split, List.append_assoc], fun tail same => ?_⟩
    rw [List.append_assoc, Scan.andThen, looks (more ++ tail) (head?_append more same)]
    exact looks' tail same

theorem take_looksAt {kind : Lexeme → Option β} {hit : β → Scan α} {miss : Scan α}
    (hits : ∀ x token rest, ts = token :: rest → kind token.lexeme = some x → (hit x).LooksAt rest)
    (misses : miss.LooksAt ts) : (take kind hit miss).LooksAt ts := by
  by_cases found : ∃ x token rest, ts = token :: rest ∧ kind token.lexeme = some x
  · obtain ⟨x, token, rest, rfl, is⟩ := found
    obtain ⟨read, out, rest', rfl, looks⟩ := hits x token rest rfl is
    refine ⟨token :: read, out, rest', rfl, fun tail same => ?_⟩
    rw [List.cons_append, take, is]
    exact looks tail same
  · have other : ∀ us, us.head? = ts.head? → take kind hit miss us = miss us := by
      intro us same
      cases us with
      | nil => rfl
      | cons token rest =>
        cases ts with
        | nil => cases same
        | cons token' rest' =>
          cases same
          have is : kind token.lexeme = none :=
            Option.eq_none_iff_forall_ne_some.2 fun x is => found ⟨x, token, rest', rfl, is⟩
          rw [take, is]
    obtain ⟨read, out, rest, split, looks⟩ := misses
    refine ⟨read, out, rest, split, fun tail same => ?_⟩
    rw [other _ (split ▸ head?_append read same)]
    exact looks tail same

theorem peek_looksAt {kind : Lexeme → Option β} {hit miss : Scan α} (hits : hit.LooksAt ts)
    (misses : miss.LooksAt ts) : (peek kind hit miss).LooksAt ts := by
  by_cases found : ts.head?.any (kind ·.lexeme |>.isSome) = true
  · obtain ⟨read, out, rest, split, looks⟩ := hits
    refine ⟨read, out, rest, split, fun tail same => ?_⟩
    rw [peek, head?_append read same, ← split, if_pos found]
    exact looks tail same
  · obtain ⟨read, out, rest, split, looks⟩ := misses
    refine ⟨read, out, rest, split, fun tail same => ?_⟩
    rw [peek, head?_append read same, ← split, if_neg found]
    exact looks tail same

end Scan

open Scan

/-! ### Parsers -/

theorem lacks_looksAt (what : Expected) (ts : List Token) : (lacks what : Scan α).LooksAt ts := by
  refine fails_looksAt (fun ts us same => ?_) ts
  cases ts <;> cases us <;> cases same <;> rfl

theorem closed_looksAt (what : Expected) (x : α) (ts : List Token) : (closed what x).LooksAt ts :=
  take_looksAt (fun _ _ rest _ _ => done_looksAt x rest) (lacks_looksAt what ts)

/-- What may stand one level further in takes some tokens and looks at one more. -/
structure Inner.Looks (inner : Inner) : Prop where
  range : ∀ ts, (scan inner.range).LooksAt ts
  negation : ∀ ts, (scan inner.negation).LooksAt ts
  power : ∀ ts, (scan inner.power).LooksAt ts

section
variable {inner : Inner} (h : inner.Looks)
include h

theorem moreArguments_looksAt (ts : List Token) : (scan (moreArguments inner)).LooksAt ts := by
  induction length : ts.length using Nat.strongRecOn generalizing ts with
  | _ n ih =>
    rw [scan_moreArguments]
    refine take_looksAt (fun _ token rest split _ => ?_) (done_looksAt _ ts)
    refine (h.range rest).andThen fun first mid result => ?_
    refine (ih mid.length ?_ mid rfl).andThen fun others rest _ => done_looksAt _ rest
    rw [← length, split]
    exact Nat.lt_succ_of_le ((h.range rest).length_le result)

theorem arguments_looksAt (ts : List Token) : (scan (arguments inner)).LooksAt ts := by
  rw [scan_arguments]
  exact peek_looksAt (done_looksAt _ ts) ((h.range ts).andThen fun first mid _ =>
    (moreArguments_looksAt h mid).andThen fun others rest _ => done_looksAt _ rest)

theorem atom_looksAt (ts : List Token) : (scan (atom inner)).LooksAt ts := by
  rw [scan_atom]
  refine take_looksAt (fun x _ rest _ _ => done_looksAt _ rest) ?_
  refine take_looksAt (fun name _ rest _ _ => ?_) ?_
  · exact take_looksAt (fun _ _ rest _ _ => (arguments_looksAt h rest).andThen fun es rest _ =>
      closed_looksAt _ _ rest) (done_looksAt _ rest)
  · exact take_looksAt (fun _ _ rest _ _ => (h.range rest).andThen fun e rest _ =>
      closed_looksAt _ e rest) (lacks_looksAt _ ts)

theorem exponent_looksAt (ts : List Token) : (scan (exponent inner)).LooksAt ts := by
  rw [scan_exponent]
  exact peek_looksAt (h.negation ts) (h.power ts)

theorem power_looksAt (ts : List Token) : (scan (power inner)).LooksAt ts := by
  rw [scan_power]
  exact (atom_looksAt h ts).andThen fun base mid _ =>
    take_looksAt (fun _ _ rest _ _ => (exponent_looksAt h rest).andThen fun raised rest _ =>
      done_looksAt _ rest) (done_looksAt base mid)

theorem negation_looksAt (ts : List Token) : (scan (negation inner)).LooksAt ts := by
  rw [scan_negation]
  exact take_looksAt (fun _ _ rest _ _ => (h.negation rest).andThen fun operand rest _ =>
    done_looksAt _ rest) (power_looksAt h ts)

omit h in
theorem chain_looksAt {rank : Operator → Bool} {operand : Parser Expr}
    (operands : ∀ ts, (scan operand).LooksAt ts) (left : Expr) (ts : List Token) :
    (scan (chain rank operand left)).LooksAt ts := by
  induction length : ts.length using Nat.strongRecOn generalizing ts left with
  | _ n ih =>
    rw [scan_chain]
    refine take_looksAt (fun o token rest split _ => ?_) (done_looksAt left ts)
    refine (operands rest).andThen fun right mid result => ?_
    refine ih mid.length ?_ _ mid rfl
    rw [← length, split]
    exact Nat.lt_succ_of_le ((operands rest).length_le result)

omit h in
theorem ranked_looksAt {rank : Operator → Bool} {operand : Parser Expr}
    (operands : ∀ ts, (scan operand).LooksAt ts) (ts : List Token) :
    (scan (ranked rank operand)).LooksAt ts := by
  rw [scan_ranked]
  exact (operands ts).andThen fun left mid _ => chain_looksAt operands left mid

theorem sum_looksAt (ts : List Token) : (scan (sum inner)).LooksAt ts :=
  ranked_looksAt (ranked_looksAt (negation_looksAt h)) ts

theorem range_looksAt (ts : List Token) : (scan (range inner)).LooksAt ts := by
  rw [scan_range]
  exact (sum_looksAt h ts).andThen fun left mid _ =>
    take_looksAt (fun _ _ rest _ _ => (sum_looksAt h rest).andThen fun right rest _ =>
      done_looksAt _ rest) (done_looksAt left mid)

end

theorem within_looks (n : Nat) : (within n).Looks := by
  induction n with
  | zero =>
    have none : ∀ ts, (scan (fun ts => .error ⟨.tooNested levels, ts⟩ : Parser Expr)).LooksAt ts :=
      fails_looksAt fun _ _ _ => rfl
    exact ⟨none, none, none⟩
  | succ n ih => exact ⟨range_looksAt ih, negation_looksAt ih, power_looksAt ih⟩

/-! ### Formulas -/

/-- A formula is a range that leaves no tokens. -/
theorem ofTokens_eq_scan (ts : List Token) : ofTokens ts =
    match scan (range (within levels)) ts with
    | (.error reason, rest) => .error ⟨reason, rest⟩
    | (.ok e, []) => .ok e
    | (.ok _, token :: rest) => .error ⟨.unexpected (shownAt (token :: rest)), token :: rest⟩ := by
  rw [ofTokens, scan]
  cases range (within levels) ts with
  | error f => rfl
  | ok whole =>
    obtain ⟨e, rest, shorter⟩ := whole
    cases rest <;> rfl

/-- Where no formula is found, the tokens up to and with the one at which the failure is reported
begin no formula. -/
theorem ofTokens_error_early {ts : List Token} {f : Failure} (fails : ofTokens ts = .error f) :
    ∃ before, ts = before ++ f.rest ∧
      ∀ tail, tail.head? = f.rest.head? → ∀ e, ofTokens (before ++ tail) ≠ .ok e := by
  obtain ⟨read, out, rest, split, result, looks⟩ :=
    (range_looksAt (within_looks levels) ts).exists_eq
  rw [ofTokens_eq_scan, result] at fails
  cases out with
  | error reason =>
    cases fails
    refine ⟨read, split, fun tail same e absurd => ?_⟩
    rw [ofTokens_eq_scan, looks tail same] at absurd
    cases absurd
  | ok whole =>
    cases rest with
    | nil => cases fails
    | cons token rest =>
      cases fails
      refine ⟨read, split, fun tail same e absurd => ?_⟩
      rw [ofTokens_eq_scan, looks tail same] at absurd
      cases tail with
      | nil => cases same
      | cons token tail => cases absurd

end MonteCarloSheet.Formula.Parser
