import MonteCarloSheet.Formula.Parser

/-! The grammar of formulas.

    range    := sum ("to" sum)?
    sum      := sum ("+" | "-") product | product
    product  := product ("*" | "/") negation | negation
    negation := "-" negation | power
    power    := atom ("^" negation)?
    atom     := number | name | name "(" (range ("," range)*)? ")" | "(" range ")"

`Derives part n ts e` says that the tokens `ts` are a part of the grammar with the
tree `e`, by a derivation in which parentheses, call arguments, minus signs and
exponents stand at most `n` deep inside one another. A formula is a range that
takes all its tokens; `Derivable` forgets the depth. -/
namespace MonteCarloSheet.Formula

/-- The parts of the grammar, the loosest first. -/
inductive Part where
  | range
  | sum
  | product
  | negation
  | power
  | atom
deriving DecidableEq, Repr

mutual

inductive Derives : Part → Nat → List Token → Expr → Prop where
  | range {n ls rs a b w p} (left : Derives .sum n ls a) (right : Derives .sum n rs b) :
      Derives .range n (ls ++ ⟨.rangeWord w, p⟩ :: rs) (.range a b)
  | ofSum {n ts e} (h : Derives .sum n ts e) : Derives .range n ts e
  | sum {n ls rs a b o p} (sign : o = .add ∨ o = .subtract) (left : Derives .sum n ls a)
      (right : Derives .product n rs b) :
      Derives .sum n (ls ++ ⟨.operator o, p⟩ :: rs) (.binary o a b)
  | ofProduct {n ts e} (h : Derives .product n ts e) : Derives .sum n ts e
  | product {n ls rs a b o p} (sign : o = .multiply ∨ o = .divide) (left : Derives .product n ls a)
      (right : Derives .negation n rs b) :
      Derives .product n (ls ++ ⟨.operator o, p⟩ :: rs) (.binary o a b)
  | ofNegation {n ts e} (h : Derives .negation n ts e) : Derives .product n ts e
  | negation {n ts e p} (operand : Derives .negation n ts e) :
      Derives .negation (n + 1) (⟨.operator .subtract, p⟩ :: ts) (.negation e)
  | ofPower {n ts e} (h : Derives .power n ts e) : Derives .negation n ts e
  | power {n ls rs a b p} (base : Derives .atom (n + 1) ls a) (exponent : Derives .negation n rs b) :
      Derives .power (n + 1) (ls ++ ⟨.operator .power, p⟩ :: rs) (.binary .power a b)
  | ofAtom {n ts e} (h : Derives .atom n ts e) : Derives .power n ts e
  | number {n x p} : Derives .atom n [⟨.number x, p⟩] (.number x)
  | reference {n name p} : Derives .atom n [⟨.name name, p⟩] (.reference name)
  | emptyCall {n f p q r} :
      Derives .atom n [⟨.name f, p⟩, ⟨.opening, q⟩, ⟨.closing, r⟩] (.call f [])
  | call {n ts es f p q r} (arguments : DerivesAll n ts es) :
      Derives .atom (n + 1) (⟨.name f, p⟩ :: ⟨.opening, q⟩ :: (ts ++ [⟨.closing, r⟩])) (.call f es)
  | parentheses {n ts e p q} (inside : Derives .range n ts e) :
      Derives .atom (n + 1) (⟨.opening, p⟩ :: (ts ++ [⟨.closing, q⟩])) e

/-- One or more ranges with commas between them. -/
inductive DerivesAll : Nat → List Token → List Expr → Prop where
  | last {n ts e} (h : Derives .range n ts e) : DerivesAll n ts [e]
  | more {n ts us e es p} (first : Derives .range n ts e) (rest : DerivesAll n us es) :
      DerivesAll n (ts ++ ⟨.comma, p⟩ :: us) (e :: es)

end

/-- The tokens are a formula with the given tree, however deep its parts are nested. -/
def Derivable (ts : List Token) (e : Expr) : Prop :=
  ∃ n, Derives .range n ts e

/-! ### More depth than needed -/

theorem exists_succ_of_lt {n m : Nat} (h : n < m) : ∃ k, m = k + 1 ∧ n ≤ k :=
  ⟨m - 1, by omega, by omega⟩

mutual

theorem Derives.deeper {part : Part} {n m : Nat} {ts : List Token} {e : Expr} :
    Derives part n ts e → n ≤ m → Derives part m ts e
  | .range left right, h => .range (left.deeper h) (right.deeper h)
  | .ofSum d, h => .ofSum (d.deeper h)
  | .sum sign left right, h => .sum sign (left.deeper h) (right.deeper h)
  | .ofProduct d, h => .ofProduct (d.deeper h)
  | .product sign left right, h => .product sign (left.deeper h) (right.deeper h)
  | .ofNegation d, h => .ofNegation (d.deeper h)
  | .negation operand, h => by
    obtain ⟨k, rfl, hk⟩ := exists_succ_of_lt h
    exact .negation (operand.deeper hk)
  | .ofPower d, h => .ofPower (d.deeper h)
  | .power base exponent, h => by
    obtain ⟨k, rfl, hk⟩ := exists_succ_of_lt h
    exact .power (base.deeper h) (exponent.deeper hk)
  | .ofAtom d, h => .ofAtom (d.deeper h)
  | .number, _ => .number
  | .reference, _ => .reference
  | .emptyCall, _ => .emptyCall
  | .call arguments, h => by
    obtain ⟨k, rfl, hk⟩ := exists_succ_of_lt h
    exact .call (arguments.deeper hk)
  | .parentheses inside, h => by
    obtain ⟨k, rfl, hk⟩ := exists_succ_of_lt h
    exact .parentheses (inside.deeper hk)

theorem DerivesAll.deeper {n m : Nat} {ts : List Token} {es : List Expr} :
    DerivesAll n ts es → n ≤ m → DerivesAll m ts es
  | .last d, h => .last (d.deeper h)
  | .more first rest, h => .more (first.deeper h) (rest.deeper h)

end

/-! ### Other positions -/

section

variable {lexeme : Lexeme} {p : Nat} {ls ts us : List Token}

theorem cons_of_lexemes (same : us.map Token.lexeme = (⟨lexeme, p⟩ :: ts).map Token.lexeme) :
    ∃ q rest, us = ⟨lexeme, q⟩ :: rest ∧ rest.map Token.lexeme = ts.map Token.lexeme := by
  obtain ⟨⟨_, q⟩, rest, rfl, rfl, behind⟩ := List.map_eq_cons_iff.1 same
  exact ⟨q, rest, rfl, behind⟩

theorem singleton_of_lexemes (same : us.map Token.lexeme = [⟨lexeme, p⟩].map Token.lexeme) :
    ∃ q, us = [⟨lexeme, q⟩] := by
  obtain ⟨q, rest, rfl, none⟩ := cons_of_lexemes same
  exact ⟨q, by rw [List.map_eq_nil_iff.1 none]⟩

theorem append_of_lexemes (same : us.map Token.lexeme = (ls ++ ts).map Token.lexeme) :
    ∃ before behind, us = before ++ behind ∧ before.map Token.lexeme = ls.map Token.lexeme ∧
      behind.map Token.lexeme = ts.map Token.lexeme :=
  List.map_eq_append_iff.1 (same.trans List.map_append)

end

mutual

/-- Where the tokens stand in a text does not matter. -/
theorem Derives.moved {part : Part} {n : Nat} {ts us : List Token} {e : Expr} :
    Derives part n ts e → us.map Token.lexeme = ts.map Token.lexeme → Derives part n us e
  | .range left right, same => by
    obtain ⟨ls, us, rfl, sameLeft, behind⟩ := append_of_lexemes same
    obtain ⟨q, rs, rfl, sameRight⟩ := cons_of_lexemes behind
    exact .range (left.moved sameLeft) (right.moved sameRight)
  | .ofSum d, same => .ofSum (d.moved same)
  | .sum sign left right, same => by
    obtain ⟨ls, us, rfl, sameLeft, behind⟩ := append_of_lexemes same
    obtain ⟨q, rs, rfl, sameRight⟩ := cons_of_lexemes behind
    exact .sum sign (left.moved sameLeft) (right.moved sameRight)
  | .ofProduct d, same => .ofProduct (d.moved same)
  | .product sign left right, same => by
    obtain ⟨ls, us, rfl, sameLeft, behind⟩ := append_of_lexemes same
    obtain ⟨q, rs, rfl, sameRight⟩ := cons_of_lexemes behind
    exact .product sign (left.moved sameLeft) (right.moved sameRight)
  | .ofNegation d, same => .ofNegation (d.moved same)
  | .negation operand, same => by
    obtain ⟨q, us, rfl, behind⟩ := cons_of_lexemes same
    exact .negation (operand.moved behind)
  | .ofPower d, same => .ofPower (d.moved same)
  | .power base exponent, same => by
    obtain ⟨ls, us, rfl, sameLeft, behind⟩ := append_of_lexemes same
    obtain ⟨q, rs, rfl, sameRight⟩ := cons_of_lexemes behind
    exact .power (base.moved sameLeft) (exponent.moved sameRight)
  | .ofAtom d, same => .ofAtom (d.moved same)
  | .number, same => by
    obtain ⟨q, rfl⟩ := singleton_of_lexemes same
    exact .number
  | .reference, same => by
    obtain ⟨q, rfl⟩ := singleton_of_lexemes same
    exact .reference
  | .emptyCall, same => by
    obtain ⟨p, us, rfl, behind⟩ := cons_of_lexemes same
    obtain ⟨q, us, rfl, closes⟩ := cons_of_lexemes behind
    obtain ⟨r, rfl⟩ := singleton_of_lexemes closes
    exact .emptyCall
  | .call arguments, same => by
    obtain ⟨p, us, rfl, behind⟩ := cons_of_lexemes same
    obtain ⟨q, us, rfl, further⟩ := cons_of_lexemes behind
    obtain ⟨us, closing, rfl, sameInside, closes⟩ := append_of_lexemes further
    obtain ⟨r, rfl⟩ := singleton_of_lexemes closes
    exact .call (arguments.moved sameInside)
  | .parentheses inside, same => by
    obtain ⟨p, us, rfl, behind⟩ := cons_of_lexemes same
    obtain ⟨us, closing, rfl, sameInside, closes⟩ := append_of_lexemes behind
    obtain ⟨q, rfl⟩ := singleton_of_lexemes closes
    exact .parentheses (inside.moved sameInside)

theorem DerivesAll.moved {n : Nat} {ts us : List Token} {es : List Expr} :
    DerivesAll n ts es → us.map Token.lexeme = ts.map Token.lexeme → DerivesAll n us es
  | .last d, same => .last (d.moved same)
  | .more first rest, same => by
    obtain ⟨ls, us, rfl, sameLeft, behind⟩ := append_of_lexemes same
    obtain ⟨q, rs, rfl, sameRight⟩ := cons_of_lexemes behind
    exact .more (first.moved sameLeft) (rest.moved sameRight)

end

end MonteCarloSheet.Formula
