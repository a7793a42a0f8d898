import Mathlib.Data.Set.Subsingleton
import MonteCarloSheet.Proofs.Formula.Grammar
import MonteCarloSheet.Proofs.Formula.Reading

/-! The parser reads exactly its grammar.

What is read has a derivation (`within_sound`): the levels of nesting are the
induction, and inside a level the chains and argument lists follow the tokens.
What has a derivation is read, as long as the next token does not continue the
part (`Derives.reads`): the derivation is the induction. As a part is read in one
way only, no tokens are two formulas. -/
namespace MonteCarloSheet.Formula.Parser

/-! ### What is read has a derivation -/

/-- What a parser reads is a part of the grammar nested at most `n` deep. -/
def Sound (part : Part) (n : Nat) (p : Parser Expr) : Prop :=
  ∀ ts e out, Reads p ts e out → ∃ read, ts = read ++ out ∧ Derives part n read e

/-- What stands one level further in is nested less than `n` deep. -/
structure Inner.Sound (n : Nat) (inner : Inner) : Prop where
  range : ∀ ts e out, Reads inner.range ts e out →
    ∃ read m, n = m + 1 ∧ ts = read ++ out ∧ Derives .range m read e
  negation : ∀ ts e out, Reads inner.negation ts e out →
    ∃ read m, n = m + 1 ∧ ts = read ++ out ∧ Derives .negation m read e
  power : ∀ ts e out, Reads inner.power ts e out →
    ∃ read m, n = m + 1 ∧ ts = read ++ out ∧ Derives .power m read e

section Sound

variable {n : Nat} {inner : Inner}

/-- Arguments behind commas, put after a first one, are arguments. -/
theorem moreArguments_sound (h : inner.Sound n) {ts : List Token} {es : List Expr}
    {out : List Token} (reads : Reads (moreArguments inner) ts es out) :
    ∃ read, ts = read ++ out ∧ ∀ m first e, n = m + 1 → Derives .range m first e →
      DerivesAll m (first ++ read) (e :: es) := by
  induction hk : ts.length using Nat.strongRecOn generalizing ts es with
  | _ k ih =>
    obtain ⟨p, rest, e₂, mid, others, rfl, hrange, hmore, rfl⟩ | ⟨_, rfl, rfl⟩ :=
      reads_moreArguments.1 reads
    · obtain ⟨read, m, rfl, rfl, hread⟩ := h.range _ _ _ hrange
      obtain ⟨tail, rfl, htail⟩ := ih _ (by simp only [← hk, List.length_cons, List.length_append]; omega) hmore rfl
      refine ⟨⟨.comma, p⟩ :: (read ++ tail), by simp, fun m' first e hm hfirst => ?_⟩
      cases hm
      exact .more hfirst (htail m read e₂ rfl hread)
    · exact ⟨[], rfl, fun m first e _ hfirst => by simpa using .last hfirst⟩

theorem arguments_sound (h : inner.Sound n) {ts : List Token} {es : List Expr} {out : List Token}
    (reads : Reads (arguments inner) ts es out) :
    es = [] ∧ out = ts ∨ ∃ read m, n = m + 1 ∧ ts = read ++ out ∧ DerivesAll m read es := by
  obtain ⟨p, rest, rfl, rfl, rfl⟩ | ⟨_, first, mid, others, hfirst, hmore, rfl⟩ :=
    reads_arguments.1 reads
  · exact .inl ⟨rfl, rfl⟩
  · obtain ⟨read, m, rfl, rfl, hread⟩ := h.range _ _ _ hfirst
    obtain ⟨tail, rfl, htail⟩ := moreArguments_sound h hmore
    exact .inr ⟨read ++ tail, m, rfl, by simp, htail m read first rfl hread⟩

theorem atom_sound (h : inner.Sound n) : Sound .atom n (atom inner) := by
  intro ts e out reads
  obtain ⟨x, p, rfl, rfl⟩ | ⟨f, p, q, rest, es, r, rfl, hargs, rfl⟩ | ⟨name, p, rfl, _, rfl⟩ |
    ⟨p, rest, q, rfl, hinside⟩ := reads_atom.1 reads
  · exact ⟨[⟨.number x, p⟩], rfl, .number⟩
  · obtain ⟨rfl, rfl⟩ | ⟨read, m, rfl, rfl, hread⟩ := arguments_sound h hargs
    · exact ⟨[⟨.name f, p⟩, ⟨.opening, q⟩, ⟨.closing, r⟩], rfl, .emptyCall⟩
    · exact ⟨⟨.name f, p⟩ :: ⟨.opening, q⟩ :: (read ++ [⟨.closing, r⟩]), by simp, .call hread⟩
  · exact ⟨[⟨.name name, p⟩], rfl, .reference⟩
  · obtain ⟨read, m, rfl, rfl, hread⟩ := h.range _ _ _ hinside
    exact ⟨⟨.opening, p⟩ :: (read ++ [⟨.closing, q⟩]), by simp, .parentheses hread⟩

theorem exponent_sound (h : inner.Sound n) {ts : List Token} {e : Expr} {out : List Token}
    (reads : Reads (exponent inner) ts e out) :
    ∃ read m, n = m + 1 ∧ ts = read ++ out ∧ Derives .negation m read e := by
  obtain ⟨p, rest, rfl, hnegation⟩ | ⟨_, hpower⟩ := reads_exponent.1 reads
  · exact h.negation _ _ _ hnegation
  · obtain ⟨read, m, hm, hts, hread⟩ := h.power _ _ _ hpower
    exact ⟨read, m, hm, hts, .ofPower hread⟩

theorem power_sound (h : inner.Sound n) : Sound .power n (power inner) := by
  intro ts e out reads
  obtain ⟨a, mid, hatom, ⟨p, rest, b, rfl, hexponent, rfl⟩ | ⟨_, rfl, rfl⟩⟩ := reads_power.1 reads
  · obtain ⟨base, rfl, hbase⟩ := atom_sound h _ _ _ hatom
    obtain ⟨read, m, rfl, rfl, hread⟩ := exponent_sound h hexponent
    exact ⟨base ++ ⟨.operator .power, p⟩ :: read, by simp, .power hbase hread⟩
  · obtain ⟨base, rfl, hbase⟩ := atom_sound h _ _ _ hatom
    exact ⟨base, rfl, .ofAtom hbase⟩

theorem negation_sound (h : inner.Sound n) : Sound .negation n (negation inner) := by
  intro ts e out reads
  obtain ⟨p, rest, a, rfl, hoperand, rfl⟩ | ⟨_, hpower⟩ := reads_negation.1 reads
  · obtain ⟨read, m, rfl, rfl, hread⟩ := h.negation _ _ _ hoperand
    exact ⟨⟨.operator .subtract, p⟩ :: read, by simp, .negation hread⟩
  · obtain ⟨read, rfl, hread⟩ := power_sound h _ _ _ hpower
    exact ⟨read, rfl, .ofPower hread⟩

/-- A chain lengthens the part on its left, one operand after another. -/
theorem ranked_sound {whole single : Part} {rank : Operator → Bool} {operand : Parser Expr}
    (ofSingle : ∀ {ts e}, Derives single n ts e → Derives whole n ts e)
    (step : ∀ {ls rs a b o p}, rank o = true → Derives whole n ls a → Derives single n rs b →
      Derives whole n (ls ++ ⟨.operator o, p⟩ :: rs) (.binary o a b))
    (h : Sound single n operand) : Sound whole n (ranked rank operand) := by
  have chain_sound : ∀ k ts left e out before, ts.length = k → Derives whole n before left →
      Reads (chain rank operand left) ts e out →
      ∃ read, ts = read ++ out ∧ Derives whole n (before ++ read) e := by
    intro k
    induction k using Nat.strongRecOn with
    | _ k ih =>
      intro ts left e out before hk hleft reads
      obtain ⟨o, p, rest, b, mid, rfl, hrank, hoperand, hchain⟩ | ⟨_, rfl, rfl⟩ :=
        reads_chain.1 reads
      · obtain ⟨right, rfl, hright⟩ := h _ _ _ hoperand
        obtain ⟨read, rfl, hread⟩ := ih mid.length (by simp only [← hk, List.length_cons, List.length_append]; omega) mid _ e out
          (before ++ ⟨.operator o, p⟩ :: right) rfl (step hrank hleft hright) hchain
        exact ⟨⟨.operator o, p⟩ :: (right ++ read), by simp, by simpa using hread⟩
      · exact ⟨[], rfl, by simpa using hleft⟩
  intro ts e out reads
  obtain ⟨a, mid, hoperand, hchain⟩ := reads_ranked.1 reads
  obtain ⟨before, rfl, hbefore⟩ := h _ _ _ hoperand
  obtain ⟨read, rfl, hread⟩ := chain_sound _ mid a e out before rfl (ofSingle hbefore) hchain
  exact ⟨before ++ read, by simp, hread⟩

theorem isProduct_iff {o : Operator} : isProduct o = true ↔ o = .multiply ∨ o = .divide := by
  cases o <;> decide

theorem isSum_iff {o : Operator} : isSum o = true ↔ o = .add ∨ o = .subtract := by
  cases o <;> decide

theorem product_sound (h : inner.Sound n) : Sound .product n (product inner) :=
  ranked_sound .ofNegation (fun hrank => .product (isProduct_iff.1 hrank)) (negation_sound h)

theorem sum_sound (h : inner.Sound n) : Sound .sum n (sum inner) :=
  ranked_sound .ofProduct (fun hrank => .sum (isSum_iff.1 hrank)) (product_sound h)

theorem range_sound (h : inner.Sound n) : Sound .range n (range inner) := by
  intro ts e out reads
  obtain ⟨a, mid, hsum, ⟨w, p, rest, b, rfl, hright, rfl⟩ | ⟨_, rfl, rfl⟩⟩ := reads_range.1 reads
  · obtain ⟨left, rfl, hleft⟩ := sum_sound h _ _ _ hsum
    obtain ⟨right, rfl, hread⟩ := sum_sound h _ _ _ hright
    exact ⟨left ++ ⟨.rangeWord w, p⟩ :: right, by simp, .range hleft hread⟩
  · obtain ⟨left, rfl, hleft⟩ := sum_sound h _ _ _ hsum
    exact ⟨left, rfl, .ofSum hleft⟩

end Sound

theorem within_sound (n : Nat) : (within n).Sound n := by
  induction n with
  | zero =>
    constructor <;> rintro ts e out ⟨r, h, -⟩ <;> cases h
  | succ n ih =>
    refine ⟨fun ts e out h => ?_, fun ts e out h => ?_, fun ts e out h => ?_⟩
    · obtain ⟨read, hts, hread⟩ := range_sound ih ts e out h
      exact ⟨read, n, rfl, hts, hread⟩
    · obtain ⟨read, hts, hread⟩ := negation_sound ih ts e out h
      exact ⟨read, n, rfl, hts, hread⟩
    · obtain ⟨read, hts, hread⟩ := power_sound ih ts e out h
      exact ⟨read, n, rfl, hts, hread⟩

/-! ### What has a derivation is read -/

/-- The place of a part, the loosest first; a negation and a power go on with the same. -/
@[simp] def rank : Part → Nat
  | .range => 0
  | .sum => 1
  | .product => 2
  | .negation => 3
  | .power => 3
  | .atom => 4

/-- How many parts, from the loosest on, can go on with a lexeme right behind them. -/
@[simp] def joins : Lexeme → Nat
  | .rangeWord _ => 1
  | .operator .add => 2
  | .operator .subtract => 2
  | .operator .multiply => 3
  | .operator .divide => 3
  | .operator .power => 4
  | .opening => 5
  | _ => 0

/-- The tokens end, or begin with what cannot belong to the part before them. -/
def Stops (part : Part) (ts : List Token) : Prop :=
  ∀ token rest, ts = token :: rest → joins token.lexeme ≤ rank part

theorem stops_nil {part : Part} : Stops part [] := fun _ _ h => by cases h

theorem stops_cons {part : Part} {token : Token} {rest : List Token}
    (h : joins token.lexeme ≤ rank part) : Stops part (token :: rest) := by
  rintro _ _ ⟨⟩
  exact h

/-- What cannot belong to a part cannot belong to a tighter one. -/
theorem Stops.tighten {loose tight : Part} {ts : List Token} (h : Stops loose ts)
    (le : rank loose ≤ rank tight) : Stops tight ts :=
  fun token rest same => Nat.le_trans (h token rest same) le

theorem Stops.ne_cons {part : Part} {ts : List Token} (h : Stops part ts) {lexeme : Lexeme}
    (lt : rank part < joins lexeme) (p : Nat) (rest : List Token) : ts ≠ ⟨lexeme, p⟩ :: rest :=
  fun same => Nat.not_lt.2 (h _ _ same) lt

/-- What a derivation makes the parsers do. A chain of operators goes on from the tree to its
left, so a sum or a product is read by what the chain reads behind it. -/
def Reading : Part → Nat → List Token → Expr → Prop
  | .range, n, ts, e => ∀ tail, Stops .range tail → Reads (range (within n)) (ts ++ tail) e tail
  | .sum, n, ts, a => ∀ tail e out, Stops .product tail →
      Reads (chain isSum (product (within n)) a) tail e out →
      Reads (sum (within n)) (ts ++ tail) e out
  | .product, n, ts, a => ∀ tail e out, Stops .negation tail →
      Reads (chain isProduct (negation (within n)) a) tail e out →
      Reads (product (within n)) (ts ++ tail) e out
  | .negation, n, ts, e => ∀ tail, Stops .negation tail →
      Reads (negation (within n)) (ts ++ tail) e tail
  | .power, n, ts, e => ∀ tail, Stops .power tail → Reads (power (within n)) (ts ++ tail) e tail
  | .atom, n, ts, e => ∀ tail, Stops .atom tail → Reads (atom (within n)) (ts ++ tail) e tail

/-- A chain ends where no operator of its rank follows. -/
theorem chain_ends {ranked : Operator → Bool} {operand : Parser Expr} {a : Expr}
    {tail : List Token} (h : ∀ o p rest, tail = ⟨.operator o, p⟩ :: rest → ranked o = false) :
    Reads (chain ranked operand a) tail a tail :=
  reads_chain.2 (.inr ⟨h, rfl, rfl⟩)

theorem sum_ends {tail : List Token} (h : Stops .sum tail) {o : Operator} {p : Nat}
    {rest : List Token} (same : tail = ⟨.operator o, p⟩ :: rest) : isSum o = false := by
  have := h _ _ same
  cases o <;> first | rfl | exact absurd this (by simp)

theorem product_ends {tail : List Token} (h : Stops .product tail) {o : Operator} {p : Nat}
    {rest : List Token} (same : tail = ⟨.operator o, p⟩ :: rest) : isProduct o = false := by
  have := h _ _ same
  cases o <;> first | rfl | exact absurd this (by simp)

section Reading

variable {n : Nat} {ts : List Token} {e : Expr} {tail : List Token}

theorem Reading.sum (h : Reading .sum n ts e) (stops : Stops .sum tail) :
    Reads (Parser.sum (within n)) (ts ++ tail) e tail :=
  h tail e tail (stops.tighten (by decide)) (chain_ends fun _ _ _ => sum_ends stops)

theorem Reading.product (h : Reading .product n ts e) (stops : Stops .product tail) :
    Reads (Parser.product (within n)) (ts ++ tail) e tail :=
  h tail e tail (stops.tighten (by decide)) (chain_ends fun _ _ _ => product_ends stops)

end Reading

theorem reads_exponent_of_negation {n : Nat} {ts : List Token} {e : Expr} {out : List Token}
    (h : Reads (negation (within n)) ts e out) : Reads (exponent (within (n + 1))) ts e out := by
  obtain ⟨p, rest, a, rfl, hoperand, rfl⟩ | ⟨other, hpower⟩ := reads_negation.1 h
  · exact reads_exponent.2 (.inl ⟨p, rest, rfl, h⟩)
  · exact reads_exponent.2 (.inr ⟨other, hpower⟩)

end Parser

open MonteCarloSheet.Formula.Parser

/-- Whether an atom can begin with a lexeme. -/
def opens : Lexeme → Bool
  | .number _ => true
  | .name _ => true
  | .opening => true
  | _ => false

/-- A part begins as an atom does, or with a minus sign if it is no power and no atom. -/
theorem Derives.begins {part : Part} {n : Nat} {ts : List Token} {e : Expr} :
    Derives part n ts e → ∃ lexeme p rest, ts = ⟨lexeme, p⟩ :: rest ∧
      (opens lexeme = true ∨ lexeme = .operator .subtract ∧ part ≠ .power ∧ part ≠ .atom)
  | .range left _ => by
    obtain ⟨lexeme, p, rest, rfl, start⟩ := left.begins
    exact ⟨lexeme, p, _, rfl, start.imp_right fun minus => ⟨minus.1, by decide⟩⟩
  | .ofSum h => by
    obtain ⟨lexeme, p, rest, rfl, start⟩ := h.begins
    exact ⟨lexeme, p, _, rfl, start.imp_right fun minus => ⟨minus.1, by decide⟩⟩
  | .sum _ left _ => by
    obtain ⟨lexeme, p, rest, rfl, start⟩ := left.begins
    exact ⟨lexeme, p, _, rfl, start⟩
  | .ofProduct h => by
    obtain ⟨lexeme, p, rest, rfl, start⟩ := h.begins
    exact ⟨lexeme, p, _, rfl, start.imp_right fun minus => ⟨minus.1, by decide⟩⟩
  | .product _ left _ => by
    obtain ⟨lexeme, p, rest, rfl, start⟩ := left.begins
    exact ⟨lexeme, p, _, rfl, start⟩
  | .ofNegation h => by
    obtain ⟨lexeme, p, rest, rfl, start⟩ := h.begins
    exact ⟨lexeme, p, _, rfl, start.imp_right fun minus => ⟨minus.1, by decide⟩⟩
  | .negation _ => ⟨_, _, _, rfl, .inr ⟨rfl, by decide⟩⟩
  | .ofPower h => by
    obtain ⟨lexeme, p, rest, rfl, start⟩ := h.begins
    exact ⟨lexeme, p, _, rfl, start.imp_right fun minus => ⟨minus.1, by decide⟩⟩
  | .power base _ => by
    obtain ⟨lexeme, p, rest, rfl, start | ⟨-, -, absurd⟩⟩ := base.begins
    · exact ⟨lexeme, p, _, rfl, .inl start⟩
    · exact (absurd rfl).elim
  | .ofAtom h => by
    obtain ⟨lexeme, p, rest, rfl, start | ⟨-, -, absurd⟩⟩ := h.begins
    · exact ⟨lexeme, p, _, rfl, .inl start⟩
    · exact (absurd rfl).elim
  | .number => ⟨_, _, _, rfl, .inl rfl⟩
  | .reference => ⟨_, _, _, rfl, .inl rfl⟩
  | .emptyCall => ⟨_, _, _, rfl, .inl rfl⟩
  | .call _ => ⟨_, _, _, rfl, .inl rfl⟩
  | .parentheses _ => ⟨_, _, _, rfl, .inl rfl⟩

theorem Derives.ne_minus {n : Nat} {ts : List Token} {e : Expr} (h : Derives .power n ts e)
    (tail : List Token) (p : Nat) (rest : List Token) :
    ts ++ tail ≠ ⟨.operator .subtract, p⟩ :: rest := by
  obtain ⟨lexeme, q, read, rfl, start | minus⟩ := h.begins
  · rintro ⟨⟩
    cases start
  · exact (minus.2.1 rfl).elim

theorem Derives.ne_closing {n : Nat} {ts : List Token} {e : Expr} (h : Derives .range n ts e)
    (tail : List Token) (p : Nat) (rest : List Token) : ts ++ tail ≠ ⟨.closing, p⟩ :: rest := by
  obtain ⟨lexeme, q, read, rfl, start | minus⟩ := h.begins <;> rintro ⟨⟩
  · cases start
  · cases minus.1

mutual

theorem Derives.reading {part : Part} {n : Nat} {ts : List Token} {e : Expr} :
    Derives part n ts e → Reading part n ts e
  | @Derives.range _ ls rs a b w p left right => fun tail stops => by
    have hleft : Reads (sum (within n)) (ls ++ ⟨.rangeWord w, p⟩ :: (rs ++ tail)) a _ :=
      left.reading.sum (stops_cons (by simp))
    have hright : Reads (sum (within n)) (rs ++ tail) b tail :=
      right.reading.sum (stops.tighten (by simp))
    rw [List.append_assoc]
    exact reads_range.2 ⟨a, _, hleft, .inl ⟨w, p, _, b, rfl, hright, rfl⟩⟩
  | .ofSum h => fun tail stops =>
    reads_range.2 ⟨e, tail, h.reading.sum (stops.tighten (by simp)),
      .inr ⟨fun _ => stops.ne_cons (by simp), rfl, rfl⟩⟩
  | @Derives.sum _ ls rs a b o p sign left right => fun tail e out stops hchain => by
    have hright : Reads (product (within n)) (rs ++ tail) b tail := right.reading.product stops
    rw [List.append_assoc]
    refine left.reading (⟨.operator o, p⟩ :: (rs ++ tail)) e out ?_ ?_
    · exact stops_cons (by obtain rfl | rfl := sign <;> simp)
    · exact reads_chain.2 (.inl ⟨o, p, _, b, tail, rfl, isSum_iff.2 sign, hright, hchain⟩)
  | .ofProduct h => fun tail e' out stops hchain =>
    reads_ranked.2 ⟨e, tail, h.reading.product stops, hchain⟩
  | @Derives.product _ ls rs a b o p sign left right => fun tail e out stops hchain => by
    have hright : Reads (negation (within n)) (rs ++ tail) b tail := right.reading tail stops
    rw [List.append_assoc]
    refine left.reading (⟨.operator o, p⟩ :: (rs ++ tail)) e out ?_ ?_
    · exact stops_cons (by obtain rfl | rfl := sign <;> simp)
    · exact reads_chain.2 (.inl ⟨o, p, _, b, tail, rfl, isProduct_iff.2 sign, hright, hchain⟩)
  | .ofNegation h => fun tail e' out stops hchain =>
    reads_ranked.2 ⟨e, tail, h.reading tail stops, hchain⟩
  | @Derives.negation m ts a p operand => fun tail stops =>
    reads_negation.2 (.inl ⟨p, ts ++ tail, a, rfl, operand.reading tail stops, rfl⟩)
  | .ofPower h => fun tail stops => by
    exact reads_negation.2 (.inr ⟨h.ne_minus tail, h.reading tail stops⟩)
  | @Derives.power m ls rs a b p base exponent => fun tail stops => by
    have hexponent : Reads (Parser.exponent (within (m + 1))) (rs ++ tail) b tail :=
      reads_exponent_of_negation (exponent.reading tail stops)
    have hbase := base.reading (⟨.operator .power, p⟩ :: (rs ++ tail)) (stops_cons (by simp))
    rw [List.append_assoc]
    exact reads_power.2 ⟨a, _, hbase, .inl ⟨p, _, b, rfl, hexponent, rfl⟩⟩
  | .ofAtom h => fun tail stops =>
    reads_power.2 ⟨e, tail, h.reading tail (stops.tighten (by simp)),
      .inr ⟨stops.ne_cons (by simp), rfl, rfl⟩⟩
  | @Derives.number _ x p => fun tail _ => reads_atom.2 (.inl ⟨x, p, rfl, rfl⟩)
  | @Derives.reference _ name p => fun tail stops =>
    reads_atom.2 (.inr (.inr (.inl ⟨name, p, rfl, stops.ne_cons (by simp), rfl⟩)))
  | @Derives.emptyCall _ f p q r => fun tail _ =>
    reads_atom.2 (.inr (.inl ⟨f, p, q, _, [], r, rfl,
      reads_arguments.2 (.inl ⟨r, tail, rfl, rfl, rfl⟩), rfl⟩))
  | @Derives.call m ts es f p q r arguments => fun tail _ => by
    obtain ⟨other, first, mid, others, rfl, hfirst, hothers⟩ := arguments.reading r tail
    refine reads_atom.2 (.inr (.inl ⟨f, p, q, (ts ++ [⟨.closing, r⟩]) ++ tail, _, r, rfl, ?_, rfl⟩))
    rw [List.append_assoc]
    exact reads_arguments.2 (.inr ⟨other, first, mid, others, hfirst, hothers, rfl⟩)
  | @Derives.parentheses m ts e p q inside => fun tail _ => by
    have hinside := inside.reading (⟨.closing, q⟩ :: tail) (stops_cons (by simp))
    refine reads_atom.2 (.inr (.inr (.inr ⟨p, (ts ++ [⟨.closing, q⟩]) ++ tail, q, rfl, ?_⟩)))
    rw [List.append_assoc]
    exact hinside

theorem DerivesAll.reading {n : Nat} {ts : List Token} {es : List Expr} :
    DerivesAll n ts es → ∀ q tail,
      (∀ p rest, ts ++ ⟨.closing, q⟩ :: tail ≠ ⟨.closing, p⟩ :: rest) ∧
      ∃ first mid others, es = first :: others ∧
        Reads (range (within n)) (ts ++ ⟨.closing, q⟩ :: tail) first mid ∧
        Reads (moreArguments (within (n + 1))) mid others (⟨.closing, q⟩ :: tail)
  | @DerivesAll.last _ ts e h => fun q tail => by
    refine ⟨h.ne_closing _, e, _, [], rfl, h.reading _ (stops_cons (by simp)), ?_⟩
    exact reads_moreArguments.2 (.inr ⟨(fun _ _ same => by cases same), rfl, rfl⟩)
  | @DerivesAll.more _ ts us e es p first rest => fun q tail => by
    obtain ⟨-, second, mid, others, rfl, hsecond, hothers⟩ := rest.reading q tail
    rw [List.append_assoc]
    refine ⟨first.ne_closing _, e, _, _, rfl,
      first.reading (⟨.comma, p⟩ :: (us ++ _)) (stops_cons (by simp)), ?_⟩
    exact reads_moreArguments.2 (.inl ⟨p, _, second, mid, others, rfl, hsecond, hothers, rfl⟩)

end

/-! ### The parser and the grammar -/

/-- More levels than a formula needs do not change what is read. -/
theorem Derives.reads {n : Nat} {ts : List Token} {e : Expr} (h : Derives .range n ts e) :
    Reads (Parser.range (within n)) ts e [] := by
  simpa using h.reading [] stops_nil

/-- The parser accepts a list of tokens with a tree exactly when the grammar derives the tree from
them at most 64 levels deep, and at any depth the grammar derives no two trees from them. -/
theorem ofTokens_eq_ok_iff_derives (ts : List Token) :
    (∀ e, ofTokens ts = .ok e ↔ Derives .range 64 ts e) ∧
      Set.Subsingleton {e | Derivable ts e} := by
  refine ⟨fun e => ⟨fun h => ?_, fun h => ofTokens_eq_ok.2 h.reads⟩, ?_⟩
  · obtain ⟨read, same, derives⟩ := range_sound (within_sound levels) _ _ _ (ofTokens_eq_ok.1 h)
    rw [same, List.append_nil]
    exact derives
  · rintro a ⟨n, ha⟩ b ⟨m, hb⟩
    have ha := (ha.deeper (Nat.le_max_left n m)).reads
    have hb := (hb.deeper (Nat.le_max_right n m)).reads
    exact (ha.unique hb).1

end MonteCarloSheet.Formula
