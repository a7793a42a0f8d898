import MonteCarloSheet.Formula.Parser

/-! What each parser reads.

`Reads p ts x rest` says that the parser `p` reads `x` from the head of `ts` and
leaves `rest`. One lemma for each parser tells what it reads by what the parsers
under it read; with these no parser needs to be opened again. Which branch is
taken shows in the first token that is left, so the cases of a lemma exclude each
other. -/
namespace MonteCarloSheet.Formula.Parser

def Reads (p : Parser α) (ts : List Token) (x : α) (rest : List Token) : Prop :=
  ∃ r, p ts = .ok r ∧ r.value = x ∧ r.rest = rest

theorem Reads.unique {p : Parser α} {ts : List Token} {x y : α} {rest out : List Token}
    (h : Reads p ts x rest) (k : Reads p ts y out) : x = y ∧ rest = out := by
  obtain ⟨r, hr, rfl, rfl⟩ := h
  obtain ⟨r', hr', rfl, rfl⟩ := k
  cases hr.symm.trans hr'
  exact ⟨rfl, rfl⟩

variable {inner : Inner} {ts : List Token} {e : Expr} {out : List Token}

/-! ### Calls and atoms -/

theorem close_eq_ok (what : Expected) {p : Parsed α ts} {x : α} :
    (∃ r, close what p = .ok r ∧ r.value = x ∧ r.rest = out) ↔
      p.value = x ∧ ∃ q, p.rest = ⟨.closing, q⟩ :: out := by
  constructor
  · rintro ⟨r, h, rfl, rfl⟩
    unfold close at h
    split at h
    next q rest hrest =>
      cases h
      exact ⟨rfl, q, hrest⟩
    · cases h
  · rintro ⟨rfl, q, hrest⟩
    unfold close
    split
    next q' rest h =>
      cases hrest.symm.trans h
      exact ⟨_, rfl, rfl, rfl⟩
    next other => exact absurd hrest (other q out)

theorem reads_moreArguments {es : List Expr} :
    Reads (moreArguments inner) ts es out ↔
      (∃ p rest first mid others, ts = ⟨.comma, p⟩ :: rest ∧ Reads inner.range rest first mid ∧
        Reads (moreArguments inner) mid others out ∧ es = first :: others) ∨
      (∀ p rest, ts ≠ ⟨.comma, p⟩ :: rest) ∧ es = [] ∧ out = ts := by
  constructor
  · rintro ⟨r, h, rfl, rfl⟩
    rw [moreArguments.eq_def] at h
    split at h
    next p rest =>
      split at h
      · cases h
      next first hfirst =>
        split at h
        · cases h
        next others hothers =>
          cases h
          exact .inl ⟨p, rest, first.value, first.rest, others.value, rfl,
            ⟨first, hfirst, rfl, rfl⟩, ⟨others, hothers, rfl, rfl⟩, rfl⟩
    next other =>
      cases h
      exact .inr ⟨other, rfl, rfl⟩
  · rintro (⟨p, rest, _, _, _, rfl, ⟨first, hfirst, rfl, rfl⟩, ⟨others, hothers, rfl, rfl⟩, rfl⟩ |
      ⟨other, rfl, rfl⟩)
    · unfold Reads
      rw [moreArguments, hfirst]
      dsimp only
      rw [hothers]
      exact ⟨_, rfl, rfl, rfl⟩
    · unfold Reads
      rw [moreArguments.eq_def]
      split
      next p rest => exact absurd rfl (other p rest)
      next => exact ⟨_, rfl, rfl, rfl⟩

theorem reads_arguments {es : List Expr} :
    Reads (arguments inner) ts es out ↔
      (∃ p rest, ts = ⟨.closing, p⟩ :: rest ∧ es = [] ∧ out = ts) ∨
      (∀ p rest, ts ≠ ⟨.closing, p⟩ :: rest) ∧ ∃ first mid others, Reads inner.range ts first mid ∧
        Reads (moreArguments inner) mid others out ∧ es = first :: others := by
  constructor
  · rintro ⟨r, h, rfl, rfl⟩
    unfold arguments at h
    split at h
    next p rest =>
      cases h
      exact .inl ⟨p, rest, rfl, rfl, rfl⟩
    next other =>
      split at h
      · cases h
      next first hfirst =>
        split at h
        · cases h
        next others hothers =>
          cases h
          exact .inr ⟨other, first.value, first.rest, others.value,
            ⟨first, hfirst, rfl, rfl⟩, ⟨others, hothers, rfl, rfl⟩, rfl⟩
  · rintro (⟨p, rest, rfl, rfl, rfl⟩ |
      ⟨other, _, _, _, ⟨first, hfirst, rfl, rfl⟩, ⟨others, hothers, rfl, rfl⟩, rfl⟩)
    · exact ⟨_, rfl, rfl, rfl⟩
    · unfold Reads arguments
      split
      next p rest => exact absurd rfl (other p rest)
      next =>
        rw [hfirst]
        dsimp only
        rw [hothers]
        exact ⟨_, rfl, rfl, rfl⟩

theorem reads_atom :
    Reads (atom inner) ts e out ↔
      (∃ x p, ts = ⟨.number x, p⟩ :: out ∧ e = .number x) ∨
      (∃ f p q rest es r, ts = ⟨.name f, p⟩ :: ⟨.opening, q⟩ :: rest ∧
        Reads (arguments inner) rest es (⟨.closing, r⟩ :: out) ∧ e = .call f es) ∨
      (∃ name p, ts = ⟨.name name, p⟩ :: out ∧ (∀ q rest, out ≠ ⟨.opening, q⟩ :: rest) ∧
        e = .reference name) ∨
      ∃ p rest q, ts = ⟨.opening, p⟩ :: rest ∧ Reads inner.range rest e (⟨.closing, q⟩ :: out) := by
  constructor
  · rintro ⟨r, h, rfl, rfl⟩
    unfold atom at h
    split at h
    next x p rest =>
      cases h
      exact .inl ⟨x, p, rfl, rfl⟩
    next f p q rest =>
      split at h
      · cases h
      next args hargs =>
        split at h
        · cases h
        next closed hclosed =>
          cases h
          obtain ⟨hvalue, r, hrest⟩ := (close_eq_ok _).1 ⟨closed, hclosed, rfl, rfl⟩
          exact .inr (.inl ⟨f, p, q, rest, args.value, r, rfl, ⟨args, hargs, rfl, hrest⟩,
            congrArg (Expr.call f) hvalue.symm⟩)
    next name p rest other =>
      cases h
      exact .inr (.inr (.inl ⟨name, p, rfl, fun q rest => other q rest, rfl⟩))
    next p rest =>
      split at h
      · cases h
      next inside hinside =>
        split at h
        · cases h
        next closed hclosed =>
          cases h
          obtain ⟨hvalue, q, hrest⟩ := (close_eq_ok _).1 ⟨closed, hclosed, rfl, rfl⟩
          exact .inr (.inr (.inr ⟨p, rest, q, rfl, ⟨inside, hinside, hvalue, hrest⟩⟩))
    · cases h
  · rintro (⟨x, p, rfl, rfl⟩ | ⟨f, p, q, rest, es, r, rfl, ⟨args, hargs, rfl, hrest⟩, rfl⟩ |
      ⟨name, p, rfl, other, rfl⟩ | ⟨p, rest, q, rfl, inside, hinside, rfl, hrest⟩)
    · exact ⟨_, rfl, rfl, rfl⟩
    · obtain ⟨closed, hclosed, hvalue, hout⟩ :=
        (close_eq_ok .closingArguments).2 ⟨rfl, r, hrest⟩
      unfold Reads atom
      dsimp only
      rw [hargs]
      dsimp only
      rw [hclosed]
      exact ⟨_, rfl, congrArg (Expr.call f) hvalue, hout⟩
    · refine ⟨⟨.reference name, out, Nat.le_succ _⟩, ?_, rfl, rfl⟩
      cases out with
      | nil => rfl
      | cons token rest =>
        obtain ⟨lexeme, q⟩ := token
        cases lexeme with
        | opening => exact absurd rfl (other q rest)
        | _ => rfl
    · obtain ⟨closed, hclosed, hvalue, hout⟩ :=
        (close_eq_ok .closingExpression).2 ⟨rfl, q, hrest⟩
      unfold Reads atom
      dsimp only
      rw [hinside]
      dsimp only
      rw [hclosed]
      exact ⟨_, rfl, hvalue, hout⟩

/-! ### Powers and negations -/

theorem reads_exponent :
    Reads (exponent inner) ts e out ↔
      (∃ p rest, ts = ⟨.operator .subtract, p⟩ :: rest ∧ Reads inner.negation ts e out) ∨
      (∀ p rest, ts ≠ ⟨.operator .subtract, p⟩ :: rest) ∧ Reads inner.power ts e out := by
  constructor
  · rintro ⟨r, h, rfl, rfl⟩
    unfold exponent at h
    split at h
    next p rest => exact .inl ⟨p, rest, rfl, r, h, rfl, rfl⟩
    next other => exact .inr ⟨other, r, h, rfl, rfl⟩
  · rintro (⟨p, rest, rfl, h⟩ | ⟨other, r, h, rfl, rfl⟩)
    · exact h
    · refine ⟨r, ?_, rfl, rfl⟩
      unfold exponent
      split
      next p rest => exact absurd rfl (other p rest)
      next => exact h

theorem reads_power :
    Reads (power inner) ts e out ↔ ∃ a mid, Reads (atom inner) ts a mid ∧
      ((∃ p rest b, mid = ⟨.operator .power, p⟩ :: rest ∧ Reads (exponent inner) rest b out ∧
          e = .binary .power a b) ∨
        (∀ p rest, mid ≠ ⟨.operator .power, p⟩ :: rest) ∧ e = a ∧ out = mid) := by
  constructor
  · rintro ⟨r, h, rfl, rfl⟩
    unfold power at h
    split at h
    · cases h
    next base hbase =>
      refine ⟨base.value, base.rest, ⟨base, hbase, rfl, rfl⟩, ?_⟩
      split at h
      next p rest hrest =>
        split at h
        · cases h
        next raised hraised =>
          cases h
          exact .inl ⟨p, rest, raised.value, hrest, ⟨raised, hraised, rfl, rfl⟩, rfl⟩
      next other =>
        cases h
        exact .inr ⟨other, rfl, rfl⟩
  · rintro ⟨_, _, ⟨base, hbase, rfl, rfl⟩, ⟨p, rest, _, hrest, ⟨raised, hraised, rfl, rfl⟩, rfl⟩ |
      ⟨other, rfl, rfl⟩⟩
    · unfold Reads power
      rw [hbase]
      dsimp only
      split
      next p' rest' h =>
        cases hrest.symm.trans h
        rw [hraised]
        exact ⟨_, rfl, rfl, rfl⟩
      next other => exact absurd hrest (other p rest)
    · unfold Reads power
      rw [hbase]
      dsimp only
      split
      next p' rest' h => exact absurd h (other p' rest')
      next => exact ⟨_, rfl, rfl, rfl⟩

theorem reads_negation :
    Reads (negation inner) ts e out ↔
      (∃ p rest a, ts = ⟨.operator .subtract, p⟩ :: rest ∧ Reads inner.negation rest a out ∧
        e = .negation a) ∨
      (∀ p rest, ts ≠ ⟨.operator .subtract, p⟩ :: rest) ∧ Reads (power inner) ts e out := by
  constructor
  · rintro ⟨r, h, rfl, rfl⟩
    unfold negation at h
    split at h
    next p rest =>
      split at h
      · cases h
      next operand hoperand =>
        cases h
        exact .inl ⟨p, rest, operand.value, rfl, ⟨operand, hoperand, rfl, rfl⟩, rfl⟩
    next other => exact .inr ⟨other, r, h, rfl, rfl⟩
  · rintro (⟨p, rest, _, rfl, ⟨operand, hoperand, rfl, rfl⟩, rfl⟩ | ⟨other, r, h, rfl, rfl⟩)
    · unfold Reads negation
      dsimp only
      rw [hoperand]
      exact ⟨_, rfl, rfl, rfl⟩
    · refine ⟨r, ?_, rfl, rfl⟩
      unfold negation
      split
      next p rest => exact absurd rfl (other p rest)
      next => exact h

/-! ### Products, sums and ranges -/

theorem reads_chain {rank : Operator → Bool} {operand : Parser Expr} {left : Expr} :
    Reads (chain rank operand left) ts e out ↔
      (∃ o p rest b mid, ts = ⟨.operator o, p⟩ :: rest ∧ rank o = true ∧ Reads operand rest b mid ∧
        Reads (chain rank operand (.binary o left b)) mid e out) ∨
      (∀ o p rest, ts = ⟨.operator o, p⟩ :: rest → rank o = false) ∧ e = left ∧ out = ts := by
  constructor
  · rintro ⟨r, h, rfl, rfl⟩
    rw [chain.eq_def] at h
    split at h
    next o p rest =>
      split at h
      next hrank =>
        split at h
        · cases h
        next right hright =>
          split at h
          · cases h
          next whole hwhole =>
            cases h
            exact .inl ⟨o, p, rest, right.value, right.rest, rfl, hrank, ⟨right, hright, rfl, rfl⟩,
              ⟨whole, hwhole, rfl, rfl⟩⟩
      next hrank =>
        cases h
        refine .inr ⟨fun o' p' rest' same => ?_, rfl, rfl⟩
        cases same
        simpa using hrank
    next other =>
      cases h
      exact .inr ⟨fun o p rest same => (other o p rest same).elim, rfl, rfl⟩
  · rintro (⟨o, p, rest, _, _, rfl, hrank, ⟨right, hright, rfl, rfl⟩, ⟨whole, hwhole, rfl, rfl⟩⟩ |
      ⟨other, rfl, rfl⟩)
    · unfold Reads
      rw [chain, if_pos hrank, hright]
      dsimp only
      rw [hwhole]
      exact ⟨_, rfl, rfl, rfl⟩
    · unfold Reads
      rw [chain.eq_def]
      split
      next o p rest =>
        rw [if_neg (by simp [other o p rest rfl])]
        exact ⟨_, rfl, rfl, rfl⟩
      next => exact ⟨_, rfl, rfl, rfl⟩

theorem reads_ranked {rank : Operator → Bool} {operand : Parser Expr} :
    Reads (ranked rank operand) ts e out ↔
      ∃ a mid, Reads operand ts a mid ∧ Reads (chain rank operand a) mid e out := by
  constructor
  · rintro ⟨r, h, rfl, rfl⟩
    unfold ranked at h
    split at h
    · cases h
    next left hleft =>
      split at h
      · cases h
      next whole hwhole =>
        cases h
        exact ⟨left.value, left.rest, ⟨left, hleft, rfl, rfl⟩, ⟨whole, hwhole, rfl, rfl⟩⟩
  · rintro ⟨_, _, ⟨left, hleft, rfl, rfl⟩, ⟨whole, hwhole, rfl, rfl⟩⟩
    unfold Reads ranked
    rw [hleft]
    dsimp only
    rw [hwhole]
    exact ⟨_, rfl, rfl, rfl⟩

theorem reads_range :
    Reads (range inner) ts e out ↔ ∃ a mid, Reads (sum inner) ts a mid ∧
      ((∃ w p rest b, mid = ⟨.rangeWord w, p⟩ :: rest ∧ Reads (sum inner) rest b out ∧
          e = .range a b) ∨
        (∀ w p rest, mid ≠ ⟨.rangeWord w, p⟩ :: rest) ∧ e = a ∧ out = mid) := by
  constructor
  · rintro ⟨r, h, rfl, rfl⟩
    unfold range at h
    split at h
    · cases h
    next left hleft =>
      refine ⟨left.value, left.rest, ⟨left, hleft, rfl, rfl⟩, ?_⟩
      split at h
      next w p rest hrest =>
        split at h
        · cases h
        next right hright =>
          cases h
          exact .inl ⟨w, p, rest, right.value, hrest, ⟨right, hright, rfl, rfl⟩, rfl⟩
      next other =>
        cases h
        exact .inr ⟨other, rfl, rfl⟩
  · rintro ⟨_, _, ⟨left, hleft, rfl, rfl⟩, ⟨w, p, rest, _, hrest, ⟨right, hright, rfl, rfl⟩, rfl⟩ |
      ⟨other, rfl, rfl⟩⟩
    · unfold Reads range
      rw [hleft]
      dsimp only
      split
      next w' p' rest' h =>
        cases hrest.symm.trans h
        rw [hright]
        exact ⟨_, rfl, rfl, rfl⟩
      next other => exact absurd hrest (other w p rest)
    · unfold Reads range
      rw [hleft]
      dsimp only
      split
      next w' p' rest' h => exact absurd h (other w' p' rest')
      next => exact ⟨_, rfl, rfl, rfl⟩

/-- A whole formula is a range that leaves nothing. -/
theorem ofTokens_eq_ok {ts : List Token} {e : Expr} :
    ofTokens ts = .ok e ↔ Reads (range (within levels)) ts e [] := by
  unfold ofTokens Reads
  cases range (within levels) ts with
  | error f => simp
  | ok whole =>
    obtain ⟨value, rest, shorter⟩ := whole
    cases rest <;> simp

end MonteCarloSheet.Formula.Parser
