import MonteCarloSheet.Proofs.Formula.Outcome

/-! What a formula asks for.

All that an evaluation takes from its state are the answers to its references. They
come one after another, and each may find another state (`Asked`). Given the same
answers again, the formula comes to the same by itself (`Asks`, `evaluate_asks`); and
if it comes to a value, it has asked for its references in reading order and each had
an answer. It then also stands in any room that holds all its trees
(`evaluate_room`). -/
namespace MonteCarloSheet.Formula

open MonteCarloSheet.Random (Generator)

/-- Names in the order in which they were asked for, with the answers. -/
abbrev Answers := List (String × Except Stop (Option Value))

/-- The state answers one reference after another, in whatever room. -/
inductive Asked (refer : Nat → String → Answering σ (Option Value)) : σ → Answers → σ → Prop where
  | nil (s : σ) : Asked refer s [] s
  | cons {s : σ} (room : Nat) (name : String) {l : Answers} {t : σ}
      (rest : Asked refer (refer room name s).2 l t) :
      Asked refer s ((name, (refer room name s).1) :: l) t

/-- The names had answers, in this order. -/
structure Answers.Complete (l : Answers) (names : List String) : Prop where
  order : l.map Prod.fst = names
  answered : ∀ p ∈ l, ∃ v, p.2 = .ok v

/-- The answers that were got are given again. -/
def Answers.Given (l : Answers) (answers : String → Except Stop (Option Value)) : Prop :=
  ∀ p ∈ l, answers p.1 = p.2

theorem Answers.Complete.append {l k : Answers} {names others : List String}
    (first : l.Complete names) (second : k.Complete others) :
    (l ++ k).Complete (names ++ others) := by
  refine ⟨by rw [List.map_append, first.order, second.order], fun p mem => ?_⟩
  exact (List.mem_append.1 mem).elim (first.answered p) (second.answered p)

theorem Answers.Complete.nil : Answers.Complete [] [] :=
  ⟨rfl, fun _ mem => by cases mem⟩

section
variable {refer : Nat → String → Answering σ (Option Value)}

theorem Asked.append {s t u : σ} {l k : Answers} (first : Asked refer s l t)
    (second : Asked refer t k u) : Asked refer s (l ++ k) u := by
  induction first with
  | nil => exact second
  | cons room name _ ih => exact .cons room name (ih second)

/-- An evaluation takes from the state the answers that it asks for, and nothing else: with the same
answers the other one, which has no state, comes to the same. A result has asked for the names. -/
def Asks (refer : Nat → String → Answering σ (Option Value)) (names : List String)
    (m : Evaluation σ α) (n : (String → Except Stop (Option Value)) → Evaluation Unit α) : Prop :=
  ∀ g s, ∃ l, Asked refer s l (m g s).2 ∧ (∀ r, (m g s).1 = .ok r → l.Complete names) ∧
    ∀ answers, l.Given answers → (n answers g ()).1 = (m g s).1

namespace Asks

theorem pure (a : α) : Asks refer [] (Pure.pure a) fun _ => Pure.pure a :=
  fun _ s => ⟨[], .nil s, fun _ _ => .nil, fun _ _ => rfl⟩

/-- What stops of itself asks for nothing, whatever the names. -/
theorem throw (names : List String) (x : Stop) :
    Asks refer names (MonadExcept.throw x : Evaluation σ α) fun _ => MonadExcept.throw x :=
  fun _ s => ⟨[], .nil s, fun _ absurd => (by cases absurd), fun _ _ => rfl⟩

theorem bind {names others : List String} {m : Evaluation σ α} {k : α → Evaluation σ β}
    {n : (String → Except Stop (Option Value)) → Evaluation Unit α}
    {j : (String → Except Stop (Option Value)) → α → Evaluation Unit β}
    (first : Asks refer names m n)
    (next : ∀ a, Asks refer others (k a) fun answers => j answers a) :
    Asks refer (names ++ others) (m >>= k) fun answers => n answers >>= j answers := by
  intro g s
  obtain ⟨l, asked, complete, again⟩ := first g s
  rw [bind_run]
  rcases ran : m g s with ⟨x | ⟨a, g'⟩, s'⟩ <;> rw [ran] at asked complete again
  · refine ⟨l, asked, fun r absurd => (by cases absurd), fun answers given => ?_⟩
    have same := again answers given
    dsimp only
    rw [bind_run]
    rcases again : n answers g () with ⟨y | b, u⟩ <;> rw [again] at same <;> cases same
    rfl
  · obtain ⟨l', asked', complete', again'⟩ := next a g' s'
    refine ⟨l ++ l', asked.append asked', fun r ends => ?_, fun answers given => ?_⟩
    · exact (complete _ rfl).append (complete' r ends)
    · have same := again answers fun p mem => given p (List.mem_append_left _ mem)
      have later := again' answers fun p mem => given p (List.mem_append_right _ mem)
      dsimp only
      rw [bind_run]
      rcases again : n answers g () with ⟨y | b, u⟩ <;> rw [again] at same <;> cases same
      exact later

theorem map {names : List String} (f : α → β) {m : Evaluation σ α}
    {n : (String → Except Stop (Option Value)) → Evaluation Unit α} (h : Asks refer names m n) :
    Asks refer names (f <$> m) fun answers => f <$> n answers := by
  have both : Asks refer (names ++ []) (f <$> m) fun answers => f <$> n answers :=
    h.bind fun a => pure (f a)
  rw [List.append_nil] at both
  exact both

theorem check (x : Except Problem α) :
    Asks refer [] (Formula.check x : Evaluation σ α) fun _ => Formula.check x := by
  cases x with
  | ok a => exact pure a
  | error p => exact throw [] (.problem p)

theorem need (x : Option α) :
    Asks refer [] (Formula.need x : Evaluation σ α) fun _ => Formula.need x := by
  cases x with
  | none => exact throw [] .missing
  | some a => exact pure a

theorem drawing (draw : Generator → Except Stop (α × Generator)) :
    Asks refer [] (Formula.drawing draw : Evaluation σ α) fun _ => Formula.drawing draw := by
  intro g s
  rw [drawing_run]
  refine ⟨[], .nil s, fun _ _ => .nil, fun _ _ => ?_⟩
  dsimp only
  rw [drawing_run]

/-- A reference asks for its name. -/
theorem reference (room : Nat) (name : String) :
    Asks refer [name] (StateT.lift (refer room name)) fun answers =>
      StateT.lift (fixed answers room name) := by
  intro g s
  have asked : Asked refer s [(name, (refer room name s).1)] (refer room name s).2 :=
    .cons room name (.nil _)
  rw [lift_run]
  rcases ran : refer room name s with ⟨x | v, s'⟩ <;> rw [ran] at asked
  · refine ⟨_, asked, fun r absurd => (by cases absurd), fun answers given => ?_⟩
    have answer : answers name = .error x := given _ List.mem_cons_self
    dsimp only
    rw [lift_run, fixed, answer]
  · refine ⟨_, asked, fun r _ => ⟨rfl, fun p mem => ⟨v, ?_⟩⟩, fun answers given => ?_⟩
    · rw [List.mem_singleton.1 mem]
    · have answer : answers name = .ok v := given _ List.mem_cons_self
      dsimp only
      rw [lift_run, fixed, answer]

end Asks

variable (refer) (count : Nat)

mutual

/-- A formula takes nothing from the state but the answers to its references. -/
theorem evaluate_asks (e : Expr) (room : Nat) :
    Asks refer e.references (evaluate refer count room e) fun answers =>
      evaluate (fixed answers) count room e := by
  cases room with
  | zero => simpa only [evaluate] using .throw _ _
  | succ room =>
    match e with
    | .number x => simpa only [evaluate] using .pure _
    | .reference name => simpa only [evaluate] using .reference room name
    | .range left right =>
      have h₁ := evaluate_asks left room
      have h₂ := evaluate_asks right room
      have both := h₁.bind fun a => h₂.bind fun b => .map some (.drawing (spread count a b))
      simpa only [evaluate, Expr.references, List.append_nil] using both
    | .call function arguments =>
      simp only [evaluate]
      split
      · exact .throw _ _
      next builtin _ =>
        have h := evaluateAll_asks arguments room
        have both := h.bind fun values => .map some (.drawing fun g => builtin.apply count values g)
        simpa only [Expr.references, List.append_nil] using both
    | .binary o left right =>
      have h₁ := evaluate_asks left room
      have h₂ := evaluate_asks right room
      have both := h₁.bind fun a => h₂.bind fun b => .map some (.check (combined count o a b))
      simpa only [evaluate, Expr.references, List.append_nil] using both
    | .negation operand =>
      have h := evaluate_asks operand room
      have both := h.bind fun a => (Asks.need a).bind fun a => .map some (.check (a.negate count))
      simpa only [evaluate, Expr.references, List.append_nil] using both

theorem evaluateAll_asks (es : List Expr) (room : Nat) :
    Asks refer (Expr.referencesOfAll es) (evaluateAll refer count room es) fun answers =>
      evaluateAll (fixed answers) count room es := by
  match es with
  | [] => simpa only [evaluateAll] using .pure _
  | e :: rest =>
    have h₁ := evaluate_asks e room
    have h₂ := evaluateAll_asks rest room
    have both := h₁.bind fun value => h₂.bind fun values => .pure (value :: values)
    simpa only [evaluateAll, Expr.referencesOfAll, List.append_nil] using both

end

end

/-! ### Room for a result -/

/-- If the evaluation comes to a result, `P` holds. -/
def Proves (P : Prop) (m : Evaluation σ α) : Prop :=
  ∀ g s r, (m g s).1 = .ok r → P

namespace Proves
variable {P : Prop}

theorem of (h : P) (m : Evaluation σ α) : Proves P m :=
  fun _ _ _ _ => h

theorem first {m : Evaluation σ α} {k : α → Evaluation σ β} (h : Proves P m) :
    Proves P (m >>= k) := by
  intro g s r ends
  rw [bind_run] at ends
  rcases ran : m g s with ⟨x | ⟨a, g'⟩, s'⟩ <;> rw [ran] at ends
  · cases ends
  · exact h g s (a, g') (by rw [ran])

theorem next {m : Evaluation σ α} {k : α → Evaluation σ β} (h : ∀ a, Proves P (k a)) :
    Proves P (m >>= k) := by
  intro g s r ends
  rw [bind_run] at ends
  rcases ran : m g s with ⟨x | ⟨a, g'⟩, s'⟩ <;> rw [ran] at ends
  · cases ends
  · exact h a g' s' r ends

theorem mono {Q : Prop} {m : Evaluation σ α} (h : Proves P m) (le : P → Q) : Proves Q m :=
  fun g s r ends => le (h g s r ends)

theorem both {Q : Prop} {m : Evaluation σ α} {k : α → Evaluation σ β} (left : Proves P m)
    (right : ∀ a, Proves Q (k a)) : Proves (P ∧ Q) (m >>= k) :=
  fun g s r ends => ⟨left.first g s r ends, next right g s r ends⟩

end Proves

section
variable (refer : Nat → String → Answering σ (Option Value)) (count : Nat)

mutual

/-- A formula that comes to a value has room for all its trees. -/
theorem evaluate_room (e : Expr) (room : Nat) :
    Proves (e.height ≤ room) (evaluate refer count room e) := by
  cases room with
  | zero =>
    intro g s r ends
    rw [evaluate] at ends
    cases ends
  | succ room =>
    match e with
    | .number x => exact .of (by simp only [Expr.height]; omega) _
    | .reference name => exact .of (by simp only [Expr.height]; omega) _
    | .range left right =>
      rw [evaluate, Expr.height]
      exact ((evaluate_room left room).both fun a => (evaluate_room right room).first).mono
        fun fit => by omega
    | .call function arguments =>
      rw [evaluate, Expr.height]
      split
      · intro g s r ends
        cases ends
      · exact (evaluateAll_room arguments room).first.mono fun fit => by omega
    | .binary o left right =>
      rw [evaluate, Expr.height]
      exact ((evaluate_room left room).both fun a => (evaluate_room right room).first).mono
        fun fit => by omega
    | .negation operand =>
      rw [evaluate, Expr.height]
      exact (evaluate_room operand room).first.mono fun fit => by omega

theorem evaluateAll_room (es : List Expr) (room : Nat) :
    Proves (Expr.heightOfAll es ≤ room) (evaluateAll refer count room es) := by
  match es with
  | [] => exact .of (Nat.zero_le _) _
  | e :: rest =>
    rw [evaluateAll, Expr.heightOfAll]
    exact ((evaluate_room e room).both fun a => (evaluateAll_room rest room).first).mono
      fun fit => by omega

end

end

/-- More room than its trees need makes no difference to a formula. -/
theorem evaluateWith_room {answers : String → Except Stop (Option Value)} {count room : Nat}
    {e : Expr} (fit : e.height ≤ room) (g : Generator) :
    evaluateWith answers count e.height e g = evaluateWith answers count room e g := by
  have refs : Answered (fun _ _ => True) Eq (fixed answers) (fixed answers) e.height e.height room
      e.references :=
    fun name _ _ _ _ _ _ _ _ => ⟨Agree.refl (fun _ => rfl) (answers name), trivial⟩
  exact (evaluate_lockstep (fun _ => rfl) e (.inr ⟨Nat.le_refl _, fit⟩) refs g () () trivial).1.eq

/-- A formula that has come to a value comes to it again from the answers that it got to its
references, asked for in reading order. -/
theorem evaluate_again (refer : Nat → String → Answering σ (Option Value)) (count room : Nat)
    (e : Expr) (g : Generator) (s : σ) :
    ∃ l, Asked refer s l (evaluate refer count room e g s).2 ∧
      ∀ r, (evaluate refer count room e g s).1 = .ok r → l.Complete e.references ∧
        ∀ answers, l.Given answers → evaluateWith answers count e.height e g = .ok r := by
  obtain ⟨l, asked, complete, again⟩ := evaluate_asks refer count e room g s
  refine ⟨l, asked, fun r ends => ⟨complete r ends, fun answers given => ?_⟩⟩
  rw [evaluateWith_room (evaluate_room refer count e room g s r ends), evaluateWith,
    again answers given, ends]

end MonteCarloSheet.Formula
