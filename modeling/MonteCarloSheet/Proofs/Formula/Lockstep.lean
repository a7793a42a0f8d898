import MonteCarloSheet.Formula.Evaluation

/-! Evaluations side by side.

Two evaluations of one formula, in two kinds of state, are coupled if the states
stay related as long as both go on, and stop together, in ways that go together.
Every step but a reference only draws and computes, so formulas are coupled
whenever their references are (`evaluate_coupled`). They go in lockstep if the
states stay related in any case, and the results are the same or stops that go
together (`evaluate_lockstep`). With one state against itself this says which
properties of a state an evaluation keeps; with an empty state on one side it says
that only the answers of the references matter. -/
namespace MonteCarloSheet.Formula

open MonteCarloSheet.Random (Generator)

/-! ### The height of a formula -/

namespace Expr

mutual

/-- How many trees stand inside one another, the formula itself included. -/
def height : Expr → Nat
  | number _ => 1
  | reference _ => 1
  | range left right => max left.height right.height + 1
  | call _ arguments => heightOfAll arguments + 1
  | binary _ left right => max left.height right.height + 1
  | negation operand => operand.height + 1

def heightOfAll : List Expr → Nat
  | [] => 0
  | e :: rest => max e.height (heightOfAll rest)

end

theorem height_pos (e : Expr) : 0 < e.height := by
  cases e <;> simp only [height] <;> omega

end Expr

/-! ### What a step does -/

theorem bind_answer (m : Answering σ α) (k : α → Answering σ β) (s : σ) :
    (m >>= k) s =
      match m s with
      | (.ok a, s') => k a s'
      | (.error x, s') => (.error x, s') := by
  simp only [Bind.bind, ExceptT.bind, ExceptT.mk, StateT.bind]
  rcases m s with ⟨x | a, s'⟩ <;> rfl

theorem bind_run (m : Evaluation σ α) (k : α → Evaluation σ β) (g : Generator) (s : σ) :
    (m >>= k) g s =
      match m g s with
      | (.ok (a, g'), s') => k a g' s'
      | (.error x, s') => (.error x, s') := by
  change (m g >>= fun (a, g') => k a g' : Answering σ (β × Generator)) s = _
  rw [bind_answer]
  rcases m g s with ⟨x | ⟨a, g'⟩, s'⟩ <;> rfl

theorem drawing_run (draw : Generator → Except Stop (α × Generator)) (g : Generator) (s : σ) :
    drawing draw g s = (draw g, s) := by
  have read : (get : Evaluation σ Generator) g s = (.ok (g, g), s) := rfl
  rw [drawing, bind_run, read]
  dsimp only
  rcases draw g with x | ⟨a, g'⟩ <;> rfl

theorem lift_run (m : Answering σ α) (g : Generator) (s : σ) :
    (StateT.lift m : Evaluation σ α) g s =
      match m s with
      | (.ok a, s') => (.ok (a, g), s')
      | (.error x, s') => (.error x, s') := by
  change (m >>= fun a => Pure.pure (a, g) : Answering σ _) s = _
  rw [bind_answer]
  rcases m s with ⟨x | a, s'⟩ <;> rfl

/-! ### Coupled evaluations -/

/-- Two outcomes go together: the same value in related states, or stops that go together in the
states that they leave. -/
def Match (R : σ → τ → Prop) (T : Stop → σ → Stop → τ → Prop) :
    Except Stop α × σ → Except Stop α × τ → Prop
  | (.ok a, s), (.ok b, t) => a = b ∧ R s t
  | (.error x, s), (.error y, t) => T x s y t
  | _, _ => False

/-- From related states, two evaluations have outcomes that go together. -/
def Coupled (R : σ → τ → Prop) (T : Stop → σ → Stop → τ → Prop) (m : Evaluation σ α)
    (n : Evaluation τ α) : Prop :=
  ∀ g s t, R s t → Match R T (m g s) (n g t)

namespace Coupled
variable {R : σ → τ → Prop} {T : Stop → σ → Stop → τ → Prop}

theorem pure (a : α) : Coupled R T (Pure.pure a) (Pure.pure a) :=
  fun _ _ _ h => ⟨rfl, h⟩

theorem throw (stops : ∀ x s t, R s t → T x s x t) (x : Stop) :
    Coupled R T (MonadExcept.throw x : Evaluation σ α) (MonadExcept.throw x) :=
  fun _ s t h => stops x s t h

theorem bind {m : Evaluation σ α} {n : Evaluation τ α} {k : α → Evaluation σ β}
    {l : α → Evaluation τ β} (first : Coupled R T m n) (next : ∀ a, Coupled R T (k a) (l a)) :
    Coupled R T (m >>= k) (n >>= l) := by
  intro g s t h
  have both := first g s t h
  rw [bind_run, bind_run]
  rcases left : m g s with ⟨x | ⟨a, g'⟩, s'⟩ <;> rcases right : n g t with ⟨y | ⟨b, g''⟩, t'⟩ <;>
    rw [left, right] at both
  · exact both
  · exact both.elim
  · exact both.elim
  · obtain ⟨same, related⟩ := both
    cases same
    exact next a g' s' t' related

theorem map (f : α → β) {m : Evaluation σ α} {n : Evaluation τ α} (h : Coupled R T m n) :
    Coupled R T (f <$> m) (f <$> n) :=
  h.bind fun a => pure (f a)

theorem check (stops : ∀ x s t, R s t → T x s x t) (x : Except Problem α) :
    Coupled R T (Formula.check x : Evaluation σ α) (Formula.check x) := by
  cases x with
  | ok a => exact pure a
  | error p => exact throw stops (.problem p)

theorem need (stops : ∀ x s t, R s t → T x s x t) (x : Option α) :
    Coupled R T (Formula.need x : Evaluation σ α) (Formula.need x) := by
  cases x with
  | none => exact throw stops .missing
  | some a => exact pure a

theorem drawing (stops : ∀ x s t, R s t → T x s x t)
    (draw : Generator → Except Stop (α × Generator)) :
    Coupled R T (Formula.drawing draw : Evaluation σ α) (Formula.drawing draw) := by
  intro g s t h
  rw [drawing_run, drawing_run]
  rcases draw g with x | a
  · exact stops x s t h
  · exact ⟨rfl, h⟩

theorem lift {m : Answering σ α} {n : Answering τ α} (h : ∀ s t, R s t → Match R T (m s) (n t)) :
    Coupled R T (StateT.lift m : Evaluation σ α) (StateT.lift n) := by
  intro g s t related
  have both := h s t related
  rw [lift_run, lift_run]
  rcases left : m s with ⟨x | a, s'⟩ <;> rcases right : n t with ⟨y | b, t'⟩ <;>
    rw [left, right] at both
  · exact both
  · exact both.elim
  · exact both.elim
  · obtain ⟨same, related⟩ := both
    cases same
    exact ⟨rfl, related⟩

end Coupled

/-! ### Coupled formulas -/

/-- The rooms of two evaluations of a formula are the same, or both hold all its trees. -/
def Fit (height room₁ room₂ : Nat) : Prop :=
  room₁ = room₂ ∨ height ≤ room₁ ∧ height ≤ room₂

theorem Fit.of_le {inner outer room₁ room₂ : Nat} (h : Fit outer room₁ room₂)
    (le : inner ≤ outer) : Fit inner room₁ room₂ := by
  unfold Fit at *
  omega

theorem Fit.inside {inner outer room₁ room₂ : Nat} (h : Fit outer (room₁ + 1) (room₂ + 1))
    (less : inner + 1 ≤ outer) : Fit inner room₁ room₂ := by
  unfold Fit at *
  omega

theorem Fit.cases {height room₁ room₂ : Nat} (h : Fit height room₁ room₂) (pos : 0 < height) :
    room₁ = 0 ∧ room₂ = 0 ∨ ∃ r₁ r₂, room₁ = r₁ + 1 ∧ room₂ = r₂ + 1 := by
  unfold Fit at h
  match room₁, room₂ with
  | 0, 0 => exact .inl ⟨rfl, rfl⟩
  | 0, r + 1 => omega
  | r + 1, 0 => omega
  | r₁ + 1, r₂ + 1 => exact .inr ⟨r₁, r₂, rfl, rfl⟩

/-- References inside a formula of the given height, evaluated in the two rooms, are coupled:
both rooms have shrunk by the same, and by no more than the height. -/
def Referred (R : σ → τ → Prop) (T : Stop → σ → Stop → τ → Prop)
    (refer₁ : Nat → String → Answering σ (Option Value))
    (refer₂ : Nat → String → Answering τ (Option Value)) (height room₁ room₂ : Nat)
    (names : List String) : Prop :=
  ∀ name ∈ names, ∀ r₁ r₂, room₁ ≤ r₁ + height → r₁ + room₂ = r₂ + room₁ → ∀ s t, R s t →
    Match R T (refer₁ r₁ name s) (refer₂ r₂ name t)

section Formulas
variable {R : σ → τ → Prop} {T : Stop → σ → Stop → τ → Prop}
  {refer₁ : Nat → String → Answering σ (Option Value)}
  {refer₂ : Nat → String → Answering τ (Option Value)} {count : Nat}

theorem Referred.of_le {inner outer room₁ room₂ : Nat} {some all : List String}
    (h : Referred R T refer₁ refer₂ outer room₁ room₂ all) (among : ∀ name ∈ some, name ∈ all)
    (le : inner ≤ outer) : Referred R T refer₁ refer₂ inner room₁ room₂ some :=
  fun name mem r₁ r₂ enough shift => h name (among name mem) r₁ r₂ (by omega) shift

theorem Referred.inside {inner outer room₁ room₂ : Nat} {some all : List String}
    (h : Referred R T refer₁ refer₂ outer (room₁ + 1) (room₂ + 1) all)
    (among : ∀ name ∈ some, name ∈ all) (less : inner + 1 ≤ outer) :
    Referred R T refer₁ refer₂ inner room₁ room₂ some :=
  fun name mem r₁ r₂ enough shift => h name (among name mem) r₁ r₂ (by omega) (by omega)

mutual

/-- Formulas whose references are coupled are coupled themselves. -/
theorem evaluate_coupled (stops : ∀ x s t, R s t → T x s x t) (e : Expr) {room₁ room₂ : Nat}
    (fit : Fit e.height room₁ room₂)
    (refs : Referred R T refer₁ refer₂ e.height room₁ room₂ e.references) :
    Coupled R T (evaluate refer₁ count room₁ e) (evaluate refer₂ count room₂ e) := by
  obtain ⟨rfl, rfl⟩ | ⟨r₁, r₂, rfl, rfl⟩ := fit.cases e.height_pos
  · rw [evaluate, evaluate]
    exact .throw stops _
  match e with
  | .number x => exact .pure _
  | .reference name =>
    rw [evaluate, evaluate]
    exact .lift (refs name (by simp [Expr.references]) r₁ r₂ (Nat.le_refl _) (by omega))
  | .range left right =>
    rw [Expr.height] at fit refs
    have h₁ := evaluate_coupled stops left (fit.inside (by omega))
      (refs.inside (fun _ => List.mem_append_left _) (by omega))
    have h₂ := evaluate_coupled stops right (fit.inside (by omega))
      (refs.inside (fun _ => List.mem_append_right _) (by omega))
    rw [evaluate, evaluate]
    exact h₁.bind fun a => h₂.bind fun b => .map _ (.drawing stops _)
  | .call function arguments =>
    rw [Expr.height] at fit refs
    have h := evaluateAll_coupled stops arguments (fit.inside (by omega))
      (refs.inside (fun _ mem => mem) (by omega))
    rw [evaluate, evaluate]
    split
    · exact .throw stops _
    · exact h.bind fun values => .map _ (.drawing stops _)
  | .binary o left right =>
    rw [Expr.height] at fit refs
    have h₁ := evaluate_coupled stops left (fit.inside (by omega))
      (refs.inside (fun _ => List.mem_append_left _) (by omega))
    have h₂ := evaluate_coupled stops right (fit.inside (by omega))
      (refs.inside (fun _ => List.mem_append_right _) (by omega))
    rw [evaluate, evaluate]
    exact h₁.bind fun a => h₂.bind fun b => .map _ (.check stops _)
  | .negation operand =>
    rw [Expr.height] at fit refs
    have h := evaluate_coupled stops operand (fit.inside (by omega))
      (refs.inside (fun _ mem => mem) (by omega))
    rw [evaluate, evaluate]
    exact h.bind fun a => (Coupled.need stops a).bind fun b => .map _ (.check stops _)

theorem evaluateAll_coupled (stops : ∀ x s t, R s t → T x s x t) (es : List Expr)
    {room₁ room₂ : Nat} (fit : Fit (Expr.heightOfAll es) room₁ room₂)
    (refs : Referred R T refer₁ refer₂ (Expr.heightOfAll es) room₁ room₂
      (Expr.referencesOfAll es)) :
    Coupled R T (evaluateAll refer₁ count room₁ es) (evaluateAll refer₂ count room₂ es) := by
  match es with
  | [] => exact .pure _
  | e :: rest =>
    rw [Expr.heightOfAll] at fit refs
    have h₁ := evaluate_coupled stops e (fit.of_le (by omega))
      (refs.of_le (fun _ => List.mem_append_left _) (by omega))
    have h₂ := evaluateAll_coupled stops rest (fit.of_le (by omega))
      (refs.of_le (fun _ => List.mem_append_right _) (by omega))
    rw [evaluateAll, evaluateAll]
    exact h₁.bind fun value => h₂.bind fun values => .pure _

end

end Formulas

/-! ### Lockstep -/

/-- Two results are the same, or stops that go together. -/
def Agree (E : Stop → Stop → Prop) : Except Stop α → Except Stop α → Prop
  | .ok a, .ok b => a = b
  | .error x, .error y => E x y
  | _, _ => False

theorem Agree.refl {E : Stop → Stop → Prop} (same : ∀ x, E x x) (a : Except Stop α) :
    Agree E a a := by
  cases a with
  | error x => exact same x
  | ok a => rfl

theorem Agree.eq {a b : Except Stop α} (h : Agree Eq a b) : a = b := by
  cases a <;> cases b <;> cases h <;> rfl

/-- From related states, two evaluations agree and leave related states. -/
def Lockstep (R : σ → τ → Prop) (E : Stop → Stop → Prop) (m : Evaluation σ α)
    (n : Evaluation τ α) : Prop :=
  ∀ g s t, R s t → Agree E (m g s).1 (n g t).1 ∧ R (m g s).2 (n g t).2

section Lockstep
variable {R : σ → τ → Prop} {E : Stop → Stop → Prop}

/-- Outcomes that agree and leave related states are those that go together whenever states that
are related do. -/
theorem match_iff_agree {a : Except Stop α × σ} {b : Except Stop α × τ} :
    Match R (fun x s y t => E x y ∧ R s t) a b ↔ Agree E a.1 b.1 ∧ R a.2 b.2 := by
  obtain ⟨x | v, s⟩ := a <;> obtain ⟨y | w, t⟩ := b <;> simp [Match, Agree]

/-- References inside a formula of the given height, evaluated in the two rooms, go in lockstep. -/
def Answered (R : σ → τ → Prop) (E : Stop → Stop → Prop)
    (refer₁ : Nat → String → Answering σ (Option Value))
    (refer₂ : Nat → String → Answering τ (Option Value)) (height room₁ room₂ : Nat)
    (names : List String) : Prop :=
  ∀ name ∈ names, ∀ r₁ r₂, room₁ ≤ r₁ + height → r₁ + room₂ = r₂ + room₁ → ∀ s t, R s t →
    Agree E (refer₁ r₁ name s).1 (refer₂ r₂ name t).1 ∧
      R (refer₁ r₁ name s).2 (refer₂ r₂ name t).2

/-- Formulas whose references go in lockstep go in lockstep themselves. -/
theorem evaluate_lockstep {refer₁ : Nat → String → Answering σ (Option Value)}
    {refer₂ : Nat → String → Answering τ (Option Value)} {count : Nat} (same : ∀ x, E x x)
    (e : Expr) {room₁ room₂ : Nat} (fit : Fit e.height room₁ room₂)
    (refs : Answered R E refer₁ refer₂ e.height room₁ room₂ e.references) :
    Lockstep R E (evaluate refer₁ count room₁ e) (evaluate refer₂ count room₂ e) :=
  fun g s t h => match_iff_agree.1 <| evaluate_coupled (fun x _ _ related => ⟨same x, related⟩) e fit
    (fun name mem r₁ r₂ enough shift s t related =>
      match_iff_agree.2 (refs name mem r₁ r₂ enough shift s t related)) g s t h

end Lockstep

/-- What the references to its names keep of the state, a formula keeps. -/
theorem evaluate_keeps_named {I : σ → Prop} {refer : Nat → String → Answering σ (Option Value)}
    {e : Expr} (refs : ∀ name ∈ e.references, ∀ room s, I s → I (refer room name s).2)
    (count room : Nat) (g : Generator) {s : σ} (h : I s) :
    I (evaluate refer count room e g s).2 := by
  have both : Lockstep (fun s t => s = t ∧ I s) Eq (evaluate refer count room e)
      (evaluate refer count room e) := by
    refine evaluate_lockstep (fun _ => rfl) e (.inl rfl) ?_
    intro name mem r₁ r₂ _ shift s t related
    obtain ⟨rfl, h⟩ := related
    obtain rfl : r₁ = r₂ := by omega
    exact ⟨Agree.refl (fun _ => rfl) _, rfl, refs name mem r₁ s h⟩
  exact (both g s s ⟨rfl, h⟩).2.2

/-- What every reference keeps of the state, a formula keeps. -/
theorem evaluate_keeps {I : σ → Prop} {refer : Nat → String → Answering σ (Option Value)}
    (refs : ∀ room name s, I s → I (refer room name s).2) (count room : Nat) (e : Expr)
    (g : Generator) {s : σ} (h : I s) : I (evaluate refer count room e g s).2 :=
  evaluate_keeps_named (fun name _ room s => refs room name s) count room g h

end MonteCarloSheet.Formula
