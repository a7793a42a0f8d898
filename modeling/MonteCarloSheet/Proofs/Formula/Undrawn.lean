import MonteCarloSheet.Proofs.Formula.Lockstep

/-! Evaluations that draw nothing.

Whatever is drawn makes samples, and no operator turns samples into a number. A
formula that comes to a number, or to nothing at all, has therefore drawn nothing
on the way: from every generator it comes to the same and leaves the generator as
it is (`evaluate_undrawn`). So do the arguments of every function, which takes no
samples (`numbers_unsampled`). -/
namespace MonteCarloSheet.Formula

open MonteCarloSheet.Random (Generator)

/-- From a state, an evaluation comes to a result and a state with any generator, which it leaves
as it is. -/
def Undrawn (m : Evaluation σ α) (s : σ) (a : α) (s' : σ) : Prop :=
  ∀ g, m g s = (.ok (a, g), s')

namespace Undrawn
variable {s s₁ s₂ : σ}

theorem pure (a : α) (s : σ) : Undrawn (Pure.pure a) s a s :=
  fun _ => rfl

/-- What follows goes on from the generator that was there before. -/
theorem followed {m : Evaluation σ α} {a : α} (h : Undrawn m s a s₁) (k : α → Evaluation σ β)
    (g : Generator) : (m >>= k) g s = k a g s₁ := by
  rw [bind_run, h g]

theorem bind {m : Evaluation σ α} {k : α → Evaluation σ β} {a : α} {b : β}
    (first : Undrawn m s a s₁) (next : Undrawn (k a) s₁ b s₂) : Undrawn (m >>= k) s b s₂ :=
  fun g => (first.followed k g).trans (next g)

theorem map (f : α → β) {m : Evaluation σ α} {a : α} (h : Undrawn m s a s₁) :
    Undrawn (f <$> m) s (f a) s₁ := by
  change Undrawn (m >>= fun a => Pure.pure (f a)) s (f a) s₁
  exact h.bind (pure (f a) s₁)

theorem drawing {draw : Generator → Except Stop (α × Generator)} {a : α}
    (h : ∀ g, draw g = .ok (a, g)) : Undrawn (Formula.drawing draw) s a s := by
  intro g
  rw [drawing_run, h g]

/-- The generator is left as it is. -/
theorem generator_eq {m : Evaluation σ α} {a : α} {g g' : Generator} (h : Undrawn m s a s₁)
    (run : m g s = (.ok (a, g'), s₂)) : g' = g := by
  rw [h g] at run
  cases run
  rfl

end Undrawn

/-! ### Evaluations that end well -/

theorem bind_ok {m : Evaluation σ α} {k : α → Evaluation σ β} {g g' : Generator} {s s' : σ} {b : β}
    (h : (m >>= k) g s = (.ok (b, g'), s')) :
    ∃ a g₁ s₁, m g s = (.ok (a, g₁), s₁) ∧ k a g₁ s₁ = (.ok (b, g'), s') := by
  rw [bind_run] at h
  rcases first : m g s with ⟨x | ⟨a, g₁⟩, s₁⟩ <;> rw [first] at h
  · cases h
  · exact ⟨a, g₁, s₁, rfl, h⟩

theorem map_run (f : α → β) (m : Evaluation σ α) (g : Generator) (s : σ) :
    (f <$> m) g s =
      match m g s with
      | (.ok (a, g'), s') => (.ok (f a, g'), s')
      | (.error x, s') => (.error x, s') := by
  change (m >>= fun a => Pure.pure (f a)) g s = _
  rw [bind_run]
  rcases m g s with ⟨x | ⟨a, g'⟩, s'⟩ <;> rfl

theorem map_ok {f : α → β} {m : Evaluation σ α} {g g' : Generator} {s s' : σ} {b : β}
    (h : (f <$> m) g s = (.ok (b, g'), s')) : ∃ a, m g s = (.ok (a, g'), s') ∧ f a = b := by
  change (m >>= fun a => Pure.pure (f a)) g s = _ at h
  obtain ⟨a, g₁, s₁, run, done⟩ := bind_ok h
  cases done
  exact ⟨a, run, rfl⟩

theorem drawing_ok {draw : Generator → Except Stop (α × Generator)} {g g' : Generator} {s s' : σ}
    {a : α} (h : drawing draw g s = (.ok (a, g'), s')) : draw g = .ok (a, g') ∧ s' = s := by
  rw [drawing_run] at h
  exact ⟨(Prod.mk.inj h).1, (Prod.mk.inj h).2.symm⟩

theorem check_ok {x : Except Problem α} {g g' : Generator} {s s' : σ} {a : α}
    (h : check x g s = (.ok (a, g'), s')) : x = .ok a ∧ g' = g ∧ s' = s := by
  cases x with
  | error p => cases h
  | ok b => cases h; exact ⟨rfl, rfl, rfl⟩

theorem need_ok {x : Option α} {g g' : Generator} {s s' : σ} {a : α}
    (h : need x g s = (.ok (a, g'), s')) : x = some a ∧ g' = g ∧ s' = s := by
  cases x with
  | none => cases h
  | some b => cases h; exact ⟨rfl, rfl, rfl⟩

/-! ### Values without samples -/

/-- A number, or nothing. -/
def Unsampled (v : Option Value) : Prop :=
  ∀ xs, v ≠ some (.samples xs)

theorem unsampled_number (x : Float) : Unsampled (some (.number x)) :=
  fun _ h => by cases h

theorem unsampled_none : Unsampled none :=
  fun _ h => by cases h

theorem Unsampled.number {v : Value} (h : Unsampled (some v)) : ∃ x, v = .number x := by
  cases v with
  | number x => exact ⟨x, rfl⟩
  | samples xs => exact (h xs rfl).elim

theorem unsampled_of_getD {v : Option Value} {x y : Float}
    (h : v.getD (.number x) = .number y) : Unsampled v := by
  rintro xs rfl
  cases h

/-- The arguments of a function are numbers, or missing. -/
theorem numbers_eq {function : String} {values : List (Option Value)} {args : List (Option Float)}
    (h : numbers function values = .ok args) : values = args.map (·.map Value.number) := by
  induction values generalizing args with
  | nil => cases h; rfl
  | cons v rest ih =>
    match v with
    | some (.samples xs) => cases h
    | some (.number x) =>
      rw [numbers] at h
      split at h
      · cases h
      next others later =>
        cases h
        rw [List.map_cons, ← ih later]
        rfl
    | none =>
      rw [numbers] at h
      split at h
      · cases h
      next others later =>
        cases h
        rw [List.map_cons, ← ih later]
        rfl

theorem numbers_unsampled {function : String} {values : List (Option Value)}
    {args : List (Option Float)} (h : numbers function values = .ok args) :
    ∀ v ∈ values, Unsampled v := by
  intro v mem
  rw [numbers_eq h] at mem
  obtain ⟨a, -, rfl⟩ := List.mem_map.1 mem
  cases a with
  | none => exact unsampled_none
  | some x => exact unsampled_number x

/-- A draw of samples comes to samples only. -/
theorem samplesOf_ok {d : Samples.Drawn} {v : Value} {g : Generator} (h : samplesOf d = .ok (v, g)) :
    ∃ xs, v = .samples xs ∧ d = .ok (xs, g) := by
  rcases d with p | ⟨xs, g'⟩
  · cases h
  · cases h
    exact ⟨xs, rfl, rfl⟩

/-- A range has two numbers for its ends and comes to samples of a normal distribution. -/
theorem spread_ok {count : Nat} {a b : Option Value} {g g' : Generator} {v : Value}
    (h : spread count a b g = .ok (v, g')) :
    ∃ x y xs, a = some (.number x) ∧ b = some (.number y) ∧ v = .samples xs ∧
      Samples.normal (lesser x y) (greater x y) count g = .ok (xs, g') := by
  match a, b with
  | some (.samples _), none => cases h
  | some (.samples _), some _ => cases h
  | none, some (.samples _) => cases h
  | some (.number _), some (.samples _) => cases h
  | none, none => cases h
  | none, some (.number _) => cases h
  | some (.number _), none => cases h
  | some (.number x), some (.number y) =>
    obtain ⟨xs, rfl, drawn⟩ := samplesOf_ok h
    exact ⟨x, y, xs, rfl, rfl, rfl, drawn⟩

/-- An estimate comes to samples of its three numbers, or to a number from any generator. -/
theorem estimate_ok {count : Nat} {args : List (Option Float)} {g g' : Generator} {v : Value}
    (h : estimate count args g = .ok (v, g')) :
    (∃ x, v = .number x ∧ ∀ g₀, estimate count args g₀ = .ok (v, g₀)) ∨
      ∃ minimum likely maximum xs, v = .samples xs ∧
        Samples.spreadEstimate minimum likely maximum count g = .ok (xs, g') := by
  rw [estimate] at h
  split at h
  · cases h
  next minimum likely maximum known =>
    split at h
    · cases h
    next ordered =>
      split at h
      next equal =>
        cases h
        refine .inl ⟨minimum, rfl, fun g₀ => ?_⟩
        simp only [estimate, known]
        rw [if_neg ordered, if_pos equal]
      next =>
        obtain ⟨xs, rfl, drawn⟩ := samplesOf_ok h
        exact .inr ⟨minimum, likely, maximum, xs, rfl, drawn⟩

/-- What a function makes of its arguments without samples, it makes of them from any generator. -/
theorem apply_undrawn {builtin : Builtin} {count : Nat} {values : List (Option Value)}
    {g g' : Generator} {v : Value} (unsampled : Unsampled (some v))
    (h : builtin.apply count values g = .ok (v, g')) :
    (∀ w ∈ values, Unsampled w) ∧ ∀ g₀, builtin.apply count values g₀ = .ok (v, g₀) := by
  cases builtin with
  | data =>
    rw [Builtin.apply] at h
    split at h
    · cases h
    · obtain ⟨xs, rfl, -⟩ := samplesOf_ok h
      exact (unsampled xs rfl).elim
  | estimate =>
    rw [Builtin.apply] at h
    split at h
    · cases h
    next args known =>
      obtain ⟨x, rfl, always⟩ | ⟨-, -, -, xs, rfl, -⟩ := estimate_ok h
      · refine ⟨numbers_unsampled known, fun g₀ => ?_⟩
        rw [Builtin.apply, known]
        exact always g₀
      · exact (unsampled xs rfl).elim

theorem pair_number {o : Operator} {left right : Value} {x : Float}
    (h : Value.pair o left right = .number x) :
    (∃ a, left = .number a) ∧ ∃ b, right = .number b := by
  cases left <;> cases right <;> cases h
  exact ⟨⟨_, rfl⟩, _, rfl⟩

/-- An operator comes to a number only on operands without samples. -/
theorem combined_number {count : Nat} {o : Operator} {left right : Option Value} {x : Float}
    (h : combined count o left right = .ok (.number x)) : Unsampled left ∧ Unsampled right := by
  rw [combined, Value.combine] at h
  split at h
  · cases h
  · split at h
    · cases h
    · obtain ⟨⟨a, left⟩, b, right⟩ := pair_number (Except.ok.inj h)
      exact ⟨unsampled_of_getD left, unsampled_of_getD right⟩

theorem negate_number {count : Nat} {a : Value} {x : Float}
    (h : a.negate count = .ok (.number x)) : ∃ y, a = .number y := by
  cases a with
  | number y => exact ⟨y, rfl⟩
  | samples xs =>
    rw [Value.negate] at h
    split at h <;> cases h

/-! ### Formulas -/

section
variable {refer : Nat → String → Answering σ (Option Value)} {count : Nat}

mutual

/-- A formula that comes to a number or to nothing draws nothing. -/
theorem evaluate_undrawn (e : Expr) {room : Nat} {v : Option Value} {g g' : Generator} {s s' : σ}
    (unsampled : Unsampled v) (h : evaluate refer count room e g s = (.ok (v, g'), s')) :
    Undrawn (evaluate refer count room e) s v s' := by
  cases room with
  | zero => rw [evaluate] at h; cases h
  | succ room =>
    match e with
    | .number x =>
      rw [evaluate] at h ⊢
      cases h
      exact .pure _ _
    | .reference name =>
      rw [evaluate, lift_run] at h
      rw [evaluate]
      intro g₀
      rw [lift_run]
      rcases answer : refer room name s with ⟨x | w, t⟩ <;> rw [answer] at h
      · cases h
      · cases h
        rfl
    | .range left right =>
      rw [evaluate] at h
      obtain ⟨a, g₁, s₁, -, rest⟩ := bind_ok h
      obtain ⟨b, g₂, s₂, -, last⟩ := bind_ok rest
      obtain ⟨w, drawn, rfl⟩ := map_ok last
      obtain ⟨-, -, xs, -, -, rfl, -⟩ := spread_ok (drawing_ok drawn).1
      exact (unsampled xs rfl).elim
    | .call function arguments =>
      rw [evaluate] at h ⊢
      cases named : Builtin.named? function with
      | none => rw [named] at h; cases h
      | some builtin =>
        rw [named] at h
        obtain ⟨values, g₁, s₁, first, last⟩ := bind_ok h
        obtain ⟨w, drawn, rfl⟩ := map_ok last
        obtain ⟨applied, rfl⟩ := drawing_ok drawn
        obtain ⟨known, always⟩ := apply_undrawn unsampled applied
        exact (evaluateAll_undrawn arguments known first).bind (.map some (.drawing always))
    | .binary o left right =>
      rw [evaluate] at h ⊢
      obtain ⟨a, g₁, s₁, first, rest⟩ := bind_ok h
      obtain ⟨b, g₂, s₂, second, last⟩ := bind_ok rest
      obtain ⟨w, checked, rfl⟩ := map_ok last
      obtain ⟨same, -, rfl⟩ := check_ok checked
      obtain ⟨x, rfl⟩ := unsampled.number
      obtain ⟨ha, hb⟩ := combined_number same
      refine (evaluate_undrawn left ha first).bind ((evaluate_undrawn right hb second).bind ?_)
      rw [same]
      exact .map some (.pure _ _)
    | .negation operand =>
      rw [evaluate] at h ⊢
      obtain ⟨a, g₁, s₁, first, rest⟩ := bind_ok h
      obtain ⟨b, g₂, s₂, needed, last⟩ := bind_ok rest
      obtain ⟨rfl, -, rfl⟩ := need_ok needed
      obtain ⟨w, checked, rfl⟩ := map_ok last
      obtain ⟨same, -, rfl⟩ := check_ok checked
      obtain ⟨x, rfl⟩ := unsampled.number
      obtain ⟨y, rfl⟩ := negate_number same
      refine (evaluate_undrawn operand (unsampled_number y) first).bind
        ((Undrawn.pure _ _).bind ?_)
      rw [same]
      exact .map some (.pure _ _)

/-- A list of formulas that come to numbers or to nothing draws nothing. -/
theorem evaluateAll_undrawn (es : List Expr) {room : Nat} {values : List (Option Value)}
    {g g' : Generator} {s s' : σ} (unsampled : ∀ v ∈ values, Unsampled v)
    (h : evaluateAll refer count room es g s = (.ok (values, g'), s')) :
    Undrawn (evaluateAll refer count room es) s values s' := by
  match es with
  | [] =>
    rw [evaluateAll] at h ⊢
    cases h
    exact .pure _ _
  | e :: rest =>
    rw [evaluateAll] at h ⊢
    obtain ⟨v, g₁, s₁, first, others⟩ := bind_ok h
    obtain ⟨later, g₂, s₂, second, last⟩ := bind_ok others
    cases last
    have here := evaluate_undrawn e (unsampled v (List.mem_cons_self ..)) first
    have behind := evaluateAll_undrawn rest
      (fun w mem => unsampled w (List.mem_cons_of_mem _ mem)) second
    exact here.bind (behind.bind (.pure _ _))

end

end

end MonteCarloSheet.Formula
