import MonteCarloSheet.Proofs.Formula.Lockstep

/-! Why a formula stops.

Functions, operators and draws stop an evaluation with problems of their own kind, or
because a number is missing (`Stop.Computed`). All other stops are those of its
references, but for the one at the end of the room. So what the references carry on,
as long as the evaluation goes on and at their stops, the evaluation carries on
(`evaluate_carries`). -/
namespace MonteCarloSheet

open MonteCarloSheet.Random (Generator)

/-- The problems that functions, operators and draws may have. -/
inductive Problem.Computed : Problem → Prop where
  | unknownFunction (name : String) : Computed (.unknownFunction name)
  | argumentCount (function : String) (count : Nat) (expected : String) :
      Computed (.argumentCount function count expected)
  | argumentOrder (minimum likely maximum : Float) :
      Computed (.argumentOrder minimum likely maximum)
  | notNumbers (function : String) : Computed (.notNumbers function)
  | divisionByZero : Computed .divisionByZero
  | lengthMismatch (m : LengthMismatch) : Computed (.lengthMismatch m)
  | exhausted (e : Random.Exhausted) : Computed (.exhausted e)

namespace Formula

/-- The stops that functions, operators and draws come to. -/
inductive Stop.Computed : Stop → Prop where
  | problem {p : Problem} (h : p.Computed) : Computed (.problem p)
  | missing : Computed .missing

theorem Stop.Computed.ne_tooDeep {x : Stop} (h : x.Computed) : x ≠ .problem .tooDeep := by
  intro same
  cases h with
  | problem h =>
    cases same
    cases h
  | missing => cases same

/-! ### Functions and operators -/

/-- Where there is no result there is a stop of the given kind. -/
def Fails (P : ε → Prop) : Except ε α → Prop
  | .ok _ => True
  | .error x => P x

theorem fails_sortedBy {f : Float → Float} {d : Samples.Drawn} (h : Fails Problem.Computed d) :
    Fails Problem.Computed (Samples.sortedBy f d) := by
  cases d with
  | error p => exact h
  | ok r => trivial

theorem fails_drawn (d : Except Random.Exhausted (List Float × Generator)) :
    Fails Problem.Computed (Samples.drawn d) := by
  cases d with
  | error e => exact .exhausted e
  | ok r => trivial

theorem fails_resample (data : List Float) (count : Nat) (g : Generator) :
    Fails Problem.Computed (Samples.resample data count g) := by
  cases data with
  | nil => trivial
  | cons first rest =>
    rw [Samples.resample]
    split
    · trivial
    · exact fails_sortedBy (fails_drawn _)

theorem fails_samplesOf {d : Samples.Drawn} (h : Fails Problem.Computed d) :
    Fails Stop.Computed (samplesOf d) := by
  cases d with
  | error p => exact .problem h
  | ok r => trivial

theorem fails_numbers (function : String) (values : List (Option Value)) :
    Fails Problem.Computed (numbers function values) := by
  induction values with
  | nil => trivial
  | cons v rest ih =>
    match v with
    | some (.samples xs) => exact .notNumbers function
    | some (.number x) =>
      rw [numbers]
      generalize numbers function rest = others at ih
      cases others <;> exact ih
    | none =>
      rw [numbers]
      generalize numbers function rest = others at ih
      cases others <;> exact ih

theorem fails_spread (count : Nat) (left right : Option Value) (g : Generator) :
    Fails Stop.Computed (spread count left right g) := by
  rw [spread.eq_def]
  split
  · exact .problem (.notNumbers "to")
  · exact .problem (.notNumbers "to")
  · exact fails_samplesOf (fails_sortedBy (fails_drawn _))
  · exact .missing

theorem fails_estimateOf (args : List (Option Float)) : Fails Stop.Computed (estimateOf args) := by
  rw [estimateOf.eq_def]
  split
  · trivial
  · trivial
  · trivial
  · split
    · exact .missing
    · exact .problem (.argumentCount _ _ _)

theorem fails_estimate (count : Nat) (args : List (Option Float)) (g : Generator) :
    Fails Stop.Computed (estimate count args g) := by
  have ends := fails_estimateOf args
  rw [estimate]
  generalize estimateOf args = given at ends
  obtain ⟨s⟩ | ⟨minimum, likely, maximum⟩ := given
  · exact ends
  · dsimp only
    split
    · exact .problem (.argumentOrder _ _ _)
    · split
      · trivial
      · exact fails_samplesOf (fails_sortedBy (fails_drawn _))

theorem fails_apply (count : Nat) (values : List (Option Value)) (g : Generator)
    (builtin : Builtin) : Fails Stop.Computed (builtin.apply count values g) := by
  cases builtin with
  | estimate =>
    have ends := fails_numbers "pert" values
    rw [Builtin.apply]
    generalize numbers "pert" values = args at ends
    cases args with
    | error p => exact .problem ends
    | ok args => exact fails_estimate count args g
  | data =>
    have ends := fails_numbers "array" values
    rw [Builtin.apply]
    generalize numbers "array" values = args at ends
    cases args with
    | error p => exact .problem ends
    | ok args => exact fails_samplesOf (fails_resample _ count g)

theorem fails_checkCount (side : Side) (xs : List Float) (count : Int) :
    Fails Problem.Computed (Value.checkCount side xs count) := by
  rw [Value.checkCount]
  split
  · trivial
  · exact .lengthMismatch _

theorem fails_checkCounts (count : Int) (left right : Value) :
    Fails Problem.Computed (Value.checkCounts count left right) := by
  cases left with
  | number x =>
    cases right with
    | number y => trivial
    | samples ys => exact fails_checkCount _ _ _
  | samples xs =>
    cases right with
    | number y => exact fails_checkCount _ _ _
    | samples ys =>
      rw [Value.checkCounts]
      split
      · trivial
      · exact .lengthMismatch _

theorem fails_combined (count : Nat) (o : Operator) (left right : Option Value) :
    Fails Problem.Computed (combined count o left right) := by
  have counts := fails_checkCounts count (left.getD (.number Number.nan))
    (right.getD (.number Number.nan))
  rw [combined, Value.combine]
  generalize Value.checkCounts _ _ _ = checked at counts
  cases checked with
  | error p => exact counts
  | ok u =>
    dsimp only
    split
    · exact .divisionByZero
    · trivial

theorem fails_negate (count : Nat) (v : Value) : Fails Problem.Computed (v.negate count) := by
  cases v with
  | number x => trivial
  | samples xs =>
    have counts := fails_checkCount .only xs count
    rw [Value.negate]
    generalize Value.checkCount _ _ _ = checked at counts
    cases checked with
    | error p => exact counts
    | ok u => trivial

/-! ### Evaluations that carry on -/

section
variable {I : σ → Prop} {J : Stop → σ → Prop}

/-- The state is as it should be after a result, or as it should be after the stop. -/
def Carried (I : σ → Prop) (J : Stop → σ → Prop) : Except Stop α × σ → Prop
  | (.ok _, s) => I s
  | (.error x, s) => J x s

/-- From a state that is as it should be, an evaluation leaves one. -/
def Carries (I : σ → Prop) (J : Stop → σ → Prop) (m : Evaluation σ α) : Prop :=
  ∀ g s, I s → Carried I J (m g s)

namespace Carries

theorem pure (a : α) : Carries I J (Pure.pure a) :=
  fun _ _ h => h

theorem throw {x : Stop} (stops : ∀ s, I s → J x s) :
    Carries I J (MonadExcept.throw x : Evaluation σ α) :=
  fun _ s h => stops s h

theorem bind {m : Evaluation σ α} {k : α → Evaluation σ β} (first : Carries I J m)
    (next : ∀ a, Carries I J (k a)) : Carries I J (m >>= k) := by
  intro g s h
  have ends := first g s h
  rw [bind_run]
  generalize m g s = out at ends
  obtain ⟨x | ⟨a, g'⟩, s'⟩ := out
  · exact ends
  · exact next a g' s' ends

theorem map (f : α → β) {m : Evaluation σ α} (h : Carries I J m) : Carries I J (f <$> m) :=
  h.bind fun a => pure (f a)

variable (computed : ∀ x s, Stop.Computed x → I s → J x s)
include computed

theorem check {x : Except Problem α} (stops : Fails Problem.Computed x) :
    Carries I J (Formula.check x : Evaluation σ α) := by
  cases x with
  | ok a => exact pure a
  | error p => exact throw fun s h => computed _ s (.problem stops) h

theorem need (x : Option α) : Carries I J (Formula.need x : Evaluation σ α) := by
  cases x with
  | none => exact throw fun s h => computed _ s .missing h
  | some a => exact pure a

theorem drawing {draw : Generator → Except Stop (α × Generator)}
    (stops : ∀ g, Fails Stop.Computed (draw g)) :
    Carries I J (Formula.drawing draw : Evaluation σ α) := by
  intro g s h
  have ends := stops g
  rw [drawing_run]
  generalize draw g = out at ends
  cases out with
  | error x => exact computed x s ends h
  | ok a => exact h

end Carries

/-- References to the names carry on, in the room that is left inside a formula of the height. -/
def Refers (I : σ → Prop) (J : Stop → σ → Prop)
    (refer : Nat → String → Answering σ (Option Value)) (height room : Nat)
    (names : List String) : Prop :=
  ∀ name ∈ names, ∀ left, room ≤ left + height → ∀ s, I s → Carried I J (refer left name s)

variable {refer : Nat → String → Answering σ (Option Value)}

theorem Refers.of_le {inner outer room : Nat} {some all : List String}
    (h : Refers I J refer outer room all) (among : ∀ name ∈ some, name ∈ all)
    (le : inner ≤ outer) : Refers I J refer inner room some :=
  fun name mem left enough => h name (among name mem) left (by omega)

theorem Refers.inside {inner outer room : Nat} {some all : List String}
    (h : Refers I J refer outer (room + 1) all) (among : ∀ name ∈ some, name ∈ all)
    (less : inner + 1 ≤ outer) : Refers I J refer inner room some :=
  fun name mem left enough => h name (among name mem) left (by omega)

/-- The formula stands in the room, or its end may be met. -/
def Roomy (I : σ → Prop) (J : Stop → σ → Prop) (height room : Nat) : Prop :=
  height ≤ room ∨ ∀ s, I s → J (.problem .tooDeep) s

theorem Roomy.of_le {inner outer room : Nat} (h : Roomy I J outer room) (le : inner ≤ outer) :
    Roomy I J inner room :=
  h.imp_left (Nat.le_trans le)

theorem Roomy.inside {inner outer room : Nat} (h : Roomy I J outer (room + 1))
    (less : inner + 1 ≤ outer) : Roomy I J inner room :=
  h.imp_left fun fits => by omega

mutual

/-- What its references carry on, a formula carries on. -/
theorem evaluate_carries (computed : ∀ x s, Stop.Computed x → I s → J x s) (count room : Nat)
    (e : Expr) (roomy : Roomy I J e.height room)
    (refs : Refers I J refer e.height room e.references) :
    Carries I J (evaluate refer count room e) := by
  cases room with
  | zero =>
    rw [evaluate]
    exact .throw (roomy.resolve_left (by have := e.height_pos; omega))
  | succ room =>
    match e with
    | .number x =>
      rw [evaluate]
      exact .pure _
    | .reference name =>
      intro g s h
      have carried := refs name (by simp [Expr.references]) room (Nat.le_refl _) s h
      rw [evaluate, lift_run]
      generalize refer room name s = out at carried
      obtain ⟨x | v, s'⟩ := out <;> exact carried
    | .range left right =>
      rw [Expr.height] at roomy refs
      have h₁ := evaluate_carries computed count room left (roomy.inside (by omega))
        (refs.inside (fun _ => List.mem_append_left _) (by omega))
      have h₂ := evaluate_carries computed count room right (roomy.inside (by omega))
        (refs.inside (fun _ => List.mem_append_right _) (by omega))
      rw [evaluate]
      exact h₁.bind fun a => h₂.bind fun b => .map _ (.drawing computed (fails_spread count a b))
    | .call function arguments =>
      rw [Expr.height] at roomy refs
      have h := evaluateAll_carries computed count room arguments (roomy.inside (by omega))
        (refs.inside (fun _ mem => mem) (by omega))
      rw [evaluate]
      split
      · exact .throw fun s h => computed _ s (.problem (.unknownFunction function)) h
      next builtin _ =>
        exact h.bind fun values => .map _ (.drawing computed fun g => fails_apply count values g builtin)
    | .binary o left right =>
      rw [Expr.height] at roomy refs
      have h₁ := evaluate_carries computed count room left (roomy.inside (by omega))
        (refs.inside (fun _ => List.mem_append_left _) (by omega))
      have h₂ := evaluate_carries computed count room right (roomy.inside (by omega))
        (refs.inside (fun _ => List.mem_append_right _) (by omega))
      rw [evaluate]
      exact h₁.bind fun a => h₂.bind fun b => .map _ (.check computed (fails_combined count o a b))
    | .negation operand =>
      rw [Expr.height] at roomy refs
      have h := evaluate_carries computed count room operand (roomy.inside (by omega))
        (refs.inside (fun _ mem => mem) (by omega))
      rw [evaluate]
      exact h.bind fun a => (Carries.need computed a).bind fun b =>
        .map _ (.check computed (fails_negate count b))

theorem evaluateAll_carries (computed : ∀ x s, Stop.Computed x → I s → J x s) (count room : Nat)
    (es : List Expr) (roomy : Roomy I J (Expr.heightOfAll es) room)
    (refs : Refers I J refer (Expr.heightOfAll es) room (Expr.referencesOfAll es)) :
    Carries I J (evaluateAll refer count room es) := by
  match es with
  | [] =>
    rw [evaluateAll]
    exact .pure _
  | e :: rest =>
    rw [Expr.heightOfAll] at roomy refs
    have h₁ := evaluate_carries computed count room e (roomy.of_le (by omega))
      (refs.of_le (fun _ => List.mem_append_left _) (by omega))
    have h₂ := evaluateAll_carries computed count room rest (roomy.of_le (by omega))
      (refs.of_le (fun _ => List.mem_append_right _) (by omega))
    rw [evaluateAll]
    exact h₁.bind fun value => h₂.bind fun values => .pure _

end

end

end Formula

end MonteCarloSheet
