import MonteCarloSheet.Proofs.Formula.Lockstep

/-! What a formula comes to.

If all references are answered with values that fit the sample count, or faults,
so is the formula: no number is ever missing, samples are of the right count or
have been dropped, and there is a value only if every reference has one
(`evaluate_ends`). When each reference has a fixed answer, a formula has a value by
itself (`evaluateWith`, `evaluateWith_ends`). -/
namespace MonteCarloSheet

open MonteCarloSheet.Random (Generator)

/-- Samples have the right count or have been dropped. -/
def Value.Fits (count : Nat) : Value → Prop
  | number _ => True
  | samples xs => xs.length = 0 ∨ xs.length = count

namespace Samples

theorem length_sortedBy {f : Float → Float} {d : Except Random.Exhausted (List Float × Generator)}
    {xs : List Float} {g : Generator} (h : sortedBy f (drawn d) = .ok (xs, g)) :
    ∃ ys, d = .ok (ys, g) ∧ xs.length = ys.length := by
  cases d with
  | error e => cases h
  | ok r =>
    obtain ⟨ys, g'⟩ := r
    cases h
    exact ⟨ys, rfl, by rw [Number.length_ascending, List.length_map]⟩

theorem length_normal {lower upper : Float} {count : Nat} {g g' : Generator} {xs : List Float}
    (h : normal lower upper count g = .ok (xs, g')) : xs.length = count := by
  obtain ⟨ys, drawn, same⟩ := length_sortedBy h
  rw [same]
  exact Generator.length_of_draws drawn

theorem length_spreadEstimate {minimum likely maximum : Float} {count : Nat} {g g' : Generator}
    {xs : List Float} (h : spreadEstimate minimum likely maximum count g = .ok (xs, g')) :
    xs.length = count := by
  obtain ⟨ys, drawn, same⟩ := length_sortedBy h
  rw [same]
  exact Generator.length_of_draws drawn

theorem length_resample {data : List Float} {count : Nat} {g g' : Generator} {xs : List Float}
    (h : resample data count g = .ok (xs, g')) : xs.length = 0 ∨ xs.length = count := by
  cases data with
  | nil => cases h; exact .inl rfl
  | cons first rest =>
    rw [resample] at h
    split at h
    next right =>
      cases h
      exact .inr (by rw [Number.length_ascending, right])
    next =>
      obtain ⟨ys, drawn, same⟩ := length_sortedBy h
      rw [same]
      exact .inr (Generator.length_of_choices drawn)

end Samples

namespace Formula

/-! ### Functions of whole arguments -/

/-- An end of an evaluation: a value that is as it should be, or a fault. -/
def Ends (Q : α → Prop) : Except Stop (α × Generator) → Prop
  | .ok (a, _) => Q a
  | .error (.fault _) => True
  | .error .missing => False

theorem samplesOf_ends {count : Nat} {d : Samples.Drawn}
    (h : ∀ xs g, d = .ok (xs, g) → xs.length = 0 ∨ xs.length = count) :
    Ends (Value.Fits count) (samplesOf d) := by
  rcases d with p | ⟨xs, g⟩
  · trivial
  · exact h xs g rfl

theorem spread_ends (count : Nat) (a b : Value) (g : Generator) :
    Ends (Value.Fits count) (spread count (some a) (some b) g) := by
  cases a with
  | samples xs => trivial
  | number x =>
    cases b with
    | samples ys => trivial
    | number y => exact samplesOf_ends fun _ _ h => .inr (Samples.length_normal h)

/-- Whole arguments give numbers without gaps. -/
theorem numbers_some {function : String} {values : List (Option Value)}
    (whole : ∀ v ∈ values, ∃ x, v = some x) {args : List (Option Float)}
    (h : numbers function values = .ok args) : ∀ a ∈ args, ∃ x, a = some x := by
  induction values generalizing args with
  | nil => cases h; intro a ha; cases ha
  | cons v rest ih =>
    obtain ⟨x, rfl⟩ := whole v (by simp)
    cases x with
    | samples xs => cases h
    | number x =>
      rw [numbers] at h
      split at h
      · cases h
      next others same =>
        cases h
        intro a ha
        rcases List.mem_cons.1 ha with rfl | later
        · exact ⟨x, rfl⟩
        · exact ih (fun v hv => whole v (List.mem_cons_of_mem _ hv)) same a later

theorem estimateOf_ne_missing {args : List (Option Float)} (whole : ∀ a ∈ args, ∃ x, a = some x) :
    estimateOf args ≠ .error .missing := by
  intro h
  match args with
  | [] => simp [estimateOf, Stop.problem] at h
  | [a] => simp [estimateOf, Stop.problem] at h
  | [a, b] =>
    obtain ⟨x, rfl⟩ := whole a (by simp)
    obtain ⟨y, rfl⟩ := whole b (by simp)
    cases h
  | [a, b, c] =>
    obtain ⟨x, rfl⟩ := whole a (by simp)
    obtain ⟨y, rfl⟩ := whole b (by simp)
    obtain ⟨z, rfl⟩ := whole c (by simp)
    cases h
  | [a, b, c, d] =>
    obtain ⟨x, rfl⟩ := whole a (by simp)
    obtain ⟨y, rfl⟩ := whole b (by simp)
    obtain ⟨z, rfl⟩ := whole c (by simp)
    cases h
  | a :: b :: c :: d :: e :: rest => simp [estimateOf, Stop.problem] at h

theorem estimate_ends (count : Nat) {args : List (Option Float)}
    (whole : ∀ a ∈ args, ∃ x, a = some x) (g : Generator) :
    Ends (Value.Fits count) (estimate count args g) := by
  rw [estimate]
  split
  next s same =>
    cases s with
    | fault f => trivial
    | missing => exact (estimateOf_ne_missing whole same).elim
  next minimum likely maximum =>
    split
    · trivial
    · split
      · trivial
      · exact samplesOf_ends fun _ _ h => .inr (Samples.length_spreadEstimate h)

theorem apply_ends (count : Nat) {values : List (Option Value)}
    (whole : ∀ v ∈ values, ∃ x, v = some x) (g : Generator) (builtin : Builtin) :
    Ends (Value.Fits count) (builtin.apply count values g) := by
  cases builtin with
  | estimate =>
    rw [Builtin.apply]
    split
    · trivial
    next args same => exact estimate_ends count (numbers_some whole same) g
  | data =>
    rw [Builtin.apply]
    split
    · trivial
    · exact samplesOf_ends fun _ _ h => Samples.length_resample h

/-! ### Operators -/

theorem checkCount_ok {side : Side} {xs : List Float} {count : Nat}
    (h : Value.checkCount side xs count = .ok ()) : xs.length = count := by
  rw [Value.checkCount] at h
  split at h
  next same => exact Int.ofNat_inj.1 same
  next => cases h

/-- What operands of the right count are combined to has the right count. -/
theorem pair_fits {count : Nat} (o : Operator) {left right : Value}
    (counts : Value.checkCounts count left right = .ok ()) :
    (Value.pair o left right).Fits count := by
  cases left with
  | number x =>
    cases right with
    | number y => trivial
    | samples ys =>
      have right := checkCount_ok counts
      exact .inr (by rw [List.length_map, right])
  | samples xs =>
    cases right with
    | number y =>
      have left := checkCount_ok counts
      exact .inr (by rw [List.length_map, left])
    | samples ys =>
      rw [Value.checkCounts] at counts
      split at counts
      next same =>
        have left := Int.ofNat_inj.1 same.1
        have right := Int.ofNat_inj.1 same.2
        exact .inr (by rw [List.length_zipWith, left, right, Nat.min_self])
      next => cases counts

theorem combine_fits {count : Nat} {o : Operator} {left right v : Value}
    (h : Value.combine count o left right = .ok v) : v.Fits count := by
  rw [Value.combine] at h
  split at h
  · cases h
  next counts =>
    split at h
    · cases h
    · cases h
      exact pair_fits o counts

theorem negate_fits {count : Nat} {a v : Value} (h : a.negate count = .ok v) : v.Fits count := by
  cases a with
  | number x => cases h; trivial
  | samples xs =>
    rw [Value.negate] at h
    split at h
    · cases h
    next counts =>
      cases h
      exact .inr (by rw [List.length_map, checkCount_ok counts])

/-! ### Fixed answers -/

/-- Answers references without any state. -/
def fixed (answers : String → Except Stop (Option Value)) : Nat → String →
    Answering Unit (Option Value) :=
  fun _ name u => (answers name, u)

/-- The value of a formula by itself, with the given answers to its references. -/
def evaluateWith (answers : String → Except Stop (Option Value)) (count room : Nat) (e : Expr)
    (g : Generator) : Except Stop (Option Value × Generator) :=
  (evaluate (fixed answers) count room e g ()).1

/-- Only the answers to the references of a formula matter. -/
theorem evaluateWith_congr {answers others : String → Except Stop (Option Value)} {e : Expr}
    (same : ∀ name ∈ e.references, answers name = others name) (count room : Nat)
    (g : Generator) : evaluateWith answers count room e g = evaluateWith others count room e g := by
  have refs : Answered (fun _ _ => True) Eq (fixed answers) (fixed others) e.height room room
      e.references := by
    intro name mem r₁ r₂ _ _ s t _
    refine ⟨?_, trivial⟩
    change Agree Eq (answers name) (others name)
    rw [same name mem]
    exact Agree.refl (fun _ => rfl) _
  exact (evaluate_lockstep (fun _ => rfl) e (.inl rfl) refs g () () trivial).1.eq

/-- A value that fits the count, or a fault. -/
def Whole (count : Nat) : Except Stop (Option Value) → Prop
  | .ok v => ∃ x, v = some x ∧ x.Fits count
  | .error (.fault _) => True
  | .error .missing => False

/-- However it begins, an evaluation ends with a result that is as it should be, or a fault, and
keeps what holds of the state. -/
def AlwaysEnds (I : σ → Prop) (Q : α → Prop) (m : Evaluation σ α) : Prop :=
  ∀ g s, I s → Ends Q (m g s).1 ∧ I (m g s).2

namespace AlwaysEnds
variable {I : σ → Prop}

theorem pure {Q : α → Prop} {a : α} (h : Q a) : AlwaysEnds I Q (Pure.pure a) :=
  fun _ _ kept => ⟨h, kept⟩

theorem fail {Q : α → Prop} (p : Problem) : AlwaysEnds I Q (Formula.fail p) :=
  fun _ _ kept => ⟨trivial, kept⟩

theorem bind {P : α → Prop} {Q : β → Prop} {m : Evaluation σ α} {k : α → Evaluation σ β}
    (first : AlwaysEnds I P m) (next : ∀ a, P a → AlwaysEnds I Q (k a)) :
    AlwaysEnds I Q (m >>= k) := by
  intro g s kept
  have ends := first g s kept
  rw [bind_run]
  rcases h : m g s with ⟨x | ⟨a, g'⟩, s'⟩ <;> rw [h] at ends
  · cases x with
    | fault f => exact ⟨trivial, ends.2⟩
    | missing => exact ends.1.elim
  · exact next a ends.1 g' s' ends.2

theorem map {P : α → Prop} {Q : β → Prop} {m : Evaluation σ α} {f : α → β}
    (h : AlwaysEnds I P m) (le : ∀ a, P a → Q (f a)) : AlwaysEnds I Q (f <$> m) :=
  h.bind fun a ha => pure (le a ha)

theorem drawing {Q : α → Prop} {draw : Generator → Except Stop (α × Generator)}
    (h : ∀ g, Ends Q (draw g)) : AlwaysEnds I Q (Formula.drawing draw) := by
  intro g s kept
  rw [drawing_run]
  exact ⟨h g, kept⟩

theorem check {Q : α → Prop} {x : Except Problem α} (h : ∀ a, x = .ok a → Q a) :
    AlwaysEnds I Q (Formula.check x) := by
  cases x with
  | ok a => exact pure (h a rfl)
  | error p => exact fail p

end AlwaysEnds

/-- What is asked of the value of a formula: it is there, it fits, and its names are as they should
be. -/
def ProperBy (V : String → Prop) (count : Nat) (names : List String) (v : Option Value) : Prop :=
  (∃ x, v = some x ∧ x.Fits count) ∧ ∀ name ∈ names, V name

/-- The value is there, it fits, and each name has a value. -/
def Proper (answers : String → Except Stop (Option Value)) (count : Nat) :
    List String → Option Value → Prop :=
  ProperBy (fun name => ∃ a, answers name = .ok a) count

/-- References to the names are answered with what fits, or a fault, and keep what holds of the
state; a name that has a value is as it should be. -/
def AnswersWell (I : σ → Prop) (V : String → Prop) (count : Nat)
    (refer : Nat → String → Answering σ (Option Value)) (names : List String) : Prop :=
  ∀ name ∈ names, ∀ r s, I s → Whole count (refer r name s).1 ∧
    (∀ v, (refer r name s).1 = .ok v → V name) ∧ I (refer r name s).2

section
variable {I : σ → Prop} {V : String → Prop} {count : Nat}
  {refer : Nat → String → Answering σ (Option Value)}

theorem AnswersWell.among {some all : List String} (h : AnswersWell I V count refer all)
    (among : ∀ name ∈ some, name ∈ all) : AnswersWell I V count refer some :=
  fun name mem => h name (among name mem)

mutual

theorem evaluate_ends (e : Expr) (refs : AnswersWell I V count refer e.references) (room : Nat) :
    AlwaysEnds I (ProperBy V count e.references) (evaluate refer count room e) := by
  cases room with
  | zero =>
    rw [evaluate]
    exact .fail _
  | succ room =>
    match e with
    | .number x =>
      rw [evaluate]
      exact .pure ⟨⟨_, rfl, trivial⟩, fun _ mem => by cases mem⟩
    | .reference name =>
      intro g s kept
      obtain ⟨given, valued, after⟩ := refs name (by simp [Expr.references]) room s kept
      rw [evaluate, lift_run]
      rcases h : refer room name s with ⟨(_ | _) | v, s'⟩ <;> rw [h] at given valued after
      · exact ⟨trivial, after⟩
      · exact given.elim
      · refine ⟨⟨given, fun other mem => ?_⟩, after⟩
        rw [List.mem_singleton.1 mem]
        exact valued v rfl
    | .range left right =>
      have h₁ := evaluate_ends left (refs.among fun _ mem => List.mem_append_left _ mem) room
      have h₂ := evaluate_ends right (refs.among fun _ mem => List.mem_append_right _ mem) room
      rw [evaluate]
      refine h₁.bind fun a ha => h₂.bind fun b hb => ?_
      obtain ⟨⟨x, rfl, -⟩, left⟩ := ha
      obtain ⟨⟨y, rfl, -⟩, right⟩ := hb
      refine .map (.drawing fun g => spread_ends count x y g) fun v fits => ⟨⟨v, rfl, fits⟩, ?_⟩
      intro name mem
      exact (List.mem_append.1 mem).elim (left name) (right name)
    | .call function arguments =>
      have h := evaluateAll_ends arguments refs room
      rw [evaluate]
      split
      · exact .fail _
      next builtin _ =>
        refine h.bind fun values hvalues => ?_
        refine .map (.drawing fun g => apply_ends count hvalues.1 g builtin) fun v fits => ?_
        exact ⟨⟨v, rfl, fits⟩, hvalues.2⟩
    | .binary o left right =>
      have h₁ := evaluate_ends left (refs.among fun _ mem => List.mem_append_left _ mem) room
      have h₂ := evaluate_ends right (refs.among fun _ mem => List.mem_append_right _ mem) room
      rw [evaluate]
      refine h₁.bind fun a ha => h₂.bind fun b hb => ?_
      refine .map (.check fun v same => combine_fits same) fun v fits => ⟨⟨v, rfl, fits⟩, ?_⟩
      intro name mem
      exact (List.mem_append.1 mem).elim (ha.2 name) (hb.2 name)
    | .negation operand =>
      have h := evaluate_ends operand refs room
      rw [evaluate]
      refine h.bind fun a ha => ?_
      obtain ⟨⟨x, rfl, -⟩, names⟩ := ha
      exact .map (.check fun v same => negate_fits same) fun v fits => ⟨⟨v, rfl, fits⟩, names⟩

theorem evaluateAll_ends (es : List Expr)
    (refs : AnswersWell I V count refer (Expr.referencesOfAll es)) (room : Nat) :
    AlwaysEnds I (fun values => (∀ v ∈ values, ∃ x, v = some x) ∧
        ∀ name ∈ Expr.referencesOfAll es, V name)
      (evaluateAll refer count room es) := by
  match es with
  | [] =>
    rw [evaluateAll]
    exact .pure ⟨fun _ mem => (by cases mem), fun _ mem => by cases mem⟩
  | e :: rest =>
    have h₁ := evaluate_ends e (refs.among fun _ mem => List.mem_append_left _ mem) room
    have h₂ := evaluateAll_ends rest (refs.among fun _ mem => List.mem_append_right _ mem) room
    rw [evaluateAll]
    refine h₁.bind fun v hv => h₂.bind fun values hvalues => .pure ⟨?_, ?_⟩
    · intro w mem
      obtain ⟨⟨x, rfl, -⟩, -⟩ := hv
      exact (List.mem_cons.1 mem).elim (fun same => ⟨x, same⟩) (hvalues.1 w)
    · intro name mem
      exact (List.mem_append.1 mem).elim (hv.2 name) (hvalues.2 name)

end

end

/-- With whole answers a formula comes to a fault, or to a value that fits, and then every
reference in it has a value. -/
theorem evaluateWith_ends {answers : String → Except Stop (Option Value)} {count : Nat} (e : Expr)
    (whole : ∀ name ∈ e.references, Whole count (answers name)) (room : Nat) (g : Generator) :
    Ends (Proper answers count e.references) (evaluateWith answers count room e g) := by
  have refs : AnswersWell (fun _ => True) (fun name => ∃ a, answers name = .ok a) count
      (fixed answers) e.references :=
    fun name mem _ _ _ => ⟨whole name mem, fun v given => ⟨v, given⟩, trivial⟩
  exact (evaluate_ends e refs room g () trivial).1

end Formula

end MonteCarloSheet
