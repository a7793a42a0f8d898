import MonteCarloSheet.Proofs.Formula.Undrawn
import MonteCarloSheet.Proofs.Samples.Drawn

/-! Declared distributions.

A formula declares a distribution if a range or a call stands outermost. Whenever such a
formula comes to samples, these are in ascending order and as many as are asked for, or
none if it is inline data without any. Inline data are kept as they are if their count is
right, and otherwise drawn from (`declared_samples`). -/
namespace MonteCarloSheet.Formula

open MonteCarloSheet.Random (Generator)

/-- A range or a call stands outermost. -/
def Expr.Declares : Expr → Prop
  | range _ _ => True
  | call _ _ => True
  | _ => False

/-- Inline data with the given elements. -/
def Expr.IsData (e : Expr) (elements : List Expr) : Prop :=
  ∃ function, e = .call function elements ∧ Builtin.named? function = some .data

/-- The number that an element of inline data stands for. -/
def elementOf (a : Option Float) : Float :=
  a.getD Number.nan

section
variable {σ : Type} {refer : Nat → String → Answering σ (Option Value)} {count room : Nat}
  {g g' : Generator} {s s' : σ} {xs : List Float}

/-- Samples that come from inline data: the elements have numbers, or are missing and stand for not
a number, and the samples are among them; if there are as many as asked for, the samples are these
very numbers, and nothing is drawn. -/
def FromData (refer : Nat → String → Answering σ (Option Value)) (count room : Nat)
    (e : Expr) (elements : List Expr) (g g' : Generator) (s s' : σ) (xs : List Float) : Prop :=
  ∃ (args : List (Option Float)) (g₁ : Generator),
    evaluateAll refer count (room - 1) elements g s =
      (.ok (args.map (·.map Value.number), g₁), s') ∧
    (∀ x ∈ xs, x ∈ args.map elementOf) ∧
    (elements.length = count →
      xs.Perm (args.map elementOf) ∧ g' = g ∧
        Undrawn (evaluate refer count room e) s (some (.samples xs)) s')

theorem length_evaluateAll {es : List Expr} {values : List (Option Value)}
    (h : evaluateAll refer count room es g s = (.ok (values, g'), s')) :
    values.length = es.length := by
  induction es generalizing values g s with
  | nil =>
    rw [evaluateAll] at h
    cases h
    rfl
  | cons e rest ih =>
    rw [evaluateAll] at h
    obtain ⟨v, g₁, s₁, -, others⟩ := bind_ok h
    obtain ⟨later, g₂, s₂, second, last⟩ := bind_ok others
    cases last
    rw [List.length_cons, ih second, List.length_cons]

/-- Inline data whose count is right are sorted and draw nothing. -/
theorem data_undrawn {function : String} {elements : List Expr} (args : List (Option Float))
    (named : Builtin.named? function = some .data)
    (known : numbers "array" (args.map (·.map Value.number)) = .ok args)
    (first : Undrawn (evaluateAll refer count room elements) s (args.map (·.map Value.number)) s')
    (right : args.length = count) :
    Undrawn (evaluate refer count (room + 1) (.call function elements)) s
      (some (.samples (Number.ascending (args.map elementOf)))) s' := by
  rw [evaluate, named]
  refine first.bind (.map some (.drawing fun g₀ => ?_))
  have exact : (args.map elementOf).length = count := by rw [List.length_map, right]
  rw [Builtin.apply, known]
  change samplesOf (Samples.resample (args.map elementOf) count g₀) = _
  rw [Samples.resample_of_length exact]
  rfl

/-- What inline data come to. -/
theorem data_samples {function : String} {elements : List Expr}
    (named : Builtin.named? function = some .data)
    (h : evaluate refer count (room + 1) (.call function elements) g s =
      (.ok (some (.samples xs), g'), s')) :
    Samples.Ascending xs ∧ xs.length = (if elements = [] then 0 else count) ∧
      FromData refer count (room + 1) (.call function elements) elements g g' s s' xs := by
  have run := h
  rw [evaluate, named] at h
  obtain ⟨values, g₁, s₁, first, last⟩ := bind_ok h
  obtain ⟨w, drawn, same⟩ := map_ok last
  cases same
  obtain ⟨applied, rfl⟩ := drawing_ok drawn
  rw [Builtin.apply] at applied
  split at applied
  · cases applied
  next args known =>
    obtain ⟨ys, same, resampled⟩ := samplesOf_ok applied
    cases same
    have unsampled := numbers_unsampled known
    obtain rfl := numbers_eq known
    have lengths : args.length = elements.length := by
      rw [← length_evaluateAll first, List.length_map]
    refine ⟨Samples.resample_ascending resampled, ?_, args, g₁, first,
      Samples.mem_of_resample resampled, fun right => ?_⟩
    · rw [Samples.length_of_resample resampled]
      simp only [← List.length_eq_zero_iff, List.length_map, lengths]
    · have undrawn := data_undrawn args named known (evaluateAll_undrawn elements unsampled first)
        (lengths.trans right)
      obtain rfl : xs = Number.ascending (args.map elementOf) := by
        have both := (undrawn g).symm.trans run
        cases both
        rfl
      exact ⟨Number.ascending_perm _, undrawn.generator_eq run, undrawn⟩

/-- What an estimate comes to, unless it is a number. -/
theorem estimate_samples {function : String} {arguments : List Expr}
    (named : Builtin.named? function = some .estimate)
    (h : evaluate refer count (room + 1) (.call function arguments) g s =
      (.ok (some (.samples xs), g'), s')) : Samples.Ascending xs ∧ xs.length = count := by
  rw [evaluate, named] at h
  obtain ⟨values, g₁, s₁, -, last⟩ := bind_ok h
  obtain ⟨w, drawn, same⟩ := map_ok last
  cases same
  obtain ⟨applied, -⟩ := drawing_ok drawn
  rw [Builtin.apply] at applied
  split at applied
  · cases applied
  next args known =>
    obtain ⟨x, same, -⟩ | ⟨minimum, likely, maximum, ys, same, made⟩ := estimate_ok applied <;>
      cases same
    obtain ⟨zs, uniform, rfl⟩ := Samples.sortedBy_ok made
    refine ⟨Samples.sortedBy_ascending made, ?_⟩
    rw [Number.length_ascending, List.length_map, Generator.length_of_draws uniform]

/-- What a range comes to. -/
theorem range_samples {left right : Expr}
    (h : evaluate refer count (room + 1) (.range left right) g s =
      (.ok (some (.samples xs), g'), s')) : Samples.Ascending xs ∧ xs.length = count := by
  rw [evaluate] at h
  obtain ⟨a, g₁, s₁, -, rest⟩ := bind_ok h
  obtain ⟨b, g₂, s₂, -, last⟩ := bind_ok rest
  obtain ⟨w, drawn, same⟩ := map_ok last
  cases same
  obtain ⟨x, y, ys, -, -, same, made⟩ := spread_ok (drawing_ok drawn).1
  cases same
  obtain ⟨zs, normal, rfl⟩ := Samples.sortedBy_ok made
  refine ⟨Samples.sortedBy_ascending made, ?_⟩
  rw [Number.length_ascending, List.length_map, Generator.length_of_draws normal]

end

/-- A declared distribution has the right count of samples in ascending order, or none exactly if it
is inline data without any; the samples of inline data come from these. -/
theorem declared_samples {σ : Type} {refer : Nat → String → Answering σ (Option Value)}
    {count room : Nat} (counted : 0 < count) {e : Expr} (declares : e.Declares) {g g' : Generator}
    {s s' : σ} {xs : List Float}
    (h : evaluate refer count room e g s = (.ok (some (.samples xs), g'), s')) :
    Samples.Ascending xs ∧ (xs.length = count ∨ xs = []) ∧ (xs = [] ↔ e.IsData []) ∧
      ∀ elements, e.IsData elements → FromData refer count room e elements g g' s s' xs := by
  have filled : xs.length = count → xs ≠ [] := by
    rintro rfl rfl
    exact Nat.lt_irrefl 0 counted
  match room, e with
  | 0, _ =>
    rw [evaluate] at h
    cases h
  | room + 1, .range left right =>
    obtain ⟨ascending, length⟩ := range_samples h
    have other : ∀ elements, ¬ (Expr.range left right).IsData elements := by
      rintro elements ⟨function, same, -⟩
      cases same
    exact ⟨ascending, .inl length, iff_of_false (filled length) (other []),
      fun elements data => (other elements data).elim⟩
  | room + 1, .call function arguments =>
    match named : Builtin.named? function with
    | none =>
      rw [evaluate, named] at h
      cases h
    | some .estimate =>
      obtain ⟨ascending, length⟩ := estimate_samples named h
      have other : ∀ elements, ¬ (Expr.call function arguments).IsData elements := by
        rintro elements ⟨f, same, data⟩
        cases same
        rw [named] at data
        cases data
      exact ⟨ascending, .inl length, iff_of_false (filled length) (other []),
        fun elements data => (other elements data).elim⟩
    | some .data =>
      obtain ⟨ascending, length, fromData⟩ := data_samples named h
      have elements_eq : ∀ elements, (Expr.call function arguments).IsData elements →
          elements = arguments := by
        rintro elements ⟨f, same, -⟩
        cases same
        rfl
      refine ⟨ascending, ?_, ⟨fun none => ?_, fun data => ?_⟩, fun elements data => ?_⟩
      · split at length
        · exact .inr (List.length_eq_zero_iff.1 length)
        · exact .inl length
      · split at length
        next bare => exact ⟨function, by rw [bare], named⟩
        next => exact (filled length none).elim
      · rw [if_pos (elements_eq [] data).symm] at length
        exact List.length_eq_zero_iff.1 length
      · rw [elements_eq elements data]
        exact fromData

/-- Two numbers for two samples are only sorted. -/
theorem declared_of_two :
    let g := Random.Source.generatorFor ⟨.congruential, some 1, none⟩ []
    let refer : Nat → String → Answering Unit (Option Value) := fun _ _ u => (.ok none, u)
    let e : Expr := .call "array" [.number 2, .number 1]
    0 < 2 ∧ e.Declares ∧ evaluate refer 2 2 e g () = (.ok (some (.samples [1, 2]), g), ()) ∧
      Samples.Ascending [1, 2] ∧ ¬ e.IsData [] ∧
      FromData refer 2 2 e [.number 2, .number 1] g g () () [1, 2] := by
  intro g refer e
  have declares : e.Declares := trivial
  have named : Builtin.named? "array" = some .data := by decide +kernel
  have known : numbers "array" [some (.number 2), some (.number 1)] = .ok [some 2, some 1] := rfl
  have first : Undrawn (evaluateAll refer 2 1 [.number 2, .number 1]) ()
      [some (.number 2), some (.number 1)] () := fun _ => rfl
  have less : Number.before 2 1 = false := by decide +kernel
  have sorted : Number.ascending [2, 1] = [1, 2] := by
    simp [Number.ascending, List.mergeSort, less]
  have run : evaluate refer 2 2 e g () = (.ok (some (.samples [1, 2]), g), ()) := by
    rw [← sorted]
    exact data_undrawn [some 2, some 1] named known first rfl g
  obtain ⟨ascending, -, bare, data⟩ := declared_samples Nat.two_pos declares run
  exact ⟨Nat.two_pos, declares, run, ascending, fun none => List.cons_ne_nil 1 [2] (bare.2 none),
    data _ ⟨"array", rfl, named⟩⟩

end MonteCarloSheet.Formula
