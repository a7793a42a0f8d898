import MonteCarloSheet.CommandLine.Run
import MonteCarloSheet.Proofs.CommandLine.Definition
import MonteCarloSheet.Proofs.CommandLine.Options

/-! Input that is refused.

Settings are refused that are out of range, and definitions that are malformed or give a
name twice (`Unusable`). Options that have been read are refused for that and for nothing
else, if their decimals and their seed are numbers (`input_cases`). -/
namespace MonteCarloSheet.CommandLine

/-- The sample count is not positive, a seed or decimals are negative, or the definitions are not
well-formed or not distinct. -/
inductive Unusable (o : Options) : Prop where
  | samples (few : ∀ n, o.samples = .whole n → n ≤ 0)
  | seed {n : Int} (given : o.seed = .whole n) (negative : n < 0)
  | decimals {n : Int} (given : o.decimals = .whole n) (negative : n < 0)
  | malformed {text : String} (mem : text ∈ o.definitions) (malformed : Malformed text)
  | repeated (twice : ¬ (o.definitions.map nameIn).Nodup)

theorem not_unusable {o : Options} (samples : ∃ n, o.samples = .whole n ∧ 0 < n)
    (seed : ∀ n, o.seed = .whole n → 0 ≤ n) (decimals : ∀ n, o.decimals = .whole n → 0 ≤ n)
    (wellFormed : ∀ text ∈ o.definitions, ¬ Malformed text)
    (distinct : (o.definitions.map nameIn).Nodup) : ¬ Unusable o := by
  rintro (few | ⟨given, negative⟩ | ⟨given, negative⟩ | ⟨mem, malformed⟩ | twice)
  · obtain ⟨n, given, positive⟩ := samples
    exact Int.not_lt.2 (few n given) positive
  · exact Int.not_lt.2 (seed _ given) negative
  · exact Int.not_lt.2 (decimals _ given) negative
  · exact wellFormed _ mem malformed
  · exact twice distinct

/-- The seed that is given, or one that is drawn if none is. -/
def drawnSeed : Given → Option Nat → Given
  | .nothing, some n => .whole n
  | seed, _ => seed

/-- The options with the seed that is drawn if none is given. -/
def Options.drawing (o : Options) (drawn : Option Nat) : Options :=
  { o with seed := drawnSeed o.seed drawn }

/-- The setting is of the right type, but out of range. -/
def OutOfRange (e : SettingError) : Prop :=
  ∀ g, e ≠ .notNumber g

theorem sampleCount_cases {given : Given} (typed : IsValue given) :
    (∀ n, given = .whole n → n ≤ 0) ∧ (∃ e, OutOfRange e ∧ given.sampleCount = .error e) ∨
      ∃ count : Nat, 0 < count ∧ given = .whole count ∧ given.sampleCount = .ok count := by
  obtain ⟨n, rfl⟩ | rfl := typed
  · by_cases positive : 0 < n
    · have same : n = n.toNat := by omega
      exact .inr ⟨n.toNat, by omega, congrArg _ same, if_pos positive⟩
    · have range : OutOfRange (.notPositive n) := fun _ => SettingError.noConfusion
      refine .inl ⟨fun m same => ?_, .notPositive n, range, if_neg positive⟩
      cases same
      exact Int.not_lt.1 positive
  · exact .inl ⟨fun _ absurd => (by cases absurd), _, fun _ => SettingError.noConfusion, rfl⟩

theorem decimals_cases (n : Int) :
    n < 0 ∧ (Given.whole n).decimals = .error (.negativeDecimals n) ∨
      ∃ places : Nat, n = places ∧ (Given.whole n).decimals = .ok places := by
  by_cases negative : n < 0
  · exact .inl ⟨negative, if_pos negative⟩
  · exact .inr ⟨n.toNat, by omega, if_neg negative⟩

/-- Whatever is drawn, a seed is taken unless it is negative. -/
theorem seed_cases {given : Given} (typed : given = .nothing ∨ ∃ n, given = .whole n)
    (drawn : Option Nat) :
    (∃ n, given = .whole n ∧ n < 0) ∧
        (∃ e, OutOfRange e ∧ (drawnSeed given drawn).seed = .error e) ∨
      (∀ n, given = .whole n → 0 ≤ n) ∧ ∃ seed, (drawnSeed given drawn).seed = .ok seed := by
  have taken : ∀ n : Int, 0 ≤ n → (Given.whole n).seed = .ok (some n.toNat) := fun n natural => by
    simp [Given.seed, Given.natural, Int.not_lt.2 natural]
  obtain rfl | ⟨n, rfl⟩ := typed
  · refine .inr ⟨fun _ absurd => (by cases absurd), ?_⟩
    cases drawn with
    | none => exact ⟨none, rfl⟩
    | some n => exact ⟨_, taken n (Int.natCast_nonneg n)⟩
  · by_cases natural : 0 ≤ n
    · refine .inr ⟨fun m same => ?_, _, taken n natural⟩
      cases same
      exact natural
    · have negative := Int.not_le.1 natural
      refine .inl ⟨⟨n, rfl, negative⟩, .negativeSeed n, fun _ => SettingError.noConfusion, ?_⟩
      simp [drawnSeed, Given.seed, Given.natural, negative]

section
variable {o : Options} (typed : o.Typed) (places : o.decimals ≠ .list [])
  (number : o.seed ≠ .list []) (method : Random.Method) (limit drawn : Option Nat)
include typed places number

/-- There are settings unless one of them is out of range, the first of which is refused. -/
theorem make_cases {made : Except SettingError (Settings Nat)}
    (same : Settings.make method limit o.samples o.decimals (drawnSeed o.seed drawn) = made) :
    (Unusable o ∧ ∃ e, OutOfRange e ∧ made = .error e) ∨
      ∃ settings, made = .ok settings ∧ 0 < settings.sampleCount ∧
        o.samples = .whole settings.sampleCount ∧ o.decimals = .whole settings.decimals ∧
        ∀ n, o.seed = .whole n → 0 ≤ n := by
  obtain ⟨d, decimals⟩ := typed.decimals.resolve_right places
  have seed := typed.seed.imp_right (·.resolve_right number)
  rw [← same, Settings.make]
  obtain ⟨few, e, range, refused⟩ | ⟨count, positive, samples, counted⟩ :=
    sampleCount_cases typed.samples
  · exact .inl ⟨.samples few, e, range, by rw [refused]; rfl⟩
  obtain ⟨negative, refused⟩ | ⟨places, rfl, written⟩ := decimals_cases d
  · have range : OutOfRange (.negativeDecimals d) := fun _ => SettingError.noConfusion
    refine .inl ⟨.decimals decimals negative, _, range, ?_⟩
    rw [counted, decimals, refused]
    rfl
  obtain ⟨⟨n, given, negative⟩, e, range, refused⟩ | ⟨fits, seed, sown⟩ := seed_cases seed drawn
  · exact .inl ⟨.seed given negative, e, range, by rw [counted, decimals, written, refused]; rfl⟩
  rw [counted, decimals, written, sown]
  exact .inr ⟨_, rfl, positive, samples, rfl, fits⟩

/-- The input is refused for what makes the options unusable, and for nothing else. -/
theorem input_cases :
    (Unusable o ∧ ∃ e, (∀ g, e ≠ .setting (.notNumber g)) ∧
        input method limit (o.drawing drawn) = .error e) ∨
      (¬ Unusable o ∧ ∃ settings formulas,
        input method limit (o.drawing drawn) = .ok (settings, formulas) ∧
          o.samples = .whole settings.sampleCount ∧ o.decimals = .whole settings.decimals ∧
          formulas.entries = o.definitions.map entryIn) := by
  rw [input, Options.drawing]
  dsimp only
  obtain ⟨unusable, e, range, refused⟩ | ⟨settings, made, positive, samples, decimals, seed⟩ :=
    make_cases typed places number method limit drawn rfl
  · refine .inl ⟨unusable, .setting e, fun g same => ?_, by rw [refused]⟩
    cases same
    exact range g rfl
  rw [made]
  dsimp only
  cases added : addDefinitions Roster.empty o.definitions with
  | error e =>
    refine .inl ⟨?_, .definition e, fun g => InputError.noConfusion, rfl⟩
    by_contra usable
    obtain ⟨formulas, taken⟩ := exists_addDefinitions
      (fun text mem malformed => usable (.malformed mem malformed))
      (by_contra fun twice => usable (.repeated twice))
    rw [added] at taken
    cases taken
  | ok formulas =>
    obtain ⟨wellFormed, distinct, entries⟩ := addDefinitions_ok_iff.1 added
    have natural : ∀ n, o.decimals = .whole n → 0 ≤ n := fun n given => by
      rw [decimals] at given
      cases given
      exact Int.natCast_nonneg _
    have usable := not_unusable ⟨_, samples, Int.natCast_pos.2 positive⟩ seed natural wellFormed
      distinct
    exact .inr ⟨usable, settings, formulas, rfl, samples, decimals, entries⟩

end

end MonteCarloSheet.CommandLine
