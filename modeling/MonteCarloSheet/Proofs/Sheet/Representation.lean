import MonteCarloSheet.Proofs.Sheet.Lives

/-! The fields of cells.

What a cell shows comes from an output and a fault, but each field can be read by
itself. In every open sheet the fields fit together and fit the sample count
(`cells_well_formed`): this is what regular outputs say, field by field. So a cell
always has a summary, unless more places are asked for than a number is written
with, and no reference is ever refused because the samples that it reads have the
wrong count. -/
namespace MonteCarloSheet

open Formula (Stop)

/-! ### Well-formed cells -/

/-- The fields of a cell fit together and fit the sample count. -/
structure Cell.WellFormed (count : Nat) (c : Cell) : Prop where
  exclusive : c.output.value = none ∨ c.output.samples = none
  without : c.output.kind = none ↔ c.output.value = none ∧ c.output.samples = none
  number : c.output.kind = some .constant ↔ c.output.value.isSome
  distribution : (∃ d, c.output.kind = some (.distribution d)) ↔ c.output.samples.isSome
  constant : ∀ x, c.output.value = some x →
    c.output.mean = some x ∧ c.output.interval = some ⟨x, x⟩
  length : ∀ xs, c.output.samples = some xs → xs.length = 0 ∨ xs.length = count
  summary : ∀ xs, c.output.samples = some xs → xs ≠ [] →
    ∃ s, Samples.summary? (Number.ascending xs) = some s ∧
      c.output.mean = some s.mean ∧ c.output.interval = some s.interval
  dropped : c.output.samples = some [] → c.output.mean = none ∧ c.output.interval = none
  failed : ∀ f, c.fault = some f → f.isDependency = false →
    c.output.kind = none ∧ c.output.value = none ∧ c.output.samples = none ∧
      c.output.mean = none ∧ c.output.interval = none
  cause : (c.fault.map Fault.cause).isSome ↔ (c.fault.map Fault.message).isSome
  flag : c.fault.any Fault.isDependency = true → (c.fault.map Fault.message).isSome

namespace Output
variable {o : Output} {count : Nat}

theorem exclusive (o : Output) : o.value = Option.none ∨ o.samples = Option.none := by
  cases o <;> simp [value, samples]

/-- The number and the samples of a regular output are those that its kind promises. -/
theorem Regular.kinds (h : o.Regular count) :
    (o.kind = Option.none ↔ o.value = Option.none ∧ o.samples = Option.none) ∧
      (o.kind = some .constant ↔ o.value.isSome) ∧
      ((∃ d, o.kind = some (.distribution d)) ↔ o.samples.isSome) := by
  cases o with
  | none => simp [kind, value, samples]
  | constant x => simp [kind, value, samples]
  | distribution d xs summary => simp [kind, value, samples]
  | vacant kept => exact h.elim

theorem constant_spread {x : Float} (h : o.value = some x) :
    o.mean = some x ∧ o.interval = some ⟨x, x⟩ := by
  rw [mean, interval, h]
  exact ⟨rfl, rfl⟩

theorem Regular.samples (h : o.Regular count) {xs : List Float} (samples : o.samples = some xs) :
    (xs.length = 0 ∨ xs.length = count) ∧ o.mean = (Samples.summaryOf xs).map Samples.Summary.mean ∧
      o.interval = (Samples.summaryOf xs).map Samples.Summary.interval := by
  cases o with
  | none => cases samples
  | constant x => cases samples
  | distribution d ys summary =>
    cases samples
    obtain ⟨fits, rfl⟩ := h
    exact ⟨fits, rfl, rfl⟩
  | vacant kept => exact h.elim

end Output

theorem Samples.exists_summaryOf {xs : List Float} (some_ : xs ≠ []) :
    ∃ s, summaryOf xs = some s := by
  rw [summaryOf]
  refine Option.isSome_iff_exists.1 (summary?_isSome.2 fun none_ => some_ ?_)
  have length := Number.length_ascending xs
  rw [none_] at length
  exact List.eq_nil_of_length_eq_zero length.symm

/-- What is regular is well-formed. -/
theorem Yield.Regular.wellFormed {count : Nat} {c : Cell} (h : c.yield.Regular count) :
    c.WellFormed count where
  exclusive := c.output.exclusive
  without := h.output.kinds.1
  number := h.output.kinds.2.1
  distribution := h.output.kinds.2.2
  constant _ value := Output.constant_spread value
  length _ samples := (h.output.samples samples).1
  summary xs samples some_ := by
    obtain ⟨s, summary⟩ := Samples.exists_summaryOf some_
    obtain ⟨-, mean, interval⟩ := h.output.samples samples
    rw [summary] at mean interval
    exact ⟨s, summary, mean, interval⟩
  dropped samples := by
    obtain ⟨-, mean, interval⟩ := h.output.samples samples
    rw [Samples.summaryOf_nil] at mean interval
    exact ⟨mean, interval⟩
  failed f fault own := by
    have nothing : c.output = .none := h.failed f fault own
    rw [nothing]
    exact ⟨rfl, rfl, rfl, rfl, rfl⟩
  cause := by rw [Option.isSome_map, Option.isSome_map]
  flag dependency := by
    rw [Option.isSome_map]
    cases fault : c.fault with
    | none => rw [fault] at dependency; cases dependency
    | some f => rfl

/-! ### Summaries -/

theorem Cell.written_ok {places : Int} (natural : 0 ≤ places) (few : places ≤ mostPlaces)
    (x : Float) : written places x = .ok (Number.fixed places.toNat x) := by
  rw [written, if_pos ⟨natural, few⟩]

/-- A regular cell has a summary. -/
theorem Yield.Regular.describes {count : Nat} {c : Cell} (h : c.yield.Regular count) {places : Int}
    (natural : 0 ≤ places) (few : places ≤ Cell.mostPlaces) :
    ∃ text, c.describe places = .ok text := by
  have output := h.output
  rw [Cell.describe]
  split
  · exact ⟨_, rfl⟩
  · exact ⟨_, rfl⟩
  next x _ _ => exact ⟨_, Cell.written_ok natural few x⟩
  next kept _ vacant =>
    change c.output.Regular count at output
    rw [vacant] at output
    exact output.elim
  · exact ⟨_, rfl⟩
  next s _ _ =>
    rw [Cell.written_ok natural few, Cell.written_ok natural few, Cell.written_ok natural few]
    exact ⟨_, rfl⟩

/-! ### Open sheets -/

/-- While an evaluation is told, no reference is refused for a sample count. -/
theorem RecordedSteps.fitting {count : Nat} {a b : Sheet × List Event}
    (steps : RecordedSteps count a b) (h : ∀ name x, .answered name x ∈ a.2 → Fitting x) :
    ∀ name x, .answered name x ∈ b.2 → Fitting x := by
  induction steps with
  | refl => exact h
  | tail _ last ih =>
    intro name x mem
    cases last with
    | begin events here => exact ih name x ((List.mem_cons.1 mem).resolve_left Event.noConfusion)
    | answer s events other fits =>
      obtain same | old := List.mem_cons.1 mem
      · cases same
        exact fits
      · exact ih name x old
    | finish s events id regular =>
      exact ih name x ((List.mem_cons.1 mem).resolve_left Event.noConfusion)
    | announce p events id => exact ih name x mem

/-- In every open sheet of a reachable workbook all cells are well-formed for the sample count that
is set, a cell has a summary with any number of places up to the most that are written, and no
reference of a recalculation is refused for a sample count. -/
theorem cells_well_formed {w : Workbook} (h : w.Reachable) {i : Nat} (isOpen : w.IsOpen i) :
    (∀ id c, (w.sheet i).get? id = some c → c.WellFormed w.settings.sampleCount ∧
      ∀ places, 0 ≤ places → places ≤ Cell.mostPlaces → ∃ text, c.describe places = .ok text) ∧
    ∀ name m, .answered name (.error (.problem (.lengthMismatch m))) ∉
      (w.sheet i).record w.settings.simulation [] := by
  obtain ⟨events, lives⟩ := h.lives i isOpen
  refine ⟨fun id c here => ?_, fun name m mem => ?_⟩
  · have regular := lives.regular id c here
    exact ⟨regular.wellFormed, fun places natural few => regular.describes natural few⟩
  · have steps := record_steps w.settings.simulation lives.reachable.tied lives.regular []
    exact steps.fitting (fun _ _ mem => by cases mem) name _ mem m rfl

/-- One sample twice, once read from another cell. -/
theorem fields_of_two_cells :
    let settings : Settings Nat := ⟨1, ⟨.permuted, some 1, none⟩, 3, none, []⟩
    let w := ((((Workbook.new settings).define 0 "A" (some "array(7)") none).define 0 "B"
      (some "A * 2") none).recalculate 0).2
    w.Reachable ∧ w.IsOpen 0 ∧
      (∃ c, (w.sheet 0).get? "B" = some c ∧ c.output.samples = some [14] ∧ c.WellFormed 1 ∧
        ∃ text, c.describe 3 = .ok text) ∧
      ∀ name m, .answered name (.error (.problem (.lengthMismatch m))) ∉
        (w.sheet 0).record w.settings.simulation [] := by
  intro settings w
  have reachable : w.Reachable :=
    .recalculate (.define (.define (.new settings) 0 "A" _ _) 0 "B" _ _) 0
  have isOpen : w.IsOpen 0 := by decide +kernel
  have samples : ((w.sheet 0).get? "B").bind (·.output.samples) = some [14] := by decide +kernel
  obtain ⟨c, here, samples⟩ := Option.bind_eq_some_iff.1 samples
  obtain ⟨cells, fits⟩ := cells_well_formed reachable isOpen
  obtain ⟨wellFormed, describes⟩ := cells "B" c here
  exact ⟨reachable, isOpen,
    ⟨c, here, samples, wellFormed, describes 3 (by decide) (by decide)⟩, fits⟩

/-- With one place more than are written, a cell with a number has no summary. -/
theorem no_summary_with_more_places :
    ¬ ∀ (w : Workbook) (_ : w.Reachable) (i : Nat) (_ : w.IsOpen i) (id : String) (c : Cell),
      (w.sheet i).get? id = some c → ∀ places, 0 ≤ places → ∃ text, c.describe places = .ok text := by
  let settings : Settings Nat := ⟨10, ⟨.permuted, some 1, none⟩, 3, none, []⟩
  let w := (((Workbook.new settings).define 0 "A" (some "1e999") none).recalculate 0).2
  have reachable : w.Reachable := .recalculate (.define (.new settings) 0 "A" _ _) 0
  have isOpen : w.IsOpen 0 := by decide +kernel
  have refused : ((w.sheet 0).get? "A").map (·.describe 2147483648) = some (.error .places) := by
    decide +kernel
  intro describes
  obtain ⟨c, here, refused⟩ := Option.map_eq_some_iff.1 refused
  obtain ⟨text, described⟩ := describes w reachable 0 isOpen "A" c here 2147483648 (by decide)
  rw [refused] at described
  cases described

end MonteCarloSheet
