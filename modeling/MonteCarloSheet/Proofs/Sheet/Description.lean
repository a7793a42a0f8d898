import MonteCarloSheet.Proofs.Sheet.AtRest
import MonteCarloSheet.Proofs.Sheet.Representation

/-! Descriptions of cells.

A cell is described by its fault or its numbers. What it shows and the formula say which
these are, so sheets at rest with the same formulas are described alike
(`described_of_atRest`). The summary of a sheet has the descriptions of its cells in order
(`summary_ok`), unless a number would be too long (`summary_of_tooLong`). -/
namespace MonteCarloSheet

open Formula (Expr)

namespace Sheet

/-- What a cell is described by, if there is one. -/
def described (s : Sheet) (places : Int) (id : String) : Option (Except Cell.Unwritable String) :=
  (s.get? id).map (Cell.describe · places)

/-- Cells that show the same result of the same formula have the same description. -/
theorem describe_of_shows {c d : Cell} {r : Result} (formula : c.formula = d.formula)
    (left : c.Shows r) (right : d.Shows r) (places : Int) :
    c.describe places = d.describe places := by
  cases r with
  | error f =>
    rw [Cell.describe, left.1, Cell.describe, right.1]
  | ok v =>
    obtain ⟨valid, e, parsed, output⟩ := left
    obtain ⟨valid', e', parsed', output'⟩ := right
    rw [formula, parsed'] at parsed
    cases parsed
    rw [Cell.describe, (Cell.status_valid_iff.1 valid).1, output, Cell.describe,
      (Cell.status_valid_iff.1 valid').1, output']

/-- A sheet at rest is described by its formulas alone. -/
theorem described_of_atRest {sim : Simulation} {roomOf : Expr → Nat} {F : Formulas} {s t : Sheet}
    (left : AtRest sim roomOf F s) (right : AtRest sim roomOf F t) (places : Int) (x : String) :
    s.described places x = t.described places x := by
  have same : s.formulas x = t.formulas x := by rw [left.formulas, right.formulas]
  rw [described, described]
  cases here : s.get? x with
  | none =>
    rw [formulas, here, formulas] at same
    rw [Option.map_eq_none_iff.1 same.symm]
  | some c =>
    rw [formulas_of_get? here] at same
    obtain ⟨d, there, formula⟩ := Option.map_eq_some_iff.1 same.symm
    obtain ⟨r, means, shows_⟩ := left.shows_ x c here
    obtain ⟨q, means', shows'⟩ := right.shows_ x d there
    rw [means'.unique means] at shows'
    rw [there, Option.map_some, Option.map_some, describe_of_shows formula.symm shows_ shows']

end Sheet

/-! ### Numbers that are too long -/

/-- The summary of the cell is written with a number. -/
def Cell.HasNumber (c : Cell) : Prop :=
  c.fault = none ∧ c.output.mean.isSome = true

/-- Only a number needs places, and none is written with more than the most. -/
theorem Yield.Regular.describe_of_many {count : Nat} {c : Cell} (h : c.yield.Regular count)
    {places : Int} (many : Cell.mostPlaces < places) :
    c.HasNumber ∧ c.describe places = .error .places ∨
      ¬ c.HasNumber ∧ ∃ text, c.describe places = .ok text := by
  have refused : ∀ x, Cell.written places x = .error .places := fun x =>
    if_neg fun fits => Int.not_lt.2 fits.2 many
  have output : c.output.Regular count := h.output
  rw [Cell.describe, Cell.HasNumber]
  cases c.fault with
  | some f => exact .inr ⟨fun absurd => (by cases absurd.1), _, rfl⟩
  | none =>
    cases kind : c.output with
    | none => exact .inr ⟨fun absurd => (by cases absurd.2), _, rfl⟩
    | constant x => exact .inl ⟨⟨rfl, rfl⟩, refused x⟩
    | vacant kept => rw [kind] at output; exact output.elim
    | distribution d xs summary =>
      cases summary with
      | none => exact .inr ⟨fun absurd => (by cases absurd.2), _, rfl⟩
      | some s =>
        refine .inl ⟨⟨rfl, rfl⟩, ?_⟩
        dsimp only
        rw [refused]
        rfl

/-- A number of the sheet would have to be written with more places than the most. -/
def Sheet.TooLong (places : Int) (s : Sheet) : Prop :=
  Cell.mostPlaces < places ∧ ∃ id c, s.get? id = some c ∧ c.HasNumber

/-! ### Summaries of sheets -/

theorem mapM_ok {α β ε : Type} {f : α → Except ε β} {R : α → β → Prop} {xs : List α}
    (all : ∀ x ∈ xs, ∃ y, f x = .ok y ∧ R x y) :
    ∃ ys, xs.mapM f = .ok ys ∧ List.Forall₂ R xs ys := by
  induction xs with
  | nil => exact ⟨[], rfl, .nil⟩
  | cons x rest ih =>
    obtain ⟨y, first, fits⟩ := all x List.mem_cons_self
    obtain ⟨ys, others, fit⟩ := ih fun z mem => all z (List.mem_cons_of_mem x mem)
    refine ⟨y :: ys, ?_, .cons fits fit⟩
    rw [List.mapM_cons, first, others]
    rfl

theorem mapM_error {α β ε : Type} {f : α → Except ε β} {e : ε} {xs : List α}
    (all : ∀ x ∈ xs, (∃ y, f x = .ok y) ∨ f x = .error e) (some_ : ∃ x ∈ xs, f x = .error e) :
    xs.mapM f = .error e := by
  induction xs with
  | nil => obtain ⟨x, absurd, -⟩ := some_; cases absurd
  | cons x rest ih =>
    rw [List.mapM_cons]
    obtain ⟨y, first⟩ | first := all x List.mem_cons_self
    · have later : ∃ z ∈ rest, f z = .error e := by
        obtain ⟨z, mem, fails⟩ := some_
        obtain rfl | mem := List.mem_cons.1 mem
        · rw [first] at fails; cases fails
        · exact ⟨z, mem, fails⟩
      rw [first, ih (fun z mem => all z (List.mem_cons_of_mem x mem)) later]
      rfl
    · rw [first]
      rfl

namespace Sheet
variable {s : Sheet} {places : Int}

theorem described_of_mem {entry : String × Cell} (mem : entry ∈ s.entries) :
    s.described places entry.1 = some (entry.2.describe places) := by
  rw [described, Roster.mem_entries.1 mem]
  rfl

/-- If all cells can be described, the summary has the descriptions in the order of the cells. -/
theorem summary_ok (all : ∀ id ∈ s.names, ∃ text, s.described places id = some (.ok text)) :
    ∃ entries, s.summary places = .ok entries ∧
      List.Forall₂ (fun id entry => entry.1 = id ∧ s.described places id = some (.ok entry.2))
        s.names entries := by
  rw [summary, Roster.names]
  simp only [List.forall₂_map_left_iff]
  refine mapM_ok fun entry mem => ?_
  obtain ⟨text, known⟩ := all entry.1 (List.mem_map_of_mem mem)
  rw [described_of_mem mem] at known ⊢
  rw [Option.some.inj known]
  exact ⟨(entry.1, text), rfl, rfl, rfl⟩

/-- There is no summary if a number is too long. -/
theorem summary_of_tooLong {count : Nat} (regular : s.Regular count) (long : s.TooLong places) :
    s.summary places = .error .places := by
  obtain ⟨many, id, c, here, number⟩ := long
  refine mapM_error (fun entry mem => ?_) ⟨(id, c), Roster.mem_entries.2 here, ?_⟩
  · obtain ⟨-, fails⟩ | ⟨-, text, known⟩ :=
      (regular entry.1 entry.2 (Roster.mem_entries.1 mem)).describe_of_many many
    · exact .inr (by rw [fails]; rfl)
    · exact .inl ⟨(entry.1, text), by rw [known]; rfl⟩
  · obtain ⟨-, fails⟩ | ⟨none, -⟩ := (regular id c here).describe_of_many many
    · dsimp only
      rw [fails]
      rfl
    · exact (none number).elim

/-- Otherwise all cells can be described. -/
theorem described_of_regular {count : Nat} (regular : s.Regular count) (natural : 0 ≤ places)
    (fits : ¬ s.TooLong places) (id : String) (known : id ∈ s.names) :
    ∃ text, s.described places id = some (.ok text) := by
  obtain ⟨c, here⟩ := Roster.mem_names.1 known
  rw [described, here]
  suffices ok : ∃ text, c.describe places = .ok text from
    ok.imp fun text known => congrArg some known
  by_cases few : places ≤ Cell.mostPlaces
  · exact (regular id c here).describes natural few
  · have many := Int.not_le.1 few
    obtain ⟨number, -⟩ | ⟨-, ok⟩ := (regular id c here).describe_of_many many
    · exact (fits ⟨many, id, c, here, number⟩).elim
    · exact ok

end Sheet

end MonteCarloSheet
