import MonteCarloSheet.Proofs.Number
import MonteCarloSheet.Proofs.Sheet.Accurate

/-! Sheets kept by hand.

Cells can be kept without sweeps: they get formulas, are marked stale, and are
reevaluated one at a time, each with all that it reads. A cell that is fresh then
shows what its formula comes to with what the cells that it reads show, provided that
no reevaluation changes a cell that was fresh when it began, other than its own
(`results_up_to_date`). Without the proviso an update is lost. A cell that is being
evaluated is not told of a change of one that it reads, and it may have read that one
before: with `W` fresh, `V` stale and `W` among what `V` reads, `W + V` adds the old
`W` to a `V` that is computed from the new one. -/
namespace MonteCarloSheet

open Formula (Expr evaluateWith)

/-! ### Kept by hand -/

/-- The sheets that come from new cells by editing, marking and reevaluating one cell at a time,
where no reevaluation changes a cell that was fresh when it began, other than its own. -/
inductive Sheet.ByHand (sim : Simulation) : Sheet → Prop where
  | start {s : Sheet} (new : s.All fun id c => ∃ formula name, c = .new id formula name) :
      ByHand sim s
  | edit {s : Sheet} (h : ByHand sim s) (id : String) (formula name : Option String) :
      ByHand sim (s.modify id (Cell.edit · formula name))
  | mark {s : Sheet} (h : ByHand sim s) (id : String) : ByHand sim (s.modify id Cell.markStale)
  | reevaluate {s : Sheet} (h : ByHand sim s) (id : String)
      (quiet : Quiet s id (s.reevaluateAlone sim id).2) :
      ByHand sim (s.reevaluateAlone sim id).2

/-- What holds of a sheet that is kept by hand. -/
structure Sheet.Orderly (sim : Simulation) (s : Sheet) : Prop where
  tied : s.Tied
  faithful : s.Faithful
  readable : s.idle.Readable
  upToDate : s.UpToDate sim

/-- A change of a cell that leaves its result and its links alone; if it leaves the cell fresh, then
the formula too. -/
structure Cell.Leaves (f : Cell → Cell) : Prop where
  output : ∀ c, (f c).output = c.output
  fault : ∀ c, (f c).fault = c.fault
  processed : ∀ c, (f c).processed = c.processed
  dependencies : ∀ c, (f c).dependencies = c.dependencies
  dependents : ∀ c, (f c).dependents = c.dependents
  fresh : ∀ c, (f c).isStale = false → c.isStale = false ∧ (f c).formula = c.formula
  faithful : ∀ c, c.Faithful → (f c).Faithful

theorem Cell.leaves_edit (formula name : Option String) : Leaves (Cell.edit · formula name) := by
  constructor <;> intro c
  case faithful => exact fun h => h.edit formula name
  all_goals obtain ⟨shown, same⟩ | ⟨shown, same⟩ := c.edit_cases formula name <;> rw [same]
  · exact fun fresh => ⟨fresh, rfl⟩
  · exact fun absurd => by cases absurd

theorem Cell.leaves_markStale : Leaves Cell.markStale where
  output := fun _ => rfl
  fault := fun _ => rfl
  processed := fun _ => rfl
  dependencies := fun _ => rfl
  dependents := fun _ => rfl
  fresh := fun _ absurd => by cases absurd
  faithful := fun _ h => h

namespace Sheet
variable {sim : Simulation} {s : Sheet}

theorem showsSame_modify (id : String) {f : Cell → Cell} (leaves : Cell.Leaves f) (name : String) :
    s.ShowsSame (Roster.modify s id f) name := by
  intro c here
  rw [Roster.get?_modify, here]
  split
  · refine ⟨f c, rfl, ?_⟩
    rw [Cell.observation_eq (leaves.output c) (leaves.fault c)]
    exact Cell.Observation.same_refl _
  · exact ⟨c, rfl, Cell.Observation.same_refl _⟩

theorem UpToDate.modify (h : s.UpToDate sim) (id : String) {f : Cell → Cell}
    (leaves : Cell.Leaves f) : UpToDate sim (Roster.modify s id f) := by
  intro x d there fresh fault
  rw [Roster.get?_modify] at there
  by_cases self : x = id
  · rw [if_pos self] at there
    obtain ⟨c, here, rfl⟩ := Option.map_eq_some_iff.1 there
    rw [leaves.fault] at fault
    obtain ⟨fresh, formula⟩ := leaves.fresh c fresh
    exact (h x c here fresh fault).mono formula (leaves.output c) (leaves.dependencies c)
      fun name _ => showsSame_modify id leaves name
  · rw [if_neg self] at there
    exact (h x d there fresh fault).mono rfl rfl rfl fun name _ => showsSame_modify id leaves name

namespace Orderly

theorem new (new : s.All fun id c => ∃ formula name, c = .new id formula name) :
    s.Orderly sim := by
  have deps : ∀ x, s.dependencies x = [] := fun x => by
    cases here : s.get? x with
    | none => exact dependencies_of_absent here
    | some c =>
      obtain ⟨formula, name, rfl⟩ := new x c here
      rw [dependencies, here]
      rfl
  have readers : ∀ x, s.dependents x = [] := fun x => by
    rw [dependents]
    cases here : s.get? x with
    | none => rfl
    | some c =>
      obtain ⟨formula, name, rfl⟩ := new x c here
      rfl
  refine ⟨⟨fun x _ y _ => ?_, fun x y mem => ?_⟩, fun x c here => ?_, fun x c here => ?_,
    fun x c here => ?_⟩
  · rw [deps, readers]
    simp
  · rw [readers] at mem
    cases mem
  · obtain ⟨formula, name, rfl⟩ := new x c here
    exact Cell.faithful_of_unparsed rfl
  · obtain ⟨formula, name, rfl⟩ := new x c here
    exact fun absurd => by cases absurd
  · obtain ⟨formula, name, rfl⟩ := new x c here
    exact fun absurd => by cases absurd

theorem modify (h : s.Orderly sim) (id : String) {f : Cell → Cell} (leaves : Cell.Leaves f) :
    Orderly sim (Roster.modify s id f) where
  tied := h.tied.modify id leaves.dependencies leaves.dependents
  faithful := All.modify h.faithful id leaves.faithful
  readable := by
    refine All.modify (P := fun x c => c.processed = true → x ∉ [] → c.Readable) h.readable id ?_
    intro c readable processed idle fault
    rw [leaves.processed] at processed
    rw [leaves.fault] at fault
    rw [leaves.output]
    exact readable processed idle fault
  upToDate := h.upToDate.modify id leaves

theorem reevaluate (h : s.Orderly sim) {id : String}
    (quiet : Quiet s id (s.reevaluateAlone sim id).2) :
    Orderly sim (s.reevaluateAlone sim id).2 := by
  have steps := reevaluateAlone_steps sim s id
  obtain ⟨readable, upToDate⟩ :=
    reevaluateAlone_upToDate sim h.tied h.faithful h.readable h.upToDate quiet
  exact ⟨Steps.keep (fun _ _ => Tied.step) steps h.tied,
    Steps.keep (fun _ _ => Faithful.step) steps h.faithful, readable, upToDate⟩

end Orderly

theorem ByHand.orderly (h : s.ByHand sim) : s.Orderly sim := by
  induction h with
  | start new => exact .new new
  | edit _ id formula name ih => exact ih.modify id (Cell.leaves_edit formula name)
  | mark _ id ih => exact ih.modify id Cell.leaves_markStale
  | reevaluate _ _ quiet ih => exact ih.reevaluate quiet

end Sheet

/-! ### Results that follow what is read -/

/-- `Y` has read `W` before the reevaluation of `V` changes it: 2 + 21 instead of 11 + 21. -/
example :
    let sim : Simulation := ⟨10, ⟨.permuted, some 1, none⟩, 980⟩
    let cells : Sheet := Roster.ofList [("X", .new "X" (some "1") none),
      ("W", .new "W" (some "X + 1") none), ("V", .new "V" (some "X + W") none),
      ("Y", .new "Y" (some "W + V") none)]
    let read := (cells.reevaluateAlone sim "Y").2
    let edited := read.modify "X" (Cell.edit · (some "10") none)
    let s := (Sheet.reevaluateAlone sim (edited.modify "V" Cell.markStale) "Y").2
    ["W", "V", "Y"].map (fun id => (s.get? id).any fun c => !c.isStale && c.status = .valid) =
        [true, true, true] ∧
      (s.get? "W").any (·.output.value.any (· == 11)) ∧
      (s.get? "V").any (·.output.value.any (· == 21)) ∧
      (s.get? "Y").any (·.output.value.any (· == 23)) := by
  decide +kernel

end MonteCarloSheet
