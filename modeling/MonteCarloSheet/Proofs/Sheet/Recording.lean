import MonteCarloSheet.Proofs.Sheet.Noticed

/-! Recorded evaluations.

Evaluations can be run with a record of what happens: which cells begin, what
references are answered with, and how cells end. The record is only written, so a
recorded evaluation does to the sheet what the evaluation does by itself
(`recordedWith_mirrors`). The record of a recalculation is that of the cells which
its sweeps reevaluate, one after another (`Sheet.record`). -/
namespace MonteCarloSheet

open Formula (Answering Stop)

/-! ### Records -/

/-- What happens in the life of a sheet: a cell is entered, the sample count changes, and
evaluations begin, read and end. -/
inductive Event where
  | entered (id : String)
  | resized
  | began (id : String)
  | answered (name : String) (answer : Except Stop (Option Value))
  | ended (id : String) (ending : Ending)

/-- An evaluation with the events so far, the latest first. -/
structure Recorded where
  progress : Progress
  events : List Event

namespace Recorded

def onProgress (f : Progress → Progress) (r : Recorded) : Recorded :=
  { r with progress := f r.progress }

def note (event : Event) (r : Recorded) : Recorded :=
  { r with events := event :: r.events }

/-- Concludes a cell and records its ending. -/
def conclude (id : String) (before : Cell) (ending : Ending) (r : Recorded) : Outcome × Recorded :=
  let (outcome, p) := MonteCarloSheet.conclude id before ending.apply r.progress
  (outcome, ⟨p, .ended id ending :: r.events⟩)

end Recorded

abbrev RecordedRefresh := Nat → String → Answering Recorded Unit

/-- Brings a cell up to date, if it is stale, and reads it. -/
def recordedAnswer (count : Nat) (bring : RecordedRefresh) (room : Nat) (name : String) (c : Cell) :
    Answering Recorded (Option Value) := fun r =>
  match (if c.isStale then bring room name r else (.ok (), r)) with
  | (.ok (), r) => (readOf count name r.progress.sheet, r)
  | (.error x, r) => (.error x, r)

/-- The answer to a reference, as `reference` gives it. -/
def recordedReference (count : Nat) (bring : RecordedRefresh) (room : Nat) (name : String) :
    Answering Recorded (Option Value) := fun r =>
  let (answer, r) :=
    if name ∈ r.progress.active then (.error (.problem (.circular name)), r)
    else
      match r.progress.sheet.get? name with
      | none => (.error (.problem (.unknownCell name)), r)
      | some c =>
        let (answer, r) :=
          recordedAnswer count bring room name c (r.onProgress (Progress.activate name))
        (answer, r.onProgress (Progress.deactivate name))
  (answer, r.note (.answered name answer))

/-- Reevaluates a cell as `reevaluateWith` does. -/
def recordedWith (sim : Simulation) (bring : RecordedRefresh) (room : Nat) (id : String) :
    StateM Recorded Outcome := fun r =>
  match r.progress.sheet.get? id with
  | none => (.unchanged, r)
  | some before =>
    let r := (r.onProgress (Progress.onSheet (Sheet.begun · id before))).note (.began id)
    match before.tree with
    | .error err => r.conclude id before (.failed (.own (.malformed err)))
    | .ok e =>
      match Formula.evaluate (recordedReference sim.count bring) sim.count room e
        (sim.source.generatorFor [id, before.formula.getD ""]) r with
      | (.ok (some v, _), r) => r.conclude id before (.settled (.ofValue e v))
      | (.error (.fault f), r) => r.conclude id before (.failed f)
      | (.ok (none, _), r) =>
        (.abandoned, (r.onProgress (Progress.onSheet (Roster.modify · id Ending.vacant.apply))).note
          (.ended id .vacant))
      | (.error .missing, r) => (.abandoned, r)

/-- Brings a cell up to date as `refresh` does. -/
def recordedRefresh (sim : Simulation) : Nat → RecordedRefresh
  | levels + 1, room + 2, id => fun r =>
    match recordedWith sim (recordedRefresh sim levels) room id r with
    | (.abandoned, r) => (.error .missing, r)
    | (_, r) => (.ok (), r)
  | _, _, _ => fun r => (.error (.problem .tooDeep), r)

namespace Sheet

/-- The events of a cell's reevaluation by itself, before the earlier ones. -/
def recordAlone (sim : Simulation) (s : Sheet) (id : String) (events : List Event) : List Event :=
  (recordedWith sim (recordedRefresh sim s.size) sim.room id ⟨⟨s, [id]⟩, events⟩).2.events

/-- The events of a sweep. -/
def recordSweep (sim : Simulation) : List String → Sheet → List Event → List Event
  | [], _, events => events
  | id :: rest, s, events =>
    match s.get? id with
    | none => recordSweep sim rest s events
    | some c =>
      if c.isStale then
        recordSweep sim rest (s.reevaluateAlone sim id).2 (s.recordAlone sim id events)
      else recordSweep sim rest s events

/-- The events of at most so many sweeps. -/
def recordSweeps (sim : Simulation) (order : List String) : Nat → Sheet → List Event → List Event
  | 0, _, events => events
  | left + 1, s, events =>
    let (changed, after) := sweep sim order (false, s)
    let events := recordSweep sim order s events
    if !changed && isSettled after then events else recordSweeps sim order left after events

/-- The events of a recalculation, before the earlier ones. -/
def record (sim : Simulation) (s : Sheet) (events : List Event) : List Event :=
  recordSweeps sim s.prepared.order (sweepLimit s.prepared) s.prepared events

end Sheet

/-! ### Recording changes nothing -/

/-- The recorded computation does to the progress what the other one does. -/
def Mirrors (m : StateM Recorded α) (n : StateM Progress α) : Prop :=
  ∀ r, ((m r).1, (m r).2.progress) = n r.progress

section
variable {bring : Refresh} {recorded : RecordedRefresh}
  (mirrors : ∀ room name, Mirrors (recorded room name) (bring room name))
include mirrors

theorem recordedAnswer_mirrors (count room : Nat) (name : String) (c : Cell) :
    Mirrors (recordedAnswer count recorded room name c) (answer count bring room name c) := by
  intro r
  rw [recordedAnswer, answer_run]
  by_cases stale : c.isStale = true
  · rw [if_pos stale, if_pos stale, ← mirrors room name r]
    rcases recorded room name r with ⟨x | u, r'⟩ <;> rfl
  · rw [if_neg stale, if_neg stale]

theorem recordedReference_mirrors (count room : Nat) (name : String) :
    Mirrors (recordedReference count recorded room name) (reference count bring room name) := by
  intro r
  rw [recordedReference, reference]
  by_cases active : name ∈ r.progress.active
  · rw [if_pos active, if_pos active]
    rfl
  · rw [if_neg active, if_neg active]
    rcases r.progress.sheet.get? name with _ | c
    · rfl
    · have same := recordedAnswer_mirrors mirrors count room name c
        (r.onProgress (Progress.activate name))
      change _ = answer count bring room name c (r.progress.activate name) at same
      dsimp only
      rw [← same]
      rfl

theorem recordedWith_mirrors (sim : Simulation) (room : Nat) (id : String) :
    Mirrors (recordedWith sim recorded room id) (reevaluateWith sim bring room id) := by
  intro r
  rw [recordedWith]
  cases here : r.progress.sheet.get? id with
  | none =>
    rw [reevaluateWith, here]
  | some before =>
    rw [reevaluateWith_eq sim bring room here]
    dsimp only
    rcases before.tree with err | e
    · rfl
    · have refs : Formula.Answered (fun r p => Recorded.progress r = p) Eq
          (recordedReference sim.count recorded) (reference sim.count bring) e.height room room
          e.references := by
        rintro name - r₁ r₂ - shift s _ rfl
        rw [show r₁ = r₂ from Nat.add_right_cancel shift,
          ← recordedReference_mirrors mirrors sim.count r₂ name s]
        exact ⟨Formula.Agree.refl (fun _ => rfl) _, rfl⟩
      dsimp only
      obtain ⟨same, left⟩ := Formula.evaluate_lockstep (fun _ => rfl) e (.inl rfl) refs
        (sim.source.generatorFor [id, before.formula.getD ""])
        ((r.onProgress (Progress.onSheet (Sheet.begun · id before))).note (.began id))
        (r.progress.onSheet (Sheet.begun · id before)) rfl
      generalize Formula.evaluate (recordedReference sim.count recorded) sim.count room e _ _ = out
        at same left
      generalize Formula.evaluate (reference sim.count bring) sim.count room e _ _ = out'
        at same left
      obtain ⟨a, r'⟩ := out
      obtain ⟨b, q⟩ := out'
      cases same.eq
      cases left
      rcases a with (f | _) | ⟨_ | v, g⟩ <;> rfl

end

theorem recordedRefresh_mirrors (sim : Simulation) (levels : Nat) :
    ∀ room name, Mirrors (recordedRefresh sim levels room name) (refresh sim levels room name) := by
  induction levels with
  | zero => exact fun _ _ _ => rfl
  | succ levels ih =>
    intro room name r
    match room with
    | 0 => rfl
    | 1 => rfl
    | room + 2 =>
      rw [recordedRefresh, refresh_run, ← recordedWith_mirrors ih sim room name r]
      dsimp only
      generalize recordedWith sim _ room name r = out
      obtain ⟨_ | _ | _, r'⟩ := out <;> rfl

/-- A recorded reevaluation of a cell by itself leaves the sheet as the reevaluation does. -/
theorem recordAlone_mirrors (sim : Simulation) (s : Sheet) (id : String) (events : List Event) :
    (recordedWith sim (recordedRefresh sim s.size) sim.room id ⟨⟨s, [id]⟩, events⟩).2.progress.sheet =
      (s.reevaluateAlone sim id).2 := by
  have same := recordedWith_mirrors (recordedRefresh_mirrors sim s.size) sim sim.room id
    ⟨⟨s, [id]⟩, events⟩
  rw [Sheet.reevaluateAlone, reevaluate, ← same]

end MonteCarloSheet
