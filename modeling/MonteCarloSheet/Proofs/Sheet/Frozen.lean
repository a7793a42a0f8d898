import MonteCarloSheet.Proofs.Sheet.Lives

/-! Frozen results.

A dependency fault leaves the output of a cell as it was, so such a cell shows what
it came to before, however often it has failed since. What that is can be read from
the events of the sheet: the latest one that set the output of the cell, and whether
the sample count has changed after it (`dependency_fault_freezes`). -/
namespace MonteCarloSheet

/-! ### What events leave a cell with -/

namespace Event

/-- The output that an event sets for the cell: a new cell has none, a result is what it is, and a
problem of its own clears the output. -/
def sets (id : String) : Event → Option Output
  | entered x => if x = id then some .none else none
  | ended x (.settled output) => if x = id then some output else none
  | ended x (.failed f) => if x = id ∧ f.isDependency = false then some .none else none
  | _ => none

/-- The cell is entered or its evaluation ends. -/
def concerns (id : String) : Event → Bool
  | entered x => x = id
  | ended x _ => x = id
  | _ => false

variable {id : String} {event : Event}

theorem Spares.sets (h : event.Spares id) : event.sets id = none := by
  cases event with
  | entered x => exact if_neg h
  | resized => rfl
  | began x => rfl
  | answered x a => rfl
  | ended x ending =>
    cases ending with
    | settled output => exact if_neg h
    | failed f => exact if_neg fun both => h both.1
    | vacant => rfl

theorem Spares.concerns (h : event.Spares id) : event.concerns id = false := by
  cases event with
  | entered x => exact decide_eq_false h
  | resized => rfl
  | began x => rfl
  | answered x a => rfl
  | ended x ending => exact decide_eq_false h

theorem Spares.ne_resized (h : event.Spares id) : resized ≠ event := by
  rintro rfl
  exact h

end Event

/-- The output of a cell after the latest event that set it, nothing if there was none. -/
def lastOutput (id : String) (events : List Event) : Output :=
  (events.findSome? (Event.sets id)).getD .none

/-- The events after the latest that set the output of a cell. -/
def sinceOutput (id : String) (events : List Event) : List Event :=
  events.takeWhile fun event => (event.sets id).isNone

section
variable {id : String} {event : Event} {events : List Event}

theorem lastOutput_of_sets {output : Output} (h : event.sets id = some output) :
    lastOutput id (event :: events) = output := by
  rw [lastOutput, List.findSome?_cons, h]
  rfl

theorem sinceOutput_of_sets {output : Output} (h : event.sets id = some output) :
    sinceOutput id (event :: events) = [] := by
  rw [sinceOutput, List.takeWhile_cons_of_neg]
  rw [h]
  exact Bool.false_ne_true

theorem lastOutput_of_none (h : event.sets id = none) :
    lastOutput id (event :: events) = lastOutput id events := by
  rw [lastOutput, List.findSome?_cons, h]
  rfl

theorem sinceOutput_of_none (h : event.sets id = none) :
    sinceOutput id (event :: events) = event :: sinceOutput id events := by
  rw [sinceOutput, List.takeWhile_cons_of_pos]
  · rfl
  · rw [h]
    rfl

end

/-! ### Frozen outputs -/

/-- A change of the sample count takes the samples away and leaves the rest of an output. -/
theorem Output.kind_invalidate (o : Output) :
    o.invalidate.kind = o.kind ∧ o.invalidate.value = o.value := by
  cases o with
  | none => exact ⟨rfl, rfl⟩
  | constant x => exact ⟨rfl, rfl⟩
  | distribution d xs summary => exact ⟨rfl, rfl⟩
  | vacant kept => cases kept <;> exact ⟨rfl, rfl⟩

theorem Output.invalidate_of_samples {o : Output} (h : o.samples.isSome) :
    o.invalidate.samples = some [] ∧ o.invalidate.mean = Option.none ∧
      o.invalidate.interval = Option.none := by
  cases o with
  | none => cases h
  | constant x => cases h
  | distribution d xs summary => exact ⟨rfl, rfl, rfl⟩
  | vacant kept =>
    cases kept with
    | none => cases h
    | some kept => exact ⟨rfl, rfl, rfl⟩

theorem Output.invalidate_of_none {o : Output} (h : ¬ o.samples.isSome) : o.invalidate = o := by
  cases o with
  | none => rfl
  | constant x => rfl
  | distribution d xs summary => exact (h rfl).elim
  | vacant kept =>
    cases kept with
    | none => rfl
    | some kept => exact (h rfl).elim

/-- The output is the last one that was set, without its samples if the sample count has changed
since. -/
structure Frozen (id : String) (events : List Event) (y : Yield) : Prop where
  dropped : .resized ∈ sinceOutput id events → y.output = (lastOutput id events).invalidate
  whole : .resized ∉ sinceOutput id events → y.output = lastOutput id events

namespace Frozen
variable {id : String} {event : Event} {events : List Event} {y : Yield}

theorem of_sets (h : event.sets id = some y.output) : Frozen id (event :: events) y where
  dropped mem := by
    rw [sinceOutput_of_sets h] at mem
    cases mem
  whole _ := (lastOutput_of_sets h).symm

/-- An event that leaves the output alone, and is no change of the sample count, leaves it
frozen. -/
theorem later (h : Frozen id events y) (sets : event.sets id = none) (other : .resized ≠ event)
    {z : Yield} (same : z.output = y.output) : Frozen id (event :: events) z where
  dropped mem := by
    rw [sinceOutput_of_none sets] at mem
    rw [same, lastOutput_of_none sets]
    exact h.dropped ((List.mem_cons.1 mem).resolve_left other)
  whole absent := by
    rw [sinceOutput_of_none sets] at absent
    rw [same, lastOutput_of_none sets]
    exact h.whole fun mem => absent (List.mem_cons_of_mem _ mem)

theorem resize (h : Frozen id events y) : Frozen id (.resized :: events) y.invalidate where
  dropped _ := by
    rw [lastOutput_of_none rfl, Yield.invalidate]
    by_cases already : .resized ∈ sinceOutput id events
    · rw [h.dropped already, Output.invalidate_invalidate]
    · rw [h.whole already]
  whole absent := by
    rw [sinceOutput_of_none rfl] at absent
    exact (absent List.mem_cons_self).elim

end Frozen

theorem kept_frozen : Kept fun _ events id y => Frozen id events y where
  entered _ _ _ := .of_sets (if_pos rfl)
  ended {_ events id y ending} regular h := by
    cases ending with
    | settled output => exact .of_sets (if_pos rfl)
    | failed f =>
      rw [Yield.after]
      cases dependency : f.isDependency with
      | false => exact .of_sets (if_pos ⟨rfl, dependency⟩)
      | true =>
        have alone : Event.sets id (.ended id (.failed f)) = none :=
          if_neg fun own => by rw [dependency] at own; cases own.2
        exact h.later alone Event.noConfusion rfl
    | vacant => exact regular.elim
  resized _ h := h.resize
  spared spares h := h.later spares.sets spares.ne_resized rfl

/-- A cell whose latest evaluation has come to a result has no fault. -/
theorem kept_cleared : Kept fun _ events id y =>
    ∀ output, events.find? (Event.concerns id) = some (.ended id (.settled output)) →
      y.fault = none where
  entered _ _ _ := fun _ _ => rfl
  ended {_ events id y ending} _ _ output last := by
    have ends : Event.concerns id (.ended id ending) = true := decide_eq_true rfl
    rw [List.find?_cons_of_pos ends] at last
    cases last
    rfl
  resized _ h output last := h output last
  spared {_ events id y event} spares h output last := by
    rw [List.find?_cons_of_neg (by rw [spares.concerns]; exact Bool.false_ne_true)] at last
    exact h output last

/-! ### Dependency faults -/

/-- All through the life of a sheet, a cell with a dependency fault shows what the latest evaluation
without such a fault has left: the result of it, nothing if the problem was its own, and nothing if
there was none. Its samples are dropped, with their mean and interval, if and only if the sample
count has changed since. Once an evaluation of the cell has come to a result, its fault is gone. -/
theorem dependency_fault_freezes {count : Nat} {s : Sheet} {events : List Event}
    (h : s.Lives count events) {id : String} {c : Cell} (here : s.get? id = some c) :
    (∀ f, c.fault = some f → f.isDependency = true →
      let left := lastOutput id events
      c.output.kind = left.kind ∧ c.output.value = left.value ∧
        (left.samples.isSome ∧ .resized ∈ sinceOutput id events →
          c.output.samples = some [] ∧ c.output.mean = none ∧ c.output.interval = none) ∧
        (¬ (left.samples.isSome ∧ .resized ∈ sinceOutput id events) →
          c.output.samples = left.samples ∧ c.output.mean = left.mean ∧
            c.output.interval = left.interval)) ∧
    ∀ output, events.find? (Event.concerns id) = some (.ended id (.settled output)) →
      c.fault.map Fault.message = none ∧ c.fault.map Fault.cause = none ∧
        c.fault.any Fault.isDependency = false := by
  constructor
  · intro f _ _ left
    have frozen : Frozen id events c.yield := kept_frozen.lives h id c here
    by_cases resized : .resized ∈ sinceOutput id events
    · have dropped : c.output = left.invalidate := frozen.dropped resized
      rw [dropped]
      refine ⟨left.kind_invalidate.1, left.kind_invalidate.2,
        fun sampled => left.invalidate_of_samples sampled.1, fun unsampled => ?_⟩
      rw [Output.invalidate_of_none fun some_ => unsampled ⟨some_, resized⟩]
      exact ⟨rfl, rfl, rfl⟩
    · have whole : c.output = left := frozen.whole resized
      rw [whole]
      exact ⟨rfl, rfl, fun sampled => (resized sampled.2).elim, fun _ => ⟨rfl, rfl, rfl⟩⟩
  · intro output last
    have cleared : c.fault = none := kept_cleared.lives h id c here output last
    rw [cleared]
    exact ⟨rfl, rfl, rfl⟩

/-- A cell reads another one whose formula is broken later, and then the sample count changes. -/
theorem frozen_sample_of_one_cell :
    let one : Simulation := ⟨1, ⟨.permuted, some 1, none⟩, 980⟩
    let two : Simulation := ⟨2, ⟨.permuted, some 1, none⟩, 980⟩
    let sound := (Sheet.recalculate one (Sheet.define (Sheet.define Roster.empty "A"
      (some "B * 2") none) "B" (some "array(7)") none)).2
    let broken := (Sheet.recalculate one (sound.define "B" (some "(") none)).2
    let s := (Sheet.recalculate two (Workbook.invalidate broken)).2
    ∃ events c, s.Lives 2 events ∧ s.get? "A" = some c ∧
      (∃ f, c.fault = some f ∧ f.isDependency = true) ∧
      c.output.kind = (lastOutput "A" events).kind ∧
      ((lastOutput "A" events).samples.isSome ∧ .resized ∈ sinceOutput "A" events →
        c.output.samples = some []) := by
  intro one two sound broken s
  have sound_lives : sound.Lives 1 _ :=
    .recalculate one (.define (.define (.opened 1) "A" _ _) "B" _ _)
  have broken_lives : broken.Lives 1 _ := .recalculate one (sound_lives.define "B" _ _)
  have lives : s.Lives 2 _ := .recalculate two (broken_lives.resize 2)
  have dependency : ((s.get? "A").bind Cell.fault).map Fault.isDependency = some true := by
    decide +kernel
  obtain ⟨f, fault, dependency⟩ := Option.map_eq_some_iff.1 dependency
  obtain ⟨c, here, fault⟩ := Option.bind_eq_some_iff.1 fault
  obtain ⟨kind, -, dropped, -⟩ := (dependency_fault_freezes lives here).1 f fault dependency
  exact ⟨_, c, lives, here, ⟨f, fault, dependency⟩, kind, fun resized => (dropped resized).1⟩

end MonteCarloSheet
