import MonteCarloSheet.Proofs.Sheet.Lives

/-! Sheets that can be worked on.

A sheet can be worked on if its links are tied, the cells that a cycle has reached can
be read, and what the cells have come to fits the sample count (`Sheet.Workable`). The
evaluations of such a sheet are told in steps. It stays workable whatever is done, be it
with the whole sheet or with one cell by itself, provided that it hears of a new sample
count. -/
namespace MonteCarloSheet

/-! ### Changes of one cell -/

namespace Cell

/-- A change of a cell that leaves its links and its fault alone, and its output too, except that
samples may lose their numbers. It takes no mark away. -/
structure Adjusts (f : Cell → Cell) : Prop where
  dependencies : ∀ c, (f c).dependencies = c.dependencies
  dependents : ∀ c, (f c).dependents = c.dependents
  yield : ∀ c, (f c).yield = c.yield ∨ (f c).yield = c.yield.invalidate
  processed : ∀ c, (f c).processed = true → c.processed = true
  marks : ∀ c, c.needsReevaluation = true → (f c).needsReevaluation = true

theorem adjusts_edit (formula name : Option String) : Adjusts (edit · formula name) := by
  constructor <;> intro c <;>
    obtain ⟨shown, same⟩ | ⟨shown, same⟩ := c.edit_cases formula name <;> rw [same]
  case yield.inl | yield.inr => exact .inl rfl
  case processed.inl | processed.inr => exact fun h => h
  case marks.inl => exact fun h => h
  case marks.inr => exact fun _ => rfl

theorem adjusts_markStale : Adjusts markStale :=
  ⟨fun _ => rfl, fun _ => rfl, fun _ => .inl rfl, fun _ h => h, fun _ _ => rfl⟩

theorem adjusts_beginCycle : Adjusts beginCycle :=
  ⟨fun _ => rfl, fun _ => rfl, fun _ => .inl rfl, fun _ h => (by cases h), fun _ h => h⟩

theorem adjusts_invalidateSamples : Adjusts invalidateSamples :=
  ⟨fun _ => rfl, fun _ => rfl, fun _ => .inr rfl, fun _ h => h, fun _ _ => rfl⟩

theorem adjusts_keepBins (bins : Nat) : Adjusts (keepBins · bins) :=
  ⟨fun _ => rfl, fun _ => rfl, fun _ => .inl rfl, fun _ h => h, fun _ h => h⟩

end Cell

theorem Output.reading_invalidate {o : Output} (h : o.reading ≠ Option.none) :
    o.invalidate.reading ≠ Option.none := by
  cases o with
  | none => exact h
  | constant x => exact h
  | distribution d xs summary => exact Option.some_ne_none _
  | vacant kept =>
    cases kept with
    | none => exact h
    | some kept => exact Option.some_ne_none _

namespace Cell.Adjusts
variable {f : Cell → Cell} {c : Cell}

theorem readable (adjusts : Adjusts f) (h : c.Readable) : (f c).Readable := by
  intro fault
  obtain same | same := adjusts.yield c
  · rw [show (f c).fault = c.fault from congrArg Yield.fault same] at fault
    rw [show (f c).output = c.output from congrArg Yield.output same]
    exact h fault
  · rw [show (f c).fault = c.fault from congrArg Yield.fault same] at fault
    rw [show (f c).output = c.output.invalidate from congrArg Yield.output same]
    exact Output.reading_invalidate (h fault)

theorem regular {count : Nat} (adjusts : Adjusts f) (h : c.yield.Regular count) :
    (f c).yield.Regular count := by
  obtain same | same := adjusts.yield c <;> rw [same]
  · exact h
  · exact h.invalidate count

end Cell.Adjusts

/-! ### Workable sheets -/

/-- The sheet can be worked on with the sample count. -/
structure Sheet.Workable (count : Nat) (s : Sheet) : Prop where
  tied : s.Tied
  readable : s.idle.Readable
  regular : s.Regular count

namespace Sheet.Workable
variable {count : Nat} {s : Sheet}

theorem empty (count : Nat) : Workable count Roster.empty :=
  ⟨.empty, fun _ _ here => (by cases here), fun _ _ here => by cases here⟩

theorem modify (h : s.Workable count) (id : String) {f : Cell → Cell} (adjusts : Cell.Adjusts f) :
    Workable count (Roster.modify s id f) where
  tied := h.tied.modify id adjusts.dependencies adjusts.dependents
  readable := by
    refine All.modify (P := fun x c => c.processed = true → x ∉ [] → c.Readable) h.readable id ?_
    exact fun c hc processed idle => adjusts.readable (hc (adjusts.processed c processed) idle)
  regular := h.regular.modify id fun _ hc => adjusts.regular hc

theorem define (h : s.Workable count) (id : String) (formula name : Option String) :
    (s.define id formula name).Workable count where
  tied := h.tied.define id formula name
  readable := All.define_reworded (fun _ _ _ _ _ _ hc => hc) (fun _ _ _ _ _ _ _ hc => hc)
    h.readable id formula name fun _ processed => by cases processed
  regular := h.regular.define_yields id formula name fun _ => Yield.regular_nothing count

theorem remove (h : s.Workable count) {id : String} {c : Cell} {s' : Sheet}
    (removed : s.remove id = some (c, s')) : s'.Workable count where
  tied := h.tied.remove removed
  readable := All.remove (fun _ _ _ _ _ _ hc => hc) h.readable removed
  regular := h.regular.remove_yields removed

theorem rewritten (h : s.Workable count) (definitions : Roster (Option String))
    (names : Roster String) : (s.rewritten definitions names).Workable count :=
  rewritten_keep (fun _ _ _ _ removed h => h.remove removed)
    (fun _ id formula name h => h.define id formula name) h definitions names

theorem prepare (h : s.Workable count) (id : String) : (s.prepare id).Workable count where
  tied := h.tied.prepare id
  readable := All.prepare (fun _ _ _ _ _ hc => hc) h.readable id
  regular := All.prepare (fun _ _ _ _ _ hc => hc) h.regular id

theorem resize (h : s.Workable count) (other : Nat) :
    (Workbook.invalidate s).Workable other where
  tied := h.tied.map (f := fun _ c => c.invalidateSamples) (fun _ _ => rfl) fun _ _ => rfl
  readable := by
    refine All.map (P := fun x c => c.processed = true → x ∉ [] → c.Readable) h.readable ?_
    exact fun _ c hc processed idle => Cell.adjusts_invalidateSamples.readable (hc processed idle)
  regular := by
    intro x c here
    rw [Workbook.invalidate, Roster.get?_map] at here
    obtain ⟨d, old, rfl⟩ := Option.map_eq_some_iff.1 here
    exact (h.regular x d old).invalidate other

/-! ### Evaluations -/

variable (sim : Simulation)

/-- A reevaluation of a cell by itself is told in steps, also if there is no such cell. -/
theorem reevaluation_steps (h : s.Workable sim.count) (id : String) (events : List Event) :
    RecordedSteps sim.count (s, events)
      ((s.reevaluateAlone sim id).2, s.recordAlone sim id events) := by
  cases here : s.get? id with
  | some c => exact recordAlone_steps sim h.tied h.readable h.regular here events
  | none =>
    rw [reevaluateAlone, MonteCarloSheet.reevaluate, reevaluateWith, recordAlone, recordedWith, here]

theorem reevaluate (h : s.Workable sim.count) (id : String) :
    (s.reevaluateAlone sim id).2.Workable sim.count := by
  have steps := h.reevaluation_steps sim id []
  refine ⟨steps.steps.keep (fun _ _ => Tied.step) h.tied, ?_, kept_regular.steps steps h.regular⟩
  cases here : s.get? id with
  | none =>
    rw [reevaluateAlone, MonteCarloSheet.reevaluate, reevaluateWith, here]
    exact h.readable
  | some before =>
    obtain ⟨q, ending, -, left, after⟩ := reevaluateAlone_leaves sim h.tied h.readable here
    rw [left]
    exact after

theorem recalculate (h : s.Workable sim.count) : (s.recalculate sim).2.Workable sim.count where
  tied := h.tied.recalculate sim
  readable := (sweeps_moves sim s.prepared.order (sweepLimit s.prepared) 0 h.tied.prepared
    (readable_prepared s)).2
  regular := kept_regular.steps (record_steps sim h.tied h.regular []) h.regular.prepared_yields

end Sheet.Workable

end MonteCarloSheet
