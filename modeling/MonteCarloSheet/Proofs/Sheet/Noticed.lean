import MonteCarloSheet.Proofs.Sheet.Moves

/-! No change goes unnoticed.

In whatever room, every evaluation while cells can be read ends with a result or a
fault and leaves the cells so, and it is a move (`refresh_moves`). So is a sweep, and
a whole recalculation: versions only grow, and a cell whose version is the one that
it had shows the same result as before. What a recalculation reports as changed
therefore holds every cell whose result differs (`changes_noticed`). -/
namespace MonteCarloSheet

open Formula (Expr Stop Ends AnswersWell ProperBy Whole)

/-- Any cell may be evaluated. -/
abbrev Anything : String → Prop :=
  fun _ => True

/-- A fault, a number or samples: what a reference can read. -/
def Cell.Readable (c : Cell) : Prop :=
  c.fault = none → c.output.reading ≠ none

/-- Cells that the cycle has reached can be read, but for the active ones. -/
def Progress.Readable (p : Progress) : Prop :=
  p.sheet.All fun id c => c.processed = true → id ∉ p.active → c.Readable

/-- An ending after which the cell can be read. -/
def Ending.Whole : Ending → Prop
  | settled output => output.reading ≠ none
  | failed _ => True
  | vacant => False

theorem Ending.Whole.readable {ending : Ending} (h : ending.Whole) (c : Cell) :
    (ending.apply c).Readable := by
  cases ending with
  | settled output => exact fun _ => h
  | failed f => exact fun absurd => by cases absurd
  | vacant => exact h.elim

namespace Progress.Readable
variable {p q : Progress} {x : String} {before : Cell}

theorem enter (h : p.Readable) (here : p.sheet.get? x = some before) :
    (p.enter x before).Readable := by
  intro y c there processed waits
  have other : y ≠ x := fun same => waits (same ▸ List.mem_cons_self)
  obtain ⟨readers, begun⟩ := Sheet.get?_begun_of_ne here other
  rw [show (p.enter x before).sheet = p.sheet.begun x before from rfl, begun] at there
  obtain ⟨d, old, rfl⟩ := Option.map_eq_some_iff.1 there
  exact h y d old processed fun active => waits (List.mem_cons_of_mem _ active)

theorem leave {S : String → Prop} (h : q.Readable) (inner : Moves S (p.enter x before) q)
    (idle : x ∉ p.active) {ending : Ending} (whole : ending.Whole) :
    (q.leave x before ending).Readable := by
  have active := inner.active_leave idle ending
  intro y
  rw [active]
  revert y
  refine concluded_all ?_ (fun _ _ hc => hc) fun _ _ _ _ hc => hc
  intro y c there processed waits
  rw [Roster.get?_modify] at there
  by_cases same : y = x
  · rw [if_pos same] at there
    obtain ⟨d, -, rfl⟩ := Option.map_eq_some_iff.1 there
    exact whole.readable d
  · rw [if_neg same] at there
    refine h y c there processed ?_
    rw [inner.active]
    exact Progress.idle_enter waits same

end Progress.Readable

/-! ### Evaluations -/

variable {bring : Refresh} {x : String} {p q : Progress} {before : Cell}

/-- Bringing a stale cell up to date is a move after which it can be read, or else it fails with a
problem and does nothing. -/
def BringsReadable (bring : Refresh) : Prop :=
  ∀ room x p before, p.sheet.Tied → p.Readable → x ∉ p.active → p.sheet.get? x = some before →
    before.isStale = true →
      (∃ f, bring room x (p.activate x) = (.error (.problem f), p.activate x)) ∨
      ∃ q, bring room x (p.activate x) = (.ok (), q) ∧ Moves Anything p (q.deactivate x) ∧
        (q.deactivate x).Readable ∧ q.sheet.Processed x

theorem read_whole {c : Cell} (h : c.Readable) (count : Nat) {s : Sheet}
    (here : s.get? x = some c) : Whole count (readOf count x s) := by
  rw [readOf, here]
  dsimp only
  rw [Cell.read]
  cases fault : c.fault with
  | some f => trivial
  | none =>
    have reading := h fault
    cases read : c.output.reading with
    | none => exact (reading read).elim
    | some v =>
      cases v with
      | number a => exact ⟨_, rfl, trivial⟩
      | samples xs =>
        by_cases fits : xs.length = 0 ∨ xs.length = count
        · dsimp only
          rw [if_pos fits]
          exact ⟨_, rfl, fits⟩
        · dsimp only
          rw [if_neg fits]
          trivial

theorem reference_moves (brings : BringsReadable bring) (tied : p.sheet.Tied)
    (readable : p.Readable) (count room : Nat) (name : String) :
    Whole count (reference count bring room name p).1 ∧
      Moves Anything p (reference count bring room name p).2 ∧
      (reference count bring room name p).2.Readable := by
  obtain ⟨f, refers⟩ | ⟨idle, fresh, refers⟩ | ⟨c, idle, here, stale, refers⟩ :=
    reference_cases count bring room name p
  · rw [refers]
    exact ⟨trivial, .refl _ p, readable⟩
  · rw [refers]
    refine ⟨?_, .refl _ p, readable⟩
    cases here : p.sheet.get? name with
    | none => rw [readOf, here]; trivial
    | some c =>
      exact read_whole (readable name c here (Cell.processed_of_fresh (fresh c here)) idle) count here
  · rw [refers]
    obtain ⟨f, brought⟩ | ⟨q, brought, moves, after, d, there, processed⟩ :=
      brings room name p c tied readable idle here stale
    · rw [brought]
      dsimp only
      rw [Progress.deactivate_activate idle]
      exact ⟨trivial, .refl _ p, readable⟩
    · rw [brought]
      have waits : name ∉ (q.deactivate name).active := moves.active ▸ idle
      have readable_d : d.Readable := after name d there processed waits
      exact ⟨read_whole readable_d count there, moves, after⟩

/-- A reevaluation moves the sheet and ends the cell so that it can be read. -/
theorem reevaluateWith_moves (sim : Simulation) (room : Nat) (brings : BringsReadable bring)
    (tied : p.sheet.Tied) (readable : p.Readable) (here : p.sheet.get? x = some before) :
    ∃ (q : Progress) (ending : Ending), Moves Anything (p.enter x before) q ∧ q.Readable ∧
      ending.Whole ∧
      reevaluateWith sim bring room x (p.activate x) = conclude x before ending.apply q := by
  have here' : (p.activate x).sheet.get? x = some before := here
  have start := readable.enter here
  have begins : (p.activate x).onSheet (Sheet.begun · x before) = p.enter x before := rfl
  have tied' : (p.enter x before).sheet.Tied := Sheet.Tied.step (.begin here) tied
  rw [reevaluateWith_eq sim bring room here', begins]
  cases before.tree with
  | error err => exact ⟨_, .failed (.own (.malformed err)), .refl _ _, start, trivial, rfl⟩
  | ok e =>
    dsimp only
    have refs : AnswersWell (fun q => Moves Anything (p.enter x before) q ∧ q.Readable)
        (fun _ => True) sim.count (reference sim.count bring) e.references := by
      intro name _ r q ⟨moves, readable⟩
      have tied : q.sheet.Tied := Steps.keep (fun _ _ => Sheet.Tied.step) moves.steps tied'
      obtain ⟨whole, further, after⟩ := reference_moves brings tied readable sim.count r name
      exact ⟨whole, fun _ _ => trivial, moves.trans further, after⟩
    obtain ⟨ends, moves, readable⟩ := Formula.evaluate_ends e refs room
      (sim.source.generatorFor [x, before.formula.getD ""]) _ ⟨.refl _ _, start⟩
    generalize Formula.evaluate _ _ _ _ _ _ = out at ends moves readable
    obtain ⟨(f | _) | ⟨v, g⟩, q⟩ := out
    · exact ⟨q, .failed f, moves, readable, trivial, rfl⟩
    · exact ends.elim
    · obtain ⟨⟨v, rfl, -⟩, -⟩ := ends
      refine ⟨q, _, moves, readable, ?_, rfl⟩
      rw [Ending.Whole, Output.reading_ofValue]
      exact Option.some_ne_none v

theorem refresh_moves (sim : Simulation) (levels : Nat) : BringsReadable (refresh sim levels) := by
  induction levels with
  | zero => exact fun room x p before _ _ _ _ _ => .inl ⟨_, rfl⟩
  | succ levels ih =>
    intro room x p before tied readable idle here stale
    match room with
    | 0 => exact .inl ⟨_, rfl⟩
    | 1 => exact .inl ⟨_, rfl⟩
    | room + 2 =>
      obtain ⟨q, ending, inner, after, whole, ends⟩ :=
        reevaluateWith_moves sim room ih tied readable here
      have moves := inner.around tied idle trivial here stale ending
      have left := after.leave inner idle whole
      have ended := conclude_ne_abandoned x before ending.apply q
      right
      rw [refresh_run, ends]
      have processed := (Sheet.processed_begun here).steps
        (inner.steps.trans (conclude_runs x before ending q).steps)
      refine ⟨(conclude x before ending.apply q).2, ?_, moves, left, processed⟩
      generalize conclude x before ending.apply q = out at ended
      obtain ⟨_ | _ | _, q'⟩ := out
      · rfl
      · rfl
      · exact (ended rfl).elim

/-! ### Sweeps -/

/-- No cell is being evaluated. -/
abbrev Sheet.idle (s : Sheet) : Progress :=
  ⟨s, []⟩

/-- A reevaluation by itself leaves the sheet as the cell leaves it, and reports whether the cell
shows something else. -/
theorem reevaluateAlone_eq {sim : Simulation} {S : String → Prop} {s : Sheet} {ending : Ending}
    (here : s.get? x = some before) (inner : Moves S (s.idle.enter x before) q)
    (ends : reevaluateWith sim (refresh sim s.size) sim.room x (s.idle.activate x) =
      conclude x before ending.apply q) :
    (s.reevaluateAlone sim x).2.idle = q.leave x before ending ∧
      (s.reevaluateAlone sim x).1 = before.changed (ending.apply before) := by
  have alone : s.reevaluateAlone sim x =
      (decide ((conclude x before ending.apply q).1 = .changed),
        (conclude x before ending.apply q).2.sheet) := by
    rw [← ends]
    rfl
  obtain ⟨c, found, same, -⟩ := inner.exists_waiting here
  rw [alone]
  refine ⟨(congrArg (Progress.mk _) (inner.active_leave List.not_mem_nil ending)).symm, ?_⟩
  rw [← Cell.changed_apply same]
  obtain ⟨calm, ends⟩ | ⟨differs, ends⟩ := conclude_cases before ending found
  · rw [ends, calm]
    rfl
  · rw [ends, differs]
    rfl

/-- A reevaluation by itself leaves the cells so that they can be read, the stale and the fresh. -/
theorem reevaluateAlone_leaves (sim : Simulation) {s : Sheet} (tied : s.Tied)
    (readable : s.idle.Readable) (here : s.get? x = some before) :
    ∃ (q : Progress) (ending : Ending), Moves Anything (s.idle.enter x before) q ∧
      (s.reevaluateAlone sim x).2.idle = q.leave x before ending ∧
      (q.leave x before ending).Readable := by
  obtain ⟨q, ending, inner, after, whole, ends⟩ := reevaluateWith_moves sim sim.room
    (refresh_moves sim s.size) (p := s.idle) tied readable here
  exact ⟨q, ending, inner, (reevaluateAlone_eq here inner ends).1,
    after.leave inner List.not_mem_nil whole⟩

theorem reevaluateAlone_moves (sim : Simulation) {s : Sheet} (tied : s.Tied)
    (readable : s.idle.Readable) (here : s.get? x = some before) (stale : before.isStale = true) :
    Moves Anything s.idle (s.reevaluateAlone sim x).2.idle ∧
      (s.reevaluateAlone sim x).2.idle.Readable ∧ (s.reevaluateAlone sim x).2.Fresh x := by
  obtain ⟨q, ending, inner, left, after⟩ := reevaluateAlone_leaves sim tied readable here
  have fresh := inner.fresh_left here ending
  rw [← left] at fresh
  rw [left]
  exact ⟨inner.around tied List.not_mem_nil trivial here stale ending, after, fresh⟩

theorem sweep_moves (sim : Simulation) (order : List String) {s : Sheet} (tied : s.Tied)
    (readable : s.idle.Readable) :
    Moves Anything s.idle (Sheet.sweep sim order (false, s)).2.idle ∧
      (Sheet.sweep sim order (false, s)).2.idle.Readable := by
  refine Sheet.sweep_induct (I := fun _ _ t => Moves Anything s.idle t.idle ∧ t.idle.Readable)
    (fun _ _ _ _ _ _ kept _ => kept) ?_ ⟨.refl _ _, readable⟩
  intro before id after flag t c _ ⟨moves, readable⟩ here stale
  have tied : t.Tied := Steps.keep (fun _ _ => Sheet.Tied.step) moves.steps tied
  obtain ⟨further, after, -⟩ := reevaluateAlone_moves sim tied readable here stale
  exact ⟨moves.trans further, after⟩

theorem sweeps_moves (sim : Simulation) (order : List String) (left done : Nat) {s : Sheet}
    (tied : s.Tied) (readable : s.idle.Readable) :
    Moves Anything s.idle (Sheet.sweeps sim order left done s).2.2.idle ∧
      (Sheet.sweeps sim order left done s).2.2.idle.Readable := by
  induction left generalizing done s with
  | zero => exact ⟨.refl _ _, readable⟩
  | succ left ih =>
    obtain ⟨first, readable⟩ := sweep_moves sim order tied readable
    rw [Sheet.sweeps]
    dsimp only
    split
    · exact ⟨first, readable⟩
    · obtain ⟨further, after⟩ := ih (done + 1)
        (Steps.keep (fun _ _ => Sheet.Tied.step) first.steps tied) readable
      exact ⟨first.trans further, after⟩

/-! ### Recalculations -/

namespace Sheet

theorem result_prepare (s : Sheet) (id x : String) :
    ((s.prepare id).get? x).map Cell.result = (s.get? x).map Cell.result := by
  have relinked : ∀ (t : Sheet) targets,
      ((t.relink id targets).get? x).map Cell.result = (t.get? x).map Cell.result := by
    intro t targets
    obtain ⟨readers, same⟩ := get?_relink_links t id targets x
    rw [same, Option.map_map]
    rfl
  rw [prepare]
  split
  · rfl
  · split
    · exact relinked s _
    · split
      · rfl
      · rw [relinked, Roster.get?_modify]
        split
        · rw [Option.map_map]
          rfl
        · rfl

/-- Before the sweeps begin, all cells are what they have come to. -/
theorem result_prepared (s : Sheet) (x : String) :
    (s.prepared.get? x).map Cell.result = (s.get? x).map Cell.result := by
  refine prepareAll_keep (I := fun t => (t.get? x).map Cell.result = (s.get? x).map Cell.result)
    (fun t id h => (result_prepare t id x).trans h) ?_
  rw [Roster.get?_map, Option.map_map]
  rfl

theorem version_prepared (s : Sheet) (x : String) : s.prepared.version x = s.version x := by
  have := congrArg (Option.map Cell.version) (result_prepared s x)
  rw [Option.map_map, Option.map_map] at this
  exact congrArg (Option.getD · 0) this

theorem mem_versionChanges {s t : Sheet} {x : String} :
    x ∈ versionChanges s t ↔ x ∈ t.names ∧ t.version x ≠ s.version x := by
  simp only [versionChanges, List.mem_map, List.mem_filter, decide_eq_true_eq]
  constructor
  · rintro ⟨⟨y, d⟩, ⟨mem, grown⟩, rfl⟩
    have here : t.get? y = some d := Roster.mem_entries.1 mem
    refine ⟨Roster.mem_names.2 ⟨d, here⟩, ?_⟩
    rw [version_of_get? here]
    exact grown
  · rintro ⟨known, grown⟩
    obtain ⟨d, here⟩ := Roster.mem_names.1 known
    rw [version_of_get? here] at grown
    exact ⟨(x, d), ⟨Roster.mem_entries.2 here, grown⟩, rfl⟩

/-- The cells that a recalculation reports as changed are those whose version has grown. -/
theorem mem_changed {sim : Simulation} {s : Sheet} {x : String} :
    x ∈ (s.recalculate sim).1.changed ↔
      x ∈ s.names ∧ (s.recalculate sim).2.version x ≠ s.version x := by
  rw [← names_recalculate sim s, ← version_prepared s x]
  exact mem_versionChanges

end Sheet

theorem readable_prepared (s : Sheet) : s.prepared.idle.Readable := by
  intro x c here processed
  rw [s.prepared_unprocessed x c here] at processed
  cases processed

end MonteCarloSheet
