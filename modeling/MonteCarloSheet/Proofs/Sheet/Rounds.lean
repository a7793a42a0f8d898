import MonteCarloSheet.Proofs.Sheet.Descending
import MonteCarloSheet.Proofs.Sheet.Unnested

/-! Sweeps as rounds of evaluations.

A sheet is later than another one if evaluations of single cells, one after another,
lead to it (`Later`); what one evaluation keeps holds later (`Later.keep`). A sweep is
a round of evaluations in which each cell is fresh at some moment (`Round`), if the
trails of references that leave the straight cells fit in the room
(`sweep_round`). -/
namespace MonteCarloSheet

open Formula (Expr)

section
variable (sim : Simulation) (roomOf : Expr → Nat) (F : Formulas)

/-- Evaluations of single cells, one after another, lead from one sheet to the other. -/
abbrev Later : Sheet → Sheet → Prop :=
  Relation.ReflTransGen fun s t => ∃ x, Evaluates sim roomOf F x s.idle t.idle

/-- At some moment between the two sheets the cell is fresh. -/
def FreshBetween (s t : Sheet) (x : String) : Prop :=
  ∃ m, Later sim roomOf F s m ∧ Later sim roomOf F m t ∧ m.Fresh x

end

variable {sim : Simulation} {roomOf : Expr → Nat} {F : Formulas} {s t u : Sheet} {x : String}

namespace Later

/-- What each evaluation keeps holds later. -/
theorem keep {I : Sheet → Prop} (h : Later sim roomOf F s t) (midway : Midway F s)
    (step : ∀ s t x, Midway F s → Evaluates sim roomOf F x s.idle t.idle → I s → I t)
    (start : I s) : I t := by
  suffices both : Midway F t ∧ I t from both.2
  induction h with
  | refl => exact ⟨midway, start⟩
  | @tail m t _ last ih =>
    obtain ⟨x, evaluates⟩ := last
    obtain ⟨midway_m, hm⟩ := ih
    exact ⟨midway_m.steps (evaluates.moves midway_m.underway.tied).steps,
      step m t x midway_m evaluates hm⟩

theorem moves (h : Later sim roomOf F s t) (midway : Midway F s) :
    Moves Anything s.idle t.idle :=
  h.keep midway (I := fun t => Moves Anything s.idle t.idle)
    (fun _ _ _ midway evaluates moves => moves.trans (evaluates.moves midway.underway.tied))
    (.refl _ _)

theorem midway (h : Later sim roomOf F s t) (midway : Midway F s) : Midway F t :=
  midway.steps (h.moves midway).steps

/-- Over any number of evaluations, a cell that means something changes at most once. -/
theorem once (h : Later sim roomOf F s t) (midway : Midway F s) :
    Once sim roomOf F s.idle t.idle := by
  have both := h.keep midway
    (I := fun t => Moves Anything s.idle t.idle ∧ Once sim roomOf F s.idle t.idle)
    (fun m t x midway evaluates ⟨moves, once⟩ => by
      have further := evaluates.moves midway.underway.tied
      exact ⟨moves.trans further, once.trans moves further (evaluates.once midway.underway.tied)⟩)
    ⟨.refl _ _, .refl _⟩
  exact both.2

end Later

/-! ### Sweeps -/

/-- A trail whose second cell is not straight. -/
def Strays (u : Sheet) (trail : List String) : Prop :=
  ∃ front y x, trail = front ++ [y, x] ∧ ¬ u.Straight y

/-- What a sweep from one sheet has done to it when it has passed a part of the order. -/
structure Round (sim : Simulation) (roomOf : Expr → Nat) (F : Formulas) (u s : Sheet)
    (passed : List String) (flag : Bool) (t : Sheet) : Prop where
  unmoved : Unmoved u passed t
  sound : Sound sim roomOf F t.idle
  later : Later sim roomOf F s t
  fresh : ∀ x ∈ passed, FreshBetween sim roomOf F s t x
  reported : flag = true → ∃ x, s.version x < t.version x

section
variable {before after : List String} {id : String} {flag : Bool} {c : Cell}

/-- A reference that finds a cell stale while the next cell of the order is evaluated leaves the
straight cells. -/
theorem Unmoved.strays (ready : Ready F u) (split : u.order = before ++ id :: after)
    (h : Unmoved u before t) (here : t.get? id = some c) {q : Progress}
    (calm : Calm sim roomOf F (t.idle.enter id c) q) {y : String} (refers : F.Refers id y)
    (stale : ¬ q.sheet.Fresh y) : Strays u [y, id] := by
  refine ⟨[], y, id, rfl, fun straight => stale fun d there => ?_⟩
  have begun : Steps u (t.idle.enter id c).sheet := h.steps.tail (.begin here)
  have fresh : ∀ x ∈ before, u.Straight x → (t.idle.enter id c).sheet.Fresh x := by
    intro x mem straight
    by_cases self : x = id
    · rw [self]
      intro e found
      obtain ⟨e', found', -, fresh⟩ := Sheet.exists_begun here
      cases found.symm.trans found'
      exact fresh
    · exact (Sheet.same_begun here self).fresh.2 (h.fresh x mem straight)
  have known : y ∈ u.names := by
    rw [← names_steps (begun.trans calm.moves.steps)]
    exact Roster.mem_names.2 ⟨d, there⟩
  have mem := ready.mem_passed split refers known straight
  have same := calm.moves.straight_same ready begun split fresh y mem straight
  exact same.fresh.2 (fresh y mem straight) d there

theorem Round.visit (ready : Ready F u) (nestable : Nestable sim roomOf F (Strays u))
    (suits : F.Suits sim.room roomOf) (split : u.order = before ++ id :: after)
    (h : Round sim roomOf F u s before flag t) (midway : Midway F s)
    (here : t.get? id = some c) (stale : c.isStale = true) :
    Round sim roomOf F u s (before ++ [id]) (flag || (t.reevaluateAlone sim id).1)
      (t.reevaluateAlone sim id).2 := by
  have midway_t := h.later.midway midway
  obtain ⟨evaluates, sound, fresh, reports⟩ := reevaluateAlone_evaluates nestable suits h.sound
    midway_t here stale fun q y calm refers stale => h.unmoved.strays ready split here calm refers
      stale
  have further : Later sim roomOf F t (t.reevaluateAlone sim id).2 := .single ⟨id, evaluates⟩
  refine ⟨h.unmoved.visit sim ready split here stale, sound, h.later.trans further, ?_, ?_⟩
  · intro x mem
    rcases List.mem_append.1 mem with mem | self
    · obtain ⟨m, first, rest, fresh⟩ := h.fresh x mem
      exact ⟨m, first, rest.trans further, fresh⟩
    · rw [List.mem_singleton.1 self]
      exact ⟨_, h.later.trans further, .refl, fresh⟩
  · intro changed
    have moved := (further.moves midway_t).grows
    have before := (h.later.moves midway).grows
    rcases Bool.or_eq_true_iff.1 changed with old | now
    · obtain ⟨x, grown⟩ := h.reported old
      exact ⟨x, grown.trans_le (moved x)⟩
    · have differs := reports.1 now
      exact ⟨id, (before id).trans_lt (lt_of_le_of_ne (moved id) (Ne.symm differs))⟩

/-- A sweep is a round of evaluations, in which each cell is fresh at some moment. -/
theorem sweep_round (ready : Ready F u) (nestable : Nestable sim roomOf F (Strays u))
    (suits : F.Suits sim.room roomOf) (midway : Midway F s) (start : Unmoved u [] s)
    (sound : Sound sim roomOf F s.idle) :
    Round sim roomOf F u s u.order (Sheet.sweep sim u.order (false, s)).1
      (Sheet.sweep sim u.order (false, s)).2 := by
  refine Sheet.sweep_induct (I := fun before flag t => Round sim roomOf F u s before flag t)
    ?_ ?_ ⟨start, sound, .refl, fun _ absurd => (List.not_mem_nil absurd).elim,
      fun absurd => (by cases absurd)⟩
  · intro before id after flag t split h fresh
    refine ⟨h.unmoved.skip fresh, h.sound, h.later, fun x mem => ?_, h.reported⟩
    rcases List.mem_append.1 mem with mem | self
    · exact h.fresh x mem
    · rw [List.mem_singleton.1 self]
      exact ⟨t, h.later, .refl, fresh⟩
  · exact fun before id after flag t c split h here stale =>
      h.visit ready nestable suits split midway here stale

end

/-! ### Recalculations -/

/-- Every trail of references whose second cell is not straight fits in the room. -/
def Sheet.StraysFit (s : Sheet) (room : Nat) : Prop :=
  ∀ trail, s.formulas.Trail trail → Strays s trail → s.formulas.span trail ≤ room + 2

theorem nestable_prepared {s : Sheet} (enough : s.prepared.StraysFit sim.room) :
    Nestable sim (fun _ => sim.room) s.formulas (Strays s.prepared) := by
  refine nestable_of_entry fun front y x is bent => ?_
  rw [← Sheet.formulas_prepared] at is ⊢
  exact enough _ is ⟨front, y, x, rfl, bent⟩

theorem midway_afterSweeps (sim : Simulation) {s : Sheet} (h : s.Reachable) (n : Nat) :
    Midway s.formulas (s.afterSweeps sim n) :=
  (⟨h.underway, Sheet.formulas_prepared s⟩ : Midway s.formulas s.prepared).steps
    (unmoved_afterSweeps sim h n).steps

section
variable {s : Sheet} (h : s.Reachable) (enough : s.prepared.StraysFit sim.room)
include h enough

theorem sound_afterSweeps (n : Nat) :
    Sound sim (fun _ => sim.room) s.formulas (s.afterSweeps sim n).idle := by
  induction n with
  | zero => exact sound_prepared h
  | succ n ih =>
    have round := sweep_round (Sheet.ready_prepared h) (nestable_prepared enough)
      (fun _ _ _ _ _ => .inl rfl) (midway_afterSweeps sim h n) (unmoved_afterSweeps sim h n) ih
    exact round.sound

/-- Each sweep of a recalculation is a round. -/
theorem round_afterSweeps (n : Nat) :
    Round sim (fun _ => sim.room) s.formulas s.prepared (s.afterSweeps sim n) s.prepared.order
      (Sheet.sweep sim s.prepared.order (false, s.afterSweeps sim n)).1
      (s.afterSweeps sim (n + 1)) :=
  sweep_round (Sheet.ready_prepared h) (nestable_prepared enough) (fun _ _ _ _ _ => .inl rfl)
    (midway_afterSweeps sim h n) (unmoved_afterSweeps sim h n) (sound_afterSweeps h enough n)

theorem later_afterSweeps (n : Nat) :
    Later sim (fun _ => sim.room) s.formulas s.prepared (s.afterSweeps sim n) := by
  induction n with
  | zero => exact .refl
  | succ n ih => exact ih.trans (round_afterSweeps h enough n).later

/-- Evaluations of single cells lead from the beginning of the sweeps to the end. -/
theorem later_recalculate :
    Later sim (fun _ => sim.room) s.formulas s.prepared (s.recalculate sim).2 := by
  rw [Sheet.recalculate_afterSweeps]
  exact later_afterSweeps h enough _

end

end MonteCarloSheet
