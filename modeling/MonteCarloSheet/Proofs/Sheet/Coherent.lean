import MonteCarloSheet.Proofs.Problem
import MonteCarloSheet.Proofs.Sheet.Rounds

/-! Stuck cells agree on the cause.

A stuck cell that the cycle has reached carries a fault of the form that its formula
gives it, and a fresh one carries the cause of the cell on which it leans
(`Coherent`). An evaluation keeps this (`Coherent.evaluates`): the cells of a descent
all get one cause, and a cell outside stays fresh only if the cell on which it leans
shows the same as before. Cells that lean on one another in a circle always carry one
cause (`Uniform`). -/
namespace MonteCarloSheet

open Formula (Expr)

/-! ### Faults of one form -/

section
variable {sim : Simulation} {roomOf : Expr → Nat} {F : Formulas} {x y : String} {f g : Fault}

theorem Problem.message_circular (y : String) : (Problem.circular y).message =
    "Circular dependency detected involving cell '" ++ y ++ "'" :=
  rfl

theorem Problem.message_circular_inj {y z : String}
    (same : (Problem.circular y).message = (Problem.circular z).message) : y = z := by
  rw [message_circular, message_circular] at same
  simpa using same

/-- Two faults that the formula of a cell can give it have the same cause if they have the same
message. -/
theorem Shape.cause_eq (stuck : Stuck sim roomOf F x) (hf : Shape sim roomOf F x f)
    (hg : Shape sim roomOf F x g) (same : f.message = g.message) : f.cause = g.cause := by
  rcases stuck.cases with ⟨y, leans⟩ | ⟨e, ends⟩
  · rcases hf.leans y leans with ⟨rfl, -⟩ | ⟨-, p, rfl⟩ <;>
      rcases hg.leans y leans with ⟨rfl, -⟩ | ⟨-, q, rfl⟩
    · rfl
    · exact (Problem.message_ne_inherited (.circular y) y q same).elim
    · exact (Problem.message_ne_inherited (.circular y) y p same.symm).elim
    · simpa [Fault.message, Fault.cause, Fault.root] using same
  · rw [hf.ends e ends, hg.ends e ends]

theorem Shape.isDependency_eq (stuck : Stuck sim roomOf F x) (hf : Shape sim roomOf F x f)
    (hg : Shape sim roomOf F x g) : f.isDependency = g.isDependency := by
  rcases stuck.cases with ⟨y, leans⟩ | ⟨e, ends⟩
  · rcases hf.leans y leans with ⟨rfl, -⟩ | ⟨-, p, rfl⟩ <;>
      rcases hg.leans y leans with ⟨rfl, -⟩ | ⟨-, q, rfl⟩ <;> rfl
  · rw [hf.ends e ends, hg.ends e ends]

end

/-! ### Coherence -/

section
variable (sim : Simulation) (roomOf : Expr → Nat) (F : Formulas)

/-- Stuck cells that have been reached carry faults of their form, and fresh ones the cause of the
cells on which they lean. -/
structure Coherent (s : Sheet) : Prop where
  shaped : s.All fun x c => Stuck sim roomOf F x → c.processed = true →
    ∃ f, c.Shows (.error f) ∧ Shape sim roomOf F x f
  agrees : ∀ x y, Leans sim roomOf F x y → s.Fresh x →
    ∃ cause, s.Carries x cause ∧ s.Carries y cause

end

variable {sim : Simulation} {roomOf : Expr → Nat} {F : Formulas} {s t : Sheet} {x y : String}
  {p q : Progress} {f : Fault} {chain : List String}

theorem Sheet.Carries.processed {cause : String} (h : s.Carries x cause) : s.Processed x := by
  obtain ⟨c, f, here, processed, -, -⟩ := h
  exact ⟨c, here, processed⟩

theorem Sheet.Carries.unique {a b : String} (first : s.Carries x a) (second : s.Carries x b) :
    a = b := by
  obtain ⟨c, f, here, -, fault, rfl⟩ := first
  obtain ⟨d, g, there, -, fault', rfl⟩ := second
  cases here.symm.trans there
  cases fault.symm.trans fault'
  rfl

theorem Cell.Shows.of_still {c d : Cell} {f : Fault} (same : d.still = c.still)
    (h : c.Shows (.error f)) : d.Shows (.error f) :=
  h.of_core (Cell.eq_of_still (f := Cell.core) same fun _ => rfl)

theorem Cell.shows_of_ended {c d : Cell} {g : Fault}
    (ended : d.result = (c.ended (.failed g)).result) : d.Shows (.error g) := by
  have fault : (c.ended (.failed g)).fault = some g ∧
      (g.isDependency = false → (c.ended (.failed g)).output = .none) := by
    rw [Cell.ended]
    constructor
    · split <;> rfl
    · intro own
      split <;> exact if_neg (by rw [own]; exact Bool.false_ne_true)
  refine ⟨(Cell.eq_of_result (f := Cell.fault) ended fun _ => rfl).trans fault.1, fun own => ?_⟩
  exact (Cell.eq_of_result (f := Cell.output) ended fun _ => rfl).trans (fault.2 own)

section
variable {c : Cell} {f g : Fault} (shows_ : c.Shows (.error f))
  (same : f.isDependency = g.isDependency)
include shows_ same

/-- A fault of the same class takes nothing from the output of a cell that has failed. -/
theorem Cell.output_fail : (c.fail g).output = c.output := by
  change (if g.isDependency then c.output else .none) = c.output
  by_cases dependency : g.isDependency = true
  · exact if_pos dependency
  · rw [if_neg dependency, shows_.2 (same.trans (Bool.eq_false_iff.2 dependency))]

/-- All that a fault of the same class can change is the message. -/
theorem Cell.changed_fail : c.changed (c.fail g) = !(f.message == g.message) := by
  have output := output_fail shows_ same
  have class_ : (some f).any Fault.isDependency = (some g).any Fault.isDependency := same
  rw [changed]
  simp only [Observation.same, observation, output, shows_.1, beq_self_eq_true, sameNumber_refl,
    Bool.and_true, show (c.fail g).fault = some g from rfl, class_, Option.map_some]
  rfl

end

/-- The cells of a descent carry its cause. -/
theorem Descent.carries (h : Descent sim roomOf F chain p f q) (tied : p.sheet.Tied)
    (mem : x ∈ chain) : q.sheet.Carries x f.cause := by
  obtain ⟨c, d, g, -, there, processed, ended, cause, -⟩ := h.ended tied x mem
  exact ⟨d, g, there, processed, (Cell.shows_of_ended ended).1, cause⟩

/-- A stuck cell that is not in the chain of a descent is spared. -/
theorem Descent.still (h : Descent sim roomOf F chain p f q) (tied : p.sheet.Tied)
    (idle : x ∉ p.active) (stuck : Stuck sim roomOf F x) (apart : x ∉ chain) :
    p.sheet.Still q.sheet x :=
  (h.moves tied).spared x idle fun either => either.elim (fun free => free stuck) apart

/-- The cells on which those of a descent lean carry its cause too, if none is active before. -/
theorem Descent.carries_of_leans (h : Descent sim roomOf F chain s.idle f t.idle)
    (midway : Midway F s) (mem : x ∈ chain) (leans : Leans sim roomOf F x y) :
    t.Carries y f.cause := by
  by_cases inside : y ∈ chain
  · exact h.carries midway.underway.tied inside
  · rcases h.closed_or_open with closed | opened
    · rcases closed x mem y leans with absurd | absurd
      · exact (inside absurd).elim
      · exact (List.not_mem_nil absurd).elim
    · obtain ⟨-, carries⟩ := (opened x mem y leans).resolve_left inside
      have still := h.still midway.underway.tied List.not_mem_nil leans.stuck inside
      exact still.carries.2 carries

namespace Coherent

/-- When the sweeps begin, nothing has been reached. -/
theorem prepared (s : Sheet) : Coherent sim roomOf s.formulas s.prepared := by
  refine ⟨fun x c here _ processed => ?_, fun x y leans fresh => ?_⟩
  · rw [s.prepared_unprocessed x c here] at processed
    cases processed
  · have there : (s.formulas x).isSome := leans.stuck_left.1
    rw [← Sheet.formulas_prepared] at there
    obtain ⟨c, here⟩ := Roster.mem_names.1 (Sheet.isSome_formulas.1 there)
    have processed := Cell.processed_of_fresh (fresh c here)
    rw [s.prepared_unprocessed x c here] at processed
    cases processed

theorem shaped_of_still (h : Coherent sim roomOf F s) (still : s.Still t x) {d : Cell}
    (there : t.get? x = some d) (stuck : Stuck sim roomOf F x) (processed : d.processed = true) :
    ∃ f, d.Shows (.error f) ∧ Shape sim roomOf F x f := by
  obtain ⟨c, here, same⟩ := (show t.Still s x from still.symm).get? there
  obtain ⟨f, shows_, shape⟩ := h.shaped x c here stuck
    ((Cell.eq_of_still same (f := Cell.processed) fun _ => rfl).trans processed)
  exact ⟨f, shows_.of_still same.symm, shape⟩

/-- A stuck cell whose version is the same carries the same cause. -/
theorem carries_of_version (h : Coherent sim roomOf F s) {S : String → Prop}
    (moves : Moves S s.idle t.idle) (stuck : Stuck sim roomOf F y) {cause : String}
    (carries : s.Carries y cause) {d : Cell} {g : Fault} (there : t.get? y = some d)
    (processed : d.processed = true) (fault : d.fault = some g) (shape : Shape sim roomOf F y g)
    (version : t.version y = s.version y) : t.Carries y cause := by
  obtain ⟨c, e, here, reached, carried, rfl⟩ := carries
  obtain ⟨e', shows_, shape'⟩ := h.shaped y c here stuck reached
  cases carried.symm.trans shows_.1
  rw [Sheet.version_of_get? here, Sheet.version_of_get? there] at version
  obtain ⟨g', fault', message⟩ := Cell.fault_of_same (moves.shows_ y c d here there version) carried
  cases fault.symm.trans fault'
  exact ⟨d, g, there, processed, fault, shape.cause_eq stuck shape' message⟩

theorem calm (h : Coherent sim roomOf F s) (calm : Calm sim roomOf F s.idle t.idle) :
    Coherent sim roomOf F t := by
  refine ⟨fun x d there stuck processed => ?_, fun x y leans fresh => ?_⟩
  · exact h.shaped_of_still (calm.still List.not_mem_nil stuck) there stuck processed
  · have stuck := leans.stuck_left
    obtain ⟨before, -⟩ := calm.moves.unmarked x List.not_mem_nil (fun free => free stuck) fresh
    obtain ⟨cause, own, other⟩ := h.agrees x y leans before
    exact ⟨cause, (calm.still List.not_mem_nil stuck).carries.2 own,
      (calm.still List.not_mem_nil leans.stuck).carries.2 other⟩

theorem descent (h : Coherent sim roomOf F s) (midway : Midway F s)
    (descent : Descent sim roomOf F chain s.idle f t.idle) : Coherent sim roomOf F t := by
  have tied := midway.underway.tied
  have moves := descent.moves tied
  refine ⟨fun x d there stuck processed => ?_, fun x y leans fresh => ?_⟩
  · by_cases inside : x ∈ chain
    · obtain ⟨c, e, g, -, found, -, ended, -, shape⟩ := descent.ended tied x inside
      cases there.symm.trans found
      exact ⟨g, Cell.shows_of_ended ended, shape⟩
    · exact h.shaped_of_still (descent.still tied List.not_mem_nil stuck inside) there stuck
        processed
  · by_cases inside : x ∈ chain
    · exact ⟨f.cause, descent.carries tied inside,
        descent.carries_of_leans midway inside leans⟩
    · have stuck := leans.stuck_left
      obtain ⟨before, versions⟩ := moves.unmarked x List.not_mem_nil
        (fun either => either.elim (fun free => free stuck) inside) fresh
      obtain ⟨cause, own, other⟩ := h.agrees x y leans before
      refine ⟨cause, (descent.still tied List.not_mem_nil stuck inside).carries.2 own, ?_⟩
      by_cases within_ : y ∈ chain
      · -- the cell on which it leans has been evaluated, and shows the same as before
        obtain ⟨_, d, g, -, there, processed, ended, -, shape⟩ := descent.ended tied y within_
        have version := versions y ((midway.mem_dependencies own.processed).2 leans.refers)
        exact h.carries_of_version moves leans.stuck other there processed
          (Cell.shows_of_ended ended).1 shape version
      · exact (descent.still tied List.not_mem_nil leans.stuck within_).carries.2 other

/-- Evaluations keep coherence. -/
theorem evaluates (h : Coherent sim roomOf F s) (midway : Midway F s)
    (evaluates : Evaluates sim roomOf F x s.idle t.idle) : Coherent sim roomOf F t := by
  cases evaluates with
  | calm _ calm => exact h.calm calm
  | descent descent => exact h.descent midway descent

theorem later (h : Coherent sim roomOf F s) (midway : Midway F s) (later : Later sim roomOf F s t) :
    Coherent sim roomOf F t :=
  later.keep midway (fun _ _ _ midway evaluates h => h.evaluates midway evaluates) h

end Coherent

/-! ### Circles -/

/-- Cells that lean on one another in a circle carry one cause once the cycle has reached them. -/
def Uniform (sim : Simulation) (roomOf : Expr → Nat) (F : Formulas) (s : Sheet) : Prop :=
  ∀ x y, Stuck sim roomOf F x → Relation.ReflTransGen (Leans sim roomOf F) x y →
    Relation.ReflTransGen (Leans sim roomOf F) y x → s.Processed x →
      ∃ cause, s.Carries x cause ∧ s.Carries y cause

/-- On the way from a cell inside to one outside there is a step that leads out. -/
theorem exists_crossing {α : Type} {r : α → α → Prop} {inside : α → Prop} {a b : α}
    (h : Relation.ReflTransGen r a b) (start : inside a) (outside : ¬ inside b) :
    ∃ c d, Relation.ReflTransGen r a c ∧ inside c ∧ r c d ∧ ¬ inside d ∧
      Relation.ReflTransGen r d b := by
  induction h with
  | refl => exact (outside start).elim
  | @tail c d first last ih =>
    by_cases here : inside c
    · exact ⟨c, d, first, here, last, outside, .refl⟩
    · obtain ⟨e, g, before, inside_e, step, outside_g, after⟩ := ih here
      exact ⟨e, g, before, inside_e, step, outside_g, after.tail last⟩

namespace Uniform

theorem prepared (s : Sheet) : Uniform sim roomOf s.formulas s.prepared := by
  rintro x y - - - ⟨c, here, processed⟩
  rw [s.prepared_unprocessed x c here] at processed
  cases processed

theorem stuck_right (stuck : Stuck sim roomOf F x)
    (back : Relation.ReflTransGen (Leans sim roomOf F) y x) : Stuck sim roomOf F y := by
  rcases Relation.ReflTransGen.cases_head back with rfl | ⟨z, leans, -⟩
  · exact stuck
  · exact leans.stuck_left

theorem calm (h : Uniform sim roomOf F s) (calm : Calm sim roomOf F s.idle t.idle) :
    Uniform sim roomOf F t := by
  intro x y stuck there back processed
  have still := calm.still List.not_mem_nil stuck
  obtain ⟨cause, own, other⟩ := h x y stuck there back (still.processed.1 processed)
  have stuck_y := stuck_right stuck back
  exact ⟨cause, still.carries.2 own, (calm.still List.not_mem_nil stuck_y).carries.2 other⟩

/-- A cell outside a descent on a circle with one inside carries the cause of the descent. -/
theorem carries_outside (h : Uniform sim roomOf F s) (midway : Midway F s)
    (descent : Descent sim roomOf F chain s.idle f t.idle) (inside : x ∈ chain)
    (outside : y ∉ chain) (there : Relation.ReflTransGen (Leans sim roomOf F) x y)
    (back : Relation.ReflTransGen (Leans sim roomOf F) y x) : t.Carries y f.cause := by
  have tied := midway.underway.tied
  have stuck := (descent.idle x inside).2
  obtain ⟨a, b, first, inside_a, leans, outside_b, last⟩ := exists_crossing there inside outside
  have carries := descent.carries_of_leans midway inside_a leans
  have still_b := descent.still tied List.not_mem_nil leans.stuck outside_b
  have still_y := descent.still tied List.not_mem_nil (stuck_right stuck back) outside
  obtain ⟨cause, own, other⟩ := h b y leans.stuck last ((back.trans first).tail leans)
    (still_b.processed.1 carries.processed)
  rw [carries.unique (still_b.carries.2 own)]
  exact still_y.carries.2 other

theorem evaluates (h : Uniform sim roomOf F s) (midway : Midway F s) {z : String}
    (evaluates : Evaluates sim roomOf F z s.idle t.idle) : Uniform sim roomOf F t := by
  cases evaluates with
  | calm _ calm => exact h.calm calm
  | @descent chain f descent =>
    generalize z :: chain = chain at descent
    have tied := midway.underway.tied
    intro x y stuck there back processed
    have stuck_y := stuck_right stuck back
    by_cases inside : x ∈ chain <;> by_cases inside_y : y ∈ chain
    · exact ⟨f.cause, descent.carries tied inside, descent.carries tied inside_y⟩
    · exact ⟨f.cause, descent.carries tied inside,
        h.carries_outside midway descent inside inside_y there back⟩
    · exact ⟨f.cause, h.carries_outside midway descent inside_y inside back there,
        descent.carries tied inside_y⟩
    · have still := descent.still tied List.not_mem_nil stuck inside
      have still_y := descent.still tied List.not_mem_nil stuck_y inside_y
      obtain ⟨cause, own, other⟩ := h x y stuck there back (still.processed.1 processed)
      exact ⟨cause, still.carries.2 own, still_y.carries.2 other⟩

theorem later (h : Uniform sim roomOf F s) (midway : Midway F s) (later : Later sim roomOf F s t) :
    Uniform sim roomOf F t :=
  later.keep midway (fun _ _ _ midway evaluates h => h.evaluates midway evaluates) h

end Uniform

end MonteCarloSheet
