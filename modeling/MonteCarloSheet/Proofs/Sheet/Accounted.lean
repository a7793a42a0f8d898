import MonteCarloSheet.Proofs.Formula.Naming
import MonteCarloSheet.Proofs.Formula.Stopping
import MonteCarloSheet.Proofs.Problem
import MonteCarloSheet.Proofs.Sheet.Accurate
import MonteCarloSheet.Proofs.Sheet.Descent

/-! Faults that are accounted for.

A fault that a cell has inherited names another cell, whose cause it has taken over.
While cells are evaluated, every cell that has been reached and is not active reads the
cell that its fault names, and as long as it is fresh that cell carries the same cause
(`Accounted`). An evaluation stops with a fault that it has just read, so a cell that
is left is accounted for (`Accounted.leave`). The others stay so, because a cell is
marked when one that it reads shows something else, and what a cell shows tells its
cause. -/
namespace MonteCarloSheet

open Formula (Expr Stop Carried)

namespace Sheet

/-- The cell carries a fault that it has inherited from the named one. -/
def Inherits (s : Sheet) (x name : String) (root : Problem) : Prop :=
  ∃ c, s.get? x = some c ∧ c.fault = some (.inherited name root)

variable {s t : Sheet} {x y name : String} {root : Problem} {before : Cell}

theorem Still.inherits (h : s.Still t x) : t.Inherits x name root ↔ s.Inherits x name root := by
  have known : ∀ u : Sheet, u.Inherits x name root ↔
      (u.get? x).map Cell.fault = some (some (.inherited name root)) := by
    intro u
    rw [Option.map_eq_some_iff]
    rfl
  rw [known, known, h.map (f := Cell.fault) fun _ => rfl]

theorem Carries.begun {cause : String} (here : s.get? x = some before) (h : s.Carries y cause) :
    (s.begun x before).Carries y cause := by
  by_cases self : y = x
  · subst self
    obtain ⟨c, f, there, -, fault, same⟩ := h
    cases here.symm.trans there
    obtain ⟨d, begun, kept, fresh⟩ := exists_begun here
    refine ⟨d, f, begun, Cell.processed_of_fresh fresh, ?_, same⟩
    rw [Cell.eq_of_result (f := Cell.fault) kept fun _ => rfl, fault]
  · exact (same_begun here self).still.carries.2 h

end Sheet

/-! ### While cells are evaluated -/

/-- What holds at each moment while cells are evaluated. -/
structure Accounted (q : Progress) : Prop where
  tied : q.sheet.Tied
  faithful : q.sheet.Faithful
  readable : q.Readable
  unquoted : q.sheet.All fun _ c => ∀ f, c.fault = some f → f.Unquoted
  named : ∀ x name root, q.sheet.Processed x → x ∉ q.active → q.sheet.Inherits x name root →
    name ∈ q.sheet.dependencies x
  agreed : ∀ x name root, q.sheet.Fresh x → x ∉ q.active → q.sheet.Inherits x name root →
    q.sheet.Carries name root.message

/-- If the cell ends with a fault that it inherits, its formula names a cell that carries the
cause. -/
def Explained (before : Cell) (q : Progress) (ending : Ending) : Prop :=
  ∀ name root, ending = .failed (.inherited name root) →
    name ∈ linksOf before.tree ∧ name ∉ q.active ∧ q.sheet.Carries name root.message

variable {S : String → Prop} {x y name : String} {root : Problem} {p q : Progress}
  {before : Cell} {ending : Ending}

theorem Ending.failed_of_fault {f : Fault} (fault : (ending.apply before).fault = some f) :
    ending = .failed f := by
  cases ending with
  | failed g =>
    cases fault
    rfl
  | settled output => cases fault
  | vacant => cases fault

/-- The fault of a cell that is left is the one with which it has ended. -/
theorem Moves.fault_left (inner : Moves S (p.enter y before) q)
    (here : p.sheet.get? y = some before) {d : Cell}
    (there : (q.leave y before ending).sheet.get? y = some d) :
    d.fault = (ending.apply before).fault := by
  obtain ⟨d', there', ended, -⟩ := inner.exists_leave here ending
  cases there.symm.trans there'
  rw [Cell.eq_of_result (f := Cell.fault) ended fun _ => rfl, Cell.ended]
  split <;> rfl

theorem Explained.unquoted (h : Explained before q ending) (faithful : before.Faithful) {f : Fault}
    (ended : ending = .failed f) : f.Unquoted := by
  cases f with
  | own p => trivial
  | inherited name root =>
    obtain ⟨link, -⟩ := h name root ended
    obtain ⟨e, tree, mem⟩ := Sheet.mem_linksOf.1 link
    exact Formula.unquoted_of_parse (faithful.symm.trans tree) mem

namespace Accounted

theorem enter (h : Accounted p) (here : p.sheet.get? y = some before) :
    Accounted (p.enter y before) where
  tied := Sheet.Tied.step (.begin here) h.tied
  faithful := Sheet.Faithful.step (.begin here) h.faithful
  readable := h.readable.enter here
  unquoted := Sheet.All.relink (h.unquoted.modify y (f := Cell.begin) fun _ hc => hc)
    _ _ fun _ _ _ _ hc => hc
  named := by
    intro x name root processed idle inherits
    have other : x ≠ y := fun same => idle (same ▸ List.mem_cons_self)
    have still := (Sheet.same_begun here other).still
    rw [show (p.enter y before).sheet.dependencies x = _ from still.dependencies]
    exact h.named x name root (still.processed.1 processed)
      (fun active => idle (List.mem_cons_of_mem _ active)) (still.inherits.1 inherits)
  agreed := by
    intro x name root fresh idle inherits
    have other : x ≠ y := fun same => idle (same ▸ List.mem_cons_self)
    have same := Sheet.same_begun here other
    exact (h.agreed x name root (same.fresh.1 fresh)
      (fun active => idle (List.mem_cons_of_mem _ active)) (same.still.inherits.1 inherits)).begun
        here

section
variable (inner : Moves S (p.enter y before) q) (here : p.sheet.get? y = some before)
  (tied : p.sheet.Tied) (idle : y ∉ p.active) (h : Accounted q)
  (unquoted : ∀ f, ending = .failed f → f.Unquoted)
include inner here h unquoted

/-- A cell that shows what it has shown when it is left carries the cause that it has carried. -/
theorem carries_left {cause : String} (carries : q.sheet.Carries y cause)
    (unchanged : ¬ before.changed (ending.apply before) = true) :
    (q.leave y before ending).sheet.Carries y cause := by
  obtain ⟨c, f, found, -, fault, rfl⟩ := carries
  obtain ⟨d, left, -, fresh⟩ := inner.exists_leave here ending
  obtain ⟨d', left', shown⟩ := inner.showsSame_left here unchanged c found
  cases left.symm.trans left'
  obtain ⟨g, ended, message⟩ := Cell.fault_of_same shown fault
  refine ⟨d, g, left, Cell.processed_of_fresh fresh, ended, ?_⟩
  rw [inner.fault_left here left] at ended
  exact Fault.cause_eq_of_message (unquoted g (Ending.failed_of_fault ended))
    (h.unquoted y c found f fault) message

theorem unquoted_left : (q.leave y before ending).sheet.All fun _ c =>
    ∀ f, c.fault = some f → f.Unquoted := by
  intro x d there f fault
  by_cases self : x = y
  · subst self
    rw [inner.fault_left here there] at fault
    exact unquoted f (Ending.failed_of_fault fault)
  · obtain ⟨c, found, same⟩ := (inner.still_leave here ending self).symm.get? there
    exact h.unquoted x c found f ((Cell.eq_of_still (f := Cell.fault) same fun _ => rfl).trans fault)

include tied in
/-- A fresh cell still agrees with the one that its fault names when another cell is left. -/
theorem agreed_other (other : x ≠ y) (fresh : (q.leave y before ending).sheet.Fresh x)
    (waits : x ∉ p.active) (inherits : (q.leave y before ending).sheet.Inherits x name root) :
    (q.leave y before ending).sheet.Carries name root.message := by
  obtain ⟨d, there, fault⟩ := inherits
  obtain ⟨c, found, -⟩ := (inner.still_leave here ending other).symm.get? there
  have unmarked := inner.not_marked here ending other found fresh
  have waiting : x ∉ q.active := inner.active ▸ Progress.idle_enter waits other
  have same := inner.same_leave here ending other unmarked
  have inherits := same.still.inherits.1 ⟨d, there, fault⟩
  have carries := h.agreed x name root (same.fresh.1 fresh) waiting inherits
  by_cases self : name = y
  · subst self
    -- a cell that reads the one that is left would have been marked if that had changed
    refine carries_left inner here h unquoted carries fun differs => unmarked ⟨differs, ?_, waiting⟩
    rw [inner.mem_dependents here tied (Roster.mem_names.2 ⟨c, found⟩)]
    exact h.named x name root ⟨c, found, Cell.processed_of_fresh (same.fresh.1 fresh c found)⟩
      waiting inherits
  · exact (inner.still_leave here ending self).carries.2 carries

end

/-- When a cell is left whose fault is explained, all cells are accounted for. -/
theorem leave (inner : Moves S (p.enter y before) q) (here : p.sheet.get? y = some before)
    (tied : p.sheet.Tied) (idle : y ∉ p.active) (h : Accounted q) (faithful : before.Faithful)
    (whole : ending.Whole) (explained : Explained before q ending) :
    Accounted (q.leave y before ending) where
  tied := Steps.keep (fun _ _ => Sheet.Tied.step) (conclude_runs y before ending q).steps h.tied
  faithful := Steps.keep (fun _ _ => Sheet.Faithful.step) (conclude_runs y before ending q).steps
    h.faithful
  readable := h.readable.leave inner idle whole
  unquoted := unquoted_left inner here h fun _ => explained.unquoted faithful
  named := by
    intro x name root processed waits inherits
    rw [inner.active_leave idle] at waits
    by_cases self : x = y
    · subst self
      obtain ⟨d, there, fault⟩ := inherits
      rw [inner.fault_left here there] at fault
      rw [inner.dependencies_left here]
      exact (explained name root (Ending.failed_of_fault fault)).1
    · have still := inner.still_leave here ending self
      rw [still.dependencies]
      exact h.named x name root (still.processed.1 processed)
        (inner.active ▸ Progress.idle_enter waits self) (still.inherits.1 inherits)
  agreed := by
    intro x name root fresh waits inherits
    rw [inner.active_leave idle] at waits
    by_cases self : x = y
    · subst self
      obtain ⟨d, there, fault⟩ := inherits
      rw [inner.fault_left here there] at fault
      obtain ⟨-, apart, carries⟩ := explained name root (Ending.failed_of_fault fault)
      refine (inner.still_leave here ending ?_).carries.2 carries
      rintro rfl
      exact apart inner.mem_active
    · exact agreed_other inner here tied h (fun _ => explained.unquoted faithful) self fresh waits
        inherits

end Accounted

/-! ### Evaluations inside one another -/

/-- Bringing a stale cell up to date keeps cells accounted for. -/
def BringsAccounted (bring : Refresh) : Prop :=
  ∀ room y p before q, Accounted p → y ∉ p.active → p.sheet.get? y = some before →
    before.isStale = true → bring room y (p.activate y) = (.ok (), q) → Accounted (q.deactivate y)

theorem carries_of_readOf {count : Nat} {s : Sheet} (processed : ∀ c, s.get? y = some c →
      c.processed = true) (read : readOf count y s = .error (.fault (.inherited name root))) :
    name = y ∧ s.Carries y root.message := by
  rw [readOf] at read
  split at read
  · cases read
  next c here =>
    split at read
    next f read' =>
      cases read
      rw [Cell.read] at read'
      split at read'
      next f fault =>
        cases read'
        exact ⟨rfl, c, f, here, processed c here, fault, rfl⟩
      next =>
        split at read'
        · split at read' <;> cases read'
        · cases read'
    · cases read

/-- If an evaluation stops with an inherited fault, the formula names a cell that carries the
cause. -/
def PassedOn (e : Expr) (x : Stop) (q : Progress) : Prop :=
  ∀ name root, x = .fault (.inherited name root) →
    name ∈ e.references ∧ name ∉ q.active ∧ q.sheet.Carries name root.message

section
variable {bring : Refresh} (brings : BringsReadable bring) (accounts : BringsAccounted bring)
include brings accounts

/-- A reference keeps cells accounted for; a fault that it passes on is that of the cell to which
it leads. -/
theorem reference_accounted (h : Accounted p) (count room : Nat) (y : String) :
    Accounted (reference count bring room y p).2 ∧
      ∀ name root, (reference count bring room y p).1 = .error (.fault (.inherited name root)) →
        name = y ∧ y ∉ (reference count bring room y p).2.active ∧
          (reference count bring room y p).2.sheet.Carries y root.message := by
  obtain ⟨f, refers⟩ | ⟨idle, fresh, refers⟩ | ⟨c, idle, here, stale, refers⟩ :=
    reference_cases count bring room y p
  · rw [refers]
    exact ⟨h, fun _ _ absurd => by cases absurd⟩
  · rw [refers]
    refine ⟨h, fun name root read => ?_⟩
    obtain ⟨same, carries⟩ := carries_of_readOf
      (fun c here => Cell.processed_of_fresh (fresh c here)) read
    exact ⟨same, idle, carries⟩
  · rw [refers]
    obtain ⟨f, brought⟩ | ⟨q, brought, moves, -, d, there, processed⟩ :=
      brings room y p c h.tied h.readable idle here stale
    · rw [brought]
      dsimp only
      rw [Progress.deactivate_activate idle]
      exact ⟨h, fun _ _ absurd => by cases absurd⟩
    · have after := accounts room y p c q h idle here stale brought
      rw [brought]
      refine ⟨after, fun name root read => ?_⟩
      obtain ⟨same, carries⟩ := carries_of_readOf (fun c found => by
        cases there.symm.trans found
        exact processed) read
      exact ⟨same, moves.active ▸ idle, carries⟩

/-- An evaluation keeps cells accounted for, and passes on faults that it has read. -/
theorem evaluate_accounted (h : Accounted p) (count room : Nat) (e : Expr)
    (g : Random.Generator) :
    Carried (fun q => Moves Anything p q ∧ Accounted q)
      (fun x q => (Moves Anything p q ∧ Accounted q) ∧ PassedOn e x q)
      (Formula.evaluate (reference count bring) count room e g p) := by
  have problem : ∀ f (q : Progress), PassedOn e (.problem f) q := fun f q _ _ absurd => by
    cases absurd
  refine Formula.evaluate_carries (fun x q computed kept => ?_) count room e
    (.inr fun q kept => ⟨kept, problem _ q⟩) (fun name mem left _ q ⟨moves, accounted⟩ => ?_)
    g p ⟨.refl _ p, h⟩
  · cases computed with
    | problem _ => exact ⟨kept, problem _ q⟩
    | missing => exact ⟨kept, fun _ _ absurd => by cases absurd⟩
  · obtain ⟨-, further, -⟩ :=
      reference_moves brings accounted.tied accounted.readable count left name
    obtain ⟨after, passes⟩ := reference_accounted brings accounts accounted count left name
    generalize reference count bring left name q = out at further after passes
    obtain ⟨x | v, q'⟩ := out
    · refine ⟨⟨moves.trans further, after⟩, fun other root same => ?_⟩
      cases same
      obtain ⟨rfl, apart, carries⟩ := passes other root rfl
      exact ⟨mem, apart, carries⟩
    · exact ⟨moves.trans further, after⟩

/-- A reevaluation ends the cell with what is explained. -/
theorem reevaluateWith_accounted (sim : Simulation) (room : Nat) (h : Accounted p)
    (here : p.sheet.get? y = some before) :
    ∃ q ending, Moves Anything (p.enter y before) q ∧ Accounted q ∧ ending.Whole ∧
      Explained before q ending ∧
      reevaluateWith sim bring room y (p.activate y) = conclude y before ending.apply q := by
  obtain ⟨q', ending', -, -, -, ends'⟩ :=
    reevaluateWith_moves sim room brings h.tied h.readable here
  have finished := conclude_ne_abandoned y before ending'.apply q'
  rw [← ends'] at finished
  have here' : (p.activate y).sheet.get? y = some before := here
  have begins : (p.activate y).onSheet (Sheet.begun · y before) = p.enter y before := rfl
  have start := h.enter here
  rw [reevaluateWith_eq sim bring room here', begins] at finished ⊢
  cases tree : before.tree with
  | error err =>
    exact ⟨_, .failed (.own (.malformed err)), .refl _ _, start, trivial,
      fun _ _ absurd => (by cases absurd), rfl⟩
  | ok e =>
    rw [tree] at finished
    dsimp only at finished ⊢
    have carried := evaluate_accounted brings accounts start sim.count room e
      (sim.source.generatorFor [y, before.formula.getD ""])
    generalize Formula.evaluate _ _ _ _ _ _ = out at finished carried
    obtain ⟨(f | _) | ⟨_ | v, g⟩, q⟩ := out
    · obtain ⟨⟨moves, accounted⟩, passes⟩ := carried
      refine ⟨q, .failed f, moves, accounted, trivial, fun name root same => ?_, rfl⟩
      cases same
      obtain ⟨mem, apart, carries⟩ := passes name root rfl
      exact ⟨Sheet.mem_linksOf.2 ⟨e, tree, mem⟩, apart, carries⟩
    · exact (finished rfl).elim
    · exact (finished rfl).elim
    · obtain ⟨moves, accounted⟩ := carried
      refine ⟨q, _, moves, accounted, ?_, fun _ _ absurd => (by cases absurd), rfl⟩
      rw [Ending.Whole, Output.reading_ofValue]
      exact Option.some_ne_none v

end

theorem refresh_accounted (sim : Simulation) (levels : Nat) :
    BringsAccounted (refresh sim levels) := by
  induction levels with
  | zero =>
    intro room y p before q _ _ _ _ brought
    cases brought
  | succ levels ih =>
    intro room y p before q h idle here stale brought
    match room with
    | 0 => cases brought
    | 1 => cases brought
    | room + 2 =>
      obtain ⟨q', ending, inner, accounted, whole, explained, ends⟩ :=
        reevaluateWith_accounted (refresh_moves sim levels) ih sim room h here
      have left := Accounted.leave inner here h.tied idle accounted (h.faithful y before here) whole
        explained
      rw [refresh_run, ends] at brought
      have last : (conclude y before ending.apply q').2 = q := by
        generalize conclude y before ending.apply q' = out at brought
        obtain ⟨_ | _ | _, q''⟩ := out <;> cases brought <;> rfl
      rw [Progress.leave, last] at left
      exact left

/-! ### Sweeps -/

theorem reevaluateAlone_accounted (sim : Simulation) {s : Sheet} (h : Accounted s.idle)
    (here : s.get? x = some before) : Accounted (s.reevaluateAlone sim x).2.idle := by
  obtain ⟨q, ending, inner, accounted, whole, explained, ends⟩ := reevaluateWith_accounted
    (p := s.idle) (refresh_moves sim s.size) (refresh_accounted sim s.size) sim sim.room h here
  obtain ⟨same, -⟩ := reevaluateAlone_eq here inner ends
  rw [same]
  exact accounted.leave inner here h.tied List.not_mem_nil (h.faithful x before here) whole
    explained

theorem sweep_accounted (sim : Simulation) (order : List String) {s : Sheet}
    (h : Accounted s.idle) : Accounted (Sheet.sweep sim order (false, s)).2.idle :=
  Sheet.sweep_induct (I := fun _ _ t => Accounted t.idle) (fun _ _ _ _ _ _ h _ => h)
    (fun _ _ _ _ _ _ _ h here _ => reevaluateAlone_accounted sim h here) h

end MonteCarloSheet
