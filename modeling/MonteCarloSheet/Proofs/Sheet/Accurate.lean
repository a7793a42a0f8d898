import MonteCarloSheet.Proofs.Formula.Asking
import MonteCarloSheet.Proofs.Sheet.Announced
import MonteCarloSheet.Proofs.Sheet.Firm
import MonteCarloSheet.Proofs.Sheet.Noticed

/-! Results that are up to date.

The output of a cell follows from the answers that its evaluation got, one for each
reference in its formula (`Follows`). It is accurate while each of these answers is
what the cell read still shows (`Accurate`); a cell that shows the same as before may
show a zero of the other sign. While one cell is evaluated by itself and nothing
changes that was fresh, every fresh cell without a fault is accurate and firm
(`Ongoing.steady`): a cell that is entered keeps that (`Ongoing.enter`), and so does
one that is left, if it has an output only from answers that were read from firm
cells (`Ongoing.leave`). -/
namespace MonteCarloSheet

open Formula (Answers Expr evaluateWith)

/-! ### Shown results -/

namespace Sheet

/-- What the named cell shows in the first sheet it shows in the second one. -/
def ShowsSame (s t : Sheet) (name : String) : Prop :=
  ∀ c, s.get? name = some c →
    ∃ d, t.get? name = some d ∧ c.observation.same d.observation = true

variable {s t : Sheet} {name : String}

theorem Still.showsSame (h : s.Still t name) : s.ShowsSame t name := by
  intro c here
  obtain ⟨d, there, same⟩ := h.get? here
  refine ⟨d, there, ?_⟩
  rw [Cell.eq_of_still (f := Cell.observation) same fun _ => rfl]
  exact Cell.Observation.same_refl _

theorem showsSame_begun {x : String} {before : Cell} (here : s.get? x = some before) :
    s.ShowsSame (s.begun x before) name := by
  by_cases self : name = x
  · intro c found
    subst self
    cases here.symm.trans found
    obtain ⟨d, there, same, -⟩ := exists_begun here
    refine ⟨d, there, ?_⟩
    rw [Cell.eq_of_result (f := Cell.observation) same fun _ => rfl]
    exact Cell.Observation.same_refl _
  · exact (same_begun here self).still.showsSame

end Sheet

theorem Moves.showsSame {S : String → Prop} {p q : Progress} (h : Moves S p q) {name : String}
    (version : q.sheet.version name = p.sheet.version name) : p.sheet.ShowsSame q.sheet name := by
  intro c here
  obtain ⟨d, there⟩ : ∃ d, q.sheet.get? name = some d := by
    refine Roster.mem_names.1 ?_
    rw [names_steps h.steps]
    exact Roster.mem_names.2 ⟨c, here⟩
  rw [Sheet.version_of_get? here, Sheet.version_of_get? there] at version
  exact ⟨d, there, h.shows_ name c d here there version⟩

/-- The named cell shows what was once read from it. -/
def Holds (count : Nat) (s : Sheet) (name : String) (v : Option Value) : Prop :=
  ∃ c d : Cell, s.get? name = some d ∧ c.read name count = .ok v ∧
    c.observation.same d.observation = true

theorem Holds.mono {count : Nat} {s t : Sheet} {name : String} {v : Option Value}
    (h : Holds count s name v) (same : s.ShowsSame t name) : Holds count t name v := by
  obtain ⟨c, d, here, read, shown⟩ := h
  obtain ⟨e, there, further⟩ := same d here
  exact ⟨c, e, there, read, Cell.Observation.same_trans shown further⟩

/-! ### Accurate cells -/

section
variable (sim : Simulation)

/-- The output is what the formula comes to with the given answers to its references. -/
def Follows (id : String) (formula : Option String) (output : Output) (l : Answers) : Prop :=
  ∃ e v g, Formula.parse formula = .ok e ∧ output = .ofValue e v ∧ l.Complete e.references ∧
    ∀ answers, l.Given answers →
      evaluateWith answers sim.count e.height e (sim.source.generatorFor [id, formula.getD ""]) =
        .ok (some v, g)

/-- The output of the cell follows from answers that the cells to which it is linked still show. -/
def Accurate (s : Sheet) (id : String) (c : Cell) : Prop :=
  ∃ l, Follows sim id c.formula c.output l ∧ (∀ a ∈ l, a.1 ∈ c.dependencies) ∧
    ∀ a ∈ l, ∀ v, a.2 = .ok v → Holds sim.count s a.1 v

end

theorem Accurate.mono {sim : Simulation} {s t : Sheet} {id : String} {c d : Cell}
    (h : Accurate sim s id c) (formula : d.formula = c.formula) (output : d.output = c.output)
    (links : d.dependencies = c.dependencies)
    (same : ∀ name ∈ c.dependencies, s.ShowsSame t name) : Accurate sim t id d := by
  obtain ⟨l, follows, linked, holds⟩ := h
  refine ⟨l, ?_, ?_, fun a mem v answer => (holds a mem v answer).mono (same _ (linked a mem))⟩
  · rw [formula, output]
    exact follows
  · rw [links]
    exact linked

theorem Accurate.unread {sim : Simulation} {s t : Sheet} {id : String} {c d : Cell}
    (h : Accurate sim s id c) (unread : d.unread = c.unread)
    (same : ∀ name ∈ c.dependencies, s.ShowsSame t name) : Accurate sim t id d :=
  h.mono (Cell.eq_of_part (f := Cell.formula) unread fun _ => rfl)
    (Cell.eq_of_part (f := Cell.output) unread fun _ => rfl)
    (Cell.eq_of_part (f := Cell.dependencies) unread fun _ => rfl) same

/-- Fresh cells without a fault are accurate. -/
def Sheet.UpToDate (sim : Simulation) (s : Sheet) : Prop :=
  s.All fun id c => c.isStale = false → c.fault = none → Accurate sim s id c

/-! ### While a cell is evaluated -/

/-- What holds at each moment while `x` is evaluated by itself, which has begun in the sheet `s`. -/
structure Ongoing (sim : Simulation) (s : Sheet) (x : String) (q : Progress) : Prop where
  tied : q.sheet.Tied
  faithful : q.sheet.Faithful
  readable : q.Readable
  grown : ∀ y, s.version y ≤ q.sheet.version y
  steady : Quiet s x q.sheet → q.sheet.All fun y c => c.isStale = false → y ∉ q.active →
    c.fault = none → Firm s x q y ∧ Accurate sim q.sheet y c

/-- What an evaluation has read from a cell that is not active and is firm. -/
structure Secured (sim : Simulation) (s : Sheet) (x : String) (q : Progress) (name : String)
    (v : Option Value) : Prop where
  idle : name ∉ q.active
  firm : Firm s x q name
  holds : Holds sim.count q.sheet name v

/-- If the cell ends with an output, it follows from answers that were read from firm cells, and
these are the cells that the formula names. -/
def Earned (sim : Simulation) (s : Sheet) (x y : String) (before : Cell) (q : Progress)
    (ending : Ending) : Prop :=
  ∀ output, ending = .settled output → ∃ l, Follows sim y before.formula output l ∧
    (∀ name, name ∈ linksOf before.tree ↔ name ∈ l.map Prod.fst) ∧
    ∀ a ∈ l, ∃ v, a.2 = .ok v ∧ Secured sim s x q a.1 v

section
variable {sim : Simulation} {S : String → Prop} {s : Sheet} {x y name : String} {p q r : Progress}
  {before : Cell} {v : Option Value} {ending : Ending}

theorem Secured.moves (h : Secured sim s x q name v) (moves : Moves S q r)
    (now : Quiet s x q.sheet) (later : Quiet s x r.sheet) : Secured sim s x r name v :=
  ⟨moves.active ▸ h.idle, h.firm.moves moves now later,
    h.holds.mono (moves.showsSame (h.firm.version moves now later))⟩

/-- The cells to which a cell is linked when it is left are those that its formula names. -/
theorem Moves.dependencies_left (inner : Moves S (p.enter y before) q)
    (here : p.sheet.get? y = some before) (ending : Ending) :
    (q.leave y before ending).sheet.dependencies y = linksOf before.tree := by
  obtain ⟨c, found, -⟩ := inner.exists_waiting here
  have begun : (p.enter y before).sheet.dependencies y = linksOf before.tree := by
    obtain ⟨readers, begun⟩ := Sheet.get?_begun here y
    rw [here, Option.map_some, if_pos rfl] at begun
    rw [Sheet.dependencies, show (p.enter y before).sheet.get? y = _ from begun]
    rfl
  have waiting := (inner.waiting y List.mem_cons_self).still.dependencies
  rw [← begun, ← waiting, Sheet.dependencies, Sheet.dependencies, Progress.leave]
  change
    ((Roster.get? (conclude y before ending.apply q).2.sheet y).map Cell.dependencies).getD [] = _
  rw [get?_conclude before ending found inner.mem_active, found, Option.map_some, if_pos rfl]
  split <;> exact (Sheet.links_ending ending c).1

/-- What the cell that is left shows is what it showed, unless its result has changed. -/
theorem Moves.showsSame_left (inner : Moves S (p.enter y before) q)
    (here : p.sheet.get? y = some before)
    (unchanged : ¬ before.changed (ending.apply before) = true) :
    q.sheet.ShowsSame (q.leave y before ending).sheet y := by
  intro c found
  obtain ⟨c', found', waiting, -⟩ := inner.exists_waiting here
  cases found.symm.trans found'
  obtain ⟨d, there, ended, -⟩ := inner.exists_leave here ending
  refine ⟨d, there, ?_⟩
  rw [Cell.ended, if_neg unchanged] at ended
  rw [Cell.eq_of_result (f := Cell.observation) waiting fun _ => rfl,
    Cell.eq_of_result (f := Cell.observation) ended fun _ => rfl]
  simpa [Cell.changed] using unchanged

namespace Ongoing

/-- What is read from a fresh cell that is not active is secured. -/
theorem secured (h : Ongoing sim s x q) (now : Quiet s x q.sheet) (idle : name ∉ q.active)
    (fresh : q.sheet.Fresh name) (read : readOf sim.count name q.sheet = .ok v) :
    Secured sim s x q name v := by
  rw [readOf] at read
  split at read
  · cases read
  next c there =>
    split at read
    · cases read
    next read' =>
      cases read
      have fault : c.fault = none := by
        rw [Cell.read] at read'
        split at read'
        · cases read'
        · assumption
      obtain ⟨firm, -⟩ := h.steady now name c there (fresh c there) idle fault
      exact ⟨idle, firm, c, c, there, read', Cell.Observation.same_refl _⟩

/-- The evaluation of `x` begins in a sheet in which fresh cells are accurate. -/
theorem start (tied : s.Tied) (faithful : s.Faithful) (readable : s.idle.Readable)
    (accurate : s.UpToDate sim) (here : s.get? x = some before) :
    Ongoing sim s x (s.idle.enter x before) where
  tied := Sheet.Tied.step (.begin here) tied
  faithful := Sheet.Faithful.step (.begin here) faithful
  readable := readable.enter (p := s.idle) here
  grown := fun y => (Sheet.version_begun here y).ge
  steady := by
    intro _ y c there fresh idle fault
    have other : y ≠ x := fun same => idle (same ▸ List.mem_cons_self)
    have same := Sheet.same_begun here other
    obtain ⟨d, old, unread⟩ := same.symm.get? there
    have fresh_d : d.isStale = false :=
      (Cell.eq_of_part (f := Cell.isStale) unread fun _ => rfl).trans fresh
    have fault_d : d.fault = none :=
      (Cell.eq_of_part (f := Cell.fault) unread fun _ => rfl).trans fault
    refine ⟨.start other fun e found => ?_, ?_⟩
    · cases old.symm.trans found
      exact fresh_d
    · exact (accurate y d old fresh_d fault_d).unread unread.symm
        fun _ _ => Sheet.showsSame_begun here

theorem enter (h : Ongoing sim s x p) (here : p.sheet.get? y = some before)
    (stale : before.isStale = true) : Ongoing sim s x (p.enter y before) where
  tied := Sheet.Tied.step (.begin here) h.tied
  faithful := Sheet.Faithful.step (.begin here) h.faithful
  readable := h.readable.enter here
  grown := fun z => (h.grown z).trans (Sheet.version_begun here z).ge
  steady := by
    intro now z c there fresh idle fault
    have other : z ≠ y := fun same => idle (same ▸ List.mem_cons_self)
    have waits : z ∉ p.active := fun active => idle (List.mem_cons_of_mem _ active)
    have same := Sheet.same_begun here other
    obtain ⟨d, old, unread⟩ := same.symm.get? there
    have earlier : Quiet s x p.sheet :=
      now.before h.grown fun w => (Sheet.version_begun here w).ge
    obtain ⟨firm, accurate⟩ := h.steady earlier z d old
      ((Cell.eq_of_part (f := Cell.isStale) unread fun _ => rfl).trans fresh) waits
      ((Cell.eq_of_part (f := Cell.fault) unread fun _ => rfl).trans fault)
    exact ⟨firm.enter here stale, accurate.unread unread.symm
      fun _ _ => Sheet.showsSame_begun here⟩

section
variable (inner : Moves S (p.enter y before) q) (here : p.sheet.get? y = some before)
  (tied : p.sheet.Tied) (idle : y ∉ p.active) (begun : ∀ z, s.version z ≤ p.sheet.version z)
  (ending : Ending)
include inner here tied idle begun

/-- A fresh cell is firm and accurate when another one is left, if it was before. -/
theorem steady_other (h : Ongoing sim s x q)
    (later : Quiet s x (q.leave y before ending).sheet)
    (now : Quiet s x q.sheet) {z : String} (other : z ≠ y) {d : Cell}
    (there : (q.leave y before ending).sheet.get? z = some d) (fresh : d.isStale = false)
    (waits : z ∉ p.active) (fault : d.fault = none) :
    Firm s x (q.leave y before ending) z ∧
      Accurate sim (q.leave y before ending).sheet z d := by
  obtain ⟨c, found, -⟩ := (inner.still_leave here ending other).symm.get? there
  have unmarked := inner.not_marked here ending other found fun e absurd => by
    cases there.symm.trans absurd
    exact fresh
  have waiting : z ∉ q.active := inner.active ▸ Progress.idle_enter waits other
  have same := inner.same_leave here ending other unmarked
  obtain ⟨c', found', unread⟩ := same.symm.get? there
  cases found.symm.trans found'
  obtain ⟨firm, accurate⟩ := h.steady now z c found
    ((Cell.eq_of_part (f := Cell.isStale) unread fun _ => rfl).trans fresh) waiting
    ((Cell.eq_of_part (f := Cell.fault) unread fun _ => rfl).trans fault)
  refine ⟨firm.leave inner here ending later tied idle begun, ?_⟩
  refine accurate.unread unread.symm fun name link => ?_
  by_cases self : name = y
  · subst self
    -- a linked cell would have been marked if the one that is left had changed
    refine inner.showsSame_left here fun differs => unmarked ⟨differs, ?_, waiting⟩
    rw [inner.mem_dependents here tied (Roster.mem_names.2 ⟨c, found⟩), Sheet.dependencies, found]
    exact link
  · exact (inner.still_leave here ending self).showsSame

/-- The cell that is left is firm and accurate, if it has an output from what is secured. -/
theorem steady_self (later : Quiet s x (q.leave y before ending).sheet)
    (earned : Earned sim s x y before q ending) (whole : ending.Whole) {d : Cell}
    (there : (q.leave y before ending).sheet.get? y = some d) (fault : d.fault = none) :
    Firm s x (q.leave y before ending) y ∧
      Accurate sim (q.leave y before ending).sheet y d := by
  obtain ⟨d', there', ended, -⟩ := inner.exists_leave here ending
  cases there.symm.trans there'
  have kept : ∀ {α : Type} (f : Cell → α), (∀ c, f c.result = f c) →
      (∀ c n, f { c with version := n } = f c) → f d = f (ending.apply before) := by
    intro α f keep counted
    rw [Cell.eq_of_result (f := f) ended keep, Cell.ended]
    split
    · exact counted _ _
    · rfl
  have ended_fault := kept Cell.fault (fun _ => rfl) fun _ _ => rfl
  have ended_output := kept Cell.output (fun _ => rfl) fun _ _ => rfl
  have ended_formula := kept Cell.formula (fun _ => rfl) fun _ _ => rfl
  cases ending with
  | failed f =>
    rw [fault] at ended_fault
    cases ended_fault
  | vacant => exact whole.elim
  | settled output =>
    obtain ⟨l, follows, named, secured⟩ := earned output rfl
    have links : ∀ name, name ∈ (q.leave y before (.settled output)).sheet.dependencies y ↔
        name ∈ l.map Prod.fst := fun name => by
      rw [inner.dependencies_left here]
      exact named name
    refine ⟨.done ?_ (inner.fresh_left here _) fun name link _ => ?_, l, ?_, fun a mem => ?_, ?_⟩
    · rw [inner.active_leave idle]
      exact idle
    · obtain ⟨a, mem, rfl⟩ := List.mem_map.1 ((links name).1 link)
      obtain ⟨v, -, secure⟩ := secured a mem
      exact secure.firm.leave inner here _ later tied idle begun
    · rw [ended_output, ended_formula]
      exact follows
    · have link := (links a.1).2 (List.mem_map_of_mem mem)
      rw [Sheet.dependencies, there] at link
      exact link
    · intro a mem v answer
      obtain ⟨v', answer', secure⟩ := secured a mem
      cases answer.symm.trans answer'
      refine secure.holds.mono (inner.still_leave here _ fun same => ?_).showsSame
      exact secure.idle (same ▸ inner.mem_active)

theorem leave (h : Ongoing sim s x q)
    (earned : Quiet s x q.sheet → Earned sim s x y before q ending) (whole : ending.Whole) : Ongoing sim s x (q.leave y before ending) where
  tied := Steps.keep (fun _ _ => Sheet.Tied.step) (conclude_runs y before ending q).steps h.tied
  faithful := Steps.keep (fun _ _ => Sheet.Faithful.step) (conclude_runs y before ending q).steps
    h.faithful
  readable := h.readable.leave inner idle whole
  grown := fun z => (begun z).trans (inner.grows_leave here ending z)
  steady := by
    intro later z d there fresh waits fault
    have now : Quiet s x q.sheet := later.before h.grown fun w =>
      Sheet.version_steps (conclude_runs y before ending q).steps w
    rw [inner.active_leave idle ending] at waits
    by_cases self : z = y
    · subst self
      exact steady_self inner here tied idle begun ending later (earned now) whole there fault
    · exact steady_other inner here tied idle begun ending h later now self there fresh waits fault

end

end Ongoing

/-! ### Evaluations inside one another -/

/-- Bringing a stale cell up to date keeps what holds while `x` is evaluated, and the cell is fresh
then. -/
def BringsOngoing (sim : Simulation) (s : Sheet) (x : String) (bring : Refresh) : Prop :=
  ∀ room y p before q, Ongoing sim s x p → y ∉ p.active → p.sheet.get? y = some before →
    before.isStale = true → bring room y (p.activate y) = (.ok (), q) →
      Ongoing sim s x (q.deactivate y) ∧ q.sheet.Fresh y

section
variable {bring : Refresh} (brings : BringsReadable bring) (goes : BringsOngoing sim s x bring)
include brings goes

theorem reference_ongoing (h : Ongoing sim s x p) (room : Nat) (name : String) :
    Ongoing sim s x (reference sim.count bring room name p).2 ∧
      (Quiet s x (reference sim.count bring room name p).2.sheet → ∀ v,
        (reference sim.count bring room name p).1 = .ok v →
          Secured sim s x (reference sim.count bring room name p).2 name v) := by
  obtain ⟨f, refers⟩ | ⟨idle, fresh, refers⟩ | ⟨c, idle, here, stale, refers⟩ :=
    reference_cases sim.count bring room name p
  · rw [refers]
    exact ⟨h, fun _ _ absurd => by cases absurd⟩
  · rw [refers]
    exact ⟨h, fun now v read => h.secured now idle fresh read⟩
  · rw [refers]
    obtain ⟨f, brought⟩ | ⟨q, brought, moves, -⟩ :=
      brings room name p c h.tied h.readable idle here stale
    · rw [brought]
      dsimp only
      rw [Progress.deactivate_activate idle]
      exact ⟨h, fun _ _ absurd => by cases absurd⟩
    · obtain ⟨after, fresh⟩ := goes room name p c q h idle here stale brought
      rw [brought]
      exact ⟨after, fun now v read => after.secured now (moves.active ▸ idle) fresh read⟩

/-- What was read from one reference after another is secured. -/
theorem asked_ongoing {l : Answers} (asked : Formula.Asked (reference sim.count bring) p l q)
    (h : Ongoing sim s x p) :
    Moves Anything p q ∧ Ongoing sim s x q ∧
      (Quiet s x q.sheet → ∀ a ∈ l, ∀ v, a.2 = .ok v → Secured sim s x q a.1 v) := by
  induction asked with
  | nil p => exact ⟨.refl _ p, h, fun _ _ mem => by cases mem⟩
  | @cons p room name l q _ ih =>
    obtain ⟨-, first, -⟩ := reference_moves brings h.tied h.readable sim.count room name
    obtain ⟨middle, read⟩ := reference_ongoing brings goes h room name
    obtain ⟨rest, last, secured⟩ := ih middle
    refine ⟨first.trans rest, last, fun now a mem v answer => ?_⟩
    rcases List.mem_cons.1 mem with rfl | mem
    · have between := now.before middle.grown rest.grows
      exact (read between v answer).moves rest between now
    · exact secured now a mem v answer

/-- A reevaluation ends the cell, and an output follows from what was secured. -/
theorem reevaluateWith_ongoing (room : Nat) (tied : p.sheet.Tied) (faithful : p.sheet.Faithful)
    (readable : p.Readable) (here : p.sheet.get? y = some before)
    (start : Ongoing sim s x (p.enter y before)) :
    ∃ q ending, Moves Anything (p.enter y before) q ∧ Ongoing sim s x q ∧ ending.Whole ∧
      (Quiet s x q.sheet → Earned sim s x y before q ending) ∧
      reevaluateWith sim bring room y (p.activate y) = conclude y before ending.apply q := by
  obtain ⟨q', ending', -, -, -, ends'⟩ :=
    reevaluateWith_moves sim room brings tied readable here
  have finished := conclude_ne_abandoned y before ending'.apply q'
  rw [← ends'] at finished
  have here' : (p.activate y).sheet.get? y = some before := here
  have begins : (p.activate y).onSheet (Sheet.begun · y before) = p.enter y before := rfl
  rw [reevaluateWith_eq sim bring room here', begins] at finished ⊢
  cases tree : before.tree with
  | error err =>
    exact ⟨_, .failed (.own (.malformed err)), .refl _ _, start, trivial,
      fun _ _ absurd => (by cases absurd), rfl⟩
  | ok e =>
    rw [tree] at finished
    dsimp only at finished ⊢
    obtain ⟨l, asked, again⟩ := Formula.evaluate_again (reference sim.count bring) sim.count room e
      (sim.source.generatorFor [y, before.formula.getD ""]) (p.enter y before)
    obtain ⟨moves, ongoing, secured⟩ := asked_ongoing brings goes asked start
    generalize Formula.evaluate _ _ _ _ _ _ = out at *
    obtain ⟨(f | _) | ⟨_ | v, g⟩, q⟩ := out
    · exact ⟨q, .failed f, moves, ongoing, trivial, fun _ _ absurd => (by cases absurd), rfl⟩
    · exact (finished rfl).elim
    · exact (finished rfl).elim
    · obtain ⟨complete, again⟩ := again _ rfl
      refine ⟨q, _, moves, ongoing, ?_, fun now output same => ?_, rfl⟩
      · rw [Ending.Whole, Output.reading_ofValue]
        exact Option.some_ne_none v
      · cases same
        refine ⟨l, ⟨e, v, g, ?_, rfl, complete, again⟩, fun name => ?_, fun a mem => ?_⟩
        · rw [← tree]
          exact (faithful y before here).symm
        · rw [complete.order, tree, linksOf, Expr.mem_dependencies]
        · obtain ⟨v, answer⟩ := complete.answered a mem
          exact ⟨v, answer, secured now a mem v answer⟩

end

theorem refresh_ongoing (sim : Simulation) (s : Sheet) (x : String) (levels : Nat) :
    BringsOngoing sim s x (refresh sim levels) := by
  induction levels with
  | zero =>
    intro room y p before q _ _ _ _ brought
    cases brought
  | succ levels ih =>
    intro room y p before q h idle here stale brought
    match room with
    | 0 => cases brought
    | 1 => cases brought
    | room + 2 =>
      obtain ⟨q', ending, inner, ongoing, whole, earned, ends⟩ :=
        reevaluateWith_ongoing (refresh_moves sim levels) ih room h.tied h.faithful h.readable here
          (h.enter here stale)
      have left := Ongoing.leave inner here h.tied idle h.grown ending ongoing earned whole
      have fresh := inner.fresh_left here ending
      rw [refresh_run, ends] at brought
      have last : (conclude y before ending.apply q').2 = q := by
        generalize conclude y before ending.apply q' = out at brought
        obtain ⟨_ | _ | _, q''⟩ := out <;> cases brought <;> rfl
      rw [Progress.leave, last] at left fresh
      exact ⟨left, fresh⟩

end

/-! ### A cell by itself -/

/-- If no fresh cell but the one reevaluated has changed, all that was up to date still is, and so
is the reevaluated cell. -/
theorem reevaluateAlone_upToDate (sim : Simulation) {s : Sheet} {x : String} (tied : s.Tied)
    (faithful : s.Faithful) (readable : s.idle.Readable) (accurate : s.UpToDate sim)
    (quiet : Quiet s x (s.reevaluateAlone sim x).2) :
    (s.reevaluateAlone sim x).2.idle.Readable ∧ (s.reevaluateAlone sim x).2.UpToDate sim := by
  cases here : s.get? x with
  | none =>
    have same : (s.reevaluateAlone sim x).2 = s := by
      rw [Sheet.reevaluateAlone, reevaluate, reevaluateWith, here]
    rw [same]
    exact ⟨readable, accurate⟩
  | some before =>
    obtain ⟨q, ending, inner, ongoing, whole, earned, ends⟩ :=
      reevaluateWith_ongoing (p := s.idle) (refresh_moves sim s.size)
        (refresh_ongoing sim s x s.size) sim.room tied faithful readable here
        (.start tied faithful readable accurate here)
    have left := Ongoing.leave inner here tied List.not_mem_nil (fun _ => Nat.le_refl _) ending
      ongoing earned whole
    obtain ⟨same, -⟩ := reevaluateAlone_eq here inner ends
    rw [← same] at left
    exact ⟨left.readable, fun y c there fresh fault =>
      (left.steady quiet y c there fresh List.not_mem_nil fault).2⟩

end MonteCarloSheet
