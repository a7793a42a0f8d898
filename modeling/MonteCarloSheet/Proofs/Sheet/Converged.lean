import MonteCarloSheet.Proofs.Sheet.Coherent

/-! Reevaluating a cell of a sheet that has converged.

When a recalculation has converged, no cell is stale, so the reevaluation of one cell
nests no other one, and its formula stops where it has stopped before
(`reevaluateAlone_of_fresh`). The cell keeps its result, or the cause of its fault; only
a cell that has closed a cycle itself, and so names another cell as circular, passes on
the fault of that cell instead (`reevaluation_after_convergence`). -/
namespace MonteCarloSheet

open Formula (Expr)

variable {sim : Simulation} {F : Formulas} {s : Sheet} {x : String} {before : Cell}

/-! ### After convergence -/

namespace Sheet

theorem isSettled_of_sweeps (sim : Simulation) (order : List String) (left done : Nat) (s : Sheet)
    (converged : (sweeps sim order left done s).2.1 = true) :
    (sweeps sim order left done s).2.2.isSettled = true := by
  induction left generalizing done s with
  | zero => cases converged
  | succ left ih =>
    rw [sweeps] at converged ⊢
    dsimp only at converged ⊢
    split at converged
    next last =>
      rw [if_pos last]
      exact (Bool.and_eq_true_iff.1 last).2
    next further =>
      rw [if_neg further]
      exact ih (done + 1) _ converged

theorem isSettled_of_converged {s : Sheet} {sim : Simulation}
    (converged : (s.recalculate sim).1.converged = true) : isSettled (s.recalculate sim).2 = true :=
  isSettled_of_sweeps sim s.prepared.order (sweepLimit s.prepared) 0 s.prepared converged

/-- After a recalculation that has converged, no cell is stale. -/
theorem fresh_of_converged {s : Sheet} (h : s.Reachable) {sim : Simulation}
    (converged : (s.recalculate sim).1.converged = true) (x : String) :
    (s.recalculate sim).2.Fresh x := by
  intro c here
  have settled := isSettled_of_converged converged
  rw [isSettled, List.all_eq_true] at settled
  have calm := settled _ (Roster.mem_entries.2 here)
  obtain ⟨d, there, processed⟩ := (recalculate_reaches sim h).2 x
    (names_recalculate sim s ▸ Roster.mem_names.2 ⟨c, here⟩)
  cases here.symm.trans there
  exact fresh_iff.2 ⟨by simpa using calm, processed⟩

end Sheet

/-! ### Reevaluating one cell -/

/-- If no other cell is stale, a reference in the formula of the cell evaluates nothing. -/
theorem reference_of_fresh {roomOf : Expr → Nat} {name : String} (bring : Refresh) (room : Nat)
    (sound : Sound sim roomOf F s.idle) (here : s.get? x = some before)
    (others : ∀ y, y ≠ x → s.Fresh y) (refers : F.Refers x name) :
    (reference sim.count bring room name (s.idle.enter x before)).2 = s.idle.enter x before ∧
      (¬ Stuck sim roomOf F name → Reads sim roomOf F name
        (reference sim.count bring room name (s.idle.enter x before)).1) ∧
      (Stuck sim roomOf F name →
        ∃ f, (reference sim.count bring room name (s.idle.enter x before)).1 =
            .error (.fault f) ∧
          (Leans sim roomOf F x name → Bottom sim roomOf F x (s.idle.enter x before) f)) := by
  have start : Sound sim roomOf F (s.idle.enter x before) :=
    (sound.activate x).begun here List.mem_cons_self
  refine reference_at_once bring room start refers (fun active => ?_) fun idle => ?_
  · rw [List.mem_singleton.1 active]
    exact .refl
  · have other : name ≠ x := fun self => idle (self ▸ List.mem_cons_self)
    exact (Sheet.same_begun here other).fresh.2 (others name other)

/-- If no other cell is stale, a reevaluation ends rightly with what the cell means, or its
formula stops where no stuck cell is evaluated. -/
theorem reevaluateAlone_of_fresh {roomOf : Expr → Nat} (suits : F.Suits sim.room roomOf)
    (sound : Sound sim roomOf F s.idle) (here : s.get? x = some before)
    (others : ∀ y, y ≠ x → s.Fresh y) :
    ∃ ending : Ending, ((∃ r, Denotes sim roomOf F x r ∧ RightEnding sim roomOf F x ending) ∨
        ∃ f, ending = .failed f ∧ Bottom sim roomOf F x (s.idle.enter x before) f) ∧
      (s.reevaluateAlone sim x).1 = before.changed (ending.apply before) ∧
      ∃ d, (s.reevaluateAlone sim x).2.get? x = some d ∧
        d.result = (before.ended ending).result := by
  have formula := sound.formula_eq here
  obtain ⟨q, ending, ends, tracks⟩ := reevaluateWith_tracks (p := s.idle.activate x)
    (I := fun q => q = s.idle.enter x before)
    (T := fun name f q => q = s.idle.enter x before ∧
      (Leans sim roomOf F x name → Bottom sim roomOf F x q f))
    here formula (sound.faithful x before here) rfl
    (fun e parsed => suits x _ e formula parsed) fun e parsed name mem r _ q same => by
      subst same
      obtain ⟨unmoved, reads, stops⟩ := reference_of_fresh (refresh sim s.size) r sound here others
        ⟨_, e, formula, parsed, mem⟩
      rw [unmoved]
      refine ⟨fun free => ⟨reads free, rfl⟩, fun stuck => ?_⟩
      obtain ⟨f, fault, bottom⟩ := stops stuck
      exact ⟨f, fault, rfl, bottom⟩
  have inner : q = s.idle.enter x before := by
    rcases tracks with ⟨same, -⟩ | ⟨-, -, -, -, same, -⟩ <;> exact same
  subst inner
  have still : Moves Anything (s.idle.enter x before) (s.idle.enter x before) := .refl _ _
  obtain ⟨left, reports⟩ := reevaluateAlone_eq here still ends
  obtain ⟨d, there, ended, -⟩ := still.exists_leave here ending
  rw [← left] at there
  refine ⟨ending, ?_, reports, d, there, ended⟩
  rcases tracks with ⟨-, direct⟩ | ⟨name, f, leans, rfl, -, stops⟩
  · cases direct with
    | means means right => exact .inl ⟨_, means, right⟩
    | ends stops => exact .inr ⟨_, rfl, .ends stops⟩
  · exact .inr ⟨f, rfl, stops leans⟩

/-- The fault that the formula of a fresh cell stops with again has the cause and the class of the
one that the cell carries. The message is the same, unless the cell has closed a cycle. -/
theorem Coherent.stops_again {roomOf : Expr → Nat} (h : Coherent sim roomOf F s) (fresh : s.Fresh x)
    {c : Cell} (here : s.get? x = some c) {q : Progress} (active : q.active = [x])
    (still : ∀ y, y ≠ x → s.Still q.sheet y) {f : Fault} (stops : Bottom sim roomOf F x q f) :
    ∃ g, c.Shows (.error g) ∧ g.cause = f.cause ∧ g.isDependency = f.isDependency ∧
      (g.message = f.message ∨
        ∃ z p, z ≠ x ∧ g = .own (.circular z) ∧ f = .inherited z p) := by
  obtain ⟨g, shows_, shape⟩ :=
    h.shaped x c here stops.stuck (Cell.processed_of_fresh (fresh c here))
  refine ⟨g, shows_, ?_⟩
  cases stops with
  | ends ends =>
    rw [shape.ends f ends]
    exact ⟨rfl, rfl, .inl rfl⟩
  | @circular y leans inside =>
    rw [active, List.mem_singleton] at inside
    subst inside
    rcases shape.leans y leans with ⟨rfl, -⟩ | ⟨other, -⟩
    · exact ⟨rfl, rfl, .inl rfl⟩
    · exact (other rfl).elim
  | @leaning y d e leans idle there processed fault =>
    have other : y ≠ x := fun self => idle (by rw [active, self]; exact List.mem_singleton_self x)
    obtain ⟨cause, own, carried⟩ := h.agrees x y leans fresh
    have first := (still y other).carries.1 ⟨d, e, there, processed, fault, rfl⟩
    obtain ⟨c', g', here', -, fault', same⟩ := own
    cases here.symm.trans here'
    cases shows_.1.symm.trans fault'
    have causes : g.cause = e.cause := same.trans (carried.unique first)
    rcases shape.leans y leans with ⟨rfl, -⟩ | ⟨-, p, rfl⟩
    · exact ⟨causes, rfl, .inr ⟨y, e.root, other, rfl, rfl⟩⟩
    · have messages : (Fault.inherited y p).message = (Fault.inherited y e.root).message :=
        congrArg ("Dependency '" ++ y ++ "' has an error: " ++ ·) causes
      exact ⟨causes, rfl, .inl messages⟩

section
variable {c d : Cell}

/-- A cell that ends with what it shows keeps its result. -/
theorem Cell.ended_same {ending : Ending} (same : ending.apply c = c)
    (ended : d.result = (c.ended ending).result) :
    c.changed (ending.apply c) = false ∧ d.result = c.result := by
  have calm : c.changed (ending.apply c) = false := by
    rw [same, changed, Observation.same_refl]
    rfl
  rw [Cell.ended, calm, same] at ended
  exact ⟨calm, ended⟩

/-- A cell that fails again with a fault of the same class keeps all but the fault. -/
theorem Cell.ended_failed {f g : Fault} (shows_ : c.Shows (.error f))
    (class_ : f.isDependency = g.isDependency)
    (ended : d.result = (c.ended (.failed g)).result) :
    d.status = c.status ∧ d.output = c.output ∧ d.fault = some g ∧
      c.changed ((Ending.failed g).apply c) = !(f.message == g.message) := by
  have failed := (shows_of_ended ended).1
  refine ⟨?_, ?_, failed, changed_fail shows_ class_⟩
  · rw [status, status, failed, shows_.1]
    dsimp only
    rw [class_]
  · rw [eq_of_result (f := Cell.output) ended fun _ => rfl, Cell.ended]
    split <;> exact output_fail shows_ class_

end

theorem Sound.markStale {roomOf : Expr → Nat} (sound : Sound sim roomOf F s.idle) (x : String) :
    Sound sim roomOf F (Sheet.idle (Roster.modify s x Cell.markStale)) :=
  ⟨(Sheet.formulas_modify x (f := Cell.markStale) fun _ => rfl).trans sound.formulas,
    sound.faithful.modify x fun _ hc => hc,
    sound.finished.modify x fun _ hc processed idle =>
      ⟨(hc processed idle).shows_, (hc processed idle).stuck⟩⟩

/-- A cell of a sheet that has converged, marked stale and reevaluated, keeps its status, its output
and the cause of its fault. It is not changed, unless it has closed a cycle itself: then it passes
on the fault of the cell that it has named. -/
theorem reevaluation_after_convergence {s : Sheet} (h : s.Reachable) {sim : Simulation}
    (enough : s.prepared.StraysFit sim.room)
    (converged : (s.recalculate sim).1.converged = true) {x : String} {c : Cell}
    (here : (s.recalculate sim).2.get? x = some c) :
    let again := Sheet.reevaluateAlone sim (Roster.modify (s.recalculate sim).2 x Cell.markStale) x
    ∃ d, again.2.get? x = some d ∧ d.status = c.status ∧ d.output = c.output ∧
      d.fault.map Fault.cause = c.fault.map Fault.cause ∧
      (again.1 = false ∧ d.fault.map Fault.message = c.fault.map Fault.message ∨
        again.1 = true ∧ ∃ z p, z ≠ x ∧ c.fault = some (.own (.circular z)) ∧
          d.fault = some (.inherited z p)) := by
  have fresh := Sheet.fresh_of_converged h converged
  have later := later_recalculate h enough
  have coherent := (Coherent.prepared s).later (midway_afterSweeps sim h 0) later
  have sound : Sound sim (fun _ => sim.room) s.formulas (s.recalculate sim).2.idle := by
    rw [Sheet.recalculate_afterSweeps]
    exact sound_afterSweeps h enough _
  generalize (s.recalculate sim).2 = t at *
  have marked : (Roster.modify t x Cell.markStale).get? x = some c.markStale := by
    rw [Roster.get?_modify, if_pos rfl, here]
    rfl
  have others : ∀ y, y ≠ x → (Roster.modify t x Cell.markStale).get? y = t.get? y :=
    fun y other => by rw [Roster.get?_modify, if_neg other]
  obtain ⟨ending, right, flag, d, there, ended⟩ := reevaluateAlone_of_fresh
    (fun _ _ _ _ _ => .inl rfl) (sound.markStale x) marked
    fun y other e found => fresh y e (others y other ▸ found)
  refine ⟨d, there, ?_⟩
  rw [flag]
  rcases right with ⟨r, means, right⟩ | ⟨f, rfl, stops⟩
  · have shows_ := (sound.finished x c here (Cell.processed_of_fresh (fresh x c here))
      List.not_mem_nil).shows_ r means
    have formula : s.formulas x = some c.formula := sound.formula_eq here
    have same : ending.apply c.markStale = c.markStale :=
      right.apply_eq (c := c.markStale) formula means shows_
    obtain ⟨calm, kept⟩ := Cell.ended_same same ended
    have fault : d.fault = c.fault := Cell.eq_of_result (f := Cell.fault) kept fun _ => rfl
    rw [calm, fault]
    exact ⟨Cell.eq_of_result (f := Cell.status) kept fun _ => rfl,
      Cell.eq_of_result (f := Cell.output) kept fun _ => rfl, rfl, .inl ⟨rfl, rfl⟩⟩
  · have still : ∀ y, y ≠ x → t.Still ((Sheet.idle (Roster.modify t x Cell.markStale)).enter x
        c.markStale).sheet y := by
      intro y other
      have begun := (Sheet.same_begun marked other).still
      rw [Sheet.Still, others y other] at begun
      exact begun
    obtain ⟨g, shows_, cause, class_, message⟩ :=
      coherent.stops_again (fresh x) here rfl still stops
    have shows' : c.markStale.Shows (.error g) := shows_
    obtain ⟨status, output, failed, changed⟩ := Cell.ended_failed shows' class_ ended
    rw [changed, failed, shows_.1]
    refine ⟨status, output, congrArg some cause.symm, ?_⟩
    rcases message with same | ⟨z, p, other, rfl, rfl⟩
    · rw [same, beq_self_eq_true]
      exact .inl ⟨rfl, congrArg some same.symm⟩
    · have differs : (Fault.own (.circular z)).message ≠ (Fault.inherited z p).message :=
        Problem.message_ne_inherited (.circular z) z p
      rw [beq_eq_false_iff_ne.2 differs]
      exact .inr ⟨rfl, z, p, other, rfl, rfl⟩

/-- One cell refers to itself, and another one reads it. -/
theorem reevaluation_of_two_cells :
    let s := Sheet.define (Sheet.define Roster.empty "B" (some "A * 2") none) "A" (some "A") none
    let sim : Simulation := ⟨5000, ⟨.permuted, some 1, none⟩, 980⟩
    s.Reachable ∧ s.prepared.StraysFit sim.room ∧ (s.recalculate sim).1.converged = true ∧
      ∃ c, (s.recalculate sim).2.get? "B" = some c ∧
        let again :=
          Sheet.reevaluateAlone sim (Roster.modify (s.recalculate sim).2 "B" Cell.markStale) "B"
        ∃ d, again.2.get? "B" = some d ∧ d.status = c.status ∧ d.output = c.output ∧
          d.fault.map Fault.cause = c.fault.map Fault.cause ∧
          (again.1 = false ∧ d.fault.map Fault.message = c.fault.map Fault.message ∨
            again.1 = true ∧ ∃ z p, z ≠ "B" ∧ c.fault = some (.own (.circular z)) ∧
              d.fault = some (.inherited z p)) := by
  intro s sim
  have reachable : s.Reachable := .define (.define .empty "B" _ _) "A" _ _
  have fit : s.prepared.formulas.FitIn sim.room :=
    Formulas.fitIn_of_span_le (fun _ => Sheet.isSome_formulas.1) (by decide +kernel)
  have enough : s.prepared.StraysFit sim.room := fun trail is _ => fit trail is
  have converged : (s.recalculate sim).1.converged = true := by decide +kernel
  have known : "B" ∈ s.names := by decide +kernel
  have kept : "B" ∈ (s.recalculate sim).2.names := by
    rw [Sheet.names_recalculate]
    exact known
  obtain ⟨c, here⟩ := Roster.mem_names.1 kept
  exact ⟨reachable, enough, converged, c, here,
    reevaluation_after_convergence reachable enough converged here⟩

/-- A cell that has closed a cycle changes when it is reevaluated, although the sheet has
converged. -/
theorem converged_sheet_changes :
    ¬ ∀ (s : Sheet) (_ : s.Reachable) (sim : Simulation),
      (s.recalculate sim).1.converged = true → ∀ x ∈ s.names,
        (Sheet.reevaluateAlone sim (Roster.modify (s.recalculate sim).2 x Cell.markStale) x).1 =
          false := by
  let fresh := Sheet.define (Sheet.define Roster.empty "A" (some "B") none) "B" (some "A") none
  let sim : Simulation := ⟨5000, ⟨.permuted, some 1, none⟩, 980⟩
  let s := (fresh.recalculate sim).2
  have reachable : s.Reachable := .recalculate (.define (.define .empty "A" _ _) "B" _ _) sim
  have converged : (s.recalculate sim).1.converged = true := by decide +kernel
  have known : "A" ∈ s.names := by decide +kernel
  have changes : (Sheet.reevaluateAlone sim
      (Roster.modify (s.recalculate sim).2 "A" Cell.markStale) "A").1 = true := by decide +kernel
  intro fixed
  rw [fixed s reachable sim converged "A" known] at changes
  cases changes

end MonteCarloSheet
