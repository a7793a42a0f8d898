import MonteCarloSheet.Proofs.Sheet.AtRest
import MonteCarloSheet.Proofs.Sheet.Moves

/-! Descents along stuck cells.

Evaluations of cells that mean something are calm: they spare the stuck cells, and
change each cell at most once (`Calm`). When a stuck cell is evaluated, calm
evaluations come first, and then its formula stops: by itself, at an active cell, at
the fault of a fresh cell, or with the evaluation of the stale cell on which it
leans. So the stuck cells that are evaluated form a chain along which each leans on
the next (`Descent`), and when the last one stops the whole chain ends with one
cause (`Descent.ended`). A chain closes on itself, or it ends at a fault that does
not belong to it (`Descent.closed_or_open`). -/
namespace MonteCarloSheet

open Formula (Expr)

/-! ### Calm moves -/

theorem Cell.Observation.same_symm {a b : Observation} (h : a.same b = true) :
    b.same a = true := by
  have numbers : ∀ {x y : Option Float}, sameNumber x y = true → sameNumber y x = true := by
    intro x y h
    cases x <;> cases y <;> simp_all [sameNumber]
    exact Number.same_symm h
  simp only [same, Bool.and_eq_true, beq_iff_eq] at h ⊢
  obtain ⟨⟨⟨⟨⟨⟨⟨m, d⟩, k⟩, v⟩, e⟩, l⟩, u⟩, n⟩ := h
  exact ⟨⟨⟨⟨⟨⟨⟨m.symm, d.symm⟩, k.symm⟩, numbers v⟩, numbers e⟩, numbers l⟩, numbers u⟩, n.symm⟩

theorem Sheet.Still.processed {s t : Sheet} {x : String} (h : s.Still t x) :
    t.Processed x ↔ s.Processed x := by
  have same := h.map (f := Cell.processed) fun _ => rfl
  have known : ∀ u : Sheet, u.Processed x ↔ (u.get? x).map Cell.processed = some true := by
    intro u
    rw [Option.map_eq_some_iff]
    rfl
  rw [known, known, same]

/-- The cycle has reached the cell, and it carries a fault with the given cause. -/
def Sheet.Carries (s : Sheet) (x cause : String) : Prop :=
  ∃ c f, s.get? x = some c ∧ c.processed = true ∧ c.fault = some f ∧ f.cause = cause

theorem Sheet.Still.carries {s t : Sheet} {x cause : String} (h : s.Still t x) :
    t.Carries x cause ↔ s.Carries x cause := by
  have known : ∀ {u v : Sheet}, u.Still v x → u.Carries x cause → v.Carries x cause := by
    rintro u v still ⟨c, f, here, processed, fault, same⟩
    obtain ⟨d, there, equal⟩ := still.get? here
    refine ⟨d, f, there, ?_, ?_, same⟩
    · rw [Cell.eq_of_still equal (f := Cell.processed) fun _ => rfl, processed]
    · rw [Cell.eq_of_still equal (f := Cell.fault) fun _ => rfl, fault]
  exact ⟨known (show t.Still s x from h.symm), known h⟩

/-- A sheet with the given formulas in the middle of a recalculation. -/
structure Midway (F : Formulas) (s : Sheet) : Prop where
  underway : s.Underway
  formulas : s.formulas = F

theorem Midway.steps {F : Formulas} {s t : Sheet} (h : Midway F s) (steps : Steps s t) :
    Midway F t :=
  ⟨steps.keep (fun _ _ => Sheet.Underway.step) h.underway,
    (Sheet.formulas_steps steps).trans h.formulas⟩

/-- The links of a cell that the cycle has reached are the references in its formula. -/
theorem Midway.mem_dependencies {F : Formulas} {s : Sheet} (h : Midway F s) {x y : String}
    (processed : s.Processed x) : y ∈ s.dependencies x ↔ F.Refers x y := by
  obtain ⟨c, here, reached⟩ := processed
  rw [Sheet.dependencies, here, Formulas.Refers, ← h.formulas, Sheet.formulas_of_get? here]
  change y ∈ c.dependencies ↔ _
  rw [(h.underway.reached x c here reached).links, Sheet.mem_linksOf]
  simp

section
variable (sim : Simulation) (roomOf : Expr → Nat) (F : Formulas)

/-- A cell that means something changes at most when the cycle reaches it, and only if it shows
something else then. -/
def Once (p q : Progress) : Prop :=
  ∀ x, x ∉ p.active → (∃ r, Denotes sim roomOf F x r) →
    q.sheet.version x ≠ p.sheet.version x →
      ¬ p.sheet.Processed x ∧ q.sheet.Processed x ∧
        ∀ c d, p.sheet.get? x = some c → q.sheet.get? x = some d →
          c.observation.same d.observation = false

/-- Evaluations of cells that mean something. -/
structure Calm (p q : Progress) : Prop where
  moves : Moves (fun x => ¬ Stuck sim roomOf F x) p q
  once : Once sim roomOf F p q

end

variable {sim : Simulation} {roomOf : Expr → Nat} {F : Formulas} {S : String → Prop}
  {p q r : Progress} {x y z : String} {before : Cell} {f : Fault} {chain : List String}

namespace Once

theorem refl (p : Progress) : Once sim roomOf F p p :=
  fun _ _ _ grown => (grown rfl).elim

theorem trans {S' : String → Prop} (first : Moves S p q) (second : Moves S' q r)
    (once : Once sim roomOf F p q) (again : Once sim roomOf F q r) : Once sim roomOf F p r := by
  intro x idle means grown
  have still_idle : x ∉ q.active := first.active ▸ idle
  have between : ∀ c, p.sheet.get? x = some c → ∃ d, q.sheet.get? x = some d := by
    intro c here
    refine Roster.mem_names.1 ?_
    rw [names_steps first.steps]
    exact Roster.mem_names.2 ⟨c, here⟩
  by_cases same : q.sheet.version x = p.sheet.version x
  · obtain ⟨unreached, reached, differs⟩ := again x still_idle means (same ▸ grown)
    refine ⟨fun old => unreached (old.steps first.steps), reached, fun c e here there => ?_⟩
    obtain ⟨d, middle⟩ := between c here
    rw [Sheet.version_of_get? middle, Sheet.version_of_get? here] at same
    have calm := first.shows_ x c d here middle same
    refine Bool.eq_false_iff.2 fun absurd => ?_
    have := Cell.Observation.same_trans (Cell.Observation.same_symm calm) absurd
    rw [differs d e middle there] at this
    cases this
  · obtain ⟨unreached, reached, differs⟩ := once x idle means same
    refine ⟨unreached, reached.steps second.steps, fun c e here there => ?_⟩
    obtain ⟨d, middle⟩ := between c here
    have calm : r.sheet.version x = q.sheet.version x :=
      by_contra fun further => (again x still_idle means further).1 reached
    rw [Sheet.version_of_get? there, Sheet.version_of_get? middle] at calm
    have later := second.shows_ x d e middle there calm
    refine Bool.eq_false_iff.2 fun absurd => ?_
    have := Cell.Observation.same_trans absurd (Cell.Observation.same_symm later)
    rw [differs c d here middle] at this
    cases this

/-- A cell around a move changes at most once if it does not when the cycle has reached it
before. -/
theorem around (idle : x ∉ p.active) (here : p.sheet.get? x = some before)
    (inner : Moves S (p.enter x before) q) (once : Once sim roomOf F (p.enter x before) q)
    (ending : Ending)
    (settled : (∃ r, Denotes sim roomOf F x r) → p.sheet.Processed x →
      before.changed (ending.apply before) = false) :
    Once sim roomOf F p (q.leave x before ending) := by
  intro y idle_y means grown
  by_cases self : y = x
  · subst self
    have differs : before.changed (ending.apply before) = true := by
      by_contra calm
      rw [inner.version_leave here ending, if_neg calm] at grown
      exact grown rfl
    obtain ⟨d, there, ended, fresh⟩ := inner.exists_leave here ending
    refine ⟨fun reached => ?_, ⟨d, there, Cell.processed_of_fresh fresh⟩, ?_⟩
    · rw [settled means reached] at differs
      cases differs
    · intro c e first last
      cases here.symm.trans first
      cases there.symm.trans last
      rw [Cell.ended, if_pos differs] at ended
      rw [Cell.eq_of_result (f := Cell.observation) ended fun _ => rfl]
      change before.observation.same (ending.apply before).observation = false
      simpa [Cell.changed] using differs
  · have begun := (Sheet.same_begun here self).still
    have left := inner.still_leave here ending self
    have waits : y ∉ (p.enter x before).active := Progress.idle_enter idle_y self
    rw [left.version, ← begun.version] at grown
    obtain ⟨unreached, reached, differs⟩ := once y waits means grown
    refine ⟨fun old => unreached (begun.processed.2 old), left.processed.2 reached, ?_⟩
    intro c e first last
    obtain ⟨c', begun', same⟩ := begun.get? first
    obtain ⟨e', left', same'⟩ := (show (q.leave x before ending).sheet.Still q.sheet y from
      left.symm).get? last
    rw [← Cell.eq_of_still same (f := Cell.observation) fun _ => rfl,
      ← Cell.eq_of_still same' (f := Cell.observation) fun _ => rfl]
    exact differs c' e' begun' left'

end Once

namespace Calm

theorem refl (p : Progress) : Calm sim roomOf F p p :=
  ⟨.refl _ p, .refl p⟩

theorem trans (first : Calm sim roomOf F p q) (second : Calm sim roomOf F q r) :
    Calm sim roomOf F p r :=
  ⟨first.moves.trans second.moves, first.once.trans first.moves second.moves second.once⟩

/-- Evaluating a cell that means something is calm. -/
theorem around (sound : Sound sim roomOf F p) (tied : p.sheet.Tied) (idle : x ∉ p.active)
    (here : p.sheet.get? x = some before) (stale : before.isStale = true)
    (inner : Calm sim roomOf F (p.enter x before) q) (means : ∃ r, Denotes sim roomOf F x r)
    {ending : Ending} (right : RightEnding sim roomOf F x ending) :
    Calm sim roomOf F p (q.leave x before ending) := by
  refine ⟨inner.moves.around tied idle (fun stuck => stuck.2 means) here stale ending,
    .around idle here inner.moves inner.once ending ?_⟩
  rintro ⟨r, hr⟩ ⟨c, found, processed⟩
  cases here.symm.trans found
  have shows_ := (sound.finished x before here processed idle).shows_ r hr
  rw [Cell.changed, right.apply_eq (sound.formula_eq here) hr shows_,
    Cell.Observation.same_refl]
  rfl

/-- A stuck cell that is not active is spared. -/
theorem still (h : Calm sim roomOf F p q) (idle : x ∉ p.active) (stuck : Stuck sim roomOf F x) :
    p.sheet.Still q.sheet x :=
  h.moves.spared x idle fun not => not stuck

/-- A stuck cell is spared while another one is entered. -/
theorem still_enter (h : Calm sim roomOf F (p.enter x before) q)
    (here : p.sheet.get? x = some before) (idle : y ∉ q.active) (stuck : Stuck sim roomOf F y) :
    p.sheet.Still q.sheet y := by
  rw [h.moves.active] at idle
  have other : y ≠ x := fun same => idle (same ▸ List.mem_cons_self)
  exact (Sheet.same_begun here other).still.trans (h.still idle stuck)

end Calm

/-! ### Descents -/

section
variable (sim : Simulation) (roomOf : Expr → Nat) (F : Formulas)

/-- How the formula of an active cell stops without the evaluation of a stuck cell. -/
inductive Bottom (x : String) (q : Progress) : Fault → Prop where
  | ends {f : Fault} (ends : EndsWith sim roomOf F x f) : Bottom x q f
  | circular {y : String} (leans : Leans sim roomOf F x y) (active : y ∈ q.active)
      (reaches : F.Reaches y x) : Bottom x q (.own (.circular y))
  | leaning {y : String} {c : Cell} {g : Fault} (leans : Leans sim roomOf F x y)
      (idle : y ∉ q.active) (here : q.sheet.get? y = some c) (processed : c.processed = true)
      (fault : c.fault = some g) : Bottom x q (.inherited y g.root)

/-- The evaluations of a chain of stuck cells, one inside another, that end with the given fault
of the first one. -/
inductive Descent : List String → Progress → Fault → Progress → Prop where
  | bottom {x : String} {before : Cell} {p q : Progress} {f : Fault} (idle : x ∉ p.active)
      (here : p.sheet.get? x = some before) (stale : before.isStale = true)
      (calm : Calm sim roomOf F (p.enter x before) q) (stops : Bottom sim roomOf F x q f) :
      Descent [x] p f (q.leave x before (.failed f))
  | deeper {x y : String} {chain : List String} {before : Cell} {p q r : Progress} {g : Fault}
      (idle : x ∉ p.active) (here : p.sheet.get? x = some before) (stale : before.isStale = true)
      (calm : Calm sim roomOf F (p.enter x before) q) (leans : Leans sim roomOf F x y)
      (further : Descent (y :: chain) q g r) :
      Descent (x :: y :: chain) p (.inherited y g.root)
        (r.leave x before (.failed (.inherited y g.root)))

/-- The fault has the form that the place where the formula stops gives it. -/
structure Shape (x : String) (g : Fault) : Prop where
  ends : ∀ f, EndsWith sim roomOf F x f → g = f
  leans : ∀ y, Leans sim roomOf F x y →
    (g = .own (.circular y) ∧ F.Reaches y x) ∨ (y ≠ x ∧ ∃ root, g = .inherited y root)

end

theorem Bottom.stuck (h : Bottom sim roomOf F x q f) : Stuck sim roomOf F x := by
  cases h with
  | ends ends => exact ends.stuck
  | circular leans => exact leans.stuck_left
  | leaning leans => exact leans.stuck_left

theorem Shape.of_leans {g : Fault} (leans : Leans sim roomOf F x y)
    (form : (g = .own (.circular y) ∧ F.Reaches y x) ∨ (y ≠ x ∧ ∃ root, g = .inherited y root)) :
    Shape sim roomOf F x g := by
  refine ⟨fun f ends => (ends.not_leans leans).elim, fun z leans' => ?_⟩
  rw [← leans.unique leans']
  exact form

theorem Bottom.shape (h : Bottom sim roomOf F x q f) (active : x ∈ q.active) :
    Shape sim roomOf F x f := by
  cases h with
  | ends ends =>
    exact ⟨fun f' ends' => ends.unique ends', fun y leans => (ends.not_leans leans).elim⟩
  | circular leans _ reaches => exact .of_leans leans (.inl ⟨rfl, reaches⟩)
  | leaning leans idle =>
    exact .of_leans leans (.inr ⟨fun same => idle (same ▸ active), _, rfl⟩)

namespace Descent

/-- The cells of a chain are stuck, and none of them is active before. -/
theorem idle (h : Descent sim roomOf F chain p f q) :
    ∀ z ∈ chain, z ∉ p.active ∧ Stuck sim roomOf F z := by
  induction h with
  | bottom idle _ _ _ stops =>
    intro z mem
    rw [List.mem_singleton.1 mem]
    exact ⟨idle, stops.stuck⟩
  | deeper idle _ _ calm leans _ ih =>
    intro z mem
    rcases List.mem_cons.1 mem with rfl | mem
    · exact ⟨idle, leans.stuck_left⟩
    · obtain ⟨waits, stuck⟩ := ih z mem
      rw [calm.moves.active] at waits
      exact ⟨fun active => waits (List.mem_cons_of_mem _ active), stuck⟩

/-- The cell that is entered first is none of those further down. -/
theorem ne_of_mem (calm : Calm sim roomOf F (p.enter x before) q)
    (further : Descent sim roomOf F chain q f r) (mem : z ∈ chain) : z ≠ x := by
  rintro rfl
  exact (further.idle z mem).1 (calm.moves.mem_active)

theorem tied_enter (tied : p.sheet.Tied) (here : p.sheet.get? x = some before)
    (calm : Calm sim roomOf F (p.enter x before) q) : q.sheet.Tied :=
  Steps.keep (fun _ _ => Sheet.Tied.step) calm.moves.steps (Sheet.Tied.step (.begin here) tied)

theorem midway_enter (midway : Midway F p.sheet) (here : p.sheet.get? x = some before)
    (calm : Calm sim roomOf F (p.enter x before) q) : Midway F q.sheet :=
  midway.steps ((Relation.ReflTransGen.single (.begin here)).trans calm.moves.steps)

/-- A descent moves the cells of the chain and cells that mean something. -/
theorem moves (h : Descent sim roomOf F chain p f q) (tied : p.sheet.Tied) :
    Moves (fun z => ¬ Stuck sim roomOf F z ∨ z ∈ chain) p q := by
  induction h with
  | bottom idle here stale calm _ =>
    exact (calm.moves.mono fun _ => .inl).around tied idle (.inr List.mem_cons_self) here stale _
  | @deeper x y chain before p q r g idle here stale calm _ _ ih =>
    have inner : Moves (fun z => ¬ Stuck sim roomOf F z ∨ z ∈ x :: y :: chain) (p.enter x before)
        r := (calm.moves.mono fun _ => .inl).trans
      ((ih (tied_enter tied here calm)).mono fun _ => Or.imp_right (List.mem_cons_of_mem _))
    exact inner.around tied idle (.inr List.mem_cons_self) here stale _

/-- The moves between entering the first cell and leaving it. -/
theorem moves_inside (tied : p.sheet.Tied) (here : p.sheet.get? x = some before)
    (calm : Calm sim roomOf F (p.enter x before) q)
    (further : Descent sim roomOf F chain q f r) :
    Moves (fun z => ¬ Stuck sim roomOf F z ∨ z ∈ chain) (p.enter x before) r :=
  (calm.moves.mono fun _ => .inl).trans (further.moves (tied_enter tied here calm))

theorem once (h : Descent sim roomOf F chain p f q) (tied : p.sheet.Tied) :
    Once sim roomOf F p q := by
  induction h with
  | bottom idle here _ calm stops =>
    exact .around idle here calm.moves calm.once _ fun means => (stops.stuck.2 means).elim
  | deeper idle here _ calm leans further ih =>
    refine .around idle here (moves_inside tied here calm further) ?_ _
      fun means => (leans.stuck_left.2 means).elim
    have tied_q := tied_enter tied here calm
    exact calm.once.trans calm.moves (further.moves tied_q) (ih tied_q)

/-- The whole chain ends with one cause, and each cell with a fault of its form. -/
theorem ended (h : Descent sim roomOf F chain p f q) (tied : p.sheet.Tied) :
    ∀ z ∈ chain, ∃ c d g, p.sheet.get? z = some c ∧ q.sheet.get? z = some d ∧
      d.processed = true ∧ d.result = (c.ended (.failed g)).result ∧ g.cause = f.cause ∧
      Shape sim roomOf F z g := by
  induction h with
  | @bottom x before p q f _ here _ calm stops =>
    intro z mem
    rw [List.mem_singleton.1 mem]
    obtain ⟨d, there, ended, fresh⟩ := calm.moves.exists_leave here (.failed f)
    exact ⟨before, d, f, here, there, Cell.processed_of_fresh fresh, ended, rfl,
      stops.shape calm.moves.mem_active⟩
  | @deeper x y chain before p q r g _ here _ calm leans further ih =>
    have inner := moves_inside tied here calm further
    intro z mem
    rcases List.mem_cons.1 mem with rfl | mem
    · obtain ⟨d, there, ended, fresh⟩ := inner.exists_leave here (.failed (.inherited y g.root))
      have other := ne_of_mem calm further List.mem_cons_self
      exact ⟨before, d, _, here, there, Cell.processed_of_fresh fresh, ended, rfl,
        .of_leans leans (.inr ⟨other, _, rfl⟩)⟩
    · obtain ⟨c, d, g', first, last, processed, ended, cause, shape⟩ :=
        ih (tied_enter tied here calm) z mem
      obtain ⟨idle, stuck⟩ := further.idle z mem
      obtain ⟨c', old, same⟩ := (show q.sheet.Still p.sheet z from
        (calm.still_enter here idle stuck).symm).get? first
      obtain ⟨d', new, same'⟩ := (inner.still_leave here (.failed (.inherited y g.root))
        (ne_of_mem calm further mem)).get? last
      refine ⟨c', d', g', old, new, ?_, ?_, cause, shape⟩
      · rw [Cell.eq_of_still same' (f := Cell.processed) fun _ => rfl, processed]
      rw [Cell.result_of_still same', ended, ← Cell.ended_result, ← Cell.result_of_still same,
        Cell.ended_result]

/-! ### Where a chain ends -/

/-- The cell that is entered first is left last, with the fault of the descent. -/
theorem head (h : Descent sim roomOf F (x :: chain) p f q) (tied : p.sheet.Tied) :
    ∃ d, q.sheet.get? x = some d ∧ d.fault = some f ∧ d.isStale = false := by
  have failed : ∀ {g : Fault} {c d : Cell}, d.result = (c.ended (.failed g)).result →
      d.fault = some g := by
    intro g c d ended
    rw [Cell.eq_of_result (f := Cell.fault) ended fun _ => rfl, Cell.ended]
    split <;> rfl
  cases h with
  | bottom _ here _ calm _ =>
    obtain ⟨d, there, ended, fresh⟩ := calm.moves.exists_leave here (.failed f)
    exact ⟨d, there, failed ended, fresh⟩
  | @deeper _ y _ before _ _ _ g _ here _ calm leans further =>
    have inner := moves_inside tied here calm further
    obtain ⟨d, there, ended, fresh⟩ := inner.exists_leave here (.failed (.inherited y g.root))
    exact ⟨d, there, failed ended, fresh⟩

/-- Each cell of a chain leans on the next one. -/
theorem linked (h : Descent sim roomOf F chain p f q) : chain.IsChain (Leans sim roomOf F) := by
  induction h with
  | bottom => exact .singleton _
  | deeper _ _ _ _ leans _ ih => exact List.isChain_cons_cons.2 ⟨leans, ih⟩

/-- A chain closes on itself or on active cells, or else it ends at a cell outside that has been
reached and has the cause that the chain gets. -/
theorem closed_or_open (h : Descent sim roomOf F chain p f q) :
    (∀ z ∈ chain, ∀ y, Leans sim roomOf F z y → y ∈ chain ∨ y ∈ p.active) ∨
      ∀ z ∈ chain, ∀ y, Leans sim roomOf F z y →
        y ∈ chain ∨ y ∉ p.active ∧ p.sheet.Carries y f.cause := by
  induction h with
  | @bottom x before p q f idle here _ calm stops =>
    cases stops with
    | ends ends =>
      left
      intro z mem y leans
      rw [List.mem_singleton.1 mem] at leans
      exact (ends.not_leans leans).elim
    | @circular y leans active =>
      left
      intro z mem y' leans'
      rw [List.mem_singleton.1 mem] at leans'
      rw [← leans.unique leans']
      rw [calm.moves.active] at active
      exact (List.mem_cons.1 active).imp_left fun self => List.mem_singleton.2 self
    | @leaning y c g leans idle_y there processed fault =>
      right
      intro z mem y' leans'
      rw [List.mem_singleton.1 mem] at leans'
      rw [← leans.unique leans']
      have still := calm.still_enter here idle_y leans.stuck
      rw [calm.moves.active] at idle_y
      exact .inr ⟨fun active => idle_y (List.mem_cons_of_mem _ active),
        still.carries.1 ⟨c, g, there, processed, fault, rfl⟩⟩
  | @deeper x y chain before p q r g idle here _ calm leans further ih =>
    rcases ih with closed | opened
    · left
      intro z mem w leans'
      rcases List.mem_cons.1 mem with rfl | mem
      · rw [← leans.unique leans']
        exact .inl (List.mem_cons_of_mem _ List.mem_cons_self)
      · rcases closed z mem w leans' with inside | active
        · exact .inl (List.mem_cons_of_mem _ inside)
        · rw [calm.moves.active] at active
          rcases List.mem_cons.1 active with rfl | active
          · exact .inl List.mem_cons_self
          · exact .inr active
    · right
      intro z mem w leans'
      rcases List.mem_cons.1 mem with rfl | mem
      · rw [← leans.unique leans']
        exact .inl (List.mem_cons_of_mem _ List.mem_cons_self)
      · rcases opened z mem w leans' with inside | ⟨idle_w, carries⟩
        · exact .inl (List.mem_cons_of_mem _ inside)
        · have still := calm.still_enter here idle_w leans'.stuck
          rw [calm.moves.active] at idle_w
          exact .inr ⟨fun active => idle_w (List.mem_cons_of_mem _ active), still.carries.1 carries⟩

/-- A cell of a chain is fresh afterwards if it does not refer to a cell above it. -/
theorem fresh_after (h : Descent sim roomOf F chain p f q) (midway : Midway F p.sheet)
    {front back : List String} (split : chain = front ++ z :: back)
    (apart : ∀ y ∈ front, ¬ F.Refers z y) : q.sheet.Fresh z := by
  induction h generalizing front with
  | bottom idle here _ calm _ =>
    cases front with
    | nil =>
      cases split
      exact calm.moves.fresh_left here _
    | cons first front =>
      cases front <;> cases split
  | @deeper x y chain before p q r g idle here stale calm leans further ih =>
    have inner := moves_inside midway.underway.tied here calm further
    cases front with
    | nil =>
      cases split
      exact inner.fresh_left here _
    | cons first front =>
      rw [List.cons_append] at split
      obtain ⟨rfl, below⟩ := List.cons.inj split
      have midway_q := midway_enter midway here calm
      have fresh := ih midway_q below fun y mem => apart y (List.mem_cons_of_mem _ mem)
      have mem : z ∈ y :: chain := below ▸ List.mem_append_cons_self
      have other := ne_of_mem calm further mem
      obtain ⟨-, d, -, -, there, -⟩ := further.ended midway_q.underway.tied z mem
      have midway_r := midway_q.steps (further.moves midway_q.underway.tied).steps
      have told : x ∉ r.sheet.dependencies z := fun link =>
        apart x List.mem_cons_self
          ((midway_r.mem_dependencies ⟨d, there, Cell.processed_of_fresh (fresh d there)⟩).1 link)
      refine (inner.same_leave here _ other fun marked => told ?_).fresh.2 fresh
      exact inner.reads_of_mem_dependents here midway.underway.tied marked.2.1

/-- A fresh cell joins a chain only after a cell that means something and that it refers to has
changed. -/
theorem stale_before (h : Descent sim roomOf F chain p f q) (midway : Midway F p.sheet)
    (mem : z ∈ chain) (fresh : p.sheet.Fresh z) :
    ∃ y, F.Refers z y ∧ ¬ Stuck sim roomOf F y ∧ q.sheet.version y ≠ p.sheet.version y := by
  induction h with
  | bottom _ here stale =>
    rw [List.mem_singleton.1 mem] at fresh
    rw [fresh _ here] at stale
    cases stale
  | @deeper x y chain before p q r g idle here stale calm leans further ih =>
    rcases List.mem_cons.1 mem with rfl | mem
    · rw [fresh _ here] at stale
      cases stale
    · have inner := moves_inside midway.underway.tied here calm further
      have midway_q := midway_enter midway here calm
      have later := (further.moves midway_q.underway.tied).grows
      -- what has changed before the first cell is left means something, so it is not that cell
      have outside : ∀ w, ¬ Stuck sim roomOf F w → p.sheet.version w < r.sheet.version w →
          (r.leave x before (.failed (.inherited y g.root))).sheet.version w ≠
            p.sheet.version w := by
        intro w free grown
        have other : w ≠ x := fun same => free (same ▸ leans.stuck_left)
        rw [(inner.still_leave here _ other).version]
        exact Nat.ne_of_gt grown
      have other := ne_of_mem calm further mem
      obtain ⟨idle_z, stuck⟩ := further.idle z mem
      have before_q : ∀ w, p.sheet.version w ≤ q.sheet.version w := fun w => by
        rw [← Sheet.version_begun here w]
        exact calm.moves.grows w
      by_cases still : q.sheet.Fresh z
      · obtain ⟨w, refers, free, grown⟩ := ih midway_q mem still
        refine ⟨w, refers, free, outside w free ?_⟩
        have := later w
        have := before_q w
        omega
      · have same : p.sheet.Same (p.enter x before).sheet z := Sheet.same_begun here other
        have begun := same.fresh.2 fresh
        rw [calm.moves.active] at idle_z
        by_contra none
        refine still ((calm.moves.fresh z idle_z begun fun w link _ => ?_).fresh.2 begun)
        by_contra grown
        have refers : F.Refers z w := by
          obtain ⟨c, -, -, there, -⟩ := (deeper idle here stale calm leans further).ended
            midway.underway.tied z (List.mem_cons_of_mem _ mem)
          rw [same.still.dependencies] at link
          exact (midway.mem_dependencies
            ⟨c, there, Cell.processed_of_fresh (fresh c there)⟩).1 link
        have free : ¬ Stuck sim roomOf F w := fun stuck => by
          by_cases active : w ∈ (p.enter x before).active
          · exact grown (calm.moves.waiting w active).still.version
          · exact grown (calm.still active stuck).version
        refine none ⟨w, refers, free, outside w free ?_⟩
        have := later w
        have := calm.moves.grows w
        have begun : (p.enter x before).sheet.version w = p.sheet.version w :=
          Sheet.version_begun here w
        omega

end Descent

end MonteCarloSheet
