import Mathlib.Order.WellFounded
import MonteCarloSheet.Proofs.Sheet.Coherent

/-! Cells that come to rest.

A cell rests if its result does not change any more, whatever is evaluated later
(`Rests`). A cell that has been reached rests if it means something, or if its formula
stops with a fault of its own; and a round brings a cell to rest if all other cells
that it refers to rest (`Turned.rests_of_refers`). If no cell lies on two cycles, then
in each round one more cell comes to rest (`Turned.rests_one`). Among the last cells that do not
rest, each refers to just one other of them. If one of them leans elsewhere, on a cell
that rests, it takes over its cause for good; else they lean on one another in a circle
(`Knot.ring`), where one of them can only pass on the cause that they share
(`Ring.rests_one`). -/
namespace MonteCarloSheet

open Formula (Expr)

/-- Each cell has one reference at most through which it can come back to itself: no cell lies on
two cycles. -/
def Formulas.Unshared (F : Formulas) : Prop :=
  ∀ x y z, F.Refers x y → F.Reaches y x → F.Refers x z → F.Reaches z x → y = z

section
variable (sim : Simulation) (roomOf : Expr → Nat) (F : Formulas)

/-- Whatever is evaluated later, the result of the cell does not change. -/
def Rests (s : Sheet) (x : String) : Prop :=
  ∀ t, Later sim roomOf F s t → t.version x = s.version x

/-- A round of evaluations from one sheet to the other, in which each cell is fresh once. -/
structure Turned (s t : Sheet) : Prop where
  later : Later sim roomOf F s t
  fresh : ∀ x, (F x).isSome → FreshBetween sim roomOf F s t x

/-- What holds in the middle of a recalculation once all cells have been reached. -/
structure Steady (s : Sheet) : Prop where
  midway : Midway F s
  coherent : Coherent sim roomOf F s
  uniform : Uniform sim roomOf F s
  reached : ∀ x, (F x).isSome → s.Processed x

end

variable {sim : Simulation} {roomOf : Expr → Nat} {F : Formulas} {s t m : Sheet} {x y z : String}
  {cause : String}

theorem Rests.later (h : Rests sim roomOf F s x) (later : Later sim roomOf F s t) :
    Rests sim roomOf F t x :=
  fun u further => (h u (later.trans further)).trans (h t later).symm

namespace Steady

theorem evaluates (h : Steady sim roomOf F s)
    (evaluates : Evaluates sim roomOf F x s.idle t.idle) : Steady sim roomOf F t := by
  have steps := (evaluates.moves h.midway.underway.tied).steps
  exact ⟨h.midway.steps steps, h.coherent.evaluates h.midway evaluates,
    h.uniform.evaluates h.midway evaluates, fun x there => (h.reached x there).steps steps⟩

theorem later (h : Steady sim roomOf F s) (later : Later sim roomOf F s t) :
    Steady sim roomOf F t :=
  later.keep h.midway (fun _ _ _ _ evaluates h => h.evaluates evaluates) h

/-- A cell rests if each evaluation keeps its version, and with it what it takes to keep it. -/
theorem rests_of_keep (h : Steady sim roomOf F s) {I : Sheet → Prop}
    (step : ∀ s t y, Steady sim roomOf F s → Evaluates sim roomOf F y s.idle t.idle → I s → I t)
    (version : ∀ s t y, Steady sim roomOf F s → Evaluates sim roomOf F y s.idle t.idle → I s → I t →
      t.version x = s.version x)
    (start : I s) : Rests sim roomOf F s x := by
  intro t later
  have both := later.keep h.midway
    (I := fun t => Steady sim roomOf F t ∧ I t ∧ t.version x = s.version x)
    (fun m t y _ evaluates ⟨steady, hm, same⟩ => by
      have ht := step m t y steady evaluates hm
      exact ⟨steady.evaluates evaluates, ht, (version m t y steady evaluates hm ht).trans same⟩)
    ⟨h, start, rfl⟩
  exact both.2.2

/-- A cell that is not stuck rests. -/
theorem rests_of_free (h : Steady sim roomOf F s) (free : ¬ Stuck sim roomOf F x) :
    Rests sim roomOf F s x := by
  intro t later
  by_cases there : (F x).isSome
  · have means : ∃ r, Denotes sim roomOf F x r := by_contra fun none => free ⟨there, none⟩
    by_contra grown
    exact (later.once h.midway x List.not_mem_nil means grown).1 (h.reached x there)
  · have absent : ∀ u : Sheet, Midway F u → u.version x = 0 := fun u midway => by
      refine Sheet.version_of_absent fun known => there ?_
      rw [← midway.formulas]
      exact Sheet.isSome_formulas.2 known
    rw [absent t (later.midway h.midway), absent s h.midway]

/-- The version of a stuck cell stays if its fault keeps the message. -/
theorem version_eq (h : Steady sim roomOf F s)
    (evaluates : Evaluates sim roomOf F y s.idle t.idle) (stuck : Stuck sim roomOf F x)
    (same : ∀ f g, s.Carries x f.cause → t.Carries x g.cause → Shape sim roomOf F x f →
      Shape sim roomOf F x g → f.message = g.message) : t.version x = s.version x := by
  have tied := h.midway.underway.tied
  cases evaluates with
  | calm _ calm => exact (calm.still List.not_mem_nil stuck).version
  | @descent chain e descent =>
    by_cases inside : x ∈ y :: chain
    · obtain ⟨c, d, g, here, there, processed, ended, -, shape⟩ := descent.ended tied x inside
      have reached : c.processed = true := by
        obtain ⟨c', found, reached⟩ := h.reached x stuck.1
        cases here.symm.trans found
        exact reached
      obtain ⟨f, shows_, shape'⟩ := h.coherent.shaped x c here stuck reached
      have message := same f g ⟨c, f, here, reached, shows_.1, rfl⟩
        ⟨d, g, there, processed, (Cell.shows_of_ended ended).1, rfl⟩ shape' shape
      have calm : c.changed ((Ending.failed g).apply c) = false := by
        refine (Cell.changed_fail shows_ (shape'.isDependency_eq stuck shape)).trans ?_
        rw [message, beq_self_eq_true]
        rfl
      rw [Sheet.version_of_get? there, Sheet.version_of_get? here,
        Cell.eq_of_result (f := Cell.version) ended fun _ => rfl, Cell.version_ended, calm]
      rfl
    · exact (descent.still tied List.not_mem_nil stuck inside).version

/-- A cell whose formula stops with a fault of its own rests. -/
theorem rests_of_ends (h : Steady sim roomOf F s) {f : Fault}
    (ends : EndsWith sim roomOf F x f) : Rests sim roomOf F s x :=
  h.rests_of_keep (I := fun _ => True) (fun _ _ _ _ _ _ => trivial)
    (fun s t y steady evaluates _ _ => steady.version_eq evaluates ends.stuck
      fun g g' _ _ shape shape' => by rw [shape.ends f ends, shape'.ends f ends])
    trivial

/-- A fresh cell stays as it is if all other cells that it refers to rest. -/
theorem same_of_refers (h : Steady sim roomOf F s) (fresh : s.Fresh x)
    (rest : ∀ y, F.Refers x y → y ≠ x → Rests sim roomOf F s y) (later : Later sim roomOf F s t) :
    s.Same t x := by
  refine (later.moves h.midway).fresh x List.not_mem_nil fresh fun y link other => ?_
  cases here : s.get? x with
  | none =>
    rw [Sheet.dependencies_of_absent here] at link
    cases link
  | some c =>
    have refers := (h.midway.mem_dependencies
      ⟨c, here, Cell.processed_of_fresh (fresh c here)⟩).1 link
    exact rest y refers other t later

end Steady

/-- A round brings a cell to rest, fresh, if all other cells that it refers to rest. -/
theorem Turned.rests_of_refers (turned : Turned sim roomOf F s t) (h : Steady sim roomOf F s)
    (there : (F x).isSome) (rest : ∀ y, F.Refers x y → y ≠ x → Rests sim roomOf F s y) :
    Rests sim roomOf F t x ∧ t.Fresh x := by
  obtain ⟨m, first, last, fresh⟩ := turned.fresh x there
  have steady := h.later first
  have resting := fun y refers other => (rest y refers other).later first
  refine ⟨fun u further => ?_, (steady.same_of_refers fresh resting last).fresh.2 fresh⟩
  rw [(steady.same_of_refers fresh resting (last.trans further)).still.version,
    (steady.same_of_refers fresh resting last).still.version]

/-! ### Leaning on a cell that rests -/

/-- The fault that a cell passes on has the same message as long as it has the same cause. -/
theorem Shape.message_eq {f g : Fault} (leans : Leans sim roomOf F x y)
    (hf : Shape sim roomOf F x f) (hg : Shape sim roomOf F x g)
    (other : f ≠ .own (.circular y)) (other' : g ≠ .own (.circular y)) (same : f.cause = g.cause) :
    f.message = g.message := by
  obtain ⟨-, p, rfl⟩ := (hf.leans y leans).resolve_left fun own => other own.1
  obtain ⟨-, q, rfl⟩ := (hg.leans y leans).resolve_left fun own => other' own.1
  exact congrArg ("Dependency '" ++ y ++ "' has an error: " ++ ·) same

namespace Steady

/-- A stuck cell that rests carries the same cause. -/
theorem carries_of_rests (h : Steady sim roomOf F s)
    (evaluates : Evaluates sim roomOf F z s.idle t.idle) (stuck : Stuck sim roomOf F y)
    (rests : Rests sim roomOf F s y) (carries : s.Carries y cause) : t.Carries y cause := by
  have after := h.evaluates evaluates
  obtain ⟨d, there, processed⟩ := after.reached y stuck.1
  obtain ⟨g, shows_, shape⟩ := after.coherent.shaped y d there stuck processed
  exact h.coherent.carries_of_version (evaluates.moves h.midway.underway.tied) stuck carries there
    processed shows_.1 shape (rests t (.single ⟨z, evaluates⟩))

/-- A fresh cell that leans on one that rests and that does not lead back to it rests. -/
theorem rests_of_leans (h : Steady sim roomOf F s) (fresh : s.Fresh x)
    (leans : Leans sim roomOf F x y) (rests : Rests sim roomOf F s y) (away : ¬ F.Reaches y x) :
    Rests sim roomOf F s x := by
  obtain ⟨cause, own, other⟩ := h.coherent.agrees x y leans fresh
  refine h.rests_of_keep
    (I := fun t => t.Carries x cause ∧ t.Carries y cause ∧ Rests sim roomOf F t y) ?_ ?_
    ⟨own, other, rests⟩
  · intro s t z h evaluates ⟨own, other, rests⟩
    have kept := h.carries_of_rests evaluates leans.stuck rests other
    refine ⟨?_, kept, rests.later (.single ⟨z, evaluates⟩)⟩
    have stuck := leans.stuck_left
    cases evaluates with
    | calm _ calm => exact (calm.still List.not_mem_nil stuck).carries.2 own
    | @descent chain f descent =>
      have tied := h.midway.underway.tied
      by_cases inside : x ∈ z :: chain
      · rw [kept.unique (descent.carries_of_leans h.midway inside leans)]
        exact descent.carries tied inside
      · exact (descent.still tied List.not_mem_nil stuck inside).carries.2 own
  · intro s t z h evaluates ⟨own, _⟩ ⟨own', _⟩
    refine h.version_eq evaluates leans.stuck_left fun f g hf hg shape shape' => ?_
    have passed : ∀ {e : Fault}, Shape sim roomOf F x e → e ≠ .own (.circular y) := by
      rintro e shape rfl
      rcases shape.leans y leans with ⟨-, reaches⟩ | ⟨-, p, absurd⟩
      · exact away reaches
      · cases absurd
    exact shape.message_eq leans shape' (passed shape) (passed shape')
      ((hf.unique own).trans (own'.unique hg))

end Steady

/-! ### Leaning on one another in a circle -/

/-- Cells that lean on one another in a circle, while all others that they refer to rest. -/
structure Ring (sim : Simulation) (roomOf : Expr → Nat) (F : Formulas) (C : String → Prop)
    (s : Sheet) : Prop where
  next : ∀ x, C x → ∃ y, C y ∧ Leans sim roomOf F x y ∧ y ≠ x
  around : ∀ x y, C x → C y → Relation.ReflTransGen (Leans sim roomOf F) x y
  others : ∀ x y z, C x → Leans sim roomOf F x y → F.Refers x z → z ≠ y → Rests sim roomOf F s z

namespace Ring
variable {C : String → Prop}

theorem later (ring : Ring sim roomOf F C s) (later : Later sim roomOf F s t) :
    Ring sim roomOf F C t :=
  ⟨ring.next, ring.around, fun x y z mem leans refers other =>
    (ring.others x y z mem leans refers other).later later⟩

theorem stuck (ring : Ring sim roomOf F C s) (mem : C x) : Stuck sim roomOf F x := by
  obtain ⟨y, -, leans, -⟩ := ring.next x mem
  exact leans.stuck_left

theorem closed (ring : Ring sim roomOf F C s) (mem : C x)
    (path : Relation.ReflTransGen (Leans sim roomOf F) x y) : C y := by
  induction path with
  | refl => exact mem
  | tail _ leans ih =>
    obtain ⟨w, inside, leans', -⟩ := ring.next _ ih
    rw [leans.unique leans']
    exact inside

/-- All cells of the circle carry the cause that one of them carries. -/
theorem carries (ring : Ring sim roomOf F C s) (h : Steady sim roomOf F s) (mem : C x) (mem' : C y)
    (carries : s.Carries x cause) : s.Carries y cause := by
  obtain ⟨other, own, there⟩ := h.uniform x y (ring.stuck mem) (ring.around x y mem mem')
    (ring.around y x mem' mem) carries.processed
  rw [carries.unique own]
  exact there

/-- Where the chain of a descent leaves the circle, a cell is left fresh. -/
theorem fresh_of_descent (ring : Ring sim roomOf F C s) (unshared : F.Unshared)
    (h : Steady sim roomOf F s) {chain : List String} {f : Fault}
    (descent : Descent sim roomOf F chain s.idle f t.idle) (mem : C x) (mem' : C y)
    (inside : y ∈ chain) (outside : x ∉ chain) : ∃ z, C z ∧ t.Fresh z := by
  obtain ⟨a, b, path, inside_a, leans, outside_b, -⟩ :=
    exists_crossing (ring.around y x mem' mem) inside outside
  have mem_a := ring.closed mem' path
  have mem_b := ring.closed mem_a (.single leans)
  obtain ⟨front, back, split⟩ := List.append_of_mem inside_a
  refine ⟨a, mem_a, descent.fresh_after h.midway split fun z above refers => ?_⟩
  -- a cell above leads down to this one, so it would be the one on which this one leans
  have linked : chain.IsChain (Relation.TransGen F.Refers) :=
    descent.linked.imp fun _ _ leans => .single leans.refers
  rw [split, List.isChain_iff_pairwise] at linked
  have leads := (List.pairwise_append.1 linked).2.2 z above a List.mem_cons_self
  have back_b : F.Reaches b a :=
    Relation.ReflTransGen.mono (fun _ _ => Leans.refers) b a (ring.around b a mem_b mem_a)
  have same := unshared a z b refers leads.to_reflTransGen leans.refers back_b
  exact outside_b (same ▸ split ▸ List.mem_append_left _ above)

/-- An evaluation leaves some cell of the circle fresh, and the cause as it was. -/
theorem fresh_of_evaluates (ring : Ring sim roomOf F C s) (unshared : F.Unshared)
    (h : Steady sim roomOf F s) (evaluates : Evaluates sim roomOf F z s.idle t.idle)
    (fresh : ∃ x, C x ∧ s.Fresh x) (carries : ∀ x, C x → s.Carries x cause) :
    (∃ x, C x ∧ t.Fresh x) ∧ ∀ x, C x → t.Carries x cause := by
  obtain ⟨x, mem, fresh⟩ := fresh
  obtain ⟨y, mem_y, leans, -⟩ := ring.next x mem
  have after := h.evaluates evaluates
  have ring' := ring.later (.single ⟨z, evaluates⟩)
  have moves := evaluates.moves h.midway.underway.tied
  have reached : s.Processed x := h.reached x (ring.stuck mem).1
  -- if the next cell shows the same, this one is fresh still
  have stays : t.version y = s.version y → t.Fresh x := by
    intro same
    refine (moves.fresh x List.not_mem_nil fresh fun w link _ => ?_).fresh.2 fresh
    by_cases next : w = y
    · rw [next]
      exact same
    · exact ring.others x y w mem leans ((h.midway.mem_dependencies reached).1 link) next t
        (.single ⟨z, evaluates⟩)
  cases evaluates with
  | calm _ calm =>
    have kept := (calm.still List.not_mem_nil (ring.stuck mem)).carries.2 (carries x mem)
    refine ⟨⟨x, mem, stays ?_⟩, fun w mem_w => ring'.carries after mem mem_w kept⟩
    exact (calm.still List.not_mem_nil (ring.stuck mem_y)).version
  | @descent chain f descent =>
    have tied := h.midway.underway.tied
    have outside : x ∉ z :: chain := fun inside => by
      obtain ⟨w, refers, free, grown⟩ := descent.stale_before h.midway inside fresh
      exact grown (h.rests_of_free free t (.single ⟨z, .descent descent⟩))
    have kept := (descent.still tied List.not_mem_nil (ring.stuck mem) outside).carries.2
      (carries x mem)
    refine ⟨?_, fun w mem_w => ring'.carries after mem mem_w kept⟩
    by_cases inside : y ∈ z :: chain
    · exact ring.fresh_of_descent unshared h descent mem mem_y inside outside
    · exact ⟨x, mem, stays
        (descent.still tied List.not_mem_nil (ring.stuck mem_y) inside).version⟩

/-- If some cell of the circle is fresh, one of them rests. -/
theorem rests_one (ring : Ring sim roomOf F C s) (unshared : F.Unshared)
    (h : Steady sim roomOf F s) (fresh : ∃ x, C x ∧ s.Fresh x) :
    ∃ x, C x ∧ Rests sim roomOf F s x := by
  have ⟨x, mem, _⟩ := fresh
  obtain ⟨cause, own, -⟩ := h.uniform x x (ring.stuck mem) .refl .refl
    (h.reached x (ring.stuck mem).1)
  -- the cells do not all lean on one cell, so the cause does not name the next cell of each
  obtain ⟨y, z, mem_y, leans, passes⟩ : ∃ y z, C y ∧ Leans sim roomOf F y z ∧
      cause ≠ (Problem.circular z).message := by
    obtain ⟨y, mem_y, leans, -⟩ := ring.next x mem
    obtain ⟨z, -, leans', other⟩ := ring.next y mem_y
    by_cases named : cause = (Problem.circular y).message
    · refine ⟨y, z, mem_y, leans', fun same => other ?_⟩
      exact Problem.message_circular_inj (same.symm.trans named)
    · exact ⟨x, y, mem, leans, named⟩
  refine ⟨y, mem_y, h.rests_of_keep (I := fun t => Ring sim roomOf F C t ∧
    (∃ x, C x ∧ t.Fresh x) ∧ ∀ x, C x → t.Carries x cause) ?_ ?_
    ⟨ring, fresh, fun w mem_w => ring.carries h mem mem_w own⟩⟩
  · intro s t w h evaluates ⟨ring, fresh, carries⟩
    exact ⟨ring.later (.single ⟨w, evaluates⟩),
      ring.fresh_of_evaluates unshared h evaluates fresh carries⟩
  · intro s t w h evaluates ⟨_, _, carries⟩ ⟨_, _, carries'⟩
    refine h.version_eq evaluates leans.stuck_left fun f g hf hg shape shape' => ?_
    have first := hf.unique (carries y mem_y)
    have last := hg.unique (carries' y mem_y)
    have other : ∀ {e : Fault}, e.cause = cause → e ≠ .own (.circular z) := by
      rintro e same rfl
      exact passes same.symm
    exact shape.message_eq leans shape' (other first) (other last) (first.trans last.symm)

end Ring

/-! ### One more cell in each round -/

/-- Among finitely many cells there are last ones: those that they lead to lead back. -/
theorem Formulas.exists_last (F : Formulas) {P : String → Prop} {names : List String}
    (all : ∀ x, P x → x ∈ names) (some_ : ∃ x, P x) :
    ∃ x, P x ∧ ∀ y, P y → F.Reaches x y → F.Reaches y x := by
  let Node := { x : String // P x }
  let below : Node → Node → Prop := fun a b => F.Reaches b.1 a.1 ∧ ¬ F.Reaches a.1 b.1
  have : Finite Node := ((List.finite_toSet names).subset fun x h => all x h).to_subtype
  have : IsTrans Node below :=
    ⟨fun _ _ _ ab bc => ⟨bc.1.trans ab.1, fun back => ab.2 (back.trans bc.1)⟩⟩
  have : Std.Irrefl below := ⟨fun _ both => both.2 both.1⟩
  have wf : WellFounded below := Finite.wellFounded_of_trans_of_irrefl below
  obtain ⟨x, hx⟩ := some_
  obtain ⟨last, -, least⟩ := wf.has_min Set.univ ⟨⟨x, hx⟩, trivial⟩
  refine ⟨last.1, last.2, fun y hy reaches => by_contra fun apart => ?_⟩
  exact least ⟨y, hy⟩ trivial ⟨reaches, apart⟩

/-- Cells that all lead to one another and that a round does not bring to rest; what they refer to
rests, or is one of them. -/
structure Knot (sim : Simulation) (roomOf : Expr → Nat) (F : Formulas) (C : String → Prop)
    (s t : Sheet) : Prop where
  moves : ∀ x, C x → ¬ Rests sim roomOf F s x
  remains : ∀ x, C x → ¬ Rests sim roomOf F t x
  reaches : ∀ x y, C x → C y → F.Reaches x y
  closed : ∀ x y, C x → F.Refers x y → ¬ Rests sim roomOf F s y → C y

namespace Knot
variable {C : String → Prop}

/-- Each cell of a knot leans on another one of them. -/
theorem next (knot : Knot sim roomOf F C s t) (turned : Turned sim roomOf F s t)
    (unshared : F.Unshared) (h : Steady sim roomOf F s) (mem : C x) :
    ∃ y, C y ∧ Leans sim roomOf F x y ∧ y ≠ x := by
  have stuck : Stuck sim roomOf F x :=
    by_contra fun free => knot.moves x mem (h.rests_of_free free)
  -- otherwise all other cells that it refers to would rest
  obtain ⟨w, mem_w, refers, other⟩ : ∃ w, C w ∧ F.Refers x w ∧ w ≠ x := by
    by_contra alone
    refine knot.remains x mem (turned.rests_of_refers h stuck.1 fun w refers other => ?_).1
    by_contra moves
    exact alone ⟨w, knot.closed x w mem refers moves, refers, other⟩
  have back := knot.reaches w x mem_w mem
  rcases stuck.cases with ⟨y, leans⟩ | ⟨f, ends⟩
  · refine ⟨y, ?_, leans, fun self => ?_⟩
    · by_contra outside
      have rests : Rests sim roomOf F s y :=
        by_contra fun moves => outside (knot.closed x y mem leans.refers moves)
      have away : ¬ F.Reaches y x := fun reaches =>
        outside (unshared x y w leans.refers reaches refers back ▸ mem_w)
      obtain ⟨m, first, last, fresh⟩ := turned.fresh x stuck.1
      exact knot.remains x mem (((h.later first).rests_of_leans fresh leans (rests.later first)
        away).later last)
    · subst self
      exact other (unshared y y w leans.refers .refl refers back).symm
  · exact (knot.moves x mem (h.rests_of_ends ends)).elim

/-- The cells of a knot lean on one another in a circle. -/
theorem ring (knot : Knot sim roomOf F C s t) (turned : Turned sim roomOf F s t)
    (unshared : F.Unshared) (h : Steady sim roomOf F s) : Ring sim roomOf F C s := by
  refine ⟨fun x mem => knot.next turned unshared h mem, fun x y mem_x mem_y => ?_,
    fun x y z mem leans refers other => ?_⟩
  · have path := knot.reaches x y mem_x mem_y
    induction path using Relation.ReflTransGen.head_induction_on with
    | refl => exact .refl
    | @head a c refers rest ih =>
      obtain ⟨d, mem_d, leans, -⟩ := knot.next turned unshared h mem_x
      have same := unshared a c d refers (rest.trans (knot.reaches y a mem_y mem_x)) leans.refers
        (knot.reaches d a mem_d mem_x)
      subst same
      exact .head leans (ih mem_d)
  · obtain ⟨w, mem_w, leans', -⟩ := knot.next turned unshared h mem
    cases leans.unique leans'
    by_contra moves
    have mem_z := knot.closed x z mem refers moves
    exact other (unshared x z y refers (knot.reaches z x mem_z mem) leans.refers
      (knot.reaches y x mem_w mem))

end Knot

/-- If no cell lies on two cycles, a round brings a cell to rest, unless all rest already. -/
theorem Turned.rests_one (turned : Turned sim roomOf F s t) (unshared : F.Unshared)
    (h : Steady sim roomOf F s) (some_ : ∃ x, ¬ Rests sim roomOf F s x) :
    ∃ x, ¬ Rests sim roomOf F s x ∧ Rests sim roomOf F t x := by
  have there : ∀ x, ¬ Rests sim roomOf F s x → (F x).isSome := fun x moves =>
    by_contra fun absent => moves (h.rests_of_free fun stuck => absent stuck.1)
  have known : ∀ x, ¬ Rests sim roomOf F s x → x ∈ s.names := fun x moves => by
    have there := there x moves
    rw [← h.midway.formulas] at there
    exact Sheet.isSome_formulas.1 there
  obtain ⟨x, moves, last⟩ := F.exists_last known some_
  by_contra none
  have knot : Knot sim roomOf F (fun y => ¬ Rests sim roomOf F s y ∧ F.Reaches x y) s t :=
    ⟨fun y mem => mem.1, fun y mem rests => none ⟨y, mem.1, rests⟩,
      fun y z mem_y mem_z => (last y mem_y.1 mem_y.2).trans mem_z.2,
      fun y z mem refers moves => ⟨moves, mem.2.tail refers⟩⟩
  obtain ⟨m, first, rest, fresh⟩ := turned.fresh x (there x moves)
  obtain ⟨y, mem, rests⟩ := ((knot.ring turned unshared h).later first).rests_one unshared
    (h.later first) ⟨x, ⟨moves, .refl⟩, fresh⟩
  exact none ⟨y, mem.1, rests.later rest⟩

end MonteCarloSheet
