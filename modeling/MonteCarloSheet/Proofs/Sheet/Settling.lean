import MonteCarloSheet.Proofs.Sheet.Calm
import MonteCarloSheet.Proofs.Sheet.Holding

/-! Sheets without cycles settle at once.

When the sweeps of a recalculation begin, the links are those of the formulas, but
for formulas that do not parse, which keep their old ones (`prepared_linked`). Later
links are only taken away (`dependencies_of_steps`). Old links may close a loop even
if the references go round in no cycle. A cell that lies on no loop comes after all
that it reads, and evaluations leave it fresh once the sweep has passed it
(`Undisturbed`), so evaluations nest only where they enter a loop. If those fit in
the room, the first sweep leaves the sheet at rest (`sweep_passes`), the second one
changes nothing, and a second recalculation gives back the sheet
(`recalculation_settles`). -/
namespace MonteCarloSheet

open Formula (Expr)

/-! ### Links when the sweeps begin -/

namespace Sheet

/-- The links of the cell are the references in its formula, if it parses. -/
def LinkedAt (s : Sheet) (x : String) : Prop :=
  ∀ text e, s.formulas x = some text → Formula.parse text = .ok e →
    s.dependencies x = e.dependencies

theorem dependencies_prepare_of_ne (s : Sheet) {id x : String} (other : x ≠ id) :
    (s.prepare id).dependencies x = s.dependencies x := by
  have elsewhere : ∀ (t : Sheet) targets, (t.relink id targets).dependencies x = t.dependencies x := by
    intro t targets
    rw [dependencies_relink, if_neg fun both => other both.1]
  rw [prepare]
  split
  · rfl
  · split
    · exact elsewhere s _
    · split
      · rfl
      next e _ =>
        rw [elsewhere]
        exact dependencies_modify id (f := fun c => { c with parsed := some e }) (fun _ => rfl) x

theorem linkedAt_prepare {s : Sheet} (faithful : s.Faithful) (id : String) :
    (s.prepare id).LinkedAt id := by
  intro text e formula parsed
  rw [formulas_prepare, formulas] at formula
  obtain ⟨c, here, rfl⟩ := Option.map_eq_some_iff.1 formula
  have tree : c.tree = .ok e := (faithful id c here).trans parsed
  rw [prepare, here]
  dsimp only
  cases kept : c.parsed with
  | some e' =>
    rw [Cell.tree, kept] at tree
    cases tree
    dsimp only
    rw [dependencies_relink, here, if_pos ⟨rfl, rfl⟩]
  | none =>
    rw [parsed]
    dsimp only
    rw [dependencies_relink, Roster.get?_modify, if_pos rfl, here, if_pos ⟨rfl, rfl⟩]

theorem LinkedAt.prepare {s : Sheet} {x : String} (h : s.LinkedAt x) (faithful : s.Faithful)
    (id : String) : (s.prepare id).LinkedAt x := by
  by_cases self : x = id
  · rw [self]
    exact linkedAt_prepare faithful id
  · intro text e formula parsed
    rw [formulas_prepare] at formula
    rw [dependencies_prepare_of_ne s self]
    exact h text e formula parsed

/-- When the sweeps begin, all links are those of the formulas that parse. -/
theorem prepared_linked {s : Sheet} (faithful : s.Faithful) (x : String) : s.prepared.LinkedAt x := by
  have go : ∀ (ids : List String) (t : Sheet), t.Faithful → (x ∈ ids ∨ t.LinkedAt x) →
      LinkedAt (ids.foldl Sheet.prepare t) x := by
    intro ids
    induction ids with
    | nil => exact fun t _ h => h.resolve_left List.not_mem_nil
    | cons id rest ih =>
      intro t faithful h
      refine ih _ (faithful.prepare id) ?_
      rcases h with mem | linked
      · rcases List.mem_cons.1 mem with rfl | mem
        · exact .inr (linkedAt_prepare faithful x)
        · exact .inl mem
      · exact .inr (linked.prepare faithful id)
  have cleared : Faithful (Roster.map (fun _ c => c.beginCycle) s) :=
    faithful.map (f := fun _ c => c.beginCycle) fun _ _ hc => hc
  refine go _ _ cleared ?_
  by_cases mem : x ∈ s.names
  · exact .inl (by rw [Roster.names_map]; exact mem)
  · refine .inr fun text e formula => ?_
    have there : (s.formulas x).isSome := by
      rw [← formulas_map (f := fun _ c => c.beginCycle) fun _ _ => rfl, formula]
      rfl
    exact (mem (isSome_formulas.1 there)).elim

/-- While cells are evaluated, no cell gets a link that it did not have. -/
theorem dependencies_of_steps {u v : Sheet} (linked : ∀ x, u.LinkedAt x) (faithful : u.Faithful)
    (steps : Steps u v) (x : String) : v.dependencies x ⊆ u.dependencies x := by
  have kept := steps.keep (I := fun v => v.Faithful ∧ v.formulas = u.formulas ∧
    ∀ x, v.dependencies x ⊆ u.dependencies x) ?_ ⟨faithful, rfl, fun _ => List.Subset.refl _⟩
  · exact kept.2.2 x
  · intro s t step ⟨faithful, formulas, fewer⟩
    refine ⟨faithful.step step, (formulas_step step).trans formulas, fun x => ?_⟩
    cases step with
    | @begin _ id c here =>
      rw [begun, dependencies_relink]
      split
      next self =>
        obtain ⟨rfl, -⟩ := self
        have tree : c.tree = Formula.parse c.formula := faithful x c here
        rw [tree]
        cases parsed : Formula.parse c.formula with
        | error err => exact List.nil_subset _
        | ok e =>
          rw [linked x _ e (formulas ▸ formulas_of_get? here) parsed]
          exact List.Subset.refl _
      next => exact (dependencies_modify id (f := Cell.begin) (fun _ => rfl) x).symm ▸ fewer x
    | finish _ id ending =>
      rw [dependencies_modify id fun c => (links_ending ending c).1]
      exact fewer x
    | announce p id =>
      have same : (announce id p).sheet.dependencies x = p.sheet.dependencies x :=
        (dependencies_modifyAll _ (f := Cell.markStale) (fun _ => rfl) x).trans
          (dependencies_modify id (f := fun c => { c with version := c.version + 1 })
            (fun _ => rfl) x)
      rw [same]
      exact fewer x

end Sheet

/-! ### The first sweep -/

/-- What evaluations for one cell leave of a sheet `v` that a sweep from `u` has made: the cells
that it has passed are as they were but for marks and readers, and they are fresh, like the one
that is evaluated, unless they lie on a loop. -/
structure Undisturbed (u v : Sheet) (passed : List String) (id : String) (q : Sheet) : Prop where
  steps : Steps u q
  same : q.All fun x d => x ∈ passed → ∃ c, v.get? x = some c ∧ d.core = c.core
  fresh : q.All fun x d => x ∈ passed ∨ x = id → ¬ u.OnLoop x → d.isStale = false

variable {sim : Simulation} {roomOf : Expr → Nat} {F : Formulas}

/-- Every cell that the sweep has passed is as its beginning left it, and shows what it means. -/
def Shown (sim : Simulation) (roomOf : Expr → Nat) (F : Formulas) (passed : List String)
    (v : Sheet) : Prop :=
  v.All fun x c => x ∈ passed → c.Begun ∧ ∃ r, Denotes sim roomOf F x r ∧ c.Shows r

/-- The sheet when the sweeps begin: nothing is processed yet, and links are current where formulas
parse. -/
structure Ready (F : Formulas) (u : Sheet) : Prop where
  underway : u.Underway
  linked : ∀ x, u.LinkedAt x
  formulas : u.formulas = F

namespace Undisturbed
variable {u v q : Sheet} {passed after : List String} {id : String}

/-- Beginning a cell that shows what it means disturbs nothing. -/
theorem begin {s : Sheet} (shown : Shown sim roomOf F passed v) (steps : Steps u s)
    (same : s.All fun x d => x ∈ passed → ∃ c, v.get? x = some c ∧ d.core = c.core)
    {y : String} {c : Cell} (here : s.get? y = some c)
    (fresh : s.All fun x d => x ≠ y → x ∈ passed ∨ x = id → ¬ u.OnLoop x → d.isStale = false) :
    Undisturbed u v passed id (s.begun y c) := by
  refine ⟨steps.tail (.begin here), fun x d there mem => ?_, fun x d there upTo noLoop => ?_⟩
  · obtain ⟨old, before⟩ : ∃ old, s.get? x = some old := by
      refine Roster.mem_names.1 ?_
      rw [← names_step (.begin here)]
      exact Roster.mem_names.2 ⟨d, there⟩
    obtain ⟨c₀, first, core⟩ := same x old before mem
    have holds : s.Holds x c₀ := .of_get? before core
    exact ⟨c₀, first, holds.begun (shown x c₀ first mem).1 here x d there rfl⟩
  · by_cases self : x = y
    · subst self
      obtain ⟨readers, begun⟩ := Sheet.get?_begun here x
      rw [begun, here, Option.map_some, if_pos rfl] at there
      cases there
      rfl
    · obtain ⟨readers, begun⟩ := Sheet.get?_begun_of_ne here self
      rw [begun] at there
      obtain ⟨old, before, rfl⟩ := Option.map_eq_some_iff.1 there
      exact fresh x old before self upTo noLoop

/-- Ending a cell rightly disturbs nothing: a cell that has been passed is not changed, and any
other one is read by no cell that has been passed but for loops. -/
theorem conclude {p : Progress} (ready : Ready F u) (split : u.order = passed ++ id :: after)
    (shown : Shown sim roomOf F passed v) (h : Undisturbed u v passed id p.sheet) {y : String}
    {before : Cell} (there : y ∈ u.names)
    (older : y ∈ passed → ∃ c, v.get? y = some c ∧ before.core = c.core) {ending : Ending}
    (right : RightEnding sim roomOf F y ending) :
    Undisturbed u v passed id (MonteCarloSheet.conclude y before ending.apply p).2.sheet := by
  by_cases mem : y ∈ passed
  · have known : y ∈ p.sheet.names := by
      rw [names_steps h.steps]
      exact there
    obtain ⟨c, here⟩ := Roster.mem_names.1 known
    obtain ⟨c₀, first, core⟩ := h.same y c here mem
    obtain ⟨c₁, second, core'⟩ := older mem
    cases first.symm.trans second
    obtain ⟨-, r, means, shows_⟩ := shown y c₀ first mem
    have formula : F y = some c₀.formula := by
      have text : c.formula = c₀.formula := Cell.eq_of_core core fun _ => rfl
      rw [← ready.formulas, ← Sheet.formulas_steps h.steps, ← text]
      exact Sheet.formulas_of_get? here
    have holds : p.sheet.Holds y c₀ := .of_get? here core
    rw [holds.conclude_eq known formula means shows_ core' right]
    exact h
  · have tied : p.sheet.Tied := (h.steps.keep (fun _ _ => Sheet.Underway.step) ready.underway).tied
    refine ⟨h.steps.trans (conclude_runs y before ending p).steps, ?_, ?_⟩
    · exact concluded_all (h.same.modify y fun c _ absurd => (mem absurd).elim)
        (fun _ _ _ absurd => (mem absurd).elim) fun _ _ _ _ hd => hd
    · refine concluded_all (h.fresh.modify y fun c hc => ?_) (fun _ _ hd => hd) ?_
      · cases ending <;> exact hc
      · intro x reader _ d _ upTo noLoop
        have known : x ∈ p.sheet.names := tied.known y x reader
        have link : y ∈ p.sheet.dependencies x := by
          refine (tied.linked y ?_ x known).1 reader
          rw [names_steps h.steps]
          exact there
        have old := Sheet.dependencies_of_steps ready.linked ready.underway.faithful h.steps x link
        exact (mem (Sheet.mem_before_of_reads split upTo noLoop old there)).elim

end Undisturbed

theorem Undisturbed.keeps {u v : Sheet} {passed after : List String} {id : String}
    (ready : Ready F u) (split : u.order = passed ++ id :: after)
    (shown : Shown sim roomOf F passed v) : Keeps sim roomOf F (Undisturbed u v passed id) where
  begun := fun h here => .begin shown h.steps h.same here fun x d there _ => h.fresh x d there
  conclude := fun h here later right => by
    refine later.conclude ready split shown ?_ (h.same _ _ here) right
    rw [← names_steps h.steps]
    exact Roster.mem_names.2 ⟨_, here⟩

/-- Without cycles, a finished cell shows what it means. -/
theorem Finished.shown (acyclic : F.Acyclic) {names : List String}
    (all : ∀ x, (F x).isSome → x ∈ names) {id : String} {c : Cell}
    (h : Finished sim roomOf F id c) (formula : F id = some c.formula) :
    ∃ r, Denotes sim roomOf F id r ∧ c.Shows r := by
  have noCycle : ¬ F.ReachesCycle id := fun ⟨y, _, around⟩ => acyclic y around
  obtain ⟨r, means⟩ := (denotes_iff_no_cycle all (by rw [formula]; rfl)).2 noCycle
  exact ⟨r, means, h.shows_ r means⟩

/-- A trail whose second cell lies on a loop of links. -/
def EntersLoop (u : Sheet) (trail : List String) : Prop :=
  ∃ front y x, trail = front ++ [y, x] ∧ u.OnLoop y

/-- A reference that finds a stale cell enters a loop. -/
theorem Undisturbed.entersLoop {u v q : Sheet} {passed after : List String} {id y : String}
    (ready : Ready F u) (split : u.order = passed ++ id :: after)
    (h : Undisturbed u v passed id q) (refers : F.Refers id y) (stale : ¬ q.Fresh y) :
    EntersLoop u [y, id] := by
  refine ⟨[], y, id, rfl, by_contra fun noLoop => stale fun d found => ?_⟩
  obtain ⟨text, e, formula, parsed, mem⟩ := refers
  have link : y ∈ u.dependencies id := by
    rw [ready.linked id text e (by rw [ready.formulas, formula]) parsed]
    exact Expr.mem_dependencies.2 mem
  have known : y ∈ u.names := by
    rw [← names_steps h.steps]
    exact Roster.mem_names.2 ⟨d, found⟩
  have earlier := (Sheet.before_or_onLoop split link known).resolve_right fun both => noLoop both.2
  exact h.fresh y d found (.inl earlier) noLoop

/-- What a sweep from `u` has made of the sheet, and of the cells that it has passed. -/
structure Passed (sim : Simulation) (roomOf : Expr → Nat) (F : Formulas) (u : Sheet)
    (passed : List String) (v : Sheet) : Prop where
  steps : Steps u v
  sound : Sound sim roomOf F ⟨v, []⟩
  done : v.All fun x c => x ∈ passed → c.processed = true ∧ (¬ u.OnLoop x → c.isStale = false)

section
variable {u : Sheet}

/-- Without cycles, the cells that a sweep has passed show what they mean. -/
theorem Passed.shown (ready : Ready F u) (acyclic : F.Acyclic) {before : List String} {v : Sheet}
    (h : Passed sim roomOf F u before v) : Shown sim roomOf F before v := by
  have underway : v.Underway := h.steps.keep (fun _ _ => Sheet.Underway.step) ready.underway
  have all : ∀ y, (F y).isSome → y ∈ u.names := by
    rw [← ready.formulas]
    exact fun _ => Sheet.isSome_formulas.1
  intro x c here mem
  have processed := (h.done x c here mem).1
  have finished := h.sound.finished x c here processed List.not_mem_nil
  exact ⟨underway.reached x c here processed,
    finished.shown acyclic all (h.sound.formula_eq here)⟩

/-- Beginning the next cell of the order disturbs nothing. -/
theorem Passed.begun (ready : Ready F u) (acyclic : F.Acyclic) {before : List String} {id : String}
    {v : Sheet} {c : Cell} (h : Passed sim roomOf F u before v) (here : v.get? id = some c) :
    Undisturbed u v before id (v.begun id c) :=
  .begin (h.shown ready acyclic) h.steps (fun _ d found _ => ⟨d, found, rfl⟩) here
    fun x d found other upTo => (h.done x d found (upTo.resolve_right other)).2

/-- The evaluation of the next cell of the order enters loops at most, and leaves all cells that
lie on none fresh. What evaluations keep, it keeps. -/
theorem Passed.visit (ready : Ready F u) (acyclic : F.Acyclic)
    (nestable : Nestable sim roomOf F (EntersLoop u)) (suits : F.Suits sim.room roomOf)
    {K : Sheet → Prop} (keeps : Keeps sim roomOf F K) {before after : List String} {id : String}
    {v : Sheet} {c : Cell} (split : u.order = before ++ id :: after)
    (h : Passed sim roomOf F u before v) (kept : K v) (here : v.get? id = some c) :
    Passed sim roomOf F u (before ++ [id]) (v.reevaluateAlone sim id).2 ∧
      K (v.reevaluateAlone sim id).2 := by
  have names : v.names = u.names := names_steps h.steps
  have there : id ∈ u.names := by
    rw [← names]
    exact Roster.mem_names.2 ⟨c, here⟩
  have shown := h.shown ready acyclic
  obtain ⟨q, ending, inner, right, ends⟩ := reevaluate_nested nestable suits
    ((Undisturbed.keeps ready split shown).and keeps) h.sound here
    ⟨h.begun ready acyclic here, keeps.begun kept here⟩ fun _ _ inner refers stale =>
      inner.1.entersLoop ready split refers stale
  have after := inner.kept.1.conclude ready split shown there (fun _ => ⟨c, here, rfl⟩) right
  have begins := reevaluateAlone_begins sim here
  have sound := inner.sound_conclude c right
  have kept' := keeps.conclude kept here inner.kept.2 right
  rw [Sheet.reevaluateAlone, ends] at begins ⊢
  refine ⟨⟨after.steps, sound, fun x d found mem => ?_⟩, kept'⟩
  have upTo : x ∈ before ∨ x = id := (List.mem_append.1 mem).imp_right List.mem_singleton.1
  have reached : (v.begun id c).Processed x := by
    rcases upTo with mem | rfl
    · obtain ⟨e, old⟩ : ∃ e, v.get? x = some e := by
        refine Roster.mem_names.1 ?_
        rw [names, ← names_steps after.steps]
        exact Roster.mem_names.2 ⟨d, found⟩
      exact Sheet.Processed.step (.begin here) ⟨e, old, (h.done x e old mem).1⟩
    · exact Sheet.processed_begun here
  obtain ⟨d', found', processed⟩ := reached.steps begins
  cases found.symm.trans found'
  exact ⟨processed, after.fresh x d found upTo⟩

/-- A sweep reaches and finishes all cells, and leaves those fresh that lie on no loop. What
evaluations keep, it keeps. -/
theorem sweep_passes (ready : Ready F u) (acyclic : F.Acyclic)
    (nestable : Nestable sim roomOf F (EntersLoop u)) (suits : F.Suits sim.room roomOf)
    (sound : Sound sim roomOf F ⟨u, []⟩) {K : Sheet → Prop} (keeps : Keeps sim roomOf F K)
    (kept : K u) :
    Passed sim roomOf F u u.order (Sheet.sweep sim u.order (false, u)).2 ∧
      K (Sheet.sweep sim u.order (false, u)).2 := by
  refine Sheet.sweep_induct (I := fun before _ v => Passed sim roomOf F u before v ∧ K v) ?_ ?_ ?_
  · intro before id after flag v split ⟨h, kept⟩ fresh
    refine ⟨⟨h.steps, h.sound, fun x c here mem => ?_⟩, kept⟩
    rcases List.mem_append.1 mem with mem | mem
    · exact h.done x c here mem
    · rw [List.mem_singleton.1 mem] at here
      exact ⟨(Sheet.fresh_iff.1 (fresh c here)).2, fun _ => fresh c here⟩
  · intro before id after flag v c split ⟨h, kept⟩ here _
    exact h.visit ready acyclic nestable suits keeps split kept here
  · exact ⟨⟨.refl, sound, fun _ _ _ absurd => (List.not_mem_nil absurd).elim⟩, kept⟩

/-- After a sweep that has passed all cells, the sheet is at rest. -/
theorem Passed.atRest (ready : Ready F u) (acyclic : F.Acyclic) {v : Sheet}
    (h : Passed sim roomOf F u u.order v) : AtRest sim roomOf F v := by
  have underway : v.Underway := h.steps.keep (fun _ _ => Sheet.Underway.step) ready.underway
  have passed : v.All fun x _ => x ∈ u.order := by
    intro x c here
    refine Sheet.mem_order.2 ?_
    rw [← names_steps h.steps]
    exact Roster.mem_names.2 ⟨c, here⟩
  have shown := h.shown ready acyclic
  exact ⟨h.sound.formulas, underway.tied,
    fun x c here => (shown x c here (passed x c here)).1,
    fun x c here => (shown x c here (passed x c here)).2⟩

/-! ### Settling -/

/-- After a sweep that brings the sheet to rest, at most one more is made. What evaluations keep,
and what does not depend on marks, holds at the end. -/
theorem sweeps_settle (ready : Ready F u) (acyclic : F.Acyclic)
    (nestable : Nestable sim roomOf F (EntersLoop u)) (suits : F.Suits sim.room roomOf)
    (sound : Sound sim roomOf F ⟨u, []⟩) {K : Sheet → Prop} (keeps : Keeps sim roomOf F K)
    (unmarked : ∀ s t, Fresher s t → K s → K t) (kept : K u) (left : Nat) :
    ∃ n t, Sheet.sweeps sim u.order (left + 2) 0 u = (n, true, t) ∧ n ≤ 2 ∧
      AtRest sim roomOf F t ∧ (∀ x ∈ t.names, t.Fresh x) ∧ K t := by
  obtain ⟨passed, kept⟩ := sweep_passes ready acyclic nestable suits sound keeps kept
  have rest := passed.atRest ready acyclic
  rw [Sheet.sweeps]
  generalize Sheet.sweep sim u.order (false, u) = swept at passed rest kept
  obtain ⟨changed, v⟩ := swept
  have all : ∀ x ∈ v.names, x ∈ u.order := by
    rw [names_steps passed.steps]
    exact fun _ => Sheet.mem_order.2
  dsimp only
  split
  next last =>
    rw [Bool.and_eq_true, Sheet.isSettled, List.all_eq_true] at last
    refine ⟨1, v, rfl, Nat.le_succ 1, rest, fun x known c here => ?_, kept⟩
    have settled := last.2 _ (Roster.mem_entries.2 here)
    exact Sheet.fresh_iff.2 ⟨by simpa using settled, (passed.done x c here (all x known)).1⟩
  next =>
    -- evaluations enter loops at most, as in the first sweep
    obtain ⟨t, calm, fresher, fresh⟩ := rest.sweep_calm fun before id after t split fresher _ =>
      (rest.fresher fresher).calm_of_along nestable suits fun y refers stale => by
        refine ⟨[], y, id, rfl, by_contra fun noLoop => stale ?_⟩
        refine Sheet.Fresh.fresher (fun c here => ?_) fresher
        exact (passed.done y c here (all y (Roster.mem_names.2 ⟨c, here⟩))).2 noLoop
    have fresh_t : ∀ x ∈ t.names, t.Fresh x := fun x mem => fresh x (all x (fresher.names ▸ mem))
    rw [Sheet.sweeps_of_calm calm (Sheet.isSettled_of_fresh fresh_t)]
    exact ⟨2, t, rfl, Nat.le_refl 2, rest.fresher fresher, fresh_t, unmarked v t fresher kept⟩

end

/-- Every trail of references that enters a loop of links with its second cell fits in the room. -/
def Sheet.LoopsFit (s : Sheet) (room : Nat) : Prop :=
  ∀ trail, s.formulas.Trail trail → EntersLoop s trail → s.formulas.span trail ≤ room + 2

/-- Evaluations may nest along the trails whose second cell has a property, if these fit. -/
theorem nestable_of_entry {P : String → Prop} (fits : ∀ front y x, F.Trail (front ++ [y, x]) → P y →
      F.span (front ++ [y, x]) ≤ sim.room + 2) :
    Nestable sim (fun _ => sim.room) F fun trail =>
      ∃ front y x, trail = front ++ [y, x] ∧ P y := by
  refine ⟨fun name trail => ?_, fun trail is => ?_, fun _ height => height⟩
  · rintro ⟨front, y, x, rfl, entered⟩
    exact ⟨name :: front, y, x, rfl, entered⟩
  · rintro ⟨front, y, x, rfl, entered⟩
    exact fits front y x is entered

theorem Sheet.LoopsFit.nestable {s : Sheet} (enough : s.prepared.LoopsFit sim.room) :
    Nestable sim (fun _ => sim.room) s.formulas (EntersLoop s.prepared) := by
  refine nestable_of_entry fun front y x is loop => ?_
  rw [← Sheet.formulas_prepared] at is ⊢
  exact enough _ is ⟨front, y, x, rfl, loop⟩

/-- A recalculation of a reachable sheet without cycles of references brings it to rest in at most
two sweeps. What evaluations keep, and what does not depend on marks, holds at the end. -/
theorem recalculate_rests {s : Sheet} (h : s.Reachable) (acyclic : s.formulas.Acyclic)
    (enough : s.prepared.LoopsFit sim.room) {K : Sheet → Prop}
    (keeps : Keeps sim (fun _ => sim.room) s.formulas K)
    (unmarked : ∀ s t, Fresher s t → K s → K t) (kept : K s.prepared) :
    ∃ n t, s.recalculate sim = (⟨n, true, Sheet.versionChanges s.prepared t⟩, t) ∧ n ≤ 2 ∧
      AtRest sim (fun _ => sim.room) s.formulas t ∧ (∀ x ∈ t.names, t.Fresh x) ∧ K t := by
  have ready : Ready s.formulas s.prepared :=
    ⟨h.underway, Sheet.prepared_linked h.faithful, Sheet.formulas_prepared s⟩
  obtain ⟨n, t, ends, facts⟩ := sweeps_settle ready acyclic enough.nestable
    (fun _ _ _ _ _ => .inl rfl) (sound_prepared h) keeps unmarked kept (2 * s.prepared.size + 8)
  refine ⟨n, t, ?_, facts⟩
  rw [Sheet.recalculate_eq, Sheet.sweepLimit, ends]

/-- A recalculation of a reachable sheet without cycles of references ends after at most two
sweeps, and another one right after it makes one sweep and leaves everything as it is. Evaluations
nest only where old links of formulas that do not parse close a loop; there they must fit in the
room. -/
theorem recalculation_settles {s : Sheet} (h : s.Reachable) (acyclic : s.formulas.Acyclic)
    (enough : s.prepared.LoopsFit sim.room) :
    (s.recalculate sim).1.converged = true ∧ (s.recalculate sim).1.iterations ≤ 2 ∧
      (s.recalculate sim).2.recalculate sim = (⟨1, true, []⟩, (s.recalculate sim).2) := by
  obtain ⟨n, t, result, few, rest, fresh, -⟩ := recalculate_rests h acyclic enough
    (keeps_trivial sim _ s.formulas) (fun _ _ _ => id) trivial
  rw [result]
  exact ⟨rfl, few, rest.recalculate_again acyclic (fun _ height => height)
    (fun _ _ _ _ _ => .inl rfl) fresh⟩

/-- References go round in no cycle if they lead to cells of a lower rank. -/
theorem Formulas.acyclic_of_rank (rank : String → Nat)
    (lower : ∀ x y, F.Refers x y → rank y < rank x) : F.Acyclic := by
  have all : ∀ x y, Relation.TransGen F.Refers x y → rank y < rank x := by
    intro x y chain
    induction chain with
    | single refers => exact lower _ _ refers
    | tail _ refers ih => exact (lower _ _ refers).trans ih
  exact fun x around => Nat.lt_irrefl _ (all x x around)

/-- There are no cycles if each cell has a higher rank than the cells that its formula names. -/
theorem Sheet.acyclic_of_links {s : Sheet} (rank : String → Nat)
    (lower : ∀ x ∈ s.names, ∀ y ∈ linksOf (Formula.parse ((s.formulas x).getD none)),
      rank y < rank x) : s.formulas.Acyclic := by
  refine Formulas.acyclic_of_rank rank fun x y ⟨text, e, here, parsed, mem⟩ => ?_
  have known : x ∈ s.names := isSome_formulas.1 (by rw [here]; rfl)
  refine lower x known y ?_
  rw [here]
  exact mem_linksOf.2 ⟨e, parsed, mem⟩

/-- One cell reads two, one of which reads the other. -/
theorem settling_of_three_cells :
    let s := Sheet.define (Sheet.define (Sheet.define Roster.empty "A" (some "B + C") none)
      "B" (some "C * 2") none) "C" (some "1 to 2") none
    let sim : Simulation := ⟨5000, ⟨.permuted, some 1, none⟩, 980⟩
    s.Reachable ∧ s.formulas.Acyclic ∧ s.prepared.LoopsFit sim.room ∧
      (s.recalculate sim).1.converged = true ∧ (s.recalculate sim).1.iterations ≤ 2 ∧
      (s.recalculate sim).2.recalculate sim = (⟨1, true, []⟩, (s.recalculate sim).2) := by
  intro s sim
  let rank : String → Nat := fun id => if id = "A" then 2 else if id = "B" then 1 else 0
  have reachable : s.Reachable := .define (.define (.define .empty "A" _ _) "B" _ _) "C" _ _
  have acyclic : s.formulas.Acyclic := Sheet.acyclic_of_links rank (by decide +kernel)
  have fit : s.prepared.formulas.FitIn sim.room :=
    Formulas.fitIn_of_span_le (fun _ => Sheet.isSome_formulas.1) (by decide +kernel)
  have enough : s.prepared.LoopsFit sim.room := fun trail is _ => fit trail is
  exact ⟨reachable, acyclic, enough, recalculation_settles reachable acyclic enough⟩

end MonteCarloSheet
