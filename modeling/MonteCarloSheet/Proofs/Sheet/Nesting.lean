import Mathlib.Data.List.Perm.Subperm
import MonteCarloSheet.Proofs.Sheet.Leaning

/-! Evaluations inside one another.

While cells are evaluated, every cell that the cycle has reached and that is not
active is finished (`Sound`). The active cells are a trail of references that
leads to the cell being evaluated, so a reference to one of them closes a cycle,
and each nested evaluation makes the trail longer by one cell. If the trails along
which evaluations nest fit in the room (`Nestable`), every evaluation ends rightly
and nothing is too deep (`reevaluateWith_nested`). -/
namespace MonteCarloSheet

open Formula (Expr Fit)

/-! ### Trails of references -/

namespace Formulas

/-- The height of the formula of a cell, zero if there is no tree. -/
def height (F : Formulas) (id : String) : Nat :=
  match F id with
  | none => 0
  | some text =>
    match Formula.parse text with
    | .error _ => 0
    | .ok e => e.height

/-- The room that the evaluation of a cell takes at most inside that of another one. -/
def weight (F : Formulas) (id : String) : Nat :=
  F.height id + 2

/-- Different cells, each of which refers to the one before it: the last one comes first. -/
structure Trail (F : Formulas) (trail : List String) : Prop where
  distinct : trail.Nodup
  refers : trail.IsChain fun y x => F.Refers x y
  cells : ∀ x ∈ trail, (F x).isSome

/-- The room that the formulas of the cells take inside one another. -/
def span (F : Formulas) : List String → Nat
  | [] => 0
  | id :: rest => F.weight id + F.span rest

/-- Every trail of references fits in the room; its first cell stands inside no other one and takes
its formula only. -/
def FitIn (F : Formulas) (room : Nat) : Prop :=
  ∀ trail, F.Trail trail → F.span trail ≤ room + 2

/-- Each formula has the room that its meaning is given, or both have enough. -/
def Suits (F : Formulas) (room : Nat) (roomOf : Expr → Nat) : Prop :=
  ∀ id text e, F id = some text → Formula.parse text = .ok e → Fit e.height room (roomOf e)

variable {F : Formulas}

theorem height_of_parse {id : String} {text : Option String} {e : Expr} (here : F id = some text)
    (parsed : Formula.parse text = .ok e) : F.height id = e.height := by
  rw [height, here]
  dsimp only
  rw [parsed]

theorem Reaches.isSome {x y : String} (h : F.Reaches x y) (there : (F y).isSome) :
    (F x).isSome := by
  rcases Relation.ReflTransGen.cases_head h with rfl | ⟨z, refers, -⟩
  · exact there
  · exact refers.exists

theorem Trail.single {id : String} (there : (F id).isSome) : F.Trail [id] :=
  ⟨List.nodup_singleton id, .singleton id, by simpa using there⟩

theorem Trail.cons {name id : String} {rest : List String} (h : F.Trail (id :: rest))
    (refers : F.Refers id name) (fresh : name ∉ id :: rest) (there : (F name).isSome) :
    F.Trail (name :: id :: rest) := by
  refine ⟨List.nodup_cons.2 ⟨fresh, h.distinct⟩, List.isChain_cons_cons.2 ⟨refers, h.refers⟩, ?_⟩
  intro x mem
  rcases List.mem_cons.1 mem with rfl | mem
  · exact there
  · exact h.cells x mem

/-- A trail leads from each of its cells to the last one. -/
theorem Trail.reaches {id : String} {rest : List String} (h : F.Trail (id :: rest)) {x : String}
    (mem : x ∈ id :: rest) : F.Reaches x id := by
  have refers := h.refers
  clear h
  induction rest generalizing id with
  | nil =>
    rw [List.mem_singleton.1 mem]
    exact .refl
  | cons before rest ih =>
    obtain ⟨last, refers⟩ := List.isChain_cons_cons.1 refers
    rcases List.mem_cons.1 mem with rfl | mem
    · exact .refl
    · exact (ih mem refers).tail last

theorem Trail.subperm {trail names : List String} (h : F.Trail trail)
    (all : ∀ x, (F x).isSome → x ∈ names) : trail.Subperm names :=
  h.distinct.subperm fun x mem => all x (h.cells x mem)

theorem span_perm {a b : List String} (same : a.Perm b) : F.span a = F.span b := by
  induction same with
  | nil => rfl
  | cons x _ ih => rw [span, span, ih]
  | swap x y rest => simp only [span]; omega
  | trans _ _ first second => exact first.trans second

theorem span_sublist {a b : List String} (sub : a.Sublist b) : F.span a ≤ F.span b := by
  induction sub with
  | slnil => exact Nat.le_refl _
  | cons x _ ih => simp only [span]; omega
  | cons_cons x _ ih => simp only [span]; omega

/-- All trails fit if the formulas of all cells fit inside one another. -/
theorem fitIn_of_span_le {names : List String} {room : Nat} (all : ∀ x, (F x).isSome → x ∈ names)
    (enough : F.span names ≤ room + 2) : F.FitIn room := by
  intro trail h
  obtain ⟨part, same, sub⟩ := h.subperm all
  calc F.span trail
      = F.span part := (span_perm same).symm
    _ ≤ F.span names := span_sublist sub
    _ ≤ room + 2 := enough

end Formulas

/-! ### Sound states -/

section
variable (sim : Simulation) (roomOf : Expr → Nat) (F : Formulas)

/-- The formulas are the given ones, and the cells that the cycle has reached are finished but
for the active ones. -/
structure Sound (p : Progress) : Prop where
  formulas : p.sheet.formulas = F
  faithful : p.sheet.Faithful
  finished : p.sheet.All fun id c =>
    c.processed = true → id ∉ p.active → Finished sim roomOf F id c

/-- The named cell is finished. -/
def FinishedAt (s : Sheet) (name : String) : Prop :=
  s.All fun id c => id = name → Finished sim roomOf F id c

end

variable {sim : Simulation} {roomOf : Expr → Nat} {F : Formulas}

theorem announced_all {P : String → Cell → Prop} {q : Progress} (h : q.sheet.All P) (id : String)
    (counted : ∀ c n, P id c → P id { c with version := n })
    (marked : ∀ x ∈ q.sheet.dependents id, x ∉ q.active → ∀ c, P x c → P x c.markStale) :
    (announce id q).sheet.All P := by
  refine Sheet.All.modifyAll (h.modify id fun c hc => counted c _ hc) _ fun x mem => ?_
  have counts : ∀ c : Cell, { c with version := c.version + 1 }.dependents = c.dependents :=
    fun _ => rfl
  rw [Sheet.dependents_modify id counts, List.mem_filter] at mem
  exact marked x mem.1 (of_decide_eq_true mem.2)

/-- What the ending keeps, and an announcement for the dependents that it marks, holds after a
conclusion. -/
theorem concluded_all {P : String → Cell → Prop} {q : Progress} {id : String} {before : Cell}
    {ending : Ending} (h : Sheet.All P (Roster.modify q.sheet id ending.apply))
    (counted : ∀ c n, P id c → P id { c with version := n })
    (marked : ∀ x ∈ q.sheet.dependents id, x ∉ q.active → ∀ c, P x c → P x c.markStale) :
    (conclude id before ending.apply q).2.sheet.All P := by
  rw [conclude]
  dsimp only [Progress.onSheet]
  split
  · exact h
  · split
    · have readers := Sheet.dependents_modify (s := q.sheet) id
        (fun c => (Sheet.links_ending ending c).2) id
      exact announced_all (q := ⟨_, q.active⟩) h id counted fun x mem => marked x (readers ▸ mem)
    · exact h

namespace Sound
variable {p q : Progress} {id : String}

theorem formula_eq (h : Sound sim roomOf F p) {c : Cell} (here : p.sheet.get? id = some c) :
    F id = some c.formula := by
  rw [← h.formulas]
  exact Sheet.formulas_of_get? here

theorem exists_cell (h : Sound sim roomOf F p) (there : (F id).isSome) :
    ∃ c, p.sheet.get? id = some c := by
  rw [← h.formulas, Sheet.formulas, Option.isSome_map] at there
  exact Option.isSome_iff_exists.1 there

theorem begun (h : Sound sim roomOf F p) {before : Cell} (here : p.sheet.get? id = some before)
    (active : id ∈ p.active) : Sound sim roomOf F (p.onSheet (Sheet.begun · id before)) := by
  have step : Step p.sheet (p.sheet.begun id before) := .begin here
  refine ⟨(Sheet.formulas_step step).trans h.formulas, h.faithful.step step, ?_⟩
  refine Sheet.All.relink ?_ _ _ fun _ _ _ _ hc => ?_
  · exact h.finished.modify id fun c hc _ fresh => (fresh active).elim
  · exact fun processed fresh => ⟨(hc processed fresh).shows_, (hc processed fresh).stuck⟩

theorem conclude (h : Sound sim roomOf F q) (active : id ∈ q.active) (before : Cell)
    (ending : Ending) : Sound sim roomOf F (conclude id before ending.apply q).2 := by
  have runs := conclude_runs id before ending q
  refine ⟨(Sheet.formulas_steps runs.steps).trans h.formulas,
    runs.steps.keep (fun _ _ => Sheet.Faithful.step) h.faithful, ?_⟩
  rw [runs.active]
  refine concluded_all (h.finished.modify id fun c hc _ fresh => (fresh active).elim) ?_ ?_
  · exact fun _ _ hc processed fresh => ⟨(hc processed fresh).shows_, (hc processed fresh).stuck⟩
  · exact fun _ _ _ _ hc processed fresh =>
      ⟨(hc processed fresh).shows_, (hc processed fresh).stuck⟩

/-- A right ending finishes the cell. -/
theorem finishedAt_conclude (h : Sound sim roomOf F q) (before : Cell) {ending : Ending}
    (right : RightEnding sim roomOf F id ending) :
    FinishedAt sim roomOf F (MonteCarloSheet.conclude id before ending.apply q).2.sheet id := by
  refine concluded_all ?_ (fun _ _ hc same => ⟨(hc same).shows_, (hc same).stuck⟩)
    fun _ _ _ _ hc same => ⟨(hc same).shows_, (hc same).stuck⟩
  intro x c there same
  subst same
  rw [Roster.get?_modify, if_pos rfl] at there
  obtain ⟨d, here, rfl⟩ := Option.map_eq_some_iff.1 there
  exact right.finished (h.formula_eq here)

theorem activate (h : Sound sim roomOf F p) (name : String) :
    Sound sim roomOf F (p.activate name) :=
  ⟨h.formulas, h.faithful, fun id c here processed fresh =>
    h.finished id c here processed fun active => fresh (List.mem_cons_of_mem _ active)⟩

theorem deactivate (h : Sound sim roomOf F p) {name : String}
    (finished : FinishedAt sim roomOf F p.sheet name) : Sound sim roomOf F (p.deactivate name) := by
  refine ⟨h.formulas, h.faithful, fun id c here processed fresh => ?_⟩
  by_cases same : id = name
  · exact finished id c here same
  · refine h.finished id c here processed fun active => fresh ?_
    exact List.mem_filter.2 ⟨active, decide_eq_true same⟩

end Sound

/-! ### Nested evaluations -/

/-- A property of sheets that beginning cells and ending them rightly keeps. -/
structure Keeps (sim : Simulation) (roomOf : Expr → Nat) (F : Formulas) (K : Sheet → Prop) :
    Prop where
  begun : ∀ {s : Sheet} {id : String} {c : Cell}, K s → s.get? id = some c → K (s.begun id c)
  conclude : ∀ {s : Sheet} {id : String} {before : Cell} {ending : Ending} {q : Progress},
    K s → s.get? id = some before → K q.sheet → RightEnding sim roomOf F id ending →
    K (MonteCarloSheet.conclude id before ending.apply q).2.sheet

/-- The trails along which evaluations may nest: they may become longer, and they fit in the
room. -/
structure Nestable (sim : Simulation) (roomOf : Expr → Nat) (F : Formulas)
    (Along : List String → Prop) : Prop where
  longer : ∀ name trail, Along trail → Along (name :: trail)
  fit : ∀ trail, F.Trail trail → Along trail → F.span trail ≤ sim.room + 2
  roomy : ∀ e : Expr, e.height ≤ sim.room → e.height ≤ roomOf e

section
variable {K : Sheet → Prop} {Along : List String → Prop}

/-- What holds of the state while the cells of a chain are evaluated. -/
structure Within (sim : Simulation) (roomOf : Expr → Nat) (F : Formulas) (K : Sheet → Prop)
    (active : List String) (q : Progress) : Prop where
  sound : Sound sim roomOf F q
  active : q.active = active
  kept : K q.sheet

/-- Bringing a cell up to date finishes it, along the given trails and if there are levels for all
cells that are not active. -/
def Brings (sim : Simulation) (roomOf : Expr → Nat) (F : Formulas) (K : Sheet → Prop)
    (Along : List String → Prop) (cells levels : Nat) : Prop :=
  ∀ room name p, Within sim roomOf F K p.active p → F.Trail (name :: p.active) →
    Along (name :: p.active) → cells ≤ levels + p.active.length →
    sim.room + 2 ≤ room + F.span p.active →
    ∃ q, refresh sim levels room name (p.activate name) = (.ok (), q) ∧
      Within sim roomOf F K (name :: p.active) q ∧ FinishedAt sim roomOf F q.sheet name

theorem reads_circular {name id : String} (refers : F.Refers id name) (reaches : F.Reaches name id) :
    Reads sim roomOf F name (.error (.problem (.circular name))) := by
  have there : (F name).isSome := reaches.isSome refers.exists
  refine ⟨fun none => ?_, fun r means => ?_, fun _ _ => ⟨_, rfl⟩⟩
  · rw [none] at there
    cases there
  · exact (means.no_cycle ⟨name, .refl, .tail' reaches refers⟩).elim

theorem reads_unknown {name : String} (absent : F name = none) :
    Reads sim roomOf F name (.error (.problem (.unknownCell name))) := by
  refine ⟨fun _ => rfl, fun r means => ?_, fun there => ?_⟩
  · have there := means.isSome
    rw [absent] at there
    cases there
  · rw [absent] at there
    cases there

/-- A reference reads rightly: to an active cell it is circular, and any other cell is finished or
is brought up to date first. -/
theorem reference_nested {cells levels room : Nat} {name id : String} {q : Progress}
    {rest : List String} (brings : Brings sim roomOf F K Along cells levels)
    (within_ : Within sim roomOf F K (id :: rest) q) (refers : F.Refers id name)
    (along : ¬ q.sheet.Fresh name → Along (name :: id :: rest)) (trail : F.Trail (id :: rest)) (deep : cells ≤ levels + (id :: rest).length)
    (left : sim.room + 2 ≤ room + F.span (id :: rest)) :
    Reads sim roomOf F name (reference sim.count (refresh sim levels) room name q).1 ∧
      Within sim roomOf F K (id :: rest)
        (reference sim.count (refresh sim levels) room name q).2 := by
  obtain ⟨sound, active, kept⟩ := within_
  by_cases mem : name ∈ id :: rest
  · rw [reference, active, if_pos mem]
    exact ⟨reads_circular refers (trail.reaches mem), sound, active, kept⟩
  have other : name ∉ q.active := active ▸ mem
  cases here : q.sheet.get? name with
  | none =>
    have absent : F name = none := by
      rw [← sound.formulas, Sheet.formulas, here]
      rfl
    rw [reference, if_neg other, here]
    exact ⟨reads_unknown absent, sound, active, kept⟩
  | some c =>
    have there : (F name).isSome := by
      rw [sound.formula_eq here]
      rfl
    by_cases stale : c.isStale = true
    · rw [reference, if_neg other, here]
      dsimp only
      have notFresh : ¬ q.sheet.Fresh name := fun fresh => by
        rw [fresh c here] at stale
        cases stale
      rw [← active] at deep left
      obtain ⟨q', brought, inner, finished⟩ := brings room name q (active ▸ ⟨sound, active, kept⟩)
        (active ▸ trail.cons refers mem there) (active ▸ along notFresh) deep left
      obtain ⟨c', here'⟩ := inner.sound.exists_cell there
      rw [answer_run, if_pos stale, brought]
      refine ⟨reads_of_finished here' there (finished name c' here' rfl),
        inner.sound.deactivate finished, ?_, inner.kept⟩
      change List.filter _ q'.active = _
      rw [inner.active, active]
      exact filter_ne_cons mem
    · have finished : Finished sim roomOf F name c :=
        sound.finished name c here (Cell.processed_of_fresh (Bool.eq_false_iff.2 stale)) other
      rw [reference_fresh _ _ _ other fun d found => ?_]
      · exact ⟨reads_of_finished here there finished, sound, active, kept⟩
      · cases here.symm.trans found
        exact Bool.eq_false_iff.2 stale

theorem Within.begun (keeps : Keeps sim roomOf F K) {id : String} {rest : List String}
    {p : Progress} {before : Cell} (h : Within sim roomOf F K (id :: rest) p)
    (here : p.sheet.get? id = some before) :
    Within sim roomOf F K (id :: rest) (p.onSheet (Sheet.begun · id before)) := by
  have active : id ∈ p.active := by
    rw [h.active]
    exact List.mem_cons_self
  exact ⟨h.sound.begun here active, h.active, keeps.begun h.kept here⟩

/-- If nested evaluations go along the given trails, and there are levels for all cells, a
reevaluation gives the cell a right ending. -/
theorem reevaluateWith_nested {cells levels : Nat} (room : Nat) {id : String} {rest : List String}
    {p : Progress} {before : Cell} (brings : Brings sim roomOf F K Along cells levels)
    (sound : Sound sim roomOf F p) (here : p.sheet.get? id = some before)
    (begun : Within sim roomOf F K (id :: rest) (p.onSheet (Sheet.begun · id before)))
    (trail : F.Trail (id :: rest))
    (along : ∀ q name, K q → F.Refers id name → ¬ q.Fresh name → Along (name :: id :: rest))
    (deep : cells ≤ levels + (id :: rest).length)
    (fit : ∀ e, Formula.parse before.formula = .ok e → Fit e.height room (roomOf e))
    (left : sim.room ≤ room + F.span rest) :
    ∃ q ending, Within sim roomOf F K (id :: rest) q ∧ RightEnding sim roomOf F id ending ∧
      reevaluateWith sim (refresh sim levels) room id p = conclude id before ending.apply q := by
  have formula := sound.formula_eq here
  refine reevaluateWith_ends here formula (sound.faithful id before here) begun fit ?_
  intro e parsed name mem r more q hq
  have height := Formulas.height_of_parse formula parsed
  have refers : F.Refers id name := ⟨_, e, formula, parsed, mem⟩
  refine reference_nested brings hq refers (along q.sheet name hq.kept refers) trail deep ?_
  rw [Formulas.span, Formulas.weight]
  omega

theorem refresh_brings (nestable : Nestable sim roomOf F Along) (keeps : Keeps sim roomOf F K)
    {names : List String} (all : ∀ x, (F x).isSome → x ∈ names) (levels : Nat) :
    Brings sim roomOf F K Along names.length levels := by
  induction levels with
  | zero =>
    intro room name p _ trail _ deep _
    have := (trail.subperm all).length_le
    rw [List.length_cons] at this
    omega
  | succ levels ih =>
    intro room name p within_ trail along deep left
    have weight := nestable.fit _ trail along
    rw [Formulas.span, Formulas.weight] at weight
    obtain ⟨room, rfl⟩ : ∃ r, room = r + 2 := ⟨room - 2, by omega⟩
    obtain ⟨before, here⟩ := within_.sound.exists_cell (trail.cells name List.mem_cons_self)
    have activated : Within sim roomOf F K (name :: p.active) (p.activate name) :=
      ⟨within_.sound.activate name, rfl, within_.kept⟩
    have fit : ∀ e, Formula.parse before.formula = .ok e → Fit e.height room (roomOf e) := by
      intro e parsed
      have height := Formulas.height_of_parse (within_.sound.formula_eq here) parsed
      exact .inr ⟨by omega, nestable.roomy e (by omega)⟩
    obtain ⟨q, ending, inner, right, ends⟩ := reevaluateWith_nested room ih activated.sound here
      (activated.begun keeps here) trail (fun _ _ _ _ _ => nestable.longer _ _ along)
      (by rw [List.length_cons]; omega) fit (by omega)
    have active : name ∈ q.active := by
      rw [inner.active]
      exact List.mem_cons_self
    have kept := keeps.conclude within_.kept here inner.kept right
    have sound := inner.sound.conclude active before ending
    have finished := inner.sound.finishedAt_conclude before right
    have same := (conclude_runs name before ending q).active
    have ended := conclude_ne_abandoned name before ending.apply q
    rw [refresh_run, ends]
    generalize conclude name before ending.apply q = out at *
    obtain ⟨outcome, q'⟩ := out
    cases outcome with
    | abandoned => exact (ended rfl).elim
    | unchanged => exact ⟨q', rfl, ⟨sound, same.trans inner.active, kept⟩, finished⟩
    | changed => exact ⟨q', rfl, ⟨sound, same.trans inner.active, kept⟩, finished⟩

end

end MonteCarloSheet
