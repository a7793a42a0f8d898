import MonteCarloSheet.Proofs.Sheet.Soundness

/-! Sheets at rest.

A sheet is at rest if every cell shows what it means, and keeps the tree and the
links of its formula (`AtRest`). Beginning a cell of such a sheet and ending it
rightly changes marks only, and makes no cell stale (`Fresher`), so nothing is
announced (`conclude_calm`) and all evaluations that this leads to leave the sheet
at rest (`AtRest.keeps`). -/
namespace MonteCarloSheet

open Formula (Expr)

/-! ### Marks -/

/-- The cell with other marks. -/
def Cell.mark (needs processed : Bool) (c : Cell) : Cell :=
  { c with needsReevaluation := needs, processed := processed }

/-- The second sheet differs from the first in marks only, and no cell is stale that was not. -/
structure Fresher (s t : Sheet) : Prop where
  names : t.names = s.names
  cells : ∀ x, ∃ needs processed, t.get? x = (s.get? x).map (Cell.mark needs processed) ∧
    ∀ c, s.get? x = some c →
      (needs = true → c.needsReevaluation = true) ∧ (c.processed = true → processed = true)

namespace Fresher
variable {s t u : Sheet}

theorem refl (s : Sheet) : Fresher s s := by
  refine ⟨rfl, fun x => ?_⟩
  cases here : s.get? x with
  | none => exact ⟨false, false, rfl, fun _ absurd => by cases absurd⟩
  | some c =>
    refine ⟨c.needsReevaluation, c.processed, rfl, fun d same => ?_⟩
    cases same
    exact ⟨id, id⟩

theorem trans (first : Fresher s t) (second : Fresher t u) : Fresher s u := by
  refine ⟨second.names.trans first.names, fun x => ?_⟩
  obtain ⟨needs, processed, between, before⟩ := first.cells x
  obtain ⟨needs', processed', after, later⟩ := second.cells x
  refine ⟨needs', processed', ?_, fun c here => ?_⟩
  · rw [after, between, Option.map_map]
    rfl
  · rw [between, here] at later
    obtain ⟨fewer, more⟩ := later _ rfl
    exact ⟨fun h => (before c here).1 (fewer h), fun h => more ((before c here).2 h)⟩

/-- Whatever does not depend on the marks is the same. -/
theorem map_get? (h : Fresher s t) {f : Cell → α}
    (same : ∀ needs processed c, f (c.mark needs processed) = f c) (x : String) :
    (t.get? x).map f = (s.get? x).map f := by
  obtain ⟨needs, processed, after, -⟩ := h.cells x
  rw [after, Option.map_map]
  exact congrArg (Option.map · _) (funext (same needs processed))

theorem all (h : Fresher s t) {P : String → Cell → Prop}
    (keep : ∀ x c needs processed, P x c → P x (c.mark needs processed)) (all : s.All P) :
    t.All P := by
  intro x d there
  obtain ⟨needs, processed, after, -⟩ := h.cells x
  rw [after] at there
  obtain ⟨c, here, rfl⟩ := Option.map_eq_some_iff.1 there
  exact keep x c _ _ (all x c here)

/-- A cell of the second sheet is that of the first with other marks. -/
theorem mark_of_get? (h : Fresher s t) {x : String} {c d : Cell} (before : s.get? x = some c)
    (after : t.get? x = some d) : ∃ needs processed, d = c.mark needs processed := by
  obtain ⟨needs, processed, there, -⟩ := h.cells x
  rw [before, after] at there
  exact ⟨needs, processed, Option.some.inj there⟩

end Fresher

namespace Sheet

theorem fresh_iff {c : Cell} :
    c.isStale = false ↔ c.needsReevaluation = false ∧ c.processed = true := by
  rw [Cell.isStale, Bool.or_eq_false_iff, Bool.not_eq_false']

theorem Fresh.fresher {s t : Sheet} {x : String} (h : s.Fresh x) (fresher : Fresher s t) :
    t.Fresh x := by
  intro d there
  obtain ⟨needs, processed, after, marks⟩ := fresher.cells x
  rw [there] at after
  obtain ⟨c, here, rfl⟩ := Option.map_eq_some_iff.1 after.symm
  obtain ⟨few, many⟩ := fresh_iff.1 (h c here)
  refine fresh_iff.2 ⟨?_, (marks c here).2 many⟩
  change needs = false
  cases needs with
  | false => rfl
  | true => exact ((marks c here).1 rfl).symm.trans few

end Sheet

/-! ### Links that stay -/

/-- Relinking a cell to what it reads already changes nothing. -/
theorem Sheet.relink_self {s : Sheet} (tied : s.Tied) {id : String} {c : Cell}
    (here : s.get? id = some c) : s.relink id c.dependencies = s := by
  have links : s.dependencies id = c.dependencies := by
    rw [dependencies, here]
    rfl
  refine Roster.ext (names_relink s id _) fun x => ?_
  rw [get?_relink, links]
  cases there : s.get? x with
  | none => rfl
  | some d =>
    have none : ¬ (x ∈ c.dependencies ∧ x ∉ c.dependencies) := fun both => both.2 both.1
    have told : (if x ∈ c.dependencies then d.addDependent id else d) = d := by
      by_cases mem : x ∈ c.dependencies
      · have reader : id ∈ s.dependents x :=
          (tied.linked x (Roster.mem_names.2 ⟨d, there⟩) id (Roster.mem_names.2 ⟨c, here⟩)).2
            (links ▸ mem)
        rw [dependents, there] at reader
        change id ∈ d.dependents at reader
        rw [if_pos mem, Cell.addDependent, List.insert_of_mem reader]
      · exact if_neg mem
    rw [Option.map_some]
    dsimp only
    rw [if_neg none, told]
    by_cases self : x = id
    · cases self
      cases here.symm.trans there
      rw [if_pos rfl]
      rfl
    · rw [if_neg self]

theorem Cell.Begun.tree_eq {c : Cell} (h : c.Begun) : c.tree = Formula.parse c.formula := by
  rw [Cell.tree, h.parsed]
  cases Formula.parse c.formula <;> rfl

/-- Beginning a cell that is as its beginning left it marks it only. -/
theorem Cell.Begun.begin_eq {c : Cell} (h : c.Begun) : c.begin = c.mark false true := by
  rw [Cell.begin, h.tree_eq, ← h.parsed, Cell.start, ← h.histogram]
  rfl

theorem Cell.Begun.mark {c : Cell} (h : c.Begun) (needs processed : Bool) :
    (c.mark needs processed).Begun :=
  ⟨h.parsed, h.links, h.histogram⟩

/-! ### Sheets at rest -/

/-- Every cell shows what it means, and its tree and its links are those of its formula. -/
structure AtRest (sim : Simulation) (roomOf : Expr → Nat) (F : Formulas) (s : Sheet) : Prop where
  formulas : s.formulas = F
  tied : s.Tied
  begun : s.All fun _ c => c.Begun
  shows_ : s.All fun id c => ∃ r, Denotes sim roomOf F id r ∧ c.Shows r

variable {sim : Simulation} {roomOf : Expr → Nat} {F : Formulas}

/-- A right ending gives a cell that shows what it means nothing new. -/
theorem RightEnding.apply_eq {id : String} {ending : Ending} {c : Cell} {r : Result}
    (h : RightEnding sim roomOf F id ending) (formula : F id = some c.formula)
    (means : Denotes sim roomOf F id r) (shows_ : c.Shows r) : ending.apply c = c := by
  cases h with
  | @value text e v here parsed means' =>
    cases means.unique means'
    cases here.symm.trans formula
    obtain ⟨valid, e', parsed', output⟩ := shows_
    cases parsed.symm.trans parsed'
    obtain ⟨fault, settled⟩ := Cell.status_valid_iff.1 valid
    rw [Ending.apply, Cell.settle, ← output, ← fault, ← settled]
  | @fault f means' =>
    cases means.unique means'
    obtain ⟨fault, output⟩ := shows_
    rw [Ending.apply, Cell.fail, ← fault]
    by_cases own : f.isDependency = true
    · rw [if_pos own]
    · rw [if_neg own, ← output (Bool.eq_false_iff.2 own)]
  | @stuck f none => exact (none r means).elim

/-- A cell that shows what it means is concluded without a change. -/
theorem conclude_unchanged {q : Progress} {id : String} {c before : Cell} {ending : Ending}
    {r : Result} (here : q.sheet.get? id = some c) (formula : F id = some c.formula)
    (means : Denotes sim roomOf F id r) (shows_ : c.Shows r)
    (same : c.observation = before.observation) (right : RightEnding sim roomOf F id ending) :
    conclude id before ending.apply q = (.unchanged, q) := by
  have applied : q.sheet.modify id ending.apply = q.sheet := by
    rw [Roster.modify_congr (g := fun c => c) here (right.apply_eq formula means shows_)]
    refine Roster.ext (Roster.names_modify _ _ _) fun x => ?_
    rw [Roster.get?_modify, Option.map_id', ite_self]
  have unchanged : before.changed c = false := by
    rw [Cell.changed, same, Cell.Observation.same_refl]
    rfl
  rw [conclude]
  dsimp only [Progress.onSheet]
  rw [applied, here]
  dsimp only
  rw [unchanged]
  rfl

namespace AtRest
variable {s t : Sheet} {id : String} {c : Cell}

theorem fresher (h : AtRest sim roomOf F s) (fresher : Fresher s t) : AtRest sim roomOf F t where
  formulas := (funext (fresher.map_get? fun _ _ _ => rfl)).trans h.formulas
  tied := h.tied.congr fresher.names
    (fun x => congrArg (Option.getD · []) (fresher.map_get? (f := Cell.dependencies)
      (fun _ _ _ => rfl) x))
    fun x => congrArg (Option.getD · []) (fresher.map_get? (f := Cell.dependents)
      (fun _ _ _ => rfl) x)
  begun := fresher.all (fun _ _ needs processed hc => hc.mark needs processed) h.begun
  shows_ := fresher.all (fun _ _ _ _ => id) h.shows_

theorem formula_eq (h : AtRest sim roomOf F s) (here : s.get? id = some c) :
    F id = some c.formula := by
  rw [← h.formulas]
  exact Sheet.formulas_of_get? here

theorem sound (h : AtRest sim roomOf F s) : Sound sim roomOf F ⟨s, []⟩ where
  formulas := h.formulas
  faithful := fun id c here => (h.begun id c here).tree_eq
  finished := fun id c here _ _ => by
    obtain ⟨r, means, shows_⟩ := h.shows_ id c here
    exact ⟨fun q hq => hq.unique means ▸ shows_, fun none => (none r means).elim⟩

theorem begun_eq (h : AtRest sim roomOf F s) (here : s.get? id = some c) :
    s.begun id c = s.modify id (Cell.mark false true) := by
  have begun := h.begun id c here
  have marked : (s.modify id Cell.begin) = s.modify id (Cell.mark false true) :=
    Roster.modify_congr here begun.begin_eq
  have tied : Sheet.Tied (s.modify id (Cell.mark false true)) :=
    h.tied.modify id (fun _ => rfl) fun _ => rfl
  rw [Sheet.begun, marked, begun.tree_eq, ← begun.links]
  refine Sheet.relink_self (c := c.mark false true) tied ?_
  rw [Roster.get?_modify, if_pos rfl, here]
  rfl

theorem get?_begun (h : AtRest sim roomOf F s) (here : s.get? id = some c) :
    (s.begun id c).get? id = some (c.mark false true) := by
  rw [h.begun_eq here, Roster.get?_modify, if_pos rfl, here]
  rfl

theorem fresher_begun (h : AtRest sim roomOf F s) (here : s.get? id = some c) :
    Fresher s (s.begun id c) := by
  rw [h.begun_eq here]
  refine ⟨Roster.names_modify s id _, fun x => ?_⟩
  rw [Roster.get?_modify]
  by_cases self : x = id
  · rw [if_pos self]
    exact ⟨false, true, rfl, fun _ _ => ⟨fun absurd => (by cases absurd), fun _ => rfl⟩⟩
  · rw [if_neg self]
    exact (Fresher.refl s).cells x

theorem conclude_calm {q : Progress} (h : AtRest sim roomOf F q.sheet)
    (here : q.sheet.get? id = some c) (before : Cell) (same : c.observation = before.observation)
    {ending : Ending} (right : RightEnding sim roomOf F id ending) :
    conclude id before ending.apply q = (.unchanged, q) := by
  obtain ⟨r, means, shows_⟩ := h.shows_ id c here
  exact conclude_unchanged here (h.formula_eq here) means shows_ same right

/-- Evaluations leave a sheet at rest, and no cell stale that was not. -/
theorem keeps (h : AtRest sim roomOf F s) : Keeps sim roomOf F (Fresher s) where
  begun := fun fresher here => fresher.trans ((h.fresher fresher).fresher_begun here)
  conclude := by
    intro t id before ending q earlier here later right
    have there : id ∈ q.sheet.names := by
      rw [later.names, ← earlier.names]
      exact Roster.mem_names.2 ⟨before, here⟩
    obtain ⟨c, found⟩ := Roster.mem_names.1 there
    have same : some c.observation = some before.observation := by
      have first := earlier.map_get? (f := Cell.observation) (fun _ _ _ => rfl) id
      have second := later.map_get? (f := Cell.observation) (fun _ _ _ => rfl) id
      rw [here] at first
      rw [found] at second
      exact second.trans first.symm
    rw [(h.fresher later).conclude_calm found before (Option.some.inj same) right]
    exact later

end AtRest

end MonteCarloSheet
