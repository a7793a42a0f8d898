import MonteCarloSheet.Proofs.Sheet.Current
import MonteCarloSheet.Proofs.Sheet.Meaning

/-! Cells that show what they mean.

A cell shows a result if it carries it and nothing else. It is finished if it shows
the result that it means, or carries some fault if it means none. A reference to
a finished cell reads what the meaning passes on (`reads_of_finished`), and a right
ending finishes a cell (`RightEnding.finished`). -/
namespace MonteCarloSheet

open Formula (Answering Expr Stop evaluateWith Fit Agree)

/-! ### Formulas stay -/

namespace Sheet

theorem formulas_map {s : Sheet} {f : String → Cell → Cell}
    (keep : ∀ id c, (f id c).formula = c.formula) : formulas (Roster.map f s) = s.formulas := by
  funext x
  rw [formulas, Roster.get?_map, formulas, Option.map_map]
  congr 1
  exact funext (keep x)

theorem formulas_modify {s : Sheet} (id : String) {f : Cell → Cell}
    (keep : ∀ c, (f c).formula = c.formula) : formulas (Roster.modify s id f) = s.formulas := by
  refine formulas_map fun other c => ?_
  by_cases same : other = id
  · rw [if_pos same, keep]
  · rw [if_neg same]

theorem formulas_modifyAll {s : Sheet} (ids : List String) {f : Cell → Cell}
    (keep : ∀ c, (f c).formula = c.formula) : (s.modifyAll ids f).formulas = s.formulas := by
  induction ids generalizing s with
  | nil => rfl
  | cons id rest ih => exact ih.trans (formulas_modify id keep)

theorem formulas_relink (s : Sheet) (id : String) (targets : List String) :
    (s.relink id targets).formulas = s.formulas := by
  funext x
  obtain ⟨readers, relinked⟩ := get?_relink_links s id targets x
  rw [formulas, relinked, formulas, Option.map_map]
  rfl

theorem formulas_prepare (s : Sheet) (id : String) : (s.prepare id).formulas = s.formulas := by
  rw [prepare]
  split
  · rfl
  · split
    · exact formulas_relink s id _
    · split
      · rfl
      next e _ =>
        rw [formulas_relink]
        exact formulas_modify id (f := fun c => { c with parsed := some e }) fun _ => rfl

theorem formulas_prepared (s : Sheet) : s.prepared.formulas = s.formulas :=
  prepareAll_keep (I := fun t => t.formulas = s.formulas)
    (fun t id h => (formulas_prepare t id).trans h)
    (formulas_map (f := fun _ c => c.beginCycle) fun _ _ => rfl)

theorem formulas_step {s t : Sheet} (step : Step s t) : t.formulas = s.formulas := by
  cases step with
  | @begin _ id c here =>
    rw [begun, formulas_relink]
    exact formulas_modify id fun _ => rfl
  | finish _ id ending => exact formulas_modify id fun c => by cases ending <;> rfl
  | announce p id =>
    refine (formulas_modifyAll _ (f := Cell.markStale) fun _ => rfl).trans ?_
    exact formulas_modify id (f := fun c => { c with version := c.version + 1 }) fun _ => rfl

theorem formulas_steps {s t : Sheet} (steps : Steps s t) : t.formulas = s.formulas :=
  steps.keep (I := fun u => u.formulas = s.formulas)
    (fun _ _ step h => (formulas_step step).trans h) rfl

theorem formulas_recalculate (sim : Simulation) (s : Sheet) :
    (s.recalculate sim).2.formulas = s.formulas :=
  (formulas_steps (sweeps_steps sim s.prepared.order (sweepLimit s.prepared) 0 s.prepared)).trans
    (formulas_prepared s)

theorem formulas_of_get? {s : Sheet} {id : String} {c : Cell} (here : s.get? id = some c) :
    s.formulas id = some c.formula := by
  rw [formulas, here]
  rfl

end Sheet

/-- Cells whose formulas name none but themselves lead to no others. -/
theorem Formulas.mem_of_reaches {F : Formulas} (ids : List String)
    (closed : ∀ x ∈ ids, ∀ y ∈ linksOf (Formula.parse ((F x).getD none)), y ∈ ids) {x y : String}
    (mem : x ∈ ids) (reaches : F.Reaches x y) : y ∈ ids := by
  induction reaches with
  | refl => exact mem
  | @tail y z _ last ih =>
    obtain ⟨text, e, formula, parsed, named⟩ := last
    refine closed y ih z ?_
    rw [formula]
    exact Sheet.mem_linksOf.2 ⟨e, parsed, named⟩

/-! ### Showing a result -/

/-- The cell carries the result: it is valid with the output that the value has in its formula, or
it has the fault, and no output if the fault is its own. -/
def Cell.Shows (c : Cell) : Result → Prop
  | .ok v => c.status = .valid ∧ ∃ e, Formula.parse c.formula = .ok e ∧ c.output = .ofValue e v
  | .error f => c.fault = some f ∧ (f.isDependency = false → c.output = .none)

theorem Cell.status_valid_iff {c : Cell} :
    c.status = .valid ↔ c.fault = none ∧ c.settled = true := by
  rw [status]
  cases c.fault with
  | none => cases c.settled <;> simp
  | some f => cases kind : f.isDependency <;> simp [kind]

section
variable (sim : Simulation) (room : Expr → Nat) (F : Formulas)

/-- The cell shows what it means, and carries a fault if it means nothing. -/
structure Finished (id : String) (c : Cell) : Prop where
  shows_ : ∀ r, Denotes sim room F id r → c.Shows r
  stuck : (∀ r, ¬ Denotes sim room F id r) → ∃ f, c.fault = some f

/-- The endings that finish a cell. -/
inductive RightEnding (id : String) : Ending → Prop where
  | value {text : Option String} {e : Expr} {v : Value} (here : F id = some text)
      (parsed : Formula.parse text = .ok e) (means : Denotes sim room F id (.ok v)) :
      RightEnding id (.settled (.ofValue e v))
  | fault {f : Fault} (means : Denotes sim room F id (.error f)) : RightEnding id (.failed f)
  | stuck {f : Fault} (none : ∀ r, ¬ Denotes sim room F id r) : RightEnding id (.failed f)

/-- A reference to the name reads what the meaning of the cell passes on, or some fault if the
cell means nothing. -/
structure Reads (name : String) (x : Except Stop (Option Value)) : Prop where
  unknown : F name = none → x = .error (.problem (.unknownCell name))
  passedOn : ∀ r, Denotes sim room F name r → x = passedOn name r
  stuck : (F name).isSome → (∀ r, ¬ Denotes sim room F name r) → ∃ f, x = .error (.fault f)

end

variable {sim : Simulation} {roomOf : Expr → Nat} {F : Formulas}

theorem RightEnding.finished {id : String} {ending : Ending} {c : Cell}
    (h : RightEnding sim roomOf F id ending) (formula : F id = some c.formula) :
    Finished sim roomOf F id (ending.apply c) := by
  cases h with
  | @value text e v here parsed means =>
    refine ⟨fun r hr => ?_, fun none => (none _ means).elim⟩
    cases hr.unique means
    cases here.symm.trans formula
    exact ⟨rfl, e, parsed, rfl⟩
  | @fault f means =>
    refine ⟨fun r hr => ?_, fun none => (none _ means).elim⟩
    cases hr.unique means
    exact ⟨rfl, fun own => if_neg (by rw [own]; exact Bool.false_ne_true)⟩
  | @stuck f none => exact ⟨fun r hr => (none r hr).elim, fun _ => ⟨f, rfl⟩⟩

theorem Output.reading_ofValue (e : Expr) (v : Value) : (ofValue e v).reading = some v := by
  cases v <;> rfl

theorem read_of_shows {name : String} {c : Cell} {r : Result} (h : c.Shows r)
    (fits : ∀ v, r = .ok v → v.Fits sim.count) :
    (match c.read name sim.count with
      | .error f => .error (.fault f)
      | .ok value => .ok value) = passedOn name r := by
  cases r with
  | error f =>
    rw [Cell.read, h.1]
    rfl
  | ok v =>
    obtain ⟨valid, e, -, output⟩ := h
    rw [Cell.read, (Cell.status_valid_iff.1 valid).1, output]
    dsimp only
    rw [Output.reading_ofValue]
    cases v with
    | number x => rfl
    | samples xs =>
      have right : xs.length = 0 ∨ xs.length = sim.count := fits _ rfl
      dsimp only
      rw [if_pos right]
      rfl

theorem reads_of_finished {s : Sheet} {name : String} {c : Cell} (here : s.get? name = some c)
    (there : (F name).isSome) (h : Finished sim roomOf F name c) :
    Reads sim roomOf F name (readOf sim.count name s) := by
  rw [readOf, here]
  dsimp only
  refine ⟨fun none => ?_, fun r hr => ?_, fun _ none => ?_⟩
  · rw [none] at there
    cases there
  · exact read_of_shows (h.shows_ r hr) fun v same => hr.fits same
  · obtain ⟨f, fault⟩ := h.stuck none
    rw [Cell.read, fault]
    exact ⟨_, rfl⟩

/-! ### Evaluations that end rightly -/

open Classical in
/-- A result that the cell means, if it means one. -/
noncomputable def meant (sim : Simulation) (room : Expr → Nat) (F : Formulas) (name : String) :
    Result :=
  if h : ∃ r, Denotes sim room F name r then h.choose else .error (.own (.circular name))

theorem Denotes.eq_meant {name : String} {r : Result} (h : Denotes sim roomOf F name r) :
    meant sim roomOf F name = r := by
  have means : ∃ r, Denotes sim roomOf F name r := ⟨r, h⟩
  rw [meant, dif_pos means]
  exact means.choose_spec.unique h

theorem denotes_meant {name : String} (h : ∃ r, Denotes sim roomOf F name r) :
    Denotes sim roomOf F name (meant sim roomOf F name) := by
  obtain ⟨r, means⟩ := h
  rw [means.eq_meant]
  exact means

/-- What reads rightly agrees with the answer that comes from the results that are meant. -/
theorem Reads.agree {E : Stop → Stop → Prop} (same : ∀ x, E x x) {name : String}
    {x : Except Stop (Option Value)} (h : Reads sim roomOf F name x)
    (enough : ((F name).isSome → ∃ r, Denotes sim roomOf F name r) ∨
      ∀ f g, E (.fault f) (.fault g)) :
    Agree E x (F.answers (meant sim roomOf F) name) := by
  rw [Formulas.answers]
  cases there : F name with
  | none =>
    rw [h.unknown there]
    exact same _
  | some text =>
    have isSome : (F name).isSome := by rw [there]; rfl
    dsimp only
    by_cases means : ∃ r, Denotes sim roomOf F name r
    · rw [h.passedOn _ (denotes_meant means)]
      exact Agree.refl same _
    · have faults := enough.resolve_left fun all => means (all isSome)
      obtain ⟨f, rfl⟩ := h.stuck isSome fun r hr => means ⟨r, hr⟩
      rw [meant, dif_neg means]
      exact faults _ _

theorem answers_meant_whole (sim : Simulation) (roomOf : Expr → Nat) (F : Formulas)
    (name : String) : Formula.Whole sim.count (F.answers (meant sim roomOf F) name) := by
  refine Denotes.answers_whole fun _ v same => ?_
  by_cases means : ∃ r, Denotes sim roomOf F name r
  · exact (denotes_meant means).fits same
  · rw [meant, dif_neg means] at same
    cases same

/-- A cell that exists and means nothing gets no value from its answers. -/
theorem answers_meant_stuck {name : String} (there : (F name).isSome)
    (none : ¬ ∃ r, Denotes sim roomOf F name r) (a : Option Value) :
    F.answers (meant sim roomOf F) name ≠ .ok a := by
  obtain ⟨text, here⟩ := Option.isSome_iff_exists.1 there
  rw [Formulas.answers, here, meant, dif_neg none]
  exact fun absurd => by cases absurd

end MonteCarloSheet
