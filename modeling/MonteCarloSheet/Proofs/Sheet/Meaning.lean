import Mathlib.Data.Fintype.Card
import Mathlib.Data.Set.Finite.Basic
import Mathlib.Logic.Relation
import MonteCarloSheet.Proofs.Formula.Outcome
import MonteCarloSheet.Sheet.Recalculation

/-! The meaning of a sheet.

What the cells of a sheet come to depends on their formulas alone: a formula is
evaluated by itself, each reference having the result of the cell that it names
(`Denotes`). A cell means at most one result (`Denotes.unique`). It means none
exactly if a chain of references leads from it into a cycle
(`denotes_iff_no_cycle`). -/
namespace MonteCarloSheet

open Formula (Expr Stop evaluateWith)
open MonteCarloSheet.Random (Generator)

/-- The formula under each id, where there is a cell. -/
abbrev Formulas := String → Option (Option String)

def Sheet.formulas (s : Sheet) : Formulas :=
  fun id => (s.get? id).map Cell.formula

/-- What a cell comes to. -/
abbrev Result := Except Fault Value

namespace Formulas

/-- The formula of the first cell names the second. -/
def Refers (F : Formulas) (x y : String) : Prop :=
  ∃ text e, F x = some text ∧ Formula.parse text = .ok e ∧ y ∈ e.references

/-- A chain of references leads from one cell to the other. -/
def Reaches (F : Formulas) : String → String → Prop :=
  Relation.ReflTransGen F.Refers

/-- A chain of references leads from the cell into a cycle. -/
def ReachesCycle (F : Formulas) (x : String) : Prop :=
  ∃ y, F.Reaches x y ∧ Relation.TransGen F.Refers y y

end Formulas

/-- What a reference to a cell with a result gets: the value, or the fault with the root that it
passes on. -/
def passedOn (name : String) : Result → Except Stop (Option Value)
  | .ok v => .ok (some v)
  | .error f => .error (.fault (.inherited name f.root))

/-- The answers to references, given the result of each cell; a cell that does not exist is
unknown. -/
def Formulas.answers (F : Formulas) (results : String → Result) (name : String) :
    Except Stop (Option Value) :=
  match F name with
  | none => .error (.problem (.unknownCell name))
  | some _ => passedOn name (results name)

/-- The result that the end of an evaluation stands for. -/
inductive ComesTo : Except Stop (Option Value × Generator) → Result → Prop where
  | value (v : Value) (g : Generator) : ComesTo (.ok (some v, g)) (.ok v)
  | fault (f : Fault) : ComesTo (.error (.fault f)) (.error f)

/-- The result that a cell means by its formula and the results of the cells it refers to. The
generator depends on the source, the id and the formula only. -/
inductive Denotes (sim : Simulation) (room : Expr → Nat) (F : Formulas) :
    String → Result → Prop where
  | malformed {id : String} {text : Option String} {err : SyntaxError} (here : F id = some text)
      (unparsed : Formula.parse text = .error err) :
      Denotes sim room F id (.error (.own (.malformed err)))
  | evaluated {id : String} {text : Option String} {e : Expr} {results : String → Result}
      {r : Result} (here : F id = some text) (parsed : Formula.parse text = .ok e)
      (refs : ∀ name ∈ e.references, (F name).isSome → Denotes sim room F name (results name))
      (comes : ComesTo (evaluateWith (F.answers results) sim.count (room e) e
        (sim.source.generatorFor [id, text.getD ""])) r) :
      Denotes sim room F id r

theorem ComesTo.unique {x : Except Stop (Option Value × Generator)} {r q : Result}
    (hr : ComesTo x r) (hq : ComesTo x q) : r = q := by
  cases hr <;> cases hq <;> rfl

namespace Formulas
variable {F : Formulas}

/-- The answers come from the results of the cells that exist. -/
theorem answers_congr {results others : String → Result} {name : String}
    (same : (F name).isSome → results name = others name) :
    F.answers results name = F.answers others name := by
  rw [answers, answers]
  cases h : F name with
  | none => rfl
  | some text => rw [same (by rw [h]; rfl)]

theorem Refers.exists {x y : String} (h : F.Refers x y) : (F x).isSome := by
  obtain ⟨text, -, here, -⟩ := h
  rw [here]
  rfl

theorem ReachesCycle.of_refers {x y : String} (h : F.Refers x y) (cycle : F.ReachesCycle y) :
    F.ReachesCycle x := by
  obtain ⟨z, reaches, around⟩ := cycle
  exact ⟨z, .head h reaches, around⟩

end Formulas

namespace Denotes
variable {sim : Simulation} {room : Expr → Nat} {F : Formulas} {id : String}

theorem isSome {r : Result} (h : Denotes sim room F id r) : (F id).isSome := by
  cases h with
  | malformed here => rw [here]; rfl
  | evaluated here => rw [here]; rfl

/-- A cell means one result only. -/
theorem unique {r q : Result} (hr : Denotes sim room F id r) (hq : Denotes sim room F id q) :
    r = q := by
  induction hr generalizing q with
  | malformed here unparsed =>
    cases hq with
    | malformed here' unparsed' =>
      cases here.symm.trans here'
      cases unparsed.symm.trans unparsed'
      rfl
    | evaluated here' parsed' =>
      cases here.symm.trans here'
      cases unparsed.symm.trans parsed'
  | @evaluated id text e results r here parsed refs comes ih =>
    cases hq with
    | malformed here' unparsed' =>
      cases here.symm.trans here'
      cases parsed.symm.trans unparsed'
    | @evaluated _ text' e' others _ here' parsed' refs' comes' =>
      cases here.symm.trans here'
      cases parsed.symm.trans parsed'
      have same : ∀ name ∈ e.references, F.answers results name = F.answers others name :=
        fun name mem => Formulas.answers_congr fun there => ih name mem there (refs' name mem there)
      rw [Formula.evaluateWith_congr same] at comes
      exact comes.unique comes'

/-- What a cell means depends only on the formulas of the cells that it reaches. -/
theorem congr {G : Formulas} {r : Result} (h : Denotes sim room F id r)
    (same : ∀ x, F.Reaches id x → G x = F x) : Denotes sim room G id r := by
  induction h with
  | malformed here unparsed => exact .malformed ((same _ .refl).trans here) unparsed
  | @evaluated id text e results r here parsed refs comes ih =>
    have refers : ∀ name ∈ e.references, F.Refers id name := fun name mem =>
      ⟨text, e, here, parsed, mem⟩
    have named : ∀ name ∈ e.references, G name = F name := fun name mem =>
      same name (.single (refers name mem))
    have answers : ∀ name ∈ e.references, G.answers results name = F.answers results name := by
      intro name mem
      rw [Formulas.answers, Formulas.answers, named name mem]
    rw [← Formula.evaluateWith_congr answers] at comes
    refine .evaluated ((same id .refl).trans here) parsed (fun name mem there => ?_) comes
    rw [named name mem] at there
    exact ih name mem there fun x reaches => same x (.head (refers name mem) reaches)

/-- If a cell means a result, so does every cell that it refers to. -/
theorem of_refers {r : Result} (h : Denotes sim room F id r) {name : String}
    (refers : F.Refers id name) (there : (F name).isSome) : ∃ q, Denotes sim room F name q := by
  obtain ⟨text, e, here, parsed, mem⟩ := refers
  cases h with
  | malformed here' unparsed' =>
    cases here.symm.trans here'
    cases parsed.symm.trans unparsed'
  | @evaluated _ _ _ results _ here' parsed' refs =>
    cases here.symm.trans here'
    cases parsed.symm.trans parsed'
    exact ⟨results name, refs name mem there⟩

theorem answers_whole {results : String → Result} {name : String} {count : Nat}
    (fits : (F name).isSome → ∀ v, results name = .ok v → v.Fits count) :
    Formula.Whole count (F.answers results name) := by
  rw [Formulas.answers]
  cases h : F name with
  | none => trivial
  | some text =>
    dsimp only
    cases same : results name with
    | error f => trivial
    | ok v => exact ⟨v, rfl, fits (by rw [h]; rfl) v same⟩

/-- Samples that a cell means fit the sample count. -/
theorem fits {r : Result} (h : Denotes sim room F id r) {v : Value} (same : r = .ok v) :
    v.Fits sim.count := by
  induction h generalizing v with
  | malformed => cases same
  | @evaluated id text e results r here parsed refs comes ih =>
    have ends := Formula.evaluateWith_ends e
      (fun name mem => answers_whole fun there v same => ih name mem there same) (room e)
      (sim.source.generatorFor [id, text.getD ""])
    generalize evaluateWith (F.answers results) sim.count (room e) e _ = x at comes ends
    cases comes with
    | fault f => cases same
    | value v' g =>
      cases same
      obtain ⟨⟨x, eq, fits⟩, -⟩ := ends
      cases eq
      exact fits

theorem exists_comesTo {answers : String → Except Stop (Option Value)} {count : Nat}
    {names : List String} {x : Except Stop (Option Value × Generator)}
    (ends : Formula.Ends (Formula.Proper answers count names) x) : ∃ r, ComesTo x r := by
  rcases x with (f | _) | ⟨v, g⟩
  · exact ⟨_, .fault f⟩
  · exact ends.elim
  · obtain ⟨⟨x, rfl, -⟩, -⟩ := ends
    exact ⟨_, .value x g⟩

/-- A cell means a result if all cells that it refers to do. -/
theorem exists_of_refs (there : (F id).isSome)
    (refs : ∀ name, F.Refers id name → (F name).isSome → ∃ r, Denotes sim room F name r) :
    ∃ r, Denotes sim room F id r := by
  obtain ⟨text, here⟩ := Option.isSome_iff_exists.1 there
  cases parsed : Formula.parse text with
  | error err => exact ⟨_, .malformed here parsed⟩
  | ok e =>
    have each : ∀ name, ∃ r, name ∈ e.references → (F name).isSome → Denotes sim room F name r := by
      intro name
      by_cases both : name ∈ e.references ∧ (F name).isSome
      · obtain ⟨r, h⟩ := refs name ⟨text, e, here, parsed, both.1⟩ both.2
        exact ⟨r, fun _ _ => h⟩
      · exact ⟨.error (.own (.unknownCell name)), fun mem there => (both ⟨mem, there⟩).elim⟩
    choose results means using each
    obtain ⟨r, comes⟩ := exists_comesTo (Formula.evaluateWith_ends e
      (fun name mem => answers_whole fun there v same => (means name mem there).fits same) (room e)
      (sim.source.generatorFor [id, text.getD ""]))
    exact ⟨r, .evaluated here parsed means comes⟩

end Denotes

/-! ### Cycles -/

namespace Formulas
variable {F : Formulas}

/-- A cell that leads into a cycle refers to one that does. -/
theorem ReachesCycle.step {x : String} (cycle : F.ReachesCycle x) :
    ∃ z, F.Refers x z ∧ F.ReachesCycle z := by
  obtain ⟨y, reaches, around⟩ := cycle
  rcases Relation.ReflTransGen.cases_head reaches with rfl | ⟨z, first, rest⟩
  · obtain ⟨z, first, rest⟩ := Relation.TransGen.head'_iff.1 around
    exact ⟨z, first, x, rest, around⟩
  · exact ⟨z, first, y, rest, around⟩

theorem ReachesCycle.isSome {x : String} (cycle : F.ReachesCycle x) : (F x).isSome := by
  obtain ⟨z, refers, -⟩ := cycle.step
  exact refers.exists

end Formulas

variable {sim : Simulation} {room : Expr → Nat} {F : Formulas} {id : String}

theorem Denotes.no_cycle {r : Result} (h : Denotes sim room F id r) : ¬ F.ReachesCycle id := by
  induction h with
  | malformed here unparsed =>
    intro cycle
    obtain ⟨z, ⟨text, e, here', parsed, -⟩, -⟩ := cycle.step
    cases here.symm.trans here'
    cases unparsed.symm.trans parsed
  | evaluated here parsed refs comes ih =>
    intro cycle
    obtain ⟨z, ⟨text, e, here', parsed', mem⟩, further⟩ := cycle.step
    cases here.symm.trans here'
    cases parsed.symm.trans parsed'
    exact ih z mem further.isSome further

/-- A cell of finitely many means a result unless a chain of references leads from it into a
cycle. -/
theorem denotes_iff_no_cycle {names : List String} (all : ∀ x, (F x).isSome → x ∈ names)
    (there : (F id).isSome) : (∃ r, Denotes sim room F id r) ↔ ¬ F.ReachesCycle id := by
  refine ⟨fun ⟨r, h⟩ => h.no_cycle, fun acyclic => ?_⟩
  -- without cycles there is no endless chain of references among finitely many cells
  let Node := { x : String // x ∈ names ∧ ¬ F.ReachesCycle x }
  let below : Node → Node → Prop := fun a b => Relation.TransGen F.Refers b.1 a.1
  have : Finite Node := ((List.finite_toSet names).subset fun _ h => h.1).to_subtype
  have : IsTrans Node below := ⟨fun _ _ _ ab bc => bc.trans ab⟩
  have : Std.Irrefl below := ⟨fun a around => a.2.2 ⟨a.1, .refl, around⟩⟩
  have wf : WellFounded below := Finite.wellFounded_of_trans_of_irrefl below
  suffices go : ∀ a : Node, (F a.1).isSome → ∃ r, Denotes sim room F a.1 r from
    go ⟨id, all id there, acyclic⟩ there
  intro a
  induction a using wf.induction with
  | _ a ih =>
    intro there
    refine Denotes.exists_of_refs there fun name refers exists_ => ?_
    have acyclic : ¬ F.ReachesCycle name := fun cycle => a.2.2 (.of_refers refers cycle)
    exact ih ⟨name, all name exists_, acyclic⟩ (.single refers) exists_

end MonteCarloSheet
