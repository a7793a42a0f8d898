import MonteCarloSheet.Proofs.Formula.Lockstep
import MonteCarloSheet.Proofs.Roster
import MonteCarloSheet.Sheet.Reevaluation

/-! What a reevaluation does.

A reevaluation *begins* the cell, which brings its tree and its links up to date,
evaluates the tree, and gives the cell its *ending*, which changes nothing but the
output, the fault and whether the cell is settled (`reevaluateWith_eq`). A
reference brings the cell up to date if it is stale, and then reads it
(`answer_run`). -/
namespace MonteCarloSheet

open Formula (Answering Expr)

/-! ### Trees and links -/

/-- The tree of a formula, kept by the cell or parsed anew. -/
def Cell.tree (c : Cell) : Except SyntaxError Expr :=
  c.parsed.elim (Formula.parse c.formula) .ok

/-- The cells that a parsed formula names; a formula that does not parse names none. -/
def linksOf : Except SyntaxError Expr → List String
  | .ok e => e.dependencies
  | .error _ => []

/-- A cell whose evaluation begins, with its tree. -/
def Cell.begin (c : Cell) : Cell :=
  { c.start with parsed := c.tree.toOption }

namespace Sheet

/-- The sheet when the evaluation of a cell begins. -/
def begun (s : Sheet) (id : String) (c : Cell) : Sheet :=
  relink (s.modify id Cell.begin) id (linksOf c.tree)

end Sheet

/-- How a cell ends: with an output, with a fault, or without a value. -/
inductive Ending where
  | settled (output : Output)
  | failed (f : Fault)
  | vacant

def Ending.apply : Ending → Cell → Cell
  | settled output, c => c.settle output
  | failed f, c => c.fail f
  | vacant, c => c.vacate

/-! ### What a reevaluation does -/

theorem Cell.begin_of_error {c : Cell} {err : SyntaxError} (h : c.tree = .error err) :
    c.begin = c.start := by
  have unparsed : c.parsed = none := by
    cases hp : c.parsed with
    | none => rfl
    | some e => rw [Cell.tree, hp] at h; cases h
  rw [Cell.begin, h, Except.toOption, ← unparsed]
  rfl

theorem Cell.begin_of_ok {c : Cell} {e : Expr} (h : c.tree = .ok e) :
    c.begin = { c.start with parsed := some e } := by
  rw [Cell.begin, h]
  rfl

section
variable (sim : Simulation) (bring : Refresh) (room : Nat) {id : String} {before : Cell}
  {p : Progress}

theorem compute_error {err : SyntaxError} (here : p.sheet.get? id = some before)
    (parsed : before.tree = .error err) :
    compute sim bring room id before (p.onSheet (Roster.modify · id Cell.start)) =
      (.error (.fault (.own (.malformed err))), p.onSheet (Sheet.begun · id before)) := by
  have same : p.sheet.modify id Cell.start = p.sheet.modify id Cell.begin :=
    Roster.modify_congr here (Cell.begin_of_error parsed).symm
  rw [Cell.tree] at parsed
  rw [compute, parsed]
  change (_, (p.onSheet (Roster.modify · id Cell.start)).onSheet (Sheet.relink · id [])) = _
  simp only [Progress.onSheet, Sheet.begun, same, Cell.tree, parsed, linksOf]
  rfl

theorem evaluateCell_run (formula : Option String) (e : Expr) (q : Progress) :
    evaluateCell sim bring room id formula e q =
      match Formula.evaluate (reference sim.count bring) sim.count room e
        (sim.source.generatorFor [id, formula.getD ""]) q with
      | (.ok (value, _), q) => (.ok value, q)
      | (.error x, q) => (.error x, q) := by
  rw [evaluateCell, Formula.bind_answer]
  rcases Formula.evaluate _ _ _ _ _ q with ⟨x | ⟨v, g⟩, q'⟩ <;> rfl

theorem compute_ok {e : Expr} (here : p.sheet.get? id = some before)
    (parsed : before.tree = .ok e) :
    compute sim bring room id before (p.onSheet (Roster.modify · id Cell.start)) =
      match evaluateCell sim bring room id before.formula e
        (p.onSheet (Sheet.begun · id before)) with
      | (.ok value, q) => (.ok (value.map (.ofValue e)), q)
      | (.error x, q) => (.error x, q) := by
  have same : (p.sheet.modify id Cell.start).modify id (fun c => { c with parsed := some e }) =
      p.sheet.modify id Cell.begin := by
    rw [Roster.modify_modify]
    exact Roster.modify_congr here (Cell.begin_of_ok parsed).symm
  have begun : p.sheet.begun id before =
      Sheet.relink ((p.sheet.modify id Cell.start).modify id fun c => { c with parsed := some e })
        id e.dependencies := by
    rw [same, Sheet.begun, parsed, linksOf]
  rw [Cell.tree] at parsed
  rw [compute, parsed]
  dsimp only [Progress.onSheet]
  rw [begun, Formula.bind_answer]
  change (modify _ >>= _ : Answering _ _) _ = _
  rw [Formula.bind_answer]
  change (evaluateCell sim bring room id before.formula e >>= _ : Answering _ _) _ = _
  rw [Formula.bind_answer]
  dsimp only [Progress.onSheet]
  rcases evaluateCell _ _ _ _ _ _ _ with ⟨x | v, q⟩ <;> rfl

/-- What the named cell of a sheet is read as. -/
def readOf (count : Nat) (name : String) (s : Sheet) : Except Formula.Stop (Option Value) :=
  match s.get? name with
  | none => .error (.problem (.unknownCell name))
  | some c =>
    match c.read name count with
    | .error f => .error (.fault f)
    | .ok value => .ok value

theorem answer_run (count : Nat) (name : String) (c : Cell) (q : Progress) :
    answer count bring room name c q =
      match if c.isStale then bring room name q else (.ok (), q) with
      | (.ok (), q) => (readOf count name q.sheet, q)
      | (.error x, q) => (.error x, q) := by
  have read : ∀ q : Progress, (do
      let p ← get
      match p.sheet.get? name with
      | none => throw (.problem (.unknownCell name))
      | some c =>
        match c.read name count with
        | .error f => throw (.fault f)
        | .ok value => pure value : Answering Progress (Option Value)) q =
      (readOf count name q.sheet, q) := by
    intro q
    rw [Formula.bind_answer, readOf]
    change (match q.sheet.get? name with
      | none => throw (.problem (.unknownCell name))
      | some c =>
        match c.read name count with
        | .error f => throw (.fault f)
        | .ok value => pure value : Answering Progress (Option Value)) q = _
    rcases q.sheet.get? name with _ | c
    · rfl
    · dsimp only
      rcases c.read name count with f | value <;> rfl
  rw [answer]
  by_cases stale : c.isStale = true
  · rw [if_pos stale, if_pos stale, Formula.bind_answer]
    rcases bring room name q with ⟨x | u, q'⟩
    · rfl
    · exact read q'
  · rw [if_neg stale, if_neg stale]
    exact read q

theorem refresh_run (levels : Nat) (name : String) (q : Progress) :
    refresh sim (levels + 1) (room + 2) name q =
      match reevaluateWith sim (refresh sim levels) room name q with
      | (Outcome.abandoned, q) => (.error Formula.Stop.missing, q)
      | (_, q) => (.ok (), q) := by
  rw [refresh, Formula.bind_answer]
  change (match (match reevaluateWith sim _ room name q with
    | (outcome, q) => (Except.ok outcome, q) : Except Formula.Stop Outcome × Progress) with
    | (.ok outcome, q) => (if outcome = Outcome.abandoned then throw Formula.Stop.missing else pure () :
        Answering Progress Unit) q
    | (.error x, q) => (.error x, q)) = _
  rcases reevaluateWith sim _ room name q with ⟨_ | _ | _, q⟩ <;> rfl

/-- A formula on its own comes to what its evaluation comes to, without the generator. -/
theorem evaluateOn_run (g : Random.Generator) (e : Expr) (p : Progress) :
    evaluateOn sim g e p =
      match Formula.evaluate (reference sim.count (refresh sim p.sheet.size)) sim.count sim.room e
        g p with
      | (.ok (value, _), q) => (.ok value, q)
      | (.error x, q) => (.error x, q) := by
  change (_ <$> _ : Answering Progress _) p = _
  rw [map_eq_pure_bind, Formula.bind_answer]
  rcases Formula.evaluate _ _ _ _ _ p with ⟨x | ⟨v, g⟩, q⟩ <;> rfl

/-- A reevaluation begins the cell, evaluates its tree if it has one, and ends the cell. -/
theorem reevaluateWith_eq (here : p.sheet.get? id = some before) :
    reevaluateWith sim bring room id p =
      match before.tree with
      | .error err =>
        conclude id before (Ending.failed (.own (.malformed err))).apply
          (p.onSheet (Sheet.begun · id before))
      | .ok e =>
        match Formula.evaluate (reference sim.count bring) sim.count room e
          (sim.source.generatorFor [id, before.formula.getD ""])
          (p.onSheet (Sheet.begun · id before)) with
        | (.ok (some v, _), q) => conclude id before (Ending.settled (.ofValue e v)).apply q
        | (.error (.fault f), q) => conclude id before (Ending.failed f).apply q
        | (.ok (none, _), q) => (.abandoned, q.onSheet (Roster.modify · id Ending.vacant.apply))
        | (.error .missing, q) => (.abandoned, q) := by
  rw [reevaluateWith, here]
  dsimp only
  rcases parsed : before.tree with err | e
  · rw [compute_error sim bring room here parsed]
    rfl
  · rw [compute_ok sim bring room here parsed, evaluateCell_run]
    dsimp only
    rcases Formula.evaluate _ _ _ _ _ _ with ⟨(_ | _) | ⟨_ | v, g⟩, q⟩ <;> rfl

end

end MonteCarloSheet
