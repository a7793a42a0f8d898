import MonteCarloSheet.Roster
import MonteCarloSheet.Sheet.Cell

/-! Links between cells.

A cell names the cells it reads, its dependencies, and the cells that read it,
its dependents. The operations here write both ends of a link together, so that
`y` is among the dependents of `x` exactly when `x` is among the dependencies of
`y`, for cells of the sheet (`Linked`, kept by `Linked.relink`). A dependency may
name a cell that does not exist; when it comes to exist, `attach` links it. -/
namespace MonteCarloSheet

/-- The cells of a sheet by id, in order of definition. -/
abbrev Sheet := Roster Cell

namespace Cell

def addDependent (id : String) (c : Cell) : Cell :=
  { c with dependents := c.dependents.insert id }

def dropDependent (id : String) (c : Cell) : Cell :=
  { c with dependents := c.dependents.filter (· ≠ id) }

def setDependencies (ids : List String) (c : Cell) : Cell :=
  { c with dependencies := ids }

@[simp] theorem dependencies_addDependent (id : String) (c : Cell) :
    (c.addDependent id).dependencies = c.dependencies := rfl

@[simp] theorem dependencies_dropDependent (id : String) (c : Cell) :
    (c.dropDependent id).dependencies = c.dependencies := rfl

@[simp] theorem dependencies_setDependencies (ids : List String) (c : Cell) :
    (c.setDependencies ids).dependencies = ids := rfl

@[simp] theorem dependents_setDependencies (ids : List String) (c : Cell) :
    (c.setDependencies ids).dependents = c.dependents := rfl

theorem mem_addDependent {reader id : String} {c : Cell} :
    reader ∈ (c.addDependent id).dependents ↔ reader = id ∨ reader ∈ c.dependents :=
  List.mem_insert_iff

theorem mem_dropDependent {reader id : String} {c : Cell} :
    reader ∈ (c.dropDependent id).dependents ↔ reader ∈ c.dependents ∧ reader ≠ id := by
  simp [dropDependent]

theorem addDependent_addDependent (id : String) (c : Cell) :
    (c.addDependent id).addDependent id = c.addDependent id := by
  simp [addDependent]

theorem dropDependent_dropDependent (id : String) (c : Cell) :
    (c.dropDependent id).dropDependent id = c.dropDependent id := by
  simp [dropDependent]

end Cell

namespace Sheet

/-- Changes every cell that is named. -/
def modifyAll (s : Sheet) (ids : List String) (f : Cell → Cell) : Sheet :=
  ids.foldl (fun s id => s.modify id f) s

@[simp] theorem names_modifyAll (s : Sheet) (ids : List String) (f : Cell → Cell) :
    (modifyAll s ids f).names = s.names := by
  induction ids generalizing s with
  | nil => rfl
  | cons id rest ih => exact (ih (s.modify id f)).trans (Roster.names_modify s id f)

/-- A change that is made once or more often is made once. -/
theorem get?_modifyAll (s : Sheet) (ids : List String) (f : Cell → Cell)
    (once : ∀ c, f (f c) = f c) (id : String) :
    (modifyAll s ids f).get? id = if id ∈ ids then (s.get? id).map f else s.get? id := by
  induction ids generalizing s with
  | nil => simp [modifyAll]
  | cons first rest ih =>
    change (modifyAll (s.modify first f) rest f).get? id = _
    rw [ih, Roster.get?_modify]
    by_cases same : id = first <;> by_cases later : id ∈ rest <;>
      simp [same, later, Option.map_map, Function.comp_def, once]

def dependencies (s : Sheet) (id : String) : List String :=
  ((s.get? id).map Cell.dependencies).getD []

def dependents (s : Sheet) (id : String) : List String :=
  ((s.get? id).map Cell.dependents).getD []

/-- Gives a cell new dependencies, and tells the cells that are no longer or newly read. -/
def relink (s : Sheet) (id : String) (targets : List String) : Sheet :=
  let gone := (s.dependencies id).filter (· ∉ targets)
  let s := modifyAll s gone (Cell.dropDependent id)
  let s := modifyAll s targets (Cell.addDependent id)
  s.modify id (Cell.setDependencies targets)

@[simp] theorem names_relink (s : Sheet) (id : String) (targets : List String) :
    (relink s id targets).names = s.names := by
  simp [relink]

/-- What relinking does to one cell. -/
theorem get?_relink (s : Sheet) (id : String) (targets : List String) (other : String) :
    (relink s id targets).get? other = (s.get? other).map fun c =>
      let c := if other ∈ s.dependencies id ∧ other ∉ targets then c.dropDependent id else c
      let c := if other ∈ targets then c.addDependent id else c
      if other = id then c.setDependencies targets else c := by
  simp only [relink, Roster.get?_modify,
    get?_modifyAll _ _ _ (Cell.addDependent_addDependent id),
    get?_modifyAll _ _ _ (Cell.dropDependent_dropDependent id), List.mem_filter, decide_eq_true_eq]
  cases s.get? other with
  | none => simp
  | some c =>
    by_cases old : other ∈ s.dependencies id <;> by_cases new : other ∈ targets <;>
      by_cases self : other = id <;> simp_all

theorem dependencies_relink (s : Sheet) (id : String) (targets : List String) (other : String) :
    (relink s id targets).dependencies other =
      if other = id ∧ (s.get? id).isSome then targets else s.dependencies other := by
  cases here : s.get? other with
  | none =>
    by_cases self : other = id
    · subst self; simp [dependencies, get?_relink, here]
    · simp [dependencies, get?_relink, here, self]
  | some c =>
    by_cases old : other ∈ s.dependencies id <;> by_cases new : other ∈ targets <;>
      by_cases self : other = id <;> simp_all [dependencies, get?_relink]

theorem mem_dependents_relink {s : Sheet} {id : String} {targets : List String}
    {reader other : String} :
    reader ∈ (relink s id targets).dependents other ↔
      (s.get? other).isSome ∧
        if reader = id then
          other ∈ targets ∨ reader ∈ s.dependents other ∧ other ∉ s.dependencies id
        else reader ∈ s.dependents other := by
  cases here : s.get? other with
  | none => simp [dependents, get?_relink, here]
  | some c =>
    by_cases old : other ∈ s.dependencies id <;> by_cases new : other ∈ targets <;>
      by_cases self : other = id <;> by_cases own : reader = id <;>
        simp_all [dependents, get?_relink, Cell.mem_addDependent, Cell.mem_dropDependent]

/-- Both ends of every link between cells of the sheet are written. -/
def Linked (s : Sheet) : Prop :=
  ∀ x ∈ s.names, ∀ y ∈ s.names, y ∈ s.dependents x ↔ x ∈ s.dependencies y

theorem Linked.relink {s : Sheet} (linked : Linked s) (id : String) (targets : List String) :
    Linked (relink s id targets) := by
  intro x hx y hy
  rw [names_relink] at hx hy
  have both := linked x hx y hy
  have present : (s.get? x).isSome := Roster.contains_iff.2 hx
  rw [mem_dependents_relink, dependencies_relink]
  by_cases self : y = id
  · subst self
    have : (s.get? y).isSome := Roster.contains_iff.2 hy
    simp [present, this, both]
  · simp [present, self, both]

/-- The other cells that read a cell. -/
def readers (s : Sheet) (id : String) : List String :=
  (s.entries.filter fun entry => entry.1 ≠ id ∧ id ∈ entry.2.dependencies).map Prod.fst

/-- Links a cell to the cells that name it already, and marks them stale. -/
def attach (s : Sheet) (id : String) : Sheet :=
  let readers := readers s id
  let s := s.modify id fun c => readers.foldl (fun c reader => c.addDependent reader) c
  let s := modifyAll s readers Cell.markStale
  relink s id (dependencies s id)

@[simp] theorem names_attach (s : Sheet) (id : String) : (attach s id).names = s.names := by
  simp [attach]

/-- Removes all links of a cell and marks its dependents stale. -/
def detach (s : Sheet) (id : String) : Sheet :=
  let s := relink s id []
  let s := modifyAll s (dependents s id) Cell.markStale
  s.modify id fun c => { c with dependents := [] }

@[simp] theorem names_detach (s : Sheet) (id : String) : (detach s id).names = s.names := by
  simp [detach]

/-- Parses the formula of a cell if that has not been done, and links what it names. A formula
that does not parse is left for the evaluation to report. -/
def prepare (s : Sheet) (id : String) : Sheet :=
  match s.get? id with
  | none => s
  | some c =>
    match c.parsed with
    | some e => relink s id e.dependencies
    | none =>
      match Formula.parse c.formula with
      | .error _ => s
      | .ok e => relink (s.modify id fun c => { c with parsed := some e }) id e.dependencies

@[simp] theorem names_prepare (s : Sheet) (id : String) : (prepare s id).names = s.names := by
  unfold prepare
  split
  · rfl
  · split
    · simp
    · split <;> simp

/-- Marks the dependents of a cell stale but for those being evaluated. -/
def invalidateDependents (s : Sheet) (id : String) (active : List String) : Sheet :=
  modifyAll s ((dependents s id).filter (· ∉ active)) Cell.markStale

@[simp] theorem names_invalidateDependents (s : Sheet) (id : String) (active : List String) :
    (invalidateDependents s id active).names = s.names := by
  simp [invalidateDependents]

end Sheet

end MonteCarloSheet
