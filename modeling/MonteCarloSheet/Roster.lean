/-! Values under names, in order of entry.

A roster holds values under distinct names in the order in which the names were
entered. Setting a name that is there keeps its place; a new name goes to the
end. Every operation keeps the names distinct, so `get?` is the view of a roster
that the lemmas speak about: one says what each operation does to it, one what
it does to the names. -/
namespace MonteCarloSheet

structure Roster (α : Type) where
  entries : List (String × α)
  distinct : (entries.map Prod.fst).Nodup

namespace Roster

def empty : Roster α := ⟨[], List.nodup_nil⟩

def names (r : Roster α) : List String :=
  r.entries.map Prod.fst

def size (r : Roster α) : Nat :=
  r.entries.length

theorem nodup_names (r : Roster α) : r.names.Nodup := r.distinct

/-- The value under a name among entries. -/
def lookup (name : String) : List (String × α) → Option α
  | [] => none
  | (other, x) :: rest => if other = name then some x else lookup name rest

def get? (r : Roster α) (name : String) : Option α :=
  lookup name r.entries

def contains (r : Roster α) (name : String) : Bool :=
  (r.get? name).isSome

theorem lookup_isSome {name : String} {entries : List (String × α)} :
    (lookup name entries).isSome ↔ name ∈ entries.map Prod.fst := by
  induction entries with
  | nil => simp [lookup]
  | cons entry rest ih =>
    obtain ⟨other, x⟩ := entry
    by_cases h : other = name
    · simp [lookup, h]
    · simp [lookup, h, ih, Ne.symm h]

theorem contains_iff {r : Roster α} {name : String} : r.contains name ↔ name ∈ r.names :=
  lookup_isSome

/-! ### Changing values -/

/-- Applies a function of name and value to every value. -/
def map (f : String → α → β) (r : Roster α) : Roster β :=
  ⟨r.entries.map fun entry => (entry.1, f entry.1 entry.2), by
    simpa [Function.comp_def] using r.distinct⟩

@[simp] theorem names_map (f : String → α → β) (r : Roster α) : (r.map f).names = r.names := by
  simp [names, map, Function.comp_def]

theorem lookup_map (f : String → α → β) (name : String) (entries : List (String × α)) :
    lookup name (entries.map fun entry => (entry.1, f entry.1 entry.2)) =
      (lookup name entries).map (f name) := by
  induction entries with
  | nil => rfl
  | cons entry rest ih =>
    by_cases h : entry.1 = name
    · simp [lookup, h]
    · simp [lookup, h, ih]

@[simp] theorem get?_map (f : String → α → β) (r : Roster α) (name : String) :
    (r.map f).get? name = (r.get? name).map (f name) :=
  lookup_map f name r.entries

/-- Changes the value under one name, if there is one. -/
def modify (r : Roster α) (name : String) (f : α → α) : Roster α :=
  r.map fun other x => if other = name then f x else x

@[simp] theorem names_modify (r : Roster α) (name : String) (f : α → α) :
    (r.modify name f).names = r.names :=
  names_map _ r

@[simp] theorem size_modify (r : Roster α) (name : String) (f : α → α) :
    (r.modify name f).size = r.size := by
  simp [size, modify, map]

theorem get?_modify (r : Roster α) (name : String) (f : α → α) (other : String) :
    (r.modify name f).get? other = if other = name then (r.get? other).map f else r.get? other := by
  rw [modify, get?_map]
  split <;> simp

/-! ### Entering and removing names -/

theorem not_mem_of_get?_eq_none {r : Roster α} {name : String} (h : r.get? name = none) :
    name ∉ r.names := fun member => by
  have := lookup_isSome.2 member
  rw [show lookup name r.entries = r.get? name from rfl, h] at this
  cases this

/-- Enters a value under a name, in its old place if the name is there. -/
def set (r : Roster α) (name : String) (x : α) : Roster α :=
  if h : r.get? name = none then
    ⟨r.entries ++ [(name, x)], by
      rw [List.map_append, List.nodup_append]
      refine ⟨r.distinct, by simp, ?_⟩
      intro a inside b last
      simp only [List.map_cons, List.map_nil, List.mem_singleton] at last
      subst last
      rintro rfl
      exact not_mem_of_get?_eq_none h inside⟩
  else r.modify name fun _ => x

theorem lookup_append (name : String) (a b : List (String × α)) :
    lookup name (a ++ b) = (lookup name a).or (lookup name b) := by
  induction a with
  | nil => rfl
  | cons entry rest ih =>
    by_cases h : entry.1 = name
    · simp [lookup, h]
    · simp [lookup, h, ih]

theorem get?_set (r : Roster α) (name : String) (x : α) (other : String) :
    (r.set name x).get? other = if other = name then some x else r.get? other := by
  unfold set
  split
  next absent =>
    change lookup other (r.entries ++ [(name, x)]) = _
    rw [lookup_append]
    change (r.get? other).or _ = _
    by_cases same : other = name
    · subst same; simp [absent, lookup]
    · have : ¬ name = other := Ne.symm same
      simp [lookup, this, same]
  next present =>
    rw [get?_modify]
    by_cases same : other = name
    · subst same
      obtain ⟨y, hy⟩ := Option.ne_none_iff_exists'.1 present
      simp [hy]
    · simp [same]

/-- Takes a name out. -/
def erase (r : Roster α) (name : String) : Roster α :=
  ⟨r.entries.filter fun entry => entry.1 ≠ name,
    (List.filter_sublist.map Prod.fst).nodup r.distinct⟩

theorem get?_erase (r : Roster α) (name other : String) :
    (r.erase name).get? other = if other = name then none else r.get? other := by
  change lookup other (r.entries.filter _) = if other = name then none else lookup other r.entries
  induction r.entries with
  | nil => simp [lookup]
  | cons entry rest ih =>
    obtain ⟨first, x⟩ := entry
    by_cases gone : first = name
    · by_cases same : other = name
      · simp_all
      · have : ¬ first = other := fun h => same (h ▸ gone)
        simp_all [lookup]
    · by_cases here : first = other
      · subst here; simp [lookup, gone]
      · simp_all [lookup]

/-- A roster of pairs entered one after another. -/
def ofList (pairs : List (String × α)) : Roster α :=
  pairs.foldl (fun r pair => r.set pair.1 pair.2) empty

end Roster

end MonteCarloSheet
