import MonteCarloSheet.Roster

/-! Rosters with the same names and values.

A roster is its names in order and the value under each (`ext`). A name is there
exactly if it has a value (`mem_names`). -/
namespace MonteCarloSheet.Roster

theorem ext_entries {r q : Roster α} (h : r.entries = q.entries) : r = q := by
  cases r
  cases q
  cases h
  rfl

theorem entries_ext {a b : List (String × α)} (names : a.map Prod.fst = b.map Prod.fst)
    (distinct : (a.map Prod.fst).Nodup) (same : ∀ name, lookup name a = lookup name b) :
    a = b := by
  induction a generalizing b with
  | nil => simpa using names.symm
  | cons entry rest ih =>
    obtain ⟨name, x⟩ := entry
    cases b with
    | nil => cases names
    | cons other rest' =>
      obtain ⟨name', y⟩ := other
      obtain ⟨rfl, others⟩ : name = name' ∧ rest.map Prod.fst = rest'.map Prod.fst := by
        simpa using names
      obtain ⟨fresh, distinct⟩ := List.nodup_cons.1 distinct
      have first := same name
      rw [lookup, if_pos rfl, lookup, if_pos rfl] at first
      cases first
      congr 1
      refine ih others distinct fun other => ?_
      by_cases h : name = other
      · subst h
        have none_left : lookup name rest = none := by
          rw [← Option.not_isSome_iff_eq_none, lookup_isSome]
          exact fresh
        have none_right : lookup name rest' = none := by
          rw [← Option.not_isSome_iff_eq_none, lookup_isSome, ← others]
          exact fresh
        rw [none_left, none_right]
      · have later := same other
        rw [lookup, if_neg h, lookup, if_neg h] at later
        exact later

/-- The names and the values under them are all there is to a roster. -/
theorem ext {r q : Roster α} (names : r.names = q.names)
    (same : ∀ name, r.get? name = q.get? name) : r = q :=
  ext_entries (entries_ext names r.distinct same)

theorem modify_modify (r : Roster α) (name : String) (f g : α → α) :
    (r.modify name f).modify name g = r.modify name fun x => g (f x) := by
  refine ext (by simp) fun other => ?_
  rw [get?_modify, get?_modify, get?_modify]
  split <;> simp [Function.comp_def]

/-- Only the value that is there matters for a change. -/
theorem modify_congr {r : Roster α} {name : String} {x : α} (here : r.get? name = some x)
    {f g : α → α} (same : f x = g x) : r.modify name f = r.modify name g := by
  refine ext (by simp) fun other => ?_
  rw [get?_modify, get?_modify]
  split
  next h => rw [h, here, Option.map_some, Option.map_some, same]
  next => rfl

/-! ### Names and values -/

theorem mem_names {r : Roster α} {name : String} : name ∈ r.names ↔ ∃ x, r.get? name = some x := by
  rw [← contains_iff, contains, Option.isSome_iff_exists]

theorem mem_entries {r : Roster α} {name : String} {x : α} :
    (name, x) ∈ r.entries ↔ r.get? name = some x := by
  obtain ⟨entries, distinct⟩ := r
  change _ ∈ entries ↔ lookup name entries = some x
  induction entries with
  | nil => simp [lookup]
  | cons entry rest ih =>
    obtain ⟨other, y⟩ := entry
    obtain ⟨fresh, distinct⟩ := List.nodup_cons.1 distinct
    rw [List.mem_cons, ih distinct, lookup]
    by_cases h : other = name
    · subst h
      have absent : lookup other rest = none := by
        rw [← Option.not_isSome_iff_eq_none, lookup_isSome]
        exact fresh
      simp [absent, eq_comm]
    · have : ¬ name = other := Ne.symm h
      simp [h, this]

/-- The order of the entries does not matter for the values. -/
theorem get?_of_perm {r q : Roster α} (perm : r.entries.Perm q.entries) : r.get? = q.get? := by
  funext name
  refine Option.ext fun x => ?_
  rw [← mem_entries, ← mem_entries, perm.mem_iff]

/-- A new name goes to the end. -/
theorem entries_set_new {r : Roster α} {name : String} (new : r.get? name = none) (x : α) :
    (r.set name x).entries = r.entries ++ [(name, x)] := by
  rw [set, dif_pos new]

theorem mem_names_set {r : Roster α} {name other : String} {x : α} :
    other ∈ (r.set name x).names ↔ other = name ∨ other ∈ r.names := by
  rw [mem_names, mem_names, get?_set]
  by_cases h : other = name <;> simp [h]

theorem mem_names_erase {r : Roster α} {name other : String} :
    other ∈ (r.erase name).names ↔ other ≠ name ∧ other ∈ r.names := by
  rw [mem_names, mem_names, get?_erase]
  by_cases h : other = name <;> simp [h]

end MonteCarloSheet.Roster
