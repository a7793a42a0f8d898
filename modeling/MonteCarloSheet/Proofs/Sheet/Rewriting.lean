import MonteCarloSheet.Proofs.Sheet.Reachable
import MonteCarloSheet.Proofs.Sheet.Soundness

/-! The formulas of a sheet that is rewritten.

Defining a cell changes its formula and no other one, removing a cell takes its
formula away (`formulas_define`, `formulas_without`). So a sheet that is synced with
definitions has their formulas, whatever it held before, and as many cells
(`formulas_rewritten`, `size_rewritten`). -/
namespace MonteCarloSheet

namespace Sheet

theorem formulas_define (s : Sheet) (id : String) (formula name : Option String) (x : String) :
    (s.define id formula name).formulas x = if x = id then some formula else s.formulas x := by
  rw [define]
  split
  next absent =>
    have kept : ∀ (ids : List String) (c : Cell),
        (ids.foldl (fun c reader => c.addDependent reader) c).formula = c.formula := by
      intro ids
      induction ids with
      | nil => exact fun _ => rfl
      | cons reader rest ih => exact fun c => ih (c.addDependent reader)
    rw [attach, formulas_relink, formulas_modifyAll _ (f := Cell.markStale) fun _ => rfl,
      formulas_modify _ fun c => kept _ c, formulas, Roster.get?_set]
    by_cases self : x = id
    · rw [if_pos self, if_pos self]
      rfl
    · rw [if_neg self, if_neg self]
      rfl
  next c here =>
    rw [formulas, Roster.get?_modify]
    by_cases self : x = id
    · rw [if_pos self, if_pos self, self, here]
      have edited : (c.edit formula name).formula = formula := by
        rw [Cell.edit]
        dsimp only
        split
        · rfl
        next same =>
          have same : formula = c.formula := by simpa [Cell.differs] using same
          exact same.symm
      exact congrArg some edited
    · rw [if_neg self, if_neg self]
      rfl

/-- The sheet without the cell, if there is one. -/
abbrev without (s : Sheet) (id : String) : Sheet :=
  ((s.remove id).map Prod.snd).getD s

theorem formulas_without (s : Sheet) (id x : String) :
    (s.without id).formulas x = if x = id then none else s.formulas x := by
  have detached : (s.detach id).formulas = s.formulas := by
    rw [detach, formulas_modify id (f := fun c => { c with dependents := [] }) fun _ => rfl,
      formulas_modifyAll _ (f := Cell.markStale) fun _ => rfl, formulas_relink]
  have same := congrFun detached x
  rw [without, remove]
  cases here : (s.detach id).get? id with
  | none =>
    change s.formulas x = _
    rw [← detached]
    by_cases self : x = id
    · rw [if_pos self, self, formulas, here]
      rfl
    · rw [if_neg self]
  | some c =>
    change formulas (Roster.erase (s.detach id) id) x = _
    rw [← detached, formulas, Roster.get?_erase]
    by_cases self : x = id
    · rw [if_pos self, if_pos self]
      rfl
    · rw [if_neg self, if_neg self]
      rfl

theorem formulas_prune (s : Sheet) (definitions : Roster (Option String)) (x : String) :
    (s.prune definitions).formulas x =
      if definitions.contains x then s.formulas x else none := by
  have go : ∀ (ids : List String) (t : Sheet),
      formulas (ids.foldl without t) x = if x ∈ ids then none else t.formulas x := by
    intro ids
    induction ids with
    | nil => exact fun t => (if_neg List.not_mem_nil).symm
    | cons id rest ih =>
      intro t
      rw [List.foldl_cons, ih, formulas_without]
      by_cases self : x = id <;> simp [self]
  refine (go _ s).trans ?_
  cases kept : definitions.contains x with
  | true => simp [kept]
  | false =>
    by_cases known : x ∈ s.names
    · simp [kept, known]
    · have none : s.formulas x = none := by
        have := mt isSome_formulas.1 known
        simpa using this
      simp [none]

theorem formulas_rewritten (s : Sheet) (definitions : Roster (Option String))
    (names : Roster String) : (s.rewritten definitions names).formulas = definitions.get? := by
  have go : ∀ (entries : List (String × Option String)) (t : Sheet),
      (entries.map Prod.fst).Nodup → ∀ x,
        formulas (entries.foldl
          (fun s entry => define s entry.1 entry.2 (names.get? entry.1)) t) x =
            (Roster.lookup x entries).or (t.formulas x) := by
    intro entries
    induction entries with
    | nil => exact fun _ _ _ => rfl
    | cons entry rest ih =>
      intro t distinct x
      obtain ⟨other, distinct⟩ := List.nodup_cons.1 distinct
      rw [List.foldl_cons, ih _ distinct, formulas_define, Roster.lookup]
      by_cases self : x = entry.1
      · have none : Roster.lookup x rest = none := by
          rw [← Option.not_isSome_iff_eq_none, Roster.lookup_isSome, self]
          exact other
        rw [none, if_pos self, if_pos self.symm]
        rfl
      · rw [if_neg self, if_neg (Ne.symm self)]
  funext x
  refine (go definitions.entries (s.prune definitions) definitions.distinct x).trans ?_
  rw [formulas_prune]
  cases here : definitions.get? x with
  | none =>
    have absent : definitions.contains x = false := by rw [Roster.contains, here]; rfl
    change (definitions.get? x).or _ = _
    rw [here, absent]
    rfl
  | some formula =>
    change (definitions.get? x).or _ = _
    rw [here]
    rfl

theorem size_rewritten (s : Sheet) (definitions : Roster (Option String)) (names : Roster String) :
    Roster.size (s.rewritten definitions names) = definitions.size := by
  have same : (s.rewritten definitions names).names.Perm definitions.names := by
    refine (List.perm_ext_iff_of_nodup (Roster.nodup_names _) definitions.nodup_names).2 fun x => ?_
    rw [← isSome_formulas, formulas_rewritten]
    exact Roster.contains_iff
  have lengths := same.length_eq
  rwa [Roster.names, Roster.names, List.length_map, List.length_map] at lengths

end Sheet

end MonteCarloSheet
