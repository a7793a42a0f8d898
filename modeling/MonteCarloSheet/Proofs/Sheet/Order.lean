import Mathlib.Data.List.Perm.Subperm
import Mathlib.Logic.Relation
import MonteCarloSheet.Sheet.Order

/-! Dependencies come first.

The order of evaluation holds every cell of the sheet (`mem_order`). A cell that
another one reads comes ahead of it, unless it leads back to it by a chain of
links (`before_or_leads`), so it comes first unless both lie on a loop (`before_or_onLoop`): when the walk leaves a cell, it has left all that the cell
reads but for the cells on the way from its root, which the walk is still inside
and which lead to the cell. -/
namespace MonteCarloSheet.Sheet

/-- A chain of links leads from the first cell to the second. -/
def Leads (s : Sheet) : String → String → Prop :=
  Relation.ReflTransGen fun x y => y ∈ s.dependencies x

/-- Each cell of a list, the last one first, comes after the cells of the sheet that it reads, or
those lead to it. -/
def Ordered (s : Sheet) (left : List String) : Prop :=
  ∀ later x earlier, left = later ++ x :: earlier →
    ∀ y ∈ s.dependencies x, y ∈ s.names → y ∈ earlier ∨ s.Leads y x

theorem Ordered.cons {s : Sheet} {id : String} {left : List String} (h : s.Ordered left)
    (reads : ∀ y ∈ s.dependencies id, y ∈ s.names → y ∈ left ∨ s.Leads y id) :
    s.Ordered (id :: left) := by
  intro later x earlier same
  cases later with
  | nil =>
    obtain ⟨rfl, rfl⟩ := List.cons.inj same
    exact reads
  | cons first later =>
    exact h later x earlier (List.cons.inj same).2

/-- What holds of the cells visited and left at every moment of a walk. -/
structure Walking (s : Sheet) (w : Walk) : Prop where
  names : ∀ x ∈ w.visited, x ∈ s.names
  distinct : w.visited.Nodup
  visited : ∀ x ∈ w.left, x ∈ w.visited
  ordered : s.Ordered w.left

/-- What a walk adds: cells that it visits and leaves again. -/
structure Extends (w w' : Walk) : Prop where
  visited : w.visited <:+ w'.visited
  left : w.left <:+ w'.left
  closed : ∀ x ∈ w'.visited, x ∈ w.visited ∨ x ∈ w'.left

theorem Extends.refl (w : Walk) : Extends w w :=
  ⟨List.suffix_refl _, List.suffix_refl _, fun _ mem => .inl mem⟩

theorem Extends.trans {u v w : Walk} (first : Extends u v) (second : Extends v w) :
    Extends u w := by
  refine ⟨first.visited.trans second.visited, first.left.trans second.left, fun x mem => ?_⟩
  rcases second.closed x mem with earlier | left
  · exact (first.closed x earlier).imp_right fun left => second.left.subset left
  · exact .inr left

/-- The walk is inside the cells that it has visited and not left; they lead to the given cell. -/
def InsideLeads (s : Sheet) (w : Walk) (id : String) : Prop :=
  ∀ x ∈ w.visited, x ∉ w.left → s.Leads x id

theorem InsideLeads.extend {s : Sheet} {w w' : Walk} {id : String} (h : InsideLeads s w id)
    (extends_ : Extends w w') : InsideLeads s w' id := by
  intro x mem notLeft
  rcases extends_.closed x mem with earlier | left
  · exact h x earlier fun left => notLeft (extends_.left.subset left)
  · exact (notLeft left).elim

/-- A walk that has gone as deep as there are cells has visited them all. -/
theorem Walking.all_visited {s : Sheet} {w : Walk} (h : s.Walking w)
    (deep : s.size ≤ w.visited.length) {x : String} (mem : x ∈ s.names) : x ∈ w.visited := by
  have few : s.names.length ≤ w.visited.length := by
    rw [Roster.names, List.length_map]
    exact deep
  exact ((h.distinct.subperm h.names).perm_of_length_le few).mem_iff.2 mem

/-- What a walk from a cell does. -/
structure Walked (s : Sheet) (id : String) (w w' : Walk) : Prop where
  walking : s.Walking w'
  extended : Extends w w'
  reached : id ∈ s.names → id ∈ w'.visited

/-- Walking several cells one after another, if a walk from each of them does what it should. -/
theorem fold_walked {s : Sheet} (step : Walk → String → Walk) (ids : List String) {w : Walk}
    (walked : ∀ id ∈ ids, ∀ v, s.Walking v → Extends w v → Walked s id v (step v id))
    (walking : s.Walking w) :
    s.Walking (ids.foldl step w) ∧ Extends w (ids.foldl step w) ∧
      ∀ id ∈ ids, id ∈ s.names → id ∈ (ids.foldl step w).visited := by
  suffices go : ∀ v, s.Walking v → Extends w v → s.Walking (ids.foldl step v) ∧
      Extends w (ids.foldl step v) ∧ Extends v (ids.foldl step v) ∧
        ∀ id ∈ ids, id ∈ s.names → id ∈ (ids.foldl step v).visited by
    obtain ⟨now, extended, -, reached⟩ := go w walking (.refl w)
    exact ⟨now, extended, reached⟩
  induction ids with
  | nil => exact fun v now extended => ⟨now, extended, .refl v, fun _ mem => by cases mem⟩
  | cons id rest ih =>
    intro v now extended
    have first := walked id (by simp) v now extended
    obtain ⟨last, all, later, reached⟩ := ih (fun other mem => walked other (List.mem_cons_of_mem _ mem))
      (step v id) first.walking (extended.trans first.extended)
    refine ⟨last, all, first.extended.trans later, fun other mem present => ?_⟩
    rcases List.mem_cons.1 mem with rfl | mem
    · exact later.visited.subset (first.reached present)
    · exact reached other mem present

/-- Leaving a cell after all that it reads has been visited. -/
theorem leave_walked {s : Sheet} {id : String} {w v : Walk}
    (through : InsideLeads s ⟨id :: w.visited, w.left⟩ id) (after : s.Walking v)
    (extended : Extends ⟨id :: w.visited, w.left⟩ v)
    (reached : ∀ y ∈ s.dependencies id, y ∈ s.names → y ∈ v.visited) :
    Walked s id w { v with left := id :: v.left } := by
  have entered : id ∈ v.visited := extended.visited.subset List.mem_cons_self
  refine ⟨⟨after.names, after.distinct, ?_, after.ordered.cons ?_⟩, ⟨?_, ?_, ?_⟩, fun _ => entered⟩
  · intro x mem
    rcases List.mem_cons.1 mem with rfl | mem
    · exact entered
    · exact after.visited x mem
  · intro y link there
    by_cases left : y ∈ v.left
    · exact .inl left
    · exact .inr (through.extend extended y (reached y link there) left)
  · exact (List.suffix_cons id w.visited).trans extended.visited
  · exact extended.left.trans (List.suffix_cons id _)
  · intro x mem
    rcases extended.closed x mem with old | left
    · rcases List.mem_cons.1 old with rfl | old
      · exact .inr List.mem_cons_self
      · exact .inl old
    · exact .inr (List.mem_cons_of_mem _ left)

theorem walk_walked {s : Sheet} (depth : Nat) (id : String) (w : Walk) (walking : s.Walking w)
    (inside : InsideLeads s w id) (deep : s.size ≤ depth + w.visited.length) :
    Walked s id w (s.walk depth id w) := by
  induction depth generalizing id w with
  | zero =>
    exact ⟨walking, .refl w, fun present => walking.all_visited (by omega) present⟩
  | succ depth ih =>
    rw [walk]
    split
    next old => exact ⟨walking, .refl w, fun _ => old⟩
    next new =>
      split
      next absent =>
        refine ⟨walking, .refl w, fun present => ?_⟩
        exact (Roster.not_mem_of_get?_eq_none absent present).elim
      next c here =>
        have links : s.dependencies id = c.dependencies := by
          rw [dependencies, here, Option.map_some, Option.getD_some]
        have present : id ∈ s.names := Roster.contains_iff.1 (by rw [Roster.contains, here]; rfl)
        -- the walk goes inside the cell, which leads to all that it reads
        have entered : s.Walking ⟨id :: w.visited, w.left⟩ := by
          refine ⟨fun x mem => ?_, List.nodup_cons.2 ⟨new, walking.distinct⟩,
            fun x mem => List.mem_cons_of_mem _ (walking.visited x mem), walking.ordered⟩
          rcases List.mem_cons.1 mem with rfl | mem
          · exact present
          · exact walking.names x mem
        have through : InsideLeads s ⟨id :: w.visited, w.left⟩ id := by
          intro x mem notLeft
          rcases List.mem_cons.1 mem with rfl | mem
          · exact .refl
          · exact inside x mem notLeft
        obtain ⟨after, extended, reached⟩ := fold_walked
          (fun w next => s.walk depth next w) (sortedNames c.dependencies)
          (fun next mem v now extended => by
            have link : next ∈ s.dependencies id := by
              rw [links]
              exact List.mem_mergeSort.1 mem
            have longer := extended.visited.length_le
            refine ih next v now (fun x mem notLeft => ?_) ?_
            · exact (through.extend extended x mem notLeft).tail link
            · rw [List.length_cons] at longer
              omega)
          entered
        exact leave_walked through after extended fun y link there =>
          reached y (List.mem_mergeSort.2 (links ▸ link)) there

/-- The walks from all cells together visit every cell and leave it again. -/
theorem order_walked (s : Sheet) :
    s.Walking (s.names.foldl (fun w id => s.walk s.size id w) ⟨[], []⟩) ∧
      ∀ id ∈ s.names, id ∈ (s.names.foldl (fun w id => s.walk s.size id w) ⟨[], []⟩).left := by
  have begin : s.Walking ⟨[], []⟩ :=
    ⟨fun _ mem => (by cases mem), List.nodup_nil, fun _ mem => (by cases mem), fun later x earlier
      same => by simp at same⟩
  obtain ⟨walking, extended, reached⟩ := fold_walked
    (fun w id => s.walk s.size id w) s.names
    (fun id _ v now extended => by
      refine walk_walked s.size id v now (fun x mem notLeft => ?_) (Nat.le_add_right _ _)
      rcases extended.closed x mem with nowhere | left
      · cases nowhere
      · exact (notLeft left).elim)
    begin
  refine ⟨walking, fun id mem => ?_⟩
  rcases extended.closed id (reached id mem mem) with nowhere | left
  · cases nowhere
  · exact left

/-- The order of evaluation is an order of the cells of the sheet. -/
theorem mem_order {s : Sheet} {id : String} : id ∈ s.order ↔ id ∈ s.names := by
  obtain ⟨walking, left⟩ := order_walked s
  rw [order, List.mem_reverse]
  exact ⟨fun mem => walking.names id (walking.visited id mem), left id⟩

/-- What a cell reads comes before it, or leads to it. -/
theorem before_or_leads {s : Sheet} {id : String} {before after : List String}
    (split : s.order = before ++ id :: after) {y : String} (link : y ∈ s.dependencies id)
    (there : y ∈ s.names) : y ∈ before ∨ s.Leads y id := by
  obtain ⟨walking, -⟩ := order_walked s
  have same := congrArg List.reverse split
  rw [order, List.reverse_reverse, List.reverse_append, List.reverse_cons, List.append_assoc,
    List.singleton_append] at same
  have earlier := walking.ordered _ id _ same y link there
  rwa [List.mem_reverse] at earlier

/-! ### Loops -/

/-- A chain of links leads from the cell back to it. -/
def OnLoop (s : Sheet) (x : String) : Prop :=
  Relation.TransGen (fun x y => y ∈ s.dependencies x) x x

section
variable {s : Sheet} {id : String} {before after : List String}

/-- What a cell reads comes before it, or both lie on a loop. -/
theorem before_or_onLoop (split : s.order = before ++ id :: after) {y : String}
    (link : y ∈ s.dependencies id) (there : y ∈ s.names) :
    y ∈ before ∨ s.OnLoop id ∧ s.OnLoop y := by
  rcases before_or_leads split link there with earlier | leads
  · exact .inl earlier
  · exact .inr ⟨.head' link leads, .tail' leads link⟩

/-- What is read up to some place in the order comes before it, but for loops. -/
theorem mem_before_of_reads (split : s.order = before ++ id :: after) {x y : String}
    (upTo : x ∈ before ∨ x = id) (noLoop : ¬ s.OnLoop x) (link : y ∈ s.dependencies x)
    (there : y ∈ s.names) : y ∈ before := by
  rcases upTo with mem | rfl
  · obtain ⟨first, rest, rfl⟩ := List.append_of_mem mem
    rw [List.append_assoc, List.cons_append] at split
    have earlier := (before_or_onLoop split link there).resolve_right fun both => noLoop both.1
    exact List.mem_append_left _ earlier
  · exact (before_or_onLoop split link there).resolve_right fun both => noLoop both.1

end

end MonteCarloSheet.Sheet
