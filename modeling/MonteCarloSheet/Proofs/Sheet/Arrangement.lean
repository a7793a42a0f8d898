import Mathlib.Data.List.Perm.Subperm
import MonteCarloSheet.Proofs.Sheet.Order
import MonteCarloSheet.Proofs.Sheet.Tied

/-! The order of evaluation is an arrangement of the cells.

Every cell is in the order once (`order_perm`), because a walk leaves as many cells
as it visits, and after what it reads, but for loops (`order_arranges`).

The walk can be done with a stack instead: the cells that it is inside, each with
the dependencies that it has yet to look at. A step either uses up a dependency or
visits one cell more, so the stack empties (`stackWalk`). A recursive walk needs no
more depth than there are cells to visit (`walk_deeper`), so both leave the same
(`stackOrder_eq`). -/
namespace MonteCarloSheet

namespace Walk

def enter (id : String) (w : Walk) : Walk :=
  { w with visited := id :: w.visited }

def leave (id : String) (w : Walk) : Walk :=
  { w with left := id :: w.left }

/-- Between two moments of a walk, cells are only added to the visited ones, and as many are left
as are visited. -/
structure Grows (w v : Walk) : Prop where
  visited : w.visited ⊆ v.visited
  balanced : v.left.length + w.visited.length = w.left.length + v.visited.length

theorem Grows.refl (w : Walk) : Grows w w :=
  ⟨List.Subset.refl _, rfl⟩

theorem Grows.trans {u v w : Walk} (first : Grows u v) (second : Grows v w) : Grows u w := by
  refine ⟨List.Subset.trans first.visited second.visited, ?_⟩
  have := first.balanced
  have := second.balanced
  omega

theorem Grows.fold {step : Walk → String → Walk} (each : ∀ w id, Grows w (step w id))
    (ids : List String) (w : Walk) : Grows w (ids.foldl step w) := by
  induction ids generalizing w with
  | nil => exact .refl w
  | cons id rest ih => exact (each w id).trans (ih (step w id))

/-- Steps that agree once so much is visited do the same from there on. -/
theorem fold_congr {step other : Walk → String → Walk} (each : ∀ w id, Grows w (step w id))
    {w : Walk} (same : ∀ v, Grows w v → ∀ id, step v id = other v id) (ids : List String) :
    ids.foldl step w = ids.foldl other w := by
  suffices go : ∀ v, Grows w v → ids.foldl step v = ids.foldl other v from go w (.refl w)
  induction ids with
  | nil => exact fun v _ => rfl
  | cons id rest ih =>
    intro v grown
    rw [List.foldl_cons, List.foldl_cons, ← same v grown id]
    exact ih _ (grown.trans (each v id))

end Walk

namespace Sheet

variable {s : Sheet}

/-- A walk inside a cell that is there and not visited. -/
theorem walk_enter {id : String} {w : Walk} (depth : Nat) (new : id ∉ w.visited)
    (there : id ∈ s.names) :
    s.walk (depth + 1) id w =
      ((sortedNames (s.dependencies id)).foldl (fun w next => s.walk depth next w)
        (w.enter id)).leave id := by
  obtain ⟨c, here⟩ := Roster.mem_names.1 there
  have links : s.dependencies id = c.dependencies := by
    rw [dependencies, here, Option.map_some, Option.getD_some]
  rw [walk, if_neg new, here, links]
  rfl

/-- A walk does nothing at a cell that is visited or not there. -/
theorem walk_skip {id : String} {w : Walk} (depth : Nat) (skip : id ∈ w.visited ∨ id ∉ s.names) :
    s.walk depth id w = w := by
  cases depth with
  | zero => rfl
  | succ depth =>
    rw [walk]
    split
    · rfl
    next new =>
      split
      · rfl
      next c here => exact ((skip.resolve_left new) (Roster.mem_names.2 ⟨c, here⟩)).elim

theorem walk_grows (depth : Nat) (id : String) (w : Walk) : w.Grows (s.walk depth id w) := by
  induction depth generalizing id w with
  | zero => exact .refl w
  | succ depth ih =>
    by_cases skip : id ∈ w.visited ∨ id ∉ s.names
    · rw [walk_skip _ skip]
      exact .refl w
    · obtain ⟨new, there⟩ := not_or.1 skip
      rw [walk_enter depth new (not_not.1 there)]
      obtain ⟨visited, balanced⟩ := Walk.Grows.fold (fun w next => ih next w)
        (sortedNames (s.dependencies id)) (w.enter id)
      refine ⟨List.Subset.trans (List.subset_cons_self id _) visited, ?_⟩
      simp only [Walk.enter, Walk.leave, List.length_cons] at balanced ⊢
      omega

/-- Every cell is in the order once. -/
theorem order_perm (s : Sheet) : s.order.Perm s.names := by
  obtain ⟨walking, -⟩ := order_walked s
  have balanced := (Walk.Grows.fold (fun w id => walk_grows (s := s) s.size id w) s.names
    ⟨[], []⟩).balanced
  simp only [List.length_nil, Nat.add_zero, Nat.zero_add] at balanced
  have few : s.order.length ≤ s.names.length := by
    rw [order, List.length_reverse, balanced]
    exact (walking.distinct.subperm walking.names).length_le
  have all : s.names.Subperm s.order := s.nodup_names.subperm fun id mem => mem_order.2 mem
  exact (all.perm_of_length_le few).symm

/-! ### The depth of a walk -/

/-- How many cells a walk has not visited. -/
def unvisited (s : Sheet) (w : Walk) : Nat :=
  (s.names.filter (· ∉ w.visited)).length

theorem unvisited_le (s : Sheet) (w : Walk) : s.unvisited w ≤ s.size := by
  have few := List.length_filter_le (· ∉ w.visited) s.names
  rwa [Roster.names, List.length_map] at few

theorem unvisited_grows {w v : Walk} (more : w.Grows v) : s.unvisited v ≤ s.unvisited w :=
  (List.monotone_filter_right _ fun id fresh => by
    simp only [decide_eq_true_eq] at fresh ⊢
    exact fun old => fresh (more.visited old)).length_le

/-- Entering a cell leaves one fewer to visit. -/
theorem unvisited_enter {id : String} {w : Walk} (new : id ∉ w.visited) (there : id ∈ s.names) :
    s.unvisited (w.enter id) < s.unvisited w := by
  have fewer : s.names.filter (· ∉ (w.enter id).visited) =
      (s.names.filter (· ∉ w.visited)).filter (· ≠ id) := by
    rw [List.filter_filter]
    refine List.filter_congr fun other _ => ?_
    simp [Walk.enter]
  rw [unvisited, unvisited, fewer]
  exact List.length_filter_lt_length_iff_exists.2
    ⟨id, List.mem_filter.2 ⟨there, decide_eq_true new⟩, by simp⟩

/-- A walk needs no more depth than there are cells to visit. -/
theorem walk_deeper {depth : Nat} (id : String) {w : Walk} (enough : s.unvisited w ≤ depth) :
    s.walk (depth + 1) id w = s.walk depth id w := by
  induction depth generalizing id w with
  | zero =>
    refine walk_skip 1 (or_iff_not_imp_right.2 fun there => ?_)
    by_contra new
    have := unvisited_enter new (not_not.1 there)
    omega
  | succ depth ih =>
    by_cases skip : id ∈ w.visited ∨ id ∉ s.names
    · rw [walk_skip _ skip, walk_skip _ skip]
    · obtain ⟨new, there⟩ := not_or.1 skip
      have fewer := unvisited_enter new (not_not.1 there)
      rw [walk_enter _ new (not_not.1 there), walk_enter _ new (not_not.1 there)]
      refine congrArg (Walk.leave id) (Walk.fold_congr (fun v next => walk_grows _ next v) ?_ _)
      intro v grown next
      have := unvisited_grows (s := s) grown
      exact ih next (by omega)

/-- What a walk with the depth that it is given does inside a cell. -/
theorem walk_inside {id : String} {w : Walk} (new : id ∉ w.visited) (there : id ∈ s.names) :
    s.walk s.size id w =
      ((sortedNames (s.dependencies id)).foldl (fun w next => s.walk s.size next w)
        (w.enter id)).leave id := by
  rw [← walk_deeper id (unvisited_le s w), walk_enter _ new there]

/-! ### The walk with a stack -/

/-- Walks on from the cells that the walk is inside, the innermost first, each with the
dependencies that are still to be looked at. -/
def stackWalk (s : Sheet) (w : Walk) : List (String × List String) → Walk
  | [] => w
  | (id, []) :: outer => s.stackWalk (w.leave id) outer
  | (id, next :: pending) :: outer =>
    if next ∈ s.names ∧ next ∉ w.visited then
      s.stackWalk (w.enter next)
        ((next, sortedNames (s.dependencies next)) :: (id, pending) :: outer)
    else s.stackWalk w ((id, pending) :: outer)
termination_by stack => (s.unvisited w, (stack.flatMap Prod.snd).length + stack.length)
decreasing_by
  · exact Prod.Lex.right _ (Nat.lt_succ_self _)
  · rename_i entered
    exact Prod.Lex.left _ _ (unvisited_enter entered.2 entered.1)
  · exact Prod.Lex.right _ (Nat.add_lt_add_right (Nat.lt_succ_self _) _)

/-- The order in which walks with a stack leave the cells. -/
def stackOrder (s : Sheet) : List String :=
  (s.names.foldl (fun w root =>
    if root ∈ w.visited then w
    else s.stackWalk (w.enter root) [(root, sortedNames (s.dependencies root))]) ⟨[], []⟩).left.reverse

/-- The stack holds what is left to do of the walks that it is inside. -/
theorem stackWalk_eq (w : Walk) (stack : List (String × List String)) :
    s.stackWalk w stack = stack.foldl (fun w frame =>
      (frame.2.foldl (fun w next => s.walk s.size next w) w).leave frame.1) w := by
  fun_induction stackWalk s w stack with
  | case1 w => rfl
  | case2 w id outer ih => exact ih
  | case3 w id next pending outer entered ih =>
    rw [ih, List.foldl_cons, List.foldl_cons, List.foldl_cons, List.foldl_cons,
      walk_inside entered.2 entered.1]
  | case4 w id next pending outer passed ih =>
    rw [ih, List.foldl_cons, List.foldl_cons, List.foldl_cons, walk_skip]
    by_cases old : next ∈ w.visited
    · exact .inl old
    · exact .inr fun there => passed ⟨there, old⟩

/-- The walks with a stack leave the cells in the order of evaluation. -/
theorem stackOrder_eq (s : Sheet) : s.stackOrder = s.order := by
  rw [stackOrder, order]
  congr 2
  refine List.foldl_ext _ _ _ fun w root there => ?_
  split
  next old => exact (walk_skip _ (.inl old)).symm
  next new =>
    rw [stackWalk_eq, walk_inside new there]
    rfl

/-! ### The arrangement -/

/-- What a cell reads has a lower place in the order, or leads to it. -/
theorem idxOf_lt_or_leads {x y : String} (link : y ∈ s.dependencies x) (there : y ∈ s.names) :
    s.order.idxOf y < s.order.idxOf x ∨ s.Leads y x := by
  have reader : x ∈ s.names := by
    by_contra absent
    have none : s.get? x = none := Option.eq_none_iff_forall_ne_some.2 fun c here =>
      absent (Roster.mem_names.2 ⟨c, here⟩)
    rw [dependencies, none] at link
    cases link
  obtain ⟨before, after, split⟩ := List.append_of_mem (mem_order.2 reader)
  have fresh : x ∉ before := by
    have distinct : s.order.Nodup := s.order_perm.nodup_iff.2 s.nodup_names
    rw [split, List.nodup_append] at distinct
    exact fun mem => distinct.2.2 x mem x List.mem_cons_self rfl
  refine (before_or_leads split link there).imp_left fun earlier => ?_
  rw [split, List.idxOf_append_of_mem earlier, List.idxOf_append_of_notMem fresh,
    List.idxOf_cons_self, Nat.add_zero]
  exact List.idxOf_lt_length_of_mem earlier

/-- Once all cells are prepared, the walk with a stack gives their order of evaluation. It has every
cell once, and a cell comes after what it reads, but for what leads back to it. -/
theorem order_arranges (s : Sheet) :
    s.prepareAll.stackOrder = s.prepareAll.order ∧ s.prepareAll.order.Perm s.names ∧
      ∀ x y, y ∈ s.prepareAll.dependencies x → y ∈ s.names → y ≠ x →
        s.prepareAll.order.idxOf y < s.prepareAll.order.idxOf x ∨ s.prepareAll.Leads y x := by
  have names : s.prepareAll.names = s.names :=
    prepareAll_keep (I := fun t => t.names = s.names)
      (fun t id same => (names_prepare t id).trans same) rfl
  refine ⟨stackOrder_eq _, names ▸ order_perm _, fun x y link there _ => ?_⟩
  exact idxOf_lt_or_leads link (names.symm ▸ there)

theorem order_of_three_cells :
    let s := define (define (define Roster.empty "C" (some "B + A") none) "B" (some "A + C") none)
      "A" (some "1") none
    "A" ∈ s.prepareAll.dependencies "C" ∧ "A" ∈ s.names ∧ "A" ≠ "C" ∧
      s.prepareAll.order.idxOf "A" < s.prepareAll.order.idxOf "C" := by
  intro s
  have link : "A" ∈ s.prepareAll.dependencies "C" := by decide +kernel
  have there : "A" ∈ s.names := by decide +kernel
  have other : "A" ≠ "C" := by decide
  refine ⟨link, there, other, ?_⟩
  refine ((order_arranges s).2.2 "C" "A" link there other).resolve_right fun leads => ?_
  have reads_nothing : s.prepareAll.dependencies "A" = [] := by decide +kernel
  rcases leads.cases_head with same | ⟨next, first, -⟩
  · exact other same
  · rw [reads_nothing] at first
    cases first

end Sheet

end MonteCarloSheet
