import MonteCarloSheet.Proofs.Sheet.AtRest
import MonteCarloSheet.Proofs.Sheet.Moves

/-! Cells that hold.

A cell holds when it stays what it was but for its marks and its readers
(`Sheet.Holds`). Any cell holds while another one is defined or removed. A cell that
is as its beginning left it holds while the sheet is prepared (`Holds.prepared`), and
if it shows what it means, no evaluation moves it either, not even its own
(`keeps_holds`). -/
namespace MonteCarloSheet

open Formula (Expr)

/-! ### The core of a cell -/

/-- The cell but for its marks and its readers. -/
def Cell.core (c : Cell) : Cell :=
  { c with needsReevaluation := false, processed := false, dependents := [] }

theorem Cell.eq_of_core {c d : Cell} {f : Cell → α} (h : d.core = c.core)
    (keep : ∀ c, f c.core = f c) : f d = f c :=
  eq_of_part h keep

theorem Cell.Begun.of_core {c d : Cell} (same : d.core = c.core) (h : c.Begun) : d.Begun := by
  have begun : c.core.Begun := ⟨h.parsed, h.links, h.histogram⟩
  rw [← same] at begun
  exact ⟨begun.parsed, begun.links, begun.histogram⟩

theorem Cell.Shows.of_core {c d : Cell} (same : d.core = c.core) {r : Result} (h : c.Shows r) :
    d.Shows r := by
  have shows_ : c.core.Shows r := by cases r <;> exact h
  rw [← same] at shows_
  cases r <;> exact shows_

namespace Sheet

/-- If the sheet has the cell, it is the given one but for its marks and its readers. -/
def Holds (s : Sheet) (x : String) (c : Cell) : Prop :=
  s.All fun y d => y = x → d.core = c.core

namespace Holds
variable {s : Sheet} {x id : String} {c : Cell}

theorem of_get? {d : Cell} (here : s.get? x = some d) (same : d.core = c.core) : s.Holds x c := by
  intro y e there self
  subst self
  cases here.symm.trans there
  exact same

theorem modify (h : s.Holds x c) (id : String) {f : Cell → Cell}
    (keep : id = x → ∀ d, d.core = c.core → (f d).core = c.core) :
    Holds (s.modify id f) x c :=
  All.modify h id fun d hd self => keep self d (hd self)

/-- Marks and readers make no difference. -/
theorem modifyAll (h : s.Holds x c) (ids : List String) {f : Cell → Cell}
    (keep : ∀ d, (f d).core = d.core) : (s.modifyAll ids f).Holds x c :=
  All.modifyAll h ids fun _ _ d hd self => (keep d).trans (hd self)

theorem relink (h : s.Holds x c) (id : String) (targets : List String)
    (own : x = id → targets = c.dependencies) : (s.relink id targets).Holds x c := by
  intro y d there self
  subst self
  obtain ⟨readers, relinked⟩ := get?_relink_links s id targets y
  rw [relinked] at there
  obtain ⟨old, before, rfl⟩ := Option.map_eq_some_iff.1 there
  have core := h y old before rfl
  by_cases self : y = id
  · have links : old.dependencies = c.dependencies := Cell.eq_of_core core fun _ => rfl
    rw [if_pos self, own self, ← links]
    exact core
  · rw [if_neg self]
    exact core

/-! ### Edits of other cells -/

theorem define (h : s.Holds x c) (other : x ≠ id) (formula name : Option String) :
    (s.define id formula name).Holds x c := by
  rw [Sheet.define]
  split
  next absent =>
    have entered : Holds (Roster.set s id (.new id formula name)) x c := by
      intro y d there self
      rw [Roster.get?_set, if_neg (self ▸ other)] at there
      exact h y d there self
    have introduced : Holds (introduce (Roster.set s id (.new id formula name)) id) x c :=
      entered.modify id fun self => (other self.symm).elim
    have marked := introduced.modifyAll (readers (Roster.set s id (.new id formula name)) id)
      (f := Cell.markStale) fun _ => rfl
    exact marked.relink id _ fun self => (other self).elim
  next c here => exact h.modify id fun self => (other self.symm).elim

theorem remove (h : s.Holds x c) (other : x ≠ id) {d : Cell} {s' : Sheet}
    (removed : s.remove id = some (d, s')) : s'.Holds x c := by
  rw [Sheet.remove] at removed
  obtain ⟨e, -, same⟩ := Option.map_eq_some_iff.1 removed
  cases same
  have unlinked := h.relink id [] fun self => (other self).elim
  have marked := unlinked.modifyAll ((s.relink id []).dependents id) (f := Cell.markStale)
    fun _ => rfl
  have detached : (s.detach id).Holds x c := marked.modify id fun self => (other self.symm).elim
  intro y d there self
  rw [Roster.get?_erase, if_neg (self ▸ other)] at there
  exact detached y d there self

/-! ### Preparing and evaluating -/

theorem prepare (h : s.Holds x c) (begun : c.Begun) (id : String) : (s.prepare id).Holds x c := by
  rw [Sheet.prepare]
  split
  · exact h
  next b here =>
    -- the tree that the cell keeps is that of its formula, and so are its links
    have own : x = id → b.parsed = (Formula.parse b.formula).toOption ∧
        c.dependencies = linksOf (Formula.parse b.formula) := by
      rintro rfl
      have core := h x b here rfl
      have begun_b := begun.of_core core
      have links : b.dependencies = c.dependencies := Cell.eq_of_core core fun _ => rfl
      exact ⟨begun_b.parsed, links.symm.trans begun_b.links⟩
    split
    next e kept =>
      refine h.relink id e.dependencies fun self => ?_
      obtain ⟨parsed, links⟩ := own self
      rw [kept] at parsed
      cases tree : Formula.parse b.formula with
      | error err => rw [tree] at parsed; cases parsed
      | ok e' =>
        rw [tree] at parsed links
        cases parsed
        exact links.symm
    next unparsed =>
      split
      · exact h
      next e tree =>
        have fresh : x ≠ id := fun self => by
          have parsed := (own self).1
          rw [unparsed, tree] at parsed
          cases parsed
        have parsed := h.modify id (f := fun c => { c with parsed := some e }) fun self =>
          (fresh self.symm).elim
        exact parsed.relink id e.dependencies fun self => (fresh self).elim

theorem prepared (h : s.Holds x c) (begun : c.Begun) : s.prepared.Holds x c :=
  prepareAll_keep (I := fun t => t.Holds x c) (fun _ id holds => holds.prepare begun id)
    (All.map h (f := fun _ c => c.beginCycle) fun _ _ hd => hd)

theorem begun (h : s.Holds x c) (begun : c.Begun) {b : Cell} (here : s.get? id = some b) :
    (s.begun id b).Holds x c := by
  refine relink (h.modify id fun _ d core => ?_) id _ fun self => ?_
  · rw [(begun.of_core core).begin_eq]
    exact core
  · subst self
    have core := h x b here rfl
    have begun_b := begun.of_core core
    rw [begun_b.tree_eq, ← begun_b.links]
    exact Cell.eq_of_core (f := Cell.dependencies) core fun _ => rfl

theorem fresher {t : Sheet} (h : s.Holds x c) (fresher : Fresher s t) : t.Holds x c :=
  fresher.all (fun _ _ _ _ hd => hd) h

end Holds

end Sheet

variable {sim : Simulation} {roomOf : Expr → Nat} {F : Formulas} {x : String} {c : Cell} {r : Result}

/-- A cell that holds and shows what it means ends without a change. -/
theorem Sheet.Holds.conclude_eq {q : Progress} (h : q.sheet.Holds x c) (there : x ∈ q.sheet.names)
    (formula : F x = some c.formula) (means : Denotes sim roomOf F x r) (shows_ : c.Shows r)
    {before : Cell} (older : before.core = c.core) {ending : Ending}
    (right : RightEnding sim roomOf F x ending) :
    conclude x before ending.apply q = (.unchanged, q) := by
  obtain ⟨d, here⟩ := Roster.mem_names.1 there
  have core := h x d here rfl
  have text : d.formula = c.formula := Cell.eq_of_core core fun _ => rfl
  have observed : d.observation = before.observation :=
    Cell.eq_of_core (core.trans older.symm) fun _ => rfl
  exact conclude_unchanged here (text ▸ formula) means (shows_.of_core core) observed right

/-- A cell that is as its beginning left it and shows what it means holds while cells are
evaluated. -/
theorem keeps_holds (begun : c.Begun) (formula : F x = some c.formula)
    (means : Denotes sim roomOf F x r) (shows_ : c.Shows r) :
    Keeps sim roomOf F (Sheet.Holds · x c) where
  begun := fun h here => h.begun begun here
  conclude := by
    intro s id before ending q h here later right
    by_cases self : id = x
    · subst self
      by_cases there : id ∈ q.sheet.names
      · rw [later.conclude_eq there formula means shows_ (h id before here rfl) right]
        exact later
      · intro y d found same
        subst same
        have known := Roster.mem_names.2 ⟨d, found⟩
        rw [names_steps (conclude_runs y before ending q).steps] at known
        exact (there known).elim
    · exact concluded_all (later.modify id fun same => (self same).elim)
        (fun _ _ _ same => (self same).elim) fun _ _ _ _ hd => hd

end MonteCarloSheet
