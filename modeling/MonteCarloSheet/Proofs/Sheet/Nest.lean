import MonteCarloSheet.Proofs.Formula.Stopping
import MonteCarloSheet.Proofs.Sheet.Recording

/-! Evaluations that stand inside one another.

The record of a reevaluation tells at every moment which cells have begun and not
ended (`running`). They are a nest: the cell itself, and inside it different cells
that were not active before (`Nest`). So no cell begins while it is running, and
the nest is no deeper than there are such cells, and one (`Nest.length_le`). An
evaluation that is abandoned does not end, but then nothing begins after it. -/
namespace MonteCarloSheet

open Formula (Carried Stop)

/-! ### Running cells -/

/-- The cells that have begun and not ended, the latest one first. -/
def Event.running : List Event → List String
  | [] => []
  | .began id :: past => id :: running past
  | .ended id _ :: past => (running past).erase id
  | .entered _ :: past => running past
  | .resized :: past => running past
  | .answered _ _ :: past => running past

/-- The cells of the sheet that are not active. -/
def Progress.inactive (p : Progress) : List String :=
  p.sheet.names.filter (· ∉ p.active)

theorem Progress.mem_inactive {p : Progress} {x : String} :
    x ∈ p.inactive ↔ x ∈ p.sheet.names ∧ x ∉ p.active := by
  rw [inactive, List.mem_filter, decide_eq_true_eq]

/-- Nothing runs, or the cell does and inside it different cells that were not active, the innermost
one first. -/
inductive Nest (p : Progress) (id : String) : List String → Prop where
  | none : Nest p id []
  | cells {inner : List String} (distinct : inner.Nodup) (inactive : ∀ x ∈ inner, x ∈ p.inactive) :
      Nest p id (inner ++ [id])

namespace Nest
variable {p : Progress} {id x : String} {inner outer : List String}

/-- A nest has no more cells than there are inactive ones, and one. -/
theorem length_le (h : Nest p id outer) : outer.length ≤ p.inactive.length + 1 := by
  cases h with
  | none => exact Nat.zero_le _
  | cells distinct inactive =>
    rw [List.length_append]
    exact Nat.succ_le_succ (distinct.subperm inactive).length_le

/-- A cell that was not active and does not run yet may begin inside. -/
theorem longer (h : Nest p id (inner ++ [id])) (there : x ∈ p.sheet.names)
    (idle : x ∉ inner ++ p.active) : Nest p id (x :: (inner ++ [id])) := by
  generalize same : inner ++ [id] = all at h
  cases h with
  | none => exact (List.append_ne_nil_of_right_ne_nil _ (List.cons_ne_nil _ _) same).elim
  | cells distinct inactive =>
    obtain rfl := List.append_cancel_right same
    rw [List.mem_append, not_or] at idle
    refine @Nest.cells p id (x :: inner) (List.nodup_cons.2 ⟨idle.1, distinct⟩) fun y mem => ?_
    rcases List.mem_cons.1 mem with rfl | mem
    · exact Progress.mem_inactive.2 ⟨there, idle.2⟩
    · exact inactive y mem

theorem inside (h : Nest p id (x :: outer)) : Nest p id outer := by
  generalize same : x :: outer = all at h
  cases h with
  | none => cases same
  | @cells inner distinct inactive =>
    cases inner with
    | nil =>
      cases same
      exact .none
    | cons y inner =>
      cases same
      exact .cells (List.nodup_cons.1 distinct).2 fun z mem =>
        inactive z (List.mem_cons_of_mem _ mem)

/-- The innermost cell stands inside other ones, and was not active, unless it is the only one. -/
theorem fresh (h : Nest p id (x :: outer)) (own : id ∈ p.active) :
    x ∉ outer ∧ (outer ≠ [] → x ∈ p.inactive) := by
  generalize same : x :: outer = all at h
  cases h with
  | none => cases same
  | @cells inner distinct inactive =>
    cases inner with
    | nil =>
      cases same
      exact ⟨List.not_mem_nil, fun nonempty => (nonempty rfl).elim⟩
    | cons y inner =>
      cases same
      have idle := inactive x List.mem_cons_self
      refine ⟨fun mem => ?_, fun _ => idle⟩
      rcases List.mem_append.1 mem with mem | mem
      · exact (List.nodup_cons.1 distinct).1 mem
      · exact (Progress.mem_inactive.1 idle).2 (List.mem_singleton.1 mem ▸ own)

end Nest

/-- What runs has been a nest all along. -/
def Orderly (p : Progress) (id : String) (events : List Event) : Prop :=
  ∀ past, past <:+ events → Nest p id (Event.running past)

theorem Orderly.nil (p : Progress) (id : String) : Orderly p id [] := by
  intro past suffix
  rw [List.suffix_nil.1 suffix]
  exact .none

theorem Orderly.cons {p : Progress} {id : String} {event : Event} {events : List Event}
    (h : Orderly p id events) (now : Nest p id (Event.running (event :: events))) :
    Orderly p id (event :: events) := by
  intro past suffix
  rcases List.suffix_cons_iff.1 suffix with rfl | earlier
  · exact now
  · exact h past earlier

/-- Answers neither begin nor end cells. -/
theorem Orderly.answered {p : Progress} {id : String} {events : List Event}
    (h : Orderly p id events) (name : String) (answer : Except Stop (Option Value)) :
    Orderly p id (.answered name answer :: events) :=
  h.cons (h events (List.suffix_refl _))

/-! ### While a cell is evaluated -/

section
variable (p : Progress) (id : String) (active outer : List String)

/-- The given cells are active, and the given ones run. -/
structure Standing (r : Recorded) : Prop where
  names : r.progress.sheet.names = p.sheet.names
  active : r.progress.active = active
  running : Event.running r.events = outer
  orderly : Orderly p id r.events

/-- What has stopped by a fault has ended, and what has been abandoned has not. -/
def Stopped : Stop → Recorded → Prop
  | .fault _, r => Standing p id active outer r
  | .missing, r => Orderly p id r.events

/-- What has an outcome has ended, unless it has been abandoned. -/
def Over : Outcome × Recorded → Prop
  | (.abandoned, r) => Orderly p id r.events
  | (_, r) => Standing p id active outer r

end

section
variable {p : Progress} {id : String} {active inner outer : List String} {r : Recorded}

theorem Standing.stopped (h : Standing p id active outer r) (x : Stop) :
    Stopped p id active outer x r := by
  cases x with
  | fault f => exact h
  | missing => exact h.orderly

theorem Standing.nest (h : Standing p id active outer r) : Nest p id outer :=
  h.running ▸ h.orderly r.events (List.suffix_refl _)

theorem Standing.answered (h : Standing p id active outer r) (name : String)
    (answer : Except Stop (Option Value)) :
    Standing p id active outer (r.note (.answered name answer)) :=
  ⟨h.names, h.active, h.running, h.orderly.answered name answer⟩

theorem Standing.began (h : Standing p id active outer r) {x : String} (before : Cell)
    (nest : Nest p id (x :: outer)) :
    Standing p id active (x :: outer)
      ((r.onProgress (Progress.onSheet (Sheet.begun · x before))).note (.began x)) := by
  have running : Event.running (.began x :: r.events) = x :: outer := by
    rw [Event.running, h.running]
  refine ⟨?_, h.active, running, h.orderly.cons (running ▸ nest)⟩
  change (Sheet.begun r.progress.sheet x before).names = _
  rw [Sheet.begun, Sheet.names_relink, Roster.names_modify, h.names]

theorem Standing.ended (h : Standing p id active (x :: outer) r) (ending : Ending)
    {q : Progress} (runs : Runs r.progress q) :
    Standing p id active outer ⟨q, .ended x ending :: r.events⟩ := by
  have running : Event.running (.ended x ending :: r.events) = outer := by
    rw [Event.running, h.running, List.erase_cons_head]
  exact ⟨(names_steps runs.steps).trans h.names, runs.active.trans h.active, running,
    h.orderly.cons (running ▸ h.nest.inside)⟩

theorem conclude_over (h : Standing p id active (x :: outer) r) (before : Cell) (ending : Ending) :
    Over p id active outer (r.conclude x before ending) := by
  have ended := h.ended ending (conclude_runs x before ending r.progress)
  have goes := conclude_ne_abandoned x before ending.apply r.progress
  rw [Recorded.conclude]
  generalize conclude x before ending.apply r.progress = out at ended goes
  obtain ⟨_ | _ | _, q⟩ := out
  · exact ended
  · exact ended
  · exact (goes rfl).elim

/-- Bringing an inactive cell up to date keeps the cells that run a nest. -/
def BringsNest (p : Progress) (id : String) (bring : RecordedRefresh) : Prop :=
  ∀ room name inner r, Standing p id (inner ++ p.active) (inner ++ [id]) r →
    Nest p id (name :: (inner ++ [id])) →
      Carried (Standing p id (name :: (inner ++ p.active)) (inner ++ [id]))
        (Stopped p id (name :: (inner ++ p.active)) (inner ++ [id]))
        (bring room name (r.onProgress (Progress.activate name)))

theorem Standing.deactivate {name : String} (h : Standing p id (name :: active) outer r)
    (idle : name ∉ active) :
    Standing p id active outer (r.onProgress (Progress.deactivate name)) := by
  refine ⟨h.names, ?_, h.running, h.orderly⟩
  change List.filter _ r.progress.active = _
  rw [h.active]
  exact filter_ne_cons idle

/-- A reference begins only what is neither active nor running. -/
theorem recordedReference_nest {bring : RecordedRefresh} (brings : BringsNest p id bring)
    (count room : Nat) (name : String)
    (h : Standing p id (inner ++ p.active) (inner ++ [id]) r) :
    Carried (Standing p id (inner ++ p.active) (inner ++ [id]))
      (Stopped p id (inner ++ p.active) (inner ++ [id]))
      (recordedReference count bring room name r) := by
  have answered : ∀ {r : Recorded} (answer : Except Stop (Option Value)),
      Standing p id (inner ++ p.active) (inner ++ [id]) r →
        Carried (Standing p id (inner ++ p.active) (inner ++ [id]))
          (Stopped p id (inner ++ p.active) (inner ++ [id]))
          (answer, r.note (.answered name answer)) := by
    intro r answer h
    cases answer with
    | error x => exact (h.answered name _).stopped x
    | ok v => exact h.answered name _
  rw [recordedReference]
  by_cases active : name ∈ r.progress.active
  · rw [if_pos active]
    exact answered _ h
  rw [if_neg active]
  cases here : r.progress.sheet.get? name with
  | none => exact answered _ h
  | some c =>
    dsimp only
    rw [recordedAnswer]
    have idle : name ∉ inner ++ p.active := h.active ▸ active
    by_cases stale : c.isStale = true
    · have nest : Nest p id (name :: (inner ++ [id])) :=
        h.nest.longer (h.names ▸ Roster.mem_names.2 ⟨c, here⟩) idle
      rw [if_pos stale]
      have brought := brings room name inner r h nest
      generalize bring room name _ = out at brought
      obtain ⟨(f | _) | u, r'⟩ := out
      · exact answered _ (Standing.deactivate brought idle)
      · exact Orderly.answered brought name _
      · exact answered _ (Standing.deactivate brought idle)
    · rw [if_neg stale]
      refine answered _ ⟨h.names, ?_, h.running, h.orderly⟩
      exact (congrArg Progress.active (Progress.deactivate_activate active)).trans h.active

/-- A reevaluation that makes a nest longer leaves it as it was, unless it is abandoned. -/
theorem recordedWith_nest {bring : RecordedRefresh} (brings : BringsNest p id bring)
    (sim : Simulation) (room : Nat) {x : String} (same : x :: outer = inner ++ [id])
    (nest : Nest p id (x :: outer)) (h : Standing p id (inner ++ p.active) outer r) :
    Over p id (inner ++ p.active) outer (recordedWith sim bring room x r) := by
  rw [recordedWith]
  cases r.progress.sheet.get? x with
  | none => exact h
  | some before =>
    have begun := h.began before nest
    dsimp only
    generalize (r.onProgress _).note _ = entered at begun
    cases before.tree with
    | error err => exact conclude_over begun before _
    | ok e =>
      dsimp only
      rw [same] at begun
      have ends := Formula.evaluate_carries (fun x _ _ h => Standing.stopped h x) sim.count room e
        (.inr fun _ h => Standing.stopped h _)
        (fun name _ left _ _ h => recordedReference_nest brings sim.count left name h)
        (sim.source.generatorFor [x, before.formula.getD ""]) entered begun
      rw [← same] at ends
      generalize Formula.evaluate _ _ _ _ _ entered = out at ends
      obtain ⟨(f | _) | ⟨_ | v, g⟩, r'⟩ := out
      · exact conclude_over ends before _
      · exact ends
      · have left : Runs r'.progress (r'.progress.onSheet (Roster.modify · x Ending.vacant.apply)) :=
          ⟨rfl, .single (.finish _ x .vacant)⟩
        exact (Standing.ended ends .vacant left).orderly
      · exact conclude_over ends before _

theorem recordedRefresh_nest (sim : Simulation) (levels : Nat) :
    BringsNest p id (recordedRefresh sim levels) := by
  have refused : ∀ {inner : List String} {r : Recorded} (name : String),
      Standing p id (inner ++ p.active) (inner ++ [id]) r →
        Standing p id (name :: (inner ++ p.active)) (inner ++ [id])
          (r.onProgress (Progress.activate name)) :=
    fun name h => ⟨h.names, congrArg (name :: ·) h.active, h.running, h.orderly⟩
  induction levels with
  | zero => exact fun room name inner r h _ => refused name h
  | succ levels ih =>
    intro room name inner r h nest
    match room with
    | 0 => exact refused name h
    | 1 => exact refused name h
    | room + 2 =>
      have inside : name :: (inner ++ [id]) = (name :: inner) ++ [id] := rfl
      have carried := recordedWith_nest ih sim room inside nest (refused name h)
      rw [recordedRefresh]
      dsimp only
      generalize recordedWith sim _ room name _ = out at carried
      obtain ⟨_ | _ | _, r'⟩ := out <;> exact carried

end

end MonteCarloSheet
