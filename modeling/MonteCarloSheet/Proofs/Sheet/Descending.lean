import MonteCarloSheet.Proofs.Sheet.Descent
import MonteCarloSheet.Proofs.Sheet.Noticed

/-! Evaluations are calm, or they descend.

If what nests fits in the room, the evaluation of a cell that means something is
calm, and that of a stuck cell is a descent (`Evaluates`). This goes by induction on
the levels of nesting: a reference to a stuck cell either finds a fault at once,
with which the formula may stop, or is a descent that becomes part of a longer one
(`Turn`). -/
namespace MonteCarloSheet

open Formula (Expr Fit)

section
variable (sim : Simulation) (roomOf : Expr → Nat) (F : Formulas)

/-- What the evaluation of a cell does. -/
inductive Evaluates (x : String) (p q : Progress) : Prop where
  | calm (free : ¬ Stuck sim roomOf F x) (calm : Calm sim roomOf F p q)
  | descent {chain : List String} {f : Fault}
      (descent : Descent sim roomOf F (x :: chain) p f q)

/-- What a reference to a stuck cell has done, in the formula of a cell that was entered in the
state `p`: it has found a fault, or it is a descent. -/
inductive Turn (id : String) (p : Progress) (name : String) : Fault → Progress → Prop where
  | bottom {f : Fault} {q : Progress} (calm : Calm sim roomOf F p q)
      (stops : Leans sim roomOf F id name → Bottom sim roomOf F id q f) : Turn id p name f q
  | deeper {chain : List String} {g : Fault} {q r : Progress} (calm : Calm sim roomOf F p q)
      (further : Descent sim roomOf F (name :: chain) q g r) :
      Turn id p name (.inherited name g.root) r

end

variable {sim : Simulation} {roomOf : Expr → Nat} {F : Formulas} {Along : List String → Prop}
  {cells levels room : Nat} {id name : String} {p q : Progress} {before : Cell}

theorem Evaluates.moves (h : Evaluates sim roomOf F id p q) (tied : p.sheet.Tied) :
    Moves Anything p q := by
  cases h with
  | calm _ calm => exact calm.moves.mono fun _ _ => trivial
  | descent descent => exact (descent.moves tied).mono fun _ _ => trivial

theorem Evaluates.once (h : Evaluates sim roomOf F id p q) (tied : p.sheet.Tied) :
    Once sim roomOf F p q := by
  cases h with
  | calm _ calm => exact calm.once
  | descent descent => exact descent.once tied

/-- Bringing a stale cell up to date evaluates it, along the given trails and if there are levels
for all cells that are not active. -/
def BringsDown (sim : Simulation) (roomOf : Expr → Nat) (F : Formulas)
    (Along : List String → Prop) (cells levels : Nat) : Prop :=
  ∀ room name p, Sound sim roomOf F p → Midway F p.sheet → ¬ p.sheet.Fresh name →
    F.Trail (name :: p.active) → Along (name :: p.active) → cells ≤ levels + p.active.length →
    sim.room + 2 ≤ room + F.span p.active →
    ∃ q, refresh sim levels room name (p.activate name) = (.ok (), q) ∧
      Sound sim roomOf F (q.deactivate name) ∧ q.sheet.Fresh name ∧
      Evaluates sim roomOf F name p (q.deactivate name)

theorem readOf_of_fault {s : Sheet} {c : Cell} {f : Fault} (count : Nat)
    (here : s.get? name = some c) (fault : c.fault = some f) :
    readOf count name s = .error (.fault (.inherited name f.root)) := by
  rw [readOf, here]
  dsimp only
  rw [Cell.read, fault]

/-- A reference to a cell that is active or fresh evaluates nothing. If the cell is stuck, the
formula may stop there. -/
theorem reference_at_once (bring : Refresh) (room : Nat) (sound : Sound sim roomOf F q)
    (refers : F.Refers id name) (reaches : name ∈ q.active → F.Reaches name id)
    (fresh : name ∉ q.active → q.sheet.Fresh name) :
    (reference sim.count bring room name q).2 = q ∧
      (¬ Stuck sim roomOf F name →
        Reads sim roomOf F name (reference sim.count bring room name q).1) ∧
      (Stuck sim roomOf F name →
        ∃ f, (reference sim.count bring room name q).1 = .error (.fault f) ∧
          (Leans sim roomOf F id name → Bottom sim roomOf F id q f)) := by
  by_cases active : name ∈ q.active
  · rw [reference, if_pos active]
    exact ⟨rfl, fun _ => reads_circular refers (reaches active), fun _ =>
      ⟨_, rfl, fun leans => .circular leans active (reaches active)⟩⟩
  rw [reference_fresh _ _ _ active (fresh active)]
  refine ⟨rfl, ?_⟩
  cases here : q.sheet.get? name with
  | none =>
    have absent : F name = none := by
      rw [← sound.formulas, Sheet.formulas, here]
      rfl
    rw [readOf, here]
    refine ⟨fun _ => reads_unknown absent, fun stuck => ?_⟩
    have there := stuck.1
    rw [absent] at there
    cases there
  | some c =>
    have processed := Cell.processed_of_fresh (fresh active c here)
    have finished := sound.finished name c here processed active
    have there : (F name).isSome := by
      rw [sound.formula_eq here]
      rfl
    refine ⟨fun _ => reads_of_finished here there finished, fun stuck => ?_⟩
    obtain ⟨g, fault⟩ := finished.stuck fun r means => stuck.2 ⟨r, means⟩
    exact ⟨_, readOf_of_fault sim.count here fault,
      fun leans => .leaning leans active here processed fault⟩

/-- A reference to a cell that means something reads it rightly and is calm; one to a stuck cell
gets a fault. -/
theorem reference_descends {p₀ : Progress} (brings : BringsDown sim roomOf F Along cells levels)
    (sound : Sound sim roomOf F q) (midway : Midway F q.sheet) (calm : Calm sim roomOf F p₀ q)
    {rest : List String} (active : q.active = id :: rest) (refers : F.Refers id name)
    (along : ¬ q.sheet.Fresh name → Along (name :: id :: rest)) (trail : F.Trail (id :: rest))
    (deep : cells ≤ levels + (id :: rest).length)
    (left : sim.room + 2 ≤ room + F.span (id :: rest)) :
    (¬ Stuck sim roomOf F name →
      Reads sim roomOf F name (reference sim.count (refresh sim levels) room name q).1 ∧
        Sound sim roomOf F (reference sim.count (refresh sim levels) room name q).2 ∧
        Calm sim roomOf F p₀ (reference sim.count (refresh sim levels) room name q).2) ∧
    (Stuck sim roomOf F name →
      ∃ f, (reference sim.count (refresh sim levels) room name q).1 = .error (.fault f) ∧
        Sound sim roomOf F (reference sim.count (refresh sim levels) room name q).2 ∧
        Turn sim roomOf F id p₀ name f
          (reference sim.count (refresh sim levels) room name q).2) := by
  by_cases nests : name ∉ q.active ∧ ¬ q.sheet.Fresh name
  · obtain ⟨mem, stale⟩ := nests
    obtain ⟨c, here, isStale⟩ : ∃ c, q.sheet.get? name = some c ∧ c.isStale = true := by
      simpa [Sheet.Fresh] using stale
    have there : (F name).isSome := by
      rw [sound.formula_eq here]
      rfl
    rw [← active] at deep left
    obtain ⟨r, brought, sound', fresh', evaluates⟩ := brings room name q sound midway stale
      (active ▸ trail.cons refers (active ▸ mem) there) (active ▸ along stale) deep left
    obtain ⟨d, found⟩ := sound'.exists_cell there
    have processed := Cell.processed_of_fresh (fresh' d found)
    have finished := sound'.finished name d found processed (by simp [Progress.deactivate])
    rw [reference, if_neg mem, here]
    dsimp only
    rw [answer_run, if_pos isStale, brought]
    refine ⟨fun free => ?_, fun stuck => ?_⟩
    · cases evaluates with
      | calm _ further =>
        exact ⟨reads_of_finished found there finished, sound', calm.trans further⟩
      | descent further => exact (free (further.idle name List.mem_cons_self).2).elim
    · cases evaluates with
      | calm free => exact (free stuck).elim
      | @descent chain g further =>
        obtain ⟨e, last, fault, -⟩ := further.head midway.underway.tied
        cases found.symm.trans last
        exact ⟨_, readOf_of_fault sim.count found fault, sound', .deeper calm further⟩
  · obtain ⟨same, reads, stops⟩ := reference_at_once (refresh sim levels) room sound
      refers (fun mem => trail.reaches (active ▸ mem))
      fun mem => by_contra fun stale => nests ⟨mem, stale⟩
    rw [same]
    refine ⟨fun free => ⟨reads free, sound, calm⟩, fun stuck => ?_⟩
    obtain ⟨f, fault, bottom⟩ := stops stuck
    exact ⟨f, fault, sound, .bottom calm bottom⟩

/-- If nested evaluations go along the given trails, and there are levels for all cells, the
reevaluation of a stale cell evaluates it. -/
theorem reevaluateWith_descends (room : Nat) (brings : BringsDown sim roomOf F Along cells levels)
    (sound : Sound sim roomOf F p) (midway : Midway F p.sheet)
    (here : p.sheet.get? id = some before) (stale : before.isStale = true)
    (trail : F.Trail (id :: p.active))
    (along : ∀ q name, Calm sim roomOf F (p.enter id before) q → F.Refers id name →
      ¬ q.sheet.Fresh name → Along (name :: id :: p.active))
    (deep : cells ≤ levels + (id :: p.active).length)
    (fit : ∀ e, Formula.parse before.formula = .ok e → Fit e.height room (roomOf e))
    (left : sim.room ≤ room + F.span p.active) :
    ∃ q ending, reevaluateWith sim (refresh sim levels) room id (p.activate id) =
        conclude id before ending.apply q ∧ Moves Anything (p.enter id before) q ∧
      Sound sim roomOf F (q.leave id before ending) ∧
      Evaluates sim roomOf F id p (q.leave id before ending) := by
  have formula := sound.formula_eq here
  have idle : id ∉ p.active := (List.nodup_cons.1 trail.distinct).1
  have begun : Midway F (p.enter id before).sheet := midway.steps (.single (.begin here))
  have start : Sound sim roomOf F (p.enter id before) :=
    (sound.activate id).begun here List.mem_cons_self
  obtain ⟨q, ending, ends, tracks⟩ := reevaluateWith_tracks (p := p.activate id)
    (I := fun q => Sound sim roomOf F q ∧ Calm sim roomOf F (p.enter id before) q)
    (T := fun name f q => Sound sim roomOf F q ∧
      Turn sim roomOf F id (p.enter id before) name f q)
    here formula (sound.faithful id before here) ⟨start, .refl _⟩ fit
    fun e parsed name mem r more q ⟨sound, calm⟩ => by
      have refers : F.Refers id name := ⟨_, e, formula, parsed, mem⟩
      have height := Formulas.height_of_parse formula parsed
      refine reference_descends brings sound (begun.steps calm.moves.steps) calm calm.moves.active
        refers (along q name calm refers) trail deep ?_
      rw [Formulas.span, Formulas.weight]
      omega
  refine ⟨q, ending, ends, ?_⟩
  have closing : ∀ {S : String → Prop}, Moves S (p.enter id before) q → Sound sim roomOf F q →
      RightEnding sim roomOf F id ending →
      Moves Anything (p.enter id before) q ∧ Sound sim roomOf F (q.leave id before ending) :=
    fun inner sound right => ⟨inner.mono fun _ _ => trivial,
      (sound.conclude inner.mem_active before ending).deactivate
        (sound.finishedAt_conclude before right)⟩
  rcases tracks with ⟨⟨sound_q, calm⟩, direct⟩ | ⟨name, f, leans, rfl, sound_q, turn⟩
  · obtain ⟨inner, after⟩ := closing calm.moves sound_q direct.right
    refine ⟨inner, after, ?_⟩
    cases direct with
    | means means right =>
      exact .calm (fun stuck => stuck.2 ⟨_, means⟩)
        (.around sound midway.underway.tied idle here stale calm ⟨_, means⟩ right)
    | ends stops => exact .descent (.bottom idle here stale calm (.ends stops))
  · have right : RightEnding sim roomOf F id (.failed f) :=
      .stuck fun r means => leans.stuck_left.2 ⟨r, means⟩
    cases turn with
    | bottom calm stops =>
      obtain ⟨inner, after⟩ := closing calm.moves sound_q right
      exact ⟨inner, after, .descent (.bottom idle here stale calm (stops leans))⟩
    | deeper calm further =>
      obtain ⟨inner, after⟩ :=
        closing (Descent.moves_inside midway.underway.tied here calm further) sound_q right
      exact ⟨inner, after, .descent (.deeper idle here stale calm leans further)⟩

theorem refresh_descends (nestable : Nestable sim roomOf F Along) {names : List String}
    (all : ∀ x, (F x).isSome → x ∈ names) (levels : Nat) :
    BringsDown sim roomOf F Along names.length levels := by
  induction levels with
  | zero =>
    intro room name p _ _ _ trail _ deep _
    have := (trail.subperm all).length_le
    rw [List.length_cons] at this
    omega
  | succ levels ih =>
    intro room name p sound midway notFresh trail along deep left
    have weight := nestable.fit _ trail along
    rw [Formulas.span, Formulas.weight] at weight
    obtain ⟨room, rfl⟩ : ∃ r, room = r + 2 := ⟨room - 2, by omega⟩
    obtain ⟨before, here⟩ := sound.exists_cell (trail.cells name List.mem_cons_self)
    have stale : before.isStale = true := by
      by_contra not
      refine notFresh fun d found => ?_
      cases here.symm.trans found
      exact Bool.eq_false_iff.2 not
    have fit : ∀ e, Formula.parse before.formula = .ok e → Fit e.height room (roomOf e) := by
      intro e parsed
      have height := Formulas.height_of_parse (sound.formula_eq here) parsed
      exact .inr ⟨by omega, nestable.roomy e (by omega)⟩
    obtain ⟨q, ending, ends, inner, after, evaluates⟩ := reevaluateWith_descends room ih sound
      midway here stale trail (fun _ _ _ _ _ => nestable.longer _ _ along)
      (by rw [List.length_cons]; omega) fit (by omega)
    have ended := conclude_ne_abandoned name before ending.apply q
    refine ⟨(conclude name before ending.apply q).2, ?_, after,
      inner.fresh_left here ending, evaluates⟩
    rw [refresh_run, ends]
    generalize conclude name before ending.apply q = out at ended
    obtain ⟨_ | _ | _, q'⟩ := out
    · rfl
    · rfl
    · exact (ended rfl).elim

/-- A reevaluation of a stale cell by itself evaluates it, and reports a change exactly if its
version has grown. -/
theorem reevaluateAlone_evaluates (nestable : Nestable sim roomOf F Along)
    (suits : F.Suits sim.room roomOf) {s : Sheet} (sound : Sound sim roomOf F s.idle)
    (midway : Midway F s) (here : s.get? id = some before) (stale : before.isStale = true)
    (along : ∀ q name, Calm sim roomOf F (s.idle.enter id before) q → F.Refers id name →
      ¬ q.sheet.Fresh name → Along [name, id]) :
    Evaluates sim roomOf F id s.idle (s.reevaluateAlone sim id).2.idle ∧
      Sound sim roomOf F (s.reevaluateAlone sim id).2.idle ∧
      (s.reevaluateAlone sim id).2.Fresh id ∧
      ((s.reevaluateAlone sim id).1 = true ↔
        (s.reevaluateAlone sim id).2.version id ≠ s.version id) := by
  have all : ∀ x, (F x).isSome → x ∈ s.names := by
    rw [← midway.formulas]
    exact fun _ => Sheet.isSome_formulas.1
  have formula := sound.formula_eq here
  have size : s.names.length = Roster.size s := List.length_map _
  obtain ⟨q, ending, ends, inner, after, evaluates⟩ := reevaluateWith_descends
    (p := s.idle) sim.room (refresh_descends nestable all (Roster.size s)) sound midway here stale
    (.single (by rw [formula]; rfl)) along (size.le.trans (Nat.le_add_right _ _))
    (fun e parsed => suits id _ e formula parsed) (Nat.le_add_right _ _)
  obtain ⟨left, reports⟩ := reevaluateAlone_eq here inner ends
  have version : (s.reevaluateAlone sim id).2.version id =
      if before.changed (ending.apply before) then s.version id + 1 else s.version id := by
    have := inner.version_leave here ending
    rwa [← left] at this
  have fresh : (s.reevaluateAlone sim id).2.Fresh id := by
    have := inner.fresh_left here ending
    rwa [← left] at this
  rw [← left] at after evaluates
  refine ⟨evaluates, after, fresh, ?_⟩
  rw [version, reports]
  split
  next differs => simp [differs]
  next same => simp [same]

end MonteCarloSheet
