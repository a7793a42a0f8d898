import MonteCarloSheet.Proofs.Sheet.Nest

/-! Nested evaluations end.

A reevaluation takes a level and two places of the room for each cell that it makes
active, and the heights of their trees. So its levels are not used up if there are as
many as inactive cells, and some room is enough for it: with more of either, the same
happens (`recordedWith_enough`). Left to themselves, nested evaluations therefore end,
and they stand inside one another as `Nest` says (`nested_evaluation_ends`). -/
namespace MonteCarloSheet

open Formula (Agree Carried Expr Stop)

/-! ### Trees no higher than a bound -/

theorem Cell.tree_begin (c : Cell) : c.begin.tree = c.tree := by
  cases parsed : c.tree with
  | error err =>
    rw [begin_of_error parsed]
    exact parsed
  | ok e =>
    rw [begin_of_ok parsed]
    rfl

namespace Sheet

/-- No tree of a cell is higher. -/
abbrev NoHigher (height : Nat) (s : Sheet) : Prop :=
  s.All fun _ c => ∀ e, c.tree = .ok e → e.height ≤ height

theorem NoHigher.step {height : Nat} {s t : Sheet} (step : Step s t) (h : s.NoHigher height) :
    t.NoHigher height := by
  cases step with
  | begin here =>
    refine All.relink (h.modify _ fun c hc e parsed => hc e ?_) _ _ fun _ _ _ _ hc => hc
    rwa [Cell.tree_begin] at parsed
  | finish _ id ending => exact h.modify id fun c hc => by cases ending <;> exact hc
  | announce p id =>
    have counted := h.modify id (f := fun c => { c with version := c.version + 1 }) fun _ hc => hc
    exact counted.modifyAll _ (f := Cell.markStale) fun _ _ _ hc => hc

/-- The trees of finitely many cells have a bound. -/
theorem exists_noHigher (s : Sheet) : ∃ height, s.NoHigher height := by
  suffices all : ∀ entries : List (String × Cell),
      ∃ height, ∀ entry ∈ entries, ∀ e, entry.2.tree = .ok e → e.height ≤ height by
    obtain ⟨height, bound⟩ := all s.entries
    exact ⟨height, fun id c here => bound (id, c) (Roster.mem_entries.2 here)⟩
  intro entries
  induction entries with
  | nil => exact ⟨0, fun _ mem => by cases mem⟩
  | cons entry rest ih =>
    obtain ⟨height, bound⟩ := ih
    have first : ∃ n, ∀ e, entry.2.tree = .ok e → e.height ≤ n := by
      cases entry.2.tree with
      | error err => exact ⟨0, fun e absurd => by cases absurd⟩
      | ok e => exact ⟨e.height, fun f same => by cases same; exact Nat.le_refl _⟩
    obtain ⟨n, bound'⟩ := first
    refine ⟨max n height, fun other mem e parsed => ?_⟩
    rcases List.mem_cons.1 mem with rfl | mem
    · exact (bound' e parsed).trans (Nat.le_max_left _ _)
    · exact (bound other mem e parsed).trans (Nat.le_max_right _ _)

end Sheet

/-! ### Enough levels and room -/

theorem Progress.inactive_of_runs {p q : Progress} (runs : Runs p q) : q.inactive = p.inactive := by
  rw [inactive, inactive, runs.active, names_steps runs.steps]

/-- A cell that becomes active is one inactive cell fewer. -/
theorem Progress.inactive_activate {p : Progress} {name : String} (idle : name ∈ p.inactive) :
    (p.activate name).inactive.length < p.inactive.length := by
  have fewer : (p.activate name).inactive = p.inactive.filter (· ≠ name) := by
    rw [inactive, inactive, List.filter_filter]
    exact List.filter_congr fun x _ => by simp [activate]
  rw [fewer]
  exact List.length_filter_lt_length_iff_exists.2 ⟨name, idle, by simp⟩

section
variable {sim : Simulation} {height cells levels₁ levels₂ room₁ room₂ : Nat} {name id : String}
  {r : Recorded}

/-- There are no more cells to be made active than levels, and the room holds them all. -/
structure Enough (height cells levels room : Nat) : Prop where
  levels : cells ≤ levels
  room : cells * (height + 2) ≤ room

/-- With enough levels and room it makes no difference how many there are when an inactive cell is
brought up to date. -/
def Indifferent (sim : Simulation) (height cells : Nat) : Prop :=
  ∀ levels₁ levels₂ room₁ room₂ name (r : Recorded), Enough height cells levels₁ room₁ →
    Enough height cells levels₂ room₂ → r.progress.sheet.NoHigher height →
    r.progress.inactive.length ≤ cells → name ∈ r.progress.inactive →
      recordedRefresh sim levels₁ room₁ name (r.onProgress (Progress.activate name)) =
        recordedRefresh sim levels₂ room₂ name (r.onProgress (Progress.activate name))

theorem recordedReference_enough (same : Indifferent sim height cells) (name : String)
    (enough₁ : Enough height cells levels₁ room₁) (enough₂ : Enough height cells levels₂ room₂)
    (low : r.progress.sheet.NoHigher height) (few : r.progress.inactive.length ≤ cells) :
    recordedReference sim.count (recordedRefresh sim levels₁) room₁ name r =
      recordedReference sim.count (recordedRefresh sim levels₂) room₂ name r := by
  rw [recordedReference, recordedReference]
  by_cases active : name ∈ r.progress.active
  · rw [if_pos active, if_pos active]
  rw [if_neg active, if_neg active]
  cases here : r.progress.sheet.get? name with
  | none => rfl
  | some c =>
    have idle : name ∈ r.progress.inactive :=
      Progress.mem_inactive.2 ⟨Roster.mem_names.2 ⟨c, here⟩, active⟩
    dsimp only
    rw [recordedAnswer, recordedAnswer,
      same levels₁ levels₂ room₁ room₂ name r enough₁ enough₂ low few idle]

theorem recordedReference_runs (sim : Simulation) (levels room : Nat) (name : String)
    (r : Recorded) :
    Runs r.progress (recordedReference sim.count (recordedRefresh sim levels) room name r).2.progress := by
  have mirrored := recordedReference_mirrors (recordedRefresh_mirrors sim levels) sim.count room name r
  have runs := reference_runs (refresh_runs sim levels) sim.count room name r.progress
  rwa [← mirrored] at runs

/-- With enough levels, and room for the tree of the cell besides, it makes no difference how much
there is of either. -/
theorem recordedWith_enough (same : Indifferent sim height cells) (id : String)
    (levels₁_enough : cells ≤ levels₁) (levels₂_enough : cells ≤ levels₂)
    (room₁_enough : cells * (height + 2) + height ≤ room₁)
    (room₂_enough : cells * (height + 2) + height ≤ room₂)
    (low : r.progress.sheet.NoHigher height) (few : r.progress.inactive.length ≤ cells) :
    recordedWith sim (recordedRefresh sim levels₁) room₁ id r =
      recordedWith sim (recordedRefresh sim levels₂) room₂ id r := by
  rw [recordedWith, recordedWith]
  cases here : r.progress.sheet.get? id with
  | none => rfl
  | some before =>
    dsimp only
    cases parsed : before.tree with
    | error err => rfl
    | ok e =>
      dsimp only
      have fits : e.height ≤ height := low id before here e parsed
      have begun : Runs r.progress (r.progress.onSheet (Sheet.begun · id before)) :=
        ⟨rfl, .single (.begin here)⟩
      generalize entry : (r.onProgress _).note _ = entered
      have entered_runs : Runs r.progress entered.progress := by
        rw [← entry]
        exact begun
      have refs : Formula.Answered (fun s t => s = t ∧ Runs r.progress s.progress) Eq
          (recordedReference sim.count (recordedRefresh sim levels₁))
          (recordedReference sim.count (recordedRefresh sim levels₂)) e.height room₁ room₂
          e.references := by
        rintro name - r₁ r₂ left shift s _ ⟨rfl, runs⟩
        have less : s.progress.inactive.length ≤ cells := by
          rw [Progress.inactive_of_runs runs]
          exact few
        have enough₁ : Enough height cells levels₁ r₁ := ⟨levels₁_enough, by omega⟩
        have enough₂ : Enough height cells levels₂ r₂ := ⟨levels₂_enough, by omega⟩
        rw [recordedReference_enough same name enough₁ enough₂
          (runs.steps.keep (fun _ _ => Sheet.NoHigher.step) low) less]
        refine ⟨Agree.refl (fun _ => rfl) _, rfl, runs.trans ?_⟩
        exact recordedReference_runs sim levels₂ r₂ name s
      have both : Formula.Lockstep (fun (s t : Recorded) => s = t ∧ Runs r.progress s.progress) Eq
          (Formula.evaluate _ sim.count room₁ e) (Formula.evaluate _ sim.count room₂ e) :=
        Formula.evaluate_lockstep (fun _ => rfl) e (.inr ⟨by omega, by omega⟩) refs
      obtain ⟨agree, left, -⟩ := both (sim.source.generatorFor [id, before.formula.getD ""])
        entered entered ⟨rfl, entered_runs⟩
      rw [Prod.ext agree.eq left]

theorem recordedRefresh_enough (sim : Simulation) (height cells : Nat) :
    Indifferent sim height cells := by
  induction cells with
  | zero =>
    intro levels₁ levels₂ room₁ room₂ name r _ _ _ few idle
    exact absurd (List.length_pos_of_mem idle) (by omega)
  | succ cells ih =>
    intro levels₁ levels₂ room₁ room₂ name r enough₁ enough₂ low few idle
    obtain ⟨more₁, wide₁⟩ := enough₁
    obtain ⟨more₂, wide₂⟩ := enough₂
    rw [Nat.succ_mul] at wide₁ wide₂
    obtain ⟨levels₁, rfl⟩ : ∃ n, levels₁ = n + 1 := ⟨levels₁ - 1, by omega⟩
    obtain ⟨levels₂, rfl⟩ : ∃ n, levels₂ = n + 1 := ⟨levels₂ - 1, by omega⟩
    obtain ⟨room₁, rfl⟩ : ∃ n, room₁ = n + 2 := ⟨room₁ - 2, by omega⟩
    obtain ⟨room₂, rfl⟩ : ∃ n, room₂ = n + 2 := ⟨room₂ - 2, by omega⟩
    have fewer := Progress.inactive_activate idle
    have roomy₁ : cells * (height + 2) + height ≤ room₁ := by omega
    have roomy₂ : cells * (height + 2) + height ≤ room₂ := by omega
    have less : (r.progress.activate name).inactive.length ≤ cells := by omega
    have inner : recordedWith sim (recordedRefresh sim levels₁) room₁ name
        (r.onProgress (Progress.activate name)) =
          recordedWith sim (recordedRefresh sim levels₂) room₂ name
            (r.onProgress (Progress.activate name)) :=
      recordedWith_enough ih name (Nat.le_of_succ_le_succ more₁) (Nat.le_of_succ_le_succ more₂)
        roomy₁ roomy₂ low less
    rw [recordedRefresh, recordedRefresh]
    dsimp only
    rw [inner]

end

/-! ### Nothing is refused -/

/-- The event tells that the end of the room or of the levels was met. -/
def Event.Refused : Event → Prop
  | answered _ answer => answer = .error (.problem .tooDeep)
  | ended _ ending => ending = .failed (.own .tooDeep)
  | entered _ => False
  | resized => False
  | began _ => False

/-- The end of the room and of the levels has not been met so far. -/
def Recorded.Unrefused (r : Recorded) : Prop :=
  ∀ event ∈ r.events, ¬ event.Refused

section
variable {sim : Simulation} {height cells levels room : Nat} {name id : String} {r : Recorded}

theorem Recorded.Unrefused.note {r : Recorded} (h : r.Unrefused) {event : Event}
    (now : ¬ event.Refused) : (r.note event).Unrefused := by
  intro e mem
  rcases List.mem_cons.1 mem with rfl | mem
  · exact now
  · exact h e mem

/-- A result or another stop than the one at the end of the room. -/
def Granted (answer : Except Stop α) : Prop :=
  answer ≠ .error (.problem .tooDeep)

theorem granted_read (count : Nat) (name : String) (s : Sheet) : Granted (readOf count name s) := by
  intro refused
  rw [readOf] at refused
  split at refused
  · cases refused
  next c _ =>
    split at refused
    next f read =>
      cases refused
      rw [Cell.read] at read
      split at read
      · cases read
      · split at read
        · split at read <;> cases read
        · cases read
    · cases refused

/-- With enough levels and room, bringing an inactive cell up to date is not refused. -/
def BringsGranted (sim : Simulation) (height cells : Nat) : Prop :=
  ∀ levels room name (r : Recorded), Enough height cells levels room →
    r.progress.sheet.NoHigher height → r.progress.inactive.length ≤ cells →
    name ∈ r.progress.inactive → r.Unrefused →
      Granted (recordedRefresh sim levels room name (r.onProgress (Progress.activate name))).1 ∧
        (recordedRefresh sim levels room name (r.onProgress (Progress.activate name))).2.Unrefused

theorem recordedReference_granted (brings : BringsGranted sim height cells) (name : String)
    (enough : Enough height cells levels room) (low : r.progress.sheet.NoHigher height)
    (few : r.progress.inactive.length ≤ cells) (h : r.Unrefused) :
    Granted (recordedReference sim.count (recordedRefresh sim levels) room name r).1 ∧
      (recordedReference sim.count (recordedRefresh sim levels) room name r).2.Unrefused := by
  have noted : ∀ {r : Recorded} {answer : Except Stop (Option Value)}, Granted answer →
      r.Unrefused → Granted answer ∧ (r.note (.answered name answer)).Unrefused :=
    fun granted h => ⟨granted, h.note granted⟩
  rw [recordedReference]
  by_cases active : name ∈ r.progress.active
  · rw [if_pos active]
    exact noted (fun absurd => by cases absurd) h
  rw [if_neg active]
  cases here : r.progress.sheet.get? name with
  | none => exact noted (fun absurd => by cases absurd) h
  | some c =>
    dsimp only
    rw [recordedAnswer]
    by_cases stale : c.isStale = true
    · have idle : name ∈ r.progress.inactive :=
        Progress.mem_inactive.2 ⟨Roster.mem_names.2 ⟨c, here⟩, active⟩
      rw [if_pos stale]
      obtain ⟨granted, after⟩ := brings levels room name r enough low few idle h
      generalize recordedRefresh sim levels room name _ = out at granted after
      obtain ⟨x | u, r'⟩ := out
      · exact noted (fun same => granted (by cases same; rfl)) after
      · exact noted (granted_read _ _ _) after
    · rw [if_neg stale]
      exact noted (granted_read _ _ _) h

theorem recordedWith_granted (brings : BringsGranted sim height cells) (id : String)
    (more : cells ≤ levels) (wide : cells * (height + 2) + height ≤ room)
    (low : r.progress.sheet.NoHigher height) (few : r.progress.inactive.length ≤ cells)
    (h : r.Unrefused) : (recordedWith sim (recordedRefresh sim levels) room id r).2.Unrefused := by
  rw [recordedWith]
  cases here : r.progress.sheet.get? id with
  | none => exact h
  | some before =>
    dsimp only
    have begun : Runs r.progress (r.progress.onSheet (Sheet.begun · id before)) :=
      ⟨rfl, .single (.begin here)⟩
    have start : ((r.onProgress (Progress.onSheet (Sheet.begun · id before))).note
        (.began id)).Unrefused := Recorded.Unrefused.note h fun refused => refused
    generalize entry : (r.onProgress _).note _ = entered at start
    have entered_runs : Runs r.progress entered.progress := by
      rw [← entry]
      exact begun
    have concluded : ∀ {s : Recorded} (ending : Ending), ending ≠ .failed (.own .tooDeep) →
        s.Unrefused → (s.conclude id before ending).2.Unrefused :=
      fun ending other h => Recorded.Unrefused.note h other
    cases parsed : before.tree with
    | error err => exact concluded _ (fun absurd => by cases absurd) start
    | ok e =>
      dsimp only
      have fits : e.height ≤ height := low id before here e parsed
      have refs : Formula.Refers (fun s => Runs r.progress s.progress ∧ s.Unrefused)
          (fun x s => x ≠ .problem .tooDeep ∧ s.Unrefused)
          (recordedReference sim.count (recordedRefresh sim levels)) e.height room
          e.references := by
        rintro name - left enough s ⟨runs, h⟩
        have less : s.progress.inactive.length ≤ cells := by
          rw [Progress.inactive_of_runs runs]
          exact few
        have wide' : Enough height cells levels left := ⟨more, by omega⟩
        obtain ⟨granted, after⟩ := recordedReference_granted brings name wide'
          (runs.steps.keep (fun _ _ => Sheet.NoHigher.step) low) less h
        have further := recordedReference_runs sim levels left name s
        generalize recordedReference sim.count _ left name s = out at granted after further
        obtain ⟨x | v, s'⟩ := out
        · exact ⟨fun same => granted (by rw [same]), after⟩
        · exact ⟨runs.trans further, after⟩
      have ends := Formula.evaluate_carries
        (fun _ _ stop h => ⟨stop.ne_tooDeep, h.2⟩)
        sim.count room e (.inl (by omega)) refs
        (sim.source.generatorFor [id, before.formula.getD ""]) entered ⟨entered_runs, start⟩
      generalize Formula.evaluate _ _ _ _ _ entered = out at ends
      obtain ⟨(f | _) | ⟨_ | v, g⟩, s⟩ := out
      · exact concluded _ (fun same => ends.1 (by cases same; rfl)) ends.2
      · exact ends.2
      · exact Recorded.Unrefused.note ends.2 fun absurd => by cases absurd
      · exact concluded _ (fun absurd => by cases absurd) ends.2

theorem recordedRefresh_granted (sim : Simulation) (height cells : Nat) :
    BringsGranted sim height cells := by
  induction cells with
  | zero =>
    intro levels room name r _ _ few idle
    exact absurd (List.length_pos_of_mem idle) (by omega)
  | succ cells ih =>
    intro levels room name r enough low few idle h
    obtain ⟨more, wide⟩ := enough
    rw [Nat.succ_mul] at wide
    obtain ⟨levels, rfl⟩ : ∃ n, levels = n + 1 := ⟨levels - 1, by omega⟩
    obtain ⟨room, rfl⟩ : ∃ n, room = n + 2 := ⟨room - 2, by omega⟩
    have fewer := Progress.inactive_activate idle
    have roomy : cells * (height + 2) + height ≤ room := by omega
    have less : (r.progress.activate name).inactive.length ≤ cells := by omega
    have after := recordedWith_granted (r := r.onProgress (Progress.activate name)) ih name
      (Nat.le_of_succ_le_succ more) roomy low less h
    rw [recordedRefresh]
    dsimp only
    generalize recordedWith sim _ room name _ = out at after
    obtain ⟨_ | _ | _, r'⟩ := out <;> exact ⟨fun absurd => (by cases absurd), after⟩

end

/-! ### Nested evaluations -/

/-- A reevaluation with its record and so many levels. -/
def Progress.nested (sim : Simulation) (levels : Nat) (id : String) (p : Progress) :
    Outcome × Recorded :=
  recordedWith sim (recordedRefresh sim levels) sim.room id ⟨p, []⟩

section
variable {sim : Simulation} {id : String} {p : Progress}

theorem reevaluate_eq_nested (sim : Simulation) (id : String) (p : Progress) :
    reevaluate sim id p =
      ((p.nested sim p.sheet.size id).1, (p.nested sim p.sheet.size id).2.progress) :=
  (recordedWith_mirrors (recordedRefresh_mirrors sim p.sheet.size) sim sim.room id ⟨p, []⟩).symm

theorem orderly_nested (sim : Simulation) (levels : Nat) (id : String) (p : Progress) :
    Orderly p id (p.nested sim levels id).2.events := by
  have start : Standing p id ([] ++ p.active) [] ⟨p, []⟩ := ⟨rfl, rfl, rfl, .nil p id⟩
  have alone : Nest p id [id] := @Nest.cells p id [] List.nodup_nil fun _ mem => by cases mem
  have carried := recordedWith_nest (recordedRefresh_nest sim levels) sim sim.room rfl alone start
  rw [Progress.nested]
  generalize recordedWith sim _ sim.room id _ = out at carried
  obtain ⟨_ | _ | _, r⟩ := out
  · exact carried.orderly
  · exact carried.orderly
  · exact carried

/-- The room of the settings is only that of the outermost evaluation. -/
theorem recordedRefresh_room (sim : Simulation) (room levels : Nat) :
    recordedRefresh { sim with room } levels = recordedRefresh sim levels := by
  induction levels with
  | zero => rfl
  | succ levels ih =>
    funext left name r
    match left with
    | 0 => rfl
    | 1 => rfl
    | left + 2 =>
      rw [recordedRefresh, recordedRefresh, ih]
      rfl

/-- No cell begins that is active or running, and no more cells run inside one another than are not
active at the start, and one. All this ends by itself: from some room on the same happens however
much room and however many levels there are, and their ends are not met. -/
theorem nested_evaluation_ends (sim : Simulation) (own : id ∈ p.active) :
    reevaluate sim id p =
      ((p.nested sim p.sheet.size id).1, (p.nested sim p.sheet.size id).2.progress) ∧
    (∀ levels x past, .began x :: past <:+ (p.nested sim levels id).2.events →
      x ∉ Event.running past ∧ (Event.running past ≠ [] → x ∉ p.active)) ∧
    (∀ levels past, past <:+ (p.nested sim levels id).2.events →
      (Event.running past).length ≤ p.inactive.length + 1) ∧
    ∃ enough, ∀ room levels, enough ≤ room → p.inactive.length ≤ levels →
      p.nested { sim with room } levels id =
        p.nested { sim with room := enough } p.inactive.length id ∧
      ∀ event ∈ (p.nested { sim with room } levels id).2.events, ¬ event.Refused := by
  refine ⟨reevaluate_eq_nested sim id p, fun levels x past began => ?_,
    fun levels past earlier => ?_, ?_⟩
  · obtain ⟨fresh, inactive⟩ := (orderly_nested sim levels id p _ began).fresh own
    exact ⟨fresh, fun inside => (Progress.mem_inactive.1 (inactive inside)).2⟩
  · exact (orderly_nested sim levels id p past earlier).length_le
  · obtain ⟨height, low⟩ := p.sheet.exists_noHigher
    refine ⟨p.inactive.length * (height + 2) + height, fun room levels roomy more => ?_⟩
    have same : recordedWith sim (recordedRefresh sim levels) room id ⟨p, []⟩ = _ :=
      recordedWith_enough (recordedRefresh_enough sim height _) id more
        (Nat.le_refl p.inactive.length) roomy (Nat.le_refl _) low (Nat.le_refl _)
    have granted : (recordedWith sim (recordedRefresh sim levels) room id ⟨p, []⟩).2.Unrefused :=
      recordedWith_granted (recordedRefresh_granted sim height _) id more roomy low (Nat.le_refl _)
        fun _ mem => by cases mem
    rw [Progress.nested, Progress.nested, recordedRefresh_room sim room,
      recordedRefresh_room sim (p.inactive.length * (height + 2) + height)]
    exact ⟨same, granted⟩

/-- Two cells that read each other: the second one begins inside the first, and reads it in a
circle. -/
theorem nested_evaluation_of_two_cells :
    let s := Sheet.define (Sheet.define Roster.empty "A" (some "B") none) "B" (some "A") none
    let sim : Simulation := ⟨5000, ⟨.permuted, some 1, none⟩, 980⟩
    let p : Progress := ⟨s, ["A"]⟩
    "A" ∈ p.active ∧ p.inactive = ["B"] ∧
      ∀ past, past <:+ (p.nested sim 1 "A").2.events → (Event.running past).length ≤ 2 := by
  intro s sim p
  have own : "A" ∈ p.active := List.mem_cons_self
  have others : p.inactive = ["B"] := by decide +kernel
  obtain ⟨-, -, depth, -⟩ := nested_evaluation_ends sim own
  rw [others] at depth
  exact ⟨own, others, depth 1⟩

end

end MonteCarloSheet
