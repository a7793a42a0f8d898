import MonteCarloSheet.Proofs.Workbook.Drained

/-! Sessions of sheets and observers.

In a session, sheets are opened and closed on shared settings, cells are worked on with
their sheet or by themselves, the sample count is set, and observers from outside begin
and cease to listen. The session
keeps what has happened: which listener was called, how the sample count changed, what
became of the cells of closed sheets, and which cells were evaluated. Observers apart, a
session is a workbook (`workbook`), and what is done in it is done to the workbook
(`perform`). Whatever is done, it takes steps of a few kinds (`run_steps`). -/
namespace MonteCarloSheet

/-- Who hears of a new sample count: a sheet, or an observer, who only notes the call. -/
inductive Listener where
  | sheet (i : Nat)
  | observer (name : String)
deriving DecidableEq

def Listener.sheet? : Listener → Option Nat
  | sheet i => some i
  | observer _ => none

/-- A call of a listener with the sample count before and after. -/
structure Call where
  listener : Listener
  old : Nat
  new : Nat
deriving DecidableEq

/-- Settings with everyone who listens to them and the sheets that share them, and what has happened
so far, the latest last: the calls of listeners, the changes of the sample count, the cells of
closed sheets as they were left, and the evaluations of cells. -/
structure Session where
  settings : Settings Listener
  sheets : List Sheet := []
  calls : List Call := []
  changes : List (Nat × Nat) := []
  closed : List (Nat × Sheet) := []
  evaluated : List (Nat × String) := []

namespace Session

/-- A session before anything has been opened. -/
def start (settings : Settings Listener) : Session :=
  { settings := { settings with listeners := [] } }

/-- The sheets with the settings that they listen to. -/
def workbook (x : Session) : Workbook :=
  ⟨{ x.settings with listeners := x.settings.listeners.filterMap Listener.sheet? }, x.sheets⟩

def sheet (x : Session) (i : Nat) : Sheet :=
  x.workbook.sheet i

/-- The sheet has been opened and not been closed since. -/
def Open (x : Session) (i : Nat) : Prop :=
  i < x.sheets.length ∧ ∀ entry ∈ x.closed, entry.1 ≠ i

instance (x : Session) (i : Nat) : Decidable (x.Open i) :=
  inferInstanceAs (Decidable (_ ∧ _))

/-! ### The sample count -/

/-- Calls a listener: a sheet drops its samples. -/
def call (old new : Nat) (x : Session) (listener : Listener) : Session :=
  let told := { x with calls := x.calls ++ [⟨listener, old, new⟩] }
  match listener with
  | .sheet i => { told with sheets := x.sheets.modify i Workbook.invalidate }
  | .observer _ => told

/-- Sets a new sample count and calls the listeners one after another. -/
def update (x : Session) (given : Given) : Except SettingError Session :=
  match x.settings.update given with
  | .error e => .error e
  | .ok (none, settings) => .ok { x with settings }
  | .ok (some a, settings) =>
    .ok (a.listeners.foldl (call a.old a.new)
      { x with settings, changes := x.changes ++ [(a.old, a.new)] })

/-! ### Sheets -/

def openSheet (x : Session) : Session :=
  { x with
    settings := x.settings.addListener (.sheet x.sheets.length)
    sheets := x.workbook.openSheet.sheets }

/-- Closes a sheet, if there is one with the number. -/
def closeSheet (x : Session) (i : Nat) : Session :=
  if i < x.sheets.length then
    let (cells, w) := x.workbook.close i
    { x with
      settings := x.settings.removeListener (.sheet i)
      sheets := w.sheets
      closed := x.closed ++ [(i, cells)] }
  else x

/-- The cells of a sheet that are evaluated in the events. -/
def evaluations (i : Nat) (events : List Event) : List (Nat × String) :=
  (events.reverse.filterMap Event.evaluated?).map (i, ·)

def recalculate (x : Session) (i : Nat) : Session :=
  { x with
    sheets := (x.workbook.recalculate i).2.sheets
    evaluated := x.evaluated ++ evaluations i ((x.sheet i).record x.settings.simulation []) }

def sync (x : Session) (i : Nat) (formulas : Roster (Option String)) (names : Roster String) :
    Session :=
  { x with
    sheets := (x.workbook.sync i formulas names).2.sheets
    evaluated := x.evaluated ++
      evaluations i (((x.sheet i).rewritten formulas names).record x.settings.simulation []) }

/-- Reevaluates a cell by itself, with what it reads. -/
def reevaluate (x : Session) (i : Nat) (id : String) : Session :=
  { x with
    sheets := (x.workbook.withSheet i
      ((x.sheet i).reevaluateAlone x.settings.simulation id).2).sheets
    evaluated := x.evaluated ++
      evaluations i ((x.sheet i).recordAlone x.settings.simulation id []) }

end Session

/-! ### Operations -/

/-- What can be done to a cell by itself, short of evaluating it. -/
inductive Adjustment where
  | edit (formula name : Option String)
  | mark
  | beginCycle
  | dropSamples

def Adjustment.apply : Adjustment → Cell → Cell
  | edit formula name, c => c.edit formula name
  | mark, c => c.markStale
  | beginCycle, c => c.beginCycle
  | dropSamples, c => c.invalidateSamples

theorem Adjustment.adjusts (adjustment : Adjustment) : Cell.Adjusts adjustment.apply := by
  cases adjustment with
  | edit formula name => exact Cell.adjusts_edit formula name
  | mark => exact Cell.adjusts_markStale
  | beginCycle => exact Cell.adjusts_beginCycle
  | dropSamples => exact Cell.adjusts_invalidateSamples

/-- What can be done in a session. A refused setting and a request for what there is not do
nothing. -/
inductive Operation where
  | openSheet
  | closeSheet (i : Nat)
  | listen (observer : String)
  | ignore (observer : String)
  | setCount (given : Given)
  | setCountBy (i : Nat) (given : Given)
  | define (i : Nat) (id : String) (formula name : Option String)
  | remove (i : Nat) (id : String)
  | recalculate (i : Nat)
  | sync (i : Nat) (formulas : Roster (Option String)) (names : Roster String)
  | clear (i : Nat)
  | histogram (i : Nat) (id : String)
  | adjust (i : Nat) (id : String) (adjustment : Adjustment)
  | prepare (i : Nat) (id : String)
  | reevaluate (i : Nat) (id : String)

namespace Session

/-- The session after an operation. To set the sample count through a sheet is to set it and to
recalculate that sheet. -/
def apply (x : Session) : Operation → Session
  | .openSheet => x.openSheet
  | .closeSheet i => x.closeSheet i
  | .listen observer => { x with settings := x.settings.addListener (.observer observer) }
  | .ignore observer => { x with settings := x.settings.removeListener (.observer observer) }
  | .setCount given =>
    match x.update given with
    | .error _ => x
    | .ok y => y
  | .setCountBy i given =>
    match x.update given with
    | .error _ => x
    | .ok y => y.recalculate i
  | .define i id formula name =>
    { x with sheets := (x.workbook.define i id formula name).sheets }
  | .remove i id =>
    match x.workbook.remove i id with
    | none => x
    | some (_, w) => { x with sheets := w.sheets }
  | .recalculate i => x.recalculate i
  | .sync i formulas names => x.sync i formulas names
  | .clear i => { x with sheets := (x.workbook.clear i).2.sheets }
  | .histogram i id =>
    match x.workbook.histogram i id with
    | .error _ => x
    | .ok (_, w) =>
      { x with settings := { x.settings with binCount := w.settings.binCount }, sheets := w.sheets }
  | .adjust i id adjustment =>
    { x with sheets := (x.workbook.modifySheet i fun s => s.modify id adjustment.apply).sheets }
  | .prepare i id => { x with sheets := (x.workbook.modifySheet i fun s => s.prepare id).sheets }
  | .reevaluate i id => x.reevaluate i id

def run (x : Session) (operations : List Operation) : Session :=
  operations.foldl apply x

end Session

/-- What an operation does to a workbook, which knows no observers. -/
def Workbook.perform (w : Workbook) : Operation → Workbook
  | .openSheet => w.openSheet
  | .closeSheet i => (w.close i).2
  | .listen _ => w
  | .ignore _ => w
  | .setCount given =>
    match w.changeSampleCount given with
    | .error _ => w
    | .ok (_, w) => w
  | .setCountBy i given =>
    match w.setSampleCount i given with
    | .error _ => w
    | .ok (_, w) => w
  | .define i id formula name => w.define i id formula name
  | .remove i id => ((w.remove i id).map Prod.snd).getD w
  | .recalculate i => (w.recalculate i).2
  | .sync i formulas names => (w.sync i formulas names).2
  | .clear i => (w.clear i).2
  | .histogram i id =>
    match w.histogram i id with
    | .error _ => w
    | .ok (_, w) => w
  | .adjust i id adjustment => w.modifySheet i fun s => s.modify id adjustment.apply
  | .prepare i id => w.modifySheet i fun s => s.prepare id
  | .reevaluate i id =>
    w.withSheet i ((w.sheet i).reevaluateAlone w.settings.simulation id).2

namespace Session

/-! ### Listening sheets -/

theorem sheets_erase_sheet (listeners : List Listener) (i : Nat) :
    (listeners.erase (.sheet i)).filterMap Listener.sheet? =
      (listeners.filterMap Listener.sheet?).erase i := by
  induction listeners with
  | nil => rfl
  | cons l rest ih =>
    rw [List.erase_cons]
    cases l with
    | observer name => exact ih
    | sheet j =>
      change _ = (j :: rest.filterMap Listener.sheet?).erase i
      rw [List.erase_cons]
      by_cases same : j = i
      · simp [same]
      · have other : (Listener.sheet j == .sheet i) = false := by simp [same]
        rw [other, beq_false_of_ne same]
        exact congrArg (List.cons j) ih

theorem sheets_erase_observer (listeners : List Listener) (name : String) :
    (listeners.erase (.observer name)).filterMap Listener.sheet? =
      listeners.filterMap Listener.sheet? := by
  induction listeners with
  | nil => rfl
  | cons l rest ih =>
    rw [List.erase_cons]
    cases l with
    | sheet j => exact congrArg (List.cons j) ih
    | observer other =>
      split
      · rfl
      · exact ih

/-! ### What is done to the workbook -/

theorem workbook_openSheet (x : Session) : x.openSheet.workbook = x.workbook.openSheet := by
  rw [openSheet, workbook, Workbook.openSheet, Settings.addListener]
  dsimp only
  rw [List.filterMap_append]
  rfl

theorem workbook_closeSheet {x : Session} {i : Nat} (known : i < x.sheets.length) :
    (x.closeSheet i).workbook = (x.workbook.close i).2 := by
  rw [closeSheet, if_pos known, workbook, Settings.removeListener]
  dsimp only
  rw [sheets_erase_sheet]
  rfl

/-- Calling listeners notes the calls and tells the sheets among them. -/
theorem calls_eq (old new : Nat) (listeners : List Listener) (x : Session) :
    listeners.foldl (call old new) x =
      { x with
        sheets := (x.workbook.announce (listeners.filterMap Listener.sheet?)).sheets
        calls := x.calls ++ listeners.map (⟨·, old, new⟩) } := by
  induction listeners generalizing x with
  | nil =>
    change x = { x with sheets := x.sheets, calls := x.calls ++ [] }
    rw [List.append_nil]
  | cons l rest ih =>
    rw [List.foldl_cons, ih]
    cases l with
    | sheet i =>
      simp only [call, List.append_assoc]
      rfl
    | observer name =>
      simp only [call, List.append_assoc]
      rfl

end Session

theorem Settings.update_eq (s : Settings ι) (given : Given) :
    s.update given =
      match given.sampleCount with
      | .error e => .error e
      | .ok count =>
        if count = s.sampleCount then .ok (none, s)
        else .ok (some ⟨s.listeners, s.sampleCount, count⟩,
          { s with sampleCount := count, binCount := none }) := by
  rw [update]
  cases given.sampleCount with
  | error e => rfl
  | ok count => rfl

namespace Session

/-- The session after a change of the sample count. -/
def changed (x : Session) (count : Nat) : Session :=
  let settings := { x.settings with sampleCount := count, binCount := none }
  { x with
    settings
    sheets := (workbook { x with settings }).announce x.workbook.settings.listeners |>.sheets
    calls := x.calls ++ x.settings.listeners.map (⟨·, x.settings.sampleCount, count⟩)
    changes := x.changes ++ [(x.settings.sampleCount, count)] }

theorem update_eq (x : Session) (given : Given) :
    x.update given =
      match given.sampleCount with
      | .error e => .error e
      | .ok count => .ok (if count = x.settings.sampleCount then x else x.changed count) := by
  rw [update, Settings.update_eq]
  cases given.sampleCount with
  | error e => rfl
  | ok count =>
    dsimp only
    by_cases same : count = x.settings.sampleCount
    · rw [if_pos same, if_pos same]
    · rw [if_neg same, if_neg same]
      dsimp only
      rw [calls_eq]
      rfl

theorem update_ok {x y : Session} {given : Given} (accepted : x.update given = .ok y) :
    y = x ∨ ∃ count, given.sampleCount = .ok count ∧ count ≠ x.settings.sampleCount ∧
      y = x.changed count := by
  rw [update_eq] at accepted
  cases counted : given.sampleCount with
  | error e => rw [counted] at accepted; cases accepted
  | ok count =>
    rw [counted] at accepted
    dsimp only at accepted
    split at accepted <;> cases accepted
    · exact .inl rfl
    next differs => exact .inr ⟨count, rfl, differs, rfl⟩

theorem mem_evaluations {i : Nat} {events : List Event} {id : String} :
    (i, id) ∈ evaluations i events ↔ Sheet.DrainedBut.Evaluated events id := by
  rw [evaluations, Sheet.DrainedBut.Evaluated, List.filterMap_reverse, List.mem_map]
  simp only [List.mem_reverse, Prod.mk.injEq, true_and, exists_eq_right]

/-! ### Steps -/

/-- One sheet is worked on, and some of its cells are evaluated. A workable sheet stays so, and its
drained cells stay drained unless they are evaluated. -/
structure Worked (x y : Session) (i : Nat) (f : Sheet → Sheet) (events : List Event) : Prop where
  settings : y.settings = { x.settings with binCount := y.settings.binCount }
  sheets : y.sheets = (x.workbook.modifySheet i f).sheets
  calls : y.calls = x.calls
  changes : y.changes = x.changes
  closed : y.closed = x.closed
  evaluated : y.evaluated = x.evaluated ++ evaluations i events
  workable : (x.sheet i).Workable x.settings.sampleCount →
    (f (x.sheet i)).Workable x.settings.sampleCount
  drained : (x.sheet i).Workable x.settings.sampleCount → ∀ P, (x.sheet i).DrainedBut P →
    (f (x.sheet i)).DrainedBut fun id => P id ∨ Sheet.DrainedBut.Evaluated events id

/-- One thing that happens in a session. -/
inductive Step : Session → Session → Prop where
  | openSheet (x : Session) : Step x x.openSheet
  | closeSheet {x : Session} {i : Nat} (known : i < x.sheets.length) : Step x (x.closeSheet i)
  | attend {x : Session} {listeners : List Listener}
      (sheets : listeners.filterMap Listener.sheet? = x.workbook.settings.listeners) :
      Step x { x with settings := { x.settings with listeners } }
  | change {x : Session} {count : Nat} (pos : 0 < count)
      (differs : count ≠ x.settings.sampleCount) : Step x (x.changed count)
  | work {x y : Session} {i : Nat} {f : Sheet → Sheet} {events : List Event}
      (worked : Worked x y i f events) : Step x y

/-- Work on a sheet that evaluates nothing. -/
theorem worked_idle (x : Session) (i : Nat) (binCount : Option Nat) (f : Sheet → Sheet)
    (workable : (x.sheet i).Workable x.settings.sampleCount →
      (f (x.sheet i)).Workable x.settings.sampleCount)
    (drained : ∀ P, (x.sheet i).DrainedBut P → (f (x.sheet i)).DrainedBut P) :
    Worked x { x with
      settings := { x.settings with binCount }
      sheets := (x.workbook.modifySheet i f).sheets } i f [] where
  settings := rfl
  sheets := rfl
  calls := rfl
  changes := rfl
  closed := rfl
  evaluated := (List.append_nil _).symm
  workable := workable
  drained _ P h := (drained P h).imp fun _ => .inl

/-- A recalculation of a sheet whose cells may have been rewritten before. -/
theorem worked_recalculate (x : Session) (i : Nat) (s : Sheet)
    (workable : (x.sheet i).Workable x.settings.sampleCount → s.Workable x.settings.sampleCount)
    (drained : ∀ P, (x.sheet i).DrainedBut P → s.DrainedBut P) :
    Worked x { x with
      sheets := (x.workbook.withSheet i (s.recalculate x.settings.simulation).2).sheets
      evaluated := x.evaluated ++ evaluations i (s.record x.settings.simulation []) } i
      (fun _ => (s.recalculate x.settings.simulation).2) (s.record x.settings.simulation []) where
  settings := rfl
  sheets := rfl
  calls := rfl
  changes := rfl
  closed := rfl
  evaluated := rfl
  workable h := (workable h).recalculate x.settings.simulation
  drained h P hs := (drained P hs).recalculate x.settings.simulation (workable h)

theorem recalculate_steps (x : Session) (i : Nat) : Step x (x.recalculate i) :=
  .work (x.worked_recalculate i (x.sheet i) (fun h => h) fun _ h => h)

theorem worked_reevaluate (x : Session) (i : Nat) (id : String) :
    Worked x (x.reevaluate i id) i
      (fun _ => ((x.sheet i).reevaluateAlone x.settings.simulation id).2)
      ((x.sheet i).recordAlone x.settings.simulation id []) where
  settings := rfl
  sheets := rfl
  calls := rfl
  changes := rfl
  closed := rfl
  evaluated := rfl
  workable h := h.reevaluate x.settings.simulation id
  drained h _ hs := hs.reevaluate x.settings.simulation h id

/-- A change of one cell that does not evaluate it. -/
theorem worked_adjust (x : Session) (i : Nat) (binCount : Option Nat) (id : String)
    {f : Cell → Cell} (adjusts : Cell.Adjusts f) :
    Worked x { x with
      settings := { x.settings with binCount }
      sheets := (x.workbook.modifySheet i fun s => s.modify id f).sheets } i
      (fun s => s.modify id f) [] :=
  x.worked_idle i binCount _ (fun h => h.modify id adjusts) fun _ h => h.adjust id adjusts

theorem update_steps {x y : Session} {given : Given} (accepted : x.update given = .ok y) :
    Relation.ReflTransGen Step x y := by
  obtain rfl | ⟨count, counted, differs, rfl⟩ := update_ok accepted
  · exact .refl
  · exact .single (.change (Given.sampleCount_pos counted) differs)

/-- Every operation takes steps. -/
theorem apply_steps (x : Session) (operation : Operation) :
    Relation.ReflTransGen Step x (x.apply operation) := by
  cases operation with
  | openSheet => exact .single (.openSheet x)
  | closeSheet i =>
    by_cases known : i < x.sheets.length
    · exact .single (.closeSheet known)
    · rw [apply, closeSheet, if_neg known]
  | listen observer =>
    refine .single (.attend ?_)
    rw [List.filterMap_append]
    exact List.append_nil _
  | ignore observer => exact .single (.attend (sheets_erase_observer _ observer))
  | setCount given =>
    rw [apply]
    split
    · exact .refl
    next accepted => exact update_steps accepted
  | setCountBy i given =>
    rw [apply]
    split
    · exact .refl
    next y accepted => exact (update_steps accepted).tail (y.recalculate_steps i)
  | define i id formula name =>
    exact .single (.work (x.worked_idle i x.settings.binCount _
      (fun h => h.define id formula name) fun _ h => h.define id formula name))
  | remove i id =>
    rw [apply]
    split
    · exact .refl
    next c w removed =>
      obtain ⟨⟨c, s⟩, gone, same⟩ := Option.map_eq_some_iff.1 removed
      cases same
      exact .single (.work (x.worked_idle i x.settings.binCount (fun _ => s)
        (fun h => h.remove gone) fun _ h => h.remove gone))
  | recalculate i => exact .single (x.recalculate_steps i)
  | sync i formulas names =>
    exact .single (.work (x.worked_recalculate i ((x.sheet i).rewritten formulas names)
      (fun h => h.rewritten formulas names) fun _ h => h.rewritten formulas names))
  | clear i =>
    exact .single (.work (x.worked_idle i x.settings.binCount (fun _ => Roster.empty)
      (fun _ => .empty _) fun P _ => .empty P))
  | histogram i id =>
    rw [apply]
    split
    · exact .refl
    next bins w asked =>
      rw [Workbook.histogram] at asked
      split at asked
      · cases asked
      · split at asked
        · split at asked
          · cases asked
          · cases asked
            exact .single (.work (x.worked_adjust i _ id (Cell.adjusts_keepBins _)))
        · cases asked
          exact .single (.work (x.worked_adjust i _ id (Cell.adjusts_keepBins _)))
  | adjust i id adjustment =>
    exact .single (.work (x.worked_adjust i x.settings.binCount id adjustment.adjusts))
  | prepare i id =>
    exact .single (.work (x.worked_idle i x.settings.binCount _ (fun h => h.prepare id)
      fun _ h => h.prepare id))
  | reevaluate i id => exact .single (.work (x.worked_reevaluate i id))

theorem run_steps (x : Session) (operations : List Operation) :
    Relation.ReflTransGen Step x (x.run operations) := by
  induction operations generalizing x with
  | nil => exact .refl
  | cons operation rest ih => exact (x.apply_steps operation).trans (ih (x.apply operation))

end Session

end MonteCarloSheet
