import MonteCarloSheet.Proofs.Sheet.Current
import MonteCarloSheet.Proofs.Sheet.Lives

/-! What is remembered is what would be computed now.

A cell remembers the tree of its formula and its histogram, and the settings remember the
bin count. A histogram depends on the output of its cell and, for samples, on the bin
count, and so on the sample count. A recalculation begins every cell, which takes its
histogram away, and a new sample count takes the histograms of all open sheets and the bin
count away; what else is done changes neither an output nor the sample count. So at every
moment what is remembered is right (`Workbook.Remembers`), and a histogram is the same
whether it was remembered or not (`Workbook.remembered_is_current`). -/
namespace MonteCarloSheet

open Samples (Bin)

/-! ### Computed afresh -/

/-- The histogram of what a cell has come to: no bins without a result, one bin around a number,
and for samples that of the bin count, if the sample count has one. -/
def Cell.freshBins (count : Nat) (c : Cell) : Option (List Bin) :=
  match c.output.reading with
  | none => some []
  | some (.number x) => some [⟨x, x, 1⟩]
  | some (.samples xs) => (Samples.binCount? count).map (Samples.histogram · xs)

/-- The histogram of a cell, with no regard to what is remembered. -/
def Workbook.freshHistogram (w : Workbook) (i : Nat) (id : String) :
    Except HistogramError (List Bin) :=
  match (w.sheet i).get? id with
  | none => .error .noCell
  | some c =>
    match c.freshBins w.settings.sampleCount with
    | none => .error .noBinCount
    | some bins => .ok bins

/-! ### The bin count -/

/-- A remembered bin count is that of the sample count. -/
def Settings.Remembers (s : Settings ι) : Prop :=
  ∀ n, s.binCount = some n → Samples.binCount? s.sampleCount = some n

namespace Settings
variable {s t : Settings ι}

theorem remembers_of_none (h : s.binCount = none) : s.Remembers := by
  intro n known
  rw [h] at known
  cases known

theorem Remembers.bins?_eq (h : s.Remembers) : s.bins? = Samples.binCount? s.sampleCount := by
  rw [bins?]
  cases known : s.binCount with
  | none => rw [Option.none_or]
  | some n => rw [Option.some_or, h n known]

theorem Remembers.keepBins (h : s.Remembers) : s.keepBins.Remembers := by
  intro n known
  exact h.bins?_eq.symm.trans known

/-- Settings that are made remember no bin count and have no listeners. -/
theorem make_new {method : Random.Method} {limit : Option Nat} {samples decimals seed : Given}
    (made : make method limit samples decimals seed = .ok s) :
    s.binCount = none ∧ s.listeners = [] := by
  rw [make] at made
  cases counted : samples.sampleCount with
  | error e => rw [counted] at made; cases made
  | ok count =>
    cases placed : decimals.decimals with
    | error e => rw [counted, placed] at made; cases made
    | ok places =>
      cases seeded : seed.seed with
      | error e => rw [counted, placed, seeded] at made; cases made
      | ok seed =>
        rw [counted, placed, seeded] at made
        cases made
        exact ⟨rfl, rfl⟩

end Settings

/-! ### Histograms of cells -/

namespace Cell
variable {c : Cell} {count n : Nat}

/-- A remembered histogram is the one that would be computed. -/
def Remembers (count : Nat) (c : Cell) : Prop :=
  ∀ bins, c.histogram = some bins → c.freshBins count = some bins

theorem remembers_of_none (h : c.histogram = none) : c.Remembers count := by
  intro bins known
  rw [h] at known
  cases known

theorem freshBins_of_samples (sampled : c.output.samples.isSome = true) :
    c.freshBins count = (Samples.binCount? count).map c.output.histogram := by
  obtain ⟨xs, is⟩ := Option.isSome_iff_exists.1 sampled
  have reading : c.output.reading = some (.samples xs) := by
    rw [Output.reading, is, Option.map_some, Option.some_or]
  have same : c.output.histogram = (Samples.histogram · xs) := by
    funext bins
    rw [Output.histogram, reading]
  rw [freshBins, reading, same]

theorem freshBins_of_no_samples (unsampled : c.output.samples.isSome = false) (bins : Nat) :
    c.freshBins count = some (c.output.histogram bins) := by
  have absent := Option.isNone_iff_eq_none.1 (Option.isSome_eq_false_iff.1 unsampled)
  rw [freshBins, Output.histogram, Output.reading, absent]
  cases c.output.value <;> rfl

/-- A histogram that is read is the one that would be computed, with the right number of bins where
samples are counted for it. -/
theorem Remembers.bins (h : c.Remembers count)
    (enough : Workbook.needsBins c = true → Samples.binCount? count = some n) :
    c.freshBins count = some (c.bins n) := by
  rw [Cell.bins]
  cases known : c.histogram with
  | some bins => exact h bins known
  | none =>
    rw [Option.getD_none]
    cases samples : c.output.samples.isSome with
    | true =>
      have needs : Workbook.needsBins c = true := by rw [Workbook.needsBins, known, samples]; rfl
      rw [freshBins_of_samples samples, enough needs, Option.map_some]
    | false => exact freshBins_of_no_samples samples n

theorem freshBins_of_no_count (needs : Workbook.needsBins c = true)
    (uncounted : Samples.binCount? count = none) : c.freshBins count = none := by
  rw [freshBins_of_samples (Bool.and_eq_true_iff.1 needs).2, uncounted, Option.map_none]

theorem Remembers.keepBins (h : c.Remembers count)
    (enough : Workbook.needsBins c = true → Samples.binCount? count = some n) :
    (c.keepBins n).Remembers count := by
  rintro bins ⟨⟩
  exact h.bins enough

end Cell

/-! ### Sheets -/

/-- What the cells of a sheet remember is right. -/
abbrev Sheet.Remembers (count : Nat) (s : Sheet) : Prop :=
  s.All fun _ c => c.Remembers count

namespace Sheet
variable {s : Sheet} {count : Nat}

theorem Remembers.define (h : s.Remembers count) (id : String) (formula name : Option String) :
    (s.define id formula name).Remembers count :=
  All.define_reworded (fun _ _ _ _ _ _ hc => hc) (fun _ _ _ _ _ _ _ hc => hc) h id formula name
    fun _ => Cell.remembers_of_none rfl

theorem Remembers.remove (h : s.Remembers count) {id : String} {c : Cell} {s' : Sheet}
    (removed : s.remove id = some (c, s')) : s'.Remembers count :=
  All.remove (fun _ _ _ _ _ _ hc => hc) h removed

/-- A recalculation leaves no histogram. -/
theorem remembers_recalculate (sim : Simulation) (h : s.Reachable) :
    (s.recalculate sim).2.Remembers count := by
  intro id c here
  exact Cell.remembers_of_none (begun_of_recalculate sim h here).histogram

end Sheet

/-! ### Workbooks -/

namespace Workbook

/-- One thing that is done with a workbook, or asked of it. To set the sample count of a sheet is to
change it and to recalculate. -/
inductive Step : Workbook → Workbook → Prop where
  | openSheet (w : Workbook) : Step w w.openSheet
  | define (w : Workbook) (i : Nat) (id : String) (formula name : Option String) :
      Step w (w.define i id formula name)
  | remove {w : Workbook} {i : Nat} {id : String} {c : Cell} {w' : Workbook}
      (removed : w.remove i id = some (c, w')) : Step w w'
  | recalculate (w : Workbook) (i : Nat) : Step w (w.recalculate i).2
  | sync (w : Workbook) (i : Nat) (formulas : Roster (Option String)) (names : Roster String) :
      Step w (w.sync i formulas names).2
  | changeSampleCount {w : Workbook} {given : Given} {changed : Bool} {w' : Workbook}
      (accepted : w.changeSampleCount given = .ok (changed, w')) : Step w w'
  | clear (w : Workbook) (i : Nat) : Step w (w.clear i).2
  | close (w : Workbook) (i : Nat) : Step w (w.close i).2
  | histogram {w : Workbook} {i : Nat} {id : String} {bins : List Bin} {w' : Workbook}
      (asked : w.histogram i id = .ok (bins, w')) : Step w w'
  | binCount (w : Workbook) : Step w { w with settings := w.settings.keepBins }

/-- What the settings and the cells of the open sheets remember is right. -/
structure Remembers (w : Workbook) : Prop where
  settings : w.settings.Remembers
  reachable : ∀ s ∈ w.sheets, s.Reachable
  histograms : ∀ i, w.IsOpen i → (w.sheet i).Remembers w.settings.sampleCount

/-- Who listens hears of a new sample count, and then has no histograms. -/
theorem unbinned_announce (listeners : List Nat) {w : Workbook} {i : Nat}
    (hears : i ∈ listeners ∨ (w.sheet i).All fun _ c => c.histogram = none) :
    ((w.announce listeners).sheet i).All fun _ c => c.histogram = none := by
  induction listeners generalizing w with
  | nil => exact hears.resolve_left List.not_mem_nil
  | cons j rest ih =>
    refine ih (w := w.modifySheet j invalidate) ?_
    obtain ⟨rfl, same⟩ | ⟨same, missing⟩ := sheet_modifySheet w j invalidate i
    · refine .inr fun id c here => ?_
      rw [same, invalidate, Roster.get?_map] at here
      obtain ⟨d, -, rfl⟩ := Option.map_eq_some_iff.1 here
      rfl
    · rw [same]
      obtain mem | unbinned := hears
      · obtain rfl | later := List.mem_cons.1 mem
        · rw [missing rfl]
          exact .inr fun _ _ here => by cases here
        · exact .inl later
      · exact .inr unbinned

namespace Remembers
variable {w w' : Workbook}

theorem new {settings : Settings Nat} (fresh : settings.binCount = none) :
    Remembers ⟨settings, []⟩ where
  settings := Settings.remembers_of_none fresh
  reachable := by rintro _ ⟨⟩
  histograms := by rintro i - id c ⟨⟩

theorem modifySheet (h : w.Remembers) {i : Nat} {f : Sheet → Sheet}
    (reachable : ∀ s, s.Reachable → (f s).Reachable)
    (keep : (w.sheet i).Remembers w.settings.sampleCount →
      (f (w.sheet i)).Remembers w.settings.sampleCount) : (w.modifySheet i f).Remembers where
  settings := h.settings
  reachable := reachable_modifySheet h.reachable reachable
  histograms j isOpen := by
    have remembered := h.histograms j isOpen
    obtain ⟨rfl, same⟩ | ⟨same, -⟩ := sheet_modifySheet w i f j
    · rw [same]
      exact keep remembered
    · rw [same]
      exact remembered

theorem keepBins (h : w.Remembers) : Remembers { w with settings := w.settings.keepBins } :=
  ⟨h.settings.keepBins, h.reachable, h.histograms⟩

theorem openSheet (h : w.Remembers) : w.openSheet.Remembers where
  settings := h.settings
  reachable := reachable_openSheet h.reachable
  histograms i isOpen := by
    rw [sheet_openSheet]
    obtain old | new := List.mem_append.1 isOpen
    · exact h.histograms i old
    · rw [List.mem_singleton.1 new, sheet, List.getD_eq_getElem?_getD,
        List.getElem?_eq_none (Nat.le_refl _)]
      rintro id c ⟨⟩

theorem recalculated (h : w.Remembers) (i : Nat) (sim : Simulation) {s : Sheet}
    (reachable : s.Reachable) : (w.withSheet i (s.recalculate sim).2).Remembers :=
  h.modifySheet (fun _ _ => reachable.recalculate sim) fun _ =>
    Sheet.remembers_recalculate sim reachable

theorem cleared (h : w.Remembers) (i : Nat) : (w.withSheet i Roster.empty).Remembers :=
  h.modifySheet (fun _ _ => .empty) fun _ => by rintro id c ⟨⟩

theorem changeSampleCount (h : w.Remembers) {given : Given} {changed : Bool}
    (accepted : w.changeSampleCount given = .ok (changed, w')) : w'.Remembers := by
  have reachable := reachable_changeSampleCount accepted h.reachable
  rw [Workbook.changeSampleCount] at accepted
  cases updated : w.settings.update given with
  | error e => rw [updated] at accepted; cases accepted
  | ok result =>
    obtain ⟨announcement, settings⟩ := result
    rw [updated] at accepted
    obtain ⟨rfl, rfl⟩ | ⟨a, rfl, hear, listen, forgotten⟩ := Settings.update_cases updated
    · cases accepted
      exact h
    · cases accepted
      refine ⟨?_, reachable, fun i isOpen => ?_⟩
      · rw [settings_announce]
        exact Settings.remembers_of_none forgotten
      · rw [IsOpen, settings_announce, listen, ← hear] at isOpen
        intro id c here
        exact Cell.remembers_of_none (unbinned_announce a.listeners (.inl isOpen) id c here)

/-- Asking for a histogram makes the cell remember the one that would be computed. -/
theorem askBins (h : w.Remembers) {i : Nat} {id : String} {c : Cell} {n : Nat}
    (here : (w.sheet i).get? id = some c)
    (enough : needsBins c = true → Samples.binCount? w.settings.sampleCount = some n) :
    (w.askBins i id c n).2.Remembers :=
  h.modifySheet (fun _ reachable => reachable.keepBins id n) fun remembered =>
    remembered.modifyAt here ((remembered id c here).keepBins enough)

theorem histogram (h : w.Remembers) {i : Nat} {id : String} {bins : List Bin}
    (asked : w.histogram i id = .ok (bins, w')) : w'.Remembers := by
  rw [Workbook.histogram, h.settings.bins?_eq] at asked
  split at asked
  · cases asked
  next c here =>
    split at asked
    · split at asked
      · cases asked
      next count counted =>
        cases asked
        exact h.keepBins.askBins here fun _ => counted
    next spared =>
      cases asked
      exact h.askBins here fun needs => (spared needs).elim

theorem step (step : Step w w') (h : w.Remembers) : w'.Remembers := by
  cases step with
  | openSheet => exact h.openSheet
  | define i id formula name =>
    exact h.modifySheet (fun _ reachable => reachable.define id formula name) fun remembered =>
      remembered.define id formula name
  | @remove i id c _ removed =>
    rw [Workbook.remove] at removed
    obtain ⟨⟨c, s⟩, gone, same⟩ := Option.map_eq_some_iff.1 removed
    cases same
    exact h.modifySheet (fun _ _ => (reachable_getD h.reachable i).remove id gone) fun remembered =>
      remembered.remove gone
  | recalculate i => exact h.recalculated i _ (reachable_getD h.reachable i)
  | sync i formulas names =>
    exact h.recalculated i _ ((reachable_getD h.reachable i).rewritten formulas names)
  | changeSampleCount accepted => exact h.changeSampleCount accepted
  | clear i => exact h.cleared i
  | close i =>
    have cleared := h.cleared i
    exact ⟨cleared.settings, cleared.reachable, fun j isOpen =>
      cleared.histograms j (List.mem_of_mem_erase isOpen)⟩
  | histogram asked => exact h.histogram asked
  | binCount => exact h.keepBins

theorem run (steps : Relation.ReflTransGen Step w w') (h : w.Remembers) : w'.Remembers := by
  induction steps with
  | refl => exact h
  | tail _ last ih => exact ih.step last

/-- What is asked of an open sheet is computed afresh or was remembered, and is the same. -/
theorem histogram_eq (h : w.Remembers) {i : Nat} (isOpen : w.IsOpen i) (id : String) :
    (w.histogram i id).map Prod.fst = w.freshHistogram i id := by
  rw [Workbook.histogram, freshHistogram, h.settings.bins?_eq]
  cases here : (w.sheet i).get? id with
  | none => rfl
  | some c =>
    have remembered := h.histograms i isOpen id c here
    dsimp only
    split
    next needs =>
      cases counted : Samples.binCount? w.settings.sampleCount with
      | none => rw [Cell.freshBins_of_no_count needs counted]; rfl
      | some count => rw [remembered.bins fun _ => counted]; rfl
    next spared => rw [remembered.bins (n := 1) fun needs => (spared needs).elim]; rfl

end Remembers

/-- Whatever is done with sheets that share settings, and whatever is asked in between: a tree that
a cell of an open sheet keeps is that of its formula, a histogram that is asked for is the one that
would be computed from the samples or the number of the cell with the bin count of the sample count,
and a bin count that the settings keep is that of the sample count. -/
theorem remembered_is_current {method : Random.Method} {limit : Option Nat}
    {samples decimals seed : Given} {settings : Settings Nat}
    (made : Settings.make method limit samples decimals seed = .ok settings) {w : Workbook}
    (steps : Relation.ReflTransGen Step ⟨settings, []⟩ w) {i : Nat} (isOpen : w.IsOpen i) :
    (∀ id c, (w.sheet i).get? id = some c → ∀ e, c.parsed = some e →
      Formula.parse c.formula = .ok e) ∧
    (∀ id, (w.histogram i id).map Prod.fst = w.freshHistogram i id) ∧
    ∀ n, w.settings.binCount = some n → Samples.binCount? w.settings.sampleCount = some n := by
  have remembered := (Remembers.new (Settings.make_new made).1).run steps
  refine ⟨fun id c here e kept => ?_, remembered.histogram_eq isOpen, remembered.settings⟩
  have faithful : c.Faithful := (reachable_getD remembered.reachable i).faithful id c here
  rw [Cell.Faithful, Cell.tree, kept] at faithful
  exact faithful.symm

theorem settings_recalculate (w : Workbook) (i : Nat) :
    (w.recalculate i).2.settings = w.settings := rfl

theorem names_recalculate (w : Workbook) (i : Nat) :
    ((w.recalculate i).2.sheet i).names = (w.sheet i).names := by
  obtain ⟨-, same⟩ | ⟨same, -⟩ := sheet_modifySheet w i
    (fun _ => (Sheet.recalculate w.settings.simulation (w.sheet i)).2) i
  · exact (congrArg Roster.names same).trans (Sheet.names_recalculate _ _)
  · exact congrArg Roster.names same

/-- A sheet is opened, the sample count changes, the bin count is asked for, and a cell is defined
and recalculated; then its histogram is asked for. -/
theorem read_after_recalculation : ∃ settings w,
    Settings.make .permuted none (.whole 10) (.whole 3) (.whole 1) = .ok settings ∧
      Relation.ReflTransGen Step ⟨settings, []⟩ w ∧ w.IsOpen 0 ∧ w.settings.sampleCount = 20 ∧
      "a" ∈ (w.sheet 0).names ∧ (w.histogram 0 "a").map Prod.fst = w.freshHistogram 0 "a" := by
  let settings : Settings Nat := ⟨10, ⟨.permuted, some 1, none⟩, 3, none, []⟩
  let resized : Workbook := ⟨⟨20, settings.source, 3, none, [0]⟩, [Roster.empty]⟩
  let asked : Workbook := { resized with settings := resized.settings.keepBins }
  let defined : Workbook := asked.define 0 "a" (some "1 to 2") none
  have made : Settings.make .permuted none (.whole 10) (.whole 3) (.whole 1) = .ok settings := rfl
  have opened : Relation.ReflTransGen Step ⟨settings, []⟩ (openSheet ⟨settings, []⟩) :=
    .single (.openSheet _)
  have accepted : (openSheet ⟨settings, []⟩).changeSampleCount (.whole 20) = .ok (true, resized) :=
    rfl
  have steps : Relation.ReflTransGen Step ⟨settings, []⟩ (defined.recalculate 0).2 :=
    (((opened.tail (.changeSampleCount accepted)).tail (.binCount _)).tail
      (.define _ 0 "a" _ none)).tail (.recalculate _ 0)
  have kept : (defined.recalculate 0).2.settings = asked.settings := settings_recalculate defined 0
  have isOpen : (defined.recalculate 0).2.IsOpen 0 := by
    rw [IsOpen, kept]
    exact List.mem_singleton_self 0
  have names : ((defined.recalculate 0).2.sheet 0).names = ["a"] := names_recalculate defined 0
  refine ⟨settings, _, made, steps, isOpen, congrArg Settings.sampleCount kept,
    by rw [names]; decide, ?_⟩
  exact (remembered_is_current made steps isOpen).2.1 "a"

end Workbook

end MonteCarloSheet
