import Mathlib.Data.List.Perm.Basic
import MonteCarloSheet.Proofs.CommandLine.Input
import MonteCarloSheet.Proofs.Sheet.Afresh

/-! What is reported.

Options that are not refused make a sheet afresh. Its summary is reported with one line for
each definition, in order, and the code says whether the recalculation has converged
(`reports_of_described`). Where no references go round in a cycle it has, and the lines of
definitions in another order are the same (`reordered`). -/
namespace MonteCarloSheet.CommandLine

/-- The lines on standard output; errors and warnings are not among them. -/
def Report.printed : Report → List String
  | .cells entries _ _ => entries
  | _ => []

/-- The line for a definition has the name and what the cell is described by. -/
def LineFor (s : Sheet) (places : Int) (text line : String) : Prop :=
  ∃ summary, s.described places (nameIn text) = some (.ok summary) ∧
    line = nameIn text ++ ": " ++ summary

/-- There is one line for each definition, in order, and the code says whether the recalculation
has converged. -/
structure Reports (definitions : List String) (places : Int) (outcome : Recalculation × Sheet)
    (r : Report) : Prop where
  lines : List.Forall₂ (LineFor outcome.2 places) definitions r.printed
  code : r.code = if outcome.1.converged then 0 else 1

theorem rightUnique_lineFor (s : Sheet) (places : Int) :
    Relator.RightUnique (LineFor s places) := by
  rintro text line other ⟨summary, described, rfl⟩ ⟨summary', described', rfl⟩
  rw [described] at described'
  cases described'
  rfl

section
variable {method : Random.Method} {limit : Option Nat} {o : Options} {settings : Settings Nat}
  {formulas : Roster (Option String)}

/-- What the definitions come to. -/
abbrev outcome (settings : Settings Nat) (formulas : Roster (Option String)) :
    Recalculation × Sheet :=
  Sheet.sync settings.simulation Roster.empty formulas Roster.empty

theorem input_ok_iff : input method limit o = .ok (settings, formulas) ↔
    Settings.make method limit o.samples o.decimals o.seed = .ok settings ∧
      addDefinitions Roster.empty o.definitions = .ok formulas := by
  rw [input]
  cases (Settings.make method limit o.samples o.decimals o.seed :
    Except SettingError (Settings Nat)) with
  | error e => simp
  | ok settings' => cases addDefinitions Roster.empty o.definitions <;> simp

theorem report_of_refused {e : InputError} (refused : input method limit o = .error e)
    (range : ∀ g, e ≠ .setting (.notNumber g)) :
    report method limit o = .error ("Error: " ++ e.message) := by
  rw [report, refused]
  split
  next g same =>
    cases same
    exact (range g rfl).elim
  next same =>
    cases same
    rfl
  next absurd => cases absurd

/-- The one sheet of a new workbook is reported. -/
theorem report_of_input (taken : input method limit o = .ok (settings, formulas)) :
    report method limit o =
      match (outcome settings formulas).2.summary settings.decimals with
      | .error e => .failed (.unwritable e)
      | .ok entries => .cells (entries.map entryText) (outcome settings formulas).1.converged
          (outcome settings formulas).1.warning := by
  rw [report, taken]
  rfl

theorem regular_outcome : (outcome settings formulas).2.Regular settings.sampleCount := by
  obtain ⟨events, lives⟩ :=
    (Sheet.Lives.opened settings.sampleCount).rewritten formulas Roster.empty
  exact (lives.recalculate settings.simulation).regular

theorem names_outcome : (outcome settings formulas).2.names = formulas.names :=
  (Sheet.names_recalculate _ _).trans Sheet.names_afresh

theorem reports_of_described (entries : formulas.entries = o.definitions.map entryIn)
    (taken : input method limit o = .ok (settings, formulas))
    (all : ∀ id ∈ (outcome settings formulas).2.names,
      ∃ text, (outcome settings formulas).2.described settings.decimals id = some (.ok text)) :
    Reports o.definitions settings.decimals (outcome settings formulas)
      (report method limit o) := by
  obtain ⟨summaries, summary, each⟩ := Sheet.summary_ok all
  have names : formulas.names = o.definitions.map nameIn := by
    rw [Roster.names, entries, List.map_map]
    rfl
  rw [names_outcome, names, List.forall₂_map_left_iff] at each
  rw [report_of_input taken, summary]
  refine ⟨List.forall₂_map_right_iff.2 (each.imp fun text entry => ?_), ?_⟩
  · rintro ⟨name, described⟩
    exact ⟨entry.2, described, by rw [entryText, name]⟩
  · rfl

/-- Where no references go round in a cycle, definitions in another order get the same lines. -/
theorem reordered (taken : input method limit o = .ok (settings, formulas))
    (fits : ¬ (outcome settings formulas).2.TooLong settings.decimals)
    (acyclic : Formulas.Acyclic formulas.get?) {definitions : List String}
    (perm : definitions.Perm o.definitions) :
    (report method limit { o with definitions }).code = 0 ∧
      (report method limit { o with definitions }).printed.Perm
        (report method limit o).printed := by
  obtain ⟨made, added⟩ := input_ok_iff.1 taken
  obtain ⟨wellFormed, distinct, entries⟩ := addDefinitions_ok_iff.1 added
  have wellFormed' : ∀ text ∈ definitions, ¬ Malformed text := fun text mem =>
    wellFormed text (perm.mem_iff.1 mem)
  obtain ⟨others, added'⟩ :=
    exists_addDefinitions wellFormed' ((perm.map nameIn).nodup_iff.2 distinct)
  obtain ⟨-, -, entries'⟩ := addDefinitions_ok_iff.1 added'
  have taken' : input method limit { o with definitions } = .ok (settings, others) :=
    input_ok_iff.2 ⟨made, added'⟩
  have permuted : others.entries.Perm formulas.entries := by
    rw [entries, entries']
    exact perm.map entryIn
  have same : (outcome settings others).2.described settings.decimals =
      (outcome settings formulas).2.described settings.decimals :=
    funext (Sheet.described_afresh _ (Roster.get?_of_perm permuted) acyclic _)
  have all := Sheet.described_of_regular regular_outcome (Int.natCast_nonneg _) fits
  have reports := reports_of_described entries taken all
  have reports' := reports_of_described entries' taken' fun id known => by
    rw [same]
    refine all id ?_
    rw [names_outcome] at known ⊢
    exact (permuted.map Prod.fst).mem_iff.1 known
  have lineFor : LineFor (outcome settings others).2 settings.decimals =
      LineFor (outcome settings formulas).2 settings.decimals := by
    funext text line
    rw [LineFor, same, LineFor]
  have lines := reports'.lines
  rw [lineFor] at lines
  refine ⟨?_, List.rel_perm_imp (rightUnique_lineFor _ _) lines reports.lines perm⟩
  rw [reports'.code]
  rw [← Roster.get?_of_perm permuted] at acyclic
  exact if_pos (Sheet.afresh_rests _ acyclic).1

end

/-- What is reported with a seed that is drawn if none is given. -/
abbrev reported (method : Random.Method) (limit drawn : Option Nat) (o : Options) : Report :=
  report method limit (o.drawing drawn)

/-- Of accepted arguments whose decimals and seed are numbers: the code is 2, and nothing is printed,
exactly if the options are unusable. Otherwise nothing is printed if a number would have to be
written with more places than the most, and else there is one line for each definition, in order.
Where no references go round in a cycle the code is then 0, and definitions in another order get
the same lines. -/
theorem definitions_reported {arguments : List String} {o : Options}
    (accepted : read arguments = .options o) (places : o.decimals ≠ .list [])
    (number : o.seed ≠ .list []) (method : Random.Method) (limit drawn : Option Nat) :
    ((reported method limit drawn o).code = 2 ↔ Unusable o) ∧
    (Unusable o → (reported method limit drawn o).printed = []) ∧
    (¬ Unusable o → ∃ settings formulas,
      input method limit (o.drawing drawn) = .ok (settings, formulas) ∧
      o.samples = .whole settings.sampleCount ∧ o.decimals = .whole settings.decimals ∧
      formulas.entries = o.definitions.map entryIn ∧
      ((outcome settings formulas).2.TooLong settings.decimals →
        reported method limit drawn o = .failed (.unwritable .places)) ∧
      (¬ (outcome settings formulas).2.TooLong settings.decimals →
        Reports o.definitions settings.decimals (outcome settings formulas)
          (reported method limit drawn o) ∧
        (Formulas.Acyclic formulas.get? →
          (reported method limit drawn o).code = 0 ∧
          ∀ definitions, definitions.Perm o.definitions →
            (reported method limit drawn { o with definitions }).code = 0 ∧
            (reported method limit drawn { o with definitions }).printed.Perm
              (reported method limit drawn o).printed))) := by
  obtain ⟨unusable, e, range, refused⟩ |
      ⟨usable, settings, formulas, taken, samples, decimals, entries⟩ :=
    input_cases (typed_of_read accepted) places number method limit drawn
  · rw [reported, report_of_refused refused range]
    exact ⟨⟨fun _ => unusable, fun _ => rfl⟩, fun _ => rfl, fun usable => (usable unusable).elim⟩
  have unlike : (reported method limit drawn o).code ≠ 2 := by
    rw [reported, report_of_input taken]
    cases (outcome settings formulas).2.summary settings.decimals with
    | error e => exact fun absurd => (by cases absurd)
    | ok entries =>
      rw [Report.code]
      split <;> exact fun absurd => (by cases absurd)
  refine ⟨⟨fun same => (unlike same).elim, fun unusable => (usable unusable).elim⟩,
    fun unusable => (usable unusable).elim,
    fun _ => ⟨settings, formulas, taken, samples, decimals, entries, ?_, ?_⟩⟩
  · intro long
    rw [reported, report_of_input taken, Sheet.summary_of_tooLong regular_outcome long]
  · intro fits
    have reports : Reports o.definitions settings.decimals (outcome settings formulas)
        (reported method limit drawn o) := reports_of_described (o := o.drawing drawn) entries taken
      (Sheet.described_of_regular regular_outcome (Int.natCast_nonneg _) fits)
    refine ⟨reports, fun acyclic => ⟨?_, fun definitions perm => ?_⟩⟩
    · rw [reports.code]
      exact if_pos (Sheet.afresh_rests _ acyclic).1
    · exact reordered taken fits acyclic perm

/-- Two definitions, the first of which refers to the second. -/
theorem lines_of_two_definitions :
    let o : Options :=
      ⟨.whole 5000, .whole 1, .whole 3, ["total = cost * 3", "cost = 10 to 12"]⟩
    let turned : Options := { o with definitions := ["cost = 10 to 12", "total = cost * 3"] }
    read ["--seed", "1", "total = cost * 3", "cost = 10 to 12"] = .options o ∧
      o.decimals ≠ .list [] ∧ o.seed ≠ .list [] ∧ ¬ Unusable o ∧
      (∃ settings formulas, Reports o.definitions 3 (outcome settings formulas)
        (reported .permuted none none o)) ∧
      (reported .permuted none none o).code = 0 ∧
      (reported .permuted none none turned).code = 0 ∧
      (reported .permuted none none turned).printed.Perm
        (reported .permuted none none o).printed := by
  intro o turned
  have accepted : read ["--seed", "1", "total = cost * 3", "cost = 10 to 12"] = .options o := rfl
  have places : o.decimals ≠ .list [] := Given.noConfusion
  have number : o.seed ≠ .list [] := Given.noConfusion
  have usable : ¬ Unusable o := not_unusable ⟨5000, rfl, by decide⟩
    (fun n given => by cases given; decide) (fun n given => by cases given; decide)
    (by decide +kernel) (by decide +kernel)
  obtain ⟨-, -, works⟩ := definitions_reported accepted places number .permuted none none
  obtain ⟨settings, formulas, -, -, decimals, entries, -, fits⟩ := works usable
  have three : settings.decimals = 3 := by
    have same := Given.whole.inj decimals
    omega
  have short : ¬ (outcome settings formulas).2.TooLong settings.decimals := fun long =>
    absurd long.1 (by rw [three]; decide)
  obtain ⟨reports, more⟩ := fits short
  have acyclic : Formulas.Acyclic formulas.get? := by
    have same : formulas = ⟨o.definitions.map entryIn, by decide +kernel⟩ :=
      Roster.ext_entries entries
    rw [same, ← Sheet.formulas_rewritten Roster.empty _ Roster.empty]
    exact Sheet.acyclic_of_links (fun id => if id = "total" then 1 else 0) (by decide +kernel)
  obtain ⟨code, turn⟩ := more acyclic
  rw [three] at reports
  exact ⟨accepted, places, number, usable, ⟨settings, formulas, reports⟩, code,
    turn turned.definitions (.swap _ _ _)⟩

/-- More decimals than are written, and decimals or a seed that are no number: the arguments are
accepted and the options usable, and yet there is no line for the definition. -/
theorem accepted_but_not_reported :
    (∃ o, read ["--decimals", "2147483648", "a=1e999"] = .options o ∧ ¬ Unusable o ∧
      o.definitions = ["a=1e999"] ∧ report .permuted none o = .failed (.unwritable .places) ∧
      (report .permuted none o).printed = []) ∧
    (∃ o, read ["--decimals=--", "a=1"] = .options o ∧ ¬ Unusable o ∧
      o.definitions = ["a=1"] ∧ report .permuted none o = .failed (.notNumber "[]") ∧
      (report .permuted none o).printed = []) ∧
    ∃ o, read ["--seed=--", "a=1"] = .options o ∧ ¬ Unusable o ∧
      o.definitions = ["a=1"] ∧ report .permuted none o = .failed (.notNumber "[]") ∧
      (report .permuted none o).printed = [] := by
  refine ⟨⟨⟨.whole 5000, .nothing, .whole 2147483648, ["a=1e999"]⟩, rfl, ?_, rfl, ?_⟩,
    ⟨⟨.whole 5000, .nothing, .list [], ["a=1"]⟩, rfl, ?_, rfl, by decide +kernel⟩,
    ⟨.whole 5000, .list [], .whole 3, ["a=1"]⟩, rfl, ?_, rfl, by decide +kernel⟩
  · exact not_unusable ⟨5000, rfl, by decide⟩ (fun n given => by cases given)
      (fun n given => by cases given; decide) (by decide +kernel) (by decide +kernel)
  · decide +kernel
  · exact not_unusable ⟨5000, rfl, by decide⟩ (fun n given => by cases given)
      (fun n given => by cases given) (by decide +kernel) (by decide +kernel)
  · exact not_unusable ⟨5000, rfl, by decide⟩ (fun n given => by cases given)
      (fun n given => by cases given; decide) (by decide +kernel) (by decide +kernel)

end MonteCarloSheet.CommandLine
