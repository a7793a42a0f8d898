import MonteCarloSheet.Proofs.Sheet.Nesting

/-! A recalculation computes the meaning of the sheet.

Sweeps keep a sheet sound, whatever their order (`sweeps_sound`), and they reach
every cell. So after a recalculation of any reachable sheet, however it went, each
cell shows what its formula means, and a cell from which a cycle can be reached
carries a fault (`cells_show_their_meaning`). Every trail of references must fit
in the room of an evaluation. -/
namespace MonteCarloSheet

open Formula (Expr)

/-- A sheet has a formula for each of its names and no other. -/
theorem Sheet.isSome_formulas {s : Sheet} {x : String} : (s.formulas x).isSome ↔ x ∈ s.names := by
  rw [Sheet.formulas, Option.isSome_map, Roster.mem_names, Option.isSome_iff_exists]

section
variable {sim : Simulation} {roomOf : Expr → Nat} {F : Formulas}

/-- A reevaluation of a cell by itself gives it a right ending, if nested evaluations go along the
given trails. -/
theorem reevaluate_nested {K : Sheet → Prop} {Along : List String → Prop}
    (nestable : Nestable sim roomOf F Along) (suits : F.Suits sim.room roomOf)
    (keeps : Keeps sim roomOf F K) {s : Sheet} (sound : Sound sim roomOf F ⟨s, []⟩) {id : String}
    {before : Cell} (here : s.get? id = some before) (kept : K (s.begun id before))
    (along : ∀ q name, K q → F.Refers id name → ¬ q.Fresh name → Along [name, id]) :
    ∃ q ending, Within sim roomOf F K [id] q ∧ RightEnding sim roomOf F id ending ∧
      reevaluate sim id ⟨s, [id]⟩ = conclude id before ending.apply q := by
  have all : ∀ x, (F x).isSome → x ∈ s.names := by
    rw [← sound.formulas]
    exact fun _ => Sheet.isSome_formulas.1
  have formula := sound.formula_eq here
  have trail : F.Trail [id] := .single (by rw [formula]; rfl)
  have size : s.names.length = Roster.size s := List.length_map _
  have activated := sound.activate id
  exact reevaluateWith_nested sim.room (refresh_brings nestable keeps all (Roster.size s))
    activated here ⟨activated.begun here List.mem_cons_self, rfl, kept⟩ trail along
    (size.le.trans (Nat.le_add_right _ _)) (fun e parsed => suits id _ e formula parsed)
    (Nat.le_add_right _ _)

/-- What a reevaluation by itself leaves is sound again. -/
theorem Within.sound_conclude {K : Sheet → Prop} {id : String} {q : Progress}
    (h : Within sim roomOf F K [id] q) (before : Cell) {ending : Ending}
    (right : RightEnding sim roomOf F id ending) :
    Sound sim roomOf F ⟨(conclude id before ending.apply q).2.sheet, []⟩ := by
  have active : id ∈ q.active := by
    rw [h.active]
    exact List.mem_singleton_self id
  have after := (h.sound.conclude active before ending).deactivate
    (h.sound.finishedAt_conclude before right)
  rw [Progress.deactivate, (conclude_runs id before ending q).active, h.active,
    filter_ne_cons List.not_mem_nil] at after
  exact after

/-! ### If all trails fit -/

theorem Formulas.FitIn.nestable (fit : F.FitIn sim.room) :
    Nestable sim Expr.height F fun _ => True :=
  ⟨fun _ _ _ => trivial, fun trail h _ => fit trail h, fun _ _ => Nat.le_refl _⟩

theorem Formulas.FitIn.suits (fit : F.FitIn sim.room) : F.Suits sim.room Expr.height := by
  intro id text e formula parsed
  have alone := fit _ (.single (by rw [formula]; rfl) : F.Trail [id])
  rw [Formulas.span, Formulas.span, Formulas.weight, height_of_parse formula parsed] at alone
  exact .inr ⟨by omega, Nat.le_refl _⟩

theorem keeps_trivial (sim : Simulation) (roomOf : Expr → Nat) (F : Formulas) :
    Keeps sim roomOf F fun _ => True :=
  ⟨fun _ _ => trivial, fun _ _ _ _ => trivial⟩

theorem Keeps.and {K L : Sheet → Prop} (first : Keeps sim roomOf F K)
    (second : Keeps sim roomOf F L) : Keeps sim roomOf F fun s => K s ∧ L s where
  begun := fun h here => ⟨first.begun h.1 here, second.begun h.2 here⟩
  conclude := fun h here later right =>
    ⟨first.conclude h.1 here later.1 right, second.conclude h.2 here later.2 right⟩

theorem reevaluateAlone_sound (fit : F.FitIn sim.room) {s : Sheet}
    (sound : Sound sim Expr.height F ⟨s, []⟩) {id : String} {before : Cell}
    (here : s.get? id = some before) :
    Sound sim Expr.height F ⟨(s.reevaluateAlone sim id).2, []⟩ := by
  obtain ⟨q, ending, inner, right, ends⟩ := reevaluate_nested fit.nestable fit.suits
    (keeps_trivial sim Expr.height F) sound here trivial fun _ _ _ _ _ => trivial
  rw [Sheet.reevaluateAlone, ends]
  exact inner.sound_conclude before right

theorem sweep_sound (fit : F.FitIn sim.room) (order : List String) {s : Sheet}
    (sound : Sound sim Expr.height F ⟨s, []⟩) :
    Sound sim Expr.height F ⟨(Sheet.sweep sim order (false, s)).2, []⟩ :=
  Sheet.sweep_induct (I := fun _ _ t => Sound sim Expr.height F ⟨t, []⟩)
    (fun _ _ _ _ _ _ sound _ => sound)
    (fun _ _ _ _ _ _ _ sound here _ => reevaluateAlone_sound fit sound here) sound

theorem sweeps_sound (fit : F.FitIn sim.room) (order : List String) (left done : Nat) {s : Sheet}
    (sound : Sound sim Expr.height F ⟨s, []⟩) :
    Sound sim Expr.height F ⟨(Sheet.sweeps sim order left done s).2.2, []⟩ := by
  induction left generalizing done s with
  | zero => exact sound
  | succ left ih =>
    have first := sweep_sound fit order sound
    rw [Sheet.sweeps]
    dsimp only
    split
    · exact first
    · exact ih (done + 1) first

end

/-- When the sweeps begin no cell has been reached, so the sheet is sound. -/
theorem sound_prepared {sim : Simulation} {roomOf : Expr → Nat} {s : Sheet} (h : s.Reachable) :
    Sound sim roomOf s.formulas ⟨s.prepared, []⟩ := by
  refine ⟨Sheet.formulas_prepared s, h.underway.faithful, fun id c here processed _ => ?_⟩
  rw [s.prepared_unprocessed id c here] at processed
  cases processed

/-- After a recalculation that has room for all formulas, every cell is finished. -/
theorem recalculate_finished {s : Sheet} (h : s.Reachable) {sim : Simulation}
    (fit : s.formulas.FitIn sim.room) {id : String} (mem : id ∈ s.names) :
    ∃ c, (s.recalculate sim).2.get? id = some c ∧ Finished sim Expr.height s.formulas id c := by
  have sound : Sound sim Expr.height s.formulas ⟨(s.recalculate sim).2, []⟩ :=
    sweeps_sound fit s.prepared.order (Sheet.sweepLimit s.prepared) 0 (sound_prepared h)
  obtain ⟨c, here, processed⟩ := (Sheet.recalculate_reaches sim h).2 id mem
  exact ⟨c, here, sound.finished id c here processed List.not_mem_nil⟩

/-- After a recalculation of any reachable sheet, whether it converged or not, a cell from which no
cycle can be reached shows the one result that it means, and any other cell carries a fault and is
not valid. -/
theorem cells_show_their_meaning {s : Sheet} (h : s.Reachable) {sim : Simulation}
    (fit : s.formulas.FitIn sim.room) {id : String} (mem : id ∈ s.names) :
    ∃ c, (s.recalculate sim).2.get? id = some c ∧
      (¬ s.formulas.ReachesCycle id → ∃ r, c.Shows r ∧
        ∀ q, Denotes sim Expr.height s.formulas id q ↔ q = r) ∧
      (s.formulas.ReachesCycle id → (∃ f, c.fault = some f) ∧ c.status ≠ .valid) := by
  obtain ⟨c, here, finished⟩ := recalculate_finished h fit mem
  refine ⟨c, here, fun acyclic => ?_, fun cycle => ?_⟩
  · obtain ⟨r, means⟩ := (denotes_iff_no_cycle (fun _ => Sheet.isSome_formulas.1)
      (Sheet.isSome_formulas.2 mem)).2 acyclic
    refine ⟨r, finished.shows_ r means, fun q => ⟨fun hq => hq.unique means, ?_⟩⟩
    rintro rfl
    exact means
  · obtain ⟨f, fault⟩ := finished.stuck fun r means => means.no_cycle cycle
    refine ⟨⟨f, fault⟩, fun valid => ?_⟩
    rw [(Cell.status_valid_iff.1 valid).1] at fault
    cases fault

/-- One cell reads itself, one reads the cell on the cycle, and one stands by itself. -/
theorem meaning_of_three_cells :
    let s := Sheet.define (Sheet.define (Sheet.define Roster.empty "A" (some "A") none)
      "B" (some "A + C") none) "C" (some "1 to 2") none
    let sim : Simulation := ⟨5000, ⟨.permuted, some 1, none⟩, 980⟩
    s.Reachable ∧ s.formulas.FitIn sim.room ∧ "C" ∈ s.names ∧
      ∃ c, (s.recalculate sim).2.get? "C" = some c ∧
        (¬ s.formulas.ReachesCycle "C" → ∃ r, c.Shows r ∧
          ∀ q, Denotes sim Expr.height s.formulas "C" q ↔ q = r) ∧
        (s.formulas.ReachesCycle "C" → (∃ f, c.fault = some f) ∧ c.status ≠ .valid) := by
  intro s sim
  have reachable : s.Reachable := .define (.define (.define .empty "A" _ _) "B" _ _) "C" _ _
  have fit : s.formulas.FitIn sim.room :=
    Formulas.fitIn_of_span_le (fun _ => Sheet.isSome_formulas.1) (by decide +kernel)
  have mem : "C" ∈ s.names := by decide +kernel
  exact ⟨reachable, fit, mem, cells_show_their_meaning reachable fit mem⟩

end MonteCarloSheet
