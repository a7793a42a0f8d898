import MonteCarloSheet.Proofs.Sheet.Shown

/-! Where the formulas of stuck cells stop.

A cell is stuck if it exists and means nothing. Evaluated with the results that all
cells mean, its formula stops: either at a reference to a stuck cell, on which it
then leans, or elsewhere, with a fault that does not depend on stuck cells
(`Stuck.cases`). The evaluation of a cell whose references read rightly stops at the
same place, however they are answered: it ends rightly, or at the cell on which it
leans (`reevaluateWith_tracks`). So it always ends rightly
(`reevaluateWith_ends`). -/
namespace MonteCarloSheet

open Formula (Answering Expr Stop evaluateWith Fit Agree Coupled Match Referred)
open MonteCarloSheet.Random (Generator)

/-! ### Where a formula stops -/

namespace Formula

/-- Gives the answers, and keeps the name of a reference that has none. -/
def tracking (answers : String → Except Stop (Option Value)) : Nat → String →
    Answering (Option String) (Option Value) :=
  fun _ name kept =>
    match answers name with
    | .ok v => (.ok v, kept)
    | .error x => (.error x, some name)

/-- The value of a formula with the given answers, and the reference at which it stops, if it stops
at one. -/
def evaluateTracking (answers : String → Except Stop (Option Value)) (count room : Nat) (e : Expr)
    (g : Generator) : Except Stop (Option Value × Generator) × Option String :=
  evaluate (tracking answers) count room e g none

variable {answers : String → Except Stop (Option Value)} {count room : Nat} {e : Expr}
  {g : Generator}

theorem evaluateTracking_fst :
    (evaluateTracking answers count room e g).1 = evaluateWith answers count room e g := by
  have refs : Answered (fun _ _ => True) Eq (tracking answers) (fixed answers) e.height room room
      e.references := by
    intro name _ r₁ r₂ _ _ s t _
    rw [tracking, fixed]
    rcases answers name with x | v
    · exact ⟨rfl, trivial⟩
    · exact ⟨rfl, trivial⟩
  exact (evaluate_lockstep (fun _ => rfl) e (.inl rfl) refs g none () trivial).1.eq

/-- A formula has a value, or it stops by itself, or at a reference that has no value. -/
theorem evaluateTracking_cases (answers : String → Except Stop (Option Value)) (count room : Nat)
    (e : Expr) (g : Generator) :
    (∃ v, evaluateTracking answers count room e g = (.ok v, none)) ∨
      (∃ x, evaluateTracking answers count room e g = (.error x, none)) ∨
      ∃ x, ∃ name ∈ e.references, answers name = .error x ∧
        evaluateTracking answers count room e g = (.error x, some name) := by
  let T : Stop → Option String → Stop → Unit → Prop := fun x kept _ _ =>
    kept = none ∨ ∃ name ∈ e.references, answers name = .error x ∧ kept = some name
  have refs : Referred (fun kept _ => kept = none) T (tracking answers) (fixed answers) e.height
      room room e.references := by
    intro name mem r₁ r₂ _ _ s t start
    rw [tracking, fixed]
    rcases h : answers name with x | v
    · exact .inr ⟨name, mem, h, rfl⟩
    · exact ⟨rfl, start⟩
  have coupled : Coupled (fun kept _ => kept = none) T (evaluate (tracking answers) count room e)
      (evaluate (fixed answers) count room e) :=
    evaluate_coupled (fun _ _ _ start => .inl start) e (.inl rfl) refs
  have both := coupled g none () rfl
  rw [evaluateTracking]
  generalize evaluate (tracking answers) count room e g none = out at both ⊢
  generalize evaluate (fixed answers) count room e g () = other at both
  obtain ⟨x | v, kept⟩ := out <;> obtain ⟨y | w, u⟩ := other
  · obtain rfl | ⟨name, mem, answer, rfl⟩ := both
    · exact .inr (.inl ⟨x, rfl⟩)
    · exact .inr (.inr ⟨x, name, mem, answer, rfl⟩)
  · exact both.elim
  · exact both.elim
  · obtain ⟨-, rfl⟩ := both
    exact .inl ⟨v, rfl⟩

end Formula

/-! ### Stuck cells -/

section
variable (sim : Simulation) (roomOf : Expr → Nat) (F : Formulas)

/-- The cell exists and means nothing. -/
def Stuck (x : String) : Prop :=
  (F x).isSome ∧ ¬ ∃ r, Denotes sim roomOf F x r

/-- The evaluation of the tree of a cell with the results that all cells mean. -/
noncomputable def ideal (x : String) (text : Option String) (e : Expr) :
    Except Stop (Option Value × Generator) × Option String :=
  Formula.evaluateTracking (F.answers (meant sim roomOf F)) sim.count (roomOf e) e
    (sim.source.generatorFor [x, text.getD ""])

/-- The formula of the first cell stops at its reference to the second one, which is stuck. -/
structure Leans (x y : String) : Prop where
  stuck : Stuck sim roomOf F y
  stops : ∃ text e, F x = some text ∧ Formula.parse text = .ok e ∧
    (ideal sim roomOf F x text e).2 = some y

/-- The cell is stuck, and its formula stops with the fault without leaning on a stuck cell. -/
structure EndsWith (x : String) (f : Fault) : Prop where
  stuck : Stuck sim roomOf F x
  stops : ∃ text e kept, F x = some text ∧ Formula.parse text = .ok e ∧
    ideal sim roomOf F x text e = (.error (.fault f), kept) ∧
    ∀ y, kept = some y → ¬ Stuck sim roomOf F y

end

variable {sim : Simulation} {roomOf : Expr → Nat} {F : Formulas} {x y z : String}

theorem Stuck.answers (h : Stuck sim roomOf F x) :
    ∃ stop, F.answers (meant sim roomOf F) x = .error stop := by
  obtain ⟨there, none⟩ := h
  cases answer : F.answers (meant sim roomOf F) x with
  | error stop => exact ⟨stop, rfl⟩
  | ok v => exact (answers_meant_stuck there none v answer).elim

/-- The results that are meant answer each reference with a value that fits, or a fault. -/
theorem ideal_ends (sim : Simulation) (roomOf : Expr → Nat) (F : Formulas) (x : String)
    (text : Option String) (e : Expr) :
    Formula.Ends (Formula.Proper (F.answers (meant sim roomOf F)) sim.count e.references)
      (ideal sim roomOf F x text e).1 := by
  rw [ideal, Formula.evaluateTracking_fst]
  exact Formula.evaluateWith_ends e (fun name _ => answers_meant_whole sim roomOf F name) _ _

namespace Leans

theorem refers (h : Leans sim roomOf F x y) : F.Refers x y := by
  obtain ⟨text, e, here, parsed, stops⟩ := h.stops
  refine ⟨text, e, here, parsed, ?_⟩
  rw [ideal] at stops
  obtain ⟨v, same⟩ | ⟨stop, same⟩ | ⟨stop, name, mem, -, same⟩ :=
    Formula.evaluateTracking_cases (F.answers (meant sim roomOf F)) sim.count (roomOf e) e
      (sim.source.generatorFor [x, text.getD ""])
  · rw [same] at stops
    cases stops
  · rw [same] at stops
    cases stops
  · rw [same] at stops
    cases stops
    exact mem

/-- What leans on a stuck cell is stuck. -/
theorem stuck_left (h : Leans sim roomOf F x y) : Stuck sim roomOf F x := by
  refine ⟨h.refers.exists, fun ⟨r, means⟩ => h.stuck.2 ?_⟩
  exact means.of_refers h.refers h.stuck.1

theorem unique (first : Leans sim roomOf F x y) (second : Leans sim roomOf F x z) : y = z := by
  obtain ⟨text, e, here, parsed, stops⟩ := first.stops
  obtain ⟨text', e', here', parsed', stops'⟩ := second.stops
  cases here.symm.trans here'
  cases parsed.symm.trans parsed'
  exact Option.some.inj (stops.symm.trans stops')

end Leans

theorem EndsWith.unique {f f' : Fault} (first : EndsWith sim roomOf F x f)
    (second : EndsWith sim roomOf F x f') : f = f' := by
  obtain ⟨text, e, kept, here, parsed, stops, -⟩ := first.stops
  obtain ⟨text', e', kept', here', parsed', stops', -⟩ := second.stops
  cases here.symm.trans here'
  cases parsed.symm.trans parsed'
  cases stops.symm.trans stops'
  rfl

theorem EndsWith.not_leans {f : Fault} (ends : EndsWith sim roomOf F x f) :
    ¬ Leans sim roomOf F x y := by
  intro leans
  obtain ⟨text, e, kept, here, parsed, stops, free⟩ := ends.stops
  obtain ⟨text', e', here', parsed', stops'⟩ := leans.stops
  cases here.symm.trans here'
  cases parsed.symm.trans parsed'
  rw [stops] at stops'
  exact free y stops' leans.stuck

/-- A cell whose references all mean something means something. -/
theorem means_of_value {text : Option String} {e : Expr} {v : Option Value × Generator}
    (here : F x = some text) (parsed : Formula.parse text = .ok e)
    (value : (ideal sim roomOf F x text e).1 = .ok v) :
    ∃ a, v.1 = some a ∧ Denotes sim roomOf F x (.ok a) := by
  have ends := ideal_ends sim roomOf F x text e
  rw [value] at ends
  obtain ⟨⟨a, same, -⟩, valued⟩ := ends
  refine ⟨a, same, .evaluated here parsed (fun name mem there => denotes_meant ?_) ?_⟩
  · obtain ⟨b, answer⟩ := valued name mem
    exact by_contra fun none => answers_meant_stuck there none b answer
  · rw [ideal, Formula.evaluateTracking_fst] at value
    rw [value]
    obtain ⟨a', g⟩ := v
    cases same
    exact .value a g

/-- The formula of a cell that means something has a value or stops with the fault that it means. -/
theorem means_of_fault {text : Option String} {e : Expr} {f : Fault} {r : Result}
    (here : F x = some text) (parsed : Formula.parse text = .ok e)
    (fault : (ideal sim roomOf F x text e).1 = .error (.fault f))
    (means : Denotes sim roomOf F x r) : Denotes sim roomOf F x (.error f) := by
  refine .evaluated here parsed (fun name mem there => denotes_meant ?_) ?_
  · exact means.of_refers ⟨text, e, here, parsed, mem⟩ there
  · rw [ideal, Formula.evaluateTracking_fst] at fault
    rw [fault]
    exact .fault f

/-- A stuck cell leans on another one, or ends with a fault. -/
theorem Stuck.cases (h : Stuck sim roomOf F x) :
    (∃ y, Leans sim roomOf F x y) ∨ ∃ f, EndsWith sim roomOf F x f := by
  obtain ⟨text, here⟩ := Option.isSome_iff_exists.1 h.1
  cases parsed : Formula.parse text with
  | error err => exact (h.2 ⟨_, .malformed here parsed⟩).elim
  | ok e =>
    rcases out : ideal sim roomOf F x text e with ⟨stop | v, kept⟩
    · by_cases leans : ∃ y, kept = some y ∧ Stuck sim roomOf F y
      · obtain ⟨y, rfl, stuck⟩ := leans
        exact .inl ⟨y, stuck, text, e, here, parsed, by rw [out]⟩
      · have ends := ideal_ends sim roomOf F x text e
        rw [out] at ends
        cases stop with
        | missing => exact ends.elim
        | fault f =>
          exact .inr ⟨f, h, text, e, kept, here, parsed, out, fun y same stuck =>
            leans ⟨y, same, stuck⟩⟩
    · obtain ⟨a, -, means⟩ := means_of_value here parsed (v := v) (by rw [out])
      exact (h.2 ⟨_, means⟩).elim

/-! ### Evaluations that stop at the same place -/

section
variable (sim : Simulation) (roomOf : Expr → Nat) (F : Formulas)

/-- The endings that do not depend on stuck cells. -/
inductive Direct (x : String) : Ending → Prop where
  | means {r : Result} {ending : Ending} (means : Denotes sim roomOf F x r)
      (right : RightEnding sim roomOf F x ending) : Direct x ending
  | ends {f : Fault} (ends : EndsWith sim roomOf F x f) : Direct x (.failed f)

end

theorem Direct.right {ending : Ending} (h : Direct sim roomOf F x ending) :
    RightEnding sim roomOf F x ending := by
  cases h with
  | means _ right => exact right
  | ends ends => exact .stuck fun r means => ends.stuck.2 ⟨r, means⟩

section
variable {bring : Refresh} {I : Progress → Prop} {T : String → Fault → Progress → Prop}
  {room : Nat} {id : String} {p : Progress} {before : Cell}

/-- The stop of an evaluation goes together with the one of the ideal evaluation: it is the same one
and keeps `I`, or it is a fault with `T` where both have come to a stuck cell. -/
def StopsWith (sim : Simulation) (roomOf : Expr → Nat) (F : Formulas) (I : Progress → Prop)
    (T : String → Fault → Progress → Prop) (a : Stop) (q : Progress) (b : Stop)
    (kept : Option String) : Prop :=
  (¬ (∃ name, kept = some name ∧ Stuck sim roomOf F name) → a = b ∧ I q) ∧
    ∀ name, kept = some name → Stuck sim roomOf F name → ∃ f, a = .fault f ∧ T name f q

/-- A reference goes together with the result that is meant. -/
theorem reference_tracks {name : String} {r : Nat} {q : Progress}
    (calm : ¬ Stuck sim roomOf F name →
      Reads sim roomOf F name (reference sim.count bring r name q).1 ∧
        I (reference sim.count bring r name q).2)
    (stops : Stuck sim roomOf F name →
      ∃ f, (reference sim.count bring r name q).1 = .error (.fault f) ∧
        T name f (reference sim.count bring r name q).2) (r' : Nat) :
    Match (fun q kept => I q ∧ kept = none) (StopsWith sim roomOf F I T)
      (reference sim.count bring r name q)
      (Formula.tracking (F.answers (meant sim roomOf F)) r' name none) := by
  rw [Formula.tracking]
  by_cases stuck : Stuck sim roomOf F name
  · obtain ⟨f, fault, after⟩ := stops stuck
    obtain ⟨stop, answer⟩ := stuck.answers
    rw [answer]
    generalize reference sim.count bring r name q = out at fault after ⊢
    obtain ⟨a | v, q'⟩ := out
    · refine ⟨fun free => (free ⟨name, rfl, stuck⟩).elim, fun other same _ => ?_⟩
      cases same
      exact ⟨f, Except.error.inj fault, after⟩
    · cases fault
  · obtain ⟨reads, kept⟩ := calm stuck
    have same := (reads.agree (E := Eq) (fun _ => rfl)
      (.inl fun there => by_contra fun none => stuck ⟨there, none⟩)).eq
    rw [← same]
    generalize reference sim.count bring r name q = out at kept ⊢
    obtain ⟨a | v, q'⟩ := out
    · refine ⟨fun _ => ⟨rfl, kept⟩, fun other same stuck' => ?_⟩
      cases same
      exact (stuck stuck').elim
    · exact ⟨rfl, kept, rfl⟩

/-- If references that are not stuck read rightly and keep `I`, and stuck ones give a fault and
`T`, then a reevaluation ends directly with `I`, or it ends with the fault of the cell on which it
leans, with `T`. -/
theorem reevaluateWith_tracks (here : p.sheet.get? id = some before)
    (formula : F id = some before.formula) (faithful : before.Faithful)
    (start : I (p.onSheet (Sheet.begun · id before)))
    (fit : ∀ e, Formula.parse before.formula = .ok e → Fit e.height room (roomOf e))
    (refs : ∀ e, Formula.parse before.formula = .ok e → ∀ name ∈ e.references, ∀ r,
      room ≤ r + e.height → ∀ q, I q →
        (¬ Stuck sim roomOf F name →
          Reads sim roomOf F name (reference sim.count bring r name q).1 ∧
            I (reference sim.count bring r name q).2) ∧
        (Stuck sim roomOf F name →
          ∃ f, (reference sim.count bring r name q).1 = .error (.fault f) ∧
            T name f (reference sim.count bring r name q).2)) :
    ∃ (q : Progress) (ending : Ending),
      reevaluateWith sim bring room id p = conclude id before ending.apply q ∧
        (I q ∧ Direct sim roomOf F id ending ∨
          ∃ name f, Leans sim roomOf F id name ∧ ending = .failed f ∧ T name f q) := by
  rw [reevaluateWith_eq sim bring room here, faithful]
  cases parsed : Formula.parse before.formula with
  | error err =>
    have means : Denotes sim roomOf F id (.error (.own (.malformed err))) :=
      .malformed formula parsed
    exact ⟨_, .failed _, rfl, .inl ⟨start, .means means (.fault means)⟩⟩
  | ok e =>
    dsimp only
    have coupled : Referred (fun q kept => I q ∧ kept = none) (StopsWith sim roomOf F I T)
        (reference sim.count bring) (Formula.tracking (F.answers (meant sim roomOf F))) e.height
        room (roomOf e) e.references := by
      rintro name mem r₁ r₂ left _ q _ ⟨hq, rfl⟩
      obtain ⟨calm, stops⟩ := refs e parsed name mem r₁ left q hq
      exact reference_tracks calm stops r₂
    have stops : ∀ a q kept, I q ∧ kept = none → StopsWith sim roomOf F I T a q a kept := by
      rintro a q _ ⟨hq, rfl⟩
      exact ⟨fun _ => ⟨rfl, hq⟩, fun name same => by cases same⟩
    have both : Match (fun q kept => I q ∧ kept = none) (StopsWith sim roomOf F I T)
        (Formula.evaluate (reference sim.count bring) sim.count room e
          (sim.source.generatorFor [id, before.formula.getD ""])
          (p.onSheet (Sheet.begun · id before))) (ideal sim roomOf F id before.formula e) :=
      Formula.evaluate_coupled stops e (fit e parsed) coupled _ _ none ⟨start, rfl⟩
    have ends := ideal_ends sim roomOf F id before.formula e
    rcases out : ideal sim roomOf F id before.formula e with ⟨b | ⟨v, g'⟩, kept⟩ <;>
      rw [out] at both ends <;>
      generalize Formula.evaluate _ _ _ _ _ _ = result at both ⊢ <;>
      obtain ⟨a | ⟨w, g⟩, q⟩ := result
    · by_cases leans : ∃ name, kept = some name ∧ Stuck sim roomOf F name
      · obtain ⟨name, rfl, stuck⟩ := leans
        obtain ⟨f, rfl, after⟩ := both.2 name rfl stuck
        exact ⟨q, .failed f, rfl, .inr ⟨name, f,
          ⟨stuck, before.formula, e, formula, parsed, by rw [out]⟩, rfl, after⟩⟩
      · obtain ⟨rfl, hq⟩ := both.1 leans
        cases a with
        | missing => exact ends.elim
        | fault f =>
          refine ⟨q, .failed f, rfl, .inl ⟨hq, ?_⟩⟩
          by_cases means : ∃ r, Denotes sim roomOf F id r
          · obtain ⟨r, means⟩ := means
            have fault := means_of_fault formula parsed (by rw [out]) means
            exact .means fault (.fault fault)
          · exact .ends ⟨⟨by rw [formula]; rfl, means⟩, before.formula, e, kept, formula, parsed,
              out, fun name same stuck => leans ⟨name, same, stuck⟩⟩
    · exact both.elim
    · exact both.elim
    · obtain ⟨same, hq, -⟩ := both
      cases same
      obtain ⟨value, rfl, means⟩ := means_of_value formula parsed (v := (v, g')) (by rw [out])
      exact ⟨q, _, rfl, .inl ⟨hq, .means means (.value formula parsed means)⟩⟩

/-- If references read rightly and keep `I`, a reevaluation gives the cell a right ending in a
state with `I`. -/
theorem reevaluateWith_ends (here : p.sheet.get? id = some before)
    (formula : F id = some before.formula) (faithful : before.Faithful)
    (start : I (p.onSheet (Sheet.begun · id before)))
    (fit : ∀ e, Formula.parse before.formula = .ok e → Fit e.height room (roomOf e))
    (refs : ∀ e, Formula.parse before.formula = .ok e → ∀ name ∈ e.references, ∀ r,
      room ≤ r + e.height → ∀ q, I q →
        Reads sim roomOf F name (reference sim.count bring r name q).1 ∧
          I (reference sim.count bring r name q).2) :
    ∃ q ending, I q ∧ RightEnding sim roomOf F id ending ∧
      reevaluateWith sim bring room id p = conclude id before ending.apply q := by
  obtain ⟨q, ending, ends, ⟨kept, direct⟩ | ⟨name, f, leans, rfl, kept⟩⟩ :=
    reevaluateWith_tracks (T := fun _ _ q => I q) here formula faithful start fit
      fun e parsed name mem r left q hq => by
        obtain ⟨reads, kept⟩ := refs e parsed name mem r left q hq
        refine ⟨fun _ => ⟨reads, kept⟩, fun stuck => ?_⟩
        obtain ⟨f, fault⟩ := reads.stuck stuck.1 fun r means => stuck.2 ⟨r, means⟩
        exact ⟨f, fault, kept⟩
  · exact ⟨q, ending, kept, direct.right, ends⟩
  · exact ⟨q, _, kept, .stuck fun r means => leans.stuck_left.2 ⟨r, means⟩, ends⟩

end

end MonteCarloSheet
