import MonteCarloSheet.Proofs.Sheet.Description
import MonteCarloSheet.Proofs.Sheet.Locality

/-! Sheets made afresh.

A sheet that is made of definitions alone has their cells in their order
(`names_afresh`) and no links, so none is left from an older formula. If references
do not go round in a cycle, links do not either, and a recalculation brings the sheet to
rest, however little room there is (`afresh_rests`). What its cells are described by then
does not depend on the order of the definitions (`described_afresh`). -/
namespace MonteCarloSheet

namespace Sheet

/-- The cells of the definitions, before they are evaluated. -/
abbrev afresh (definitions : Roster (Option String)) : Sheet :=
  rewritten Roster.empty definitions Roster.empty

variable {definitions : Roster (Option String)}

theorem names_define_new {s : Sheet} {id : String} (new : id ∉ s.names)
    (formula name : Option String) : (s.define id formula name).names = s.names ++ [id] := by
  have absent : s.get? id = none := by
    simpa [Roster.contains] using mt Roster.contains_iff.1 new
  rw [define, absent]
  dsimp only
  rw [names_attach, Roster.names, Roster.entries_set_new absent, List.map_append]
  rfl

theorem names_afresh : (afresh definitions).names = definitions.names := by
  have go : ∀ (entries : List (String × Option String)) (s : Sheet),
      (s.names ++ entries.map Prod.fst).Nodup →
        (entries.foldl (fun s entry =>
            define s entry.1 entry.2 ((Roster.empty : Roster String).get? entry.1)) s).names =
          s.names ++ entries.map Prod.fst := by
    intro entries
    induction entries with
    | nil => exact fun s _ => (List.append_nil _).symm
    | cons entry rest ih =>
      intro s distinct
      have new : entry.1 ∉ s.names := fun mem =>
        (List.nodup_append.1 distinct).2.2 _ mem _ List.mem_cons_self rfl
      have names := names_define_new new entry.2 ((Roster.empty : Roster String).get? entry.1)
      rw [List.map_cons, List.append_cons, ← names] at distinct
      rw [List.foldl_cons, ih _ distinct, names, List.map_cons, ← List.append_cons]
  exact go definitions.entries Roster.empty definitions.distinct

theorem dependencies_afresh (x : String) : (afresh definitions).dependencies x = [] := by
  refine rewritten_keep (I := fun s => s.dependencies x = []) (fun s id c s' removed h => ?_)
    (fun s id formula name h => ?_) rfl definitions Roster.empty
  · exact List.eq_nil_of_subset_nil (h ▸ (Edit.remove removed).dependencies_subset x)
  · rw [dependencies_define]
    exact h

/-- Without a cycle of references there is no loop of links. -/
theorem not_onLoop_afresh (acyclic : Formulas.Acyclic definitions.get?) (x : String) :
    ¬ (afresh definitions).prepared.OnLoop x := by
  have reachable : (afresh definitions).Reachable := Reachable.empty.rewritten definitions _
  intro loop
  rw [← formulas_rewritten Roster.empty definitions Roster.empty] at acyclic
  refine acyclic x (Relation.TransGen.mono (fun a b link => ?_) x x loop)
  refine (refers_or_left reachable.faithful link).resolve_right fun ⟨_, old⟩ => ?_
  rw [dependencies_afresh] at old
  cases old

/-- Without a cycle of references a recalculation converges, and leaves the sheet at rest. -/
theorem afresh_rests (sim : Simulation) (acyclic : Formulas.Acyclic definitions.get?) :
    ((afresh definitions).recalculate sim).1.converged = true ∧
      AtRest sim (fun _ => sim.room) definitions.get? ((afresh definitions).recalculate sim).2 := by
  have reachable : (afresh definitions).Reachable := Reachable.empty.rewritten definitions _
  have fit := loopsFit_of_no_loops (not_onLoop_afresh acyclic) sim.room
  rw [← formulas_rewritten Roster.empty definitions Roster.empty] at acyclic ⊢
  obtain ⟨_, t, ends, -, rest, -⟩ := recalculate_rests reachable acyclic fit
    (keeps_trivial sim _ _) (fun _ _ _ => id) trivial
  rw [ends]
  exact ⟨rfl, rest⟩

/-- Where no references go round in a cycle, the order of the definitions does not matter for
what their cells are described by. -/
theorem described_afresh (sim : Simulation) {others : Roster (Option String)}
    (same : others.get? = definitions.get?) (acyclic : Formulas.Acyclic definitions.get?)
    (places : Int) (x : String) :
    ((afresh others).recalculate sim).2.described places x =
      ((afresh definitions).recalculate sim).2.described places x := by
  have other := (afresh_rests sim (same ▸ acyclic)).2
  rw [same] at other
  exact described_of_atRest other (afresh_rests sim acyclic).2 places x

end Sheet

end MonteCarloSheet
