import Mathlib.Data.List.TakeWhile
import MonteCarloSheet.CommandLine.Definition
import MonteCarloSheet.Proofs.Roster

/-! Definitions that are taken.

Of a definition only the name in front of the first equals sign and the formula behind it
count (`nameIn`, `formulaIn`), and it is malformed if there is no equals sign or a blank
name (`Malformed`). Reading definitions one after another takes all of them, in order,
unless one is malformed or two have the same name (`addDefinitions_ok_iff`). -/
namespace MonteCarloSheet.CommandLine

/-- What stands in front of the first equals sign. -/
def beforeSign (text : String) : List Char :=
  text.toList.takeWhile (· ≠ '=')

/-- The name that a definition gives, without the blanks around it. -/
def nameIn (text : String) : String :=
  String.ofList (Text.trimChars (beforeSign text))

/-- The formula that a definition gives, without the blanks around it. -/
def formulaIn (text : String) : String :=
  String.ofList (Text.trimChars ((text.toList.dropWhile (· ≠ '=')).drop 1))

/-- The name and the formula as a sheet takes them. -/
def entryIn (text : String) : String × Option String :=
  (nameIn text, some (formulaIn text))

/-- There is no equals sign, or only blanks in front of the first one. -/
def Malformed (text : String) : Prop :=
  '=' ∉ text.toList ∨ Text.isBlankText (beforeSign text) = true

instance (text : String) : Decidable (Malformed text) :=
  inferInstanceAs (Decidable (_ ∨ _))

theorem trimChars_eq_nil {cs : List Char} :
    Text.trimChars cs = [] ↔ Text.isBlankText cs = true := by
  rw [Text.isBlankText, List.all_eq_true, Text.trimChars, List.reverse_eq_nil_iff,
    List.dropWhile_eq_nil_iff]
  constructor
  · intro trailing
    rw [← List.dropWhile_eq_nil_iff]
    by_contra some_
    -- what is left does not begin with a blank
    have first := List.head_dropWhile_not Text.isBlank some_
    rw [trailing _ (List.mem_reverse.2 (List.head_mem some_))] at first
    cases first
  · intro blank c mem
    exact blank c ((List.dropWhile_sublist _).subset (List.mem_reverse.1 mem))

/-! ### One definition -/

theorem dropWhile_sign {text : String} :
    text.toList.dropWhile (· ≠ '=') = [] ↔ '=' ∉ text.toList := by
  rw [List.dropWhile_eq_nil_iff]
  constructor
  · intro other mem
    simpa using other '=' mem
  · intro absent c mem
    exact decide_eq_true fun same => absent (same ▸ mem)

theorem parse_of_malformed {text : String} (h : Malformed text) :
    Definition.parse text = .error (.malformed text) := by
  rw [Definition.parse]
  split
  · rfl
  next sign =>
    refine if_pos (trimChars_eq_nil.2 (h.resolve_left fun absent => ?_))
    rw [dropWhile_sign.2 absent] at sign
    cases sign

theorem parse_of_wellFormed {text : String} (h : ¬ Malformed text) :
    Definition.parse text = .ok ⟨nameIn text, formulaIn text⟩ := by
  obtain ⟨sign, named⟩ := not_or.1 h
  rw [Definition.parse, formulaIn]
  split
  next none => exact (sign (dropWhile_sign.1 none)).elim
  next behind =>
    rw [behind]
    exact if_neg fun none => named (trimChars_eq_nil.1 none)

/-! ### All definitions -/

/-- Definitions are added if all are well-formed and none gives a name that is given before or
there already; they follow what is there, in order. -/
theorem addDefinitions_ok_iff {formulas result : Roster (Option String)} {texts : List String} :
    addDefinitions formulas texts = .ok result ↔
      (∀ text ∈ texts, ¬ Malformed text) ∧ (formulas.names ++ texts.map nameIn).Nodup ∧
        result.entries = formulas.entries ++ texts.map entryIn := by
  induction texts generalizing formulas with
  | nil =>
    rw [addDefinitions, List.map_nil, List.append_nil, List.map_nil, List.append_nil]
    constructor
    · intro same
      cases same
      exact ⟨fun _ absurd => (by cases absurd), result.nodup_names, rfl⟩
    · rintro ⟨-, -, entries⟩
      exact congrArg _ (Roster.ext_entries entries.symm)
  | cons text rest ih =>
    rw [addDefinitions, List.forall_mem_cons]
    by_cases malformed : Malformed text
    · rw [parse_of_malformed malformed]
      exact ⟨fun absurd => (by cases absurd), fun h => (h.1.1 malformed).elim⟩
    rw [parse_of_wellFormed malformed, and_iff_right malformed]
    dsimp only
    by_cases known : formulas.contains (nameIn text) = true
    · rw [if_pos known]
      refine ⟨fun absurd => (by cases absurd), fun h => ?_⟩
      have apart := (List.nodup_append.1 h.2.1).2.2
      exact (apart _ (Roster.contains_iff.1 known) _ List.mem_cons_self rfl).elim
    · have new : formulas.get? (nameIn text) = none := by simpa [Roster.contains] using known
      have entries := Roster.entries_set_new new (some (formulaIn text))
      have names : (formulas.set (nameIn text) (some (formulaIn text))).names =
          formulas.names ++ [nameIn text] := by
        rw [Roster.names, entries, List.map_append]
        rfl
      rw [if_neg known, ih, names, entries, List.append_assoc, List.append_assoc]
      rfl

theorem exists_addDefinitions {texts : List String} (wellFormed : ∀ text ∈ texts, ¬ Malformed text)
    (distinct : (texts.map nameIn).Nodup) :
    ∃ formulas, addDefinitions Roster.empty texts = .ok formulas := by
  have names : (texts.map entryIn).map Prod.fst = texts.map nameIn := List.map_map
  exact ⟨⟨texts.map entryIn, names ▸ distinct⟩, addDefinitions_ok_iff.2 ⟨wellFormed, distinct, rfl⟩⟩

end MonteCarloSheet.CommandLine
