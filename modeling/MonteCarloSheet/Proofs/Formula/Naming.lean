import Mathlib.Data.List.TakeWhile
import MonteCarloSheet.Proofs.Formula.Lexing
import MonteCarloSheet.Proofs.Formula.Parsing

/-! The names in a formula.

A name is a run of letters, digits and underscores, and a reference in the tree of a
formula is one of the names among its tokens. So a name that a formula refers to has
no quotation mark, and a message that quotes it can be read in one way only
(`unquoted_of_parse`). -/
namespace MonteCarloSheet.Formula

/-- All characters of the text can stand in a name. -/
def IsName (name : String) : Prop :=
  ∀ c ∈ name.toList, isNamePart c = true

theorem IsName.unquoted {name : String} (h : IsName name) : '\'' ∉ name.toList :=
  fun mem => absurd (h _ mem) (by decide)

/-! ### Names among the tokens -/

/-- What is taken for a name at the head of a text is one. -/
theorem isNamePart_of_mem_take {cs : List Char} {c : Char} (mem : c ∈ cs.take (nameLength cs)) :
    isNamePart c = true := by
  cases cs with
  | nil => cases mem
  | cons first rest =>
    rw [nameLength] at mem
    split at mem
    next start =>
      rw [Nat.add_comm, List.take_succ_cons] at mem
      rcases List.mem_cons.1 mem with rfl | mem
      · exact isNamePart_of_start start
      · rw [← List.prefix_iff_eq_take.1 (List.takeWhile_prefix isNamePart)] at mem
        exact List.mem_takeWhile_imp mem
    next => cases mem

theorem isName_of_lexeme {cs : List Char} {name : String} {length : Nat}
    (read : lexeme? cs = some (.name name, length)) : IsName name := by
  rw [lexeme?] at read
  split at read
  · cases read
  · split at read
    · rw [wordOf] at read
      split at read
      · cases read
      · cases read
        rw [IsName, String.toList_ofList]
        exact fun c mem => isNamePart_of_mem_take mem
    · obtain ⟨lexeme, sign, same⟩ := Option.map_eq_some_iff.1 read
      cases same
      obtain ⟨c, -, sign⟩ := Option.bind_eq_some_iff.1 sign
      rw [signOf.eq_def] at sign
      split at sign <;> cases sign

/-- Every name among the tokens of a text is one. -/
theorem isName_of_tokensFrom {position : Nat} {cs : List Char} {ts : List Token}
    (read : tokensFrom position cs = .ok ts) {name : String} {p : Nat}
    (mem : ⟨.name name, p⟩ ∈ ts) : IsName name := by
  have lexes := lexes_of_tokensFrom read
  clear read
  induction lexes with
  | nil => cases mem
  | blank _ _ ih => exact ih mem
  | token solid found undotted further ih =>
    rcases List.mem_cons.1 mem with same | mem
    · cases same
      exact isName_of_lexeme found
    · exact ih mem

/-! ### Names in the tree -/

mutual

/-- What the tree refers to is a name among the tokens from which it is derived. -/
theorem Derives.mem_tokens {part : Part} {n : Nat} {ts : List Token} {e : Expr} {name : String} :
    Derives part n ts e → name ∈ e.references → ∃ p, ⟨.name name, p⟩ ∈ ts
  | .range left right, mem | .sum _ left right, mem | .product _ left right, mem
  | .power left right, mem => by
    rcases List.mem_append.1 mem with mem | mem
    · obtain ⟨p, mem⟩ := left.mem_tokens mem
      exact ⟨p, List.mem_append_left _ mem⟩
    · obtain ⟨p, mem⟩ := right.mem_tokens mem
      exact ⟨p, List.mem_append_right _ (List.mem_cons_of_mem _ mem)⟩
  | .ofSum h, mem | .ofProduct h, mem | .ofNegation h, mem | .ofPower h, mem | .ofAtom h, mem =>
    h.mem_tokens mem
  | .negation operand, mem => by
    obtain ⟨p, mem⟩ := operand.mem_tokens mem
    exact ⟨p, List.mem_cons_of_mem _ mem⟩
  | .number, mem => by cases mem
  | .reference, mem => by
    cases List.mem_singleton.1 mem
    exact ⟨_, List.mem_singleton_self _⟩
  | .emptyCall, mem => by cases mem
  | .call arguments, mem => by
    obtain ⟨p, mem⟩ := arguments.mem_tokens mem
    exact ⟨p, List.mem_cons_of_mem _ (List.mem_cons_of_mem _ (List.mem_append_left _ mem))⟩
  | .parentheses inside, mem => by
    obtain ⟨p, mem⟩ := inside.mem_tokens mem
    exact ⟨p, List.mem_cons_of_mem _ (List.mem_append_left _ mem)⟩

theorem DerivesAll.mem_tokens {n : Nat} {ts : List Token} {es : List Expr} {name : String} :
    DerivesAll n ts es → name ∈ Expr.referencesOfAll es → ∃ p, ⟨.name name, p⟩ ∈ ts
  | .last h, mem => h.mem_tokens ((List.mem_append.1 mem).resolve_right List.not_mem_nil)
  | .more first rest, mem => by
    rcases List.mem_append.1 mem with mem | mem
    · obtain ⟨p, mem⟩ := first.mem_tokens mem
      exact ⟨p, List.mem_append_left _ mem⟩
    · obtain ⟨p, mem⟩ := rest.mem_tokens mem
      exact ⟨p, List.mem_append_right _ (List.mem_cons_of_mem _ mem)⟩

end

/-- What is read from a text is derived from its tokens. -/
theorem derives_of_parse {text : String} {e : Expr} (parsed : parse (some text) = .ok e) :
    ∃ ts, tokens text = .ok ts ∧ Derives .range Parser.levels ts e := by
  rw [parse] at parsed
  split at parsed
  · cases parsed
  · split at parsed
    · cases parsed
    next ts read =>
      split at parsed
      · cases parsed
      next e' derived =>
        cases parsed
        obtain ⟨taken, same, derives⟩ := Parser.range_sound (Parser.within_sound Parser.levels)
          _ _ _ (Parser.ofTokens_eq_ok.1 derived)
        rw [List.append_nil] at same
        exact ⟨ts, read, same ▸ derives⟩

/-- No name that a formula refers to has a quotation mark. -/
theorem unquoted_of_parse {text : Option String} {e : Expr} (parsed : parse text = .ok e)
    {name : String} (mem : name ∈ e.references) : '\'' ∉ name.toList := by
  cases text with
  | none => cases parsed
  | some text =>
    obtain ⟨ts, read, derives⟩ := derives_of_parse parsed
    obtain ⟨p, mem⟩ := derives.mem_tokens mem
    exact (isName_of_tokensFrom read mem).unquoted

end MonteCarloSheet.Formula
