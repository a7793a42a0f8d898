import Mathlib.Data.List.Pairwise
import MonteCarloSheet.Proofs.Formula.Spelling

/-! The lexer loses nothing.

The tokens of a text are its longest lexemes, one behind another, and what is between them
is blank (`Tokenized`). One step of the lexer keeps this, over a blank as over a lexeme, and
so does a run, whether it comes to the end of the text or to a place where it is stuck. A
stuck lexer has found the tokens of the text before that place. Blanks that are put between
two tokens change only positions, as a lexeme stays the same in front of a blank. -/
namespace MonteCarloSheet.Formula

/-! ### Tokens and their places -/

/-- The place is one of a character of the token's lexeme. -/
def Token.Covers (cs : List Char) (token : Token) (i : Nat) : Prop :=
  ∃ word, LongestAt (cs.drop token.position) token.lexeme word ∧
    token.position ≤ i ∧ i < token.position + word.length

/-- The tokens are those of the text from one place to another. -/
structure Tokenized (cs : List Char) (first : Nat) (ts : List Token) (stop : Nat) : Prop where
  rising : (ts.map Token.position ++ [stop]).Pairwise (· < ·)
  behind : ∀ token ∈ ts, first ≤ token.position
  longest : ∀ token ∈ ts, ∃ word, LongestAt (cs.drop token.position) token.lexeme word ∧
    ∀ x, token.lexeme = .number x → cs[token.position + word.length]? ≠ some '.'
  apart : ts.Pairwise fun token next => ∀ i, token.Covers cs i → i < next.position
  inside : ∀ token ∈ ts, ∀ i, token.Covers cs i → i < stop
  blank : ∀ i c, first ≤ i → i < stop → cs[i]? = some c → (∀ token ∈ ts, ¬ token.Covers cs i) →
    Text.isBlank c = true

/-- What is wrong with a text at whose head the lexer is stuck. -/
inductive Rejects : List Char → Malformation → Prop where
  | unrecognized {c rest} (solid : Text.isBlank c = false)
      (nothing : ∀ word lexeme, Spells word lexeme → ¬ word <+: c :: rest) :
      Rejects (c :: rest) (.unrecognized c)
  | malformedNumber {cs x word} (number : LongestAt cs (.number x) word)
      (dotted : cs[word.length]? = some '.') : Rejects cs (.malformedNumber (word ++ ['.']))

section

variable {cs : List Char} {first stop length : Nat} {lexeme : Lexeme} {ts : List Token}

theorem covers_iff (token : Token)
    (found : lexeme? (cs.drop token.position) = some (token.lexeme, length)) {i : Nat} :
    token.Covers cs i ↔ token.position ≤ i ∧ i < token.position + length := by
  constructor
  · rintro ⟨word, longest, le, lt⟩
    obtain ⟨-, rfl⟩ := Prod.mk.inj (Option.some.inj (found.symm.trans longest.lexeme?_eq))
    exact ⟨le, lt⟩
  · rintro ⟨le, lt⟩
    refine ⟨_, longestAt_of_lexeme? found, le, ?_⟩
    rwa [List.length_take, Nat.min_eq_left (lexeme?_fits found).2]

theorem numberLength_of_number {x : Float} (found : lexeme? cs = some (.number x, length)) :
    numberLength cs = length := by
  rw [lexeme?] at found
  split at found
  next => exact (Prod.mk.inj (Option.some.inj found)).2
  next =>
    split at found
    next =>
      have word := (Prod.mk.inj (Option.some.inj found)).1
      rw [wordOf] at word
      split at word <;> cases word
    next =>
      obtain ⟨sign, is, same⟩ := Option.map_eq_some_iff.1 found
      obtain ⟨rfl, -⟩ := Prod.mk.inj same
      obtain ⟨c, -, is⟩ := Option.bind_eq_some_iff.1 is
      rw [signOf.eq_def] at is
      split at is <;> cases is

theorem point_of_isDotted (found : lexeme? cs = some (lexeme, length))
    (dotted : isDotted length cs = true) :
    (∃ x, lexeme = .number x) ∧ cs[length]? = some '.' := by
  obtain ⟨number, point⟩ := Bool.and_eq_true_iff.1 dotted
  refine ⟨?_, of_decide_eq_true point⟩
  have some : numberLength cs ≠ 0 := by
    rw [of_decide_eq_true number]
    exact Nat.ne_of_gt (lexeme?_fits found).1
  rw [lexeme?, if_pos some] at found
  exact ⟨_, (Prod.mk.inj (Option.some.inj found)).1.symm⟩

theorem pointless_of_undotted (found : lexeme? cs = some (lexeme, length))
    (undotted : isDotted length cs = false) {x : Float} (number : lexeme = .number x) :
    cs[length]? ≠ some '.' := by
  rw [number] at found
  rw [isDotted, numberLength_of_number found, decide_eq_true rfl, Bool.true_and] at undotted
  exact of_decide_eq_false undotted

/-! ### Steps of the lexer -/

theorem Tokenized.over_blank {c : Char} {rest : List Char} (h : Tokenized cs (first + 1) ts stop)
    (here : cs.drop first = c :: rest) (blank : Text.isBlank c = true) :
    Tokenized cs first ts stop where
  __ := h
  behind token mem := Nat.le_of_succ_le (h.behind token mem)
  blank i c' le lt at_i free := by
    obtain rfl | gt := Nat.eq_or_lt_of_le le
    · rw [← Nat.add_zero first, ← List.getElem?_drop, here] at at_i
      cases at_i
      exact blank
    · exact h.blank i c' gt lt at_i free

theorem Tokenized.over_lexeme (h : Tokenized cs (first + length) ts stop)
    (found : lexeme? (cs.drop first) = some (lexeme, length))
    (undotted : isDotted length (cs.drop first) = false) (le : first + length ≤ stop) :
    Tokenized cs first (⟨lexeme, first⟩ :: ts) stop := by
  have pos := (lexeme?_fits found).1
  have covers : ∀ i, (Token.mk lexeme first).Covers cs i ↔ first ≤ i ∧ i < first + length :=
    fun i => covers_iff _ found
  constructor
  case rising =>
    refine List.pairwise_cons.2 ⟨fun place mem => ?_, h.rising⟩
    suffices first + length ≤ place from Nat.lt_of_lt_of_le (Nat.lt_add_of_pos_right pos) this
    obtain mem | mem := List.mem_append.1 mem
    · obtain ⟨token, later, rfl⟩ := List.mem_map.1 mem
      exact h.behind token later
    · obtain rfl := List.mem_singleton.1 mem
      exact le
  case behind =>
    rintro token (_ | ⟨_, mem⟩)
    · exact Nat.le_refl _
    · exact Nat.le_of_add_right_le (h.behind token mem)
  case longest =>
    rintro token (_ | ⟨_, mem⟩)
    · refine ⟨_, longestAt_of_lexeme? found, fun x number => ?_⟩
      rw [List.length_take, Nat.min_eq_left (lexeme?_fits found).2, ← List.getElem?_drop]
      exact pointless_of_undotted found undotted number
    · exact h.longest token mem
  case apart =>
    refine List.pairwise_cons.2 ⟨fun next mem i covered => ?_, h.apart⟩
    exact Nat.lt_of_lt_of_le ((covers i).1 covered).2 (h.behind next mem)
  case inside =>
    rintro token (_ | ⟨_, mem⟩) i covered
    · exact Nat.lt_of_lt_of_le ((covers i).1 covered).2 le
    · exact h.inside token mem i covered
  case blank =>
    intro i c ge lt at_i free
    have outside : ¬ (first ≤ i ∧ i < first + length) := fun inside =>
      free _ List.mem_cons_self ((covers i).2 inside)
    exact h.blank i c (by omega) lt at_i fun token mem => free token (List.mem_cons_of_mem _ mem)

end

/-! ### Runs of the lexer -/

section

variable {cs all : List Char} {position k : Nat} {ts : List Token}

theorem drop_add (here : all.drop position = cs) : all.drop (position + k) = cs.drop k := by
  rw [← List.drop_drop, here]

theorem Finds.tokenized (h : Finds position cs ts k) (here : all.drop position = cs) :
    Tokenized all position ts (position + k) := by
  induction h with
  | stop =>
    exact ⟨List.pairwise_singleton .., nofun, nofun, .nil, nofun, fun i c ge lt => by omega⟩
  | @blank position c rest ts k blank _ ih =>
    have rest := ih (drop_add here)
    rw [Nat.add_right_comm] at rest
    exact rest.over_blank here blank
  | @token position c rest lexeme length ts k _ found undotted _ ih =>
    have rest := ih (drop_add here)
    rw [Nat.add_assoc] at rest
    rw [← here] at found undotted
    exact rest.over_lexeme found undotted (by omega)

theorem Finds.lexes (h : Finds position cs ts k) : Lexes position (cs.take k) ts := by
  have cut := h.append apart_nil .nil
  rwa [List.append_nil, List.append_nil] at cut

/-- Where no token is cut, the tokens before a place are found, and those behind it are the tokens
of the text from there on. -/
theorem Lexes.split_at (h : Lexes position cs ts) (here : all.drop position = cs)
    (le : k ≤ cs.length) (between : ∀ token ∈ ts, position + k ≤ token.position ∨
      ∀ i, token.Covers all i → i < position + k) :
    ∃ before rest, ts = before ++ rest ∧ Finds position cs before k ∧
      Lexes (position + k) (cs.drop k) rest := by
  induction h generalizing k with
  | nil =>
    obtain rfl := Nat.le_zero.1 le
    exact ⟨[], [], rfl, .stop, .nil⟩
  | @blank position c rest ts blank further ih =>
    cases k with
    | zero => exact ⟨[], ts, rfl, .stop, .blank blank further⟩
    | succ k =>
      have moved : position + 1 + k = position + (k + 1) := by omega
      obtain ⟨before, behind, rfl, finds, lexes⟩ := ih (drop_add here) (Nat.le_of_succ_le_succ le)
        (by rwa [moved])
      rw [moved] at lexes
      exact ⟨before, behind, rfl, .blank blank finds, lexes⟩
  | @token position c rest lexeme length ts solid found undotted further ih =>
    by_cases none : k = 0
    · obtain rfl := none
      exact ⟨[], _, rfl, .stop, .token solid found undotted further⟩
    · have pos := (lexeme?_fits found).1
      have covered : Token.Covers all ⟨lexeme, position⟩ (position + (length - 1)) := by
        rw [← here] at found
        exact (covers_iff ⟨lexeme, position⟩ found).2 (by dsimp only; omega)
      obtain before | passed := between _ List.mem_cons_self
      · dsimp only at before
        omega
      · have last := passed _ covered
        obtain ⟨k, rfl⟩ := Nat.exists_eq_add_of_le (show length ≤ k by omega)
        have fits : k ≤ ((c :: rest).drop length).length := by rw [List.length_drop]; omega
        obtain ⟨before, behind, rfl, finds, lexes⟩ := ih (drop_add here) fits fun token mem => by
          rw [Nat.add_assoc]
          exact between token (List.mem_cons_of_mem _ mem)
        rw [Nat.add_assoc, List.drop_drop] at lexes
        exact ⟨_, behind, rfl, .token solid found undotted finds, lexes⟩

/-- The same text at another place has the same lexemes. -/
theorem Lexes.moved (h : Lexes position cs ts) (place : Nat) :
    ∃ us, Lexes place cs us ∧ us.map Token.lexeme = ts.map Token.lexeme := by
  induction h generalizing place with
  | nil => exact ⟨[], .nil, rfl⟩
  | blank blank _ ih =>
    obtain ⟨us, lexes, same⟩ := ih (place + 1)
    exact ⟨us, .blank blank lexes, same⟩
  | @token position c rest lexeme length ts solid found undotted _ ih =>
    obtain ⟨us, lexes, same⟩ := ih (place + length)
    refine ⟨⟨lexeme, place⟩ :: us, .token solid found undotted lexes, ?_⟩
    rw [List.map_cons, List.map_cons, same]

theorem Lexes.after_blanks {blanks : List Char} (all : ∀ c ∈ blanks, Text.isBlank c = true)
    (h : Lexes (position + blanks.length) cs ts) : Lexes position (blanks ++ cs) ts := by
  induction blanks generalizing position with
  | nil => exact h
  | cons c blanks ih =>
    rw [List.length_cons, Nat.add_comm _ 1, ← Nat.add_assoc] at h
    exact .blank (all c List.mem_cons_self)
      (ih (fun d mem => all d (List.mem_cons_of_mem _ mem)) h)

/-- Blanks where no token is cut change no lexeme. -/
theorem Lexes.insert (h : Lexes 0 cs ts) (le : k ≤ cs.length)
    (between : ∀ token ∈ ts, k ≤ token.position ∨ ∀ i, token.Covers cs i → i < k)
    {blanks : List Char} (all : ∀ c ∈ blanks, Text.isBlank c = true) :
    ∃ us, Lexes 0 (cs.take k ++ blanks ++ cs.drop k) us ∧
      us.map Token.lexeme = ts.map Token.lexeme := by
  cases blanks with
  | nil => exact ⟨ts, by rwa [List.append_nil, List.take_append_drop], rfl⟩
  | cons c blanks =>
    rw [← Nat.zero_add k] at between
    obtain ⟨before, rest, rfl, finds, lexes⟩ := h.split_at rfl le between
    obtain ⟨us, moved, same⟩ := lexes.moved (0 + k + (c :: blanks).length)
    refine ⟨before ++ us, ?_, by rw [List.map_append, same, List.map_append]⟩
    rw [List.append_assoc]
    exact finds.append (apart_cons (all c List.mem_cons_self)) (.after_blanks all moved)

/-- An error is at the place where the lexer is stuck. -/
theorem finds_of_tokensFrom_error {err : SyntaxError}
    (failed : tokensFrom position cs = .error err) : ∃ k found, Finds position cs found k ∧
      err.position = some (position + k) ∧ err.fragment = String.ofList (cs.drop k) ∧
      Rejects (cs.drop k) err.reason := by
  induction position, cs using tokensFrom.induct with
  | case1 position =>
    rw [tokensFrom] at failed
    cases failed
  | case2 position c rest blank ih =>
    rw [tokensFrom, if_pos blank] at failed
    obtain ⟨k, found, finds, place, fragment, stuck⟩ := ih failed
    rw [Nat.add_right_comm] at place
    exact ⟨k + 1, found, .blank blank finds, place, fragment, stuck⟩
  | case3 position c rest solid none =>
    rw [tokensFrom, if_neg solid, none] at failed
    cases failed
    exact ⟨0, [], .stop, rfl, rfl,
      .unrecognized (eq_false_of_ne_true solid) (lexeme?_eq_none_iff.1 none)⟩
  | case4 position c rest solid lexeme length taken dotted =>
    rw [tokensFrom, if_neg solid, taken] at failed
    dsimp only at failed
    rw [if_pos dotted] at failed
    cases failed
    obtain ⟨⟨x, rfl⟩, point⟩ := point_of_isDotted taken dotted
    have fits : ((c :: rest).take length).length = length := by
      rw [List.length_take, Nat.min_eq_left (lexeme?_fits taken).2]
    have stuck := Rejects.malformedNumber (longestAt_of_lexeme? taken) (by rwa [fits])
    refine ⟨0, [], .stop, rfl, rfl, ?_⟩
    rw [List.take_add_one, point]
    exact stuck
  | case5 position c rest solid lexeme length taken undotted err' further ih =>
    rw [tokensFrom, if_neg solid, taken] at failed
    dsimp only at failed
    rw [if_neg undotted, further] at failed
    cases failed
    obtain ⟨k, found, finds, place, fragment, stuck⟩ := ih further
    obtain ⟨length, rfl⟩ := Nat.exists_eq_succ_of_ne_zero (Nat.ne_of_gt (lexeme?_fits taken).1)
    rw [Nat.succ_sub_one, List.drop_drop, ← List.drop_succ_cons (a := c),
      ← Nat.add_right_comm] at fragment stuck
    exact ⟨_, _, .token (eq_false_of_ne_true solid) taken (eq_false_of_ne_true undotted) finds,
      place.trans (by rw [Nat.add_assoc]), fragment, stuck⟩
  | case6 position c rest solid lexeme length taken undotted others further ih =>
    rw [tokensFrom, if_neg solid, taken] at failed
    dsimp only at failed
    rw [if_neg undotted, further] at failed
    cases failed

end

/-- A text that has tokens consists of them and of blanks, each token being the longest lexeme at
its position, and keeps their lexemes with further blanks between them. The lexer is stuck with any
other text at the position of the error, behind the tokens of the text before: no lexeme or blank is
there, or a number with a point behind it. -/
theorem tokens_lossless (text : String) :
    match tokens text with
    | .ok found => Tokenized text.toList 0 found text.length ∧
        ∀ k blanks, k ≤ text.length → (∀ c ∈ blanks, Text.isBlank c = true) →
          (∀ token ∈ found, k ≤ token.position ∨ ∀ i, token.Covers text.toList i → i < k) →
          ∃ moved,
            tokens (String.ofList (text.toList.take k ++ blanks ++ text.toList.drop k)) =
              .ok moved ∧
            moved.map Token.lexeme = found.map Token.lexeme
    | .error err => ∃ p found, err.position = some p ∧
        err.fragment = String.ofList (text.toList.drop p) ∧
        Rejects (text.toList.drop p) err.reason ∧
        Finds 0 text.toList found p ∧ Tokenized text.toList 0 found p ∧
        tokens (String.ofList (text.toList.take p)) = .ok found := by
  split
  next found read =>
    have lexes := lexes_of_tokensFrom read
    have finds : Finds 0 text.toList found text.length :=
      lexes.finds (List.append_nil found).symm (Nat.zero_add _) (Nat.zero_add _).symm
    refine ⟨?_, fun k blanks le all between => ?_⟩
    · rw [← Nat.zero_add text.length]
      exact finds.tokenized rfl
    · obtain ⟨moved, lexes', same⟩ := lexes.insert le between all
      refine ⟨moved, ?_, same⟩
      rw [tokens, String.toList_ofList]
      exact lexes'.tokensFrom
  next err failed =>
    obtain ⟨p, found, finds, place, fragment, stuck⟩ := finds_of_tokensFrom_error failed
    have tokenized : Tokenized text.toList 0 found (0 + p) := finds.tokenized rfl
    rw [Nat.zero_add] at place tokenized
    refine ⟨p, found, place, fragment, stuck, finds, tokenized, ?_⟩
    rw [tokens, String.toList_ofList]
    exact finds.lexes.tokensFrom

end MonteCarloSheet.Formula
