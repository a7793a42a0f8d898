import Mathlib
import MonteCarloSheet.Proofs.Formula.Naming

/-! The cells that tokens mention.

A name with a parenthesis right behind it is a function, any other one is a cell. So the
cells that a formula depends on can be read off its tokens (`dependencies_mentioned`):
by induction on the derivation, the names that no parenthesis follows are the references
of the tree, in the same order (`Derives.referred_eq`). They can also be collected from
the tree with a stack of the parts that are still to be looked at (`Expr.mem_collect`). -/
namespace MonteCarloSheet.Formula

/-! ### Names that no parenthesis follows -/

/-- The tokens behind a name begin with a parenthesis, which makes it a function. -/
def called : List Token → Bool
  | ⟨.opening, _⟩ :: _ => true
  | _ => false

/-- The names that no parenthesis follows, in reading order. -/
def referred : List Token → List String
  | [] => []
  | ⟨.name name, _⟩ :: rest => if called rest then referred rest else name :: referred rest
  | _ :: rest => referred rest

/-- The name stands among the tokens without a parenthesis right behind it. -/
def Mentioned (name : String) (ts : List Token) : Prop :=
  ∃ before p rest, ts = before ++ ⟨.name name, p⟩ :: rest ∧ ∀ q more, rest ≠ ⟨.opening, q⟩ :: more

theorem called_eq_false {ts : List Token} :
    called ts = false ↔ ∀ q more, ts ≠ ⟨.opening, q⟩ :: more := by
  constructor
  · rintro closed q more rfl
    cases closed
  · intro other
    rw [called.eq_def]
    split
    next q more => exact (other q more rfl).elim
    next => rfl

theorem Mentioned.cons {name : String} {ts : List Token} (h : Mentioned name ts) (token : Token) :
    Mentioned name (token :: ts) := by
  obtain ⟨before, p, rest, rfl, apart⟩ := h
  exact ⟨token :: before, p, rest, rfl, apart⟩

/-- What is mentioned behind the first token, or is the first token itself. -/
theorem mentioned_cons {name : String} {token : Token} {ts : List Token} :
    Mentioned name (token :: ts) ↔
      (token.lexeme = .name name ∧ called ts = false) ∨ Mentioned name ts := by
  constructor
  · rintro ⟨before, p, rest, split, apart⟩
    cases before with
    | nil =>
      obtain ⟨rfl, rfl⟩ := List.cons.inj split
      exact .inl ⟨rfl, called_eq_false.2 apart⟩
    | cons first before =>
      obtain ⟨rfl, rfl⟩ := List.cons.inj split
      exact .inr ⟨before, p, rest, rfl, apart⟩
  · rintro (⟨here, apart⟩ | further)
    · obtain ⟨lexeme, p⟩ := token
      cases here
      exact ⟨[], p, ts, rfl, called_eq_false.1 apart⟩
    · exact further.cons token

theorem mem_referred {name : String} {ts : List Token} :
    name ∈ referred ts ↔ Mentioned name ts := by
  induction ts with
  | nil =>
    constructor
    · rintro ⟨⟩
    · rintro ⟨before, p, rest, split, -⟩
      simp at split
  | cons token ts ih =>
    rw [mentioned_cons, ← ih, referred.eq_def]
    split
    next empty => cases empty
    next first p rest same =>
      obtain ⟨rfl, rfl⟩ := List.cons.inj same
      cases called ts <;> simp [eq_comm]
    next other rest unnamed same =>
      obtain ⟨rfl, rfl⟩ := List.cons.inj same
      refine ⟨.inr, fun mem => mem.resolve_left fun here => ?_⟩
      exact unnamed name token.position (by rw [← here.1])

/-! ### Formulas -/

section
variable {ls rs : List Token}

theorem called_append (apart : called rs = false) : called (ls ++ rs) = called ls := by
  cases ls with
  | nil => exact apart
  | cons token ls =>
    obtain ⟨lexeme, p⟩ := token
    cases lexeme <;> rfl

/-- Tokens may be cut before one that is no parenthesis. -/
theorem referred_append (apart : called rs = false) :
    referred (ls ++ rs) = referred ls ++ referred rs := by
  induction ls with
  | nil => rfl
  | cons token ls ih =>
    obtain ⟨lexeme, p⟩ := token
    cases lexeme with
    | name name =>
      rw [List.cons_append, referred, referred, called_append apart, ih]
      split <;> rfl
    | _ => exact ih

end

mutual

/-- The names that no parenthesis follows are the references of the tree. -/
theorem Derives.referred_eq {part : Part} {n : Nat} {ts : List Token} {e : Expr} :
    Derives part n ts e → referred ts = e.references
  | .range left right | .sum _ left right | .product _ left right | .power left right => by
    rw [referred_append rfl, left.referred_eq]
    exact congrArg _ right.referred_eq
  | .ofSum h | .ofProduct h | .ofNegation h | .ofPower h | .ofAtom h => h.referred_eq
  | .negation operand => operand.referred_eq
  | .number => rfl
  | .reference => rfl
  | .emptyCall => rfl
  | .call arguments => by
    change referred (_ ++ [_]) = _
    rw [referred_append rfl, arguments.referred_eq]
    exact List.append_nil _
  | .parentheses inside => by
    change referred (_ ++ [_]) = _
    rw [referred_append rfl, inside.referred_eq]
    exact List.append_nil _

theorem DerivesAll.referred_eq {n : Nat} {ts : List Token} {es : List Expr} :
    DerivesAll n ts es → referred ts = Expr.referencesOfAll es
  | .last h => by
    rw [h.referred_eq]
    exact (List.append_nil _).symm
  | .more first rest => by
    rw [referred_append rfl, first.referred_eq]
    exact congrArg _ rest.referred_eq

end

/-! ### Collecting with a stack -/

namespace Expr

theorem sum_sizeOf_le (es : List Expr) : (es.map sizeOf).sum ≤ sizeOf es := by
  induction es with
  | nil => exact Nat.zero_le _
  | cons e es ih =>
    rw [List.map_cons, List.sum_cons, List.cons.sizeOf_spec]
    omega

/-- Collects the names of cells from the trees on a stack, beside those found before. The parts of
a tree are put on the stack in reading order, so the last one is looked at first. -/
def collect (found : List String) : List Expr → List String
  | [] => found
  | number _ :: stack => collect found stack
  | reference name :: stack => collect (found.insert name) stack
  | range left right :: stack => collect found (right :: left :: stack)
  | call _ arguments :: stack => collect found (arguments.reverse ++ stack)
  | binary _ left right :: stack => collect found (right :: left :: stack)
  | negation operand :: stack => collect found (operand :: stack)
termination_by stack => (stack.map sizeOf).sum
decreasing_by
  · rw [List.map_cons, List.sum_cons, number.sizeOf_spec]
    omega
  · rw [List.map_cons, List.sum_cons, reference.sizeOf_spec]
    omega
  · simp only [List.map_cons, List.sum_cons, range.sizeOf_spec]
    omega
  · have := sum_sizeOf_le arguments
    rw [List.unattach_reverse, List.unattach_attach, List.map_cons, List.sum_cons,
      List.map_append, List.sum_append, List.map_reverse, List.sum_reverse, call.sizeOf_spec]
    omega
  · simp only [List.map_cons, List.sum_cons, binary.sizeOf_spec]
    omega
  · simp only [List.map_cons, List.sum_cons, negation.sizeOf_spec]
    omega

/-- A stack finds what the recursion over the trees finds. -/
theorem mem_collect {name : String} {found : List String} {stack : List Expr} :
    name ∈ collect found stack ↔ name ∈ found ∨ ∃ e ∈ stack, name ∈ e.references := by
  fun_induction collect found stack with
  | case1 found => simp
  | case2 found x stack ih => simp [ih, references]
  | case3 found other stack ih =>
    rw [ih, List.mem_insert_iff, or_comm (a := name = other), or_assoc]
    simp [references]
  | case4 found left right stack ih => simp [ih, references, or_left_comm, or_assoc]
  | case5 found f arguments stack ih =>
    rw [List.unattach_reverse, List.unattach_attach] at ih
    simp [ih, references, referencesOfAll_eq, or_and_right, exists_or]
  | case6 found o left right stack ih => simp [ih, references, or_left_comm, or_assoc]
  | case7 found operand stack ih => simp [ih, references]

end Expr

/-! ### Dependencies -/

/-- The cells that a formula depends on are the names among its tokens that no parenthesis
follows, whether they are taken from the tree by recursion or with a stack. -/
theorem dependencies_mentioned {text : String} {e : Expr} (parsed : parse (some text) = .ok e) :
    ∃ ts, tokens text = .ok ts ∧ ∀ name,
      (name ∈ e.dependencies ↔ Mentioned name ts) ∧
        (name ∈ Expr.collect [] [e] ↔ Mentioned name ts) := by
  obtain ⟨ts, read, derives⟩ := derives_of_parse parsed
  have same := derives.referred_eq
  refine ⟨ts, read, fun name => ?_⟩
  rw [Expr.mem_dependencies, ← same, mem_referred]
  refine ⟨Iff.rfl, ?_⟩
  rw [Expr.mem_collect, ← mem_referred, same]
  simp

/-- In `pert(Low, 2) + Low * -pert`, the second `pert` is a cell. -/
theorem dependencies_of_call : ∃ e ts, parse (some "pert(Low, 2) + Low * -pert") = .ok e ∧
    tokens "pert(Low, 2) + Low * -pert" = .ok ts ∧
      ∀ name, name ∈ e.dependencies ↔ Mentioned name ts := by
  have accepted : (parse (some "pert(Low, 2) + Low * -pert")).toOption.isSome = true := by
    decide +kernel
  cases parsed : parse (some "pert(Low, 2) + Low * -pert") with
  | error err =>
    rw [parsed] at accepted
    cases accepted
  | ok e =>
    obtain ⟨ts, read, mentioned⟩ := dependencies_mentioned parsed
    exact ⟨e, ts, rfl, read, fun name => (mentioned name).1⟩

end MonteCarloSheet.Formula
