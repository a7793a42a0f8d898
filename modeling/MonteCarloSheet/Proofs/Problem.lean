import Mathlib.Data.List.Basic
import MonteCarloSheet.Problem

/-! What messages tell.

The message of an inherited fault can be told from that of any problem by its first two
characters, so a problem is never worded like a fault that names another cell
(`Problem.message_ne_inherited`). If the names of cells have no quotation marks, the
message of a fault tells its cause (`Fault.cause_eq_of_message`). -/
namespace MonteCarloSheet

/-- The first two characters of a text. -/
def opening (t : String) : List Char :=
  t.toList.take 2

theorem opening_append {a : String} (long : 2 ≤ a.toList.length) (b : String) :
    opening (a ++ b) = opening a := by
  rw [opening, String.toList_append, List.take_append_of_le_length long, opening]

theorem Fault.opening_inherited (name : String) (root : Problem) :
    opening (Fault.inherited name root).message = ['D', 'e'] := by
  unfold message
  simp only [String.append_assoc]
  rw [opening_append] <;> decide

/-! ### Problems -/

theorem SyntaxError.opening_message_ne (e : SyntaxError) : opening e.message ≠ ['D', 'e'] := by
  obtain ⟨reason, position, fragment⟩ := e
  unfold message
  cases reason <;> simp only [String.append_assoc]
  case empty => decide
  all_goals rw [opening_append] <;> decide

theorem LengthMismatch.opening_message_ne (m : LengthMismatch) :
    opening m.message ≠ ['D', 'e'] := by
  unfold message
  cases m with
  | operand side count expected =>
    unfold Side.text
    cases side <;> simp only [String.append_assoc] <;> rw [opening_append] <;> decide
  | _ =>
    simp only [String.append_assoc]
    rw [opening_append] <;> decide

theorem Problem.opening_message_ne (p : Problem) : opening p.message ≠ ['D', 'e'] := by
  unfold message
  cases p with
  | malformed e => exact e.opening_message_ne
  | lengthMismatch m => exact m.opening_message_ne
  | divisionByZero => decide
  | tooDeep => decide
  | _ =>
    simp only [String.append_assoc]
    rw [opening_append] <;> decide

/-- No problem has the message of an inherited fault. -/
theorem Problem.message_ne_inherited (p : Problem) (name : String) (root : Problem) :
    p.message ≠ (Fault.inherited name root).message := fun same =>
  p.opening_message_ne (same ▸ Fault.opening_inherited name root)

/-! ### Faults -/

/-- The name in an inherited fault has no quotation mark. -/
def Fault.Unquoted : Fault → Prop
  | .own _ => True
  | .inherited name _ => '\'' ∉ name.toList

/-- The message of an inherited fault tells the name up to the quotation mark behind it. -/
theorem Fault.message_inherited_inj {name other : String} {p q : Problem}
    (unquoted : '\'' ∉ name.toList) (unquoted' : '\'' ∉ other.toList)
    (same : (Fault.inherited name p).message = (Fault.inherited other q).message) :
    name = other ∧ p.message = q.message := by
  have quoted : "' has an error: ".toList = '\'' :: " has an error: ".toList := by decide
  simp only [message, String.append_assoc] at same
  have letters := congrArg String.toList (String.append_right_inj _ |>.1 same)
  simp only [String.toList_append, quoted, List.cons_append] at letters
  have length : name.toList.length = other.toList.length := by
    simpa [List.idxOf_append_of_notMem unquoted, List.idxOf_append_of_notMem unquoted'] using
      congrArg (List.idxOf '\'') letters
  obtain ⟨names, rest⟩ := List.append_inj letters length
  exact ⟨String.toList_inj.1 names,
    String.toList_inj.1 (List.append_cancel_left (List.cons.inj rest).2)⟩

/-- Faults with the same message have the same cause. -/
theorem Fault.cause_eq_of_message {f g : Fault} (hf : f.Unquoted) (hg : g.Unquoted)
    (same : f.message = g.message) : f.cause = g.cause := by
  cases f with
  | own p =>
    cases g with
    | own q => exact same
    | inherited name root => exact (p.message_ne_inherited name root same).elim
  | inherited name p =>
    cases g with
    | own q => exact (q.message_ne_inherited name p same.symm).elim
    | inherited other q => exact (message_inherited_inj hf hg same).2

end MonteCarloSheet
