import MonteCarloSheet.Random.Engine
import MonteCarloSheet.Random.Limbs

/-! Engines that draw one at a time.

A `Machine` has a state of its own, and every draw is a step of it. It makes uniform draws
and places; twelve uniform draws less six stand for a normal one. Its state can be kept in
words and read back, so a machine is an engine: a request reads the state, takes a step
for every draw and keeps the state again. That nothing is lost between two requests is
`batch_add`. -/
namespace MonteCarloSheet.Random

/-- `n` draws, put before those already made, the last one first. -/
def repeated (draw : σ → α × σ) : Nat → List α → σ → List α × σ
  | 0, drawn, s => (drawn, s)
  | n + 1, drawn, s =>
    let (x, s) := draw s
    repeated draw n (x :: drawn) s

theorem length_repeated (draw : σ → α × σ) (n : Nat) (drawn : List α) (s : σ) :
    (repeated draw n drawn s).1.length = n + drawn.length := by
  induction n generalizing drawn s with
  | zero => simp [repeated]
  | succ n ih => simp only [repeated, ih, List.length_cons]; omega

/-- The draws do not depend on those already made. -/
theorem repeated_eq (draw : σ → α × σ) (n : Nat) (drawn : List α) (s : σ) :
    repeated draw n drawn s =
      ((repeated draw n [] s).1 ++ drawn, (repeated draw n [] s).2) := by
  induction n generalizing drawn s with
  | zero => rfl
  | succ n ih =>
    rw [repeated, repeated]
    dsimp only
    rw [ih, ih [(draw s).1]]
    simp

theorem repeated_add (draw : σ → α × σ) (n k : Nat) (drawn : List α) (s : σ) :
    repeated draw (n + k) drawn s =
      repeated draw k (repeated draw n drawn s).1 (repeated draw n drawn s).2 := by
  induction n generalizing drawn s with
  | zero => rw [Nat.zero_add]; rfl
  | succ n ih =>
    rw [Nat.succ_add, repeated, repeated]
    exact ih ..

structure Machine (σ : Type) where
  seeded : List UInt32 → σ
  uniform : σ → Float × σ
  place : Nat → σ → Nat × σ
  encode : σ → State
  decode : State → σ
  decode_encode : ∀ s, decode (encode s) = s

namespace Machine

/-- The sum of `n` uniform draws on top of `total`. -/
def uniformSum (m : Machine σ) : Nat → Float → σ → Float × σ
  | 0, total, s => (total, s)
  | n + 1, total, s =>
    let (u, s) := m.uniform s
    m.uniformSum n (total + u) s

/-- Twelve uniform draws less six, which have the mean and variance of a standard normal draw. -/
def normal (m : Machine σ) (s : σ) : Float × σ :=
  let (total, s) := m.uniformSum 12 0.0 s
  (total - 6.0, s)

/-- A request for draws that are made one at a time. -/
def batch (m : Machine σ) (draw : σ → α × σ) : Draw α := fun n s =>
  let r := repeated draw n [] (m.decode s)
  (⟨r.1.reverse.toArray, by simp [r, length_repeated]⟩, m.encode r.2)

def engine (m : Machine σ) : Engine where
  seeded words := m.encode (m.seeded (limbsOf words))
  uniforms := m.batch m.uniform
  normals := m.batch m.normal
  places count := m.batch (m.place count)

theorem toList_batch (m : Machine σ) (draw : σ → α × σ) (n : Nat) (s : State) :
    (m.batch draw n s).1.toList = (repeated draw n [] (m.decode s)).1.reverse :=
  rfl

/-- Two requests draw what one request for all draws does, and leave the same state. -/
theorem batch_add (m : Machine σ) (draw : σ → α × σ) (n k : Nat) (s : State) :
    (m.batch draw (n + k) s).1.toList =
        (m.batch draw n s).1.toList ++ (m.batch draw k (m.batch draw n s).2).1.toList ∧
      (m.batch draw (n + k) s).2 = (m.batch draw k (m.batch draw n s).2).2 := by
  have kept : m.decode (m.batch draw n s).2 = (repeated draw n [] (m.decode s)).2 :=
    m.decode_encode _
  have both := repeated_add draw n k [] (m.decode s)
  rw [repeated_eq draw k] at both
  constructor
  · rw [toList_batch, toList_batch, toList_batch, kept, both, List.reverse_append]
  · change m.encode (repeated draw (n + k) [] (m.decode s)).2 = m.encode (repeated draw k [] _).2
    rw [kept, both]

end Machine

end MonteCarloSheet.Random
