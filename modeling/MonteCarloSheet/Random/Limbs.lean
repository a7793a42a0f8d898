/-! Seed words as 32-bit limbs.

A seed is a list of naturals of any size. Machines take it limb by limb, the lowest
limb of a word first; a word has at least one limb and no leading zero limb
besides. -/
namespace MonteCarloSheet.Random

/-- How many values a limb has. -/
def limbBase : Nat := 4294967296

/-- The limbs of a natural, lowest first; zero has the one limb zero. -/
def limbs (n : Nat) : List UInt32 :=
  if n < limbBase then [n.toUInt32] else n.toUInt32 :: limbs (n / limbBase)
termination_by n
decreasing_by unfold limbBase at *; omega

/-- The natural that limbs stand for, lowest first. -/
def ofLimbs (seed : List UInt32) : Nat :=
  seed.foldr (fun limb n => limb.toNat + limbBase * n) 0

theorem toNat_toUInt32_eq_mod (n : Nat) : n.toUInt32.toNat = n % limbBase :=
  UInt32.toNat_ofNat'

/-- No limb is lost. -/
theorem ofLimbs_limbs (n : Nat) : ofLimbs (limbs n) = n := by
  induction n using Nat.strongRecOn with
  | ind n ih =>
    unfold limbs
    split
    next small =>
      simp only [ofLimbs, List.foldr, toNat_toUInt32_eq_mod, Nat.mod_eq_of_lt small]
      rfl
    next large =>
      have less : n / limbBase < n := by unfold limbBase at *; omega
      change n.toUInt32.toNat + limbBase * ofLimbs (limbs (n / limbBase)) = n
      rw [ih _ less, toNat_toUInt32_eq_mod]
      exact Nat.mod_add_div n limbBase

def limbsOf (words : List Nat) : List UInt32 :=
  words.flatMap limbs

/-- A word from 53 random bits, in the unit interval without its upper end. -/
def unitFloat (word : UInt64) : Float :=
  (word >>> 11).toFloat * (1.0 / 9007199254740992.0)

end MonteCarloSheet.Random
