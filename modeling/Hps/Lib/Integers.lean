import Mathlib.Algebra.Group.Int.Defs
import Mathlib.Algebra.Group.Nat.Defs

/-!
# Machine integers

A value of any integer type, put where an `int` is expected, keeps its low 32
bits and is read as a two's complement number. One that an `int` has comes back
as it was (`toInt_eq_self`); from `2^31` on it is a smaller one, and bit 31
decides whether it is negative. What is to hold of every byte is checked for
the 256 numbers (`forall_byte`).
-/

namespace Hps.Lib.Integers

/-- The conversion to `int`. A test of its value is not for the elaborator to
evaluate. -/
@[irreducible] def toInt (n : Int) : Int := n.bmod (2 ^ 32)

theorem toInt_lt (n : Int) : toInt n < 2 ^ 31 := by
  rw [toInt]
  exact Int.bmod_lt (by decide)

theorem le_toInt (n : Int) : -2 ^ 31 ≤ toInt n := by
  rw [toInt]
  exact Int.le_bmod (by decide)

theorem toInt_eq_self {n : Int} (hlow : -2 ^ 31 ≤ n) (hhigh : n < 2 ^ 31) : toInt n = n := by
  rw [toInt]
  exact Int.bmod_eq_of_le (by omega) (by omega)

/-- A sum of which one part was converted before. -/
theorem toInt_toInt_add (m n : Int) : toInt (toInt m + n) = toInt (m + n) := by
  rw [toInt, toInt, toInt, Int.bmod_add_bmod]

/-- The conversion of a number that is not negative. -/
theorem toInt_natCast (n : Nat) : toInt n =
    if n % 2 ^ 32 < 2 ^ 31 then ((n % 2 ^ 32 : Nat) : Int)
    else ((n % 2 ^ 32 : Nat) : Int) - 2 ^ 32 := by
  rw [toInt, Int.bmod_def]
  split
  · rw [if_pos (by omega)]
    omega
  · rw [if_neg (by omega)]
    omega

/-- Bit 31 is the sign. -/
theorem toInt_natCast_nonneg_iff (n : Nat) : 0 ≤ toInt n ↔ n % 2 ^ 32 < 2 ^ 31 := by
  rw [toInt_natCast]
  split <;> omega

theorem toInt_natCast_le {n : Nat} : toInt n ≤ n := by
  rw [toInt_natCast]
  split <;> omega

/-! ## Bytes -/

/-- What holds of the numbers below 256 holds of every byte. -/
theorem forall_byte {P : UInt8 → Prop} (h : ∀ n < 256, P (UInt8.ofNat n)) (c : UInt8) :
    P c := by
  have hc := h c.toNat c.toNat_lt
  rwa [UInt8.ofNat_toNat] at hc

end Hps.Lib.Integers
