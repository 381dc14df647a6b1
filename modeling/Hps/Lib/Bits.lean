import Mathlib.Data.Nat.Bitwise

/-!
# Bits and masks

A mask is told by its bits: `highBits w p` has the `p` highest of `w` bits
set, and `2 ^ k - 1` the `k` lowest, which are the others (`not_highBits`).
-/

namespace Hps.Lib.Bits

variable {w p k : Nat}

/-- The word whose `p` high bits are ones. -/
def highBits (w p : Nat) : BitVec w := BitVec.allOnes w <<< (w - p)

theorem getLsbD_highBits (i : Nat) :
    (highBits w p).getLsbD i = (decide (i < w) && decide (w - p ≤ i)) := by
  rw [highBits, BitVec.getLsbD_shiftLeft, BitVec.getLsbD_allOnes, Bool.eq_iff_iff]
  simp only [Bool.and_eq_true, Bool.not_eq_true', decide_eq_true_eq, decide_eq_false_iff_not]
  omega

theorem getMsbD_highBits {i : Nat} (hi : i < w) : (highBits w p).getMsbD i = decide (i < p) := by
  rw [BitVec.getMsbD_eq_getLsbD, getLsbD_highBits, Bool.eq_iff_iff]
  simp only [Bool.and_eq_true, decide_eq_true_eq]
  omega

/-- One less than a power of two. -/
theorem getLsbD_pow_sub_one (hk : k < w) (i : Nat) :
    ((1#w <<< k) - 1#w).getLsbD i = decide (i < k) := by
  have hpow : 2 ^ k < 2 ^ w := Nat.pow_lt_pow_right (by decide) hk
  have hone : 1 < 2 ^ w := Nat.one_lt_two_pow (by omega)
  have hpos : 0 < 2 ^ k := Nat.two_pow_pos k
  have hval : ((1#w <<< k) - 1#w).toNat = 2 ^ k - 1 := by
    rw [BitVec.toNat_sub, BitVec.toNat_shiftLeft, BitVec.toNat_ofNat, Nat.mod_eq_of_lt hone,
      Nat.shiftLeft_eq, Nat.one_mul, Nat.mod_eq_of_lt hpow,
      show 2 ^ w - 1 + 2 ^ k = 2 ^ k - 1 + 2 ^ w by omega, Nat.add_mod_right,
      Nat.mod_eq_of_lt (by omega)]
  rw [BitVec.getLsbD, hval, Nat.testBit_two_pow_sub_one]

/-- The bits that are not high are low. -/
theorem not_highBits (hp : 0 < p) (hw : p ≤ w) :
    ~~~highBits w p = (1#w <<< (w - p)) - 1#w := by
  apply BitVec.eq_of_getLsbD_eq
  intro i hi
  rw [BitVec.getLsbD_not, getLsbD_highBits, getLsbD_pow_sub_one (by omega), Bool.eq_iff_iff]
  simp only [Bool.and_eq_true, Bool.not_eq_true', Bool.and_eq_false_iff, decide_eq_true_eq,
    decide_eq_false_iff_not]
  omega

/-- What the two sides of a mask cut out of a word is only the same of zero. -/
theorem and_not_eq_and_iff (x m : BitVec w) : x &&& ~~~m = x &&& m ↔ x = 0#w := by
  constructor
  · intro h
    apply BitVec.eq_of_getLsbD_eq
    intro i hi
    have hbit := congrArg (fun y => BitVec.getLsbD y i) h
    simp only [BitVec.getLsbD_and, BitVec.getLsbD_not, hi, decide_true, Bool.true_and] at hbit
    rw [BitVec.getLsbD_zero]
    cases hx : x.getLsbD i with
    | false => rfl
    | true =>
        rw [hx, Bool.true_and, Bool.true_and] at hbit
        exact absurd hbit (by cases m.getLsbD i <;> decide)
  · rintro rfl
    rw [BitVec.zero_and, BitVec.zero_and]

end Hps.Lib.Bits
