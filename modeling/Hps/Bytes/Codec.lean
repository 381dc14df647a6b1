import Mathlib.Algebra.Group.Nat.Defs
import Hps.Bytes.Typed

/-!
# Bytes — integers and their bytes

The encodings behind the typed writers, as functions of bit vectors: memory
order and its reversal, and zigzag. Each decoding undoes its encoding for every
bit pattern.
-/

namespace Hps.Bytes

/-! ## Integers in memory -/

theorem getLsbD_ofHostBytes (n : Nat) (bytes : List UInt8) (j : Nat) :
    (ofHostBytes n bytes).getLsbD j =
      (decide (j < 8 * n) && (bytes.getD (j / 8) 0).toBitVec.getLsbD (j % 8)) := by
  induction bytes generalizing j with
  | nil => simp [ofHostBytes]
  | cons x xs ih =>
      rw [ofHostBytes, List.foldr_cons, BitVec.getLsbD_or, BitVec.getLsbD_shiftLeft,
        BitVec.getLsbD_setWidth, ← ofHostBytes]
      by_cases hj : j < 8
      · rw [Nat.div_eq_of_lt hj, Nat.mod_eq_of_lt hj]
        simp [hj]
      · have hhigh : x.toBitVec.getLsbD j = false :=
          BitVec.getLsbD_of_ge x.toBitVec j (by omega)
        rw [ih, hhigh, show j / 8 = (j - 8) / 8 + 1 from by omega,
          show j % 8 = (j - 8) % 8 from by omega, List.getD_cons_succ]
        by_cases hn : j < 8 * n
        · simp [hj, hn, show j - 8 < 8 * n from by omega]
        · simp [hn]

theorem hostBytes_length (n : Nat) (v : BitVec (8 * n)) :
    (hostBytes n v).length = n := by
  simp [hostBytes]

theorem getD_hostBytes {n : Nat} (v : BitVec (8 * n)) {i : Nat} (hi : i < n) :
    ((hostBytes n v).getD i 0).toBitVec = (v >>> (8 * i)).setWidth 8 := by
  simp [hostBytes, List.getD, hi]

theorem ofHostBytes_hostBytes (n : Nat) (v : BitVec (8 * n)) :
    ofHostBytes n (hostBytes n v) = v := by
  ext j hj
  rw [← BitVec.getLsbD_eq_getElem, ← BitVec.getLsbD_eq_getElem, getLsbD_ofHostBytes,
    getD_hostBytes v (by omega), BitVec.getLsbD_setWidth, BitVec.getLsbD_ushiftRight,
    Nat.div_add_mod]
  simp [hj, Nat.mod_lt]

theorem hostBytes_ofHostBytes {n : Nat} {bytes : List UInt8} (h : bytes.length = n) :
    hostBytes n (ofHostBytes n bytes) = bytes := by
  refine List.ext_getElem (by rw [hostBytes_length, h]) ?_
  intro i h1 h2
  have hi : i < n := by omega
  apply UInt8.toBitVec_inj.mp
  have hget := getD_hostBytes (ofHostBytes n bytes) hi
  rw [List.getD_eq_getElem?_getD, List.getElem?_eq_getElem h1, Option.getD_some] at hget
  rw [hget]
  ext k hk
  rw [← BitVec.getLsbD_eq_getElem, ← BitVec.getLsbD_eq_getElem, BitVec.getLsbD_setWidth,
    BitVec.getLsbD_ushiftRight, getLsbD_ofHostBytes,
    show (8 * i + k) / 8 = i from by omega, show (8 * i + k) % 8 = k from by omega,
    List.getD_eq_getElem?_getD, List.getElem?_eq_getElem h2, Option.getD_some]
  simp [hk, show 8 * i + k < 8 * n from by omega]

theorem byteswap_byteswap (n : Nat) (v : BitVec (8 * n)) :
    byteswap n (byteswap n v) = v := by
  rw [byteswap, byteswap, hostBytes_ofHostBytes (by simp [hostBytes_length]),
    List.reverse_reverse, ofHostBytes_hostBytes]

/-! ## Zigzag -/

section Zigzag

variable {w : Nat} {x : BitVec w}

theorem toNat_double (h : 2 * x.toNat < 2 ^ w) : (x * 2).toNat = 2 * x.toNat := by
  rw [show x * 2 = x + x from BitVec.mul_two, BitVec.toNat_add, ← Nat.two_mul,
    Nat.mod_eq_of_lt h]

theorem toNat_double_add_one (hw : 1 < w) (h : 2 * x.toNat < 2 ^ w) :
    (x * 2 + 1).toNat = 2 * x.toNat + 1 := by
  have hpow : 2 ^ w = 2 * 2 ^ (w - 1) := by
    rw [← Nat.pow_succ']
    congr 1
    omega
  have hone : (1 : BitVec w).toNat = 1 :=
    Nat.mod_eq_of_lt (Nat.one_lt_two_pow (by omega))
  rw [BitVec.toNat_add, toNat_double h, hone, Nat.mod_eq_of_lt (by omega)]

/-- The low bit of the code, and the code without it. -/
theorem decodeZigzag_of_toNat (hw : 1 < w) {e : BitVec w} {c : Nat} (hc : c < 2)
    (he : e.toNat = 2 * x.toNat + c) :
    decodeZigzag e = x ^^^ -(BitVec.ofNat w c) := by
  have hone : (1 : BitVec w).toNat = 1 :=
    Nat.mod_eq_of_lt (Nat.one_lt_two_pow (by omega))
  have hhigh : e >>> 1 = x := by
    apply BitVec.eq_of_toNat_eq
    rw [BitVec.toNat_ushiftRight, Nat.shiftRight_eq_div_pow, he]
    omega
  have hlow : e &&& 1 = BitVec.ofNat w c := by
    apply BitVec.eq_of_toNat_eq
    have hcw : c < 2 ^ w := Nat.lt_of_lt_of_le hc (Nat.le_self_pow (by omega) 2)
    rw [BitVec.toNat_and, hone, Nat.and_one_is_mod, he, BitVec.toNat_ofNat,
      Nat.mod_eq_of_lt hcw]
    omega
  rw [decodeZigzag, hhigh, hlow]

theorem decodeZigzag_encodeZigzag (hw : 1 < w) (v : BitVec w) :
    decodeZigzag (encodeZigzag v) = v := by
  rw [encodeZigzag, show v.slt 0 = v.msb from BitVec.slt_zero_eq_msb]
  cases hmsb : v.msb with
  | false =>
      have hlt := BitVec.msb_eq_false_iff_two_mul_lt.mp hmsb
      rw [if_neg Bool.false_ne_true,
        decodeZigzag_of_toNat hw (by omega : 0 < 2) (toNat_double hlt)]
      simp
  | true =>
      -- `-v * 2 - 1` is twice the complement of `v`, plus one
      have hcode : -v * 2 - 1 = ~~~v * 2 + 1 := by
        rw [BitVec.neg_eq_not_add]
        grind
      have hlt : 2 * (~~~v).toNat < 2 ^ w := by
        have hge := BitVec.msb_eq_true_iff_two_mul_ge.mp hmsb
        have hv := v.isLt
        rw [BitVec.toNat_not]
        omega
      rw [if_pos rfl, hcode,
        decodeZigzag_of_toNat hw (by omega : 1 < 2) (toNat_double_add_one hw hlt),
        BitVec.neg_one_eq_allOnes, BitVec.xor_allOnes, BitVec.not_not]

end Zigzag

end Hps.Bytes
