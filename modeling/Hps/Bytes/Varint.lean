import Hps.Lib.Base128
import Hps.Bytes.Refine
import Hps.Bytes.Codec

/-!
# Bytes — varints

What the loops of `writeUint32`, `writeUint64` and their readers do, for any
width: the bytes in `tmp` are the shortest code of the value, and the reader
takes what `front` takes from the data and adds up its groups, whatever the
bytes are.
-/

namespace Hps.Bytes

open Hps.Lib Base128

/-! ## Actions -/

section Bind

variable {α β : Type} {x : M α} {k : α → M β} {b b' : ByteArray}

theorem bind_ok {a : α} (h : x b = .ok a b') : (x >>= k) b = k a b' := by
  simp [bind, EStateM.bind, h]

theorem bind_error {err : Error} (h : x b = .error err b') : (x >>= k) b = .error err b' := by
  simp [bind, EStateM.bind, h]

end Bind

/-! ## The writer -/

section Writer

variable {w : Nat} {u : BitVec w}

theorem toNat_and_127 (hw : 7 < w) : (u &&& 0x7F).toNat = u.toNat % 128 := by
  have hlt : (127 : Nat) < 2 ^ w :=
    Nat.lt_of_lt_of_le (by omega) (Nat.pow_le_pow_right (by omega) hw)
  rw [BitVec.toNat_and, show (0x7F : BitVec w).toNat = 2 ^ 7 - 1 from Nat.mod_eq_of_lt hlt,
    Nat.and_two_pow_sub_one_eq_mod]

/-- A byte that is not the last: the low seven bits and the high bit. -/
theorem toNat_moreByte (hw : 7 < w) :
    (((u &&& 0x7F) ||| 0x80).setWidth 8).toNat = u.toNat % 128 + 128 := by
  have hlt : 128 < 2 ^ w :=
    Nat.lt_of_lt_of_le (by omega : 128 < 2 ^ 8) (Nat.pow_le_pow_right (by omega) hw)
  rw [BitVec.toNat_setWidth, BitVec.toNat_or, toNat_and_127 hw,
    show (0x80 : BitVec w).toNat = 2 ^ 7 * 1 from Nat.mod_eq_of_lt hlt,
    Nat.or_comm, ← Nat.two_pow_add_eq_or_of_lt (by omega)]
  omega

theorem toNat_shift (u : BitVec w) : (u >>> 7).toNat = u.toNat / 128 := by
  rw [BitVec.toNat_ushiftRight, Nat.shiftRight_eq_div_pow]

theorem varint_eq_encode (hw : 7 < w) (u : BitVec w) : varint u = encode u.toNat := by
  induction u using varint.induct with
  | case1 u hmore ih =>
      rw [varint, if_pos hmore, encode, if_neg (by omega), ih, toNat_shift]
      congr 1
      apply UInt8.toNat_inj.mp
      rw [toNat_ofNat (by omega)]
      exact toNat_moreByte hw
  | case2 u hlast =>
      rw [varint, if_neg hlast, encode, if_pos (by omega)]
      congr 1
      apply UInt8.toNat_inj.mp
      rw [toNat_ofNat (by omega)]
      change (u.setWidth 8).toNat = u.toNat
      rw [BitVec.toNat_setWidth]
      omega

/-- The bytes of a value, `n` groups of which are enough for its width. -/
theorem length_varint_le {n : Nat} (hw : 7 < w) (hn : w ≤ 7 * n) (u : BitVec w) :
    (varint u).length ≤ n := by
  rw [varint_eq_encode hw]
  refine length_encode_le (by omega) (Nat.lt_of_lt_of_le u.isLt ?_)
  rw [show 128 = 2 ^ 7 from rfl, ← Nat.pow_mul]
  exact Nat.pow_le_pow_right (by omega) hn

/-- `tmp[i] = byte`; `none` where there is no such element. -/
def store (tmp : List UInt8) (i : UInt8) (byte : UInt8) : Option (List UInt8) :=
  if i.toNat < tmp.length then some (tmp.set i.toNat byte) else none

/-- The loop of `writeUint32` and `writeUint64` and the store behind it: `tmp`
and `i` as `write` gets them. -/
def collect (tmp : List UInt8) (i : UInt8) (value : BitVec w) : Option (List UInt8 × UInt8) :=
  if value.toNat ≥ 0x80 then
    (store tmp i (.ofBitVec (((value &&& 0x7F) ||| 0x80).setWidth 8))).bind fun tmp =>
      collect tmp (i + 1) (value >>> 7)
  else (store tmp i (.ofBitVec (value.setWidth 8))).map fun tmp => (tmp, i + 1)
termination_by value.toNat
decreasing_by
  rw [toNat_shift]
  omega

theorem take_store {tmp : List UInt8} {i : UInt8} (h : i.toNat < tmp.length)
    (htmp : tmp.length < 256) (byte : UInt8) :
    ∃ tmp', store tmp i byte = some tmp' ∧ tmp'.length = tmp.length ∧
      (i + 1).toNat = i.toNat + 1 ∧ tmp'.take (i + 1).toNat = tmp.take i.toNat ++ [byte] := by
  have hnext : (i + 1).toNat = i.toNat + 1 := by
    rw [UInt8.toNat_add]
    exact Nat.mod_eq_of_lt (by change i.toNat + 1 < 256; omega)
  refine ⟨tmp.set i.toNat byte, if_pos h, List.length_set, hnext, ?_⟩
  rw [hnext, List.take_succ_eq_append_getElem (by simpa using h), List.getElem_set_self,
    List.take_set_of_le (Nat.le_refl _)]

/-- From `tmp[i]` on, as many bytes as there is room for are stored as they
come. -/
theorem collect_eq (u : BitVec w) {tmp : List UInt8} {i : UInt8}
    (hroom : i.toNat + (varint u).length ≤ tmp.length) (htmp : tmp.length < 256) :
    ∃ tmp' j, collect tmp i u = some (tmp', j) ∧ j.toNat = i.toNat + (varint u).length ∧
      tmp'.take j.toNat = tmp.take i.toNat ++ varint u := by
  induction u using varint.induct generalizing tmp i with
  | case1 u hmore ih =>
      rw [varint, if_pos hmore, List.length_cons] at hroom ⊢
      obtain ⟨tmp₁, hstore, hlen, hnext, htake⟩ := take_store (by omega : i.toNat < tmp.length)
        htmp (.ofBitVec (((u &&& 0x7F) ||| 0x80).setWidth 8))
      obtain ⟨tmp', j, hcollect, hj, hall⟩ := ih
        (by omega : (i + 1).toNat + (varint (u >>> 7)).length ≤ tmp₁.length) (by omega)
      refine ⟨tmp', j, ?_, by omega, ?_⟩
      · rw [collect, if_pos hmore, hstore]
        exact hcollect
      · rw [hall, htake, List.append_assoc]
        rfl
  | case2 u hlast =>
      rw [varint, if_neg hlast, List.length_singleton] at hroom ⊢
      obtain ⟨tmp₁, hstore, -, hnext, htake⟩ := take_store (by omega : i.toNat < tmp.length)
        htmp (.ofBitVec (u.setWidth 8))
      refine ⟨tmp₁, i + 1, ?_, hnext, htake⟩
      rw [collect, if_neg hlast, hstore]
      rfl

end Writer

/-! ## The reader -/

section Reader

variable {w i : Nat} {r : BitVec w} {x : UInt8} {rest bs : List UInt8} {b : ByteArray}
  {f : Flat}

/-- A group and the groups above it, seven places on. -/
theorem shift_groups (i : Nat) (x : UInt8) (v : Nat) :
    BitVec.ofNat w (x.toNat % 128 + 128 * v) <<< i =
      ((x.toBitVec &&& 0x7f).setWidth w <<< i) ||| (BitVec.ofNat w v <<< (i + 7)) := by
  have hgroup : ∀ k, (x.toBitVec &&& 0x7f).getLsbD k = (x.toNat % 128).testBit k := by
    intro k
    rw [← BitVec.testBit_toNat, toNat_and_127 (by omega)]
    rfl
  have hsum : x.toNat % 128 + 128 * v = 2 ^ 7 * v + x.toNat % 128 := by omega
  ext j hj
  simp only [← BitVec.getLsbD_eq_getElem, BitVec.getLsbD_or, BitVec.getLsbD_shiftLeft,
    BitVec.getLsbD_setWidth, BitVec.getLsbD_ofNat, hgroup, hsum,
    Nat.testBit_two_pow_mul_add v (by omega : x.toNat % 128 < 2 ^ 7)]
  -- below the group, in the group, and above it
  by_cases h1 : j < i
  · simp [h1, show j < i + 7 from by omega]
  · by_cases h2 : j < i + 7
    · simp [hj, h1, h2, show j - i < w from by omega, show j - i < 7 from by omega]
    · have hlow : (x.toNat % 128).testBit (j - i) = false :=
        Nat.testBit_lt_two_pow (Nat.lt_of_lt_of_le (by omega : x.toNat % 128 < 2 ^ 7)
          (Nat.pow_le_pow_right (by omega) (by omega)))
      simp [hj, h1, h2, hlow, show j - i < w from by omega, show ¬j - i < 7 from by omega,
        show j - (i + 7) < w from by omega, show j - i - 7 = j - (i + 7) from by omega]

theorem readByte_nil (h : Refines b f) (hend : f.data.drop f.pos = []) :
    readByte b = .error (.outOfRange "not enough len") b := by
  have hlen := List.drop_eq_nil_iff.mp hend
  rcases read_refines h Nat.one_pos with ⟨hle, -⟩ | ⟨-, hr⟩
  · omega
  · exact bind_error hr

theorem readByte_cons (h : Refines b f) (hx : f.data.drop f.pos = x :: rest) :
    ∃ b', readByte b = .ok x.toBitVec b' ∧ Refines b' { f with pos := f.pos + 1 } ∧
      b'.endian = b.endian := by
  have hlen := congrArg List.length hx
  rw [List.length_drop, List.length_cons] at hlen
  rcases read_refines h Nat.one_pos with ⟨-, b', hr, href, hend⟩ | ⟨hgt, -⟩
  · refine ⟨b', ?_, href, hend⟩
    rw [hx, List.take_succ_cons, List.take_zero] at hr
    rw [readByte, bind_ok hr]
    simp [ofHostBytes, pure, EStateM.pure]
  · omega

/-- One turn of the loop. -/
theorem readVarint_turn (h : Refines b f) (hi : i < w) (hx : f.data.drop f.pos = x :: rest) :
    ∃ b', Refines b' { f with pos := f.pos + 1 } ∧ b'.endian = b.endian ∧
      readVarint w i r b =
        if x < 0x80 then .ok (r ||| (x.toBitVec.setWidth w <<< i)) b'
        else readVarint w (i + 7) (r ||| ((x.toBitVec &&& 0x7f).setWidth w <<< i)) b' := by
  obtain ⟨b', hr, href, hend⟩ := readByte_cons h hx
  refine ⟨b', href, hend, ?_⟩
  rw [readVarint, if_pos hi]
  refine (bind_ok hr).trans ?_
  have hlow : x.toBitVec < (0x80 : BitVec 8) ↔ x < 0x80 := UInt8.lt_iff_toBitVec_lt.symm
  by_cases hlast : x < 0x80
  · rw [if_pos hlast, if_pos (hlow.mpr hlast)]
    rfl
  · rw [if_neg hlast, if_neg (mt hlow.mp hlast)]

/-- From the shift `i` on, with `k` turns left: what stands at the front of the
data is taken, and its groups are added. -/
theorem readVarint_some {k : Nat} (h : Refines b f) (hk : (w - i + 6) / 7 = k)
    (hfront : front k (f.data.drop f.pos) = some bs) :
    ∃ b', readVarint w i r b = .ok (r ||| (BitVec.ofNat w (value bs) <<< i)) b' ∧
      Refines b' { f with pos := f.pos + bs.length } ∧ b'.endian = b.endian := by
  induction k generalizing i r b f bs with
  | zero =>
      -- the shift has reached the width, and the loop ends
      cases hfront
      refine ⟨b, ?_, h, rfl⟩
      rw [readVarint, if_neg (by omega)]
      simp [pure, EStateM.pure]
  | succ k ih =>
      cases hdata : f.data.drop f.pos with
      | nil =>
          rw [hdata] at hfront
          cases hfront
      | cons x rest =>
          rw [hdata, front] at hfront
          obtain ⟨b₁, href, hend, hturn⟩ := readVarint_turn (r := r) h (by omega : i < w) hdata
          split at hfront
          · rename_i hlast
            cases hfront
            refine ⟨b₁, ?_, href, hend⟩
            have hvalue : BitVec.ofNat w x.toNat = x.toBitVec.setWidth w :=
              BitVec.ofNat_toNat w x.toBitVec
            rw [hturn, if_pos hlast, value_last hlast, hvalue]
          · rename_i hmore
            obtain ⟨bs, hrest, rfl⟩ := Option.map_eq_some_iff.mp hfront
            have hdrop : f.data.drop (f.pos + 1) = rest := by
              rw [← List.drop_drop, hdata]
              rfl
            rw [← hdrop] at hrest
            obtain ⟨b', hr, href', hend'⟩ :=
              ih (r := r ||| ((x.toBitVec &&& 0x7f).setWidth w <<< i)) href
                (by omega : (w - (i + 7) + 6) / 7 = k) hrest
            refine ⟨b', ?_, ?_, hend'.trans hend⟩
            · rw [hturn, if_neg hmore, hr, value_cons, shift_groups, BitVec.or_assoc]
            · rw [List.length_cons, Nat.add_comm bs.length, ← Nat.add_assoc]
              exact href'

/-- Where the data ends too early, all of it is taken before the exception. -/
theorem readVarint_none {k : Nat} (h : Refines b f) (hk : (w - i + 6) / 7 = k)
    (hfront : front k (f.data.drop f.pos) = none) :
    ∃ b', readVarint w i r b = .error (.outOfRange "not enough len") b' ∧
      Refines b' { f with pos := f.data.length } := by
  induction k generalizing i r b f with
  | zero => cases hfront
  | succ k ih =>
      have hi : i < w := by omega
      cases hdata : f.data.drop f.pos with
      | nil =>
          have hpos : f.pos = f.data.length :=
            Nat.le_antisymm h.pos_le (List.drop_eq_nil_iff.mp hdata)
          refine ⟨b, ?_, by rw [← hpos]; exact h⟩
          rw [readVarint, if_pos hi]
          exact bind_error (readByte_nil h hdata)
      | cons x rest =>
          rw [hdata, front] at hfront
          obtain ⟨b₁, href, -, hturn⟩ := readVarint_turn (r := r) h hi hdata
          split at hfront
          · cases hfront
          · rename_i hmore
            have hdrop : f.data.drop (f.pos + 1) = rest := by
              rw [← List.drop_drop, hdata]
              rfl
            rw [Option.map_eq_none_iff, ← hdrop] at hfront
            rw [hturn, if_neg hmore]
            exact ih (f := { f with pos := f.pos + 1 }) href (by omega) hfront

end Reader

end Hps.Bytes
