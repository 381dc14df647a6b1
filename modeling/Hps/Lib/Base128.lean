import Mathlib.Algebra.BigOperators.Fin
import Mathlib.Tactic.Ring

/-!
# Numbers in groups of seven bits

A number as bytes, the low seven bits of each for seven bits of the number and
the lowest group first, where every byte but the last has its high bit set.
`encode` is the shortest code of a number and no code begins another one. A
reader that takes no more than `n` bytes stops at the first byte without the
high bit, or behind `n` bytes with it: `Taken`.
-/

namespace Hps.Lib.Base128

/-- The sum of the groups, each at its place. -/
def value (bs : List UInt8) : Nat :=
  ∑ i : Fin bs.length, (bs[i] &&& 0x7f).toNat * 2 ^ (7 * i.val)

inductive Code : List UInt8 → Prop where
  | last {b : UInt8} (h : b < 0x80) : Code [b]
  | more {b : UInt8} {bs : List UInt8} (h : ¬b < 0x80) (hbs : Code bs) : Code (b :: bs)

def encode (n : Nat) : List UInt8 :=
  if n < 128 then [.ofNat n] else .ofNat (n % 128 + 128) :: encode (n / 128)
termination_by n

/-- The bytes up to the first one without the high bit, that one included, but
`n` at most. -/
def Taken (n : Nat) (bs : List UInt8) : Prop :=
  Code bs ∧ bs.length ≤ n ∨ bs.length = n ∧ ∀ b ∈ bs, ¬b < 0x80

/-- What a reader takes from the front of the data; `none` where it ends too
early. -/
def front : Nat → List UInt8 → Option (List UInt8)
  | 0, _ => some []
  | _ + 1, [] => none
  | n + 1, b :: bs => if b < 0x80 then some [b] else (front n bs).map (b :: ·)

variable {b : UInt8} {bs cs : List UInt8} {n : Nat}

/-! ## Values -/

theorem low_iff : b < 0x80 ↔ b.toNat < 128 := UInt8.lt_iff_toNat_lt

theorem toNat_ofNat (h : n < 256) : (UInt8.ofNat n).toNat = n := UInt8.toNat_ofNat_of_lt' h

theorem toNat_group (b : UInt8) : (b &&& 0x7f).toNat = b.toNat % 128 := by
  rw [UInt8.toNat_and, show (0x7f : UInt8).toNat = 2 ^ 7 - 1 from rfl,
    Nat.and_two_pow_sub_one_eq_mod]

@[simp] theorem value_nil : value [] = 0 := rfl

@[simp] theorem value_cons (b : UInt8) (bs : List UInt8) :
    value (b :: bs) = b.toNat % 128 + 128 * value bs := by
  simp only [value, List.length_cons, Fin.sum_univ_succ, Finset.mul_sum, toNat_group]
  congr 1
  · simp
  · refine Finset.sum_congr rfl fun i _ => ?_
    simp only [Fin.getElem_fin, Fin.val_succ, List.getElem_cons_succ, Nat.mul_add, Nat.pow_add]
    ring

/-- A byte without the high bit is its group. -/
theorem value_last (h : b < 0x80) : value [b] = b.toNat := by
  rw [value_cons, value_nil, Nat.mod_eq_of_lt (low_iff.mp h), Nat.mul_zero, Nat.add_zero]

/-! ## The shortest code -/

theorem encode_code (n : Nat) : Code (encode n) := by
  induction n using encode.induct with
  | case1 n h =>
      rw [encode, if_pos h]
      refine .last (low_iff.mpr ?_)
      rw [toNat_ofNat (by omega)]
      exact h
  | case2 n h ih =>
      rw [encode, if_neg h]
      refine .more ?_ ih
      rw [low_iff, toNat_ofNat (by omega)]
      omega

theorem value_encode (n : Nat) : value (encode n) = n := by
  induction n using encode.induct with
  | case1 n h =>
      rw [encode, if_pos h, value_cons, toNat_ofNat (by omega), value_nil]
      omega
  | case2 n h ih =>
      rw [encode, if_neg h, value_cons, toNat_ofNat (by omega), ih]
      omega

theorem length_encode_le {k : Nat} (hk : 0 < k) (h : n < 128 ^ k) : (encode n).length ≤ k := by
  induction k generalizing n with
  | zero => omega
  | succ k ih =>
      rw [encode]
      split
      · exact hk
      · rw [Nat.pow_succ] at h
        have hlt : n / 128 < 128 ^ k := Nat.div_lt_of_lt_mul (by omega)
        have hpos : 0 < k := by
          by_contra hzero
          rw [Nat.eq_zero_of_not_pos hzero, Nat.pow_zero] at hlt
          omega
        rw [List.length_cons]
        exact Nat.succ_le_succ (ih hpos hlt)

/-- Any code of a number is its shortest one, or longer. -/
theorem Code.eq_encode_or_longer (h : Code bs) :
    bs = encode (value bs) ∨ (encode (value bs)).length < bs.length := by
  induction h with
  | @last b h =>
      left
      rw [value_last h, encode, if_pos (low_iff.mp h), UInt8.ofNat_toNat]
  | @more b bs h hbs ih =>
      rw [value_cons, encode]
      split
      · right
        cases hbs <;> simp
      · have hlow : (b.toNat % 128 + 128 * value bs) % 128 = b.toNat % 128 := by omega
        have hhigh : (b.toNat % 128 + 128 * value bs) / 128 = value bs := by omega
        have hbyte : UInt8.ofNat (b.toNat % 128 + 128) = b := by
          have hb := b.toNat_lt
          rw [low_iff] at h
          rw [show b.toNat % 128 + 128 = b.toNat from by omega, UInt8.ofNat_toNat]
        rw [hlow, hhigh, hbyte, List.length_cons, List.length_cons, List.cons.injEq]
        exact ih.imp (fun heq => ⟨rfl, heq⟩) Nat.succ_lt_succ

/-- No code begins another one. -/
theorem Code.eq_of_front (h : Code bs) (h' : Code cs) (hfront : bs <+: cs) : bs = cs := by
  induction h generalizing cs with
  | last hb =>
      obtain ⟨rest, rfl⟩ := hfront
      cases h' with
      | last _ => rfl
      | more hmore _ => exact absurd hb hmore
  | @more b bs hb hbs ih =>
      cases h' with
      | last hlast =>
          rw [(List.cons_prefix_cons.mp hfront).1] at hb
          exact absurd hlast hb
      | more _ hcs =>
          obtain ⟨rfl, hrest⟩ := List.cons_prefix_cons.mp hfront
          rw [ih hcs hrest]

/-! ## What is taken -/

theorem Code.front_append (h : Code bs) (hlen : bs.length ≤ n) (rest : List UInt8) :
    front n (bs ++ rest) = some bs := by
  induction h generalizing n with
  | last hb =>
      obtain ⟨n, rfl⟩ := Nat.exists_eq_succ_of_ne_zero (by simp at hlen; omega : n ≠ 0)
      exact if_pos hb
  | @more b bs hb _ ih =>
      rw [List.length_cons] at hlen
      obtain ⟨n, rfl⟩ := Nat.exists_eq_succ_of_ne_zero (by omega : n ≠ 0)
      rw [List.cons_append, front, if_neg hb, ih (by omega)]
      rfl

/-- What is taken stands at the front of the data. -/
theorem front_of_taken (h : Taken n bs) (hdata : bs <+: cs) : front n cs = some bs := by
  obtain ⟨rest, rfl⟩ := hdata
  obtain ⟨hcode, hlen⟩ | ⟨rfl, hmore⟩ := h
  · exact hcode.front_append hlen rest
  · induction bs with
    | nil => simp [front]
    | cons b bs ih =>
        rw [List.length_cons, List.cons_append, front, if_neg (hmore b List.mem_cons_self),
          ih fun c hc => hmore c (List.mem_cons_of_mem b hc)]
        rfl

/-- It is too little exactly if every byte asks for more. -/
theorem front_eq_none_iff : front n bs = none ↔ bs.length < n ∧ ∀ b ∈ bs, ¬b < 0x80 := by
  induction bs generalizing n with
  | nil => cases n <;> simp [front]
  | cons b bs ih =>
      cases n with
      | zero => simp [front]
      | succ n =>
          rw [front]
          split
          · rename_i hb
            simp [hb]
          · rename_i hb
            rw [Option.map_eq_none_iff, ih, List.length_cons, Nat.succ_lt_succ_iff,
              List.forall_mem_cons]
            exact and_congr_right fun _ => (and_iff_right hb).symm

end Hps.Lib.Base128
