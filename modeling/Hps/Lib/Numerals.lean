import Mathlib.Algebra.Group.Nat.Defs
import Mathlib.Data.List.Basic

/-!
# Numerals

The digits of a number in a base up to sixteen, as a stream prints them, and
the number that digits stand for. What is printed is read back
(`readNumeral_numeral`), so that two numbers are never printed the same.
-/

namespace Hps.Lib.Numerals

/-- The digits of `n`, in lower case. -/
def numeral (b n : Nat) : List UInt8 := (Nat.toDigits b n).map Char.toUInt8

/-- The value of a digit in either case. -/
def digitOf (c : UInt8) : Option Nat :=
  if 48 ≤ c ∧ c ≤ 57 then some (c.toNat - 48)
  else if 97 ≤ c ∧ c ≤ 102 then some (c.toNat - 87)
  else if 65 ≤ c ∧ c ≤ 70 then some (c.toNat - 55)
  else none

/-- The number with these digits. -/
def readNumeral (b : Nat) (ds : List UInt8) : Option Nat :=
  ds.foldlM (fun v c => (digitOf c).map (v * b + ·)) 0

variable {b : Nat}

theorem digitOf_digitChar {d : Nat} (hd : d < 16) :
    digitOf d.digitChar.toUInt8 = some d := by
  revert d
  decide

theorem numeral_of_lt {n : Nat} (h : n < b) : numeral b n = [n.digitChar.toUInt8] := by
  rw [numeral, Nat.toDigits_of_lt_base h, List.map_singleton]

theorem numeral_of_le {n : Nat} (hb : 1 < b) (h : b ≤ n) :
    numeral b n = numeral b (n / b) ++ [(n % b).digitChar.toUInt8] := by
  rw [numeral, Nat.toDigits_of_base_le hb h, List.map_append, List.map_singleton, numeral]

theorem numeral_ne_nil (b n : Nat) : numeral b n ≠ [] :=
  mt List.map_eq_nil_iff.mp Nat.toDigits_ne_nil

theorem length_numeral_le {k n : Nat} (hb : 1 < b) (hk : 0 < k) (hn : n < b ^ k) :
    (numeral b n).length ≤ k := by
  rw [numeral, List.length_map]
  exact (Nat.length_toDigits_le_iff hb hk).mpr hn

/-- **A number that was printed is read back.** -/
theorem readNumeral_numeral (hb : 1 < b) (hle : b ≤ 16) (n : Nat) :
    readNumeral b (numeral b n) = some n := by
  induction n using Nat.strongRecOn with
  | ind n ih =>
      by_cases hn : n < b
      · rw [numeral_of_lt hn, readNumeral, List.foldlM_cons, digitOf_digitChar (by omega)]
        simp
      · have hdiv : n / b < n := Nat.div_lt_self (by omega) hb
        have hmod : n % b < b := Nat.mod_lt n (by omega)
        have hrest := ih (n / b) hdiv
        rw [readNumeral] at hrest
        rw [numeral_of_le hb (by omega), readNumeral, List.foldlM_append, hrest]
        simp only [Option.bind_eq_bind, Option.bind_some, List.foldlM_cons, List.foldlM_nil,
          digitOf_digitChar (show n % b < 16 by omega), Option.map_some, Option.pure_def]
        rw [Nat.mul_comm, Nat.div_add_mod]

theorem numeral_injective (hb : 1 < b) (hle : b ≤ 16) {m n : Nat}
    (h : numeral b m = numeral b n) : m = n := by
  have hm := readNumeral_numeral hb hle m
  rw [h, readNumeral_numeral hb hle n] at hm
  exact (Option.some.inj hm).symm

/-- Every character of a number is a digit. -/
theorem digitOf_of_mem (hb : 1 < b) (hle : b ≤ 16) {n : Nat} {c : UInt8} (hc : c ∈ numeral b n) :
    (digitOf c).isSome := by
  induction n using Nat.strongRecOn with
  | ind n ih =>
      by_cases hn : n < b
      · rw [numeral_of_lt hn] at hc
        rw [List.mem_singleton.mp hc, digitOf_digitChar (by omega)]
        rfl
      · rw [numeral_of_le hb (by omega)] at hc
        rcases List.mem_append.mp hc with hc | hc
        · exact ih (n / b) (Nat.div_lt_self (by omega) hb) hc
        · have hmod : n % b < b := Nat.mod_lt n (by omega)
          rw [List.mem_singleton.mp hc, digitOf_digitChar (by omega)]
          rfl

/-- The characters of a number in base ten. -/
def decimalDigit (c : UInt8) : Bool := 48 ≤ c && c ≤ 57

theorem decimal_of_mem {n : Nat} {c : UInt8} (hc : c ∈ numeral 10 n) : decimalDigit c = true := by
  have hdigit : ∀ d < 10, decimalDigit d.digitChar.toUInt8 = true := by decide
  induction n using Nat.strongRecOn with
  | ind n ih =>
      by_cases hn : n < 10
      · rw [numeral_of_lt hn] at hc
        rw [List.mem_singleton.mp hc]
        exact hdigit n hn
      · rw [numeral_of_le (by decide) (by omega)] at hc
        rcases List.mem_append.mp hc with hc | hc
        · exact ih (n / 10) (by omega) hc
        · rw [List.mem_singleton.mp hc]
          exact hdigit (n % 10) (by omega)

theorem digitOf_lt {c : UInt8} {d : Nat} (h : digitOf c = some d) : d < 16 := by
  rw [digitOf] at h
  split at h
  · rename_i hc
    obtain rfl := Option.some.inj h
    have := UInt8.le_iff_toNat_le.mp hc.2
    have h57 : (57 : UInt8).toNat = 57 := rfl
    omega
  · split at h
    · rename_i hc
      obtain rfl := Option.some.inj h
      have := UInt8.le_iff_toNat_le.mp hc.2
      have h102 : (102 : UInt8).toNat = 102 := rfl
      omega
    · split at h
      · rename_i hc
        obtain rfl := Option.some.inj h
        have := UInt8.le_iff_toNat_le.mp hc.2
        have h70 : (70 : UInt8).toNat = 70 := rfl
        omega
      · cases h

/-- How large a hexadecimal number is. -/
theorem readNumeral_lt {ds : List UInt8} {v : Nat} (h : readNumeral 16 ds = some v) :
    v < 16 ^ ds.length := by
  have hfold : ∀ (ds : List UInt8) (k v : Nat),
      ds.foldlM (fun v c => (digitOf c).map (v * 16 + ·)) k = some v →
      v < (k + 1) * 16 ^ ds.length := by
    intro ds
    induction ds with
    | nil =>
        intro k v h
        obtain rfl := Option.some.inj h
        simp
    | cons c ds ih =>
        intro k v h
        rw [List.foldlM_cons, Option.bind_eq_bind, Option.bind_eq_some_iff] at h
        obtain ⟨k', hk, hrest⟩ := h
        obtain ⟨d, hd, rfl⟩ := Option.map_eq_some_iff.mp hk
        have hlt := ih _ v hrest
        have hdigit := digitOf_lt hd
        calc v < (k * 16 + d + 1) * 16 ^ ds.length := hlt
          _ ≤ ((k + 1) * 16) * 16 ^ ds.length := Nat.mul_le_mul_right _ (by omega)
          _ = (k + 1) * 16 ^ (ds.length + 1) := by rw [Nat.pow_succ, Nat.mul_assoc, Nat.mul_comm 16]
  have hlt := hfold ds 0 v h
  rwa [Nat.zero_add, Nat.one_mul] at hlt

/-- What is no digit is in no number. -/
theorem not_mem_numeral (hb : 1 < b) (hle : b ≤ 16) {c : UInt8} (hc : digitOf c = none) (n : Nat) :
    c ∉ numeral b n := by
  intro h
  have hdigit := digitOf_of_mem hb hle h
  rw [hc] at hdigit
  cases hdigit

/-- Only the number zero begins with a zero. -/
theorem numeral_head (hb : 1 < b) (hle : b ≤ 16) {n : Nat}
    (h : (numeral b n).head? = some 48) : n = 0 := by
  induction n using Nat.strongRecOn with
  | ind n ih =>
      by_cases hn : n < b
      · rw [numeral_of_lt hn, List.head?_singleton, Option.some.injEq] at h
        have hdigit := digitOf_digitChar (show n < 16 by omega)
        rw [h] at hdigit
        exact (Option.some.inj hdigit).symm
      · have hne : numeral b (n / b) ≠ [] := numeral_ne_nil b _
        rw [numeral_of_le hb (by omega), List.head?_append_of_ne_nil _ hne] at h
        have hzero := ih (n / b) (Nat.div_lt_self (by omega) hb) h
        rw [Nat.div_eq_zero_iff] at hzero
        omega

/-- A number of one digit, if it begins with a zero. -/
theorem length_of_head (hb : 1 < b) (hle : b ≤ 16) {n : Nat}
    (h : (numeral b n).head? = some 48) : (numeral b n).length = 1 := by
  rw [numeral_head hb hle h, numeral_of_lt (by omega)]
  rfl

end Hps.Lib.Numerals
