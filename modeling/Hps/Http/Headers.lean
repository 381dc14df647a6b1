import Hps.Lib.OrderedMap
import Hps.Http.Message

/-!
# HTTP — the header map

`CaseInsensitiveLess` compares the keys up to their first NUL, letters in
lower case, so that it is a strict weak order and the header map an ordered
map over it. The last section is about the numbers a header can hold: what
`lexical_cast` reads of a number that was printed.
-/

namespace Hps.Http

open Hps.Lib

/-! ## Names -/

theorem tolower_eq_zero (c : UInt8) : tolower c = 0 ↔ c = 0 := by
  unfold tolower upper ch
  split
  · rename_i h
    simp only [Bool.and_eq_true, decide_eq_true_eq, UInt8.le_iff_toNat_le] at h
    have h1 : ('A'.toUInt8).toNat = 65 := rfl
    have h2 : ('Z'.toUInt8).toNat = 90 := rfl
    rw [← UInt8.toNat_inj, ← UInt8.toNat_inj, UInt8.toNat_add]
    have h3 : (32 : UInt8).toNat = 32 := rfl
    have h4 : (0 : UInt8).toNat = 0 := rfl
    omega
  · rfl

theorem tolower_zero : tolower 0 = 0 := rfl

theorem compare_tolower_zero {c : UInt8} (h : c ≠ 0) :
    compare 0 (tolower c) = .lt := by
  have hne := mt (tolower_eq_zero c).mp h
  have hlt : 0 < tolower c := by
    rw [UInt8.lt_iff_toNat_lt]
    exact Nat.pos_of_ne_zero fun h0 => hne (UInt8.toNat_inj.mp h0)
  exact compareOfLessAndEq_eq_lt.mpr hlt

/-- What `strcasecmp` sees of a string. -/
def folded (s : List UInt8) : List UInt8 := (s.takeWhile (· != 0)).map tolower

@[simp] theorem folded_nil : folded [] = [] := rfl

@[simp] theorem folded_zero (s : List UInt8) : folded (0 :: s) = [] := rfl

theorem folded_cons {c : UInt8} (h : c ≠ 0) (s : List UInt8) :
    folded (c :: s) = tolower c :: folded s := by
  simp [folded, h]

theorem strcasecmp_eq_compare (a b : List UInt8) :
    strcasecmp a b = compare (folded a) (folded b) := by
  induction a generalizing b with
  | nil =>
      cases b with
      | nil => rfl
      | cons d b =>
          by_cases hd : d = 0
          · simp [strcasecmp, hd]
          · simp [strcasecmp, hd, folded_cons hd]
  | cons c a ih =>
      cases b with
      | nil =>
          by_cases hc : c = 0
          · simp [strcasecmp, hc]
          · simp [strcasecmp, hc, folded_cons hc]
      | cons d b =>
          by_cases hc : c = 0
          · by_cases hd : d = 0
            · simp [strcasecmp, hc, hd]
            · have hlt := compare_tolower_zero hd
              simp [strcasecmp, hc, folded_cons hd, tolower_zero, hlt]
          · by_cases hd : d = 0
            · have hgt := compare_tolower_zero hc
              simp [strcasecmp, hd, folded_cons hc, tolower_zero,
                Std.OrientedCmp.gt_of_lt hgt]
            · simp only [strcasecmp, folded_cons hc, folded_cons hd,
                List.compare_cons_cons, ih, hc, if_false]
              cases compare (tolower c) (tolower d) <;> rfl

/-! ## The map -/

/-- The keys that are the same to the map. -/
def SameName (a b : List UInt8) : Prop := strcasecmp a b = .eq

instance : DecidableRel SameName := fun a b =>
  inferInstanceAs (Decidable (strcasecmp a b = .eq))

/-- `CaseInsensitiveLess` as the order of the map. -/
abbrev NameLess (a b : List UInt8) : Prop := caseInsensitiveLess a b = true

theorem nameLess_iff {a b : List UInt8} :
    NameLess a b ↔ compare (folded a) (folded b) = .lt := by
  simp [NameLess, caseInsensitiveLess, strcasecmp_eq_compare]

/-- Keys that differ are in order one way or the other. -/
theorem nameLess_or_of_not_same {a b : List UInt8} (h : ¬SameName a b) :
    NameLess a b ∨ NameLess b a := by
  rw [SameName, strcasecmp_eq_compare] at h
  rw [nameLess_iff, nameLess_iff]
  cases hc : compare (folded a) (folded b) with
  | lt => exact .inl rfl
  | eq => exact absurd hc h
  | gt => exact .inr (Std.OrientedCmp.lt_of_gt hc)

instance : IsStrictWeakOrder (List UInt8) NameLess where
  irrefl a h := by
    have := nameLess_iff.mp h
    simp at this
  trans a b c h h' :=
    nameLess_iff.mpr (Std.TransCmp.lt_trans (nameLess_iff.mp h)
      (nameLess_iff.mp h'))
  incomp_trans a b c h h' := by
    have heq : ∀ {x y}, ¬NameLess x y ∧ ¬NameLess y x →
        compare (folded x) (folded y) = .eq := by
      rintro x y ⟨h1, h2⟩
      rw [← strcasecmp_eq_compare]
      by_contra hne
      exact (nameLess_or_of_not_same hne).elim h1 h2
    have hac := Std.TransCmp.eq_trans (heq h) (heq h')
    rw [nameLess_iff, nameLess_iff, hac, Std.OrientedCmp.eq_symm hac]
    exact ⟨nofun, nofun⟩

theorem MapType.set_eq (key val : List UInt8) (m : MapType) :
    MapType.set key val m = OrderedMap.set NameLess key val m := by
  induction m with
  | nil => rfl
  | cons x m ih => rw [MapType.set, OrderedMap.set, ih]

theorem MapType.find_eq (m : MapType) (key : List UInt8) :
    m.find key = OrderedMap.find NameLess key m := by
  simp [MapType.find, OrderedMap.find]

/-! ## Numbers -/

/-- What `<<` prints of an unsigned number. -/
def decimal (n : Nat) : List UInt8 := text (toString n)

theorem decimal_eq (n : Nat) : decimal n = (Nat.toDigits 10 n).map ch := by
  rw [decimal, text, Nat.toString_eq_ofList_toDigits, String.toList_ofList]

theorem isDigit_bounds {c : Char} (h : c.isDigit = true) :
    48 ≤ c.toNat ∧ c.toNat ≤ 57 := by
  simp only [Char.isDigit, ge_iff_le, Bool.and_eq_true, decide_eq_true_eq,
    UInt32.le_iff_toNat_le] at h
  exact h

theorem ch_toNat {c : Char} (h : c.isDigit = true) : (ch c).toNat = c.toNat := by
  have hb := isDigit_bounds h
  have hmod : (ch c).toNat = c.toNat % 2 ^ 8 := rfl
  omega

theorem digit_ch {c : Char} (h : c.isDigit = true) : digit (ch c) = true := by
  have hb := isDigit_bounds h
  simp only [digit, Bool.and_eq_true, decide_eq_true_eq, UInt8.le_iff_toNat_le,
    ch_toNat h]
  exact hb

/-- The value of a printed digit. -/
theorem ch_sub_zero {c : Char} (h : c.isDigit = true) :
    (ch c - ch '0').toNat = c.toNat - '0'.toNat := by
  have hb := isDigit_bounds h
  have h0 : ch '0' ≤ ch c := by
    rw [UInt8.le_iff_toNat_le, ch_toNat h]
    exact hb.1
  rw [UInt8.toNat_sub_of_le _ _ h0, ch_toNat h]
  rfl

theorem foldl_decimal (cs : List Char) (hcs : ∀ c ∈ cs, c.isDigit = true)
    (v : Nat) :
    (cs.map ch).foldl (fun v c => v * 10 + (c - ch '0').toNat) v =
      Nat.ofDigitChars 10 cs v := by
  induction cs generalizing v with
  | nil => rfl
  | cons c cs ih =>
      have hc := hcs c List.mem_cons_self
      rw [List.map_cons, List.foldl_cons, Nat.ofDigitChars_cons,
        ih fun d hd => hcs d (List.mem_cons_of_mem c hd), ch_sub_zero hc,
        Nat.mul_comm]

theorem decimal_digits (n : Nat) : (decimal n).all digit = true := by
  rw [decimal_eq, List.all_map, List.all_eq_true]
  intro c hc
  exact digit_ch (Nat.isDigit_of_mem_toDigits (by decide) (by decide) hc)

/-- **A number that was printed is read back.** -/
theorem lexicalCastU64_decimal (n : UInt64) :
    lexicalCastU64 (decimal n.toNat) = some n := by
  have hall := decimal_digits n.toNat
  have hsign : ∀ c, digit c = false → (decimal n.toNat).head? ≠ some c := by
    intro c hc hhead
    have := List.all_eq_true.mp hall c (List.mem_of_head? hhead)
    rw [hc] at this
    cases this
  have hne : decimal n.toNat ≠ [] := by
    rw [decimal_eq]
    exact mt List.map_eq_nil_iff.mp Nat.toDigits_ne_nil
  have hval : (decimal n.toNat).foldl (fun v c => v * 10 + (c - ch '0').toNat) 0 =
      n.toNat := by
    rw [decimal_eq, foldl_decimal _ fun c hc =>
      Nat.isDigit_of_mem_toDigits (by decide) (by decide) hc,
      Nat.ofDigitChars_ten_toDigits]
  have hminus := hsign (ch '-') rfl
  have hplus := hsign (ch '+') rfl
  simp only [lexicalCastU64, hminus, hplus, or_self, if_false, hval, hall]
  rw [if_pos ⟨hne, trivial, n.toNat_lt⟩, UInt64.ofNat_toNat]

end Hps.Http
