import Mathlib.Data.List.DropRight

/-!
# Lists stripped at an end

What is left of a list without its longest front, or its longest back, of
elements with a property; the two commute, and what has neither is kept. The
bounds of both as positions: the first and the last element that is kept.
-/

namespace Hps.Lib.Stripping

variable {α : Type} {p : α → Bool} {s t : List α}

/-- `t` is `s` without its longest front of elements with `p`. -/
def WithoutFront (p : α → Bool) (s t : List α) : Prop :=
  ∃ front, s = front ++ t ∧ (∀ c ∈ front, p c) ∧
    ∀ q, q <+: s → (∀ c ∈ q, p c) → q.length ≤ front.length

/-- `t` is `s` without its longest back of elements with `p`. -/
def WithoutBack (p : α → Bool) (s t : List α) : Prop :=
  ∃ back, s = t ++ back ∧ (∀ c ∈ back, p c) ∧
    ∀ q, q <:+ s → (∀ c ∈ q, p c) → q.length ≤ back.length

/-- A front of elements with `p` is no longer than the longest one. -/
theorem length_le_takeWhile {q : List α} (hq : q <+: s) (hp : ∀ c ∈ q, p c) :
    q.length ≤ (s.takeWhile p).length := by
  obtain ⟨rest, rfl⟩ := hq
  have hself : q.takeWhile p = q := List.takeWhile_eq_self_iff.mpr hp
  rw [List.takeWhile_append, hself, if_pos rfl, List.length_append]
  exact Nat.le_add_right _ _

theorem withoutFront_iff : WithoutFront p s t ↔ t = s.dropWhile p := by
  constructor
  · rintro ⟨front, hs, hall, hlongest⟩
    have hlong := hlongest _ (List.takeWhile_prefix p) fun c hc => List.mem_takeWhile_imp hc
    have hshort := length_le_takeWhile ⟨t, hs.symm⟩ hall
    have hsplit : front ++ t = s.takeWhile p ++ s.dropWhile p := by
      rw [List.takeWhile_append_dropWhile, hs]
    exact (List.append_inj hsplit (Nat.le_antisymm hshort hlong)).2
  · rintro rfl
    refine ⟨s.takeWhile p, List.takeWhile_append_dropWhile.symm, ?_, ?_⟩
    · intro c hc
      exact List.mem_takeWhile_imp hc
    · intro q hq hp
      exact length_le_takeWhile hq hp

/-- The back of a list is the front of the reversed one. -/
theorem withoutBack_iff_reverse :
    WithoutBack p s t ↔ WithoutFront p s.reverse t.reverse := by
  constructor
  · rintro ⟨back, rfl, hall, hlongest⟩
    refine ⟨back.reverse, List.reverse_append, by simpa using hall, ?_⟩
    intro q hq hp
    have h := hlongest q.reverse (List.reverse_prefix.mp (by simpa using hq)) (by simpa using hp)
    simpa using h
  · rintro ⟨front, hs, hall, hlongest⟩
    refine ⟨front.reverse, by simpa using congrArg List.reverse hs, by simpa using hall, ?_⟩
    intro q hq hp
    have h := hlongest q.reverse (List.reverse_prefix.mpr hq) (by simpa using hp)
    simpa using h

theorem withoutBack_iff : WithoutBack p s t ↔ t = s.rdropWhile p := by
  rw [withoutBack_iff_reverse, withoutFront_iff, List.rdropWhile]
  exact List.reverse_eq_iff

/-! ## Both ends -/

/-- Each end is stripped whether or not the other one is. -/
theorem dropWhile_rdropWhile (p : α → Bool) (s : List α) :
    (s.rdropWhile p).dropWhile p = (s.dropWhile p).rdropWhile p := by
  induction s using List.reverseRecOn with
  | nil => rfl
  | append_singleton s c ih =>
      rw [List.dropWhile_append]
      by_cases hc : p c
      · rw [List.rdropWhile_concat_pos _ _ _ hc, ih]
        -- the front is all of `s`, or ends before `c`
        split
        · rename_i hnone
          rw [List.isEmpty_iff.mp hnone, List.dropWhile_cons_of_pos hc]
          rfl
        · rw [List.rdropWhile_concat_pos _ _ _ hc]
      · rw [List.rdropWhile_concat_neg _ _ _ hc, List.dropWhile_append]
        split
        · rw [List.dropWhile_cons_of_neg hc, ← List.nil_append [c],
            List.rdropWhile_concat_neg _ _ _ hc]
        · rw [List.rdropWhile_concat_neg _ _ _ hc]

theorem dropWhile_dropLast (p : α → Bool) (s : List α) :
    s.dropLast.dropWhile p = (s.dropWhile p).dropLast := by
  induction s with
  | nil => rfl
  | cons c s ih =>
      cases s with
      | nil => by_cases hc : p c <;> simp [hc]
      | cons d s =>
          by_cases hc : p c
          · rw [List.dropLast_cons_cons, List.dropWhile_cons_of_pos hc,
              List.dropWhile_cons_of_pos hc, ih]
          · rw [List.dropLast_cons_cons, List.dropWhile_cons_of_neg hc,
              List.dropWhile_cons_of_neg hc, List.dropLast_cons_cons]

/-- Both bounds as positions. -/
theorem stripped_eq_slice {i j : Nat} (hi : i < s.length) (hj : j ≤ s.length)
    (hfront : s.dropWhile p = s.drop i) (hback : s.rdropWhile p = s.take j) :
    i < j ∧ (s.dropWhile p).rdropWhile p = (s.drop i).take (j - i) := by
  have hrest : s.rtakeWhile p = s.drop j := by
    have h := List.rdropWhile_append_rtakeWhile (p := p) (l := s)
    rw [hback] at h
    exact List.append_cancel_left (h.trans (List.take_append_drop j s).symm)
  have hsplit : s.drop i = (s.take j ++ s.drop j).dropWhile p := by
    rw [List.take_append_drop, hfront]
  rw [← dropWhile_rdropWhile, hback]
  rw [List.dropWhile_append] at hsplit
  split at hsplit
  · -- the element at `i` would have the property
    have hnone : (s.drop j).dropWhile p = [] := by
      rw [← hrest]
      exact List.dropWhile_eq_nil_iff.mpr fun c hc => List.mem_rtakeWhile_imp hc
    rw [hnone, List.drop_eq_nil_iff] at hsplit
    omega
  · rename_i hsome
    have hpos : 0 < ((s.take j).dropWhile p).length :=
      List.length_pos_iff.mpr fun h => hsome (List.isEmpty_iff.mpr h)
    have hlen := congrArg List.length hsplit
    rw [List.length_append, List.length_drop, List.length_drop] at hlen
    refine ⟨by omega, ?_⟩
    rw [hsplit, List.take_left' (by omega)]

/-- What has the property nowhere stays. -/
theorem mem_stripped {c : α} (hc : ¬p c) :
    c ∈ (s.dropWhile p).rdropWhile p ↔ c ∈ s := by
  have hfront : ∀ l : List α, c ∈ l.dropWhile p ↔ c ∈ l := by
    intro l
    have hnot : c ∉ l.takeWhile p := fun h => hc (List.mem_takeWhile_imp h)
    conv_rhs => rw [← List.takeWhile_append_dropWhile (p := p) (l := l)]
    rw [List.mem_append, or_iff_right hnot]
  rw [List.rdropWhile, List.mem_reverse, hfront, List.mem_reverse, hfront]

/-- Only the property, and nothing is left. -/
theorem stripped_eq_nil_iff : (s.dropWhile p).rdropWhile p = [] ↔ ∀ c ∈ s, p c := by
  constructor
  · intro h c hc
    by_contra hp
    have hmem := (mem_stripped (s := s) hp).mpr hc
    rw [h] at hmem
    cases hmem
  · intro h
    rw [List.dropWhile_eq_nil_iff.mpr h]
    rfl

end Hps.Lib.Stripping
