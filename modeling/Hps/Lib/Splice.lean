import Mathlib.Data.List.Basic
import Mathlib.Tactic.SplitIfs

/-!
# Overwriting a stretch of a list

`splice l i d` is `l` with `d` copied over it from index `i` on, and longer
than `l` if `d` reaches past its end: `memcpy` into a buffer, or a write at
the cursor of a growing vector. Everything about it follows from where each
of its elements comes from (`getElem?_splice`).
-/

namespace Hps.Lib

variable {α : Type} {l d : List α} {i : Nat}

def splice (l : List α) (i : Nat) (d : List α) : List α :=
  l.take i ++ d ++ l.drop (i + d.length)

theorem getElem?_splice (h : i ≤ l.length) (k : Nat) :
    (splice l i d)[k]? =
      if k < i then l[k]? else if k < i + d.length then d[k - i]? else l[k]? := by
  rw [splice]
  by_cases hk : k < i
  · rw [if_pos hk, List.append_assoc,
      List.getElem?_append_left (by rw [List.length_take]; omega),
      List.getElem?_take_of_lt hk]
  · rw [if_neg hk, List.append_assoc,
      List.getElem?_append_right (by rw [List.length_take]; omega),
      List.length_take, Nat.min_eq_left h]
    by_cases hk' : k < i + d.length
    · rw [if_pos hk', List.getElem?_append_left (by omega)]
    · rw [if_neg hk', List.getElem?_append_right (by omega), List.getElem?_drop]
      congr 1
      omega

theorem length_splice (h : i ≤ l.length) :
    (splice l i d).length = max l.length (i + d.length) := by
  simp only [splice, List.length_append, List.length_take, List.length_drop]
  omega

theorem splice_nil : splice l i [] = l := by
  simp [splice]

theorem splice_append_left {a b : List α} (h : i + d.length ≤ a.length) :
    splice (a ++ b) i d = splice a i d ++ b := by
  simp only [splice]
  rw [List.take_append_of_le_length (by omega), List.drop_append_of_le_length h,
    List.append_assoc, List.append_assoc, List.append_assoc]

theorem splice_append_right {a b : List α} (h : a.length ≤ i) :
    splice (a ++ b) i d = a ++ splice b (i - a.length) d := by
  simp only [splice]
  rw [List.take_append, List.drop_append, List.take_of_length_le h,
    List.drop_of_length_le (by omega), List.nil_append,
    show i + d.length - a.length = i - a.length + d.length from by omega]
  simp only [List.append_assoc]

/-- A copy that runs across the seam of two buffers. -/
theorem splice_append_across {a b : List α} (h : i ≤ a.length)
    (h' : a.length ≤ i + d.length) :
    splice (a ++ b) i d =
      splice a i (d.take (a.length - i)) ++ splice b 0 (d.drop (a.length - i)) := by
  have hlen : (d.take (a.length - i)).length = a.length - i := by
    rw [List.length_take]
    omega
  have hlen' : (d.drop (a.length - i)).length = i + d.length - a.length := by
    rw [List.length_drop]
    omega
  simp only [splice]
  rw [hlen, hlen', List.take_append_of_le_length h, List.drop_append,
    List.drop_of_length_le (by omega : a.length ≤ i + d.length), List.nil_append,
    show i + (a.length - i) = a.length from by omega, List.drop_length,
    List.append_nil, List.take_zero, List.nil_append, Nat.zero_add]
  simp only [List.append_assoc]
  rw [← List.append_assoc (d.take _), List.take_append_drop]

/-- Copying into a buffer of which only the first `n` elements count. -/
theorem take_splice {n : Nat} (hi : i ≤ n) (hn : n ≤ l.length) :
    (splice l i d).take (max n (i + d.length)) = splice (l.take n) i d := by
  ext1 k
  rw [getElem?_splice (by rw [List.length_take]; omega), List.getElem?_take,
    getElem?_splice (by omega), List.getElem?_take]
  split_ifs <;> first | rfl | omega

/-- Two copies, the second from where the first ended. -/
theorem splice_splice {d' : List α} (h : i ≤ l.length) :
    splice (splice l i d) (i + d.length) d' = splice l i (d ++ d') := by
  have hlen := length_splice (d := d) h
  ext1 k
  rw [getElem?_splice (by omega), getElem?_splice h, getElem?_splice h,
    List.getElem?_append, List.length_append]
  split_ifs <;> first | rfl | omega | (congr 1; omega)

/-- A copy in two parts, cut after `n` elements. -/
theorem splice_take_drop (h : i ≤ l.length) (n : Nat) :
    splice (splice l i (d.take n)) (i + n) (d.drop n) = splice l i d := by
  by_cases hn : d.length ≤ n
  · rw [List.take_of_length_le hn, List.drop_of_length_le hn, splice_nil]
  · have hlen : (d.take n).length = n := by
      rw [List.length_take]
      omega
    have htwo : splice (splice l i (d.take n)) (i + (d.take n).length) (d.drop n) =
        splice l i (d.take n ++ d.drop n) := splice_splice h
    rw [hlen, List.take_append_drop] at htwo
    exact htwo

end Hps.Lib
