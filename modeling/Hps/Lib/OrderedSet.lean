import Mathlib.Order.Defs.Unbundled
import Mathlib.Data.List.TakeDrop
import Mathlib.Data.List.TakeWhile

/-!
# Ordered sets as sorted lists

`std::set<T, Compare>` kept as the list of its elements in order. The
comparator is any decidable strict total order `r`, and two elements are
the same to the set when neither is below the other. An iterator is the
element it points to, or the split of the list where it stands.
-/

namespace Hps.Lib.OrderedSet

variable {α : Type} (r : α → α → Prop)

/-- The elements in order; a strict order leaves no room for repetitions. -/
abbrev Ordered (l : List α) : Prop := l.Pairwise r

section Operations

variable [DecidableRel r]

/-- `insert(x)`: nothing happens when an equivalent element is there. -/
def insert (x : α) : List α → List α
  | [] => [x]
  | y :: ys =>
      if r x y then x :: y :: ys
      else if r y x then y :: insert x ys
      else y :: ys

/-- `find(x)`; `none` is `end()`. -/
def find (x : α) (l : List α) : Option α :=
  l.find? fun y => !decide (r x y) && !decide (r y x)

/-- `lower_bound(x)`: what lies before the iterator, and what it and the
rest of the set are. -/
def lowerBound (x : α) (l : List α) : List α × List α :=
  l.span fun y => decide (r y x)

end Operations

variable {r} {x y : α} {l : List α}

theorem Ordered.nodup [Std.Irrefl r] (h : Ordered r l) : l.Nodup := by
  refine List.Pairwise.imp ?_ h
  rintro a _ hab rfl
  exact irrefl_of r a hab

/-- A second order that agrees with `r` on the elements keeps them in
order. -/
theorem Ordered.congr {r' : α → α → Prop} (h : Ordered r l)
    (hr : ∀ a ∈ l, ∀ b ∈ l, r a b → r' a b) : Ordered r' l :=
  List.Pairwise.imp_of_mem (fun ha hb hab => hr _ ha _ hb hab) h

theorem eq_or_mem_of_mem_insert [DecidableRel r] (h : y ∈ insert r x l) : y = x ∨ y ∈ l := by
  induction l with
  | nil => exact .inl (List.mem_singleton.mp h)
  | cons z zs ih =>
      rw [insert] at h
      split at h
      · exact List.mem_cons.mp h
      · split at h
        · rcases List.mem_cons.mp h with rfl | h
          · exact .inr List.mem_cons_self
          · exact (ih h).imp_right (List.mem_cons_of_mem z)
        · exact .inr h

theorem insert_ordered [DecidableRel r] [IsTrans α r] (h : Ordered r l) :
    Ordered r (insert r x l) := by
  induction l with
  | nil => exact List.pairwise_singleton r x
  | cons z zs ih =>
      obtain ⟨hz, hzs⟩ := List.pairwise_cons.mp h
      rw [insert]
      split
      · rename_i hxz
        refine List.pairwise_cons.mpr ⟨?_, h⟩
        intro y hy
        rcases List.mem_cons.mp hy with rfl | hy
        · exact hxz
        · exact trans_of r hxz (hz y hy)
      · split
        · rename_i hzx
          refine List.pairwise_cons.mpr ⟨?_, ih hzs⟩
          intro y hy
          rcases eq_or_mem_of_mem_insert hy with rfl | hy
          · exact hzx
          · exact hz y hy
        · exact h

/-- What lies above all others goes to the end. -/
theorem insert_last [DecidableRel r] [IsStrictOrder α r] (h : ∀ y ∈ l, r y x) :
    insert r x l = l ++ [x] := by
  induction l with
  | nil => rfl
  | cons y l ih =>
      have hy := h y List.mem_cons_self
      rw [insert, if_neg (asymm_of r hy), if_pos hy,
        ih fun z hz => h z (List.mem_cons_of_mem y hz), List.cons_append]

section Total

variable [IsStrictTotalOrder α r]

theorem eq_of_not_lt (h : ¬ r x y) (h' : ¬ r y x) : x = y := by
  rcases trichotomous_of r x y with hxy | hxy | hxy
  · exact absurd hxy h
  · exact hxy
  · exact absurd hxy h'

variable [DecidableRel r]

theorem find_eq [DecidableEq α] (x : α) (l : List α) :
    find r x l = if x ∈ l then some x else none := by
  induction l with
  | nil => rfl
  | cons y ys ih =>
      rw [find] at ih ⊢
      rw [List.find?_cons]
      by_cases hxy : x = y
      · subst hxy
        simp [irrefl_of r x]
      · have hne : (!decide (r x y) && !decide (r y x)) = false := by
          by_contra hc
          simp only [Bool.not_eq_false, Bool.and_eq_true, Bool.not_eq_true',
            decide_eq_false_iff_not] at hc
          exact hxy (eq_of_not_lt hc.1 hc.2)
        rw [hne]
        simp only [ih, List.mem_cons, hxy, false_or]

theorem mem_insert : y ∈ insert r x l ↔ y = x ∨ y ∈ l := by
  induction l with
  | nil => simp [insert]
  | cons z zs ih =>
      rw [insert]
      split
      · simp
      · rename_i hxz
        split
        · simp only [List.mem_cons, ih]
          exact or_left_comm
        · rename_i hzx
          rw [eq_of_not_lt hxz hzx]
          simp

/-- What is inserted stands at the front, or behind an element below it. -/
theorem head?_insert (hx : x ∉ l) :
    (insert r x l).head? = some x ∨ ∃ y ∈ l, r y x := by
  cases l with
  | nil => exact .inl rfl
  | cons z zs =>
      rw [insert]
      split
      · exact .inl rfl
      · rename_i hxz
        split
        · rename_i hzx
          exact .inr ⟨z, List.mem_cons_self, hzx⟩
        · rename_i hzx
          rw [eq_of_not_lt hxz hzx] at hx
          exact absurd List.mem_cons_self hx

end Total

/-! ## Cutting the set where a predicate stops -/

theorem span_of_lower {p : α → Bool} (h : Ordered r l)
    (hp : ∀ a ∈ l, ∀ b ∈ l, r a b → p b → p a) :
    l.takeWhile p = l.filter p ∧ l.dropWhile p = l.filter (!p ·) := by
  induction l with
  | nil => exact ⟨rfl, rfl⟩
  | cons z zs ih =>
      obtain ⟨hz, hzs⟩ := List.pairwise_cons.mp h
      obtain ⟨ih1, ih2⟩ := ih hzs fun a ha b hb =>
        hp a (List.mem_cons_of_mem z ha) b (List.mem_cons_of_mem z hb)
      by_cases hpz : p z = true
      · simp [hpz, ih1, ih2]
      · -- nothing above `z` satisfies a lower predicate that `z` fails
        have hnone : ∀ b ∈ zs, ¬ p b := fun b hb hpb =>
          hpz (hp z List.mem_cons_self b (List.mem_cons_of_mem z hb) (hz b hb) hpb)
        have hall : zs.filter (!p ·) = zs :=
          List.filter_eq_self.mpr fun b hb => by simpa using hnone b hb
        simp [hpz, List.filter_eq_nil_iff.mpr hnone, hall]

theorem span_congr {p q : α → Bool} (h : ∀ a ∈ l, p a = q a) :
    l.takeWhile p = l.takeWhile q ∧ l.dropWhile p = l.dropWhile q := by
  induction l with
  | nil => exact ⟨rfl, rfl⟩
  | cons z zs ih =>
      obtain ⟨ih1, ih2⟩ := ih fun a ha => h a (List.mem_cons_of_mem z ha)
      simp only [List.takeWhile_cons, List.dropWhile_cons, ih1, ih2,
        h z List.mem_cons_self, and_self]

/-- `lower_bound` and a scan after it together make one cut: if `p` cuts the
list and `q` goes on from there, the two cut at `p || q`. -/
theorem takeWhile_scan {p q : α → Bool} (h : Ordered r l)
    (hp : ∀ a ∈ l, ∀ b ∈ l, r a b → p b → p a) :
    l.takeWhile p ++ (l.dropWhile p).takeWhile q =
        l.takeWhile (fun a => p a || q a) ∧
      (l.dropWhile p).dropWhile q = l.dropWhile (fun a => p a || q a) := by
  induction l with
  | nil => exact ⟨rfl, rfl⟩
  | cons z zs ih =>
      obtain ⟨hz, hzs⟩ := List.pairwise_cons.mp h
      by_cases hpz : p z = true
      · obtain ⟨ih1, ih2⟩ := ih hzs fun a ha b hb =>
          hp a (List.mem_cons_of_mem z ha) b (List.mem_cons_of_mem z hb)
        simp [hpz, ih1, ih2]
      · have hnone : ∀ b ∈ zs, p b = false := fun b hb => by
          by_contra hpb
          exact hpz (hp z List.mem_cons_self b (List.mem_cons_of_mem z hb)
            (hz b hb) (by simpa using hpb))
        have hsame : ∀ b ∈ z :: zs, (p b || q b) = q b := by
          intro b hb
          rcases List.mem_cons.mp hb with rfl | hb
          · simp [hpz]
          · simp [hnone b hb]
        rw [List.takeWhile_cons_of_neg (by simpa using hpz),
          List.dropWhile_cons_of_neg (by simpa using hpz), List.nil_append]
        obtain ⟨h1, h2⟩ := span_congr hsame
        exact ⟨h1.symm, h2.symm⟩

end Hps.Lib.OrderedSet
