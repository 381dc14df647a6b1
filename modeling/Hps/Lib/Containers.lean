import Hps.Lib.OrderedSet
import Mathlib.Data.List.Perm.Subperm
import Mathlib.Data.List.Nodup
import Mathlib.Data.List.Forall2
import Mathlib.Data.Quot

/-!
# Containers and their iteration

A container holds values of a type with `==`, and has an order in which it is
iterated over. It can be rebuilt from there: values that are equal to its
elements, inserted in that order into an empty one, give an equal container.

* `sequence` — values at the end, in the order of insertion;
* `ordered` — values in the order of a comparator, none of them twice;
* `hashed` — values in the order of a hash table, which every insertion may
  change altogether, none of them twice.
-/

namespace Hps.Lib

/-- A type with a comparison `==`. -/
structure Compared where
  Val : Type
  eq : Val → Val → Bool
  equiv : Equivalence fun x y => eq x y = true

namespace Compared

/-- A type with decidable equality. -/
def ofEq (α : Type) [DecidableEq α] : Compared where
  Val := α
  eq x y := decide (x = y)
  equiv := by
    simp only [decide_eq_true_eq]
    exact eq_equivalence

/-- Pairs are compared in both parts. -/
def pair (κ : Type) [DecidableEq κ] (E : Compared) : Compared where
  Val := κ × E.Val
  eq x y := decide (x.1 = y.1) && E.eq x.2 y.2
  equiv := by
    simp only [Bool.and_eq_true, decide_eq_true_eq]
    constructor
    · exact fun x => ⟨rfl, E.equiv.refl x.2⟩
    · exact fun h => ⟨h.1.symm, E.equiv.symm h.2⟩
    · exact fun h h' => ⟨h.1.trans h'.1, E.equiv.trans h.2 h'.2⟩

/-- The key of an entry. -/
def key {κ : Type} [DecidableEq κ] {E : Compared} (x : (pair κ E).Val) : κ := x.1

theorem key_eq {κ : Type} [DecidableEq κ] {E : Compared} {x y : (pair κ E).Val}
    (h : (pair κ E).eq x y = true) : key x = key y :=
  of_decide_eq_true ((Bool.and_eq_true _ _).mp h).1

variable {E : Compared}

theorem refl (x : E.Val) : E.eq x x = true := E.equiv.refl x

/-- The values up to `==`. -/
def setoid (E : Compared) : Setoid E.Val := ⟨_, E.equiv⟩

def toQuotient (x : E.Val) : Quotient E.setoid := Quotient.mk _ x

theorem toQuotient_eq {x y : E.Val} : toQuotient x = toQuotient y ↔ E.eq x y = true := Quotient.eq

/-- Lists of equal values. -/
abbrev Alike (xs ys : List E.Val) : Prop := List.Forall₂ (fun x y => E.eq x y = true) xs ys

theorem Alike.map_toQuotient {xs ys : List E.Val} (h : Alike xs ys) :
    xs.map toQuotient = ys.map toQuotient := by
  induction h with
  | nil => rfl
  | cons hxy _ ih => rw [List.map_cons, List.map_cons, toQuotient_eq.mpr hxy, ih]

theorem Alike.exists_of_mem {xs ys : List E.Val} (h : Alike xs ys) {x : E.Val} (hx : x ∈ xs) :
    ∃ y ∈ ys, E.eq x y = true := by
  induction h with
  | nil => cases hx
  | cons hxy _ ih =>
      rcases List.mem_cons.mp hx with rfl | hx
      · exact ⟨_, List.mem_cons_self, hxy⟩
      · obtain ⟨y, hy, heq⟩ := ih hx
        exact ⟨y, List.mem_cons_of_mem _ hy, heq⟩

/-- A relation that does not tell equal values apart. -/
def Respects (E : Compared) (R : E.Val → E.Val → Prop) : Prop :=
  ∀ {x x' y y'}, E.eq x x' = true → E.eq y y' = true → R x' y' → R x y

/-- What holds of the values of one list pair by pair holds of those of the
other. -/
theorem Alike.pairwise {R : E.Val → E.Val → Prop} (hR : E.Respects R) {xs ys : List E.Val}
    (h : Alike xs ys) (hys : ys.Pairwise R) : xs.Pairwise R := by
  induction h with
  | nil => exact .nil
  | cons hxy htail ih =>
      rw [List.pairwise_cons] at hys
      refine List.pairwise_cons.mpr ⟨?_, ih hys.2⟩
      intro z hz
      obtain ⟨z', hz', hzz'⟩ := Alike.exists_of_mem htail hz
      exact hR hxy hzz' (hys.1 z' hz')

/-- `==` of lists. -/
theorem isEqv_iff {xs ys : List E.Val} : xs.isEqv ys E.eq = true ↔ Alike xs ys := by
  induction xs generalizing ys with
  | nil =>
      cases ys with
      | nil => exact iff_of_true rfl .nil
      | cons y ys => exact iff_of_false Bool.false_ne_true nofun
  | cons x xs ih =>
      cases ys with
      | nil => exact iff_of_false Bool.false_ne_true nofun
      | cons y ys =>
          rw [List.isEqv, Bool.and_eq_true, ih]
          exact (List.forall₂_cons (R := fun x y => E.eq x y = true)).symm

/-- Lists of values, compared one by one. -/
def list (E : Compared) : Compared where
  Val := List E.Val
  eq xs ys := xs.isEqv ys E.eq
  equiv := by
    constructor
    · intro xs
      exact isEqv_iff.mpr (List.forall₂_same.mpr fun x _ => E.equiv.refl x)
    · intro xs ys h
      exact isEqv_iff.mpr ((isEqv_iff.mp h).imp fun _ _ => E.equiv.symm).flip
    · intro xs ys zs h h'
      have htrans : ∀ xs ys zs : List E.Val, Alike xs ys → Alike ys zs → Alike xs zs := by
        intro xs ys zs h
        induction h generalizing zs with
        | nil => exact id
        | cons hxy _ ih =>
            rintro ⟨⟩
            exact .cons (E.equiv.trans hxy ‹_›) (ih _ ‹_›)
      exact isEqv_iff.mpr (htrans xs ys zs (isEqv_iff.mp h) (isEqv_iff.mp h'))

end Compared

open Compared

/-- A container of values of `E`. -/
structure Container (E : Compared) extends Compared where
  /-- The elements in the order of iteration. -/
  iter : Val → List E.Val
  empty : Val
  insert : Val → E.Val → Val
  rebuild : ∀ v xs, Alike xs (iter v) → eq (xs.foldl insert empty) v = true

namespace Container

variable (E : Compared)

/-! ## Sequences -/

theorem foldl_concat {α : Type} (pre xs : List α) :
    xs.foldl (fun l x => l ++ [x]) pre = pre ++ xs := by
  induction xs generalizing pre with
  | nil => exact (List.append_nil pre).symm
  | cons x xs ih => rw [List.foldl_cons, ih, List.append_assoc, List.singleton_append]

def sequence : Container E where
  Val := List E.Val
  eq := E.list.eq
  equiv := E.list.equiv
  iter v := v
  empty := []
  insert v x := v ++ [x]
  rebuild := by
    intro v xs h
    have hfold := foldl_concat [] xs
    show (xs.foldl _ []).isEqv v E.eq = true
    rw [hfold]
    exact isEqv_iff.mpr h

/-! ## Ordered containers -/

/-- A comparator: a strict order that does not tell equal values apart. -/
structure Less where
  lt : E.Val → E.Val → Bool
  order : IsStrictOrder E.Val fun x y => lt x y = true
  congr : E.Respects fun x y => lt x y = true

variable {E}

section Ordered

variable (r : Less E)

/-- The values in the order of the comparator. -/
abbrev Less.Ordered : Type := { l : List E.Val // OrderedSet.Ordered (fun x y => r.lt x y = true) l }

def Less.insert (s : r.Ordered) (x : E.Val) : r.Ordered :=
  have := r.order
  ⟨OrderedSet.insert (fun x y => r.lt x y = true) x s.1, OrderedSet.insert_ordered s.2⟩

/-- Values in the order of the comparator go behind one another. -/
theorem Less.foldl_insert (s : r.Ordered) (xs : List E.Val)
    (h : OrderedSet.Ordered (fun x y => r.lt x y = true) (s.1 ++ xs)) :
    (xs.foldl r.insert s).1 = s.1 ++ xs := by
  have := r.order
  induction xs generalizing s with
  | nil => exact (List.append_nil _).symm
  | cons x xs ih =>
      have hlast : (r.insert s x).1 = s.1 ++ [x] :=
        OrderedSet.insert_last fun y hy =>
          (List.pairwise_append.mp h).2.2 y hy x List.mem_cons_self
      rw [List.foldl_cons, ih, hlast, List.append_assoc, List.singleton_append]
      rw [hlast, List.append_assoc, List.singleton_append]
      exact h

end Ordered

def ordered (r : Less E) : Container E where
  Val := r.Ordered
  eq s t := s.1.isEqv t.1 E.eq
  equiv := InvImage.equivalence _ _ E.list.equiv
  iter s := s.1
  empty := ⟨[], .nil⟩
  insert := r.insert
  rebuild := by
    intro s xs h
    show ((xs.foldl r.insert ⟨[], .nil⟩).1).isEqv s.1 E.eq = true
    rw [r.foldl_insert ⟨[], .nil⟩ xs (Alike.pairwise r.congr h s.2)]
    exact isEqv_iff.mpr h

/-! ## Hashed containers -/

/-- How a hash table arranges its elements. -/
structure Buckets (α : Type) where
  /-- The order of iteration, from a new element and the order before. -/
  arrange : List α → List α
  perm : ∀ l, (arrange l).Perm l

/-- A hash table also knows which of its elements are the same to it. -/
structure Table (E : Compared) extends Buckets E.Val where
  same : E.Val → E.Val → Bool
  equiv : Equivalence fun x y => same x y = true
  of_eq : ∀ {x y}, E.eq x y = true → same x y = true

namespace Table

variable (t : Table E)

/-- No two of the elements are the same. -/
abbrev Distinct (l : List E.Val) : Prop := l.Pairwise fun x y => t.same x y = false

abbrev Hashed : Type := { l : List E.Val // t.Distinct l }

variable {t} {x y : E.Val} {l : List E.Val}

theorem same_comm : t.same x y = t.same y x :=
  Bool.eq_iff_iff.mpr ⟨t.equiv.symm, t.equiv.symm⟩

theorem Distinct.perm {l' : List E.Val} (h : t.Distinct l) (hl : l'.Perm l) : t.Distinct l' :=
  hl.symm.pairwise h fun hxy => same_comm.symm.trans hxy

theorem distinct_insert (h : t.Distinct l) (hx : l.any (t.same x) = false) :
    t.Distinct (t.arrange (x :: l)) := by
  refine Distinct.perm (List.pairwise_cons.mpr ⟨?_, h⟩) (t.perm _)
  intro y hy
  exact Bool.eq_false_iff.mpr (List.any_eq_false.mp hx y hy)

/-- An element goes in unless there is one that is the same. -/
def insert (t : Table E) (s : t.Hashed) (x : E.Val) : t.Hashed :=
  if h : s.1.any (t.same x) = true then s
  else ⟨t.arrange (x :: s.1), distinct_insert s.2 (Bool.eq_false_iff.mpr h)⟩

/-- `==`: as many elements, and every one of them in the other. -/
def eq (t : Table E) (s s' : t.Hashed) : Bool :=
  s.1.length == s'.1.length && s.1.all fun x => s'.1.any (E.eq x)

theorem Distinct.nodup_map (h : t.Distinct l) : (l.map toQuotient).Nodup := by
  rw [List.Nodup, List.pairwise_map]
  refine h.imp ?_
  intro x y hxy heq
  rw [t.of_eq (toQuotient_eq.mp heq)] at hxy
  cases hxy

theorem all_any_iff {l l' : List E.Val} :
    (l.all fun x => l'.any (E.eq x)) = true ↔ l.map toQuotient ⊆ l'.map toQuotient := by
  rw [List.all_eq_true]
  constructor
  · intro h q hq
    obtain ⟨x, hx, rfl⟩ := List.mem_map.mp hq
    obtain ⟨y, hy, heq⟩ := List.any_eq_true.mp (h x hx)
    rw [toQuotient_eq.mpr heq]
    exact List.mem_map_of_mem hy
  · intro h x hx
    obtain ⟨y, hy, heq⟩ := List.mem_map.mp (h (List.mem_map_of_mem hx))
    exact List.any_eq_true.mpr ⟨y, hy, toQuotient_eq.mp heq.symm⟩

/-- Tables are equal when they have the same elements up to `==`. -/
theorem eq_iff_perm {s s' : t.Hashed} :
    t.eq s s' = true ↔ (s.1.map toQuotient).Perm (s'.1.map toQuotient) := by
  rw [eq, Bool.and_eq_true, beq_iff_eq, all_any_iff]
  constructor
  · rintro ⟨hlen, hsub⟩
    refine (s.2.nodup_map.subperm hsub).perm_of_length_le ?_
    rw [List.length_map, List.length_map, hlen]
  · intro h
    have hlen := h.length_eq
    rw [List.length_map, List.length_map] at hlen
    exact ⟨hlen, h.subset⟩

theorem eq_equivalence (t : Table E) : Equivalence fun s s' => t.eq s s' = true := by
  constructor
  · exact fun s => eq_iff_perm.mpr (.refl _)
  · exact fun h => eq_iff_perm.mpr (eq_iff_perm.mp h).symm
  · exact fun h h' => eq_iff_perm.mpr ((eq_iff_perm.mp h).trans (eq_iff_perm.mp h'))

/-- Elements none of which are the same all go in. -/
theorem foldl_insert (s : t.Hashed) (xs : List E.Val) (h : t.Distinct (s.1 ++ xs)) :
    (xs.foldl t.insert s).1.Perm (s.1 ++ xs) := by
  induction xs generalizing s with
  | nil => rw [List.append_nil, List.foldl_nil]
  | cons x xs ih =>
      have hnew : ¬s.1.any (t.same x) = true := by
        rw [List.any_eq_true]
        rintro ⟨y, hy, hsame⟩
        have hxy := (List.pairwise_append.mp h).2.2 y hy x List.mem_cons_self
        rw [same_comm, hsame] at hxy
        cases hxy
      have hone : (t.insert s x).1.Perm (x :: s.1) := by
        rw [insert, dif_neg hnew]
        exact t.perm _
      have hall : ((t.insert s x).1 ++ xs).Perm (s.1 ++ x :: xs) :=
        (hone.append_right xs).trans List.perm_middle.symm
      exact (ih (t.insert s x) (h.perm hall)).trans hall

end Table

def hashed (t : Table E) : Container E where
  Val := t.Hashed
  eq := t.eq
  equiv := t.eq_equivalence
  iter s := s.1
  empty := ⟨[], .nil⟩
  insert := t.insert
  rebuild := by
    intro s xs h
    have hrespects : E.Respects fun x y => t.same x y = false := by
      intro x x' y y' hx hy hsame
      rw [Bool.eq_false_iff] at hsame ⊢
      exact fun hxy => hsame (t.equiv.trans (t.equiv.symm (t.of_eq hx))
        (t.equiv.trans hxy (t.of_eq hy)))
    have hperm := Table.foldl_insert (t := t) ⟨[], .nil⟩ xs (Alike.pairwise hrespects h s.2)
    apply Table.eq_iff_perm.mpr
    rw [← Alike.map_toQuotient h]
    exact hperm.map toQuotient

end Container

/-! ## Dictionaries -/

/-- A container of entries, no two of which have the same key. -/
structure Dictionary (κ : Type) [DecidableEq κ] (E : Compared) extends
    Container (Compared.pair κ E) where
  nodup_keys : ∀ v, ((iter v).map Compared.key).Nodup

namespace Dictionary

variable {κ : Type} [DecidableEq κ] {E : Compared}

/-- A comparator of the keys. -/
def byKey (lt : κ → κ → Bool) (h : IsStrictOrder κ fun k l => lt k l = true) :
    Container.Less (Compared.pair κ E) where
  lt x y := lt (key x) (key y)
  order := {
    irrefl := fun x => irrefl_of (fun k l => lt k l = true) (key x)
    trans := fun _ _ _ hxy hyz => trans_of (fun k l => lt k l = true) hxy hyz }
  congr := by
    intro x x' y y' hx hy hlt
    rwa [key_eq hx, key_eq hy]

/-- The entries in the order of their keys. -/
def ordered (lt : κ → κ → Bool) (h : IsStrictOrder κ fun k l => lt k l = true) :
    Dictionary κ E where
  toContainer := Container.ordered (byKey lt h)
  nodup_keys := by
    intro v
    refine List.pairwise_map.mpr (v.2.imp ?_)
    intro x y hxy heq
    have hlt : lt (key x) (key y) = true := hxy
    rw [heq] at hlt
    exact irrefl_of (fun k l => lt k l = true) (key y) hlt

/-- The entries as a hash table has them. -/
def hashed (b : Container.Buckets (Compared.pair κ E).Val) : Dictionary κ E where
  toContainer := Container.hashed {
    toBuckets := b
    same := fun x y => decide (key x = key y)
    equiv := by
      simp only [decide_eq_true_eq]
      exact InvImage.equivalence _ Compared.key eq_equivalence
    of_eq := fun h => decide_eq_true (key_eq h) }
  nodup_keys := by
    intro v
    refine List.pairwise_map.mpr (v.2.imp ?_)
    intro x y hxy
    exact of_decide_eq_false hxy

end Dictionary

end Hps.Lib
