import Mathlib.Order.Defs.Unbundled
import Mathlib.Data.List.Pairwise

/-!
# Ordered maps as sorted lists

`std::map<K, V, Compare>` kept as the list of its entries in the order of
their keys. The comparator is any decidable strict weak order `r`: two keys
are the same to the map when neither is below the other, and an entry that is
written again keeps the spelling of its key.

* `setAll_set` — entries written in their order, behind one that was there;
* `find_set_self`, `find_set_of_lt_or_gt`, `find_setAll` — what a map finds after
  writes;
* `insert_of_has`, `perm_insert` — an insertion, where the first entry of a
  key stays;
* `insertAll_map_eq_iff` — when entries with misread keys make the same map.
-/

namespace Hps.Lib.OrderedMap

variable {κ ν : Type} (r : κ → κ → Prop)

/-- The entries in the order of their keys. -/
abbrev Ordered (m : List (κ × ν)) : Prop := m.Pairwise fun x y => r x.1 y.1

section Operations

variable [DecidableRel r]

/-- `m[k] = v` -/
def set (k : κ) (v : ν) : List (κ × ν) → List (κ × ν)
  | [] => [(k, v)]
  | x :: m =>
      if r k x.1 then (k, v) :: x :: m
      else if r x.1 k then x :: set k v m
      else (x.1, v) :: m

/-- `find(k)`; `none` is `end()`. -/
def find (k : κ) (m : List (κ × ν)) : Option ν :=
  (m.find? fun x => !decide (r x.1 k) && !decide (r k x.1)).map Prod.snd

/-- The entries of `xs` written in their order. -/
def setAll (m xs : List (κ × ν)) : List (κ × ν) :=
  xs.foldl (fun m x => set r x.1 x.2 m) m

end Operations

variable {r} [DecidableRel r] {k k' : κ} {v : ν} {m xs : List (κ × ν)}

@[simp] theorem setAll_nil : setAll r m [] = m := rfl

@[simp] theorem setAll_cons (x : κ × ν) :
    setAll r m (x :: xs) = setAll r (set r x.1 x.2 m) xs := rfl

theorem setAll_append (ys : List (κ × ν)) :
    setAll r m (xs ++ ys) = setAll r (setAll r m xs) ys :=
  List.foldl_append

section Order

variable [IsStrictOrder κ r]

/-- A key above all others goes to the end. -/
theorem set_last (h : ∀ x ∈ m, r x.1 k) : set r k v m = m ++ [(k, v)] := by
  induction m with
  | nil => rfl
  | cons x m ih =>
      have hx := h x List.mem_cons_self
      rw [set, if_neg (asymm_of r hx), if_pos hx,
        ih fun y hy => h y (List.mem_cons_of_mem x hy), List.cons_append]

/-- Writing a last key and another one commute. -/
theorem set_set_last {x : κ × ν} (h : ∀ y ∈ m, r y.1 x.1)
    (hk : r k x.1 ∨ r x.1 k) :
    set r x.1 x.2 (set r k v m) = set r k v (m ++ [x]) := by
  induction m with
  | nil =>
      rcases hk with hk | hk
      · simp [set, hk, asymm_of r hk]
      · simp [set, hk, asymm_of r hk]
  | cons y m ih =>
      have hy := h y List.mem_cons_self
      have hm : ∀ z ∈ m, r z.1 x.1 := fun z hz => h z (List.mem_cons_of_mem y hz)
      have hlast := set_last (v := x.2) h
      rw [List.cons_append, set, set]
      split
      · have hkx : r k x.1 := trans_of r ‹_› hy
        rw [set, if_neg (asymm_of r hkx), if_pos hkx, hlast, List.cons_append]
      · split
        · rw [set, if_neg (asymm_of r hy), if_pos hy, ih hm]
        · rw [set, if_neg (asymm_of r hy), if_pos hy, set_last hm]

/-- **The entries of a map, written in their order, give the map**; a key
that was there before them stays where it belongs. -/
theorem setAll_set (k : κ) (v : ν) (m : List (κ × ν))
    (h : Ordered r (m ++ xs)) (hk : ∀ x ∈ xs, r k x.1 ∨ r x.1 k) :
    setAll r (set r k v m) xs = set r k v (m ++ xs) := by
  induction xs generalizing m with
  | nil => rw [List.append_nil, setAll_nil]
  | cons x xs ih =>
      have hx : ∀ y ∈ m, r y.1 x.1 := fun y hy =>
        (List.pairwise_append.mp h).2.2 y hy x List.mem_cons_self
      have happ : m ++ x :: xs = m ++ [x] ++ xs := List.append_cons m x xs
      rw [setAll_cons, set_set_last hx (hk x List.mem_cons_self), happ]
      rw [happ] at h
      exact ih (m ++ [x]) h fun y hy => hk y (List.mem_cons_of_mem x hy)

end Order

section Writes

/-- What stands in a map behind a write: a key and a value that were there, or
that were written. -/
theorem mem_set {x : κ × ν} (h : x ∈ set r k v m) :
    (x.1 = k ∨ ∃ y ∈ m, y.1 = x.1) ∧ (x.2 = v ∨ ∃ y ∈ m, y.2 = x.2) := by
  induction m with
  | nil =>
      obtain rfl := List.mem_singleton.mp h
      exact ⟨.inl rfl, .inl rfl⟩
  | cons y m ih =>
      rw [set] at h
      split at h
      · rcases List.mem_cons.mp h with rfl | h
        · exact ⟨.inl rfl, .inl rfl⟩
        · exact ⟨.inr ⟨x, h, rfl⟩, .inr ⟨x, h, rfl⟩⟩
      · split at h
        · rcases List.mem_cons.mp h with rfl | h
          · exact ⟨.inr ⟨x, List.mem_cons_self, rfl⟩, .inr ⟨x, List.mem_cons_self, rfl⟩⟩
          · have hmore : ∀ {P : κ × ν → Prop}, (∃ z ∈ m, P z) → ∃ z ∈ y :: m, P z :=
              fun ⟨z, hz, hP⟩ => ⟨z, List.mem_cons_of_mem y hz, hP⟩
            exact ⟨(ih h).1.imp_right hmore, (ih h).2.imp_right hmore⟩
        · rcases List.mem_cons.mp h with rfl | h
          · exact ⟨.inr ⟨y, List.mem_cons_self, rfl⟩, .inl rfl⟩
          · have hx := List.mem_cons_of_mem y h
            exact ⟨.inr ⟨x, hx, rfl⟩, .inr ⟨x, hx, rfl⟩⟩

theorem mem_setAll {x : κ × ν} (h : x ∈ setAll r m xs) :
    (∃ y ∈ m ++ xs, y.1 = x.1) ∧ ∃ y ∈ m ++ xs, y.2 = x.2 := by
  induction xs generalizing m with
  | nil =>
      rw [List.append_nil]
      exact ⟨⟨x, h, rfl⟩, x, h, rfl⟩
  | cons z xs ih =>
      obtain ⟨⟨y, hy, hkey⟩, y', hy', hvalue⟩ := ih h
      constructor
      · rcases List.mem_append.mp hy with hy | hy
        · rcases (mem_set hy).1 with hz | ⟨w, hw, hwy⟩
          · exact ⟨z, by simp, hz.symm.trans hkey⟩
          · exact ⟨w, List.mem_append_left _ hw, hwy.trans hkey⟩
        · exact ⟨y, by simp [hy], hkey⟩
      · rcases List.mem_append.mp hy' with hy' | hy'
        · rcases (mem_set hy').2 with hz | ⟨w, hw, hwy⟩
          · exact ⟨z, by simp, hz.symm.trans hvalue⟩
          · exact ⟨w, List.mem_append_left _ hw, hwy.trans hvalue⟩
        · exact ⟨y', by simp [hy'], hvalue⟩

/-- A write changes the map at one place, wherever that is. -/
theorem exists_set (k : κ) (m : List (κ × ν)) :
    ∃ k' front behind, ∀ v, set r k v m = front ++ (k', v) :: behind := by
  induction m with
  | nil => exact ⟨k, [], [], fun v => rfl⟩
  | cons x m ih =>
      obtain ⟨k', front, behind, h⟩ := ih
      by_cases h1 : r k x.1
      · exact ⟨k, [], x :: m, fun v => if_pos h1⟩
      · by_cases h2 : r x.1 k
        · refine ⟨k', x :: front, behind, fun v => ?_⟩
          rw [set, if_neg h1, if_pos h2, h, List.cons_append]
        · refine ⟨x.1, [], m, fun v => ?_⟩
          rw [set, if_neg h1, if_neg h2, List.nil_append]

variable [IsStrictWeakOrder κ r]

theorem Ordered.set (hm : Ordered r m) (k : κ) (v : ν) : Ordered r (set r k v m) := by
  induction m with
  | nil => exact List.pairwise_singleton _ _
  | cons x m ih =>
      obtain ⟨hx, htail⟩ := List.pairwise_cons.mp hm
      rw [OrderedMap.set]
      split
      · rename_i hlt
        refine List.pairwise_cons.mpr ⟨fun y hy => ?_, hm⟩
        rcases List.mem_cons.mp hy with rfl | hy
        · exact hlt
        · exact trans_of r hlt (hx y hy)
      · split
        · rename_i hgt
          refine List.pairwise_cons.mpr ⟨fun y hy => ?_, ih htail⟩
          rcases (mem_set hy).1 with hk | ⟨w, hw, hwy⟩
          · rw [hk]
            exact hgt
          · rw [← hwy]
            exact hx w hw
        · exact List.pairwise_cons.mpr ⟨hx, htail⟩

theorem Ordered.setAll (hm : Ordered r m) (xs : List (κ × ν)) : Ordered r (setAll r m xs) := by
  induction xs generalizing m with
  | nil => exact hm
  | cons x xs ih => exact ih (hm.set x.1 x.2)

end Writes

section Find

theorem find_cons (k : κ) (x : κ × ν) (m : List (κ × ν)) :
    find r k (x :: m) = if r x.1 k ∨ r k x.1 then find r k m else some x.2 := by
  rw [find, List.find?_cons]
  by_cases h1 : r x.1 k
  · simp [h1, find]
  · by_cases h2 : r k x.1
    · simp [h1, h2, find]
    · simp [h1, h2]

theorem find_eq_none {k : κ} {m : List (κ × ν)} (h : ∀ x ∈ m, r x.1 k ∨ r k x.1) :
    find r k m = none := by
  rw [find, Option.map_eq_none_iff, List.find?_eq_none]
  intro x hx
  rcases h x hx with hlt | hlt <;> simp [hlt]

/-- What the first entry of the key in either list says. -/
theorem find_append (k : κ) (m xs : List (κ × ν)) :
    find r k (m ++ xs) = (find r k m).or (find r k xs) := by
  rw [find, List.find?_append, Option.map_or]
  rfl

variable [IsStrictWeakOrder κ r]

/-- A write of the key under another spelling of it. -/
theorem find_set_of_same (h : ¬(r k k' ∨ r k' k)) (v : ν) (m : List (κ × ν)) :
    find r k' (set r k v m) = some v := by
  obtain ⟨h1, h2⟩ := not_or.mp h
  induction m with
  | nil => rw [set, find_cons, if_neg h]
  | cons x m ih =>
      rw [set]
      split
      · rw [find_cons, if_neg h]
      · rename_i hlt
        split
        · rename_i hgt
          have hx : r x.1 k' ∨ r k' x.1 := by
            by_contra hc
            exact (IsStrictWeakOrder.incomp_trans _ _ _ (not_or.mp hc) ⟨h2, h1⟩).1 hgt
          rw [find_cons, if_pos hx, ih]
        · rename_i hgt
          have hx := IsStrictWeakOrder.incomp_trans _ _ _ ⟨hgt, hlt⟩ ⟨h1, h2⟩
          rw [find_cons, if_neg (not_or.mpr hx)]

theorem find_set_self (k : κ) (v : ν) (m : List (κ × ν)) :
    find r k (set r k v m) = some v :=
  find_set_of_same (by simp [irrefl_of r k]) v m

/-- A write of another key changes nothing. -/
theorem find_set_of_lt_or_gt (h : r k k' ∨ r k' k) (v : ν) (m : List (κ × ν)) :
    find r k' (set r k v m) = find r k' m := by
  induction m with
  | nil => rw [set, find_cons, if_pos h]
  | cons x m ih =>
      rw [set]
      split
      · rw [find_cons, if_pos h]
      · split
        · rw [find_cons, find_cons, ih]
        · rename_i h1 h2
          -- the key that is there is the same as `k`
          have hx : r x.1 k' ∨ r k' x.1 := by
            by_contra hc
            obtain ⟨h3, h4⟩ := not_or.mp hc
            have := IsStrictWeakOrder.incomp_trans _ _ _ ⟨h1, h2⟩
              ⟨h3, h4⟩
            exact h.elim this.1 this.2
          rw [find_cons, find_cons, if_pos hx, if_pos hx]

/-- **Entries written in their order**: the last of a key counts. -/
theorem find_setAll (k : κ) (m xs : List (κ × ν)) :
    find r k (setAll r m xs) = (find r k xs.reverse).or (find r k m) := by
  induction xs generalizing m with
  | nil => rfl
  | cons x xs ih =>
      rw [setAll_cons, ih, List.reverse_cons, find_append, Option.or_assoc]
      congr 1
      by_cases h : r x.1 k ∨ r k x.1
      · rw [find_set_of_lt_or_gt h, find_cons, if_pos h]
        rfl
      · rw [find_set_of_same h, find_cons, if_neg h]
        rfl

/-- What stands in a map is found there. -/
theorem find_of_mem (hm : Ordered r m) {x : κ × ν} (hx : x ∈ m) :
    find r x.1 m = some x.2 := by
  induction m with
  | nil => cases hx
  | cons y m ih =>
      obtain ⟨hy, hm⟩ := List.pairwise_cons.mp hm
      rw [find_cons]
      rcases List.mem_cons.mp hx with rfl | hx
      · rw [if_neg (by simp [irrefl_of r x.1])]
      · rw [if_pos (.inl (hy x hx)), ih hm hx]

end Find

/-! ## Insertion -/

section Insertion

variable (r)

/-- `insert({k, v})`: an entry that is there stays as it is. -/
def insert (k : κ) (v : ν) : List (κ × ν) → List (κ × ν)
  | [] => [(k, v)]
  | x :: m =>
      if r k x.1 then (k, v) :: x :: m
      else if r x.1 k then x :: insert k v m
      else x :: m

/-- The entries of `xs` inserted in their order. -/
def insertAll (m xs : List (κ × ν)) : List (κ × ν) :=
  xs.foldl (fun m x => insert r x.1 x.2 m) m

/-- A key that is the same to the map is there. -/
def Has (k : κ) (m : List (κ × ν)) : Prop := ∃ x ∈ m, ¬r k x.1 ∧ ¬r x.1 k

instance (k : κ) (m : List (κ × ν)) : Decidable (Has r k m) :=
  inferInstanceAs (Decidable (∃ x ∈ m, ¬r k x.1 ∧ ¬r x.1 k))

variable {r}

@[simp] theorem insertAll_nil : insertAll r m [] = m := rfl

@[simp] theorem insertAll_cons (x : κ × ν) :
    insertAll r m (x :: xs) = insertAll r (insert r x.1 x.2 m) xs := rfl

theorem mem_insert {y : κ × ν} (h : y ∈ insert r k v m) : y = (k, v) ∨ y ∈ m := by
  induction m with
  | nil => exact .inl (List.mem_singleton.mp h)
  | cons x m ih =>
      rw [insert] at h
      split at h
      · exact List.mem_cons.mp h
      · split at h
        · rcases List.mem_cons.mp h with rfl | h
          · exact .inr List.mem_cons_self
          · exact (ih h).imp_right (List.mem_cons_of_mem x)
        · exact .inr h

theorem mem_insert_of_mem {y : κ × ν} (h : y ∈ m) : y ∈ insert r k v m := by
  induction m with
  | nil => cases h
  | cons x m ih =>
      rw [insert]
      split
      · exact List.mem_cons_of_mem _ h
      · split
        · rcases List.mem_cons.mp h with rfl | h
          · exact List.mem_cons_self
          · exact List.mem_cons_of_mem x (ih h)
        · exact h

theorem mem_insertAll {y : κ × ν} (h : y ∈ insertAll r m xs) : y ∈ m ∨ y ∈ xs := by
  induction xs generalizing m with
  | nil => exact .inl h
  | cons x xs ih =>
      rcases ih h with h | h
      · rcases mem_insert h with rfl | h
        · exact .inr List.mem_cons_self
        · exact .inl h
      · exact .inr (List.mem_cons_of_mem x h)

theorem mem_insertAll_of_mem {y : κ × ν} (h : y ∈ m) : y ∈ insertAll r m xs := by
  induction xs generalizing m with
  | nil => exact h
  | cons x xs ih => exact ih (mem_insert_of_mem h)

/-- A new key comes to the others. -/
theorem perm_insert (h : ¬Has r k m) : (insert r k v m).Perm ((k, v) :: m) := by
  induction m with
  | nil => exact List.Perm.refl _
  | cons x m ih =>
      have hm : ¬Has r k m := fun ⟨y, hy, hk⟩ => h ⟨y, List.mem_cons_of_mem x hy, hk⟩
      rw [insert]
      split
      · exact List.Perm.refl _
      · split
        · exact ((ih hm).cons x).trans (List.Perm.swap (k, v) x m)
        · exact absurd ⟨x, List.mem_cons_self, ‹_›, ‹_›⟩ h

/-- New keys that differ from each other all come to the map. -/
theorem perm_insertAll (hxs : xs.Pairwise fun x y => r x.1 y.1 ∨ r y.1 x.1)
    (hnew : ∀ x ∈ xs, ¬Has r x.1 m) : (insertAll r m xs).Perm (xs ++ m) := by
  induction xs generalizing m with
  | nil => exact List.Perm.refl _
  | cons x xs ih =>
      obtain ⟨hx, hxs⟩ := List.pairwise_cons.mp hxs
      have hstill : ∀ y ∈ xs, ¬Has r y.1 (insert r x.1 x.2 m) := by
        rintro y hy ⟨z, hz, hyz, hzy⟩
        rcases mem_insert hz with rfl | hz
        · exact (hx y hy).elim hzy hyz
        · exact hnew y (List.mem_cons_of_mem x hy) ⟨z, hz, hyz, hzy⟩
      have hperm := perm_insert (v := x.2) (hnew x List.mem_cons_self)
      exact (ih hxs hstill).trans ((hperm.append_left xs).trans List.perm_middle)

section Order

variable [IsStrictOrder κ r]

/-- A key that is there already changes nothing. -/
theorem insert_of_has (hm : Ordered r m) (h : Has r k m) : insert r k v m = m := by
  induction m with
  | nil =>
      obtain ⟨x, hx, -⟩ := h
      cases hx
  | cons x m ih =>
      obtain ⟨hx, hm⟩ := List.pairwise_cons.mp hm
      obtain ⟨y, hy, hky, hyk⟩ := h
      rw [insert]
      rcases List.mem_cons.mp hy with rfl | hy
      · rw [if_neg hky, if_neg hyk]
      · have hk : ¬r k x.1 := fun hk => hky (trans_of r hk (hx y hy))
        rw [if_neg hk]
        split
        · rw [ih hm ⟨y, hy, hky, hyk⟩]
        · rfl

theorem Ordered.insert (hm : Ordered r m) (k : κ) (v : ν) :
    Ordered r (OrderedMap.insert r k v m) := by
  induction m with
  | nil => exact List.pairwise_singleton _ _
  | cons x m ih =>
      obtain ⟨hx, htail⟩ := List.pairwise_cons.mp hm
      rw [OrderedMap.insert]
      split
      · rename_i hk
        refine List.pairwise_cons.mpr ⟨fun y hy => ?_, hm⟩
        rcases List.mem_cons.mp hy with rfl | hy
        · exact hk
        · exact trans_of r hk (hx y hy)
      · split
        · rename_i hk
          refine List.pairwise_cons.mpr ⟨fun y hy => ?_, ih htail⟩
          rcases mem_insert hy with rfl | hy
          · exact hk
          · exact hx y hy
        · exact hm

theorem Ordered.insertAll (hm : Ordered r m) (xs : List (κ × ν)) :
    Ordered r (OrderedMap.insertAll r m xs) := by
  induction xs generalizing m with
  | nil => exact hm
  | cons x xs ih => exact ih (hm.insert x.1 x.2)

end Order

end Insertion

/-! ## Misread keys -/

section Misread

variable {ι : Type} (r) (f g : ι → κ × ν) (clean : ι → Bool)

/-- Every entry that is not `clean` finds the key under which it is misread
taken, in the map or by a clean entry before it. -/
def Absorbed : List (κ × ν) → List ι → Prop
  | _, [] => True
  | m, x :: xs =>
      if clean x then Absorbed (insert r (g x).1 (g x).2 m) xs
      else Has r (f x).1 m ∧ Absorbed m xs

instance decidableAbsorbed (m : List (κ × ν)) (is : List ι) :
    Decidable (Absorbed r f g clean m is) :=
  match is with
  | [] => isTrue trivial
  | x :: is =>
      have := decidableAbsorbed (insert r (g x).1 (g x).2 m) is
      have := decidableAbsorbed m is
      inferInstanceAs (Decidable (if clean x then _ else Has r (f x).1 m ∧ _))

variable {r f g clean} {is : List ι}

/-- Nothing is misread. -/
theorem absorbed_of_clean (h : ∀ x ∈ is, clean x = true) : Absorbed r f g clean m is := by
  induction is generalizing m with
  | nil => trivial
  | cons x is ih =>
      rw [Absorbed, if_pos (h x List.mem_cons_self)]
      exact ih fun y hy => h y (List.mem_cons_of_mem x hy)

variable [IsStrictOrder κ r]

theorem insertAll_of_absorbed (hm : Ordered r m)
    (hclean : ∀ x ∈ is, clean x = true → f x = g x) (h : Absorbed r f g clean m is) :
    insertAll r m (is.map f) = insertAll r m ((is.filter clean).map g) := by
  induction is generalizing m with
  | nil => rfl
  | cons x is ih =>
      have htail : ∀ y ∈ is, clean y = true → f y = g y := fun y hy =>
        hclean y (List.mem_cons_of_mem x hy)
      rw [Absorbed] at h
      rw [List.map_cons, insertAll_cons]
      cases hx : clean x with
      | true =>
          rw [hx, if_pos rfl] at h
          rw [List.filter_cons_of_pos hx, List.map_cons, insertAll_cons,
            hclean x List.mem_cons_self hx, ih (hm.insert _ _) htail h]
      | false =>
          rw [hx, if_neg Bool.false_ne_true] at h
          rw [List.filter_cons_of_neg (by simp [hx]), insert_of_has hm h.1, ih hm htail h.2]

/-- If no misread key comes into the map, every one was taken. -/
theorem absorbed_of_mem {P : κ → Prop} (hm : Ordered r m)
    (hclean : ∀ x ∈ is, clean x = true → f x = g x)
    (hf : ∀ x ∈ is, clean x = false → P (f x).1)
    (h : ∀ y ∈ insertAll r m (is.map f), P y.1 → y ∈ m) :
    Absorbed r f g clean m is := by
  induction is generalizing m with
  | nil => trivial
  | cons x is ih =>
      have hclean' : ∀ y ∈ is, clean y = true → f y = g y := fun y hy =>
        hclean y (List.mem_cons_of_mem x hy)
      have hf' : ∀ y ∈ is, clean y = false → P (f y).1 := fun y hy =>
        hf y (List.mem_cons_of_mem x hy)
      rw [List.map_cons, insertAll_cons] at h
      rw [Absorbed]
      cases hx : clean x with
      | true =>
          rw [if_pos rfl, ← hclean x List.mem_cons_self hx]
          exact ih (hm.insert _ _) hclean' hf' fun y hy hP => mem_insert_of_mem (h y hy hP)
      | false =>
          rw [if_neg Bool.false_ne_true]
          have hhas : Has r (f x).1 m := by
            by_contra hnot
            have hmem : f x ∈ insertAll r (insert r (f x).1 (f x).2 m) (is.map f) :=
              mem_insertAll_of_mem ((perm_insert hnot).mem_iff.mpr List.mem_cons_self)
            have hold := h (f x) hmem (hf x List.mem_cons_self hx)
            exact hnot ⟨f x, hold, irrefl_of r _, irrefl_of r _⟩
          rw [insert_of_has hm hhas] at h
          exact ⟨hhas, ih hm hclean' hf' h⟩

/-- **Entries with misread keys make the same map** if and only if each finds
its misread key taken, and would have added nothing under its own. A misread
key has a mark `P` that no other key has. -/
theorem insertAll_map_eq_iff {P : κ → Prop} (hm : Ordered r m)
    (hclean : ∀ x ∈ is, clean x = true → f x = g x)
    (hf : ∀ x ∈ is, clean x = false → P (f x).1) (hg : ∀ x ∈ is, ¬P (g x).1) :
    insertAll r m (is.map f) = insertAll r m (is.map g) ↔
      Absorbed r f g clean m is ∧
        insertAll r m (is.map g) = insertAll r m ((is.filter clean).map g) := by
  constructor
  · intro h
    have habs : Absorbed r f g clean m is := by
      refine absorbed_of_mem hm hclean hf fun y hy hP => ?_
      rw [h] at hy
      rcases mem_insertAll hy with hy | hy
      · exact hy
      · obtain ⟨x, hx, rfl⟩ := List.mem_map.mp hy
        exact absurd hP (hg x hx)
    exact ⟨habs, h.symm.trans (insertAll_of_absorbed hm hclean habs)⟩
  · rintro ⟨habs, hsame⟩
    exact (insertAll_of_absorbed hm hclean habs).trans hsame.symm

end Misread

end Hps.Lib.OrderedMap
