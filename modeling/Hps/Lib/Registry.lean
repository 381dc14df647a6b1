import Mathlib.Data.List.Nodup
import Mathlib.Data.List.Induction
import Mathlib.Logic.Function.Basic

/-!
# Registrations and what stands of them

A history of operations, some of which put a value under a key or drop a key
(`ev` says which). `Live` is the meaning: the `i`-th operation put the value
and no later one touches its key. `standing` lists what is live, in the order
of the operations.

* `foldl_entries` — a list from which the first entry of the key is erased
  before the new one goes to the end holds what stands;
* `foldl_write` — so does a map that is overwritten;
* `find_standing` — a search in the list meets the earliest live operation.
-/

namespace Hps.Lib.Registry

/-- What an operation does to the registry. -/
inductive Event (κ ν : Type)
  | put (k : κ) (v : ν)
  | drop (k : κ)

def Event.key {κ ν : Type} : Event κ ν → κ
  | .put k _ => k
  | .drop k => k

@[simp] theorem Event.key_put {κ ν : Type} (k : κ) (v : ν) : (put k v).key = k := rfl

@[simp] theorem Event.key_drop {κ ν : Type} (k : κ) :
    (drop k : Event κ ν).key = k := rfl

variable {α κ ν : Type} (ev : α → Option (Event κ ν))

/-- The operation is about the key. -/
def Touches (k : κ) (a : α) : Prop := (ev a).map Event.key = some k

instance [DecidableEq κ] (k : κ) (a : α) : Decidable (Touches ev k a) :=
  inferInstanceAs (Decidable ((ev a).map Event.key = some k))

/-- The `i`-th operation put `v` under `k`, and no later one is about `k`. -/
structure Live (ops : List α) (i : Nat) (k : κ) (v : ν) : Prop where
  made : ops[i]?.bind ev = some (.put k v)
  kept : ∀ j a, i < j → ops[j]? = some a → ¬Touches ev k a

variable {ev} {ops : List α} {a : α} {i j : Nat} {k : κ} {v w : ν}

theorem not_live_nil : ¬Live ev [] i k v := by
  intro h
  simpa using h.made

theorem live_zero :
    Live ev (a :: ops) 0 k v ↔ ev a = some (.put k v) ∧ ∀ b ∈ ops, ¬Touches ev k b := by
  constructor
  · intro h
    refine ⟨by simpa using h.made, ?_⟩
    intro b hb
    obtain ⟨j, hj⟩ := List.mem_iff_getElem?.mp hb
    exact h.kept (j + 1) b (Nat.succ_pos j) (by simpa using hj)
  · rintro ⟨hput, hrest⟩
    refine ⟨by simpa using hput, ?_⟩
    intro j b hj hb
    cases j with
    | zero => exact absurd hj (Nat.lt_irrefl 0)
    | succ j => exact hrest b (List.mem_of_getElem? (by simpa using hb))

theorem live_succ : Live ev (a :: ops) (i + 1) k v ↔ Live ev ops i k v := by
  constructor
  · intro h
    refine ⟨by simpa using h.made, ?_⟩
    intro j b hj hb
    exact h.kept (j + 1) b (by omega) (by simpa using hb)
  · intro h
    refine ⟨by simpa using h.made, ?_⟩
    intro j b hj hb
    cases j with
    | zero => exact absurd hj (Nat.not_lt_zero _)
    | succ j => exact h.kept j b (by omega) (by simpa using hb)

/-- A key is live at most once. -/
theorem Live.unique (h : Live ev ops i k v) (h' : Live ev ops j k w) :
    i = j ∧ v = w := by
  have hle : ∀ {m n : Nat} {x y : ν}, Live ev ops m k x → Live ev ops n k y → n ≤ m := by
    intro m n x y hm hn
    by_contra hlt
    obtain ⟨b, hb, hput⟩ := Option.bind_eq_some_iff.mp hn.made
    exact hm.kept n b (Nat.lt_of_not_le hlt) hb (by simp [Touches, hput])
  have hij : i = j := Nat.le_antisymm (hle h' h) (hle h h')
  subst hij
  have hput := h.made.symm.trans h'.made
  cases hput
  exact ⟨rfl, rfl⟩

/-- An operation puts one entry. -/
theorem Live.entry_eq {k' : κ} (h : Live ev ops i k v) (h' : Live ev ops i k' w) :
    (k, v) = (k', w) := by
  have hput := h.made.symm.trans h'.made
  cases hput
  rfl

/-- The last operation is live if it puts; it takes the life of the earlier
ones that are about its key. -/
theorem live_snoc :
    Live ev (ops ++ [a]) i k v ↔
      i = ops.length ∧ ev a = some (.put k v) ∨ Live ev ops i k v ∧ ¬Touches ev k a := by
  constructor
  · intro h
    have hlen : i ≤ ops.length := by
      obtain ⟨b, hb, -⟩ := Option.bind_eq_some_iff.mp h.made
      have := (List.getElem?_eq_some_iff.mp hb).1
      simpa [Nat.lt_succ_iff] using this
    -- an operation before `a`, or `a` itself
    rcases Nat.lt_or_eq_of_le hlen with hlt | rfl
    · refine .inr ⟨⟨?_, ?_⟩, ?_⟩
      · simpa [List.getElem?_append_left hlt] using h.made
      · intro j b hj hb
        have hjlt := (List.getElem?_eq_some_iff.mp hb).1
        exact h.kept j b hj (by rw [List.getElem?_append_left hjlt, hb])
      · exact h.kept ops.length a hlt (by simp)
    · exact .inl ⟨rfl, by simpa using h.made⟩
  · rintro (⟨rfl, hput⟩ | ⟨h, hnot⟩)
    · refine ⟨by simpa using hput, ?_⟩
      intro j b hj hb
      have hjlt := (List.getElem?_eq_some_iff.mp hb).1
      simp only [List.length_append, List.length_singleton] at hjlt
      omega
    · obtain ⟨b, hb, -⟩ := Option.bind_eq_some_iff.mp h.made
      have hlt := (List.getElem?_eq_some_iff.mp hb).1
      refine ⟨by simpa [List.getElem?_append_left hlt] using h.made, ?_⟩
      intro j c hj hc
      by_cases hjlt : j < ops.length
      · exact h.kept j c hj (by rwa [List.getElem?_append_left hjlt] at hc)
      · have hjeq : j = ops.length := by
          have := (List.getElem?_eq_some_iff.mp hc).1
          simp only [List.length_append, List.length_singleton] at this
          omega
        subst hjeq
        have : a = c := by simpa using hc
        exact this ▸ hnot

/-- The `i`-th operation is the earliest live one that `p` holds of. -/
structure First (ev : α → Option (Event κ ν)) (p : κ × ν → Bool) (ops : List α)
    (i : Nat) (k : κ) (v : ν) : Prop where
  live : Live ev ops i k v
  holds : p (k, v) = true
  before : ∀ j k' v', j < i → Live ev ops j k' v' → p (k', v') = false

theorem exists_first_cons {p : κ × ν → Bool} :
    (∃ i, First ev p (a :: ops) i k v) ↔
      Live ev (a :: ops) 0 k v ∧ p (k, v) = true ∨
        (∀ k' v', Live ev (a :: ops) 0 k' v' → p (k', v') = false) ∧
          ∃ i, First ev p ops i k v := by
  constructor
  · rintro ⟨i, h⟩
    cases i with
    | zero => exact .inl ⟨h.live, h.holds⟩
    | succ i =>
        refine .inr ⟨fun k' v' => h.before 0 k' v' (Nat.succ_pos i), i,
          live_succ.mp h.live, h.holds, ?_⟩
        intro j k' v' hj hl
        exact h.before (j + 1) k' v' (Nat.succ_lt_succ hj) (live_succ.mpr hl)
  · rintro (⟨hl, hp⟩ | ⟨h0, i, h⟩)
    · exact ⟨0, hl, hp, fun j _ _ hj => absurd hj (Nat.not_lt_zero j)⟩
    · refine ⟨i + 1, live_succ.mpr h.live, h.holds, ?_⟩
      intro j k' v' hj hl
      cases j with
      | zero => exact h0 k' v' hl
      | succ j => exact h.before j k' v' (Nat.lt_of_succ_lt_succ hj) (live_succ.mp hl)

/-! ## What stands, as a list -/

section Entries

variable [DecidableEq κ]

variable (ev) in
/-- The live registrations in the order in which they were made. -/
def standing : List α → List (κ × ν)
  | [] => []
  | a :: ops =>
      match ev a with
      | some (.put k v) =>
          if ∃ b ∈ ops, Touches ev k b then standing ops else (k, v) :: standing ops
      | _ => standing ops

variable (ev) in
/-- The first operation of a history is live, or it can be left out. -/
theorem standing_cons (a : α) (ops : List α) :
    (∃ k v, Live ev (a :: ops) 0 k v ∧ standing ev (a :: ops) = (k, v) :: standing ev ops) ∨
      (∀ k v, ¬Live ev (a :: ops) 0 k v) ∧ standing ev (a :: ops) = standing ev ops := by
  cases ha : ev a with
  | none =>
      refine .inr ⟨?_, by simp [standing, ha]⟩
      intro k v h
      simp [live_zero, ha] at h
  | some e =>
      cases e with
      | drop k =>
          refine .inr ⟨?_, by simp [standing, ha]⟩
          intro k v h
          simp [live_zero, ha] at h
      | put k v =>
          by_cases htouch : ∃ b ∈ ops, Touches ev k b
          · refine .inr ⟨?_, by simp only [standing, ha, if_pos htouch]⟩
            intro k' v' h
            obtain ⟨hput, hrest⟩ := live_zero.mp h
            obtain ⟨b, hb, ht⟩ := htouch
            rw [ha] at hput
            cases hput
            exact hrest b hb ht
          · refine .inl ⟨k, v, live_zero.mpr ⟨ha, ?_⟩, by simp only [standing, ha, if_neg htouch]⟩
            intro b hb ht
            exact htouch ⟨b, hb, ht⟩

theorem mem_standing {x : κ × ν} : x ∈ standing ev ops ↔ ∃ i, Live ev ops i x.1 x.2 := by
  induction ops with
  | nil => simp [standing, not_live_nil]
  | cons a ops ih =>
      have hsplit : (∃ i, Live ev (a :: ops) i x.1 x.2) ↔
          Live ev (a :: ops) 0 x.1 x.2 ∨ x ∈ standing ev ops := by
        rw [ih]
        constructor
        · rintro ⟨i, h⟩
          cases i with
          | zero => exact .inl h
          | succ i => exact .inr ⟨i, live_succ.mp h⟩
        · rintro (h | ⟨i, h⟩)
          · exact ⟨0, h⟩
          · exact ⟨i + 1, live_succ.mpr h⟩
      rw [hsplit]
      rcases standing_cons ev a ops with ⟨k, v, h0, hs⟩ | ⟨h0, hs⟩
      · rw [hs, List.mem_cons]
        refine or_congr_left ⟨?_, ?_⟩
        · rintro rfl
          exact h0
        · intro hx
          exact hx.entry_eq h0
      · rw [hs]
        simp [h0]

/-- No key stands twice. -/
theorem standing_keys_nodup : ((standing ev ops).map Prod.fst).Nodup := by
  induction ops with
  | nil => simp [standing]
  | cons a ops ih =>
      rcases standing_cons ev a ops with ⟨k, v, h0, hs⟩ | ⟨-, hs⟩
      · rw [hs, List.map_cons, List.nodup_cons]
        refine ⟨?_, ih⟩
        intro hk
        obtain ⟨x, hx, hxk⟩ := List.mem_map.mp hk
        obtain ⟨i, hi⟩ := mem_standing.mp hx
        subst hxk
        exact absurd (h0.unique (live_succ.mpr hi)).1 (Nat.succ_ne_zero i).symm
      · rw [hs]
        exact ih

/-- **The search**: the entry found is the earliest live one that the
condition holds of. -/
theorem find_standing {p : κ × ν → Bool} :
    (standing ev ops).find? p = some (k, v) ↔ ∃ i, First ev p ops i k v := by
  induction ops with
  | nil =>
      have hno : ¬∃ i, First ev p [] i k v := by
        rintro ⟨i, h⟩
        exact not_live_nil h.live
      simp [standing, hno]
  | cons a ops ih =>
      rw [exists_first_cons, ← ih]
      rcases standing_cons ev a ops with ⟨k₀, v₀, h0, hs⟩ | ⟨h0, hs⟩
      · have honly : ∀ k' v', Live ev (a :: ops) 0 k' v' → (k', v') = (k₀, v₀) :=
          fun k' v' h => h.entry_eq h0
        rw [hs]
        cases hp : p (k₀, v₀) with
        | true =>
            rw [List.find?_cons_of_pos hp]
            constructor
            · intro h
              cases h
              exact .inl ⟨h0, hp⟩
            · rintro (⟨h, -⟩ | ⟨h, -⟩)
              · rw [honly k v h]
              · rw [h k₀ v₀ h0] at hp
                cases hp
        | false =>
            rw [List.find?_cons_of_neg (by simp [hp])]
            constructor
            · intro h
              refine .inr ⟨?_, h⟩
              intro k' v' hl
              rw [honly k' v' hl, hp]
            · rintro (⟨h, hpos⟩ | ⟨-, h⟩)
              · rw [honly k v h, hp] at hpos
                cases hpos
              · exact h
      · rw [hs]
        simp [h0]

/-! ## What stands, kept up to date -/

/-- What the operation puts. -/
def made (ev : α → Option (Event κ ν)) (a : α) : List (κ × ν) :=
  match ev a with
  | some (.put k v) => [(k, v)]
  | _ => []

theorem standing_snoc :
    standing ev (ops ++ [a]) =
      (standing ev ops).filter (fun x => ¬Touches ev x.1 a) ++ made ev a := by
  induction ops with
  | nil => cases ha : ev a with
    | none => simp [standing, made, ha]
    | some e => cases e <;> simp [standing, made, ha]
  | cons b ops ih =>
      rw [List.cons_append]
      cases hb : ev b with
      | none => simpa [standing, hb] using ih
      | some e =>
          cases e with
          | drop k => simpa [standing, hb] using ih
          | put k v =>
              by_cases hops : ∃ c ∈ ops, Touches ev k c
              · have happ : ∃ c ∈ ops ++ [a], Touches ev k c := by
                  obtain ⟨c, hc, ht⟩ := hops
                  exact ⟨c, List.mem_append_left [a] hc, ht⟩
                simp only [standing, hb, if_pos hops, if_pos happ]
                exact ih
              -- `b` was live so far: `a` may end that, and nothing else
              · by_cases hlast : Touches ev k a
                · have happ : ∃ c ∈ ops ++ [a], Touches ev k c := ⟨a, by simp, hlast⟩
                  simp only [standing, hb, if_neg hops, if_pos happ]
                  simpa [hlast] using ih
                · have happ : ¬∃ c ∈ ops ++ [a], Touches ev k c := by
                    rintro ⟨c, hc, ht⟩
                    rcases List.mem_append.mp hc with hc | hc
                    · exact hops ⟨c, hc, ht⟩
                    · rw [List.mem_singleton.mp hc] at ht
                      exact hlast ht
                  simp only [standing, hb, if_neg hops, if_neg happ]
                  simpa [hlast] using ih

/-- `erase` of the first entry of the key. -/
def eraseFirst (k : κ) (l : List (κ × ν)) : List (κ × ν) := l.eraseP (·.1 == k)

/-- Where no key is there twice, nothing of the key is left. -/
theorem eraseFirst_eq_filter {l : List (κ × ν)} (h : (l.map Prod.fst).Nodup) :
    eraseFirst k l = l.filter fun x => ¬k = x.1 := by
  induction l with
  | nil => rfl
  | cons x l ih =>
      obtain ⟨hx, hl⟩ := List.nodup_cons.mp h
      by_cases hk : k = x.1
      -- the only entry of the key is the one that is erased
      · have hrest : l.filter (fun y => ¬k = y.1) = l := by
          refine List.filter_eq_self.mpr ?_
          intro y hy
          have hne : k ≠ y.1 := by
            intro hy1
            exact hx (hk ▸ hy1 ▸ List.mem_map_of_mem hy)
          simpa using hne
        rw [List.filter_cons_of_neg (by simpa using hk), hrest]
        exact List.eraseP_cons_of_pos (by simpa using hk.symm)
      · rw [List.filter_cons_of_pos (by simpa using hk), ← ih hl]
        exact List.eraseP_cons_of_neg (by simpa using Ne.symm hk)

variable (ev) in
/-- The list of the entries after an operation: the entry of the key goes, a
new one is put at the end. -/
def entries (l : List (κ × ν)) (a : α) : List (κ × ν) :=
  match ev a with
  | none => l
  | some (.put k v) => eraseFirst k l ++ [(k, v)]
  | some (.drop k) => eraseFirst k l

theorem entries_eq {l : List (κ × ν)} (h : (l.map Prod.fst).Nodup) :
    entries ev l a = l.filter (fun x => ¬Touches ev x.1 a) ++ made ev a := by
  cases ha : ev a with
  | none => simp [entries, made, ha, Touches]
  | some e =>
      cases e with
      | put k v => simp [entries, made, ha, Touches, Event.key, eraseFirst_eq_filter h]
      | drop k => simp [entries, made, ha, Touches, Event.key, eraseFirst_eq_filter h]

/-- **The list holds what stands**, each key once and in the order of its
latest registration. -/
theorem foldl_entries : ops.foldl (entries ev) [] = standing ev ops := by
  induction ops using List.reverseRecOn with
  | nil => rfl
  | append_singleton ops a ih =>
      rw [List.foldl_append, List.foldl_cons, List.foldl_nil, ih, standing_snoc,
        entries_eq standing_keys_nodup]

variable (ev) in
/-- A map after an operation. -/
def write (m : κ → Option ν) (a : α) : κ → Option ν :=
  match ev a with
  | none => m
  | some (.put k v) => Function.update m k (some v)
  | some (.drop k) => Function.update m k none

/-- **The map holds what stands.** -/
theorem foldl_write :
    ops.foldl (write ev) (fun _ => none) k = some v ↔ ∃ i, Live ev ops i k v := by
  induction ops using List.reverseRecOn with
  | nil => simp [not_live_nil]
  | append_singleton ops a ih =>
      -- from the right, since a write hides those before it
      have hlive : (∃ i, Live ev (ops ++ [a]) i k v) ↔
          ev a = some (.put k v) ∨
            ops.foldl (write ev) (fun _ => none) k = some v ∧ ¬Touches ev k a := by
        rw [ih]
        simp [live_snoc, exists_or]
      rw [hlive, List.foldl_append, List.foldl_cons, List.foldl_nil]
      -- only what `a` writes counts from here on
      generalize ops.foldl (write ev) (fun _ => none) = m
      cases ha : ev a with
      | none => simp [write, ha, Touches]
      | some e =>
          cases e with
          | drop k' =>
              by_cases hk : k = k'
              · simp [write, ha, Touches, hk]
              · simp [write, ha, Touches, hk, Ne.symm hk]
          | put k' v' =>
              by_cases hk : k = k'
              · simp [write, ha, Touches, hk]
              · simp [write, ha, Touches, hk, Ne.symm hk]

end Entries

end Hps.Lib.Registry
