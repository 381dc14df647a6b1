import Hps.Timers.Model

/-!
# Timers — the order of the set and what each operation does to it

The comparator is a strict total order whatever the heap holds, so the set
operations find, insert and erase exactly the timer they are given. An
operation that changes a deadline takes the timer out of the set first:
`put` on an address outside the set keeps the order of what is in it.
-/

namespace Hps.Timers

open Hps.Lib OrderedSet

variable {heap : Addr → Timer} {a b t : Nat} {m m' : TimerManager}

/-! ## The order -/

theorem before_iff : Before heap a b ↔
    (heap a).next.toNat < (heap b).next.toNat ∨
      ((heap a).next = (heap b).next ∧ a < b) := by
  rw [Before, comparator, ← UInt64.toNat_inj]
  simp only [UInt64.lt_iff_toNat_lt]
  split
  · rename_i h
    exact ⟨fun _ => .inl h, fun _ => rfl⟩
  · split
    · rename_i h
      refine ⟨nofun, ?_⟩
      rintro (h' | h') <;> omega
    · rw [decide_eq_true_iff]
      omega

instance (heap : Addr → Timer) : IsStrictTotalOrder Nat (Before heap) where
  trichotomous a b h h' := by
    rw [before_iff, ← UInt64.toNat_inj] at h h'
    omega
  irrefl a := by
    rw [before_iff]
    omega
  trans a b c hab hbc := by
    rw [before_iff, ← UInt64.toNat_inj] at *
    omega

theorem Before.next_le (h : Before heap a b) :
    (heap a).next ≤ (heap b).next := by
  rw [UInt64.le_iff_toNat_le]
  rcases before_iff.mp h with h | ⟨h, -⟩
  · omega
  · rw [h]

/-- The order looks at the deadlines of its two timers only. -/
theorem before_congr {heap' : Addr → Timer} (ha : heap' a = heap a)
    (hb : heap' b = heap b) : Before heap' a b ↔ Before heap a b := by
  rw [before_iff, before_iff, ha, hb]

/-! ## Reading the state after an update -/

namespace TimerManager

/-- `m_timers` is a set of this order. -/
def Sorted (m : TimerManager) : Prop := Ordered (Before m.heap) m.timers

@[simp] theorem put_timers (v : Timer) : (m.put t v).timers = m.timers := rfl
@[simp] theorem put_heap_self (v : Timer) : (m.put t v).heap t = v := by
  simp [put]
@[simp] theorem put_tickled (v : Timer) : (m.put t v).tickled = m.tickled := rfl
@[simp] theorem put_insertedAtFront (v : Timer) :
    (m.put t v).insertedAtFront = m.insertedAtFront := rfl
@[simp] theorem put_previouseTime (v : Timer) :
    (m.put t v).previouseTime = m.previouseTime := rfl
theorem put_heap_ne (v : Timer) (h : a ≠ t) : (m.put t v).heap a = m.heap a := by
  simp [put, h]

@[simp] theorem insert_heap : (m.insert t).heap = m.heap := rfl
@[simp] theorem insert_tickled : (m.insert t).tickled = m.tickled := rfl
@[simp] theorem insert_insertedAtFront :
    (m.insert t).insertedAtFront = m.insertedAtFront := rfl
@[simp] theorem insert_previouseTime :
    (m.insert t).previouseTime = m.previouseTime := rfl
@[simp] theorem mem_insert : a ∈ (m.insert t).timers ↔ a = t ∨ a ∈ m.timers :=
  OrderedSet.mem_insert

@[simp] theorem erase_heap : (m.erase t).heap = m.heap := rfl
@[simp] theorem erase_tickled : (m.erase t).tickled = m.tickled := rfl
@[simp] theorem erase_insertedAtFront :
    (m.erase t).insertedAtFront = m.insertedAtFront := rfl
@[simp] theorem erase_previouseTime :
    (m.erase t).previouseTime = m.previouseTime := rfl

theorem mem_erase (h : m.Sorted) :
    a ∈ (m.erase t).timers ↔ a ≠ t ∧ a ∈ m.timers :=
  (Ordered.nodup h).mem_erase_iff

@[simp] theorem addTimerLocked_heap : (m.addTimerLocked t).heap = m.heap := rfl
@[simp] theorem addTimerLocked_previouseTime :
    (m.addTimerLocked t).previouseTime = m.previouseTime := rfl
@[simp] theorem mem_addTimerLocked :
    a ∈ (m.addTimerLocked t).timers ↔ a = t ∨ a ∈ m.timers :=
  mem_insert

@[simp] theorem detectClockRollover_heap (now : UInt64) :
    (m.detectClockRollover now).1.heap = m.heap := rfl
@[simp] theorem detectClockRollover_timers (now : UInt64) :
    (m.detectClockRollover now).1.timers = m.timers := rfl

/-! ## The set stays sorted -/

theorem Sorted.insert (h : m.Sorted) : (m.insert t).Sorted :=
  insert_ordered h

theorem Sorted.addTimerLocked (h : m.Sorted) : (m.addTimerLocked t).Sorted :=
  insert_ordered h

theorem Sorted.erase (h : m.Sorted) : (m.erase t).Sorted :=
  List.Pairwise.sublist List.erase_sublist h

theorem Sorted.put (h : m.Sorted) (ht : t ∉ m.timers) (v : Timer) :
    (m.put t v).Sorted := by
  refine Ordered.congr h ?_
  intro a ha b hb hab
  have hat : a ≠ t := fun e => ht (e ▸ ha)
  have hbt : b ≠ t := fun e => ht (e ▸ hb)
  exact (before_congr (put_heap_ne v hat) (put_heap_ne v hbt)).mpr hab

/-- `m_cb = nullptr` is no part of the order. -/
theorem Sorted.put_cb (h : m.Sorted) (cb : Option Callback) :
    (m.put t { m.heap t with cb }).Sorted := by
  refine Ordered.congr h fun a _ b _ hab => ?_
  have hnext : ∀ u : Addr, ((m.put t { m.heap t with cb }).heap u).next =
      (m.heap u).next := by
    intro u
    by_cases hut : u = t
    · rw [hut, put_heap_self]
    · rw [put_heap_ne _ hut]
  rw [before_iff] at hab ⊢
  rw [hnext, hnext]
  exact hab

theorem Sorted.put_erase (h : m.Sorted) (v : Timer) :
    ((m.erase t).put t v).Sorted :=
  h.erase.put (fun ht => ((mem_erase h).mp ht).1 rfl) v

/-- Two states with the same heap and the same list are sorted together. -/
theorem Sorted.of_eq (h : m.Sorted) (hh : m'.heap = m.heap)
    (ht : m'.timers = m.timers) : m'.Sorted := by
  rw [Sorted, hh, ht]
  exact h

/-- The first timer of the set has the earliest deadline. -/
theorem Sorted.head_le {first : Addr} {tail : List Addr} (h : m.Sorted)
    (hm : m.timers = first :: tail) (ht : t ∈ m.timers) :
    (m.heap first).next ≤ (m.heap t).next := by
  rw [Sorted, hm] at h
  rw [hm] at ht
  rcases List.mem_cons.mp ht with rfl | ht
  · exact UInt64.le_refl _
  · exact ((List.pairwise_cons.mp h).1 t ht).next_le

/-! ## The operations, with `find` resolved -/

theorem find_eq (m : TimerManager) (t : Addr) :
    m.find t = if t ∈ m.timers then some t else none :=
  OrderedSet.find_eq t m.timers

theorem cancel_eq (m : TimerManager) (t : Addr) :
    m.cancel t =
      if (m.heap t).cb.isSome then
        if t ∈ m.timers then
          some ((m.put t { m.heap t with cb := none }).erase t, true)
        else none
      else some (m, false) := by
  by_cases ht : t ∈ m.timers
  · simp [cancel, find_eq, ht]
  · simp [cancel, find_eq, ht]

/-- The timers `refresh` and `reset` act on: those with a callback that are
in the set. -/
def Pending (m : TimerManager) (t : Addr) : Prop :=
  (m.heap t).cb.isSome ∧ t ∈ m.timers

instance (m : TimerManager) (t : Addr) : Decidable (m.Pending t) :=
  inferInstanceAs (Decidable (_ ∧ _))

theorem refresh_eq (m : TimerManager) (t : Addr) (now : UInt64) :
    m.refresh t now =
      if m.Pending t then
        (((m.erase t).put t { m.heap t with next := now + (m.heap t).ms }).insert t,
          true)
      else (m, false) := by
  rw [refresh, find_eq]
  cases hcb : (m.heap t).cb <;> by_cases ht : t ∈ m.timers <;>
    simp [Pending, hcb, ht]

/-- Where `reset` starts counting. -/
def resetStart (m : TimerManager) (t : Addr) (fromNow : Bool) (now : UInt64) :
    UInt64 :=
  if fromNow then now else (m.heap t).next - (m.heap t).ms

theorem reset_eq (m : TimerManager) (t : Addr) (ms : UInt64) (fromNow : Bool)
    (now : UInt64) :
    m.reset t ms fromNow now =
      if ms = (m.heap t).ms ∧ fromNow = false then (m, true)
      else if m.Pending t then
        (((m.erase t).put t { m.heap t with
            ms := ms, next := m.resetStart t fromNow now + ms }).addTimerLocked t,
          true)
      else (m, false) := by
  rw [reset, find_eq]
  simp only [Bool.and_eq_true, beq_iff_eq, Bool.not_eq_true']
  split
  · rfl
  · cases hcb : (m.heap t).cb <;> by_cases ht : t ∈ m.timers <;>
      simp [Pending, resetStart, hcb, ht]

theorem getNextTimer_state (m : TimerManager) (now : UInt64) :
    (m.getNextTimer now).1 = { m with tickled := false } := by
  rw [getNextTimer]
  split
  · rfl
  · split <;> rfl

end TimerManager

/-! ## What one call can do -/

/-- The effects of a call, with its tests resolved. -/
inductive Effect (m : TimerManager) : Op → TimerManager → Prop
  /-- `cancel`, `refresh` or `reset` returned at once. -/
  | none (op : Op) (h : ∀ now, op ≠ .getNextTimer now) : Effect m op m
  | add {addr : Addr} (ms : UInt64) (cb : Option Callback) (recurring : Bool)
      (now : UInt64) (h : addr ∉ m.timers) :
      Effect m (.addTimer addr ms cb recurring now)
        ((m.put addr { recurring, ms, next := now + ms, cb }).addTimerLocked addr)
  | cancel {t : Addr} (h : m.Pending t) :
      Effect m (.cancel t) ((m.put t { m.heap t with cb := Option.none }).erase t)
  | refresh {t : Addr} (now : UInt64) (h : m.Pending t) :
      Effect m (.refresh t now)
        (((m.erase t).put t { m.heap t with next := now + (m.heap t).ms }).insert t)
  | reset {t : Addr} {ms : UInt64} {fromNow : Bool} (now : UInt64)
      (hne : ¬ (ms = (m.heap t).ms ∧ fromNow = false)) (h : m.Pending t) :
      Effect m (.reset t ms fromNow now)
        (((m.erase t).put t { m.heap t with
            ms := ms, next := m.resetStart t fromNow now + ms }).addTimerLocked t)
  | listExpiredCb (now : UInt64) {probe : Addr} (h : probe ∉ m.timers) :
      Effect m (.listExpiredCb now probe) (m.listExpiredCb now probe []).1
  | getNextTimer (now : UInt64) :
      Effect m (.getNextTimer now) { m with tickled := false }

theorem effect_of_step {op : Op} (hs : step m op = some m') : Effect m op m' := by
  cases op with
  | addTimer addr ms cb recurring now =>
      rw [step] at hs
      split at hs
      · cases hs
      · rename_i hfresh
        cases hs
        exact .add ms cb recurring now hfresh
  | cancel t =>
      rw [step, TimerManager.cancel_eq] at hs
      split at hs
      · rename_i hcb
        split at hs
        · rename_i ht
          cases hs
          exact .cancel ⟨hcb, ht⟩
        · cases hs
      · cases hs
        exact .none _ nofun
  | refresh t now =>
      rw [step, TimerManager.refresh_eq] at hs
      split at hs
      · rename_i hp
        cases hs
        exact .refresh now hp
      · cases hs
        exact .none _ nofun
  | reset t ms fromNow now =>
      rw [step, TimerManager.reset_eq] at hs
      split at hs
      · cases hs
        exact .none _ nofun
      · rename_i hne
        split at hs
        · rename_i hp
          cases hs
          exact .reset now hne hp
        · cases hs
          exact .none _ nofun
  | listExpiredCb now probe =>
      rw [step] at hs
      split at hs
      · cases hs
      · rename_i hp
        cases hs
        exact .listExpiredCb now hp
  | getNextTimer now =>
      rw [step, TimerManager.getNextTimer_state] at hs
      cases hs
      exact .getNextTimer now

end Hps.Timers
