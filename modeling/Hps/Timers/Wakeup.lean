import Mathlib.Algebra.Order.Monoid.Unbundled.WithTop
import Mathlib.Data.List.MinMax
import Hps.Timers.Reachable

/-!
# Timers — no wake-up is missed

`getNextTimer` tells the idle thread how long to sleep and clears
`m_tickled`. Only `addTimer` wakes it again; `refresh` and the re-arming of
recurring timers insert into the set without a word. That is safe because a
deadline is always a start time in the past plus a period: with a clock that
never goes back, these two can only move a deadline to a later time.
`Quiet` says this of two states, `quiet_of_step` of one call, and
`wakeup_not_missed` of every run between two calls of `getNextTimer`.
-/

namespace Hps.Timers

open Hps.Lib OrderedSet TimerManager

/-! ## Runs under a clock -/

/-- A manager, and the last reading its calls made of the clock. -/
structure Clocked where
  mgr : TimerManager
  clock : UInt64

/-- The reading the call makes, if it gets as far as reading the clock. -/
def reading (m : TimerManager) : Op → Option UInt64
  | .addTimer _ _ _ _ now => some now
  | .cancel _ => none
  | .refresh t now => if m.Pending t then some now else none
  | .reset t _ fromNow now =>
      if m.Pending t ∧ fromNow = true then some now else none
  | .listExpiredCb now _ => some now
  | .getNextTimer now => if m.timers.isEmpty then none else some now

/-- The deadlines the call sets, each as a start time and a period. -/
def arming (m : TimerManager) : Op → List (UInt64 × UInt64)
  | .addTimer _ ms _ _ now => [(now, ms)]
  | .cancel _ => []
  | .refresh t now => if m.Pending t then [(now, (m.heap t).ms)] else []
  | .reset t ms fromNow now =>
      if ms = (m.heap t).ms ∧ fromNow = false then []
      else if m.Pending t then [(m.resetStart t fromNow now, ms)]
      else []
  | .listExpiredCb now _ =>
      ((m.expired now).filter fun t => (m.heap t).recurring).map fun t =>
        (now, (m.heap t).ms)
  | .getNextTimer _ => []

def Clocked.step (s : Clocked) (op : Op) : Option Clocked :=
  (Timers.step s.mgr op).map fun m => ⟨m, (reading s.mgr op).getD s.clock⟩

def Clocked.init (t₀ : UInt64) : Clocked := ⟨TimerManager.init t₀, t₀⟩

/-- The clock has not gone back, and no deadline the call sets overflows. -/
def Timely (s : Clocked) (op : Op) : Prop :=
  s.clock ≤ (reading s.mgr op).getD s.clock ∧
    ∀ p ∈ arming s.mgr op, p.1.toNat + p.2.toNat < UInt64.size

instance (s : Clocked) (op : Op) : Decidable (Timely s op) :=
  @instDecidableAnd _ _ inferInstance (List.decidableBAll _ _)

/-- `op` is not a call of `getNextTimer`. -/
def NotGetNextTimer : Op → Prop
  | .getNextTimer _ => False
  | _ => True

/-- The deadline of the earliest timer; `⊤` if there is none. -/
def earliest (m : TimerManager) : WithTop Nat :=
  (m.timers.map fun t => (m.heap t).next.toNat).minimum

/-! ## Deadlines count from the past -/

/-- The deadline is a time at or before the clock plus the period. -/
def Armed (clock : UInt64) (v : Timer) : Prop :=
  v.ms ≤ v.next ∧ v.next.toNat ≤ clock.toNat + v.ms.toNat

/-- Every pending deadline counts from a time in the past, and so does the
time of the last `listExpiredCb`. -/
structure OnTime (s : Clocked) : Prop where
  inv : s.mgr.Inv
  armed : s.mgr.Each (Armed s.clock)
  previouseTime : s.mgr.previouseTime ≤ s.clock

theorem toNat_add_of_lt {x y : UInt64} (h : x.toNat + y.toNat < UInt64.size) :
    (x + y).toNat = x.toNat + y.toNat := by
  rw [UInt64.toNat_add, Nat.mod_eq_of_lt h]

theorem le_rearm {old now ms : UInt64} (hlt : now.toNat + ms.toNat < UInt64.size)
    (h : old.toNat ≤ now.toNat + ms.toNat) : old ≤ now + ms := by
  rw [UInt64.le_iff_toNat_le, toNat_add_of_lt hlt]
  exact h

theorem Armed.mono {clock clock' : UInt64} {v : Timer} (h : Armed clock v)
    (hc : clock ≤ clock') : Armed clock' v := by
  rw [UInt64.le_iff_toNat_le] at hc
  exact ⟨h.1, by have := h.2; omega⟩

/-- A deadline counted from `start`. -/
theorem armed_at (start : UInt64) {clock : UInt64} {v : Timer} (h : start ≤ clock)
    (hlt : start.toNat + v.ms.toNat < UInt64.size) (hv : v.next = start + v.ms) :
    Armed clock v := by
  rw [UInt64.le_iff_toNat_le] at h
  rw [Armed, hv, UInt64.le_iff_toNat_le, toNat_add_of_lt hlt]
  omega

theorem Armed.resetStart_le {m : TimerManager} {t : Addr} {clock now : UInt64}
    {fromNow : Bool} (h : Armed clock (m.heap t)) (hnow : fromNow = true → now ≤ clock) :
    m.resetStart t fromNow now ≤ clock := by
  rw [resetStart]
  split
  · rename_i hf
    exact hnow hf
  · rw [UInt64.le_iff_toNat_le, UInt64.toNat_sub_of_le _ _ h.1]
    have := h.2
    omega

/-- With a clock that has not gone back there is no rollover. -/
theorem OnTime.no_rollover {s : Clocked} (h : OnTime s) {now : UInt64}
    (hnow : s.clock ≤ now) : (s.mgr.detectClockRollover now).2 = false := by
  have hp := h.previouseTime
  rw [UInt64.le_iff_toNat_le] at hp hnow
  have hlt : ¬ now < s.mgr.previouseTime := by
    rw [UInt64.lt_iff_toNat_lt]
    omega
  simp [detectClockRollover, hlt]

theorem listExpiredCb_arming {m : TimerManager} {now : UInt64} {t : Addr}
    (probe : Addr) (ht : t ∈ m.expired now) (hr : (m.heap t).recurring = true) :
    (now, (m.heap t).ms) ∈ arming m (.listExpiredCb now probe) :=
  List.mem_map.mpr ⟨t, List.mem_filter.mpr ⟨ht, hr⟩, rfl⟩

theorem OnTime.step {s s' : Clocked} (h : OnTime s) {op : Op} (hok : Timely s op)
    (hs : s.step op = some s') : OnTime s' := by
  obtain ⟨m', hm, rfl⟩ := Option.map_eq_some_iff.mp hs
  obtain ⟨hc, harm⟩ := hok
  have hprev : s.mgr.previouseTime ≤ (reading s.mgr op).getD s.clock :=
    UInt64.le_trans h.previouseTime hc
  have harmed : s.mgr.Each (Armed ((reading s.mgr op).getD s.clock)) :=
    h.armed.imp fun v hv => hv.mono hc
  refine ⟨h.inv.step hm, ?_, ?_⟩
  · cases effect_of_step hm with
    | none => exact harmed
    | add ms cb recurring now =>
        exact Each.addTimer harmed
          (armed_at now (UInt64.le_refl now) (harm (now, ms) (by simp [arming])) rfl)
    | cancel => exact harmed.put_erase h.inv.sorted _
    | @refresh t now hp =>
        refine Each.insert_put harmed.erase (armed_at now ?_ ?_ rfl)
        · simp [reading, hp]
        · exact harm (now, (s.mgr.heap t).ms) (by simp [arming, hp])
    | @reset t ms fromNow now hne hp =>
        refine Each.addTimer harmed.erase
          (armed_at (s.mgr.resetStart t fromNow now) ?_ ?_ rfl)
        · refine Armed.resetStart_le (harmed t hp.2) ?_
          intro hf
          simp [reading, hp, hf]
        · exact harm (s.mgr.resetStart t fromNow now, ms)
            (by rw [arming, if_neg hne, if_pos hp]; exact List.mem_singleton_self _)
    | @listExpiredCb now probe hp =>
        refine Each.fired harmed (listExpiredCb_fired now [] h.inv.sorted hp).1 ?_
        intro t ht hr
        rw [Timer.fire, if_pos hr]
        exact armed_at now (UInt64.le_refl now) (harm _ (listExpiredCb_arming probe ht hr)) rfl
    | getNextTimer now => exact harmed
  · cases effect_of_step hm with
    | @listExpiredCb now probe hp =>
        rw [(listExpiredCb_fired now [] h.inv.sorted hp).1.previouseTime, withoutExpired]
        dsimp only
        split
        · exact hprev
        · exact UInt64.le_refl now
    | _ => exact hprev

/-! ## The front does not move forward silently -/

/-- The timer is not due before the first one of `m`. -/
def NotBefore (m : TimerManager) (v : Timer) : Prop :=
  ∃ u ∈ m.timers, (m.heap u).next ≤ v.next

/-- From `m` to `m'` the front did not move to an earlier deadline, or
`m_tickled` is set; and it is set only together with a call of
`onTimerInsertedAtFront`. -/
structure Quiet (m m' : TimerManager) : Prop where
  tickled : m.tickled = true → m'.tickled = true
  insertedAtFront : m.insertedAtFront ≤ m'.insertedAtFront
  notified : m'.tickled = true →
    m.tickled = true ∨ m.insertedAtFront < m'.insertedAtFront
  front : m'.tickled = true ∨ m'.Each (NotBefore m)

theorem each_notBefore (m : TimerManager) : m.Each (NotBefore m) :=
  fun t ht => ⟨t, ht, UInt64.le_refl _⟩

/-- A change that leaves `m_tickled` alone. -/
theorem Quiet.of_each {m m' : TimerManager} (ht : m'.tickled = m.tickled)
    (hf : m'.insertedAtFront = m.insertedAtFront) (h : m'.Each (NotBefore m)) :
    Quiet m m' where
  tickled := by rw [ht]; exact id
  insertedAtFront := Nat.le_of_eq hf.symm
  notified := by rw [ht]; exact .inl
  front := .inr h

theorem Quiet.refl (m : TimerManager) : Quiet m m :=
  .of_each rfl rfl (each_notBefore m)

theorem Quiet.trans {m₁ m₂ m₃ : TimerManager} (h : Quiet m₁ m₂) (h' : Quiet m₂ m₃) :
    Quiet m₁ m₃ where
  tickled ht := h'.tickled (h.tickled ht)
  insertedAtFront := Nat.le_trans h.insertedAtFront h'.insertedAtFront
  notified ht := by
    have h1 := h.insertedAtFront
    have h2 := h'.insertedAtFront
    rcases h'.notified ht with ht | hlt
    · rcases h.notified ht with ht | hlt
      · exact .inl ht
      · exact .inr (by omega)
    · exact .inr (by omega)
  front := by
    rcases h'.front with ht | hn'
    · exact .inl ht
    · rcases h.front with ht | hn
      · exact .inl (h'.tickled ht)
      · right
        intro t ht
        obtain ⟨u, hu, hut⟩ := hn' t ht
        obtain ⟨w, hw, hwu⟩ := hn u hu
        exact ⟨w, hw, UInt64.le_trans hwu hut⟩

/-- **Only `addTimer` speaks up**: a timer put in by it stands behind one
that was there, or the flag is set. -/
theorem quiet_addTimer {m : TimerManager} {t : Addr} (ht : t ∉ m.timers) (v : Timer) :
    Quiet m ((m.put t v).addTimerLocked t) where
  tickled h := by simp [addTimerLocked, h]
  insertedAtFront := by simp [addTimerLocked]
  notified htick := by
    by_cases hm : m.tickled = true
    · exact .inl hm
    · right
      have hhead : ((m.put t v).insert t).timers.head? = some t := by
        simpa [addTimerLocked, hm] using htick
      simp [addTimerLocked, hhead, hm]
  front := by
    rcases head?_insert (r := Before (m.put t v).heap) ht
      with hfront | ⟨u, hu, hbefore⟩
    · left
      have hhead : ((m.put t v).insert t).timers.head? = some t := hfront
      simp only [addTimerLocked, hhead, BEq.rfl, Bool.true_and]
      cases ((m.put t v).insert t).tickled <;> rfl
    · right
      have hle := hbefore.next_le
      have hut : u ≠ t := fun e => ht (e ▸ hu)
      rw [put_heap_self, put_heap_ne v hut] at hle
      exact Each.addTimer (each_notBefore m) ⟨u, hu, hle⟩

theorem quiet_of_step {s s' : Clocked} (h : OnTime s) {op : Op} (hok : Timely s op)
    (hop : NotGetNextTimer op) (hs : s.step op = some s') : Quiet s.mgr s'.mgr := by
  obtain ⟨m', hm, rfl⟩ := Option.map_eq_some_iff.mp hs
  obtain ⟨hc, harm⟩ := hok
  cases effect_of_step hm with
  | none => exact Quiet.refl _
  | add ms cb recurring now hfresh => exact quiet_addTimer hfresh _
  | cancel =>
      exact .of_each rfl rfl ((each_notBefore _).put_erase h.inv.sorted _)
  | @refresh t now hp =>
      -- `now + ms` is not before the deadline that counted from the past
      refine .of_each rfl rfl (Each.insert_put (each_notBefore _).erase ?_)
      have hold := (h.armed t hp.2).2
      have hnow : s.clock ≤ now := by simpa [reading, hp] using hc
      have hlt := harm (now, (s.mgr.heap t).ms) (by simp [arming, hp])
      rw [UInt64.le_iff_toNat_le] at hnow
      exact ⟨t, hp.2, le_rearm hlt (by omega)⟩
  | @reset t ms fromNow now hne hp =>
      have hout : t ∉ (s.mgr.erase t).timers := fun ht =>
        ((mem_erase h.inv.sorted).mp ht).1 rfl
      have herase : Quiet s.mgr (s.mgr.erase t) :=
        .of_each rfl rfl (each_notBefore s.mgr).erase
      exact herase.trans (quiet_addTimer hout _)
  | @listExpiredCb now probe hp =>
      have hf := (listExpiredCb_fired now [] h.inv.sorted hp).1
      have hnow : s.clock ≤ now := by simpa [reading] using hc
      refine .of_each hf.tickled hf.insertedAtFront ((each_notBefore _).fired hf ?_)
      intro t ht hr
      have hdue : (s.mgr.heap t).next ≤ now := by
        rcases (mem_expired.mp ht).2 with hroll | hdue
        · rw [h.no_rollover hnow] at hroll
          cases hroll
        · exact hdue
      have hlt := harm _ (listExpiredCb_arming probe ht hr)
      rw [UInt64.le_iff_toNat_le] at hdue
      rw [Timer.fire, if_pos hr]
      exact ⟨t, (mem_expired.mp ht).1, le_rearm hlt (by omega)⟩
  | getNextTimer now => exact hop.elim

/-! ## Whole runs -/

theorem onTime_of_run {t₀ : UInt64} {ops : List Op} {s : Clocked}
    (hok : Meets Clocked.step Timely (Clocked.init t₀) ops)
    (hr : run Clocked.step (Clocked.init t₀) ops = some s) : OnTime s := by
  have hinit : OnTime (Clocked.init t₀) :=
    ⟨init_inv t₀, by simp [Each, Clocked.init, TimerManager.init], UInt64.le_refl t₀⟩
  exact run_invariant (fun _ _ _ h hok hs => h.step hok hs) hinit hok hr

theorem quiet_of_run {s s' : Clocked} {ops : List Op} (h : OnTime s)
    (hok : Meets Clocked.step Timely s ops) (hops : ∀ op ∈ ops, NotGetNextTimer op)
    (hr : run Clocked.step s ops = some s') : Quiet s.mgr s'.mgr := by
  have hstep : ∀ (t : Clocked) (op : Op) (t' : Clocked),
      (OnTime t ∧ Quiet s.mgr t.mgr) → (Timely t op ∧ NotGetNextTimer op) →
        t.step op = some t' → OnTime t' ∧ Quiet s.mgr t'.mgr :=
    fun t op t' h hok hs =>
      ⟨h.1.step hok.1 hs, h.2.trans (quiet_of_step h.1 hok.1 hok.2 hs)⟩
  exact (run_invariant hstep ⟨h, Quiet.refl _⟩ (hok.and_forall hops) hr).2

theorem earliest_le_of_notBefore {m : TimerManager} {v : Timer} (h : NotBefore m v) :
    earliest m ≤ (v.next.toNat : WithTop Nat) := by
  obtain ⟨u, hu, hle⟩ := h
  rw [UInt64.le_iff_toNat_le] at hle
  have hmin : earliest m ≤ ((m.heap u).next.toNat : WithTop Nat) :=
    List.minimum_le_of_mem' (List.mem_map.mpr ⟨u, hu, rfl⟩)
  exact hmin.trans (WithTop.coe_le_coe.mpr hle)

/-- What `getNextTimer` returns is the time to the earliest deadline, `0` if
it has passed. -/
theorem getNextTimer_sleeps {m : TimerManager} (h : m.Sorted) (now : UInt64) :
    (m.timers = [] ∧ earliest m = ⊤ ∧ (m.getNextTimer now).2 = ~~~0) ∨
      ∃ D : Nat, earliest m = D ∧ (m.getNextTimer now).2.toNat = D - now.toNat := by
  cases hm : m.timers with
  | nil => exact .inl ⟨rfl, by simp [earliest, hm], by simp [getNextTimer, hm]⟩
  | cons first tail =>
      right
      refine ⟨(m.heap first).next.toNat, ?_, ?_⟩
      · have hfirst : NotBefore m (m.heap first) := each_notBefore m first (by simp [hm])
        refine le_antisymm (earliest_le_of_notBefore hfirst) (List.le_minimum_of_forall_le ?_)
        intro d hd
        obtain ⟨t, ht, rfl⟩ := List.mem_map.mp hd
        have hle := h.head_le hm ht
        rw [UInt64.le_iff_toNat_le] at hle
        exact WithTop.coe_le_coe.mpr hle
      · simp only [getNextTimer, hm, ge_iff_le]
        split
        · rename_i hle
          rw [UInt64.le_iff_toNat_le] at hle
          rw [Nat.sub_eq_zero_of_le hle]
          rfl
        · rename_i hlt
          rw [UInt64.le_iff_toNat_le] at hlt
          rw [UInt64.toNat_sub_of_le]
          rw [UInt64.le_iff_toNat_le]
          omega

/-- **No wake-up is missed.** Take any run with a clock that never goes back
and no deadline past `2^64`, and a call of `getNextTimer` in it. In every
later state before the next such call, no pending timer is due before the
deadline that was the earliest at the call, or `m_tickled` is set and
`onTimerInsertedAtFront` has been called since. -/
theorem wakeup_not_missed {t₀ now : UInt64} {ops ops' : List Op} {s₁ s₂ s₃ : Clocked}
    (hok : Meets Clocked.step Timely (Clocked.init t₀)
      (ops ++ .getNextTimer now :: ops'))
    (h₁ : run Clocked.step (Clocked.init t₀) ops = some s₁)
    (h₂ : s₁.step (.getNextTimer now) = some s₂)
    (hops' : ∀ op ∈ ops', NotGetNextTimer op)
    (h₃ : run Clocked.step s₂ ops' = some s₃) :
    (∀ t ∈ s₃.mgr.timers,
        earliest s₁.mgr ≤ ((s₃.mgr.heap t).next.toNat : WithTop Nat)) ∨
      (s₃.mgr.tickled = true ∧ s₂.mgr.insertedAtFront < s₃.mgr.insertedAtFront) := by
  obtain ⟨hok₁, hok₂⟩ := hok.append h₁
  have hon : OnTime s₂ := (onTime_of_run hok₁ h₁).step hok₂.1 h₂
  have hq : Quiet s₂.mgr s₃.mgr := quiet_of_run hon (hok₂.2 s₂ h₂) hops' h₃
  have hs₂ : s₂.mgr = { s₁.mgr with tickled := false } := by
    obtain ⟨m, hm, rfl⟩ := Option.map_eq_some_iff.mp h₂
    rw [Timers.step, getNextTimer_state] at hm
    exact (Option.some_inj.mp hm).symm
  by_cases htick : s₃.mgr.tickled = true
  · right
    refine ⟨htick, ?_⟩
    rcases hq.notified htick with h | h
    · rw [hs₂] at h
      cases h
    · exact h
  · left
    intro t ht
    have hearliest : earliest s₂.mgr = earliest s₁.mgr := by rw [hs₂]; rfl
    rw [← hearliest]
    exact earliest_le_of_notBefore (hq.front.resolve_left htick t ht)

/-- A timer due at 60 is reset to 20 while the idle thread sleeps. -/
def resetRun : List Op :=
  [.addTimer 1 50 (some 7) false 10]

theorem resetRun_wakes :
    ∃ s₁ s₂ s₃ : Clocked,
      run Clocked.step (Clocked.init 10) resetRun = some s₁ ∧
      s₁.step (.getNextTimer 12) = some s₂ ∧
      run Clocked.step s₂ [.reset 1 10 false 15] = some s₃ ∧
      ((∀ t ∈ s₃.mgr.timers,
          earliest s₁.mgr ≤ ((s₃.mgr.heap t).next.toNat : WithTop Nat)) ∨
        (s₃.mgr.tickled = true ∧ s₂.mgr.insertedAtFront < s₃.mgr.insertedAtFront)) := by
  have hok : Meets Clocked.step Timely (Clocked.init 10)
      (resetRun ++ .getNextTimer 12 :: [.reset 1 10 false 15]) := by decide
  have hops : ∀ op ∈ [Op.reset 1 10 false 15], NotGetNextTimer op := by
    simp [NotGetNextTimer]
  exact ⟨_, _, _, rfl, rfl, rfl, wakeup_not_missed hok rfl rfl hops rfl⟩

end Hps.Timers
