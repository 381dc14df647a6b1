import Hps.Lib.Integers
import Hps.Timers.Wakeup

/-!
# IOManager — how long the idle thread waits

The loop of `idle` around `epoll_wait`. The time to the next timer is a
`uint64_t`, cut to `MAX_TIMEOUT` and passed as an `int`; a wait that a signal
ends is repeated with what the cut left. A cast to `int` keeps the low 32
bits, so it is bit 31 that decides whether the wait is bounded.
-/

namespace Hps.IOManager

open Hps.Lib.Integers Hps.Timers

def MAX_TIMEOUT : UInt64 := 3000

/-- The assignment to `next_timeout` in the loop. -/
def cutTimeout (nextTimeout : UInt64) : UInt64 :=
  if nextTimeout ≠ ~~~0 then
    if toInt nextTimeout.toNat > toInt MAX_TIMEOUT.toNat then MAX_TIMEOUT else nextTimeout
  else MAX_TIMEOUT

/-- What `epoll_wait` returns: -1 with `EINTR`, or anything else. -/
inductive Waited where
  | eintr
  | returned (rt : Int)
deriving DecidableEq, Repr

/-- The timeouts of the calls of `epoll_wait`, for what those that have
returned did return. -/
def timeouts (nextTimeout : UInt64) : List Waited → List Int
  | [] => [toInt (cutTimeout nextTimeout).toNat]
  | .eintr :: rs =>
      toInt (cutTimeout nextTimeout).toNat :: timeouts (cutTimeout nextTimeout) rs
  | .returned _ :: _ => [toInt (cutTimeout nextTimeout).toNat]

/-- `stopping(timeout)`, for what `Scheduler::stopping` says. -/
def stopping (m : TimerManager) (now : UInt64) (pendingEventCount : Nat)
    (stopped : Bool) : Bool × UInt64 :=
  let timeout := (m.getNextTimer now).2
  (timeout == ~~~0 && pendingEventCount == 0 && stopped, timeout)

/-- The timeouts one round of `idle` passes to `epoll_wait`. -/
def idleTimeouts (m : TimerManager) (now : UInt64) (pendingEventCount : Nat)
    (stopped : Bool) (rs : List Waited) : List Int :=
  let (stop, nextTimeout) := stopping m now pendingEventCount stopped
  if stop then [] else timeouts nextTimeout rs

/-- A timeout that waits for `d` at most, and not forever. -/
def Bounded (d : UInt64) (w : Int) : Prop :=
  0 ≤ w ∧ w ≤ 3000 ∧ (d ≠ ~~~0 → w ≤ d.toNat)

/-- Bit 31 of the time to the next timer is clear, or there is none. -/
def FitsInt (d : UInt64) : Prop :=
  d = ~~~0 ∨ d.toNat % 2 ^ 32 < 2 ^ 31

instance (d : UInt64) : Decidable (FitsInt d) := inferInstanceAs (Decidable (_ ∨ _))

/-! ## The cast and the cut -/

@[simp] theorem toInt_max : toInt MAX_TIMEOUT.toNat = 3000 :=
  toInt_eq_self (by decide) (by decide)

theorem cutTimeout_none : cutTimeout (~~~0) = MAX_TIMEOUT := by decide

/-- What is cut once is not cut again. -/
@[simp] theorem cutTimeout_cutTimeout (x : UInt64) :
    cutTimeout (cutTimeout x) = cutTimeout x := by
  have hmax : cutTimeout MAX_TIMEOUT = MAX_TIMEOUT := by simp [cutTimeout]
  by_cases hx : x = ~~~0
  · rw [hx, cutTimeout_none, hmax]
  · by_cases hc : toInt x.toNat > toInt MAX_TIMEOUT.toNat
    · have hcut : cutTimeout x = MAX_TIMEOUT := by
        rw [cutTimeout, if_pos hx, if_pos hc]
      rw [hcut, hmax]
    · have hcut : cutTimeout x = x := by
        rw [cutTimeout, if_pos hx, if_neg hc]
      rw [hcut, hcut]

/-- Every repetition waits for the same time. -/
theorem mem_timeouts {d : UInt64} {rs : List Waited} {w : Int} :
    w ∈ timeouts d rs ↔ w = toInt (cutTimeout d).toNat := by
  induction rs generalizing d with
  | nil => simp [timeouts]
  | cons r rs ih =>
      cases r with
      | eintr => simp [timeouts, ih]
      | returned => simp [timeouts]

/-- **One wait is bounded exactly if bit 31 is clear.** -/
theorem bounded_iff (d : UInt64) : Bounded d (toInt (cutTimeout d).toNat) ↔ FitsInt d := by
  by_cases hd : d = ~~~0
  · rw [hd, cutTimeout_none, toInt_max]
    simp [Bounded, FitsInt]
  · have hle := @toInt_natCast_le d.toNat
    have hsign := toInt_natCast_nonneg_iff d.toNat
    rw [cutTimeout, if_pos hd, toInt_max, Bounded, FitsInt]
    simp only [hd, false_or, not_false_eq_true, ne_eq, true_implies]
    split
    · rw [toInt_max]
      omega
    · omega

/-- What is waited for is the time to the next timer, cut. -/
theorem bounded_of_mem {m : TimerManager} {now : UInt64} {pendingEventCount : Nat}
    {stopped : Bool} {rs : List Waited} {w : Int} (hfits : FitsInt (m.getNextTimer now).2)
    (hw : w ∈ idleTimeouts m now pendingEventCount stopped rs) :
    Bounded (m.getNextTimer now).2 w := by
  rw [idleTimeouts] at hw
  dsimp only at hw
  split at hw
  · cases hw
  · rw [mem_timeouts.mp hw]
    exact (bounded_iff _).mpr hfits

/-- **The idle thread wakes up in time**, whatever the timers and the clock
and however often a signal ends the wait: each timeout passed to `epoll_wait`
is between 0 and 3000 and not beyond the time to the next timer, if and only
if bit 31 of that time is clear or there is no timer. -/
theorem idle_bounded_iff (m : TimerManager) (now : UInt64) (pendingEventCount : Nat)
    (stopped : Bool) (rs : List Waited) :
    (∀ w ∈ idleTimeouts m now pendingEventCount stopped rs,
        Bounded (m.getNextTimer now).2 w) ↔ FitsInt (m.getNextTimer now).2 := by
  refine ⟨fun h => ?_, fun hfits w hw => bounded_of_mem hfits hw⟩
  rw [idleTimeouts] at h
  dsimp only at h
  split at h
  · rename_i hstop
    -- nothing is waited for, and there is no timer
    simp only [stopping, Bool.and_eq_true, beq_iff_eq] at hstop
    exact .inl hstop.1.1
  · exact (bounded_iff _).mp (h _ (mem_timeouts.mpr rfl))

/-- In a set that is in order the wait ends before any deadline has passed
that had not passed before. -/
theorem idle_before_deadline {m : TimerManager} (h : m.Sorted) {now : UInt64}
    (hfits : FitsInt (m.getNextTimer now).2) {pendingEventCount : Nat} {stopped : Bool}
    {rs : List Waited} {w : Int}
    (hw : w ∈ idleTimeouts m now pendingEventCount stopped rs) {t : Addr}
    (ht : t ∈ m.timers) (hd : (m.getNextTimer now).2 ≠ ~~~0) :
    w ≤ ((m.heap t).next.toNat - now.toNat : Nat) := by
  have hle := (bounded_of_mem hfits hw).2.2 hd
  rcases getNextTimer_sleeps h now with ⟨hempty, -⟩ | ⟨D, hD, hsleep⟩
  · rw [hempty] at ht
    cases ht
  · have hearliest := earliest_le_of_notBefore (each_notBefore m t ht)
    rw [hD] at hearliest
    have hDle : D ≤ (m.heap t).next.toNat := WithTop.coe_le_coe.mp hearliest
    omega

/-- A timer that is due in 2147483648 ms. -/
def farTimer : TimerManager := (TimerManager.init 0).addTimer 1 0x80000000 (some 7) false 0

/-- The wait for it is without end. -/
theorem farTimer_unbounded :
    ¬∀ w ∈ idleTimeouts farTimer 0 0 false [], Bounded (farTimer.getNextTimer 0).2 w := by
  have hwait : idleTimeouts farTimer 0 0 false [] = [-2147483648] := by
    decide +kernel
  intro h
  rw [hwait] at h
  exact absurd (h _ List.mem_cons_self).1 (by decide)

end Hps.IOManager
