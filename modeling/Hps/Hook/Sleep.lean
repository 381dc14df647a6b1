import Hps.Lib.Integers
import Hps.Timers.Wakeup

/-!
# Hook — sleeping

The hooked `sleep`, `usleep` and `nanosleep` arm a timer that schedules the
fiber again, and give the thread up. Each counts the milliseconds in an
integer type of its own, and what does not fit the type is lost before the
clock is added. Nobody but the manager has the timer: until it fires it keeps
the deadline it was armed with (`Sleeping.run`).
-/

namespace Hps.Hook

open Hps.Lib Hps.Lib.Integers Hps.Timers TimerManager

/-- The calls, with the hook enabled. The fields of `*req` are `tv_sec` and
`tv_nsec`. -/
inductive SleepCall where
  | sleep (seconds : UInt32)
  | usleep (usec : UInt32)
  | nanosleep (tvSec tvNsec : Int)
deriving DecidableEq, Repr

/-- A `long`, or signed overflow, which is undefined. -/
def toLong (n : Int) : Option Int :=
  if -2 ^ 63 ≤ n ∧ n < 2 ^ 63 then some n else none

namespace SleepCall

/-- The `ms` that `addTimer` gets. -/
def timeoutMs : SleepCall → Option UInt64
  | sleep seconds => some (seconds * 1000).toUInt64
  | usleep usec => some (usec / 1000).toUInt64
  | nanosleep tvSec tvNsec => do
      let sec ← toLong (tvSec * 1000)
      let timeoutMs ← toLong (sec + (tvNsec.tdiv 1000).tdiv 1000)
      return UInt64.ofInt (toInt timeoutMs)

/-- The call up to `YieldToHold`: the new timer lies at `addr`, and its
callback schedules `fiber`. -/
def arm (c : SleepCall) (m : TimerManager) (addr : Addr) (fiber : Callback)
    (now : UInt64) : Option TimerManager :=
  c.timeoutMs.map fun ms => m.addTimer addr ms (some fiber) false now

/-- The time asked for, in whole milliseconds. -/
def requested : SleepCall → Nat
  | sleep seconds => seconds.toNat * 1000
  | usleep usec => usec.toNat / 1000
  | nanosleep tvSec tvNsec => tvSec.toNat * 1000 + tvNsec.toNat / 1000000

/-- The arguments `nanosleep` is made for. -/
def Valid : SleepCall → Prop
  | sleep _ | usleep _ => True
  | nanosleep tvSec tvNsec => 0 ≤ tvSec ∧ tvSec * 1000 < 2 ^ 63 ∧ 0 ≤ tvNsec ∧ tvNsec < 10 ^ 9

/-- The time fits the type it is counted in. A negative `int` is added to
the clock as a huge number, which does no harm while the clock is small. -/
def Fits (now : UInt64) : SleepCall → Prop
  | sleep seconds => seconds.toNat * 1000 < 2 ^ 32
  | usleep _ => True
  | nanosleep tvSec tvNsec =>
      let ms := (nanosleep tvSec tvNsec).requested
      ms < 2 ^ 31 ∨ (ms < 2 ^ 63 ∧ now.toNat + toInt ms < 0)

instance : (c : SleepCall) → Decidable c.Valid
  | sleep _ | usleep _ => isTrue trivial
  | nanosleep _ _ => inferInstanceAs (Decidable (_ ∧ _))

instance (now : UInt64) : (c : SleepCall) → Decidable (c.Fits now)
  | sleep _ => inferInstanceAs (Decidable (_ < _))
  | usleep _ => isTrue trivial
  | nanosleep _ _ => inferInstanceAs (Decidable (_ ∨ _))

end SleepCall

/-! ## A timer nobody else has -/

/-- The call is not made on `t`, and does not take it. -/
def Undisturbed (t : Addr) (m : TimerManager) : Op → Prop
  | .cancel u | .refresh u _ | .reset u _ _ _ => u ≠ t
  | .listExpiredCb now _ => t ∉ m.expired now
  | .addTimer _ _ _ _ _ | .getNextTimer _ => True

instance (t : Addr) (m : TimerManager) : (op : Op) → Decidable (Undisturbed t m op)
  | .cancel _ | .refresh _ _ | .reset _ _ _ _ => inferInstanceAs (Decidable (_ ≠ _))
  | .listExpiredCb _ _ => inferInstanceAs (Decidable (_ ∉ _))
  | .addTimer _ _ _ _ _ | .getNextTimer _ => isTrue trivial

/-- The timer is in the set as it was armed. -/
structure Sleeping (t : Addr) (v : Timer) (m : TimerManager) : Prop where
  inv : m.Inv
  mem : t ∈ m.timers
  heap : m.heap t = v

theorem Sleeping.step {t : Addr} {v : Timer} {m m' : TimerManager} (h : Sleeping t v m)
    {op : Op} (hok : Undisturbed t m op) (hs : Timers.step m op = some m') : Sleeping t v m' := by
  have hinv := h.inv.step hs
  -- what is done to another timer `u` leaves the heap at `t` alone
  have hput : ∀ {u : Addr} (w : Timer), u ≠ t → (m.put u w).heap t = v := by
    intro u w hut
    rw [put_heap_ne w hut.symm, h.heap]
  cases effect_of_step hs with
  | none => exact h
  | add ms cb recurring now hfresh =>
      refine ⟨hinv, mem_addTimerLocked.mpr (.inr h.mem), hput _ ?_⟩
      rintro rfl
      exact hfresh h.mem
  | cancel =>
      refine ⟨hinv, ?_, hput _ hok⟩
      exact (mem_erase (h.inv.sorted.put_cb none)).mpr ⟨hok.symm, h.mem⟩
  | refresh now =>
      refine ⟨hinv, mem_insert.mpr (.inr ?_), hput _ hok⟩
      exact (mem_erase h.inv.sorted).mpr ⟨hok.symm, h.mem⟩
  | reset now =>
      refine ⟨hinv, mem_addTimerLocked.mpr (.inr ?_), hput _ hok⟩
      exact (mem_erase h.inv.sorted).mpr ⟨hok.symm, h.mem⟩
  | listExpiredCb now hp =>
      have hf := (listExpiredCb_fired now [] h.inv.sorted hp).1
      refine ⟨hinv, (hf.mem t).mpr (.inl ?_), ?_⟩
      · exact mem_withoutExpired.mpr ⟨h.mem, hok⟩
      · exact (hf.heap_out t hok).trans h.heap
  | getNextTimer now => exact ⟨hinv, h.mem, h.heap⟩

theorem Sleeping.run {t : Addr} {v : Timer} {m m' : TimerManager} {ops : List Op}
    (h : Sleeping t v m) (hok : Meets Timers.step (Undisturbed t) m ops)
    (hr : Lib.run Timers.step m ops = some m') : Sleeping t v m' :=
  run_invariant (fun _ _ _ h hok hs => h.step hok hs) h hok hr

/-- Whatever is called before, `listExpiredCb` does not take the timer at a
reading before `deadline`, unless the clock has gone back. -/
def NotTakenBefore (m : TimerManager) (t : Addr) (deadline : Nat) : Prop :=
  ∀ (ops : List Op) (m' : TimerManager) (now : UInt64),
    Meets Timers.step (Undisturbed t) m ops → run Timers.step m ops = some m' →
      t ∈ m'.expired now →
      (m'.detectClockRollover now).2 = true ∨ deadline ≤ now.toNat

theorem Sleeping.notTakenBefore {t : Addr} {v : Timer} {m : TimerManager} {deadline : Nat}
    (h : Sleeping t v m) (hle : deadline ≤ v.next.toNat) : NotTakenBefore m t deadline := by
  intro ops m' now hok hr ht
  have hs := h.run hok hr
  refine (mem_expired.mp ht).2.imp_right fun hdue => ?_
  rw [hs.heap, UInt64.le_iff_toNat_le] at hdue
  omega

/-! ## The deadline -/

namespace SleepCall

/-- The call arms a timer that is not due before the time asked for is over,
and not taken before. -/
def SleepsThrough (c : SleepCall) (m : TimerManager) (addr : Addr) (fiber : Callback)
    (now : UInt64) : Prop :=
  ∃ m', c.arm m addr fiber now = some m' ∧
    now.toNat + c.requested ≤ (m'.heap addr).next.toNat ∧
    NotTakenBefore m' addr (now.toNat + c.requested)

/-- What the call passes to `addTimer` makes a deadline that is late enough,
as an `uint64_t`. -/
def LateEnough (c : SleepCall) (now : UInt64) : Prop :=
  ∃ ms, c.timeoutMs = some ms ∧ now.toNat + c.requested ≤ (now + ms).toNat

theorem sleepsThrough_iff {c : SleepCall} {m : TimerManager} {addr : Addr}
    (hi : m.Inv) (hfresh : addr ∉ m.timers) (fiber : Callback) (now : UInt64) :
    c.SleepsThrough m addr fiber now ↔ c.LateEnough now := by
  constructor
  · rintro ⟨m', harm, hle, -⟩
    obtain ⟨ms, hms, rfl⟩ := Option.map_eq_some_iff.mp harm
    refine ⟨ms, hms, ?_⟩
    rwa [addTimer, addTimerLocked_heap, put_heap_self] at hle
  · rintro ⟨ms, hms, hle⟩
    have hsleep : Sleeping addr { recurring := false, ms, next := now + ms, cb := some fiber }
        (m.addTimer addr ms (some fiber) false now) := by
      refine ⟨hi.addTimer hfresh _, mem_addTimerLocked.mpr (.inl rfl), ?_⟩
      rw [addTimer, addTimerLocked_heap, put_heap_self]
    refine ⟨_, by rw [arm, hms]; rfl, ?_, hsleep.notTakenBefore hle⟩
    rw [hsleep.heap]
    exact hle

/-- Below `2^63` the sum with the clock does not wrap around. -/
theorem toNat_deadline {now ms : UInt64} (hnow : now.toNat < 2 ^ 62)
    (hms : ms.toNat < 2 ^ 63) : (now + ms).toNat = now.toNat + ms.toNat := by
  refine toNat_add_of_lt ?_
  simp only [UInt64.size]
  omega

theorem lateEnough_sleep {now : UInt64} (hnow : now.toNat < 2 ^ 62) (seconds : UInt32) :
    (sleep seconds).LateEnough now ↔ (sleep seconds).Fits now := by
  have hms : ((seconds * 1000).toUInt64).toNat = seconds.toNat * 1000 % 2 ^ 32 := by
    rw [UInt32.toNat_toUInt64, UInt32.toNat_mul]
    rfl
  have hlt : seconds.toNat * 1000 % 2 ^ 32 < 2 ^ 32 := Nat.mod_lt _ (by decide)
  have hsmall : ((seconds * 1000).toUInt64).toNat < 2 ^ 63 := by omega
  have hsum := toNat_deadline hnow hsmall
  simp only [LateEnough, timeoutMs, requested, Fits, Option.some.injEq, exists_eq_left',
    hsum, hms]
  omega

theorem lateEnough_usleep {now : UInt64} (hnow : now.toNat < 2 ^ 62) (usec : UInt32) :
    (usleep usec).LateEnough now := by
  have hms : ((usec / 1000).toUInt64).toNat = usec.toNat / 1000 := by
    rw [UInt32.toNat_toUInt64, UInt32.toNat_div]
    rfl
  have husec := usec.toNat_lt
  refine ⟨_, rfl, ?_⟩
  rw [toNat_deadline hnow (by omega), hms]
  exact Nat.le_refl _

theorem toLong_natCast (n : Nat) : toLong n = if n < 2 ^ 63 then some (n : Int) else none := by
  rw [toLong]
  split
  · rw [if_pos (by omega)]
  · rw [if_neg (by omega)]

/-- An `int` as the `uint64_t` it is passed as. -/
theorem toNat_ofInt_toInt (n : Nat) : (UInt64.ofInt (toInt n)).toNat =
    if 0 ≤ toInt n then (toInt n).toNat else (2 ^ 64 + toInt n).toNat := by
  have hlt := toInt_lt n
  have hle := le_toInt n
  rw [UInt64.ofInt, UInt64.toNat_ofNat', Nat.mod_eq_of_lt (by omega)]
  split <;> omega

theorem timeoutMs_nanosleep {tvSec tvNsec : Int} (hv : (nanosleep tvSec tvNsec).Valid) :
    (nanosleep tvSec tvNsec).timeoutMs =
      if (nanosleep tvSec tvNsec).requested < 2 ^ 63 then
        some (UInt64.ofInt (toInt (nanosleep tvSec tvNsec).requested))
      else none := by
  obtain ⟨hsec, hlong, hnsec, hnsec'⟩ := hv
  have hfirst : toLong (tvSec * 1000) = some (tvSec * 1000) := by
    rw [toLong, if_pos (by omega)]
  have hsum : tvSec * 1000 + (tvNsec.tdiv 1000).tdiv 1000 =
      ((nanosleep tvSec tvNsec).requested : Nat) := by
    rw [requested, Int.tdiv_eq_ediv_of_nonneg hnsec, Int.tdiv_eq_ediv_of_nonneg (by omega)]
    omega
  rw [timeoutMs, hfirst, Option.bind_eq_bind, Option.bind_some, hsum, toLong_natCast]
  split
  · rfl
  · rfl

theorem lateEnough_nanosleep {now : UInt64} (hnow : now.toNat < 2 ^ 62) {tvSec tvNsec : Int}
    (hv : (nanosleep tvSec tvNsec).Valid) :
    (nanosleep tvSec tvNsec).LateEnough now ↔ (nanosleep tvSec tvNsec).Fits now := by
  rw [LateEnough, Fits, timeoutMs_nanosleep hv]
  generalize (nanosleep tvSec tvNsec).requested = n
  have hlt := toInt_lt n
  have hle := le_toInt n
  have hcast := toNat_ofInt_toInt n
  by_cases hlong : n < 2 ^ 63
  · rw [if_pos hlong]
    simp only [Option.some.injEq, exists_eq_left', hlong, true_and]
    by_cases hsign : 0 ≤ toInt n
    · -- not negative: the sum is the one in the integers
      rw [if_pos hsign] at hcast
      rw [toNat_deadline hnow (by omega), hcast]
      have hself := @toInt_eq_self n
      have hn := @toInt_natCast_le n
      omega
    · rw [if_neg hsign] at hcast
      have hself := @toInt_eq_self n
      rw [UInt64.toNat_add, hcast]
      omega
  · rw [if_neg hlong]
    simp only [reduceCtorEq, false_and, exists_false, hlong, or_false, false_iff]
    omega

/-- What each call needs. -/
theorem lateEnough_iff {now : UInt64} (hnow : now.toNat < 2 ^ 62) {c : SleepCall}
    (hv : c.Valid) : c.LateEnough now ↔ c.Fits now := by
  cases c with
  | sleep seconds => exact lateEnough_sleep hnow seconds
  | usleep usec => exact ⟨fun _ => trivial, fun _ => lateEnough_usleep hnow usec⟩
  | nanosleep tvSec tvNsec => exact lateEnough_nanosleep hnow hv

/-- **A sleep does not end early exactly if its milliseconds fit.** In every
reachable state of the manager, for every argument and every clock below
`2^62`: the deadline of the timer is not before the time asked for is over,
and whatever is called until then, no `listExpiredCb` takes the timer before
that, unless the clock has gone back by more than an hour. -/
theorem sleepsThrough_iff_fits {t₀ : UInt64} {ops : List Op} {m : TimerManager}
    (hr : run Timers.step (init t₀) ops = some m) {addr : Addr} (hfresh : addr ∉ m.timers)
    (fiber : Callback) {now : UInt64} (hnow : now.toNat < 2 ^ 62) {c : SleepCall}
    (hv : c.Valid) : c.SleepsThrough m addr fiber now ↔ c.Fits now :=
  (sleepsThrough_iff (inv_of_run hr) hfresh fiber now).trans (lateEnough_iff hnow hv)

/-- Two days and a bit. -/
theorem twoDays_sleepsThrough :
    (nanosleep 172800 500000000).SleepsThrough (init 100) 1 7 1700000000000 :=
  have hr : run Timers.step (init 100) [] = some (init 100) := rfl
  (sleepsThrough_iff_fits hr (by decide) 7 (by decide) (by decide)).mpr (by decide)

/-- 50 days are some 7 hours. -/
theorem fiftyDays_not_sleepsThrough :
    ¬(sleep 4320000).SleepsThrough (init 100) 1 7 1700000000000 := by
  rintro ⟨m', harm, hle, -⟩
  cases harm
  exact absurd hle (by decide)

end SleepCall

end Hps.Hook
