import Mathlib.Logic.Function.Basic
import Hps.Hook.Model

/-!
# Hook — a wait with a timeout

One call of `do_io`, with its fiber, its timers and their callbacks, which run
on other workers, and the dispatch of its event. A step is one access to what
they share: the timers, the registered event, and `tinfo->cancelled`. `epoll_ctl`
succeeds on a descriptor whose event is registered.

The timer is armed before the event is registered, and `cancelled` belongs to
the whole call. A callback whose `cancelEvent` comes before the `addEvent` of
the round finds no event, and disables every later callback
(`timeout_lost`); otherwise a fiber that waits can time out
(`timeout_run`).
-/

namespace Hps.Hook.DoIo

open Hps.Lib

/-! ## State -/

def EINTR : Nat := 4

def EBADF : Nat := 9

def EAGAIN : Nat := 11

def ETIMEDOUT : Nat := 110

/-- What `fun` returns: a number, or -1 with an `errno`. -/
inductive IoResult where
  | ok (n : Nat)
  | eintr
  | eagain
  | error (errno : { e : Nat // e ≠ EINTR ∧ e ≠ EAGAIN })
  deriving DecidableEq, Repr

inductive Outcome where
  | ok (n : Nat)
  | error (errno : Nat)
  /-- `addEvent` has failed; `errno` is as it was. -/
  | notAdded
  deriving DecidableEq, Repr

/-- Where the fiber stands. -/
inductive Pc where
  /-- Nothing is hooked. -/
  | direct
  /-- At `retry`, or in the loop over `EINTR`. -/
  | retry
  /-- Before `addConditionTimer`. -/
  | arm
  /-- Before `addEvent`. -/
  | register
  /-- Behind an `addEvent` that has failed. -/
  | failed
  /-- Before `YieldToHold`. -/
  | yield
  | suspended
  /-- Behind `YieldToHold`, before `timer->cancel()`. -/
  | resumed
  /-- Before the test of `cancelled`. -/
  | test
  | done (r : Outcome)
  deriving DecidableEq, Repr

/-- A timer of the call, and its callback. -/
inductive TimerState where
  | unmade
  | armed
  /-- `listExpiredCb` has taken the callback, which has not begun. -/
  | expired
  /-- The callback has found `cancelled` to be 0. -/
  | tested
  /-- The callback has set `cancelled`, before its `cancelEvent`. -/
  | cancelling
  | ran
  | cancelled
  deriving DecidableEq, Repr

structure State where
  /-- `to` -/
  timeout : UInt64
  pc : Pc := .retry
  /-- `tinfo->cancelled` is `ETIMEDOUT`, and not 0. -/
  cancelled : Bool := false
  /-- The timers of the rounds, and how many have been made. -/
  timers : Nat → TimerState := fun _ => .unmade
  made : Nat := 0
  /-- The event is registered. -/
  event : Bool := false
  /-- The fiber is scheduled. -/
  woken : Bool := false

/-- `getTimeout` -/
def getTimeout (c : FdCtx) : TimeoutOf → UInt64
  | .recv => c.recvTimeout
  | .send => c.sendTimeout

/-- `do_io` up to `retry`. -/
def start (hookEnable : Bool) (ctx : Option FdCtx) (type : TimeoutOf) : State :=
  if !hookEnable then { timeout := noTimeout, pc := .direct }
  else
    match ctx with
    | none => { timeout := noTimeout, pc := .direct }
    | some c =>
        if c.isClosed then { timeout := noTimeout, pc := .done (.error EBADF) }
        else if !c.isSocket || c.userNonblock then { timeout := noTimeout, pc := .direct }
        else { timeout := getTimeout c type }

namespace State

def setTimer (s : State) (k : Nat) (x : TimerState) : State :=
  { s with timers := Function.update s.timers k x }

/-- `to != (uint64_t)-1` -/
def finite (s : State) : Bool := s.timeout != noTimeout

/-- `if(timer) timer->cancel()`: it has no effect once the callback is taken. -/
def cancelTimer (s : State) : State :=
  if s.finite ∧ s.timers (s.made - 1) = .armed then
    s.setTimer (s.made - 1) .cancelled
  else s

/-- `triggerEvent` schedules the fiber. -/
def trigger (s : State) : State := { s with event := false, woken := true }

def isDone (s : State) : Bool :=
  match s.pc with
  | .done _ => true
  | _ => false

end State

/-! ## Steps -/

inductive Act where
  /-- `fun` returns. -/
  | io (r : IoResult)
  /-- The fiber takes its next step, if it has no choice. -/
  | step
  | addEvent (added : Bool)
  /-- A worker resumes the fiber. -/
  | resume
  /-- `listExpiredCb` takes the callback of a timer. -/
  | expire (k : Nat)
  /-- The callback begins: it looks at `tinfo`. -/
  | callback (k : Nat)
  | setCancelled (k : Nat)
  | cancelEvent (k : Nat)
  /-- The event is triggered. -/
  | dispatch
  deriving DecidableEq, Repr

namespace State

/-- A step of the fiber that has no choice. -/
def fiberStep (s : State) : Option State :=
  match s.pc with
  | .arm =>
      some (if s.finite then
          { s.setTimer s.made .armed with made := s.made + 1, pc := .register }
        else { s with pc := .register })
  | .failed => some { s.cancelTimer with pc := .done .notAdded }
  | .yield => some { s with pc := .suspended }
  | .resumed => some { s.cancelTimer with pc := .test }
  | .test =>
      some { s with pc := if s.cancelled then .done (.error ETIMEDOUT) else .retry }
  | _ => none

end State

/-- One step. Once the call has returned `tinfo` is gone, and a callback ends at
once. -/
def step (s : State) : Act → Option State
  | .io r =>
      match s.pc, r with
      | .direct, .ok n | .retry, .ok n => some { s with pc := .done (.ok n) }
      | .direct, .error e | .retry, .error e => some { s with pc := .done (.error e) }
      | .direct, .eintr => some { s with pc := .done (.error EINTR) }
      | .direct, .eagain => some { s with pc := .done (.error EAGAIN) }
      | .retry, .eintr => some s
      | .retry, .eagain => some { s with pc := .arm }
      | _, _ => none
  | .step => s.fiberStep
  | .addEvent added =>
      if s.pc = .register then
        some (if added then { s with pc := .yield, event := true }
          else { s with pc := .failed })
      else none
  | .resume =>
      if s.pc = .suspended ∧ s.woken then some { s with pc := .resumed, woken := false }
      else none
  | .expire k => if s.timers k = .armed then some (s.setTimer k .expired) else none
  | .callback k =>
      if s.timers k = .expired then
        some (s.setTimer k (if s.isDone || s.cancelled then .ran else .tested))
      else none
  | .setCancelled k =>
      if s.timers k = .tested then
        some { s.setTimer k .cancelling with cancelled := true }
      else none
  | .cancelEvent k =>
      if s.timers k = .cancelling then
        let s := s.setTimer k .ran
        some (if s.event then s.trigger else s)
      else none
  | .dispatch => if s.event then some s.trigger else none

/-! ## What a step can do -/

inductive Steps (s : State) : Act → State → Prop
  | returns {r : IoResult} {o : Outcome} (hpc : s.pc = .direct ∨ s.pc = .retry) :
      Steps s (.io r) { s with pc := .done o }
  | interrupted (hpc : s.pc = .retry) : Steps s (.io .eintr) s
  | blocks (hpc : s.pc = .retry) : Steps s (.io .eagain) { s with pc := .arm }
  | arms (hpc : s.pc = .arm) (hfinite : s.finite = true) :
      Steps s .step { s.setTimer s.made .armed with made := s.made + 1, pc := .register }
  | skips (hpc : s.pc = .arm) (hfinite : s.finite = false) :
      Steps s .step { s with pc := .register }
  | givesUp (hpc : s.pc = .failed) :
      Steps s .step { s.cancelTimer with pc := .done .notAdded }
  | yields (hpc : s.pc = .yield) : Steps s .step { s with pc := .suspended }
  | disarms (hpc : s.pc = .resumed) : Steps s .step { s.cancelTimer with pc := .test }
  | timesOut (hpc : s.pc = .test) (hcancelled : s.cancelled = true) :
      Steps s .step { s with pc := .done (.error ETIMEDOUT) }
  | retries (hpc : s.pc = .test) (hcancelled : s.cancelled = false) :
      Steps s .step { s with pc := .retry }
  | adds (hpc : s.pc = .register) :
      Steps s (.addEvent true) { s with pc := .yield, event := true }
  | fails (hpc : s.pc = .register) : Steps s (.addEvent false) { s with pc := .failed }
  | resumes (hpc : s.pc = .suspended) (hwoken : s.woken = true) :
      Steps s .resume { s with pc := .resumed, woken := false }
  | expires {k : Nat} (hk : s.timers k = .armed) :
      Steps s (.expire k) (s.setTimer k .expired)
  | begins {k : Nat} (hk : s.timers k = .expired) :
      Steps s (.callback k)
        (s.setTimer k (if s.isDone || s.cancelled then .ran else .tested))
  | sets {k : Nat} (hk : s.timers k = .tested) :
      Steps s (.setCancelled k) { s.setTimer k .cancelling with cancelled := true }
  | cancels {k : Nat} (hk : s.timers k = .cancelling) (hevent : s.event = true) :
      Steps s (.cancelEvent k) (s.setTimer k .ran).trigger
  | misses {k : Nat} (hk : s.timers k = .cancelling) (hevent : s.event = false) :
      Steps s (.cancelEvent k) (s.setTimer k .ran)
  | dispatches (hevent : s.event = true) : Steps s .dispatch s.trigger

theorem fiberStep_cases {s s' : State} (h : s.fiberStep = some s') : Steps s .step s' := by
  rw [State.fiberStep] at h
  split at h
  · cases hf : s.finite with
    | true =>
        rw [if_pos hf] at h
        exact Option.some.inj h ▸ .arms ‹_› hf
    | false =>
        rw [if_neg (by simp [hf])] at h
        exact Option.some.inj h ▸ .skips ‹_› hf
  · exact Option.some.inj h ▸ .givesUp ‹_›
  · exact Option.some.inj h ▸ .yields ‹_›
  · exact Option.some.inj h ▸ .disarms ‹_›
  · by_cases hc : s.cancelled = true
    · rw [if_pos hc] at h
      exact Option.some.inj h ▸ .timesOut ‹_› hc
    · rw [if_neg hc] at h
      exact Option.some.inj h ▸ .retries ‹_› (by simpa using hc)
  · cases h

theorem step_cases {s s' : State} {a : Act} (h : step s a = some s') : Steps s a s' := by
  cases a with
  | io r =>
      simp only [step] at h
      split at h
      · exact Option.some.inj h ▸ .returns (.inl ‹_›)
      · exact Option.some.inj h ▸ .returns (.inr ‹_›)
      · exact Option.some.inj h ▸ .returns (.inl ‹_›)
      · exact Option.some.inj h ▸ .returns (.inr ‹_›)
      · exact Option.some.inj h ▸ .returns (.inl ‹_›)
      · exact Option.some.inj h ▸ .returns (.inl ‹_›)
      · exact Option.some.inj h ▸ .interrupted ‹_›
      · exact Option.some.inj h ▸ .blocks ‹_›
      · cases h
  | step => exact fiberStep_cases h
  | addEvent added =>
      simp only [step] at h
      split at h
      · cases added with
        | true => exact Option.some.inj h ▸ .adds ‹_›
        | false => exact Option.some.inj h ▸ .fails ‹_›
      · cases h
  | resume =>
      simp only [step] at h
      split at h
      · rename_i hc
        exact Option.some.inj h ▸ .resumes hc.1 hc.2
      · cases h
  | expire k =>
      simp only [step] at h
      split at h
      · exact Option.some.inj h ▸ .expires ‹_›
      · cases h
  | callback k =>
      simp only [step] at h
      split at h
      · exact Option.some.inj h ▸ .begins ‹_›
      · cases h
  | setCancelled k =>
      simp only [step] at h
      split at h
      · exact Option.some.inj h ▸ .sets ‹_›
      · cases h
  | cancelEvent k =>
      simp only [step] at h
      split at h
      · rename_i hk
        cases he : s.event with
        | true =>
            have hset : (s.setTimer k .ran).event = true := he
            rw [if_pos hset] at h
            exact Option.some.inj h ▸ .cancels hk he
        | false =>
            have hset : ¬(s.setTimer k .ran).event = true := by simp [State.setTimer, he]
            rw [if_neg hset] at h
            exact Option.some.inj h ▸ .misses hk he
      · cases h
  | dispatch =>
      simp only [step] at h
      split at h
      · exact Option.some.inj h ▸ .dispatches ‹_›
      · cases h

/-! ## Timing out -/

/-- The callback is still to come, or has found `cancelled` to be 0. -/
def TimerState.pending : TimerState → Bool
  | .armed | .expired | .tested => true
  | _ => false

/-- **A fiber that waits can time out**: it has a timer whose callback is still
to find `cancelled` to be 0, or has found that and is going to cancel the
event. -/
def CanTimeOut (s : State) : Prop :=
  s.pc = .suspended → s.event = true → s.finite = true →
    ∃ k, (s.timers k = .armed ∨ s.timers k = .expired) ∧ s.cancelled = false ∨
      s.timers k = .tested ∨ s.timers k = .cancelling

/-- No callback makes its `cancelEvent` in a round before the `addEvent`. -/
def OnTime (s : State) : Act → Prop
  | .cancelEvent _ => s.pc ≠ .retry ∧ s.pc ≠ .arm ∧ s.pc ≠ .register
  | _ => True

/-- The round has its timer. -/
def Pc.timed : Pc → Bool
  | .register | .yield | .suspended => true
  | _ => false

/-- The fiber waits for the event, or may come to wait without another test of
`cancelled`. -/
def State.waits (s : State) : Bool :=
  match s.pc with
  | .retry | .arm | .register => true
  | .yield | .suspended => s.event
  | _ => false

/-- Where the event may be registered. -/
def Pc.parked : Pc → Bool
  | .yield | .suspended => true
  | _ => false

structure Timely (s : State) : Prop where
  fresh : ∀ k, s.made ≤ k → s.timers k = .unmade
  woken : s.woken = true → s.pc.parked = true
  event : s.event = true → s.woken = false ∧ s.pc.parked = true
  set : ∀ k, s.timers k = .cancelling → s.cancelled = true
  timer : s.finite = true → s.pc.timed = true → s.cancelled = true ∨
    ∃ k, (s.timers k).pending = true
  cancel : s.cancelled = true → s.waits = true → ∃ k, s.timers k = .cancelling

theorem Timely.canTimeOut {s : State} (ht : Timely s) : CanTimeOut s := by
  intro hpc hevent hfinite
  cases hc : s.cancelled with
  | true =>
      obtain ⟨k, hk⟩ := ht.cancel hc (by rw [State.waits, hpc]; exact hevent)
      exact ⟨k, .inr (.inr hk)⟩
  | false =>
      rcases ht.timer hfinite (by rw [hpc]; rfl) with h | ⟨k, hk⟩
      · rw [hc] at h
        cases h
      · refine ⟨k, ?_⟩
        cases hs : s.timers k <;> simp_all [TimerState.pending]

theorem setTimer_timers (s : State) (k j : Nat) (x : TimerState) :
    (s.setTimer k x).timers j = if j = k then x else s.timers j := by
  by_cases h : j = k
  · subst h
    rw [if_pos rfl]
    exact Function.update_self j x s.timers
  · rw [if_neg h]
    exact Function.update_of_ne h x s.timers

/-- A step of the fiber alone, to a place where it does not wait. -/
theorem Timely.leave {s : State} (ht : Timely s) {pc : Pc} (hpc : pc.timed = false)
    (hparked : s.pc.parked = false) (hw : State.waits { s with pc } = true →
      s.waits = true) : Timely { s with pc } where
  fresh := ht.fresh
  woken h := by
    have := ht.woken h
    rw [hparked] at this
    cases this
  event h := by
    have := (ht.event h).2
    rw [hparked] at this
    cases this
  set := ht.set
  timer _ hp := by
    rw [hpc] at hp
    cases hp
  cancel hc h := ht.cancel hc (hw h)

section SetTimer

variable {s : State} {k : Nat} {x : TimerState}

theorem Timely.fresh_setTimer (ht : Timely s) (hk : s.timers k ≠ .unmade) (j : Nat)
    (hj : s.made ≤ j) : (s.setTimer k x).timers j = .unmade := by
  have hjk : j ≠ k := by
    rintro rfl
    exact hk (ht.fresh j hj)
  rw [setTimer_timers, if_neg hjk]
  exact ht.fresh j hj

theorem Timely.set_setTimer (ht : Timely s) (hx : x ≠ .cancelling) (j : Nat)
    (hj : (s.setTimer k x).timers j = .cancelling) : s.cancelled = true := by
  rw [setTimer_timers] at hj
  split at hj
  · exact absurd hj hx
  · exact ht.set j hj

/-- A timer that is still to run stays so, if its state changes. -/
theorem pending_setTimer (hx : x.pending = true) {j : Nat}
    (hj : (s.timers j).pending = true) :
    ∃ i, ((s.setTimer k x).timers i).pending = true := by
  refine ⟨j, ?_⟩
  rw [setTimer_timers]
  split
  · exact hx
  · exact hj

theorem cancelling_setTimer {j : Nat} (hj : s.timers j = .cancelling)
    (hk : s.timers k ≠ .cancelling) : ∃ i, (s.setTimer k x).timers i = .cancelling := by
  refine ⟨j, ?_⟩
  have hjk : j ≠ k := by
    rintro rfl
    exact hk hj
  rw [setTimer_timers, if_neg hjk]
  exact hj

end SetTimer

/-- `timer->cancel()` where the fiber does not wait. -/
theorem Timely.cancelTimer {s : State} (ht : Timely s) (hpc : s.pc.timed = false)
    (hw : s.waits = false) : Timely s.cancelTimer := by
  rw [State.cancelTimer]
  split
  · rename_i h
    refine ⟨ht.fresh_setTimer (by rw [h.2]; decide), ht.woken, ht.event,
      ht.set_setTimer (by decide), fun _ hp => ?_, fun _ hw' => ?_⟩
    · exact nomatch (hpc.symm.trans hp : false = true)
    · exact nomatch (hw.symm.trans hw' : false = true)
  · exact ht

theorem cancelTimer_pc (s : State) : s.cancelTimer.pc = s.pc := by
  rw [State.cancelTimer]
  split <;> rfl

/-- The event is gone, and with it the wait. -/
theorem Timely.trigger {s : State} (ht : Timely s) (he : s.event = true) :
    Timely s.trigger where
  fresh := ht.fresh
  woken _ := (ht.event he).2
  event := nofun
  set := ht.set
  timer := ht.timer
  cancel _ hw := by
    have hpc := (ht.event he).2
    cases h : s.pc <;> simp_all [State.waits, State.trigger, Pc.parked]

section Fiber

variable {s : State}

theorem Timely.not_parked (ht : Timely s) {pc : Pc} (hpc : s.pc = pc) (hp : pc.parked = false) :
    s.woken = false ∧ s.event = false := by
  rw [← hpc] at hp
  refine ⟨?_, ?_⟩
  · by_contra h
    rw [ht.woken (by simpa using h)] at hp
    cases hp
  · by_contra h
    rw [(ht.event (by simpa using h)).2] at hp
    cases hp

theorem Timely.retries (ht : Timely s) (hpc : s.pc = .test) (hcancelled : s.cancelled = false) :
    Timely { s with pc := .retry } := by
  obtain ⟨hwoken, hevent⟩ := ht.not_parked hpc rfl
  refine ⟨ht.fresh, fun h => ?_, fun h => ?_, ht.set, nofun, fun hc => ?_⟩
  · exact nomatch (hwoken.symm.trans h : false = true)
  · exact nomatch (hevent.symm.trans h : false = true)
  · exact nomatch (hcancelled.symm.trans hc : false = true)

/-- The round gets its timer. -/
theorem Timely.arms (ht : Timely s) (hpc : s.pc = .arm) :
    Timely { s.setTimer s.made .armed with made := s.made + 1, pc := .register } := by
  obtain ⟨hwoken, hevent⟩ := ht.not_parked hpc rfl
  refine ⟨fun j hj => ?_, fun h => ?_, fun h => ?_, ht.set_setTimer (by decide),
    fun _ _ => .inr ⟨s.made, ?_⟩, fun hc _ => ?_⟩
  · have hlt : s.made < j := hj
    rw [setTimer_timers, if_neg (by omega)]
    exact ht.fresh j (by omega)
  · exact nomatch (hwoken.symm.trans h : false = true)
  · exact nomatch (hevent.symm.trans h : false = true)
  · rw [setTimer_timers, if_pos rfl]
    rfl
  · obtain ⟨j, hj⟩ := ht.cancel hc (by rw [State.waits, hpc])
    exact cancelling_setTimer hj (by rw [ht.fresh _ (Nat.le_refl _)]; decide)

theorem Timely.skips (ht : Timely s) (hpc : s.pc = .arm) (hfinite : s.finite = false) :
    Timely { s with pc := .register } := by
  obtain ⟨hwoken, hevent⟩ := ht.not_parked hpc rfl
  refine ⟨ht.fresh, fun h => ?_, fun h => ?_, ht.set, fun hf => ?_, fun hc _ => ?_⟩
  · exact nomatch (hwoken.symm.trans h : false = true)
  · exact nomatch (hevent.symm.trans h : false = true)
  · exact nomatch (hfinite.symm.trans hf : false = true)
  · exact ht.cancel hc (by rw [State.waits, hpc])

theorem Timely.yields (ht : Timely s) (hpc : s.pc = .yield) :
    Timely { s with pc := .suspended } := by
  refine ⟨ht.fresh, fun _ => rfl, fun he => ⟨(ht.event he).1, rfl⟩, ht.set,
    fun hf _ => ht.timer hf (by rw [hpc]; rfl), fun hc hw => ht.cancel hc ?_⟩
  rw [State.waits, hpc]
  exact hw

theorem Timely.adds (ht : Timely s) (hpc : s.pc = .register) :
    Timely { s with pc := .yield, event := true } := by
  refine ⟨ht.fresh, fun _ => rfl, fun _ => ⟨(ht.not_parked hpc rfl).1, rfl⟩, ht.set,
    fun hf _ => ht.timer hf (by rw [hpc]; rfl), fun hc _ => ht.cancel hc ?_⟩
  rw [State.waits, hpc]

theorem Timely.resumes (ht : Timely s) (hwoken : s.woken = true) :
    Timely { s with pc := .resumed, woken := false } := by
  refine ⟨ht.fresh, nofun, fun he => ?_, ht.set, nofun, nofun⟩
  exact nomatch ((ht.event he).1.symm.trans hwoken : false = true)

end Fiber

section Callbacks

variable {s : State} {k : Nat}

theorem Timely.expires (ht : Timely s) (hk : s.timers k = .armed) :
    Timely (s.setTimer k .expired) := by
  refine ⟨ht.fresh_setTimer (by rw [hk]; decide), ht.woken, ht.event,
    ht.set_setTimer (by decide), fun hf hp => (ht.timer hf hp).imp_right ?_, fun hc hw => ?_⟩
  · rintro ⟨j, hj⟩
    exact pending_setTimer rfl hj
  · obtain ⟨j, hj⟩ := ht.cancel hc hw
    exact cancelling_setTimer hj (by rw [hk]; decide)

theorem Timely.begins (ht : Timely s) (hk : s.timers k = .expired) :
    Timely (s.setTimer k (if s.isDone || s.cancelled then .ran else .tested)) := by
  refine ⟨ht.fresh_setTimer (by rw [hk]; decide), ht.woken, ht.event,
    ht.set_setTimer ?_, fun hf hp => ?_, fun hc hw => ?_⟩
  · split <;> decide
  · have hdone : s.isDone = false := by
      cases h : s.pc <;> simp_all [State.isDone, State.setTimer, Pc.timed]
    rw [hdone, Bool.false_or]
    rcases ht.timer hf hp with h | ⟨j, hj⟩
    · exact .inl h
    · cases hc : s.cancelled with
      | true => exact .inl hc
      | false => exact .inr (pending_setTimer rfl hj)
  · obtain ⟨j, hj⟩ := ht.cancel hc hw
    exact cancelling_setTimer hj (by rw [hk]; decide)

theorem Timely.sets (ht : Timely s) (hk : s.timers k = .tested) :
    Timely { s.setTimer k .cancelling with cancelled := true } := by
  refine ⟨ht.fresh_setTimer (by rw [hk]; decide), ht.woken, ht.event,
    fun _ _ => rfl, fun _ _ => .inl rfl, fun _ _ => ⟨k, ?_⟩⟩
  rw [setTimer_timers, if_pos rfl]

/-- The `cancelEvent` of a callback finds the event, and ends the wait. -/
theorem Timely.cancels (ht : Timely s) (hk : s.timers k = .cancelling) (hevent : s.event = true) :
    Timely (s.setTimer k .ran).trigger := by
  have hpc := (ht.event hevent).2
  refine ⟨ht.fresh_setTimer (by rw [hk]; decide), fun _ => hpc, nofun,
    ht.set_setTimer (by decide), fun _ _ => .inl (ht.set k hk), fun _ hw => ?_⟩
  cases h : s.pc <;> simp_all [State.waits, State.trigger, State.setTimer, Pc.parked]

/-- It finds none, and the fiber is not in a round before its `addEvent`. -/
theorem Timely.misses (ht : Timely s) (hk : s.timers k = .cancelling) (hevent : s.event = false)
    (hok : OnTime s (.cancelEvent k)) : Timely (s.setTimer k .ran) := by
  refine ⟨ht.fresh_setTimer (by rw [hk]; decide), ht.woken, ht.event,
    ht.set_setTimer (by decide), fun _ _ => .inl (ht.set k hk), fun _ hw => ?_⟩
  obtain ⟨h1, h2, h3⟩ := hok
  cases h : s.pc <;> simp_all [State.waits, State.setTimer]

end Callbacks

theorem Timely.step {s s' : State} {a : Act} (ht : Timely s) (hok : OnTime s a)
    (h : step s a = some s') : Timely s' := by
  cases step_cases h with
  | returns hpc =>
      refine ht.leave rfl ?_ nofun
      rcases hpc with hpc | hpc <;> rw [hpc] <;> rfl
  | interrupted => exact ht
  | blocks hpc => exact ht.leave rfl (by rw [hpc]; rfl) fun _ => by rw [State.waits, hpc]
  | timesOut hpc => exact ht.leave rfl (by rw [hpc]; rfl) nofun
  | fails hpc => exact ht.leave rfl (by rw [hpc]; rfl) nofun
  | retries hpc hcancelled => exact ht.retries hpc hcancelled
  | arms hpc => exact ht.arms hpc
  | skips hpc hfinite => exact ht.skips hpc hfinite
  | givesUp hpc =>
      have hc := ht.cancelTimer (by rw [hpc]; rfl) (by rw [State.waits, hpc])
      exact hc.leave rfl (by rw [cancelTimer_pc, hpc]; rfl) nofun
  | disarms hpc =>
      have hc := ht.cancelTimer (by rw [hpc]; rfl) (by rw [State.waits, hpc])
      exact hc.leave rfl (by rw [cancelTimer_pc, hpc]; rfl) nofun
  | yields hpc => exact ht.yields hpc
  | adds hpc => exact ht.adds hpc
  | resumes _ hwoken => exact ht.resumes hwoken
  | expires hk => exact ht.expires hk
  | begins hk => exact ht.begins hk
  | sets hk => exact ht.sets hk
  | cancels hk hevent => exact ht.cancels hk hevent
  | misses hk hevent => exact ht.misses hk hevent hok
  | dispatches hevent => exact ht.trigger hevent

theorem timely_new {timeout : UInt64} {pc : Pc} (hpc : pc.timed = false) :
    Timely { timeout, pc } :=
  ⟨fun _ _ => rfl, nofun, nofun, nofun,
    fun _ h => (nomatch (hpc.symm.trans h : false = true)), nofun⟩

theorem timely_start (hookEnable : Bool) (ctx : Option FdCtx) (type : TimeoutOf) :
    Timely (start hookEnable ctx type) := by
  unfold start
  split
  · exact timely_new rfl
  · split
    · exact timely_new rfl
    · split
      · exact timely_new rfl
      · split
        · exact timely_new rfl
        · exact timely_new rfl

/-- **A hooked wait can time out**, in every run of the call in which no callback
makes its `cancelEvent` while the fiber is between `retry` and `addEvent`. -/
theorem timeout_run {hookEnable : Bool} {ctx : Option FdCtx} {type : TimeoutOf}
    {as : List Act} {s : State}
    (hok : Meets step OnTime (start hookEnable ctx type) as)
    (h : run step (start hookEnable ctx type) as = some s) : CanTimeOut s :=
  (run_invariant (fun _ _ _ ht ho hs => ht.step ho hs) (timely_start _ _ _) hok
    h).canTimeOut

instance (s : State) : (a : Act) → Decidable (OnTime s a)
  | .cancelEvent _ => inferInstanceAs (Decidable (_ ∧ _ ∧ _))
  | .io _ | .step | .addEvent _ | .resume | .expire _ | .callback _ | .setCancelled _
  | .dispatch => isTrue trivial

/-- A socket with a receive timeout of 1 ms. -/
def timedSocket : FdCtx where
  isInit := true
  isSocket := true
  sysNonblock := true
  userNonblock := false
  isClosed := false
  fd := 5
  recvTimeout := 1
  sendTimeout := noTimeout
  created := 0

/-- Two rounds; the timer of the second expires, and its callback begins. -/
def timingOut : List Act :=
  [.io .eagain, .step, .addEvent true, .step, .dispatch, .resume, .step, .step,
    .io .eagain, .step, .addEvent true, .step, .expire 1, .callback 1]

theorem timingOut_can : ∃ s, run step (start true (some timedSocket) .recv) timingOut =
    some s ∧ s.pc = .suspended ∧ s.event = true ∧ CanTimeOut s :=
  ⟨_, rfl, rfl, rfl, timeout_run (show Meets step OnTime
    (start true (some timedSocket) .recv) timingOut by decide) rfl⟩

/-- The timer expires before the event is registered. -/
def tooEarly : List Act :=
  [.io .eagain, .step, .expire 0, .callback 0, .setCancelled 0, .cancelEvent 0,
    .addEvent true, .step]

theorem timeout_lost : ∃ s, run step (start true (some timedSocket) .recv) tooEarly =
    some s ∧ ¬CanTimeOut s := by
  refine ⟨_, rfl, fun h => ?_⟩
  obtain ⟨k, ⟨-, hk⟩ | hk | hk⟩ := h rfl rfl rfl
  · cases hk
  · cases k <;> cases hk
  · cases k <;> cases hk

end Hps.Hook.DoIo
