import Hps.Hook.DoIo

/-!
# Hook — a connect with a timeout

One call of `connect_with_timeout`, with its timer and the callback, the
dispatch of the WRITE event, other fibers that cancel the event, and the
handshake, which the kernel decides on its own. The fiber asks `SO_ERROR` for
the outcome, whatever has woken it, and also if it could not register the
event; 0 is the answer for a connection that stands and for one that is still
on its way. `honest_iff` says that this is the only way to a false success,
and `decided_of_undisturbed` which runs do not go it.
-/

namespace Hps.Hook.Connect

open Hps.Lib

/-! ## State -/

/-- What `connect_f` returns: 0, or -1 with an `errno`. -/
inductive ConnectResult where
  | ok
  | error (errno : Nat)
  deriving DecidableEq, Repr

def EINPROGRESS : Nat := 115

/-- The connection, as the kernel has it. A failure is what `SO_ERROR` says. -/
inductive Handshake where
  | unstarted
  | inProgress
  | established
  | failed (errno : Nat)
  deriving DecidableEq, Repr

inductive Outcome where
  | ok
  | error (errno : Nat)
  deriving DecidableEq, Repr

/-- Where the fiber stands. -/
inductive Pc where
  /-- Nothing is hooked. -/
  | direct
  /-- Before `connect_f`. -/
  | connect
  /-- Before `addConditionTimer`. -/
  | arm
  /-- Before `addEvent`. -/
  | register
  /-- Behind an `addEvent` that has failed. -/
  | failed
  /-- Before `YieldToHold`. -/
  | yield
  | suspended
  /-- Behind `YieldToHold`, before `timer->cancel()`. -/
  | resumed
  /-- Before the test of `cancelled`. -/
  | test
  /-- Before `getsockopt`. -/
  | query
  | done (r : Outcome)
  deriving DecidableEq, Repr

structure State where
  /-- `timeout_ms` -/
  timeout : UInt64
  pc : Pc := .connect
  /-- `ctx && !ctx->isClose()` -/
  opened : Bool := true
  /-- `tinfo->cancelled` is `ETIMEDOUT`, and not 0. -/
  cancelled : Bool := false
  timer : DoIo.TimerState := .unmade
  /-- The event is registered. -/
  event : Bool := false
  /-- The fiber is scheduled. -/
  woken : Bool := false
  handshake : Handshake := .unstarted
  /-- What `connect_f` has returned. -/
  connectF : Option ConnectResult := none
  /-- The `errno` of a `getsockopt` that has failed. -/
  sockopt : Option Nat := none

/-- `connect_with_timeout` up to `connect_f`. -/
def start (hookEnable : Bool) (ctx : Option FdCtx) (timeout : UInt64) : State :=
  if !hookEnable then { timeout, pc := .direct }
  else
    match ctx with
    | none => { timeout, pc := .done (.error DoIo.EBADF), opened := false }
    | some c =>
        if c.isClosed then { timeout, pc := .done (.error DoIo.EBADF), opened := false }
        else if !c.isSocket || c.userNonblock then { timeout, pc := .direct }
        else { timeout }

namespace State

/-- `timeout_ms != (uint64_t)-1` -/
def finite (s : State) : Bool := s.timeout != noTimeout

/-- `if(timer) timer->cancel()`: it has no effect once the callback is taken. -/
def cancelTimer (s : State) : State :=
  if s.timer = .armed then { s with timer := .cancelled } else s

/-- `triggerEvent` schedules the fiber. -/
def trigger (s : State) : State := { s with event := false, woken := true }

def isDone (s : State) : Bool :=
  match s.pc with
  | .done _ => true
  | _ => false

/-- `connect_f` has returned. -/
def connected (s : State) (r : ConnectResult) : State :=
  { s with
    connectF := some r
    handshake :=
      match r with
      | .ok => .established
      | .error e => if e = EINPROGRESS then .inProgress else .unstarted }

/-- What `SO_ERROR` reads. -/
def soError (s : State) : Nat :=
  match s.handshake with
  | .failed e => e
  | _ => 0

/-- The kernel has said how the connection ends. -/
def decided (s : State) : Bool :=
  match s.handshake with
  | .established | .failed _ => true
  | _ => false

end State

/-! ## Steps -/

inductive Act where
  /-- `connect_f` returns. -/
  | connectF (r : ConnectResult)
  /-- The handshake ends, with an error or not. -/
  | handshake (error : Option Nat)
  /-- The fiber takes its next step, if it has no choice. -/
  | step
  | addEvent (added : Bool)
  /-- A worker resumes the fiber. -/
  | resume
  /-- `getsockopt` returns, with an `errno` or not. -/
  | getsockopt (error : Option Nat)
  /-- `listExpiredCb` takes the callback of the timer. -/
  | expire
  /-- The callback begins: it looks at `tinfo`. -/
  | callback
  | setCancelled
  /-- The callback cancels the event. -/
  | cancelEvent
  /-- `epoll` reports the event. -/
  | dispatch
  /-- Another fiber makes a `cancelAll` or a `cancelEvent`. -/
  | cancelAll
  deriving DecidableEq, Repr

/-- A step of the fiber that has no choice. -/
def State.fiberStep (s : State) : Option State :=
  match s.pc with
  | .arm =>
      some (if s.finite then { s with timer := .armed, pc := .register }
        else { s with pc := .register })
  | .failed => some { s.cancelTimer with pc := .query }
  | .yield => some { s with pc := .suspended }
  | .resumed => some { s.cancelTimer with pc := .test }
  | .test =>
      some { s with pc := if s.cancelled then .done (.error DoIo.ETIMEDOUT) else .query }
  | _ => none

/-- One step. A socket is not reported for writing while its handshake is under
way. Once the call has returned `tinfo` is gone, and the callback ends at
once. -/
def step (s : State) : Act → Option State
  | .connectF r =>
      match s.pc, r with
      | .direct, .ok | .connect, .ok => some { s.connected .ok with pc := .done .ok }
      | .direct, .error e => some { s.connected (.error e) with pc := .done (.error e) }
      | .connect, .error e =>
          some { s.connected (.error e) with
            pc := if e = EINPROGRESS then .arm else .done (.error e) }
      | _, _ => none
  | .handshake error =>
      if s.handshake = .inProgress ∧ error ≠ some 0 then
        some { s with handshake := error.elim .established .failed }
      else none
  | .step => s.fiberStep
  | .addEvent added =>
      if s.pc = .register then
        some (if added then { s with pc := .yield, event := true }
          else { s with pc := .failed })
      else none
  | .resume =>
      if s.pc = .suspended ∧ s.woken then some { s with pc := .resumed, woken := false }
      else none
  | .getsockopt error =>
      if s.pc = .query then
        some (match error with
          | some e => { s with sockopt := some e, pc := .done (.error e) }
          | none => { s with pc := .done (if s.soError = 0 then .ok else .error s.soError) })
      else none
  | .expire => if s.timer = .armed then some { s with timer := .expired } else none
  | .callback =>
      if s.timer = .expired then
        some { s with timer := if s.isDone || s.cancelled then .ran else .tested }
      else none
  | .setCancelled =>
      if s.timer = .tested then some { s with timer := .cancelling, cancelled := true }
      else none
  | .cancelEvent =>
      if s.timer = .cancelling then
        let s := { s with timer := .ran }
        some (if s.event then s.trigger else s)
      else none
  | .dispatch => if s.event ∧ s.decided then some s.trigger else none
  | .cancelAll => some (if s.event then s.trigger else s)

/-! ## What a step can do -/

inductive Steps (s : State) : Act → State → Prop
  | connects (hpc : s.pc = .direct ∨ s.pc = .connect) :
      Steps s (.connectF .ok) { s.connected .ok with pc := .done .ok }
  | refused {e : Nat} (hpc : s.pc = .direct ∨ s.pc = .connect) :
      Steps s (.connectF (.error e)) { s.connected (.error e) with pc := .done (.error e) }
  | waits (hpc : s.pc = .connect) :
      Steps s (.connectF (.error EINPROGRESS))
        { s.connected (.error EINPROGRESS) with pc := .arm }
  | establishes (hh : s.handshake = .inProgress) :
      Steps s (.handshake none) { s with handshake := .established }
  | breaks {e : Nat} (hh : s.handshake = .inProgress) (he : e ≠ 0) :
      Steps s (.handshake (some e)) { s with handshake := .failed e }
  | arms (hpc : s.pc = .arm) (hfinite : s.finite = true) :
      Steps s .step { s with timer := .armed, pc := .register }
  | skips (hpc : s.pc = .arm) : Steps s .step { s with pc := .register }
  | givesUp (hpc : s.pc = .failed) : Steps s .step { s.cancelTimer with pc := .query }
  | yields (hpc : s.pc = .yield) : Steps s .step { s with pc := .suspended }
  | disarms (hpc : s.pc = .resumed) : Steps s .step { s.cancelTimer with pc := .test }
  | timesOut (hpc : s.pc = .test) (hc : s.cancelled = true) :
      Steps s .step { s with pc := .done (.error DoIo.ETIMEDOUT) }
  | asks (hpc : s.pc = .test) (hc : s.cancelled = false) :
      Steps s .step { s with pc := .query }
  | adds (hpc : s.pc = .register) :
      Steps s (.addEvent true) { s with pc := .yield, event := true }
  | fails (hpc : s.pc = .register) : Steps s (.addEvent false) { s with pc := .failed }
  | resumes (hpc : s.pc = .suspended) (hwoken : s.woken = true) :
      Steps s .resume { s with pc := .resumed, woken := false }
  | unread {e : Nat} (hpc : s.pc = .query) :
      Steps s (.getsockopt (some e)) { s with sockopt := some e, pc := .done (.error e) }
  | reads (hpc : s.pc = .query) :
      Steps s (.getsockopt none)
        { s with pc := .done (if s.soError = 0 then .ok else .error s.soError) }
  | expires (ht : s.timer = .armed) : Steps s .expire { s with timer := .expired }
  | begins (ht : s.timer = .expired) :
      Steps s .callback { s with timer := if s.isDone || s.cancelled then .ran else .tested }
  | sets (ht : s.timer = .tested) :
      Steps s .setCancelled { s with timer := .cancelling, cancelled := true }
  | cancels (ht : s.timer = .cancelling) (hevent : s.event = true) :
      Steps s .cancelEvent { s with timer := .ran }.trigger
  | misses (ht : s.timer = .cancelling) : Steps s .cancelEvent { s with timer := .ran }
  | dispatches (hevent : s.event = true) (hd : s.decided = true) :
      Steps s .dispatch s.trigger
  | cancelled (hevent : s.event = true) : Steps s .cancelAll s.trigger
  | ignored : Steps s .cancelAll s

theorem connectF_cases {s s' : State} {r : ConnectResult}
    (h : step s (.connectF r) = some s') : Steps s (.connectF r) s' := by
  simp only [step] at h
  split at h
  · exact Option.some.inj h ▸ .connects (.inl ‹_›)
  · exact Option.some.inj h ▸ .connects (.inr ‹_›)
  · exact Option.some.inj h ▸ .refused (.inl ‹_›)
  · rename_i e hpc
    by_cases he : e = EINPROGRESS
    · subst he
      exact Option.some.inj h ▸ .waits hpc
    · rw [if_neg he] at h
      exact Option.some.inj h ▸ .refused (.inr hpc)
  · cases h

theorem fiberStep_cases {s s' : State} (h : s.fiberStep = some s') : Steps s .step s' := by
  rw [State.fiberStep] at h
  split at h
  · cases hf : s.finite with
    | true =>
        rw [if_pos hf] at h
        exact Option.some.inj h ▸ .arms ‹_› hf
    | false =>
        rw [if_neg (by simp [hf])] at h
        exact Option.some.inj h ▸ .skips ‹_›
  · exact Option.some.inj h ▸ .givesUp ‹_›
  · exact Option.some.inj h ▸ .yields ‹_›
  · exact Option.some.inj h ▸ .disarms ‹_›
  · by_cases hc : s.cancelled = true
    · rw [if_pos hc] at h
      exact Option.some.inj h ▸ .timesOut ‹_› hc
    · rw [if_neg hc] at h
      exact Option.some.inj h ▸ .asks ‹_› (by simpa using hc)
  · cases h

theorem step_cases {s s' : State} {a : Act} (h : step s a = some s') : Steps s a s' := by
  cases a with
  | connectF r => exact connectF_cases h
  | step => exact fiberStep_cases h
  | handshake error =>
      simp only [step] at h
      split at h
      · rename_i hc
        cases error with
        | none => exact Option.some.inj h ▸ .establishes hc.1
        | some e => exact Option.some.inj h ▸ .breaks hc.1 fun he => hc.2 (by rw [he])
      · cases h
  | addEvent added =>
      simp only [step] at h
      split at h
      · cases added with
        | true => exact Option.some.inj h ▸ .adds ‹_›
        | false => exact Option.some.inj h ▸ .fails ‹_›
      · cases h
  | resume =>
      simp only [step] at h
      split at h
      · rename_i hc
        exact Option.some.inj h ▸ .resumes hc.1 hc.2
      · cases h
  | getsockopt error =>
      simp only [step] at h
      split at h
      · cases error with
        | none => exact Option.some.inj h ▸ .reads ‹_›
        | some e => exact Option.some.inj h ▸ .unread ‹_›
      · cases h
  | expire =>
      simp only [step] at h
      split at h
      · exact Option.some.inj h ▸ .expires ‹_›
      · cases h
  | callback =>
      simp only [step] at h
      split at h
      · exact Option.some.inj h ▸ .begins ‹_›
      · cases h
  | setCancelled =>
      simp only [step] at h
      split at h
      · exact Option.some.inj h ▸ .sets ‹_›
      · cases h
  | cancelEvent =>
      simp only [step] at h
      split at h
      · rename_i ht
        cases he : s.event with
        | true =>
            rw [if_pos he] at h
            exact Option.some.inj h ▸ .cancels ht he
        | false =>
            rw [if_neg (by simp [he])] at h
            exact Option.some.inj h ▸ .misses ht
      · cases h
  | dispatch =>
      simp only [step] at h
      split at h
      · rename_i hc
        exact Option.some.inj h ▸ .dispatches hc.1 hc.2
      · cases h
  | cancelAll =>
      simp only [step] at h
      cases he : s.event with
      | true =>
          rw [if_pos he] at h
          exact Option.some.inj h ▸ .cancelled he
      | false =>
          rw [if_neg (by simp [he])] at h
          exact Option.some.inj h ▸ .ignored

/-! ## Honesty -/

/-- What the `errno` of a failed call stands for. -/
inductive Cause (s : State) : Nat → Prop
  | notOpen (h : s.opened = false) : Cause s DoIo.EBADF
  | connectF {e : Nat} (h : s.connectF = some (.error e)) : Cause s e
  | timeout (h : s.cancelled = true) : Cause s DoIo.ETIMEDOUT
  | handshake {e : Nat} (h : s.handshake = .failed e) : Cause s e
  | sockopt {e : Nat} (h : s.sockopt = some e) : Cause s e

/-- A call that has returned 0 has its connection, and one that has returned
-1 has the cause in `errno`. -/
def Honest (s : State) : Prop :=
  match s.pc with
  | .done .ok => s.connectF = some .ok ∨ s.handshake = .established
  | .done (.error e) => Cause s e
  | _ => True

/-- `SO_ERROR` is not read while the handshake is under way. -/
def Decided (s : State) : Act → Prop
  | .getsockopt none => s.pc = .query → s.decided = true
  | _ => True

/-- Where `connect_f` has been called and has not been successful at once. -/
def Pc.asked : Pc → Bool
  | .direct | .connect | .done _ => false
  | _ => true

/-- What `Honest` looks at stays: a handshake that is decided, too. -/
structure Kept (s s' : State) : Prop where
  pc : s'.pc = s.pc
  opened : s'.opened = s.opened
  connectF : s'.connectF = s.connectF
  sockopt : s'.sockopt = s.sockopt
  cancelled : s.cancelled = true → s'.cancelled = true
  handshake : s.handshake ≠ .inProgress → s'.handshake = s.handshake

theorem Honest.kept {s s' : State} (h : Honest s) (k : Kept s s') : Honest s' := by
  rw [Honest, k.pc]
  rw [Honest] at h
  split
  · rename_i hpc
    rw [hpc] at h
    refine h.imp (fun hc => k.connectF.trans hc) fun hh => ?_
    rw [k.handshake (by rw [hh]; nofun), hh]
  · rename_i e hpc
    rw [hpc] at h
    cases h with
    | notOpen ho => exact .notOpen (k.opened.trans ho)
    | connectF hc => exact .connectF (k.connectF.trans hc)
    | timeout hc => exact .timeout (k.cancelled hc)
    | handshake hh => exact .handshake (by rw [k.handshake (by rw [hh]; nofun), hh])
    | sockopt hs => exact .sockopt (k.sockopt.trans hs)
  · trivial

/-- What every step keeps, but for a premature reading of `SO_ERROR`. -/
structure Sound (s : State) : Prop where
  honest : Honest s
  asked : s.pc.asked = true → s.connectF = some (.error EINPROGRESS)
  nonzero : ∀ e, s.handshake = .failed e → e ≠ 0

section Sound

variable {s s' : State}

/-- A step of the others. -/
theorem Sound.kept (h : Sound s) (k : Kept s s')
    (hh : ∀ e, s'.handshake = .failed e → e ≠ 0) : Sound s' := by
  refine ⟨h.honest.kept k, fun ha => ?_, hh⟩
  rw [k.pc] at ha
  exact k.connectF.trans (h.asked ha)

/-- A step of the fiber to another place where it has not returned. -/
theorem Sound.moves (h : Sound s) (hpc : s.pc.asked = true) (hd : s'.isDone = false)
    (hc : s'.connectF = s.connectF) (hh : s'.handshake = s.handshake) : Sound s' := by
  refine ⟨?_, fun _ => hc.trans (h.asked hpc), fun e he => h.nonzero e (hh ▸ he)⟩
  rw [Honest]
  split
  · simp_all [State.isDone]
  · simp_all [State.isDone]
  · trivial

/-- A step of the fiber that returns. -/
theorem Sound.returns (h : Sound s) {o : Outcome} (hpc : s'.pc = .done o)
    (hh : s'.handshake = s.handshake) (honest : Honest s') : Sound s' :=
  ⟨honest, by rw [hpc]; nofun, fun e he => h.nonzero e (hh ▸ he)⟩

theorem cancelTimer_connectF (s : State) : s.cancelTimer.connectF = s.connectF := by
  rw [State.cancelTimer]
  split <;> rfl

theorem cancelTimer_handshake (s : State) : s.cancelTimer.handshake = s.handshake := by
  rw [State.cancelTimer]
  split <;> rfl

/-- With the handshake decided, `SO_ERROR` tells the outcome. -/
theorem honest_of_decided (h : Sound s) (hd : s.decided = true) :
    Honest { s with pc := .done (if s.soError = 0 then .ok else .error s.soError) } := by
  cases hh : s.handshake with
  | unstarted => simp [State.decided, hh] at hd
  | inProgress => simp [State.decided, hh] at hd
  | established =>
      have hzero : s.soError = 0 := by rw [State.soError, hh]
      rw [if_pos hzero]
      exact .inr rfl
  | failed e =>
      have herror : s.soError = e := by rw [State.soError, hh]
      rw [herror, if_neg (h.nonzero e hh)]
      exact .handshake rfl

theorem Sound.step (h : Sound s) {a : Act} (hok : Decided s a)
    (hs : Connect.step s a = some s') : Sound s' := by
  have hasked : ∀ {pc : Pc}, s.pc = pc → pc.asked = true → s.pc.asked = true :=
    fun hpc ha => hpc ▸ ha
  cases step_cases hs with
  | connects => exact ⟨.inl rfl, nofun, nofun⟩
  | @refused e hpc =>
      refine ⟨.connectF rfl, nofun, fun e' he => ?_⟩
      simp only [State.connected] at he
      split at he <;> cases he
  | waits hpc => exact ⟨trivial, fun _ => rfl, nofun⟩
  | establishes hh =>
      exact h.kept ⟨rfl, rfl, rfl, rfl, id, fun hne => absurd hh hne⟩ nofun
  | @breaks e hh he =>
      refine h.kept ⟨rfl, rfl, rfl, rfl, id, fun hne => absurd hh hne⟩ fun e' he' => ?_
      cases he'
      exact he
  | arms hpc hfinite => exact h.moves (hasked hpc rfl) rfl rfl rfl
  | skips hpc => exact h.moves (hasked hpc rfl) rfl rfl rfl
  | givesUp hpc =>
      exact h.moves (hasked hpc rfl) rfl (cancelTimer_connectF s) (cancelTimer_handshake s)
  | yields hpc => exact h.moves (hasked hpc rfl) rfl rfl rfl
  | disarms hpc =>
      exact h.moves (hasked hpc rfl) rfl (cancelTimer_connectF s) (cancelTimer_handshake s)
  | timesOut hpc hc => exact h.returns rfl rfl (.timeout hc)
  | asks hpc hc => exact h.moves (hasked hpc rfl) rfl rfl rfl
  | adds hpc => exact h.moves (hasked hpc rfl) rfl rfl rfl
  | fails hpc => exact h.moves (hasked hpc rfl) rfl rfl rfl
  | resumes hpc hwoken => exact h.moves (hasked hpc rfl) rfl rfl rfl
  | unread hpc => exact h.returns rfl rfl (.sockopt rfl)
  | reads hpc => exact h.returns rfl rfl (honest_of_decided h (hok hpc))
  | expires ht => exact h.kept ⟨rfl, rfl, rfl, rfl, id, fun _ => rfl⟩ h.nonzero
  | begins ht => exact h.kept ⟨rfl, rfl, rfl, rfl, id, fun _ => rfl⟩ h.nonzero
  | sets ht => exact h.kept ⟨rfl, rfl, rfl, rfl, fun _ => rfl, fun _ => rfl⟩ h.nonzero
  | cancels ht hevent => exact h.kept ⟨rfl, rfl, rfl, rfl, id, fun _ => rfl⟩ h.nonzero
  | misses ht => exact h.kept ⟨rfl, rfl, rfl, rfl, id, fun _ => rfl⟩ h.nonzero
  | dispatches hevent hd => exact h.kept ⟨rfl, rfl, rfl, rfl, id, fun _ => rfl⟩ h.nonzero
  | cancelled hevent => exact h.kept ⟨rfl, rfl, rfl, rfl, id, fun _ => rfl⟩ h.nonzero
  | ignored => exact h

/-- A reading of `SO_ERROR` that leaves the call honest has a decided
handshake. -/
theorem decided_of_honest (h : Sound s) {a : Act}
    (hnext : ∀ s', Connect.step s a = some s' → Honest s') : Decided s a := by
  cases a with
  | getsockopt error =>
      cases error with
      | some e => trivial
      | none =>
          intro hpc
          have hh := hnext _ (by rw [Connect.step, if_pos hpc])
          have hasked := h.asked (by rw [hpc]; rfl)
          cases hd : s.decided with
          | true => rfl
          | false =>
              -- it reads 0, and neither call nor handshake has succeeded
              have hzero : s.soError = 0 := by
                cases hs : s.handshake <;> simp_all [State.soError, State.decided]
              rw [hzero, if_pos rfl] at hh
              rcases hh with hc | he
              · exact nomatch (hasked.symm.trans hc : some (ConnectResult.error _) = some .ok)
              · have he : s.handshake = .established := he
                simp [State.decided, he] at hd
  | _ => trivial

end Sound

theorem sound_start (hookEnable : Bool) (ctx : Option FdCtx) (timeout : UInt64) :
    Sound (start hookEnable ctx timeout) := by
  unfold start
  split
  · exact ⟨trivial, nofun, nofun⟩
  · split
    · exact ⟨.notOpen rfl, nofun, nofun⟩
    · split
      · exact ⟨.notOpen rfl, nofun, nofun⟩
      · split
        · exact ⟨trivial, nofun, nofun⟩
        · exact ⟨trivial, nofun, nofun⟩

/-- **A connect is honest exactly if `SO_ERROR` is not read too early.** For
every run of the call, with its timer, the reports of the kernel and the
cancellations by other fibers: in all its states a call that has returned 0
has its connection, and one that has returned -1 has the cause in `errno`,
if and only if no successful `getsockopt` is made while the handshake is
under way. -/
theorem honest_iff (hookEnable : Bool) (ctx : Option FdCtx) (timeout : UInt64)
    (as : List Act) :
    Always step Honest (start hookEnable ctx timeout) as ↔
      Meets step Decided (start hookEnable ctx timeout) as :=
  always_iff_meets (fun _ _ _ h hok hs => h.step hok hs) (fun _ h => h.honest)
    (fun _ _ h hnext => decided_of_honest h hnext) (sound_start _ _ _)

/-- The event is not registered. -/
def unregistered : List Act :=
  [.connectF (.error EINPROGRESS), .step, .addEvent false, .step, .getsockopt none]

/-- A blocking socket, as the user sees it. -/
def blockingSocket : FdCtx where
  isInit := true
  isSocket := true
  sysNonblock := true
  userNonblock := false
  isClosed := false
  fd := 5
  recvTimeout := noTimeout
  sendTimeout := noTimeout
  created := 0

theorem unregistered_not_honest :
    ¬Always step Honest (start true (some blockingSocket) 5000) unregistered := by
  intro h
  have hs : run step (start true (some blockingSocket) 5000) unregistered = some _ := rfl
  rcases h unregistered [] _ (List.append_nil _).symm hs with hc | hh
  · cases hc
  · cases hh

/-! ## Runs in which nothing goes wrong -/

/-- `addEvent` succeeds, and no other fiber takes the event away. -/
def Undisturbed (s : State) : Act → Prop
  | .addEvent added => added = true
  | .cancelAll => s.event = false
  | _ => True

/-- What wakes the fiber: its timeout, or the end of the handshake. -/
def State.settled (s : State) : Prop := s.cancelled = true ∨ s.decided = true

/-- Where the fiber has been woken, and where it cannot have been. -/
def Pc.awake : Pc → Bool
  | .resumed | .test => true
  | _ => false

def Pc.fresh : Pc → Bool
  | .direct | .connect => true
  | _ => false

structure Calm (s : State) : Prop where
  fresh : s.pc.fresh = true → s.woken = false ∧ s.event = false
  woken : s.woken = true → s.settled
  awake : s.pc.awake = true → s.settled
  query : s.pc = .query → s.decided = true
  added : s.pc ≠ .failed
  cancelling : s.timer = .cancelling → s.cancelled = true

section Calm

variable {s s' : State}

/-- A step of the others that does not wake the fiber. -/
theorem Calm.kept (h : Calm s) (hpc : s'.pc = s.pc) (hw : s'.woken = s.woken)
    (he : s'.event = s.event) (hc : s.cancelled = true → s'.cancelled = true)
    (hd : s.decided = true → s'.decided = true)
    (ht : s'.timer = .cancelling → s'.cancelled = true) : Calm s' := by
  have hsettled : s.settled → s'.settled := fun hs => hs.imp hc hd
  refine ⟨?_, fun h' => hsettled (h.woken (hw ▸ h')), ?_, ?_, ?_, ht⟩
  · rw [hpc, hw, he]
    exact h.fresh
  · rw [hpc]
    exact fun h' => hsettled (h.awake h')
  · rw [hpc]
    exact fun h' => hd (h.query h')
  · rw [hpc]
    exact h.added

/-- A step of the fiber to a place where nothing is asked of it. -/
theorem calm_moved {pc : Pc} (hpc : s'.pc = pc)
    (hplace : pc.fresh = false ∧ pc.awake = false ∧ pc ≠ .query ∧ pc ≠ .failed)
    (hw : s'.woken = true → s'.settled)
    (ht : s'.timer = .cancelling → s'.cancelled = true) : Calm s' := by
  refine ⟨fun h' => ?_, hw, fun h' => ?_, fun h' => ?_, fun h' => ?_, ht⟩
  · exact nomatch (hplace.1.symm.trans (hpc ▸ h') : false = true)
  · exact nomatch (hplace.2.1.symm.trans (hpc ▸ h') : false = true)
  · exact absurd (hpc.symm.trans h') hplace.2.2.1
  · exact absurd (hpc.symm.trans h') hplace.2.2.2

/-- `triggerEvent`, by the timeout or by the end of the handshake. -/
theorem Calm.trigger (h : Calm s) (he : s.event = true) (hs : s.settled) :
    Calm s.trigger := by
  refine ⟨fun h' => ?_, fun _ => hs, h.awake, h.query, h.added, h.cancelling⟩
  exact nomatch ((h.fresh h').2.symm.trans he : false = true)

/-- `connect_f` returns: the fiber has not been woken yet. -/
theorem Calm.asks (h : Calm s) (hpc : s.pc = .direct ∨ s.pc = .connect) :
    s.woken = false := by
  refine (h.fresh ?_).1
  rcases hpc with hpc | hpc <;> rw [hpc] <;> rfl

theorem Calm.cancelTimer (h : Calm s) : Calm s.cancelTimer := by
  rw [State.cancelTimer]
  split
  · exact h.kept rfl rfl rfl id id nofun
  · exact h

theorem cancelTimer_pc (s : State) : s.cancelTimer.pc = s.pc := by
  rw [State.cancelTimer]
  split <;> rfl

theorem Calm.step (h : Calm s) {a : Act} (hok : Undisturbed s a)
    (hs : Connect.step s a = some s') : Calm s' := by
  have hnone : s.woken = false → ∀ {P : Prop}, s.woken = true → P := fun hf _ ht =>
    nomatch (hf.symm.trans ht : false = true)
  cases step_cases hs with
  | connects hpc =>
      exact calm_moved rfl ⟨rfl, rfl, nofun, nofun⟩ (hnone (h.asks hpc)) h.cancelling
  | refused hpc =>
      exact calm_moved rfl ⟨rfl, rfl, nofun, nofun⟩ (hnone (h.asks hpc)) h.cancelling
  | waits hpc =>
      exact calm_moved rfl ⟨rfl, rfl, nofun, nofun⟩ (hnone (h.asks (.inr hpc))) h.cancelling
  | establishes => exact h.kept rfl rfl rfl id (fun _ => rfl) h.cancelling
  | breaks => exact h.kept rfl rfl rfl id (fun _ => rfl) h.cancelling
  | arms => exact calm_moved rfl ⟨rfl, rfl, nofun, nofun⟩ h.woken nofun
  | skips => exact calm_moved rfl ⟨rfl, rfl, nofun, nofun⟩ h.woken h.cancelling
  | givesUp hpc => exact absurd hpc h.added
  | yields => exact calm_moved rfl ⟨rfl, rfl, nofun, nofun⟩ h.woken h.cancelling
  | disarms hpc =>
      have hc := h.cancelTimer
      have hsettled := hc.awake (by rw [cancelTimer_pc, hpc]; rfl)
      exact ⟨nofun, hc.woken, fun _ => hsettled, nofun, nofun, hc.cancelling⟩
  | timesOut => exact calm_moved rfl ⟨rfl, rfl, nofun, nofun⟩ h.woken h.cancelling
  | asks hpc hc =>
      have hdecided : s.decided = true := by
        rcases h.awake (by rw [hpc]; rfl) with hc' | hd
        · exact nomatch (hc.symm.trans hc' : false = true)
        · exact hd
      exact ⟨nofun, h.woken, nofun, fun _ => hdecided, nofun, h.cancelling⟩
  | adds => exact calm_moved rfl ⟨rfl, rfl, nofun, nofun⟩ h.woken h.cancelling
  | fails => cases hok
  | resumes hpc hwoken =>
      exact ⟨nofun, nofun, fun _ => h.woken hwoken, nofun, nofun, h.cancelling⟩
  | unread => exact calm_moved rfl ⟨rfl, rfl, nofun, nofun⟩ h.woken h.cancelling
  | reads => exact calm_moved rfl ⟨rfl, rfl, nofun, nofun⟩ h.woken h.cancelling
  | expires => exact h.kept rfl rfl rfl id id nofun
  | begins =>
      refine h.kept rfl rfl rfl id id fun ht => ?_
      dsimp only at ht
      split at ht <;> cases ht
  | sets => exact h.kept rfl rfl rfl (fun _ => rfl) id fun _ => rfl
  | cancels ht hevent =>
      have hran : Calm { s with timer := .ran } := h.kept rfl rfl rfl id id nofun
      exact hran.trigger hevent (.inl (h.cancelling ht))
  | misses => exact h.kept rfl rfl rfl id id nofun
  | dispatches hevent hd => exact h.trigger hevent (.inr hd)
  | cancelled hevent => exact nomatch (hok.symm.trans hevent : false = true)
  | ignored => exact h

end Calm

theorem calm_start (hookEnable : Bool) (ctx : Option FdCtx) (timeout : UInt64) :
    Calm (start hookEnable ctx timeout) := by
  have hnew : ∀ (pc : Pc) (opened : Bool), pc.awake = false → pc ≠ .query → pc ≠ .failed →
      Calm { timeout, pc, opened } :=
    fun pc opened ha hq hf =>
      ⟨fun _ => ⟨rfl, rfl⟩, nofun, fun h => (nomatch (ha.symm.trans h : false = true)),
        fun h => absurd h hq, hf, nofun⟩
  unfold start
  split
  · exact hnew _ _ rfl nofun nofun
  · split
    · exact hnew _ _ rfl nofun nofun
    · split
      · exact hnew _ _ rfl nofun nofun
      · split
        · exact hnew _ _ rfl nofun nofun
        · exact hnew _ _ rfl nofun nofun

/-- **An undisturbed connect does not read `SO_ERROR` too early**: with the
event registered, the fiber is woken by its timeout, which returns, or by the
end of the handshake. -/
theorem decided_of_undisturbed {hookEnable : Bool} {ctx : Option FdCtx} {timeout : UInt64}
    {as : List Act} (h : Meets step Undisturbed (start hookEnable ctx timeout) as) :
    Meets step Decided (start hookEnable ctx timeout) as := by
  refine h.imp (fun _ _ _ hc hok hs => hc.step hok hs) ?_ (calm_start _ _ _)
  intro s a hc _
  cases a with
  | getsockopt error =>
      cases error with
      | none => exact hc.query
      | some e => trivial
  | _ => trivial

end Hps.Hook.Connect
