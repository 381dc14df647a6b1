import Hps.Hook.DoIo

/-!
# Hook — what a hooked call returns

`do_io` as its caller sees it: the call it hooks, made to wait. Whatever the
workers, the timers and the kernel do meanwhile, it returns the first result
that is neither `EINTR` nor `EAGAIN`, so that nothing which was read or written
is lost, or it gives up with all results before being of that kind. It suspends
its fiber once for each `EAGAIN`, and leaves no timer armed (`do_io_returns`).
-/

namespace Hps.Hook.DoIo

open Hps.Lib

/-! ## What is seen of a call -/

def Act.result? : Act → Option IoResult
  | .io r => some r
  | _ => none

/-- What `fun` has returned. -/
def results (as : List Act) : List IoResult := as.filterMap Act.result?

/-- How often the fiber was resumed. -/
def resumes (as : List Act) : Nat := as.count .resume

/-- How often `fun` had to wait. -/
def blocks (as : List Act) : Nat := (results as).count .eagain

/-- `do_io` goes on behind it. -/
def IoResult.again (r : IoResult) : Prop := r = .eintr ∨ r = .eagain

/-- What `do_io` returns of it. -/
def IoResult.outcome? : IoResult → Option Outcome
  | .ok n => some (.ok n)
  | .error e => some (.error e)
  | .eintr | .eagain => none

/-- A timer of the call has expired, and its callback has set `cancelled`. -/
def Expired (as : List Act) : Prop := ∃ k, .expire k ∈ as ∧ .setCancelled k ∈ as

/-- **What the caller gets**: the result of the last call of `fun`, a timeout, or
-1 if the event cannot be added; all earlier results were to be tried again. -/
inductive Returned (finite : Bool) (as : List Act) : Outcome → Prop
  | result {rs : List IoResult} {r : IoResult} {o : Outcome} (hall : results as = rs ++ [r])
      (hagain : ∀ x ∈ rs, x.again) (ho : r.outcome? = some o) (hwaits : blocks as = resumes as) :
      Returned finite as o
  | timeout (hagain : ∀ x ∈ results as, x.again) (hfinite : finite = true) (hexpired : Expired as)
      (hwaits : blocks as = resumes as) : Returned finite as (.error ETIMEDOUT)
  | notAdded (hagain : ∀ x ∈ results as, x.again) (hfailed : .addEvent false ∈ as)
      (hwaits : blocks as = resumes as + 1) : Returned finite as .notAdded

/-! ## The fiber -/

/-- The last `EAGAIN` has not been followed by a wake-up. -/
def Pc.blocked : Pc → Bool
  | .arm | .register | .failed | .yield | .suspended => true
  | _ => false

/-- What is known of the results, by where the fiber stands. -/
structure Told (as : List Act) (s : State) : Prop where
  hooked : s.pc ≠ .direct
  again : s.isDone = false → ∀ x ∈ results as, x.again
  waits : s.isDone = false → blocks as = resumes as + s.pc.blocked.toNat
  failed : s.pc = .failed → .addEvent false ∈ as
  done : ∀ o, s.pc = .done o → Returned s.finite as o

theorem isDone_of_pc {s : State} {pc : Pc} (hpc : s.pc = pc) (hne : ∀ o, pc ≠ .done o) :
    s.isDone = false := by
  rw [State.isDone, hpc]
  split
  · exact absurd rfl (hne _)
  · rfl

theorem Told.waits_at {as : List Act} {s : State} (h : Told as s) {pc : Pc} (hpc : s.pc = pc)
    (hne : ∀ o, pc ≠ .done o) : blocks as = resumes as + pc.blocked.toNat := by
  have hwaits := h.waits (isDone_of_pc hpc hne)
  rwa [hpc] at hwaits

/-- Where the round has its timer, which is to be cancelled. -/
def Pc.armed : Pc → Bool
  | .register | .failed | .yield | .suspended | .resumed => true
  | _ => false

/-- The timers of the call. -/
structure Timed (as : List Act) (s : State) : Prop where
  set : s.cancelled = true → Expired as ∧ s.finite = true
  expired : ∀ k, s.timers k = .expired ∨ s.timers k = .tested → .expire k ∈ as
  finite : ∀ k, s.timers k ≠ .unmade → s.finite = true
  /-- Only the timer of the round is armed. -/
  armed : ∀ k, s.timers k = .armed → k + 1 = s.made ∧ s.pc.armed = true

section History

variable (as : List Act) (a : Act)

theorem results_append : results (as ++ [a]) = results as ++ a.result?.toList := by
  rw [results, List.filterMap_append, results]
  cases h : a.result? <;> simp [h]

theorem resumes_append : resumes (as ++ [a]) = resumes as + if a = .resume then 1 else 0 := by
  rw [resumes, List.count_append, resumes]
  by_cases h : a = .resume
  · subst h
    rfl
  · simp [h]

theorem blocks_append :
    blocks (as ++ [a]) = blocks as + if a = .io .eagain then 1 else 0 := by
  rw [blocks, results_append, List.count_append, blocks]
  cases a with
  | io r => cases r <;> rfl
  | _ => rfl

variable {as a}

theorem Expired.mono (h : Expired as) : Expired (as ++ [a]) := by
  obtain ⟨k, hexpire, hset⟩ := h
  exact ⟨k, List.mem_append_left _ hexpire, List.mem_append_left _ hset⟩

/-- What other threads do is not seen. -/
theorem results_other (hio : a.result? = none) : results (as ++ [a]) = results as := by
  rw [results_append, hio]
  exact List.append_nil _

theorem blocks_other (hio : a.result? = none) : blocks (as ++ [a]) = blocks as := by
  rw [blocks, results_other hio]
  rfl

theorem resumes_other (hresume : a ≠ .resume) : resumes (as ++ [a]) = resumes as := by
  rw [resumes_append, if_neg hresume]
  rfl

theorem Returned.mono {finite : Bool} {o : Outcome} (h : Returned finite as o)
    (hio : a.result? = none) (hresume : a ≠ .resume) : Returned finite (as ++ [a]) o := by
  have hwaits : blocks (as ++ [a]) = blocks as := blocks_other hio
  have hresumes : resumes (as ++ [a]) = resumes as := resumes_other hresume
  cases h with
  | result hall hagain ho h =>
      exact .result ((results_other hio).trans hall) hagain ho (by rw [hwaits, hresumes, h])
  | timeout hagain hfinite hexpired h =>
      exact .timeout (by rwa [results_other hio]) hfinite hexpired.mono (by rw [hwaits, hresumes, h])
  | notAdded hagain hfailed h =>
      exact .notAdded (by rwa [results_other hio]) (List.mem_append_left _ hfailed)
        (by rw [hwaits, hresumes, h])

/-- A step that is not seen, and leaves the fiber where it is. -/
theorem Told.mono {s s' : State} (h : Told as s) (hio : a.result? = none) (hresume : a ≠ .resume)
    (hpc : s'.pc = s.pc) (htimeout : s'.timeout = s.timeout) : Told (as ++ [a]) s' := by
  have hdone : s'.isDone = s.isDone := by rw [State.isDone, hpc, State.isDone]
  refine ⟨by rw [hpc]; exact h.hooked, fun hd => ?_, fun hd => ?_, fun hf => ?_, fun o ho => ?_⟩
  · rw [results_other hio]
    exact h.again (hdone ▸ hd)
  · rw [blocks_other hio, resumes_other hresume, hpc]
    exact h.waits (hdone ▸ hd)
  · exact List.mem_append_left _ (h.failed (hpc ▸ hf))
  · rw [State.finite, htimeout]
    exact (h.done o (hpc ▸ ho)).mono hio hresume

/-- A step of the fiber that calls nothing. -/
theorem Told.goes {s s' : State} (h : Told as s) (hs : s.isDone = false) (hio : a.result? = none)
    (hresume : a ≠ .resume) (hpc : s'.pc ≠ .direct) (hblocked : s'.pc.blocked = s.pc.blocked)
    (hfailed : s'.pc = .failed → a = .addEvent false) (hdone : s'.isDone = false) :
    Told (as ++ [a]) s' := by
  refine ⟨hpc, fun _ => ?_, fun _ => ?_, fun hf => ?_, fun o ho => ?_⟩
  · rw [results_other hio]
    exact h.again hs
  · rw [blocks_other hio, resumes_other hresume, hblocked]
    exact h.waits hs
  · rw [hfailed hf]
    simp
  · rw [State.isDone, ho] at hdone
    cases hdone

/-- `do_io` has returned. -/
theorem Told.of_returned {s : State} {o : Outcome} (hpc : s.pc = .done o)
    (hreturned : Returned s.finite as o) : Told as s := by
  have hdone : s.isDone = true := by rw [State.isDone, hpc]
  refine ⟨by simp [hpc], fun hd => ?_, fun hd => ?_, by simp [hpc], fun o' ho' => ?_⟩
  · rw [hdone] at hd
    cases hd
  · rw [hdone] at hd
    cases hd
  · obtain rfl := Pc.done.inj (hpc.symm.trans ho')
    exact hreturned

end History

theorem cancelTimer_timeout (s : State) : s.cancelTimer.timeout = s.timeout := by
  rw [State.cancelTimer]
  split <;> rfl

/-! ## The timers -/

section Timers

variable {as : List Act} {a : Act} {s : State}

/-- The fiber goes on, without its timer only if there is none. -/
theorem Timed.goes (h : Timed as s) {pc : Pc} {event woken : Bool}
    (hpc : s.pc.armed = true → pc.armed = true) :
    Timed (as ++ [a]) { s with pc, event, woken } where
  set hc := (h.set hc).imp_left Expired.mono
  expired k hk := List.mem_append_left _ (h.expired k hk)
  finite := h.finite
  armed k hk := (h.armed k hk).imp_right hpc

theorem Timed.setTimer (h : Timed as s) {k : Nat} {x : TimerState} (hk : s.timers k ≠ .unmade)
    (hx : x ≠ .armed) (hexpired : x = .expired ∨ x = .tested → .expire k ∈ as ++ [a]) :
    Timed (as ++ [a]) (s.setTimer k x) where
  set hc := (h.set hc).imp_left Expired.mono
  expired j hj := by
    rw [setTimer_timers] at hj
    split at hj
    · rename_i hjk
      rw [hjk]
      exact hexpired hj
    · exact List.mem_append_left _ (h.expired j hj)
  finite j hj := by
    rw [setTimer_timers] at hj
    split at hj
    · exact h.finite k hk
    · exact h.finite j hj
  armed j hj := by
    rw [setTimer_timers] at hj
    split at hj
    · exact absurd hj hx
    · exact h.armed j hj

/-- **No timer is armed** behind `timer->cancel()`. -/
theorem Timed.cancelTimer (h : Timed as s) {pc : Pc} :
    Timed (as ++ [a]) { s.cancelTimer with pc } := by
  rw [State.cancelTimer]
  split
  · rename_i hc
    have hset : Timed (as ++ [a]) (s.setTimer (s.made - 1) .cancelled) :=
      h.setTimer (by rw [hc.2]; decide) (by decide) (by rintro (hx | hx) <;> cases hx)
    refine ⟨hset.set, hset.expired, hset.finite, fun k hk => ?_⟩
    have hmade := (hset.armed k hk).1
    have hk' : (s.setTimer (s.made - 1) .cancelled).timers k = .armed := hk
    have hsame : k = s.made - 1 := by
      have : k + 1 = s.made := hmade
      omega
    rw [setTimer_timers, if_pos hsame] at hk'
    cases hk'
  · rename_i hc
    have hgoes : Timed (as ++ [a]) s := h.goes id
    refine ⟨hgoes.set, hgoes.expired, hgoes.finite, fun k hk => ?_⟩
    have hmade := (h.armed k hk).1
    have hsame : k = s.made - 1 := by omega
    exact absurd ⟨h.finite k (by rw [hk]; decide), hsame ▸ hk⟩ hc

theorem Timed.arm (h : Timed as s) (hpc : s.pc = .arm) (hfinite : s.finite = true) :
    Timed (as ++ [a]) { s.setTimer s.made .armed with made := s.made + 1, pc := .register } where
  set hc := (h.set hc).imp_left Expired.mono
  expired k hk := by
    have hk' : (s.setTimer s.made .armed).timers k = .expired ∨
      (s.setTimer s.made .armed).timers k = .tested := hk
    rw [setTimer_timers] at hk'
    split at hk'
    · rcases hk' with hk' | hk' <;> cases hk'
    · exact List.mem_append_left _ (h.expired k hk')
  finite _ _ := hfinite
  armed k hk := by
    have hk' : (s.setTimer s.made .armed).timers k = .armed := hk
    rw [setTimer_timers] at hk'
    split at hk'
    · rename_i hmade
      rw [hmade]
      exact ⟨rfl, rfl⟩
    · have harmed := (h.armed k hk').2
      rw [hpc] at harmed
      cases harmed

theorem Timed.step {s' : State} (h : Timed as s) (hs : step s a = some s') :
    Timed (as ++ [a]) s' := by
  cases step_cases hs with
  | returns hpc =>
      refine h.goes fun harmed => ?_
      rcases hpc with hpc | hpc <;> rw [hpc] at harmed <;> cases harmed
  | interrupted | dispatches => exact h.goes id
  | blocks hpc | skips hpc | timesOut hpc | retries hpc =>
      exact h.goes fun harmed => by rw [hpc] at harmed; cases harmed
  | yields hpc | adds hpc | fails hpc | resumes hpc => exact h.goes fun _ => rfl
  | arms hpc hfinite => exact h.arm hpc hfinite
  | givesUp | disarms => exact h.cancelTimer
  | expires hk => exact h.setTimer (by rw [hk]; decide) (by decide) fun _ => by simp
  | begins hk =>
      refine h.setTimer (by rw [hk]; decide) (by split <;> decide) fun _ => ?_
      exact List.mem_append_left _ (h.expired _ (.inl hk))
  | @sets k hk =>
      have hset : Timed (as ++ [.setCancelled k]) (s.setTimer k .cancelling) :=
        h.setTimer (by rw [hk]; decide) (by decide) (by rintro (hx | hx) <;> cases hx)
      have hexpired : Expired (as ++ [.setCancelled k]) :=
        ⟨k, List.mem_append_left _ (h.expired k (.inr hk)), by simp⟩
      exact ⟨fun _ => ⟨hexpired, h.finite k (by rw [hk]; decide)⟩, hset.expired, hset.finite,
        hset.armed⟩
  | @cancels k hk | @misses k hk =>
      have hset : Timed (as ++ [.cancelEvent k]) (s.setTimer k .ran) :=
        h.setTimer (by rw [hk]; decide) (by decide) (by rintro (hx | hx) <;> cases hx)
      exact ⟨hset.set, hset.expired, hset.finite, hset.armed⟩

end Timers

/-! ## Runs -/

/-- `fun` returns to the loop of `do_io`. -/
theorem io_retry {s : State} (hpc : s.pc = .retry) (r : IoResult) :
    step s (.io r) = some (match r.outcome? with
      | some o => { s with pc := .done o }
      | none => if r = .eagain then { s with pc := .arm } else s) := by
  cases r <;> simp [step, hpc, IoResult.outcome?]

section Steps

variable {as : List Act} {a : Act} {s s' : State}

theorem Told.io (h : Told as s) {r : IoResult} (hs : step s (.io r) = some s') :
    Told (as ++ [.io r]) s' := by
  have hpc : s.pc = .retry := by
    cases step_cases hs with
    | returns hpc => exact hpc.resolve_left h.hooked
    | interrupted hpc => exact hpc
    | blocks hpc => exact hpc
  have hdone : s.isDone = false := isDone_of_pc hpc (by simp)
  have hresults : results (as ++ [.io r]) = results as ++ [r] := results_append ..
  have hresumes : resumes (as ++ [.io r]) = resumes as := resumes_other (by simp)
  have hblocks : blocks as = resumes as := h.waits_at hpc (by simp)
  have hmore := blocks_append as (.io r)
  rw [io_retry hpc] at hs
  cases ho : r.outcome? with
  | some o =>
      rw [ho] at hs
      obtain rfl := Option.some.inj hs
      have hne : r ≠ .eagain := by
        rintro rfl
        cases ho
      rw [if_neg (by simpa using hne)] at hmore
      have hwaits : blocks (as ++ [.io r]) = resumes (as ++ [.io r]) := by
        rw [hmore, hresumes, hblocks]
        rfl
      exact Told.of_returned rfl (.result hresults (h.again hdone) ho hwaits)
  | none =>
      rw [ho] at hs
      obtain rfl := Option.some.inj hs
      have hagain : ∀ x ∈ results (as ++ [.io r]), x.again := by
        rw [hresults]
        intro x hx
        rcases List.mem_append.mp hx with hx | hx
        · exact h.again hdone x hx
        · obtain rfl := List.mem_singleton.mp hx
          cases x with
          | eintr => exact .inl rfl
          | eagain => exact .inr rfl
          | ok n => cases ho
          | error e => cases ho
      by_cases hr : r = .eagain
      · subst hr
        refine ⟨by simp, fun _ => hagain, fun _ => ?_, by simp, by simp⟩
        rw [hmore, hresumes, hblocks]
        rfl
      · simp only [if_neg hr]
        refine ⟨h.hooked, fun _ => hagain, fun _ => ?_, by simp [hpc], by simp [hpc]⟩
        rw [hmore, if_neg (by simpa using hr), hresumes, hblocks, hpc]
        rfl

theorem Told.step (h : Told as s) (ht : Timed as s) (hs : step s a = some s') :
    Told (as ++ [a]) s' := by
  cases step_cases hs with
  | returns | interrupted | blocks => exact h.io hs
  | arms hpc | skips hpc | yields hpc | retries hpc | adds hpc | disarms hpc | fails hpc =>
      have hd : s.isDone = false := isDone_of_pc hpc (by simp)
      exact h.goes hd (by rfl) (by simp) (by simp) (by rw [hpc]; rfl) (by simp) (by rfl)
  | givesUp hpc =>
      have hd : s.isDone = false := isDone_of_pc hpc (by simp)
      have hwaits := h.waits_at hpc (by simp)
      have hreturned : Returned s.finite (as ++ [.step]) .notAdded :=
        (Returned.notAdded (h.again hd) (h.failed hpc) hwaits).mono rfl (by simp)
      refine Told.of_returned rfl ?_
      rw [State.finite, cancelTimer_timeout]
      exact hreturned
  | timesOut hpc hcancelled =>
      have hd : s.isDone = false := isDone_of_pc hpc (by simp)
      have hwaits := h.waits_at hpc (by simp)
      have hreturned : Returned s.finite (as ++ [.step]) (.error ETIMEDOUT) :=
        (Returned.timeout (h.again hd) (ht.set hcancelled).2 (ht.set hcancelled).1 hwaits).mono rfl
          (by simp)
      exact Told.of_returned rfl hreturned
  | resumes hpc =>
      have hd : s.isDone = false := isDone_of_pc hpc (by simp)
      have hwaits := h.waits_at hpc (by simp)
      refine ⟨by simp, fun _ => ?_, fun _ => ?_, by simp, by simp⟩
      · rw [results_other rfl]
        exact h.again hd
      · rw [blocks_other rfl, resumes_append, if_pos rfl, hwaits]
        rfl
  | expires | begins | sets | cancels | misses | dispatches =>
      exact h.mono rfl (by simp) rfl rfl

theorem step_timeout (hs : step s a = some s') : s'.timeout = s.timeout := by
  cases step_cases hs with
  | givesUp | disarms => exact cancelTimer_timeout s
  | _ => rfl

end Steps

/-- The call of a descriptor that it has to wait for. -/
def Waits (c : FdCtx) : Prop :=
  c.isClosed = false ∧ c.isSocket = true ∧ c.userNonblock = false

theorem start_eq {c : FdCtx} (hc : Waits c) (type : TimeoutOf) :
    start true (some c) type = { timeout := getTimeout c type } := by
  obtain ⟨hclosed, hsocket, hblocking⟩ := hc
  simp [start, hclosed, hsocket, hblocking]

/-- **A hooked call is the call it hooks, made to wait.** In every run it returns
the first result that is not to be tried again, or gives up without one: by a
timeout only if it has a timeout and one of its timers has expired, and with -1
only if the event could not be added. The fiber was woken once for each result
that was `EAGAIN`, but for the last one if it gives up at its event; and no timer
is left armed. -/
theorem do_io_returns {c : FdCtx} (hc : Waits c) {type : TimeoutOf} {as : List Act} {s : State}
    (h : run step (start true (some c) type) as = some s) {o : Outcome} (ho : s.pc = .done o) :
    Returned (getTimeout c type != noTimeout) as o ∧ ∀ k, s.timers k ≠ .armed := by
  rw [start_eq hc] at h
  have htimeout : s.timeout = getTimeout c type :=
    run_invariant' (fun _ _ _ hi hs => (step_timeout hs).trans hi) rfl h
  have hfinite : s.finite = (getTimeout c type != noTimeout) := by rw [State.finite, htimeout]
  have hfirst : Told [] { timeout := getTimeout c type } ∧
      Timed [] { timeout := getTimeout c type } := by
    refine ⟨⟨by simp, fun _ => by simp [results], fun _ => rfl, by simp, by simp⟩,
      ⟨nofun, ?_, ?_, ?_⟩⟩
    all_goals simp
  have hstep : ∀ as s a s', Told as s ∧ Timed as s → step s a = some s' →
      Told (as ++ [a]) s' ∧ Timed (as ++ [a]) s' :=
    fun as s a s' hi hs => ⟨hi.1.step hi.2 hs, hi.2.step hs⟩
  obtain ⟨htold, htimed⟩ := run_history hstep hfirst h
  rw [List.nil_append] at htold htimed
  refine ⟨hfinite ▸ htold.done o ho, fun k hk => ?_⟩
  have harmed := (htimed.armed k hk).2
  rw [ho] at harmed
  cases harmed

/-- A read that waits, and is woken by its timer. -/
def timedRead : List Act :=
  [.io .eintr, .io .eagain, .step, .addEvent true, .step, .expire 0, .callback 0, .setCancelled 0,
    .cancelEvent 0, .resume, .step, .step]

theorem timedRead_returns : ∃ s, run step (start true (some timedSocket) .recv) timedRead = some s ∧
    s.pc = .done (.error ETIMEDOUT) ∧ Returned true timedRead (.error ETIMEDOUT) ∧
    s.timers 0 ≠ .armed := by
  have hpc : (run step (start true (some timedSocket) .recv) timedRead).map State.pc =
    some (.done (.error ETIMEDOUT)) := by decide
  obtain ⟨s, hs, hdone⟩ := Option.map_eq_some_iff.mp hpc
  obtain ⟨hreturned, harmed⟩ := do_io_returns ⟨rfl, rfl, rfl⟩ hs hdone
  exact ⟨s, hs, hdone, hreturned, harmed 0⟩

end Hps.Hook.DoIo
