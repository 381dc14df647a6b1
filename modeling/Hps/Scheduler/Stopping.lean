import Hps.Scheduler.Conservation

/-!
# Scheduler — stopping

`IOManager::stopping` reads the timers, then the pending events, then the queue
and the active count under the lock, and a worker that has found all of them
empty leaves `run` at its next empty scan. What the four reads do not see is a
timer or an event that came behind its read, a `READY` fiber between the
decrement and the `schedule`, and callbacks between `listExpiredCb` and the
`schedule`. A run whose successful tests see no work because there is none
leaves nothing behind (`stopping_drains`).
-/

namespace Hps.Scheduler

open Hps.Lib

variable {n : Nat}

/-! ## Work outside of the queue -/

/-- The worker is about to put something into the queue: a `READY` fiber, or the
callbacks of expired timers. -/
def Pc.carries (fibers : Nat → FiberState) : Pc → Bool
  | .tickle _ next => next.carries fibers
  | .settle f _ => decide (fibers f = .READY)
  | .requeue _ _ | .expired _ => true
  | _ => false

def State.carries (s : State n) (w : Fin n) : Bool := (s.workers w).pc.carries s.fibers

/-- Behind `stop()`, only the fibers of the workers make new work. -/
def Inside (s : State n) : Act n → Prop
  | .schedule none _ _ | .scheduleBatch none _ | .addTimer none _ _ | .addEvent none =>
      s.stopping = false
  | _ => True

/-- The worker's test of the queue and the active count lets it stop. -/
def State.stops (s : State n) (w : Fin n) : Prop :=
  (s.workers w).pc = .idleStopping ∧ s.autoStop = true ∧ s.stopping = true ∧
    s.tasks = [] ∧ s.activeThreadCount = 0

/-- A test that lets a worker stop is made when there is no timer, no event, and
nobody with something for the queue. -/
def Settled (s : State n) : Act n → Prop
  | .step w => s.stops w →
      s.timers = [] ∧ s.pendingEventCount = 0 ∧ ∀ v, s.carries v = false
  | _ => True

/-! ## Nothing left -/

/-- There is no work, and nobody has any. -/
structure Quiet (s : State n) : Prop where
  stopping : s.stopping = true
  tasks : s.tasks = []
  timers : s.timers = []
  pending : s.pendingEventCount = 0
  owes : ∀ w, s.owes w = false
  carries : ∀ w, s.carries w = false

theorem carries_mono {fibers fibers' : Nat → FiberState} {pc : Pc}
    (h : ∀ f, fibers' f = .READY → fibers f = .READY)
    (hc : pc.carries fibers = false) : pc.carries fibers' = false := by
  induction pc with
  | tickle _ next ih => exact ih hc
  | settle f =>
      have hf : fibers f ≠ .READY := of_decide_eq_false hc
      exact decide_eq_false fun h' => hf (h f h')
  | requeue | expired => cases hc
  | _ => rfl

/-- A worker that goes on with nothing. -/
theorem Quiet.update {s s' : State n} {w : Fin n} {x : Worker n} (hq : Quiet s)
    (hw : s'.workers = Function.update s.workers w x) (hs : s'.stopping = s.stopping)
    (ht : s'.tasks = s.tasks) (hm : s'.timers = s.timers)
    (hp : s'.pendingEventCount = s.pendingEventCount)
    (hf : ∀ f, s'.fibers f = .READY → s.fibers f = .READY) (ho : x.owes = false)
    (hc : x.pc.carries s'.fibers = false) : Quiet s' where
  stopping := hs.trans hq.stopping
  tasks := ht.trans hq.tasks
  timers := hm.trans hq.timers
  pending := hp.trans hq.pending
  owes := by
    simp only [State.owes, hw]
    exact (Function.forall_update_iff s.workers fun _ y => y.owes = false).mpr
      ⟨ho, fun v _ => hq.owes v⟩
  carries := by
    simp only [State.carries, hw]
    exact (Function.forall_update_iff s.workers fun _ y => y.pc.carries s'.fibers = false).mpr
      ⟨hc, fun v _ => carries_mono hf (hq.carries v)⟩

/-- Nobody has taken a task. -/
theorem Quiet.task {s : State n} {w : Fin n} (hq : Quiet s) (hs : Scanned (s.workers w))
    (hpc : (s.workers w).pc = .select) : (s.workers w).task = none := by
  have howes := hq.owes w
  have hactive := hs (by rw [hpc]; rfl)
  rw [State.owes, Worker.owes, hpc] at howes
  cases h : (s.workers w).task with
  | none => rfl
  | some t =>
      rw [h] at hactive
      exact absurd (howes.symm.trans hactive : false = true) Bool.false_ne_true

theorem ready_of_update {fibers : Nat → FiberState} {f g : Nat} {y : FiberState}
    (hy : y ≠ .READY) (h : Function.update fibers f y g = .READY) :
    fibers g = .READY := by
  by_cases hg : g = f
  · subst hg
    rw [Function.update_self] at h
    exact absurd h hy
  · rwa [Function.update_of_ne hg] at h

theorem worker_quiet {s s' : State n} {w : Fin n} (h : WorkerStep s w s')
    (hs : Scanned (s.workers w)) (hq : Quiet s) : Quiet s' := by
  have howes : (s.workers w).pc.owes (s.workers w).isActive = false := hq.owes w
  have hcarries : (s.workers w).pc.carries s.fibers = false := hq.carries w
  cases h with
  | scan hpc =>
      have hscan : scanTasks w s.fibers s.tasks = (none, [], false) := by
        rw [hq.tasks]
        rfl
      refine hq.update rfl rfl ?_ rfl rfl (fun _ => id) ?_ ?_
      · exact (congrArg (·.2.1) hscan).trans hq.tasks.symm
      · rw [hscan]
        rfl
      · rw [hscan]
        rfl
  | tickleRead hpc =>
      rw [hpc] at howes hcarries
      refine hq.update rfl rfl rfl rfl rfl (fun _ => id) ?_ ?_
      · split <;> exact howes
      · split <;> exact hcarries
  | tickleWrite hpc =>
      rw [hpc] at howes hcarries
      exact hq.update rfl rfl rfl rfl rfl (fun _ => id) howes hcarries
  | skipNone hpc _ hskip | skipDead hpc _ _ hskip =>
      rw [hpc] at howes
      cases hskip with
      | active hactive => exact absurd (hactive.symm.trans howes) (by decide)
      | exits => exact hq.update rfl rfl rfl rfl rfl (fun _ => id) rfl rfl
      | idles => exact hq.update rfl rfl rfl rfl rfl (fun _ => id) rfl rfl
  | selectFiber hpc htask | selectReset hpc htask | selectNew hpc htask =>
      rw [hq.task hs hpc] at htask
      cases htask
  | call hpc | leaving hpc | returned hpc =>
      rw [hpc] at howes
      cases howes
  | settleReady hpc hready =>
      rw [hpc, Pc.carries, hready] at hcarries
      cases hcarries
  | @settleDead f own hpc hdead =>
      cases own with
      | false => exact hq.update rfl rfl rfl rfl rfl (fun _ => id) rfl rfl
      | true =>
          exact hq.update rfl rfl rfl rfl rfl (fun _ => ready_of_update (by decide)) rfl
            rfl
  | hold hpc =>
      exact hq.update rfl rfl rfl rfl rfl (fun _ => ready_of_update (by decide)) rfl rfl
  | requeue hpc | expired hpc =>
      rw [hpc] at hcarries
      cases hcarries
  | idleTimer hpc | idlePending hpc =>
      refine hq.update rfl rfl rfl rfl rfl (fun _ => id) ?_ ?_
      · split <;> rfl
      · split <;> rfl
  | triggered hpc =>
      refine hq.update rfl rfl rfl rfl ?_ (fun _ => id) rfl rfl
      show s.pendingEventCount - 1 = s.pendingEventCount
      rw [hq.pending]
  | settleHold hpc | idleCount hpc | idleCall hpc | idleStops hpc | idleWaits hpc
  | idleReturn hpc => exact hq.update rfl rfl rfl rfl rfl (fun _ => id) rfl rfl

/-- Behind `stop()`, nobody has a fiber that could make work. -/
theorem Quiet.calls {s : State n} (hq : Quiet s) {w : Option (Fin n)}
    (hc : s.calls w = true) : w = none := by
  cases w with
  | none => rfl
  | some v =>
      obtain ⟨f, own, hpc⟩ := calls_some hc
      have howes := hq.owes v
      rw [State.owes, Worker.owes, hpc] at howes
      cases howes

theorem Quiet.running {s : State n} (hq : Quiet s) {w : Fin n} {f : Nat} {own : Bool}
    (hpc : (s.workers w).pc = .running f own) : False := by
  have howes := hq.owes w
  rw [State.owes, Worker.owes, hpc] at howes
  cases howes

theorem step_quiet {s s' : State n} {a : Act n} (h : step s a = some s')
    (hin : Inside s a) (hs : ∀ w, Scanned (s.workers w)) (hq : Quiet s) : Quiet s' := by
  cases step_cases h with
  | worker h => exact worker_quiet h (hs _) hq
  | schedule hc | scheduleBatch hc | addTimer hc | addEvent hc =>
      cases hq.calls hc
      rw [Inside, hq.stopping] at hin
      cases hin
  | tickleRead | tickleWrite | newFiber | drain =>
      exact ⟨hq.stopping, hq.tasks, hq.timers, hq.pending, hq.owes, hq.carries⟩
  | stop => exact ⟨rfl, hq.tasks, hq.timers, hq.pending, hq.owes, hq.carries⟩
  | cancelTimer hc =>
      refine ⟨hq.stopping, hq.tasks, ?_, hq.pending, hq.owes, hq.carries⟩
      simp only [hq.timers, List.eraseIdx_nil]
  | dropEvent hc hpos =>
      rw [hq.pending] at hpos
      exact absurd hpos (Nat.lt_irrefl 0)
  | yieldToReady hpc | yieldToHold hpc | finish hpc => exact (hq.running hpc).elim
  | wake | back => exact hq.update rfl rfl rfl rfl rfl (fun _ => id) rfl rfl
  | @listExpired w expired hpc =>
      have hleft : State.leftTimers s.timers expired = s.timers := by
        rw [hq.timers]
        cases expired <;> rfl
      have hcbs : State.expiredCbs s.timers expired = [] := by
        rw [hq.timers]
        cases expired <;> rfl
      refine hq.update rfl rfl rfl hleft rfl (fun _ => id) ?_ ?_
      · rw [hcbs]
        rfl
      · rw [hcbs]
        rfl
  | trigger hpc hpos =>
      rw [hq.pending] at hpos
      exact absurd hpos (Nat.lt_irrefl 0)

/-! ## Who has stopped -/

/-- Some worker's idle fiber has ended. -/
def Ended (s : State n) : Prop := ∃ w, (s.workers w).idleFiber = .TERM

def Pc.exits : Pc → Bool
  | .tickle _ next => next.exits
  | .exited => true
  | _ => false

/-- A worker leaves `run` only behind its idle fiber. -/
def Leaves (s : State n) : Prop :=
  ∀ w, (s.workers w).pc.exits = true → (s.workers w).idleFiber = .TERM

theorem leaves_update {s s' : State n} {w : Fin n} {x : Worker n} (hl : Leaves s)
    (hw : s'.workers = Function.update s.workers w x)
    (hx : x.pc.exits = true → x.idleFiber = .TERM) : Leaves s' := by
  rw [Leaves, hw]
  exact (Function.forall_update_iff s.workers fun _ y =>
    y.pc.exits = true → y.idleFiber = .TERM).mpr ⟨hx, fun v _ => hl v⟩

theorem ended_update {s s' : State n} {w : Fin n} {x : Worker n}
    (hw : s'.workers = Function.update s.workers w x)
    (hx : x.idleFiber = .TERM → (s.workers w).idleFiber = .TERM) (he : Ended s') :
    Ended s := by
  obtain ⟨v, hv⟩ := he
  rw [hw] at hv
  by_cases h : v = w
  · subst h
    rw [Function.update_self] at hv
    exact ⟨v, hx hv⟩
  · rw [Function.update_of_ne h] at hv
    exact ⟨v, hv⟩

theorem worker_leaves {s s' : State n} {w : Fin n} (h : WorkerStep s w s')
    (hl : Leaves s) : Leaves s' := by
  have hw := hl w
  cases h with
  | skipNone _ _ hskip | skipDead _ _ _ hskip =>
      cases hskip with
      | active => exact leaves_update hl rfl nofun
      | exits _ hidle => exact leaves_update hl rfl fun _ => hidle
      | idles => exact leaves_update hl rfl nofun
  | scan | requeue | idleTimer | idlePending | expired =>
      refine leaves_update hl rfl fun hpc => ?_
      simp only at hpc
      split at hpc <;> cases hpc
  | tickleRead hpc =>
      rw [hpc] at hw
      refine leaves_update hl rfl fun hnext => hw ?_
      split at hnext <;> exact hnext
  | tickleWrite hpc =>
      rw [hpc] at hw
      exact leaves_update hl rfl hw
  | settleDead => split <;> exact leaves_update hl rfl nofun
  | _ => exact leaves_update hl rfl nofun

theorem Leaves.notify {s : State n} (hl : Leaves s) (w : Option (Fin n)) (b : Bool) :
    Leaves (s.notify w b) := by
  rcases notify_cases s w b with ⟨h, -⟩ | ⟨-, -, h⟩ | ⟨v, -, -, h⟩
  · rw [h]
    exact hl
  · rw [h]
    exact hl
  · rw [h]
    exact leaves_update hl rfl (hl v)

theorem step_leaves {s s' : State n} {a : Act n} (h : step s a = some s')
    (hl : Leaves s) : Leaves s' := by
  cases step_cases h with
  | worker h => exact worker_leaves h hl
  | schedule | scheduleBatch | addTimer =>
      apply Leaves.notify
      exact hl
  | tickleRead | tickleWrite | cancelTimer | addEvent | dropEvent | newFiber | stop
  | drain => exact hl
  | yieldToReady | yieldToHold | finish | wake | back =>
      exact leaves_update hl rfl nofun
  | listExpired | trigger =>
      refine leaves_update hl rfl fun hpc => ?_
      simp only at hpc
      split at hpc <;> cases hpc

/-- Only a test that lets the worker stop ends its idle fiber. -/
theorem worker_ended {s s' : State n} {w : Fin n} (h : WorkerStep s w s')
    (he : Ended s') : Ended s ∨ s.stops w := by
  cases h with
  | idleStops hpc hstop => exact .inr ⟨hpc, hstop⟩
  | skipNone _ _ hskip | skipDead _ _ _ hskip =>
      cases hskip <;>
      · refine .inl (ended_update rfl ?_ he)
        exact id
  | settleDead =>
      split at he <;>
      · refine .inl (ended_update rfl ?_ he)
        exact id
  | idleCall =>
      refine .inl (ended_update rfl ?_ he)
      exact nofun
  | idleReturn =>
      refine .inl (ended_update rfl (fun hidle => ?_) he)
      simp only at hidle
      split at hidle
      · exact hidle
      · cases hidle
  | _ =>
      refine .inl (ended_update rfl ?_ he)
      exact id

theorem ended_notify {s : State n} {w : Option (Fin n)} {b : Bool}
    (he : Ended (s.notify w b)) : Ended s := by
  rcases notify_cases s w b with ⟨h, -⟩ | ⟨-, -, h⟩ | ⟨v, -, -, h⟩
  · rwa [h] at he
  · rw [h] at he
    exact he
  · rw [h] at he
    refine ended_update rfl ?_ he
    exact id

theorem step_ended {s s' : State n} {a : Act n} (h : step s a = some s')
    (he : Ended s') : Ended s ∨ ∃ w, a = .step w ∧ s.stops w := by
  cases step_cases h with
  | @worker w _ h => exact (worker_ended h he).imp_right fun hs => ⟨w, rfl, hs⟩
  | schedule | scheduleBatch => exact .inl (ended_notify (s := s.push _) he)
  | addTimer =>
      exact .inl (show Ended { s with timers := s.timers ++ [_] } from ended_notify he)
  | tickleRead | tickleWrite | cancelTimer | addEvent | dropEvent | newFiber | stop
  | drain => exact .inl he
  | yieldToReady | yieldToHold | finish | wake | back | listExpired | trigger =>
      refine .inl (ended_update rfl ?_ he)
      exact id

/-! ## Runs -/

/-- What a run keeps: where a test has let a worker stop, there is nothing
left. -/
structure Stops (s : State n) : Prop where
  scanned : ∀ w, Scanned (s.workers w)
  counts : Counts s
  leaves : Leaves s
  quiet : Ended s → Quiet s

theorem Stops.step {s s' : State n} {a : Act n} (hi : Stops s)
    (hok : Inside s a ∧ Settled s a) (h : step s a = some s') : Stops s' where
  scanned := step_scanned h hi.scanned
  counts := (step_change h hi.scanned).counts hi.counts
  leaves := step_leaves h hi.leaves
  quiet := by
    intro he
    rcases step_ended h he with he | ⟨w, rfl, hstop⟩
    · exact step_quiet h hok.1 hi.scanned (hi.quiet he)
    · obtain ⟨htimers, hpending, hcarries⟩ := hok.2 hstop
      have howes : ∀ v, s.owes v = false := by
        have hcounts := hi.counts
        rw [Counts, hstop.2.2.2.2] at hcounts
        exact countWhere_eq_zero_iff.mp (Int.ofNat.inj hcounts.symm)
      exact step_quiet h hok.1 hi.scanned
        ⟨hstop.2.2.1, hstop.2.2.2.1, htimers, hpending, howes, hcarries⟩

theorem stops_init : Stops (init : State n) where
  scanned _ := scanned_away rfl
  counts := counts_init
  leaves _ := nofun
  quiet he := by
    obtain ⟨w, hw⟩ := he
    cases hw

/-- **Stopping leaves nothing behind** in a run in which, behind `stop()`, only
fibers of the workers make new work, and every test that lets a worker stop is
made when there is no timer, no event, and nobody with a `READY` fiber or with
callbacks for the queue. -/
theorem stopping_drains {as : List (Act n)} {s : State n} (hn : 0 < n)
    (hok : Meets step (fun s a => Inside s a ∧ Settled s a) init as)
    (h : run step init as = some s) (hexited : ∀ w, (s.workers w).pc = .exited) :
    s.tasks = [] ∧ s.timers = [] ∧ s.pendingEventCount = 0 := by
  have hi : Stops s :=
    run_invariant (fun s a s' hi ha hs => hi.step ha hs) stops_init hok h
  have hq := hi.quiet ⟨⟨0, hn⟩, hi.leaves _ (by rw [hexited]; rfl)⟩
  exact ⟨hq.tasks, hq.timers, hq.pending⟩

instance (s : State n) : (a : Act n) → Decidable (Inside s a)
  | .schedule none _ _ | .scheduleBatch none _ | .addTimer none _ _ | .addEvent none =>
      inferInstanceAs (Decidable (s.stopping = false))
  | .schedule (some _) _ _ | .scheduleBatch (some _) _ | .addTimer (some _) _ _
  | .addEvent (some _) | .tickleRead | .tickleWrite | .cancelTimer .. | .dropEvent _
  | .newFiber | .stop | .step _ | .yieldToReady _ | .yieldToHold _ | .finish ..
  | .wake _ | .listExpired .. | .drain _ | .trigger .. | .back _ => isTrue trivial

instance (s : State n) (w : Fin n) : Decidable (s.stops w) :=
  inferInstanceAs (Decidable (_ ∧ _ ∧ _ ∧ _ ∧ _))

instance (s : State n) : (a : Act n) → Decidable (Settled s a)
  | .step w => inferInstanceAs (Decidable (s.stops w →
      s.timers = [] ∧ s.pendingEventCount = 0 ∧ ∀ v, s.carries v = false))
  | .schedule .. | .scheduleBatch .. | .tickleRead | .tickleWrite | .addTimer ..
  | .cancelTimer .. | .addEvent _ | .dropEvent _ | .newFiber | .stop
  | .yieldToReady _ | .yieldToHold _ | .finish .. | .wake _ | .listExpired ..
  | .drain _ | .trigger .. | .back _ => isTrue trivial

/-- A worker runs a callback, stops and leaves. -/
def drainedRun : List (Act 1) :=
  [.schedule none (some (.cb 3)) none, .stop, .step 0, .step 0, .step 0,
    .finish 0 false, .step 0, .step 0, .step 0, .step 0, .step 0, .step 0, .step 0,
    .step 0, .step 0, .step 0, .step 0, .step 0, .step 0]

theorem drainedRun_drains : ∃ s, run step init drainedRun = some s ∧
    s.tasks = [] ∧ s.timers = [] ∧ s.pendingEventCount = 0 :=
  ⟨_, rfl, stopping_drains (by decide)
    (show Meets step (fun s a => Inside s a ∧ Settled s a) init drainedRun by decide)
    rfl (by decide)⟩

/-- Between the decrement and the `schedule` of a `READY` fiber the other worker's
test lets it stop, first for worker 1, then for worker 0; the fiber then adds a
timer and ends under worker 1, who leaves. -/
def readyUnseen : List (Act 2) :=
  [.newFiber, .schedule none (some (.fiber 0)) none, .tickleRead, .stop,
    .step 0, .step 0, .step 0,
    .step 1, .step 1, .step 1, .step 1, .step 1, .step 1,
    .yieldToReady 0, .step 0, .step 0, .step 0,
    .step 1, .step 1,
    .step 0, .step 0,
    .step 1, .step 1, .step 1,
    .step 0, .step 0, .step 0, .step 0, .step 0, .step 0,
    .yieldToReady 1, .step 1, .step 1, .step 1,
    .step 0, .step 0, .step 0, .step 0,
    .step 1, .step 1, .step 1, .step 1, .step 1,
    .addTimer (some 1) ⟨5, false⟩ true, .step 1,
    .finish 1 false, .step 1, .step 1, .step 1, .step 1, .step 1]

theorem readyUnseen_leaves_timer :
    Meets step Inside (init : State 2) readyUnseen ∧
    ∃ s, run step init readyUnseen = some s ∧
      (∀ w, (s.workers w).pc = .exited) ∧ s.timers = [⟨5, false⟩] :=
  ⟨by decide, _, rfl, by decide, rfl⟩

end Hps.Scheduler
