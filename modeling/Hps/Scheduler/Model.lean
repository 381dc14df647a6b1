import Mathlib.Algebra.Ring.Nat
import Mathlib.Logic.Function.Basic
import Hps.Lib.Run

/-!
# Scheduler — the queue, the workers and their steps

`scheduler.cc`, `fiber.cc` and the `idle` of `iomanager.cc`, as a system of
`n` workers and any number of other threads. What is done under the queue's
lock is one step, and so is every read or write of a shared variable outside
of it; a run is a list of such steps in any order.

What a fiber does while it runs is its own choice: it schedules tasks, adds
and removes timers and events, and at last yields or ends. An `ASSERT` that
fails ends the process, so that no step follows it.
-/

namespace Hps.Scheduler

/-! ## Tasks and fibers -/

/-- `Fiber::State` -/
inductive FiberState where
  | INIT | HOLD | EXEC | TERM | READY | EXCEPT
  deriving DecidableEq, Repr

/-- A fiber that has ended, or was stopped by an exception. -/
def FiberState.dead : FiberState → Bool
  | .TERM | .EXCEPT => true
  | _ => false

/-- What a task runs: a fiber, or a callback. -/
inductive Job where
  | fiber (f : Nat)
  | cb (c : Nat)
  deriving DecidableEq, Repr

/-- A node of `m_tasks`. `thread` is a worker, or `none` for -1. -/
structure Task (n : Nat) where
  id : Nat
  job : Job
  thread : Option (Fin n)
  deriving DecidableEq

/-- A pending timer of the `TimerManager`. -/
structure Timer where
  cb : Nat
  recurring : Bool
  deriving DecidableEq, Repr

/-! ## Workers -/

/-- Where a worker stands. `own` says that the fiber is the worker's own
`task_fiber`, which runs callbacks. -/
inductive Pc where
  /-- At the head of the loop of `run`. -/
  | scan
  /-- In `tickle`, before it reads the idle count or writes to the pipe. -/
  | tickle (write : Bool) (next : Pc)
  /-- Behind the scan, before the branches. -/
  | select
  | call (f : Nat) (own : Bool)
  | running (f : Nat) (own : Bool)
  /-- The fiber has set its state and not switched back yet. -/
  | leaving (f : Nat) (own : Bool)
  /-- `call` has returned, the active count is to be decremented. -/
  | returned (f : Nat) (own : Bool)
  /-- The fiber's state is to be looked at. -/
  | settle (f : Nat) (own : Bool)
  /-- The fiber's state is to be set to `HOLD`. -/
  | hold (f : Nat) (own : Bool)
  /-- The fiber is to be scheduled again. -/
  | requeue (f : Nat) (own : Bool)
  /-- The idle count is to be incremented. -/
  | idleCount
  | idleCall
  /-- In `IOManager::stopping`, before `getNextTimer`. -/
  | idleTimer
  /-- Before the read of `m_pendingEventCount`. -/
  | idlePending
  /-- Before `Scheduler::stopping`. -/
  | idleStopping
  /-- In `epoll_wait`. -/
  | waiting
  /-- Before `listExpiredCb`. -/
  | expire
  /-- With callbacks that are to be scheduled. -/
  | expired (cbs : List Nat)
  /-- With the events that `epoll_wait` returned. -/
  | dispatch
  /-- Behind the `schedule` of `triggerEvent`. -/
  | triggered
  /-- The idle count is to be decremented. -/
  | idleReturn
  | exited
  deriving DecidableEq

structure Worker (n : Nat) where
  pc : Pc := .scan
  task : Option (Task n) := none
  isActive : Bool := false
  taskFiber : Option Nat := none
  idleFiber : FiberState := .INIT
  deriving DecidableEq

structure State (n : Nat) where
  tasks : List (Task n) := []
  /-- The nodes made so far. -/
  nodes : Nat := 0
  fibers : Nat → FiberState := fun _ => .INIT
  /-- The fibers made so far. -/
  fiberCount : Nat := 0
  activeThreadCount : Int := 0
  idleThreadCount : Int := 0
  /-- The unread bytes of the tickle pipe. -/
  pipe : Nat := 0
  timers : List Timer := []
  pendingEventCount : Nat := 0
  autoStop : Bool := false
  stopping : Bool := false
  /-- Other threads in `tickle`, before they read the idle count. -/
  notifying : Nat := 0
  /-- Other threads in `tickle`, before they write to the pipe. -/
  writing : Nat := 0
  workers : Fin n → Worker n := fun _ => {}

variable {n : Nat}

namespace State

def setWorker (s : State n) (w : Fin n) (x : Worker n) : State n :=
  { s with workers := Function.update s.workers w x }

/-- The worker goes on at `pc`. -/
def goto (s : State n) (w : Fin n) (pc : Pc) : State n :=
  s.setWorker w { s.workers w with pc }

def setFiber (s : State n) (f : Nat) (x : FiberState) : State n :=
  { s with fibers := Function.update s.fibers f x }

/-! ## The queue -/

/-- `scheduleNoLock`: whether the queue was empty, and the state. An empty
pointer or function is not queued. -/
def scheduleNoLock (s : State n) (job : Option Job) (thread : Option (Fin n)) :
    Bool × State n :=
  (s.tasks.isEmpty,
    match job with
    | none => s
    | some job =>
        { s with tasks := s.tasks ++ [⟨s.nodes, job, thread⟩], nodes := s.nodes + 1 })

/-- `schedule(begin, end)` under the lock. -/
def scheduleAll (s : State n) (jobs : List (Option Job)) : Bool × State n :=
  jobs.foldl (fun r job =>
    let x := r.2.scheduleNoLock job none
    (x.1 || r.1, x.2)) (false, s)

end State

/-- The loop of `run` over the queue: the task taken, the queue without it,
and `tickle_me`. -/
def scanTasks (w : Fin n) (fibers : Nat → FiberState) :
    List (Task n) → Option (Task n) × List (Task n) × Bool
  | [] => (none, [], false)
  | t :: ts =>
      if t.thread ≠ none ∧ t.thread ≠ some w then
        let r := scanTasks w fibers ts
        (r.1, t :: r.2.1, true)
      else
        match t.job with
        | .fiber f =>
            if fibers f = .EXEC then
              let r := scanTasks w fibers ts
              (r.1, t :: r.2.1, r.2.2)
            else (some t, ts, !ts.isEmpty)
        | .cb _ => (some t, ts, !ts.isEmpty)

/-! ## Steps -/

inductive Act (n : Nat) where
  /-- A fiber that runs on `w`, or another thread, schedules a task. -/
  | schedule (w : Option (Fin n)) (job : Option Job) (thread : Option (Fin n))
  | scheduleBatch (w : Option (Fin n)) (jobs : List (Option Job))
  /-- Another thread goes on in its `tickle`. -/
  | tickleRead
  | tickleWrite
  /-- `front` says that the timer became the first one. -/
  | addTimer (w : Option (Fin n)) (t : Timer) (front : Bool)
  | cancelTimer (w : Option (Fin n)) (i : Nat)
  /-- `addEvent`, and the decrement of `delEvent` and `cancelEvent`. -/
  | addEvent (w : Option (Fin n))
  | dropEvent (w : Option (Fin n))
  | newFiber
  /-- `stop()` sets its two flags and tickles the workers. -/
  | stop
  /-- The worker takes its next step, if it has no choice. -/
  | step (w : Fin n)
  | yieldToReady (w : Fin n)
  | yieldToHold (w : Fin n)
  | finish (w : Fin n) (except : Bool)
  /-- `epoll_wait` returns. -/
  | wake (w : Fin n)
  /-- `listExpiredCb`; the list says of every timer whether it has expired. -/
  | listExpired (w : Fin n) (expired : List Bool)
  /-- The next event is the pipe, or one of a descriptor; or there is none. -/
  | drain (w : Fin n)
  | trigger (w : Fin n) (job : Job)
  | back (w : Fin n)
  deriving DecidableEq

namespace State

/-- Behind a `schedule` that found the queue empty there is a `tickle`. -/
def notify (s : State n) (w : Option (Fin n)) (needTickle : Bool) : State n :=
  if needTickle then
    match w with
    | none => { s with notifying := s.notifying + 1 }
    | some w => s.goto w (.tickle false (s.workers w).pc)
  else s

/-- Whether the caller is there: another thread, or a worker with a running
fiber. -/
def calls (s : State n) : Option (Fin n) → Bool
  | none => true
  | some w =>
      match (s.workers w).pc with
      | .running _ _ => true
      | _ => false

/-- The job is one that can be scheduled: a fiber that has been made. -/
def known (s : State n) : Option Job → Bool
  | some (.fiber f) => f < s.fiberCount
  | _ => true

/-- The callbacks of the timers that have expired. -/
def expiredCbs : List Timer → List Bool → List Nat
  | t :: ts, e :: es => if e then t.cb :: expiredCbs ts es else expiredCbs ts es
  | _, _ => []

/-- The timers that stay: those that have not expired, and the recurring
ones. -/
def leftTimers : List Timer → List Bool → List Timer
  | t :: ts, e :: es =>
      if e && !t.recurring then leftTimers ts es else t :: leftTimers ts es
  | ts, _ => ts

/-- The next step of a worker that has no choice. -/
def workerStep (s : State n) (w : Fin n) : Option (State n) :=
  let x := s.workers w
  match x.pc with
  | .scan =>
      let r := scanTasks w s.fibers s.tasks
      let active := if r.1.isSome then s.activeThreadCount + 1 else s.activeThreadCount
      let pc := if r.2.2 then .tickle false .select else .select
      some ({ s with tasks := r.2.1, activeThreadCount := active }.setWorker w
        { x with pc, task := r.1, isActive := r.1.isSome })
  | .tickle false next =>
      some (s.goto w (if 0 < s.idleThreadCount then .tickle true next else next))
  | .tickle true next => some ({ s with pipe := s.pipe + 1 }.goto w next)
  | .select =>
      let other : State n :=
        if x.isActive then
          { s with activeThreadCount := s.activeThreadCount - 1 }.goto w .scan
        else if x.idleFiber = .TERM then s.goto w .exited
        else s.goto w .idleCount
      match x.task with
      | none => some other
      | some ⟨_, .fiber f, _⟩ =>
          if (s.fibers f).dead then some other
          else some (s.goto w (.call f false))
      | some ⟨_, .cb _, _⟩ =>
          match x.taskFiber with
          | some f =>
              -- `reset` asserts that the fiber has ended or not begun
              if (s.fibers f).dead ∨ s.fibers f = .INIT then
                some ((s.setFiber f .INIT).setWorker w
                  { x with pc := .call f true, task := none })
              else none
          | none =>
              let f := s.fiberCount
              some (({ s with fiberCount := f + 1 }.setFiber f .INIT).setWorker w
                { x with pc := .call f true, task := none, taskFiber := some f })
  | .call f own => some ((s.setFiber f .EXEC).goto w (.running f own))
  | .leaving f own => some (s.goto w (.returned f own))
  | .returned f own =>
      some ({ s with activeThreadCount := s.activeThreadCount - 1 }.goto w
        (.settle f own))
  | .settle f own =>
      if s.fibers f = .READY then some (s.goto w (.requeue f own))
      else if (s.fibers f).dead then
        some ((if own then s.setFiber f .INIT else s).setWorker w
          { x with pc := .scan, task := none })
      else some (s.goto w (.hold f own))
  | .hold f own =>
      some ((s.setFiber f .HOLD).setWorker w
        { x with
          pc := .scan
          task := none
          taskFiber := if own then none else x.taskFiber })
  | .requeue f own =>
      let r := s.scheduleNoLock (some (.fiber f)) none
      some (r.2.setWorker w
        { x with
          pc := if r.1 then .tickle false .scan else .scan
          task := none
          taskFiber := if own then none else x.taskFiber })
  | .idleCount =>
      some ({ s with idleThreadCount := s.idleThreadCount + 1 }.goto w .idleCall)
  | .idleCall => some (s.setWorker w { x with pc := .idleTimer, idleFiber := .EXEC })
  | .idleTimer => some (s.goto w (if s.timers.isEmpty then .idlePending else .waiting))
  | .idlePending =>
      some (s.goto w (if s.pendingEventCount = 0 then .idleStopping else .waiting))
  | .idleStopping =>
      if s.autoStop ∧ s.stopping ∧ s.tasks = [] ∧ s.activeThreadCount = 0 then
        some (s.setWorker w { x with pc := .idleReturn, idleFiber := .TERM })
      else some (s.goto w .waiting)
  | .expired cbs =>
      let r := s.scheduleAll (cbs.map fun c => some (.cb c))
      some (r.2.goto w (if r.1 then .tickle false .dispatch else .dispatch))
  | .triggered =>
      some ({ s with pendingEventCount := s.pendingEventCount - 1 }.goto w .dispatch)
  | .idleReturn =>
      some ({ s with idleThreadCount := s.idleThreadCount - 1 }.setWorker w
        { x with
          pc := .scan
          idleFiber := if x.idleFiber.dead then x.idleFiber else .HOLD })
  | .running _ _ | .waiting | .expire | .dispatch | .exited => none

end State

open State in
/-- One step of a run. -/
def step (s : State n) : Act n → Option (State n)
  | .schedule w job thread =>
      if s.calls w ∧ s.known job then
        let r := s.scheduleNoLock job thread
        some (r.2.notify w r.1)
      else none
  | .scheduleBatch w jobs =>
      if s.calls w ∧ jobs.all s.known then
        let r := s.scheduleAll jobs
        some (r.2.notify w r.1)
      else none
  | .tickleRead =>
      if s.notifying = 0 then none
      else
        some { s with
          notifying := s.notifying - 1
          writing := if 0 < s.idleThreadCount then s.writing + 1 else s.writing }
  | .tickleWrite =>
      if s.writing = 0 then none
      else some { s with writing := s.writing - 1, pipe := s.pipe + 1 }
  | .addTimer w t front =>
      if s.calls w then some ({ s with timers := s.timers ++ [t] }.notify w front)
      else none
  | .cancelTimer w i =>
      if s.calls w then some { s with timers := s.timers.eraseIdx i } else none
  | .addEvent w =>
      if s.calls w then some { s with pendingEventCount := s.pendingEventCount + 1 }
      else none
  | .dropEvent w =>
      if s.calls w ∧ 0 < s.pendingEventCount then
        some { s with pendingEventCount := s.pendingEventCount - 1 }
      else none
  | .newFiber => some { s with fiberCount := s.fiberCount + 1 }
  | .stop =>
      some { s with autoStop := true, stopping := true, notifying := s.notifying + n }
  | .step w => s.workerStep w
  | .yieldToReady w =>
      match (s.workers w).pc with
      | .running f own =>
          if s.fibers f = .EXEC then
            some ((s.setFiber f .READY).goto w (.leaving f own))
          else none
      | _ => none
  | .yieldToHold w =>
      match (s.workers w).pc with
      | .running f own =>
          if s.fibers f = .EXEC then some (s.goto w (.returned f own)) else none
      | _ => none
  | .finish w except =>
      match (s.workers w).pc with
      | .running f own =>
          some ((s.setFiber f (if except then .EXCEPT else .TERM)).goto w
            (.leaving f own))
      | _ => none
  | .wake w =>
      match (s.workers w).pc with
      | .waiting => some (s.goto w .expire)
      | _ => none
  | .listExpired w expired =>
      match (s.workers w).pc with
      | .expire =>
          let cbs := expiredCbs s.timers expired
          let s := { s with timers := leftTimers s.timers expired }
          some (s.goto w (if cbs.isEmpty then .dispatch else .expired cbs))
      | _ => none
  | .drain w =>
      match (s.workers w).pc with
      | .dispatch => some { s with pipe := 0 }
      | _ => none
  | .trigger w job =>
      match (s.workers w).pc with
      | .dispatch =>
          if 0 < s.pendingEventCount ∧ s.known (some job) then
            let r := s.scheduleNoLock (some job) none
            some (r.2.goto w (if r.1 then .tickle false .triggered else .triggered))
          else none
      | _ => none
  | .back w =>
      match (s.workers w).pc with
      | .dispatch => some (s.goto w .idleReturn)
      | _ => none

/-- Behind the constructor, and `start()`. -/
def init : State n := {}

/-! ## Small systems -/

scoped instance oneWorker : NeZero 1 := ⟨Nat.succ_ne_zero 0⟩

scoped instance twoWorkers : NeZero 2 := ⟨Nat.succ_ne_zero 1⟩

end Hps.Scheduler
