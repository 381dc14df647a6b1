import Hps.Scheduler.Model

/-!
# Scheduler — what a step can do

`step` read backwards: for every step that is taken, the place where the
worker stood, what it found there, and the state behind it.
-/

namespace Hps.Scheduler

variable {n : Nat}

/-! ## Updates -/

section Updates

variable (s : State n) (w v : Fin n) (x : Worker n) (pc : Pc) (f : Nat) (y : FiberState)

@[simp] theorem setWorker_workers :
    (s.setWorker w x).workers = Function.update s.workers w x := rfl

@[simp] theorem setWorker_tasks : (s.setWorker w x).tasks = s.tasks := rfl

@[simp] theorem setWorker_nodes : (s.setWorker w x).nodes = s.nodes := rfl

@[simp] theorem setWorker_fibers : (s.setWorker w x).fibers = s.fibers := rfl

@[simp] theorem setWorker_fiberCount :
    (s.setWorker w x).fiberCount = s.fiberCount := rfl

@[simp] theorem setWorker_active :
    (s.setWorker w x).activeThreadCount = s.activeThreadCount := rfl

@[simp] theorem setWorker_idle :
    (s.setWorker w x).idleThreadCount = s.idleThreadCount := rfl

@[simp] theorem setWorker_pipe : (s.setWorker w x).pipe = s.pipe := rfl

@[simp] theorem setWorker_timers : (s.setWorker w x).timers = s.timers := rfl

@[simp] theorem setWorker_pending :
    (s.setWorker w x).pendingEventCount = s.pendingEventCount := rfl

@[simp] theorem setWorker_stopping : (s.setWorker w x).stopping = s.stopping := rfl

@[simp] theorem setWorker_notifying :
    (s.setWorker w x).notifying = s.notifying := rfl

@[simp] theorem setWorker_writing : (s.setWorker w x).writing = s.writing := rfl

@[simp] theorem setFiber_workers : (s.setFiber f y).workers = s.workers := rfl

@[simp] theorem setFiber_tasks : (s.setFiber f y).tasks = s.tasks := rfl

@[simp] theorem setFiber_nodes : (s.setFiber f y).nodes = s.nodes := rfl

@[simp] theorem setFiber_fibers :
    (s.setFiber f y).fibers = Function.update s.fibers f y := rfl

@[simp] theorem setFiber_fiberCount : (s.setFiber f y).fiberCount = s.fiberCount := rfl

@[simp] theorem setFiber_active :
    (s.setFiber f y).activeThreadCount = s.activeThreadCount := rfl

@[simp] theorem setFiber_idle :
    (s.setFiber f y).idleThreadCount = s.idleThreadCount := rfl

@[simp] theorem setFiber_pipe : (s.setFiber f y).pipe = s.pipe := rfl

@[simp] theorem setFiber_timers : (s.setFiber f y).timers = s.timers := rfl

@[simp] theorem setFiber_pending :
    (s.setFiber f y).pendingEventCount = s.pendingEventCount := rfl

@[simp] theorem setFiber_stopping : (s.setFiber f y).stopping = s.stopping := rfl

@[simp] theorem setFiber_notifying : (s.setFiber f y).notifying = s.notifying := rfl

@[simp] theorem setFiber_writing : (s.setFiber f y).writing = s.writing := rfl

end Updates

/-! ## Pushes -/

/-- The nodes of the jobs, numbered from `k` on. -/
def numberFrom (k : Nat) : List (Job × Option (Fin n)) → List (Task n)
  | [] => []
  | x :: xs => ⟨k, x.1, x.2⟩ :: numberFrom (k + 1) xs

/-- The queue with the jobs behind it. -/
def State.push (s : State n) (jobs : List (Job × Option (Fin n))) : State n :=
  { s with tasks := s.tasks ++ numberFrom s.nodes jobs, nodes := s.nodes + jobs.length }

section Push

variable (s : State n)

@[simp] theorem push_workers (jobs) : (s.push jobs).workers = s.workers := rfl

@[simp] theorem push_fibers (jobs) : (s.push jobs).fibers = s.fibers := rfl

@[simp] theorem push_fiberCount (jobs) : (s.push jobs).fiberCount = s.fiberCount := rfl

@[simp] theorem push_active (jobs) :
    (s.push jobs).activeThreadCount = s.activeThreadCount := rfl

@[simp] theorem push_idle (jobs) :
    (s.push jobs).idleThreadCount = s.idleThreadCount := rfl

@[simp] theorem push_pipe (jobs) : (s.push jobs).pipe = s.pipe := rfl

@[simp] theorem push_timers (jobs) : (s.push jobs).timers = s.timers := rfl

@[simp] theorem push_pending (jobs) :
    (s.push jobs).pendingEventCount = s.pendingEventCount := rfl

@[simp] theorem push_stopping (jobs) : (s.push jobs).stopping = s.stopping := rfl

@[simp] theorem push_notifying (jobs) : (s.push jobs).notifying = s.notifying := rfl

@[simp] theorem push_writing (jobs) : (s.push jobs).writing = s.writing := rfl

theorem numberFrom_append (k : Nat) (xs ys : List (Job × Option (Fin n))) :
    numberFrom k (xs ++ ys) = numberFrom k xs ++ numberFrom (k + xs.length) ys := by
  induction xs generalizing k with
  | nil => rfl
  | cons x xs ih =>
      rw [List.cons_append, numberFrom, ih, numberFrom, List.cons_append,
        List.length_cons, Nat.add_right_comm, Nat.add_assoc]

theorem push_push (xs ys : List (Job × Option (Fin n))) :
    (s.push xs).push ys = s.push (xs ++ ys) := by
  simp only [State.push, numberFrom_append, List.append_assoc, List.length_append,
    Nat.add_assoc]

theorem push_nil : s.push [] = s := by
  simp only [State.push, numberFrom, List.append_nil]
  rfl

/-- What a `schedule` queues. -/
def queued (job : Option Job) (thread : Option (Fin n)) : List (Job × Option (Fin n)) :=
  job.toList.map fun j => (j, thread)

theorem scheduleNoLock_eq (job : Option Job) (thread : Option (Fin n)) :
    s.scheduleNoLock job thread = (s.tasks.isEmpty, s.push (queued job thread)) := by
  cases job with
  | none => rw [State.scheduleNoLock, queued, Option.toList_none, List.map_nil, push_nil]
  | some j => rfl

/-- What the `schedule` of a batch queues. -/
def queuedAll (jobs : List (Option Job)) : List (Job × Option (Fin n)) :=
  jobs.flatMap fun job => queued job none

theorem scheduleAll_snd (jobs : List (Option Job)) :
    (s.scheduleAll jobs).2 = s.push (queuedAll jobs) := by
  suffices h : ∀ (r : Bool × State n) (jobs : List (Option Job)),
      (jobs.foldl (fun r job =>
        let x := r.2.scheduleNoLock job none
        (x.1 || r.1, x.2)) r).2 = r.2.push (queuedAll jobs) from h (false, s) jobs
  intro r jobs
  induction jobs generalizing r with
  | nil => exact (push_nil r.2).symm
  | cons job jobs ih =>
      rw [List.foldl_cons, ih]
      simp only [scheduleNoLock_eq]
      rw [push_push]
      rfl

/-- A batch that puts something into an empty queue asks for a tickle. -/
theorem scheduleAll_fst {jobs : List (Option Job)} (h : s.tasks = [])
    (hj : jobs ≠ []) : (s.scheduleAll jobs).1 = true := by
  have hmono : ∀ (r : Bool × State n) (jobs : List (Option Job)), r.1 = true →
      (jobs.foldl (fun r job =>
        let x := r.2.scheduleNoLock job none
        (x.1 || r.1, x.2)) r).1 = true := by
    intro r jobs
    induction jobs generalizing r with
    | nil => exact id
    | cons job jobs ih =>
        intro hr
        rw [List.foldl_cons]
        apply ih
        simp [hr]
  cases jobs with
  | nil => exact absurd rfl hj
  | cons job jobs =>
      rw [State.scheduleAll, List.foldl_cons]
      apply hmono
      simp [State.scheduleNoLock, h]

end Push

/-! ## What a scan takes -/

/-- The worker may take the task, and its fiber is not running. -/
def allowed (w : Fin n) (fibers : Nat → FiberState) (t : Task n) : Bool :=
  (t.thread = none ∨ t.thread = some w) &&
    match t.job with
    | .fiber f => fibers f ≠ .EXEC
    | .cb _ => true

section Scan

variable {w : Fin n} {fibers : Nat → FiberState} {ts : List (Task n)} {t : Task n}

theorem scanTasks_of_allowed (h : allowed w fibers t = true) (ts : List (Task n)) :
    scanTasks w fibers (t :: ts) = (some t, ts, !ts.isEmpty) := by
  rw [allowed, Bool.and_eq_true, decide_eq_true_eq] at h
  obtain ⟨hmay, hjob⟩ := h
  have hthread : ¬(t.thread ≠ none ∧ t.thread ≠ some w) := fun ⟨hnone, hother⟩ =>
    hmay.elim hnone hother
  rw [scanTasks, if_neg hthread]
  cases hj : t.job with
  | cb c => rfl
  | fiber f =>
      rw [hj] at hjob
      exact if_neg (of_decide_eq_true hjob)

theorem scanTasks_of_not_allowed (h : ¬allowed w fibers t = true) (ts : List (Task n)) :
    (scanTasks w fibers (t :: ts)).1 = (scanTasks w fibers ts).1 ∧
      (scanTasks w fibers (t :: ts)).2.1 = t :: (scanTasks w fibers ts).2.1 := by
  rw [scanTasks]
  split_ifs with hthread
  · exact ⟨rfl, rfl⟩
  · have hmay : t.thread = none ∨ t.thread = some w := by
      by_contra hother
      exact hthread (not_or.mp hother)
    cases hj : t.job with
    | cb c => exact absurd (by simp [allowed, hmay, hj]) h
    | fiber f =>
        have hexec : fibers f = .EXEC := by
          by_contra hexec
          exact h (by simp [allowed, hmay, hj, hexec])
        simp only [if_pos hexec, and_self]

/-- **A scan takes the first task that is allowed.** -/
theorem scanTasks_fst : (scanTasks w fibers ts).1 = ts.find? (allowed w fibers) := by
  induction ts with
  | nil => rfl
  | cons t ts ih =>
      by_cases h : allowed w fibers t = true
      · rw [scanTasks_of_allowed h, List.find?_cons_of_pos h]
      · rw [(scanTasks_of_not_allowed h ts).1, List.find?_cons_of_neg h, ih]

/-- The queue loses the task that is taken, and nothing else. -/
theorem scanTasks_queue :
    (scanTasks w fibers ts).2.1 = ts.eraseP (allowed w fibers) := by
  induction ts with
  | nil => rfl
  | cons t ts ih =>
      by_cases h : allowed w fibers t = true
      · rw [scanTasks_of_allowed h, List.eraseP_cons_of_pos h]
      · rw [(scanTasks_of_not_allowed h ts).2, List.eraseP_cons_of_neg h, ih]

end Scan

/-! ## The steps -/

/-- The branches behind a scan that took nothing to run. -/
inductive Skips (s : State n) (w : Fin n) : State n → Prop
  | active (h : (s.workers w).isActive = true) :
      Skips s w ({ s with activeThreadCount := s.activeThreadCount - 1 }.goto w .scan)
  | exits (h : (s.workers w).isActive = false)
      (hidle : (s.workers w).idleFiber = .TERM) : Skips s w (s.goto w .exited)
  | idles (h : (s.workers w).isActive = false)
      (hidle : (s.workers w).idleFiber ≠ .TERM) : Skips s w (s.goto w .idleCount)

/-- A worker's steps without a choice. -/
inductive WorkerStep (s : State n) (w : Fin n) : State n → Prop
  | scan (hpc : (s.workers w).pc = .scan) :
      WorkerStep s w ({ s with
        tasks := (scanTasks w s.fibers s.tasks).2.1
        activeThreadCount :=
          if (scanTasks w s.fibers s.tasks).1.isSome then s.activeThreadCount + 1
          else s.activeThreadCount }.setWorker w
        { s.workers w with
          pc := if (scanTasks w s.fibers s.tasks).2.2 then .tickle false .select
            else .select
          task := (scanTasks w s.fibers s.tasks).1
          isActive := (scanTasks w s.fibers s.tasks).1.isSome })
  | tickleRead {next : Pc} (hpc : (s.workers w).pc = .tickle false next) :
      WorkerStep s w (s.goto w (if 0 < s.idleThreadCount then .tickle true next
        else next))
  | tickleWrite {next : Pc} (hpc : (s.workers w).pc = .tickle true next) :
      WorkerStep s w ({ s with pipe := s.pipe + 1 }.goto w next)
  | skipNone {s' : State n} (hpc : (s.workers w).pc = .select)
      (htask : (s.workers w).task = none) (h : Skips s w s') : WorkerStep s w s'
  | skipDead {s' : State n} {i f : Nat} {thread : Option (Fin n)}
      (hpc : (s.workers w).pc = .select)
      (htask : (s.workers w).task = some ⟨i, .fiber f, thread⟩)
      (hdead : (s.fibers f).dead = true) (h : Skips s w s') : WorkerStep s w s'
  | selectFiber {i f : Nat} {thread : Option (Fin n)}
      (hpc : (s.workers w).pc = .select)
      (htask : (s.workers w).task = some ⟨i, .fiber f, thread⟩)
      (hdead : (s.fibers f).dead = false) :
      WorkerStep s w (s.goto w (.call f false))
  | selectReset {i c f : Nat} {thread : Option (Fin n)}
      (hpc : (s.workers w).pc = .select)
      (htask : (s.workers w).task = some ⟨i, .cb c, thread⟩)
      (hfiber : (s.workers w).taskFiber = some f)
      (hdead : (s.fibers f).dead = true ∨ s.fibers f = .INIT) :
      WorkerStep s w ((s.setFiber f .INIT).setWorker w
        { s.workers w with pc := .call f true, task := none })
  | selectNew {i c : Nat} {thread : Option (Fin n)}
      (hpc : (s.workers w).pc = .select)
      (htask : (s.workers w).task = some ⟨i, .cb c, thread⟩)
      (hfiber : (s.workers w).taskFiber = none) :
      WorkerStep s w
        (({ s with fiberCount := s.fiberCount + 1 }.setFiber s.fiberCount .INIT).setWorker
          w { s.workers w with
            pc := .call s.fiberCount true
            task := none
            taskFiber := some s.fiberCount })
  | call {f : Nat} {own : Bool} (hpc : (s.workers w).pc = .call f own) :
      WorkerStep s w ((s.setFiber f .EXEC).goto w (.running f own))
  | leaving {f : Nat} {own : Bool} (hpc : (s.workers w).pc = .leaving f own) :
      WorkerStep s w (s.goto w (.returned f own))
  | returned {f : Nat} {own : Bool} (hpc : (s.workers w).pc = .returned f own) :
      WorkerStep s w ({ s with
        activeThreadCount := s.activeThreadCount - 1 }.goto w (.settle f own))
  | settleReady {f : Nat} {own : Bool} (hpc : (s.workers w).pc = .settle f own)
      (hready : s.fibers f = .READY) : WorkerStep s w (s.goto w (.requeue f own))
  | settleDead {f : Nat} {own : Bool} (hpc : (s.workers w).pc = .settle f own)
      (hdead : (s.fibers f).dead = true) :
      WorkerStep s w ((if own then s.setFiber f .INIT else s).setWorker w
        { s.workers w with pc := .scan, task := none })
  | settleHold {f : Nat} {own : Bool} (hpc : (s.workers w).pc = .settle f own)
      (hready : s.fibers f ≠ .READY) (hdead : (s.fibers f).dead = false) :
      WorkerStep s w (s.goto w (.hold f own))
  | hold {f : Nat} {own : Bool} (hpc : (s.workers w).pc = .hold f own) :
      WorkerStep s w ((s.setFiber f .HOLD).setWorker w
        { s.workers w with
          pc := .scan
          task := none
          taskFiber := if own then none else (s.workers w).taskFiber })
  | requeue {f : Nat} {own : Bool} (hpc : (s.workers w).pc = .requeue f own) :
      WorkerStep s w ((s.push [(.fiber f, none)]).setWorker w
        { s.workers w with
          pc := if s.tasks.isEmpty then .tickle false .scan else .scan
          task := none
          taskFiber := if own then none else (s.workers w).taskFiber })
  | idleCount (hpc : (s.workers w).pc = .idleCount) :
      WorkerStep s w ({ s with
        idleThreadCount := s.idleThreadCount + 1 }.goto w .idleCall)
  | idleCall (hpc : (s.workers w).pc = .idleCall) :
      WorkerStep s w (s.setWorker w
        { s.workers w with pc := .idleTimer, idleFiber := .EXEC })
  | idleTimer (hpc : (s.workers w).pc = .idleTimer) :
      WorkerStep s w (s.goto w (if s.timers.isEmpty then .idlePending else .waiting))
  | idlePending (hpc : (s.workers w).pc = .idlePending) :
      WorkerStep s w (s.goto w
        (if s.pendingEventCount = 0 then .idleStopping else .waiting))
  | idleStops (hpc : (s.workers w).pc = .idleStopping)
      (hstop : s.autoStop = true ∧ s.stopping = true ∧ s.tasks = [] ∧
        s.activeThreadCount = 0) :
      WorkerStep s w (s.setWorker w
        { s.workers w with pc := .idleReturn, idleFiber := .TERM })
  | idleWaits (hpc : (s.workers w).pc = .idleStopping) :
      WorkerStep s w (s.goto w .waiting)
  | expired {cbs : List Nat} (hpc : (s.workers w).pc = .expired cbs) :
      WorkerStep s w
        ((s.push (queuedAll (cbs.map fun c => some (.cb c)))).goto w
          (if (s.scheduleAll (cbs.map fun c => some (.cb c))).1 then
            .tickle false .dispatch else .dispatch))
  | triggered (hpc : (s.workers w).pc = .triggered) :
      WorkerStep s w ({ s with
        pendingEventCount := s.pendingEventCount - 1 }.goto w .dispatch)
  | idleReturn (hpc : (s.workers w).pc = .idleReturn) :
      WorkerStep s w ({ s with
        idleThreadCount := s.idleThreadCount - 1 }.setWorker w
        { s.workers w with
          pc := .scan
          idleFiber := if (s.workers w).idleFiber.dead then (s.workers w).idleFiber
            else .HOLD })

theorem skips_of_eq {s s' : State n} {w : Fin n}
    (h : (if (s.workers w).isActive then
        { s with activeThreadCount := s.activeThreadCount - 1 }.goto w .scan
      else if (s.workers w).idleFiber = .TERM then s.goto w .exited
      else s.goto w .idleCount) = s') : Skips s w s' := by
  subst h
  split_ifs with h1 h2
  · exact .active h1
  · exact .exits (by simpa using h1) h2
  · exact .idles (by simpa using h1) h2

/-- **What a worker does.** -/
theorem workerStep_cases {s s' : State n} {w : Fin n}
    (h : s.workerStep w = some s') : WorkerStep s w s' := by
  simp only [State.workerStep] at h
  split at h
  case h_1 hpc => exact Option.some.inj h ▸ .scan hpc
  case h_2 next hpc => exact Option.some.inj h ▸ .tickleRead hpc
  case h_3 next hpc => exact Option.some.inj h ▸ .tickleWrite hpc
  case h_4 hpc =>
    split at h
    case h_1 htask => exact .skipNone hpc htask (skips_of_eq (Option.some.inj h))
    case h_2 i f thread htask =>
      split at h
      case isTrue hdead =>
        exact .skipDead hpc htask hdead (skips_of_eq (Option.some.inj h))
      case isFalse hdead =>
        exact Option.some.inj h ▸ .selectFiber hpc htask (by simpa using hdead)
    case h_3 i c thread htask =>
      split at h
      case h_1 f hfiber =>
        split_ifs at h with hdead
        exact Option.some.inj h ▸ .selectReset hpc htask hfiber hdead
      case h_2 hfiber => exact Option.some.inj h ▸ .selectNew hpc htask hfiber
  case h_5 f own hpc => exact Option.some.inj h ▸ .call hpc
  case h_6 f own hpc => exact Option.some.inj h ▸ .leaving hpc
  case h_7 f own hpc => exact Option.some.inj h ▸ .returned hpc
  case h_8 f own hpc =>
    split at h
    case isTrue hready => exact Option.some.inj h ▸ .settleReady hpc hready
    case isFalse hready =>
      split at h
      case isTrue hdead => exact Option.some.inj h ▸ .settleDead hpc hdead
      case isFalse hdead =>
        exact Option.some.inj h ▸ .settleHold hpc hready (by simpa using hdead)
  case h_9 f own hpc => exact Option.some.inj h ▸ .hold hpc
  case h_10 f own hpc =>
    simp only [scheduleNoLock_eq] at h
    exact Option.some.inj h ▸ .requeue hpc
  case h_11 hpc => exact Option.some.inj h ▸ .idleCount hpc
  case h_12 hpc => exact Option.some.inj h ▸ .idleCall hpc
  case h_13 hpc => exact Option.some.inj h ▸ .idleTimer hpc
  case h_14 hpc => exact Option.some.inj h ▸ .idlePending hpc
  case h_15 hpc =>
    split_ifs at h with hstop
    · exact Option.some.inj h ▸ .idleStops hpc hstop
    · exact Option.some.inj h ▸ .idleWaits hpc
  case h_16 cbs hpc =>
    rw [scheduleAll_snd] at h
    exact Option.some.inj h ▸ .expired hpc
  case h_17 hpc => exact Option.some.inj h ▸ .triggered hpc
  case h_18 hpc => exact Option.some.inj h ▸ .idleReturn hpc
  all_goals cases h

/-! ## Calls of `tickle` -/

section Notify

variable (s : State n) (w : Option (Fin n)) (b : Bool)

/-- A call of `tickle` changes nothing of the state but who is in it. -/
theorem notify_cases :
    s.notify w b = s ∧ b = false ∨
    b = true ∧ w = none ∧ s.notify w b = { s with notifying := s.notifying + 1 } ∨
    ∃ v, b = true ∧ w = some v ∧
      s.notify w b = s.goto v (.tickle false (s.workers v).pc) := by
  cases b with
  | false => exact .inl ⟨rfl, rfl⟩
  | true =>
      cases w with
      | none => exact .inr (.inl ⟨rfl, rfl, rfl⟩)
      | some v => exact .inr (.inr ⟨v, rfl, rfl, rfl⟩)

@[simp] theorem notify_tasks : (s.notify w b).tasks = s.tasks := by
  cases b <;> cases w <;> rfl

@[simp] theorem notify_nodes : (s.notify w b).nodes = s.nodes := by
  cases b <;> cases w <;> rfl

@[simp] theorem notify_fibers : (s.notify w b).fibers = s.fibers := by
  cases b <;> cases w <;> rfl

@[simp] theorem notify_fiberCount : (s.notify w b).fiberCount = s.fiberCount := by
  cases b <;> cases w <;> rfl

@[simp] theorem notify_active :
    (s.notify w b).activeThreadCount = s.activeThreadCount := by
  cases b <;> cases w <;> rfl

@[simp] theorem notify_idle : (s.notify w b).idleThreadCount = s.idleThreadCount := by
  cases b <;> cases w <;> rfl

@[simp] theorem notify_timers : (s.notify w b).timers = s.timers := by
  cases b <;> cases w <;> rfl

@[simp] theorem notify_pending :
    (s.notify w b).pendingEventCount = s.pendingEventCount := by
  cases b <;> cases w <;> rfl

@[simp] theorem notify_stopping : (s.notify w b).stopping = s.stopping := by
  cases b <;> cases w <;> rfl

/-- The caller is a worker with a running fiber. -/
theorem calls_some {s : State n} {v : Fin n} (h : s.calls (some v) = true) :
    ∃ f own, (s.workers v).pc = .running f own := by
  rw [State.calls] at h
  split at h
  · exact ⟨_, _, ‹_›⟩
  · cases h

end Notify

/-- All steps. -/
inductive Steps (s : State n) : Act n → State n → Prop
  | schedule {w : Option (Fin n)} {job : Option Job} {thread : Option (Fin n)}
      (hc : s.calls w = true) (hk : s.known job = true) :
      Steps s (.schedule w job thread)
        ((s.push (queued job thread)).notify w s.tasks.isEmpty)
  | scheduleBatch {w : Option (Fin n)} {jobs : List (Option Job)}
      (hc : s.calls w = true) (hk : jobs.all s.known = true) :
      Steps s (.scheduleBatch w jobs)
        ((s.push (queuedAll jobs)).notify w (s.scheduleAll jobs).1)
  | tickleRead (h : s.notifying ≠ 0) :
      Steps s .tickleRead { s with
        notifying := s.notifying - 1
        writing := if 0 < s.idleThreadCount then s.writing + 1 else s.writing }
  | tickleWrite (h : s.writing ≠ 0) :
      Steps s .tickleWrite { s with writing := s.writing - 1, pipe := s.pipe + 1 }
  | addTimer {w : Option (Fin n)} {t : Timer} {front : Bool} (hc : s.calls w = true) :
      Steps s (.addTimer w t front)
        ({ s with timers := s.timers ++ [t] }.notify w front)
  | cancelTimer {w : Option (Fin n)} {i : Nat} (hc : s.calls w = true) :
      Steps s (.cancelTimer w i) { s with timers := s.timers.eraseIdx i }
  | addEvent {w : Option (Fin n)} (hc : s.calls w = true) :
      Steps s (.addEvent w) { s with pendingEventCount := s.pendingEventCount + 1 }
  | dropEvent {w : Option (Fin n)} (hc : s.calls w = true)
      (h : 0 < s.pendingEventCount) :
      Steps s (.dropEvent w) { s with pendingEventCount := s.pendingEventCount - 1 }
  | newFiber : Steps s .newFiber { s with fiberCount := s.fiberCount + 1 }
  | stop :
      Steps s .stop { s with
        autoStop := true, stopping := true, notifying := s.notifying + n }
  | worker {w : Fin n} {s' : State n} (h : WorkerStep s w s') : Steps s (.step w) s'
  | yieldToReady {w : Fin n} {f : Nat} {own : Bool}
      (hpc : (s.workers w).pc = .running f own) (hexec : s.fibers f = .EXEC) :
      Steps s (.yieldToReady w) ((s.setFiber f .READY).goto w (.leaving f own))
  | yieldToHold {w : Fin n} {f : Nat} {own : Bool}
      (hpc : (s.workers w).pc = .running f own) (hexec : s.fibers f = .EXEC) :
      Steps s (.yieldToHold w) (s.goto w (.returned f own))
  | finish {w : Fin n} {f : Nat} {own except : Bool}
      (hpc : (s.workers w).pc = .running f own) :
      Steps s (.finish w except)
        ((s.setFiber f (if except then .EXCEPT else .TERM)).goto w (.leaving f own))
  | wake {w : Fin n} (hpc : (s.workers w).pc = .waiting) :
      Steps s (.wake w) (s.goto w .expire)
  | listExpired {w : Fin n} {expired : List Bool} (hpc : (s.workers w).pc = .expire) :
      Steps s (.listExpired w expired)
        ({ s with timers := State.leftTimers s.timers expired }.goto w
          (if (State.expiredCbs s.timers expired).isEmpty then .dispatch
            else .expired (State.expiredCbs s.timers expired)))
  | drain {w : Fin n} (hpc : (s.workers w).pc = .dispatch) :
      Steps s (.drain w) { s with pipe := 0 }
  | trigger {w : Fin n} {job : Job} (hpc : (s.workers w).pc = .dispatch)
      (h : 0 < s.pendingEventCount) (hk : s.known (some job) = true) :
      Steps s (.trigger w job)
        ((s.push [(job, none)]).goto w
          (if s.tasks.isEmpty then .tickle false .triggered else .triggered))
  | back {w : Fin n} (hpc : (s.workers w).pc = .dispatch) :
      Steps s (.back w) (s.goto w .idleReturn)

/-- **What a step does.** -/
theorem step_cases {s s' : State n} {a : Act n} (h : step s a = some s') :
    Steps s a s' := by
  cases a with
  | schedule w job thread =>
      simp only [step, scheduleNoLock_eq] at h
      split at h
      · rename_i hc
        exact Option.some.inj h ▸ .schedule hc.1 hc.2
      · cases h
  | scheduleBatch w jobs =>
      simp only [step, scheduleAll_snd] at h
      split at h
      · rename_i hc
        exact Option.some.inj h ▸ .scheduleBatch hc.1 hc.2
      · cases h
  | tickleRead =>
      simp only [step] at h
      split at h
      · cases h
      · exact Option.some.inj h ▸ .tickleRead ‹_›
  | tickleWrite =>
      simp only [step] at h
      split at h
      · cases h
      · exact Option.some.inj h ▸ .tickleWrite ‹_›
  | addTimer w t front =>
      simp only [step] at h
      split at h
      · exact Option.some.inj h ▸ .addTimer ‹_›
      · cases h
  | cancelTimer w i =>
      simp only [step] at h
      split at h
      · exact Option.some.inj h ▸ .cancelTimer ‹_›
      · cases h
  | addEvent w =>
      simp only [step] at h
      split at h
      · exact Option.some.inj h ▸ .addEvent ‹_›
      · cases h
  | dropEvent w =>
      simp only [step] at h
      split at h
      · rename_i hc
        exact Option.some.inj h ▸ .dropEvent hc.1 hc.2
      · cases h
  | newFiber => exact Option.some.inj h ▸ .newFiber
  | stop => exact Option.some.inj h ▸ .stop
  | step w => exact .worker (workerStep_cases h)
  | yieldToReady w =>
      simp only [step] at h
      split at h
      · split at h
        · exact Option.some.inj h ▸ .yieldToReady ‹_› ‹_›
        · cases h
      · cases h
  | yieldToHold w =>
      simp only [step] at h
      split at h
      · split at h
        · exact Option.some.inj h ▸ .yieldToHold ‹_› ‹_›
        · cases h
      · cases h
  | finish w except =>
      simp only [step] at h
      split at h
      · exact Option.some.inj h ▸ .finish ‹_›
      · cases h
  | wake w =>
      simp only [step] at h
      split at h
      · exact Option.some.inj h ▸ .wake ‹_›
      · cases h
  | listExpired w expired =>
      simp only [step] at h
      split at h
      · exact Option.some.inj h ▸ .listExpired ‹_›
      · cases h
  | drain w =>
      simp only [step] at h
      split at h
      · exact Option.some.inj h ▸ .drain ‹_›
      · cases h
  | trigger w job =>
      simp only [step, scheduleNoLock_eq] at h
      split at h
      · split at h
        · rename_i hc
          exact Option.some.inj h ▸ .trigger ‹_› hc.1 hc.2
        · cases h
      · cases h
  | back w =>
      simp only [step] at h
      split at h
      · exact Option.some.inj h ▸ .back ‹_›
      · cases h

end Hps.Scheduler
