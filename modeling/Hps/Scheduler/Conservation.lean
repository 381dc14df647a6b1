import Mathlib.Data.List.Perm.Basic
import Hps.Lib.Count
import Hps.Scheduler.Steps

/-!
# Scheduler — no task is lost

Every task that is scheduled stays in the queue until the one scan that takes
it, and the active count is the number of workers between that scan and their
decrement (`tasks_conserved`). A run is told by its events on the queue: what
is pushed, what is taken and by whom, and who decrements.
-/

namespace Hps.Scheduler

open Hps.Lib

variable {n : Nat}

/-! ## Events of a run -/

/-- What a step does to the queue and to the active count. -/
inductive Event (n : Nat) where
  | pushed (t : Task n)
  | taken (w : Fin n) (t : Task n)
  | released (w : Fin n)
  deriving DecidableEq

def pushes (s : State n) (jobs : List (Job × Option (Fin n))) : List (Event n) :=
  (numberFrom s.nodes jobs).map .pushed

def workerEvents (s : State n) (w : Fin n) : List (Event n) :=
  match (s.workers w).pc with
  | .scan => (scanTasks w s.fibers s.tasks).1.toList.map (.taken w)
  | .select =>
      match (s.workers w).task with
      | some ⟨_, .cb _, _⟩ => []
      | some ⟨_, .fiber f, _⟩ =>
          if (s.fibers f).dead ∧ (s.workers w).isActive then [.released w] else []
      | none => if (s.workers w).isActive then [.released w] else []
  | .returned _ _ => [.released w]
  | .requeue f _ => pushes s [(.fiber f, none)]
  | .expired cbs => pushes s (queuedAll (cbs.map fun c => some (.cb c)))
  | _ => []

def events (s : State n) : Act n → List (Event n)
  | .schedule _ job thread => pushes s (queued job thread)
  | .scheduleBatch _ jobs => pushes s (queuedAll jobs)
  | .trigger _ job => pushes s [(job, none)]
  | .step w => workerEvents s w
  | _ => []

/-- The events of a run, the first one in front. -/
def trace : State n → List (Act n) → List (Event n)
  | _, [] => []
  | s, a :: as =>
      match step s a with
      | some s' => events s a ++ trace s' as
      | none => []

def pushedTasks (tr : List (Event n)) : List (Task n) :=
  tr.filterMap fun
    | .pushed t => some t
    | _ => none

def takenTasks (tr : List (Event n)) : List (Task n) :=
  tr.filterMap fun
    | .taken _ t => some t
    | _ => none

/-- Who has taken a task and not decremented since. -/
def owing : List (Event n) → (Fin n → Bool) → Fin n → Bool
  | [], r => r
  | .pushed _ :: tr, r => owing tr r
  | .taken w _ :: tr, r => owing tr (Function.update r w true)
  | .released w :: tr, r => owing tr (Function.update r w false)

/-! ## Where a worker owes a decrement -/

def Pc.owes (isActive : Bool) : Pc → Bool
  | .tickle _ next => next.owes isActive
  | .select => isActive
  | .call _ _ | .running _ _ | .leaving _ _ | .returned _ _ => true
  | _ => false

def Worker.owes (x : Worker n) : Bool := x.pc.owes x.isActive

def State.owes (s : State n) (w : Fin n) : Bool := (s.workers w).owes

@[simp] theorem owes_setWorker (s : State n) (w : Fin n) (x : Worker n) :
    (s.setWorker w x).owes = Function.update s.owes w x.owes := by
  funext v
  by_cases h : v = w
  · subst h
    simp [State.owes]
  · simp [State.owes, h]

@[simp] theorem owes_goto (s : State n) (w : Fin n) (pc : Pc) :
    (s.goto w pc).owes = Function.update s.owes w (pc.owes (s.workers w).isActive) :=
  owes_setWorker s w _

theorem owes_notify (s : State n) (w : Option (Fin n)) (b : Bool) :
    (s.notify w b).owes = s.owes := by
  rcases notify_cases s w b with ⟨h, -⟩ | ⟨-, -, h⟩ | ⟨v, -, -, h⟩
  · rw [h]
  · rw [h]
    rfl
  · rw [h, owes_goto]
    exact Function.update_eq_self v s.owes

/-! ## What a step changes -/

/-- The queue, the nodes, the count and the workers' debts behind a step with
these events. -/
inductive Change (s s' : State n) : List (Event n) → Prop
  | pushes {jobs : List (Job × Option (Fin n))}
      (tasks : s'.tasks = s.tasks ++ numberFrom s.nodes jobs)
      (nodes : s'.nodes = s.nodes + jobs.length)
      (active : s'.activeThreadCount = s.activeThreadCount)
      (owes : s'.owes = s.owes) : Change s s' (pushes s jobs)
  | takes {w : Fin n} {t : Task n}
      (first : s.tasks.find? (allowed w s.fibers) = some t)
      (tasks : s'.tasks = s.tasks.eraseP (allowed w s.fibers))
      (nodes : s'.nodes = s.nodes)
      (active : s'.activeThreadCount = s.activeThreadCount + 1)
      (owes : s'.owes = Function.update s.owes w true)
      (free : s.owes w = false) : Change s s' [.taken w t]
  | releases {w : Fin n} (tasks : s'.tasks = s.tasks) (nodes : s'.nodes = s.nodes)
      (active : s'.activeThreadCount = s.activeThreadCount - 1)
      (owes : s'.owes = Function.update s.owes w false)
      (owed : s.owes w = true) : Change s s' [.released w]

theorem Change.still {s s' : State n} (tasks : s'.tasks = s.tasks)
    (nodes : s'.nodes = s.nodes)
    (active : s'.activeThreadCount = s.activeThreadCount) (owes : s'.owes = s.owes) :
    Change s s' [] := by
  have h : Change s s' (Scheduler.pushes s []) :=
    .pushes (by rw [tasks, numberFrom, List.append_nil]) nodes active owes
  exact h

theorem owes_keep {s : State n} {w : Fin n} {b : Bool} (h : s.owes w = b) :
    Function.update s.owes w b = s.owes := by
  subst h
  exact Function.update_eq_self w s.owes

/-- A scan either takes the first allowed task, or leaves everything. -/
theorem scan_change {s : State n} {w : Fin n} (hpc : (s.workers w).pc = .scan)
    {s' : State n} (h : WorkerStep s w s') : Change s s' (workerEvents s w) := by
  have hfree : s.owes w = false := by simp [State.owes, Worker.owes, hpc, Pc.owes]
  cases h
  case scan =>
    have hev : workerEvents s w =
        (s.tasks.find? (allowed w s.fibers)).toList.map (.taken w) := by
      rw [workerEvents, hpc]
      simp only [scanTasks_fst]
    have howes : ∀ (b : Bool) (pc : Pc),
        pc = (if b then .tickle false .select else .select) →
        pc.owes (scanTasks w s.fibers s.tasks).1.isSome =
          (scanTasks w s.fibers s.tasks).1.isSome := by
      intro b pc hb
      subst hb
      cases b <;> rfl
    rw [hev]
    cases hf : s.tasks.find? (allowed w s.fibers) with
    | none =>
        have hnone : (scanTasks w s.fibers s.tasks).1 = none := scanTasks_fst.trans hf
        have hkeep : (scanTasks w s.fibers s.tasks).2.1 = s.tasks := by
          rw [scanTasks_queue]
          exact List.eraseP_of_forall_not fun t ht => by
            simpa using List.find?_eq_none.mp hf t ht
        refine .still hkeep rfl ?_ ?_
        · simp [hnone]
        · rw [owes_setWorker]
          refine owes_keep (hfree.trans ?_)
          exact ((howes _ _ rfl).trans (by rw [hnone]; rfl)).symm
    | some t =>
        have hsome : (scanTasks w s.fibers s.tasks).1 = some t := scanTasks_fst.trans hf
        refine .takes hf scanTasks_queue rfl ?_ ?_ hfree
        · simp [hsome]
        · rw [owes_setWorker]
          refine congrArg (Function.update s.owes w) ?_
          exact (howes _ _ rfl).trans (by rw [hsome]; rfl)
  all_goals simp_all

/-- Behind a scan with nothing to run, a worker that took a task decrements. -/
theorem skips_change {s s' : State n} {w : Fin n} (hpc : (s.workers w).pc = .select)
    (h : Skips s w s') :
    Change s s' (if (s.workers w).isActive then [.released w] else []) := by
  have howes : s.owes w = (s.workers w).isActive := by
    simp [State.owes, Worker.owes, hpc, Pc.owes]
  cases h with
  | active hactive =>
      rw [hactive] at howes ⊢
      exact .releases rfl rfl rfl (owes_goto _ _ _) howes
  | exits hactive =>
      rw [hactive] at howes ⊢
      refine .still rfl rfl rfl ?_
      rw [owes_goto]
      exact owes_keep howes
  | idles hactive =>
      rw [hactive] at howes ⊢
      refine .still rfl rfl rfl ?_
      rw [owes_goto]
      exact owes_keep howes

/-- Behind a scan, `is_active` says whether a task was taken. -/
def Pc.selects : Pc → Bool
  | .tickle _ next => next.selects
  | .select => true
  | _ => false

def Scanned (x : Worker n) : Prop := x.pc.selects = true → x.isActive = x.task.isSome

theorem scanned_update {f : Fin n → Worker n} {w : Fin n} {x : Worker n}
    (hs : ∀ v, Scanned (f v)) (hx : Scanned x) :
    ∀ v, Scanned (Function.update f w x v) :=
  (Function.forall_update_iff f fun _ => Scanned).mpr ⟨hx, fun v _ => hs v⟩

theorem scanned_away {x : Worker n} (h : x.pc.selects = false) : Scanned x :=
  fun hs => by simp [h] at hs

theorem worker_scanned {s s' : State n} {w : Fin n} (h : WorkerStep s w s')
    (hs : ∀ v, Scanned (s.workers v)) : ∀ v, Scanned (s'.workers v) := by
  have hw := hs w
  cases h with
  | scan => exact scanned_update hs fun _ => rfl
  | tickleRead hpc =>
      refine scanned_update hs ?_
      rw [Scanned, hpc] at hw
      intro hsel
      apply hw
      split at hsel
      · exact hsel
      · exact hsel
  | tickleWrite hpc =>
      refine scanned_update hs ?_
      rw [Scanned, hpc] at hw
      exact hw
  | skipNone _ _ hskip | skipDead _ _ _ hskip =>
      cases hskip <;> exact scanned_update hs (scanned_away rfl)
  | settleDead =>
      split <;> exact scanned_update hs (scanned_away rfl)
  | requeue | idleTimer | idlePending | expired =>
      refine scanned_update hs (scanned_away ?_)
      simp only
      split <;> rfl
  | _ => exact scanned_update hs (scanned_away rfl)

theorem worker_change {s s' : State n} {w : Fin n} (h : WorkerStep s w s')
    (hs : Scanned (s.workers w)) : Change s s' (workerEvents s w) := by
  have howes : s.owes w = (s.workers w).pc.owes (s.workers w).isActive := rfl
  cases h with
  | scan hpc => exact scan_change hpc (.scan hpc)
  | skipNone hpc htask hskip =>
      have := skips_change hpc hskip
      simpa [workerEvents, hpc, htask] using this
  | skipDead hpc htask hdead hskip =>
      have := skips_change hpc hskip
      simpa [workerEvents, hpc, htask, hdead] using this
  | selectFiber hpc htask hdead =>
      have hev : workerEvents s w = [] := by simp [workerEvents, hpc, htask, hdead]
      have hactive := hs (by rw [hpc]; rfl)
      rw [hpc] at howes
      rw [hev]
      refine .still rfl rfl rfl ?_
      rw [owes_goto]
      exact owes_keep (howes.trans (hactive.trans (by rw [htask]; rfl)))
  | selectReset hpc htask =>
      have hev : workerEvents s w = [] := by simp [workerEvents, hpc, htask]
      have hactive := hs (by rw [hpc]; rfl)
      rw [hpc] at howes
      rw [hev]
      refine .still rfl rfl rfl ?_
      rw [owes_setWorker]
      exact owes_keep (howes.trans (hactive.trans (by rw [htask]; rfl)))
  | selectNew hpc htask =>
      have hev : workerEvents s w = [] := by simp [workerEvents, hpc, htask]
      have hactive := hs (by rw [hpc]; rfl)
      rw [hpc] at howes
      rw [hev]
      refine .still rfl rfl rfl ?_
      rw [owes_setWorker]
      exact owes_keep (howes.trans (hactive.trans (by rw [htask]; rfl)))
  | returned hpc =>
      rw [hpc] at howes
      rw [workerEvents, hpc]
      exact .releases rfl rfl rfl (owes_goto _ _ _) howes
  | requeue hpc =>
      rw [hpc] at howes
      rw [workerEvents, hpc]
      refine .pushes rfl rfl rfl ?_
      rw [owes_setWorker]
      refine owes_keep (howes.trans ?_)
      split <;> rfl
  | expired hpc =>
      rw [hpc] at howes
      rw [workerEvents, hpc]
      refine .pushes rfl rfl rfl ?_
      rw [owes_goto]
      refine owes_keep (howes.trans ?_)
      split <;> rfl
  | settleDead hpc =>
      rw [hpc] at howes
      rw [workerEvents, hpc]
      split <;> exact .still rfl rfl rfl ((owes_setWorker _ _ _).trans (owes_keep howes))
  | tickleRead hpc | idleTimer hpc | idlePending hpc =>
      rw [hpc] at howes
      rw [workerEvents, hpc]
      refine .still rfl rfl rfl ?_
      rw [owes_goto]
      refine owes_keep (howes.trans ?_)
      split <;> rfl
  | call hpc | leaving hpc | settleReady hpc | settleHold hpc | hold hpc | idleCount hpc
  | idleCall hpc | tickleWrite hpc | idleStops hpc | idleWaits hpc | triggered hpc
  | idleReturn hpc =>
      rw [hpc] at howes
      rw [workerEvents, hpc]
      exact .still rfl rfl rfl ((owes_setWorker _ _ _).trans (owes_keep howes))

theorem scanned_notify {s : State n} (w : Option (Fin n)) (b : Bool)
    (hc : s.calls w = true) (hs : ∀ v, Scanned (s.workers v)) :
    ∀ v, Scanned ((s.notify w b).workers v) := by
  rcases notify_cases s w b with ⟨h, -⟩ | ⟨-, -, h⟩ | ⟨v, -, hw, h⟩
  · rw [h]
    exact hs
  · rw [h]
    exact hs
  · subst hw
    obtain ⟨f, own, hpc⟩ := calls_some hc
    rw [h]
    exact scanned_update hs (scanned_away (by rw [hpc]; rfl))

theorem step_scanned {s s' : State n} {a : Act n} (h : step s a = some s')
    (hs : ∀ v, Scanned (s.workers v)) : ∀ v, Scanned (s'.workers v) := by
  cases step_cases h with
  | worker h => exact worker_scanned h hs
  | schedule hc | scheduleBatch hc | addTimer hc => exact scanned_notify _ _ hc hs
  | tickleRead | tickleWrite | cancelTimer | addEvent | dropEvent | newFiber | stop
  | drain => exact hs
  | yieldToReady | yieldToHold | finish | wake | back =>
      exact scanned_update hs (scanned_away rfl)
  | listExpired | trigger =>
      refine scanned_update hs (scanned_away ?_)
      simp only
      split <;> rfl

theorem notify_change (s : State n) (jobs : List (Job × Option (Fin n)))
    (w : Option (Fin n)) (b : Bool) :
    Change s ((s.push jobs).notify w b) (pushes s jobs) :=
  .pushes ((notify_tasks _ w b).trans rfl) ((notify_nodes _ w b).trans rfl)
    ((notify_active _ w b).trans rfl) ((owes_notify _ w b).trans rfl)

theorem step_change {s s' : State n} {a : Act n} (h : step s a = some s')
    (hs : ∀ v, Scanned (s.workers v)) : Change s s' (events s a) := by
  have howes : ∀ w, s.owes w = (s.workers w).pc.owes (s.workers w).isActive :=
    fun w => rfl
  cases step_cases h with
  | worker h => exact worker_change h (hs _)
  | schedule | scheduleBatch => exact notify_change s _ _ _
  | addTimer =>
      exact .still (notify_tasks _ _ _) (notify_nodes _ _ _) (notify_active _ _ _)
        (owes_notify _ _ _)
  | trigger hpc =>
      refine .pushes rfl rfl rfl ?_
      rw [owes_goto]
      refine owes_keep ((howes _).trans ?_)
      rw [hpc]
      split <;> rfl
  | listExpired hpc =>
      refine .still rfl rfl rfl ?_
      rw [owes_goto]
      refine owes_keep ((howes _).trans ?_)
      rw [hpc]
      split <;> rfl
  | tickleRead | tickleWrite | cancelTimer | addEvent | dropEvent | newFiber | stop
  | drain => exact .still rfl rfl rfl rfl
  | yieldToReady hpc | yieldToHold hpc | finish hpc | wake hpc | back hpc =>
      refine .still rfl rfl rfl ((owes_setWorker _ _ _).trans (owes_keep ?_))
      exact (howes _).trans (by rw [hpc]; rfl)

/-- The active count is the number of workers that owe a decrement. -/
def Counts (s : State n) : Prop := s.activeThreadCount = countWhere id s.owes

theorem Change.counts {s s' : State n} {evs : List (Event n)} (h : Change s s' evs)
    (hc : Counts s) : Counts s' := by
  rw [Counts] at hc ⊢
  cases h with
  | pushes tasks nodes active owes => rw [active, owes, hc]
  | @takes w t first tasks nodes active owes free =>
      have hcount := countWhere_update id s.owes w true
      simp only [id_eq, free, Bool.toNat_false, Bool.toNat_true] at hcount
      rw [active, owes, hc]
      omega
  | @releases w tasks nodes active owes owed =>
      have hcount := countWhere_update id s.owes w false
      simp only [id_eq, owed, Bool.toNat_false, Bool.toNat_true] at hcount
      rw [active, owes, hc]
      omega

theorem counts_init : Counts (init : State n) := by
  rw [Counts, countWhere_eq_zero_iff.mpr fun _ => rfl]
  rfl

/-! ## Runs -/

/-- **What a run has done to its tasks.** -/
structure Conserved (tr : List (Event n)) (s : State n) : Prop where
  /-- A task that was pushed is in the queue, or was taken; and never twice. -/
  tasks : (s.tasks ++ takenTasks tr).Perm (pushedTasks tr)
  ids : (pushedTasks tr).map Task.id = List.range s.nodes
  /-- The queue is in the order of the pushes. -/
  order : s.tasks.Pairwise fun t u => t.id < u.id
  thread : ∀ w t, .taken w t ∈ tr → t.thread = none ∨ t.thread = some w
  owes : owing tr (fun _ => false) = s.owes
  active : s.activeThreadCount = countWhere id (owing tr fun _ => false)

theorem numberFrom_ids (k : Nat) (jobs : List (Job × Option (Fin n))) :
    (numberFrom k jobs).map Task.id = List.range' k jobs.length := by
  induction jobs generalizing k with
  | nil => rfl
  | cons x jobs ih =>
      rw [numberFrom, List.map_cons, ih, List.length_cons, List.range'_succ]

theorem pushedTasks_append (tr evs : List (Event n)) :
    pushedTasks (tr ++ evs) = pushedTasks tr ++ pushedTasks evs := List.filterMap_append

theorem takenTasks_append (tr evs : List (Event n)) :
    takenTasks (tr ++ evs) = takenTasks tr ++ takenTasks evs := List.filterMap_append

theorem owing_append (tr evs : List (Event n)) (r : Fin n → Bool) :
    owing (tr ++ evs) r = owing evs (owing tr r) := by
  induction tr generalizing r with
  | nil => rfl
  | cons e tr ih => cases e <;> exact ih _

section Pushes

variable (s : State n) (jobs : List (Job × Option (Fin n)))

theorem pushedTasks_pushes : pushedTasks (pushes s jobs) = numberFrom s.nodes jobs := by
  rw [pushedTasks, pushes, List.filterMap_map]
  exact List.filterMap_some

theorem takenTasks_pushes : takenTasks (pushes s jobs) = [] := by
  rw [takenTasks, pushes, List.filterMap_map]
  exact List.filterMap_eq_nil_iff.mpr fun _ _ => rfl

theorem owing_pushes (r : Fin n → Bool) : owing (pushes s jobs) r = r := by
  rw [pushes]
  induction numberFrom s.nodes jobs with
  | nil => rfl
  | cons t ts ih => exact ih

end Pushes

/-- The queue around the task that a scan takes. -/
theorem eraseP_of_find? {p : Task n → Bool} {ts : List (Task n)} {t : Task n}
    (h : ts.find? p = some t) :
    p t = true ∧ ∃ l r, ts = l ++ t :: r ∧ ts.eraseP p = l ++ r := by
  obtain ⟨hp, l, r, hts, hl⟩ := List.find?_eq_some_iff_append.mp h
  refine ⟨hp, l, r, hts, ?_⟩
  subst hts
  rw [List.eraseP_append_right _ (fun b hb => by simpa using hl b hb),
    List.eraseP_cons_of_pos hp]

theorem Conserved.id_lt {tr : List (Event n)} {s : State n} (hc : Conserved tr s)
    {t : Task n} (ht : t ∈ s.tasks) : t.id < s.nodes := by
  have hmem : t ∈ pushedTasks tr := hc.tasks.subset (List.mem_append_left _ ht)
  have hid := List.mem_map_of_mem (f := Task.id) hmem
  rw [hc.ids] at hid
  exact List.mem_range.mp hid

theorem numberFrom_order (k : Nat) (jobs : List (Job × Option (Fin n))) :
    (numberFrom k jobs).Pairwise fun t u => t.id < u.id := by
  rw [← List.pairwise_map (f := Task.id) (R := (· < ·)), numberFrom_ids]
  exact List.pairwise_lt_range'

theorem numberFrom_le {k : Nat} {jobs : List (Job × Option (Fin n))} {t : Task n}
    (ht : t ∈ numberFrom k jobs) : k ≤ t.id := by
  have hid := List.mem_map_of_mem (f := Task.id) ht
  rw [numberFrom_ids] at hid
  exact (List.mem_range'_1.mp hid).1

/-- What was pushed is in the queue behind the others. -/
theorem Conserved.pushed {tr : List (Event n)} {s s' : State n}
    {jobs : List (Job × Option (Fin n))} (hc : Conserved tr s) (hcounts : Counts s')
    (tasks : s'.tasks = s.tasks ++ numberFrom s.nodes jobs)
    (nodes : s'.nodes = s.nodes + jobs.length) (owes : s'.owes = s.owes) :
    Conserved (tr ++ Scheduler.pushes s jobs) s' := by
  have howing : owing (tr ++ Scheduler.pushes s jobs) (fun _ => false) = s'.owes := by
    rw [owing_append, owing_pushes, hc.owes, owes]
  refine ⟨?_, ?_, ?_, ?_, ?_, ?_⟩
  · rw [tasks, pushedTasks_append, takenTasks_append, pushedTasks_pushes,
      takenTasks_pushes, List.append_nil, List.append_assoc]
    refine (List.perm_append_comm.append_left s.tasks).trans ?_
    rw [← List.append_assoc]
    exact hc.tasks.append_right _
  · rw [pushedTasks_append, pushedTasks_pushes, List.map_append, hc.ids,
      numberFrom_ids, nodes, List.range_eq_range', List.range_eq_range',
      ← List.range'_append_1, Nat.zero_add]
  · rw [tasks]
    refine List.pairwise_append.mpr ⟨hc.order, numberFrom_order _ _, ?_⟩
    intro t ht u hu
    exact (hc.id_lt ht).trans_le (numberFrom_le hu)
  · intro w t ht
    rcases List.mem_append.mp ht with ht | ht
    · exact hc.thread w t ht
    · obtain ⟨u, -, hu⟩ := List.mem_map.mp ht
      cases hu
  · exact howing
  · rw [howing]
    exact hcounts

/-- What was taken has left the queue. -/
theorem Conserved.taken {tr : List (Event n)} {s s' : State n} {w : Fin n} {t : Task n}
    (hc : Conserved tr s) (hcounts : Counts s')
    (first : s.tasks.find? (allowed w s.fibers) = some t)
    (tasks : s'.tasks = s.tasks.eraseP (allowed w s.fibers)) (nodes : s'.nodes = s.nodes)
    (owes : s'.owes = Function.update s.owes w true) :
    Conserved (tr ++ [.taken w t]) s' := by
  obtain ⟨hallowed, l, r, hts, herase⟩ := eraseP_of_find? first
  have hpushed : pushedTasks (tr ++ [.taken w t]) = pushedTasks tr := by
    rw [pushedTasks_append]
    exact List.append_nil _
  have howing : owing (tr ++ [.taken w t]) (fun _ => false) = s'.owes := by
    rw [owing_append, hc.owes, owes]
    rfl
  refine ⟨?_, ?_, ?_, ?_, ?_, ?_⟩
  · rw [hpushed, tasks, herase, takenTasks_append, ← List.append_assoc]
    have hmove : (l ++ r ++ takenTasks tr ++ takenTasks [.taken w t]).Perm
        (t :: (l ++ r ++ takenTasks tr)) := List.perm_append_singleton t _
    refine (hmove.trans ?_).trans hc.tasks
    rw [hts, ← List.cons_append]
    exact List.perm_middle.symm.append_right _
  · rw [hpushed, nodes]
    exact hc.ids
  · rw [tasks]
    exact hc.order.sublist List.eraseP_sublist
  · intro v u hu
    rcases List.mem_append.mp hu with hu | hu
    · exact hc.thread v u hu
    · cases List.mem_singleton.mp hu
      have hmay := (Bool.and_eq_true _ _ ▸ hallowed).1
      exact of_decide_eq_true hmay
  · exact howing
  · rw [howing]
    exact hcounts

theorem Conserved.released {tr : List (Event n)} {s s' : State n} {w : Fin n}
    (hc : Conserved tr s) (hcounts : Counts s') (tasks : s'.tasks = s.tasks)
    (nodes : s'.nodes = s.nodes) (owes : s'.owes = Function.update s.owes w false) :
    Conserved (tr ++ [.released w]) s' := by
  have hpushed : pushedTasks (tr ++ [.released w]) = pushedTasks tr := by
    rw [pushedTasks_append]
    exact List.append_nil _
  have htaken : takenTasks (tr ++ [.released w]) = takenTasks tr := by
    rw [takenTasks_append]
    exact List.append_nil _
  have howing : owing (tr ++ [.released w]) (fun _ => false) = s'.owes := by
    rw [owing_append, hc.owes, owes]
    rfl
  refine ⟨?_, ?_, ?_, ?_, ?_, ?_⟩
  · rw [hpushed, htaken, tasks]
    exact hc.tasks
  · rw [hpushed, nodes]
    exact hc.ids
  · rw [tasks]
    exact hc.order
  · intro v u hu
    rcases List.mem_append.mp hu with hu | hu
    · exact hc.thread v u hu
    · cases List.mem_singleton.mp hu
  · exact howing
  · rw [howing]
    exact hcounts

theorem Conserved.step {tr evs : List (Event n)} {s s' : State n}
    (hc : Conserved tr s) (h : Change s s' evs) : Conserved (tr ++ evs) s' := by
  have hcounts : Counts s' := h.counts (by rw [Counts, hc.active, hc.owes])
  cases h with
  | pushes tasks nodes active owes => exact hc.pushed hcounts tasks nodes owes
  | takes first tasks nodes active owes free => exact hc.taken hcounts first tasks nodes owes
  | releases tasks nodes active owes owed => exact hc.released hcounts tasks nodes owes

theorem conserved_init : Conserved [] (init : State n) where
  tasks := .refl _
  ids := rfl
  order := .nil
  thread := by simp
  owes := rfl
  active := counts_init

theorem conserved_run {tr : List (Event n)} {s s' : State n} {as : List (Act n)}
    (hs : ∀ v, Scanned (s.workers v)) (hc : Conserved tr s)
    (hr : run step s as = some s') : Conserved (tr ++ trace s as) s' := by
  induction as generalizing tr s with
  | nil =>
      cases hr
      rw [trace, List.append_nil]
      exact hc
  | cons a as ih =>
      obtain ⟨t, ht, htr⟩ := Option.bind_eq_some_iff.mp hr
      have htrace : trace s (a :: as) = events s a ++ trace t as := by rw [trace, ht]
      rw [htrace, ← List.append_assoc]
      exact ih (step_scanned ht hs) (hc.step (step_change ht hs)) htr

/-- **No task is lost, and none is taken twice.** In every run every task that
was pushed is in the queue, or was taken once, by a worker of its thread; the
active count is the number of workers that have taken a task and not
decremented since; and a worker that scans takes the first task of the queue
that it may take. -/
theorem tasks_conserved {as : List (Act n)} {s : State n}
    (h : run step init as = some s) :
    Conserved (trace init as) s ∧
    (∀ t ∈ pushedTasks (trace init as),
      (s.tasks ++ takenTasks (trace init as)).count t = 1) ∧
    ∀ w, (s.workers w).pc = .scan → ∃ s', step s (.step w) = some s' ∧
      (s'.workers w).task = s.tasks.find? (allowed w s.fibers) ∧
      s'.tasks = s.tasks.eraseP (allowed w s.fibers) := by
  have hscanned : ∀ v, Scanned ((init : State n).workers v) := fun v => scanned_away rfl
  have hc : Conserved (trace init as) s := by
    have := conserved_run hscanned conserved_init h
    rwa [List.nil_append] at this
  refine ⟨hc, ?_, ?_⟩
  · intro t ht
    have hnodup : (pushedTasks (trace init as)).Nodup := by
      apply List.Nodup.of_map Task.id
      rw [hc.ids]
      exact List.nodup_range
    rw [hc.tasks.count_eq]
    exact List.count_eq_one_of_mem hnodup ht
  · intro w hpc
    refine ⟨_, by simp only [step, State.workerStep, hpc]; rfl, ?_, ?_⟩
    · simp [scanTasks_fst]
    · simp [scanTasks_queue]

/-- Worker 0 skips the callback of worker 1, who takes it. -/
def callbackRun : List (Act 2) :=
  [.schedule none (some (.cb 7)) (some 1), .step 0, .tickleRead, .step 1]

theorem callbackRun_conserved : ∃ s, run step init callbackRun = some s ∧
    takenTasks (trace init callbackRun) = [⟨0, .cb 7, some 1⟩] ∧
    Conserved (trace init callbackRun) s :=
  ⟨_, rfl, by decide, (tasks_conserved rfl).1⟩

end Hps.Scheduler
