import Hps.Lib.Count
import Hps.Scheduler.Steps

/-!
# Scheduler — wake-ups of idle workers

Only a `schedule` that finds the queue empty calls `tickle`, and `tickle` writes
to the pipe only if it reads a positive idle count. A worker that has scanned and
taken nothing is not counted yet. If every worker is there when the count is
read, nothing is written and all of them go to sleep over the queue
(`tickle_unheard`); where that never happens, no wake-up is lost
(`wakeup_run`).
-/

namespace Hps.Scheduler

open Hps.Lib

variable {n : Nat}

/-! ## Places of a worker -/

/-- The fiber of the worker, from its `EXEC` on until the worker has looked at
its state. -/
def Pc.at? : Pc → Option Nat
  | .tickle _ next => next.at?
  | .running f _ | .returned f _ | .settle f _ | .hold f _ => some f
  | _ => none

/-- The worker is counted as idle. -/
def Pc.idles : Pc → Bool
  | .tickle _ next => next.idles
  | .idleCall | .idleTimer | .idlePending | .idleStopping | .waiting | .expire
  | .expired _ | .dispatch | .triggered | .idleReturn => true
  | _ => false

/-- The worker has scanned and taken nothing, and is not counted yet. -/
def Worker.goesIdle (x : Worker n) : Bool :=
  match x.pc with
  | .select => !x.isActive && decide (x.idleFiber ≠ .TERM)
  | .idleCount => true
  | _ => false

/-- The worker comes to `epoll_wait` without another scan, or is there. -/
def Worker.drowsy (x : Worker n) : Bool :=
  match x.pc with
  | .idleCall | .idleTimer | .idlePending | .idleStopping | .waiting => true
  | _ => x.goesIdle

theorem Worker.drowsy_at {x : Worker n} {f : Nat} (h : x.pc.at? = some f) :
    x.drowsy = false := by
  obtain ⟨pc, task, isActive, taskFiber, idleFiber⟩ := x
  cases pc <;> first | rfl | cases h

theorem Worker.goesIdle_of_drowsy {x : Worker n} (h : x.drowsy = true)
    (hi : x.pc.idles = false) : x.goesIdle = true := by
  obtain ⟨pc, task, isActive, taskFiber, idleFiber⟩ := x
  cases pc <;> first | exact h | cases hi

/-! ## The idle count -/

/-- The idle count is the number of workers that are counted. -/
def Idles (s : State n) : Prop :=
  s.idleThreadCount = countWhere (fun x : Worker n => x.pc.idles) s.workers

theorem Idles.keeps {s s' : State n} {w : Fin n} {x : Worker n} (hi : Idles s)
    (hw : s'.workers = Function.update s.workers w x)
    (hc : s'.idleThreadCount = s.idleThreadCount)
    (hx : x.pc.idles = (s.workers w).pc.idles) : Idles s' := by
  rw [Idles, hw, hc, countWhere_update_eq (p := fun x : Worker n => x.pc.idles) hx]
  exact hi

/-- One worker more, or one less, is counted. -/
theorem Idles.counts {s s' : State n} {w : Fin n} {x : Worker n} (hi : Idles s)
    (hw : s'.workers = Function.update s.workers w x)
    (hc : s'.idleThreadCount + (s.workers w).pc.idles.toNat =
      s.idleThreadCount + x.pc.idles.toNat) : Idles s' := by
  have hcount := countWhere_update (fun x : Worker n => x.pc.idles) s.workers w x
  rw [Idles] at hi ⊢
  rw [hw]
  omega

theorem worker_idles {s s' : State n} {w : Fin n} (h : WorkerStep s w s')
    (hi : Idles s) : Idles s' := by
  cases h with
  | scan hpc | expired hpc | requeue hpc | idleTimer hpc | idlePending hpc =>
      refine hi.keeps rfl rfl ?_
      rw [hpc]
      simp only
      split <;> rfl
  | tickleRead hpc =>
      refine hi.keeps rfl rfl ?_
      rw [hpc]
      split <;> rfl
  | skipNone hpc _ hskip | skipDead hpc _ _ hskip =>
      cases hskip <;>
      · refine hi.keeps rfl rfl ?_
        rw [hpc]
        rfl
  | settleDead hpc =>
      split <;>
      · refine hi.keeps rfl rfl ?_
        rw [hpc]
        rfl
  | idleCount hpc =>
      refine hi.counts rfl ?_
      rw [hpc]
      show s.idleThreadCount + 1 + 0 = s.idleThreadCount + 1
      omega
  | idleReturn hpc =>
      refine hi.counts rfl ?_
      rw [hpc]
      show s.idleThreadCount - 1 + 1 = s.idleThreadCount + 0
      omega
  | _ =>
      refine hi.keeps rfl rfl ?_
      simp only [*]
      rfl

theorem Idles.notify {s : State n} (hi : Idles s) (w : Option (Fin n)) (b : Bool) :
    Idles (s.notify w b) := by
  rcases notify_cases s w b with ⟨h, -⟩ | ⟨-, -, h⟩ | ⟨v, -, -, h⟩
  · rw [h]
    exact hi
  · rw [h]
    exact hi
  · rw [h]
    exact hi.keeps rfl rfl rfl

theorem step_idles {s s' : State n} {a : Act n} (h : step s a = some s')
    (hi : Idles s) : Idles s' := by
  cases step_cases h with
  | worker h => exact worker_idles h hi
  | schedule | scheduleBatch | addTimer =>
      apply Idles.notify
      exact hi
  | tickleRead | tickleWrite | cancelTimer | addEvent | dropEvent | newFiber | stop
  | drain => exact hi
  | yieldToReady hpc | yieldToHold hpc | finish hpc | wake hpc | back hpc =>
      refine hi.keeps rfl rfl ?_
      rw [hpc]
      rfl
  | listExpired hpc | trigger hpc =>
      refine hi.keeps rfl rfl ?_
      rw [hpc]
      simp only
      split <;> rfl

/-! ## Who is at a fiber that is running -/

/-- A fiber that is `EXEC` has a worker, which is going to look at it. -/
def Execs (s : State n) : Prop :=
  ∀ f, s.fibers f = .EXEC → ∃ w, (s.workers w).pc.at? = some f

theorem Execs.update {s s' : State n} {w : Fin n} {x : Worker n} (he : Execs s)
    (hw : s'.workers = Function.update s.workers w x)
    (hf : ∀ f, s'.fibers f = .EXEC → x.pc.at? = some f ∨
      s.fibers f = .EXEC ∧ (s.workers w).pc.at? ≠ some f) : Execs s' := by
  intro f hexec
  rw [hw]
  rcases hf f hexec with hx | ⟨hold, hne⟩
  · refine ⟨w, ?_⟩
    rw [Function.update_self]
    exact hx
  · obtain ⟨v, hv⟩ := he f hold
    have hvw : v ≠ w := by
      rintro rfl
      exact hne hv
    refine ⟨v, ?_⟩
    rw [Function.update_of_ne hvw]
    exact hv

/-- A worker that keeps its place. -/
theorem Execs.keeps {s s' : State n} {w : Fin n} {x : Worker n} (he : Execs s)
    (hw : s'.workers = Function.update s.workers w x) (hf : s'.fibers = s.fibers)
    (hx : x.pc.at? = (s.workers w).pc.at?) : Execs s' := by
  refine he.update hw fun f hexec => ?_
  rw [hf] at hexec
  by_cases h : (s.workers w).pc.at? = some f
  · exact .inl (hx.trans h)
  · exact .inr ⟨hexec, h⟩

/-- A worker that was at no fiber. -/
theorem Execs.away {s s' : State n} {w : Fin n} {x : Worker n} (he : Execs s)
    (hw : s'.workers = Function.update s.workers w x) (hf : s'.fibers = s.fibers)
    (hx : (s.workers w).pc.at? = none) : Execs s' := by
  refine he.update hw fun f hexec => .inr ⟨hf ▸ hexec, ?_⟩
  rw [hx]
  exact nofun

/-- A worker that sets the state of its fiber. -/
theorem Execs.leaves {s s' : State n} {w : Fin n} {x : Worker n} {f : Nat}
    {y : FiberState} (he : Execs s) (hw : s'.workers = Function.update s.workers w x)
    (hf : s'.fibers = Function.update s.fibers f y) (hy : y ≠ .EXEC)
    (hx : ∀ g, (s.workers w).pc.at? = some g → g = f) : Execs s' := by
  refine he.update hw fun g hexec => .inr ?_
  rw [hf] at hexec
  by_cases hg : g = f
  · subst hg
    rw [Function.update_self] at hexec
    exact absurd hexec hy
  · rw [Function.update_of_ne hg] at hexec
    exact ⟨hexec, fun h => hg (hx g h)⟩

theorem worker_execs {s s' : State n} {w : Fin n} (h : WorkerStep s w s')
    (he : Execs s) : Execs s' := by
  cases h with
  | tickleRead hpc =>
      refine he.keeps rfl rfl ?_
      rw [hpc]
      split <;> rfl
  | tickleWrite hpc | returned hpc | settleHold hpc =>
      refine he.keeps rfl rfl ?_
      rw [hpc]
      rfl
  | skipNone hpc _ hskip | skipDead hpc _ _ hskip =>
      cases hskip <;> exact he.away rfl rfl (by rw [hpc]; rfl)
  | selectReset hpc | selectNew hpc =>
      refine he.leaves rfl rfl (by decide) fun g hg => ?_
      rw [hpc] at hg
      cases hg
  | @call f own hpc =>
      refine he.update rfl fun g hexec => ?_
      by_cases hg : g = f
      · subst hg
        exact .inl rfl
      · refine .inr ⟨(Function.update_of_ne hg _ _).symm.trans hexec, ?_⟩
        rw [hpc]
        exact nofun
  | @settleReady f own hpc hready =>
      refine he.leaves (f := f) (y := .READY) rfl ?_ (by decide) fun g hg => ?_
      · exact (Function.update_eq_self_iff.mpr hready.symm).symm
      · rw [hpc] at hg
        exact (Option.some.inj hg).symm
  | @settleDead f own hpc hdead =>
      have hat : ∀ g, (s.workers w).pc.at? = some g → g = f := by
        intro g hg
        rw [hpc] at hg
        exact (Option.some.inj hg).symm
      cases own with
      | false =>
          refine he.leaves (f := f) (y := s.fibers f) rfl ?_ ?_ hat
          · exact (Function.update_eq_self f s.fibers).symm
          · intro h
            rw [h] at hdead
            cases hdead
      | true => exact he.leaves rfl rfl (by decide) hat
  | hold hpc =>
      refine he.leaves rfl rfl (by decide) fun g hg => ?_
      rw [hpc] at hg
      exact (Option.some.inj hg).symm
  | _ =>
      refine he.away rfl rfl ?_
      simp only [*]
      rfl

theorem Execs.notify {s : State n} (he : Execs s) (w : Option (Fin n)) (b : Bool) :
    Execs (s.notify w b) := by
  rcases notify_cases s w b with ⟨h, -⟩ | ⟨-, -, h⟩ | ⟨v, -, -, h⟩
  · rw [h]
    exact he
  · rw [h]
    exact he
  · rw [h]
    exact he.keeps rfl rfl rfl

theorem step_execs {s s' : State n} {a : Act n} (h : step s a = some s')
    (he : Execs s) : Execs s' := by
  cases step_cases h with
  | worker h => exact worker_execs h he
  | schedule | scheduleBatch | addTimer =>
      apply Execs.notify
      exact he
  | tickleRead | tickleWrite | cancelTimer | addEvent | dropEvent | newFiber | stop
  | drain => exact he
  | yieldToHold hpc =>
      refine he.keeps rfl rfl ?_
      rw [hpc]
      rfl
  | yieldToReady hpc | finish hpc =>
      refine he.leaves rfl rfl ?_ fun g hg => ?_
      · first | decide | (split <;> decide)
      · rw [hpc] at hg
        exact (Option.some.inj hg).symm
  | wake hpc | back hpc | listExpired hpc | trigger hpc =>
      exact he.away rfl rfl (by rw [hpc]; rfl)

/-! ## The wake-up -/

/-- Nobody is going to look at the queue, which is not empty. -/
def State.Deaf (s : State n) : Prop :=
  s.tasks ≠ [] ∧ s.pipe = 0 ∧ s.notifying = 0 ∧ s.writing = 0 ∧
    ∀ w, (s.workers w).goesIdle = true

instance (s : State n) : Decidable s.Deaf :=
  inferInstanceAs (Decidable (_ ∧ _ ∧ _ ∧ _ ∧ _))

/-- Where a worker goes on if its `tickle` counts nobody. -/
def Pc.unheard : Pc → Option Pc
  | .tickle false next => some next
  | _ => none

/-- A `tickle` that writes nothing does not leave all workers between a scan
that took nothing and their increment of the idle count. -/
def Heard (s : State n) : Act n → Prop
  | .tickleRead => ¬State.Deaf { s with notifying := s.notifying - 1 }
  | .step w => ∀ next ∈ (s.workers w).pc.unheard, ¬(s.goto w next).Deaf
  | _ => True

instance (s : State n) : (a : Act n) → Decidable (Heard s a)
  | .tickleRead =>
      inferInstanceAs (Decidable ¬State.Deaf { s with notifying := s.notifying - 1 })
  | .step w =>
      inferInstanceAs (Decidable (∀ next ∈ (s.workers w).pc.unheard,
        ¬(s.goto w next).Deaf))
  | .schedule .. | .scheduleBatch .. | .tickleWrite | .addTimer .. | .cancelTimer ..
  | .addEvent _ | .dropEvent _ | .newFiber | .stop | .yieldToReady _ | .yieldToHold _
  | .finish .. | .wake _ | .listExpired .. | .drain _ | .trigger .. | .back _ =>
      isTrue trivial

/-- A queue with tasks has a byte in the pipe, a `tickle` on its way, or a worker
that scans before it sleeps. -/
def Wakes (s : State n) : Prop :=
  s.tasks ≠ [] → s.pipe = 0 → s.notifying = 0 → s.writing = 0 →
    ∃ w, (s.workers w).drowsy = false

/-- A `tickle` that writes nothing has counted nobody. -/
theorem wakes_of_unheard {s : State n} (hi : Idles s) (h0 : ¬0 < s.idleThreadCount)
    (hd : ¬s.Deaf) : Wakes s := by
  intro htasks hpipe hnotifying hwriting
  by_contra hall
  have hdrowsy : ∀ w, (s.workers w).drowsy = true := by
    intro w
    by_contra hw
    exact hall ⟨w, by simpa using hw⟩
  have hcount : countWhere (fun x : Worker n => x.pc.idles) s.workers = 0 := by
    rw [Idles] at hi
    omega
  have hidles := countWhere_eq_zero_iff.mp hcount
  exact hd ⟨htasks, hpipe, hnotifying, hwriting,
    fun w => Worker.goesIdle_of_drowsy (hdrowsy w) (hidles w)⟩

/-- A worker that is awake behind the step. -/
theorem wakes_awake {s : State n} {w : Fin n} (h : (s.workers w).drowsy = false) :
    Wakes s :=
  fun _ _ _ _ => ⟨w, h⟩

/-- A worker that was not awake. -/
theorem Wakes.drowsy {s s' : State n} {w : Fin n} {x : Worker n} (hk : Wakes s)
    (hw : s'.workers = Function.update s.workers w x) (htasks : s'.tasks = s.tasks)
    (hpipe : s'.pipe = s.pipe) (hnotifying : s'.notifying = s.notifying)
    (hwriting : s'.writing = s.writing) (hx : (s.workers w).drowsy = true) :
    Wakes s' := by
  intro h1 h2 h3 h4
  rw [htasks] at h1
  rw [hpipe] at h2
  rw [hnotifying] at h3
  rw [hwriting] at h4
  obtain ⟨v, hv⟩ := hk h1 h2 h3 h4
  have hvw : v ≠ w := by
    rintro rfl
    rw [hx] at hv
    cases hv
  refine ⟨v, ?_⟩
  rw [hw, Function.update_of_ne hvw]
  exact hv

theorem drowsy_setWorker {s : State n} {w : Fin n} {x : Worker n}
    (hx : x.drowsy = false) : ((s.setWorker w x).workers w).drowsy = false := by
  rw [setWorker_workers, Function.update_self]
  exact hx

/-- A scan that takes nothing and asks for no `tickle` has passed by running
fibers only. -/
theorem scanTasks_quiet {w : Fin n} {fibers : Nat → FiberState} {ts : List (Task n)}
    (hnone : (scanTasks w fibers ts).1 = none)
    (hquiet : (scanTasks w fibers ts).2.2 = false) :
    ∀ t ∈ ts, ∃ f, t.job = .fiber f ∧ fibers f = .EXEC := by
  induction ts with
  | nil => simp
  | cons t ts ih =>
      rw [scanTasks] at hnone hquiet
      split at hnone
      · rename_i hthread
        rw [if_pos hthread] at hquiet
        cases hquiet
      · rename_i hthread
        rw [if_neg hthread] at hquiet
        cases hj : t.job with
        | cb c => simp [hj] at hnone
        | fiber f =>
            simp only [hj] at hnone hquiet
            split at hnone
            · rename_i hexec
              rw [if_pos hexec] at hquiet
              intro u hu
              rcases List.mem_cons.mp hu with rfl | hu
              · exact ⟨f, hj, hexec⟩
              · exact ih hnone hquiet u hu
            · cases hnone

theorem scan_wakes {s : State n} {w : Fin n} {s' : State n} (he : Execs s)
    (hpc : (s.workers w).pc = .scan) (h : WorkerStep s w s') : Wakes s' := by
  cases h
  case scan =>
    cases hflag : (scanTasks w s.fibers s.tasks).2.2 with
    | true =>
        apply wakes_awake (w := w)
        apply drowsy_setWorker
        rfl
    | false =>
        cases htaken : (scanTasks w s.fibers s.tasks).1 with
        | some t =>
            apply wakes_awake (w := w)
            apply drowsy_setWorker
            rfl
        | none =>
            intro htasks _ _ _
            -- the queue is as it was, and its first fiber is running elsewhere
            have hkeep : (scanTasks w s.fibers s.tasks).2.1 = s.tasks := by
              rw [scanTasks_queue]
              exact List.eraseP_of_forall_not fun t ht => by
                simpa using List.find?_eq_none.mp (scanTasks_fst.symm.trans htaken) t ht
            obtain ⟨t, ht⟩ := List.exists_mem_of_ne_nil s.tasks (hkeep ▸ htasks)
            obtain ⟨f, -, hexec⟩ := scanTasks_quiet htaken hflag t ht
            obtain ⟨v, hv⟩ := he f hexec
            have hvw : v ≠ w := by
              rintro rfl
              rw [hpc] at hv
              cases hv
            refine ⟨v, ?_⟩
            rw [setWorker_workers, Function.update_of_ne hvw]
            exact Worker.drowsy_at hv
  all_goals simp_all

theorem worker_wakes {s s' : State n} {w : Fin n} (h : WorkerStep s w s')
    (hok : Heard s (.step w)) (hi : Idles s) (he : Execs s) (hk : Wakes s) :
    Wakes s' := by
  cases h with
  | scan hpc => exact scan_wakes he hpc (.scan hpc)
  | @tickleRead next hpc =>
      by_cases hidle : 0 < s.idleThreadCount
      · rw [if_pos hidle]
        exact wakes_awake (drowsy_setWorker rfl)
      · have hdeaf : ¬(s.goto w next).Deaf := by
          apply hok next
          rw [hpc]
          rfl
        have hidles := worker_idles (.tickleRead hpc) hi
        rw [if_neg hidle] at hidles ⊢
        exact wakes_of_unheard hidles hidle hdeaf
  | tickleWrite hpc =>
      intro _ hpipe
      exact absurd hpipe (Nat.succ_ne_zero s.pipe)
  | skipNone hpc _ hskip | skipDead hpc _ _ hskip =>
      cases hskip with
      | active => exact wakes_awake (drowsy_setWorker rfl)
      | exits => exact wakes_awake (drowsy_setWorker rfl)
      | idles hactive hidle =>
          refine hk.drowsy rfl rfl rfl rfl rfl ?_
          simp [Worker.drowsy, Worker.goesIdle, hpc, hactive, hidle]
  | idleCount hpc | idleCall hpc | idleTimer hpc | idlePending hpc | idleWaits hpc =>
      refine hk.drowsy rfl rfl rfl rfl rfl ?_
      simp only [Worker.drowsy, Worker.goesIdle, hpc]
  | requeue =>
      refine wakes_awake (w := w) (drowsy_setWorker ?_)
      cases s.tasks.isEmpty <;> rfl
  | @expired cbs =>
      refine wakes_awake (w := w) (drowsy_setWorker ?_)
      cases (s.scheduleAll (cbs.map fun c => some (.cb c))).1 <;> rfl
  | _ => exact wakes_awake (drowsy_setWorker rfl)

/-- A push that finds the queue empty is told, and one that does not need not
be. -/
theorem Wakes.push {s : State n} (hk : Wakes s) {jobs : List (Job × Option (Fin n))}
    {w : Option (Fin n)} {b : Bool} (hc : s.calls w = true)
    (hb : b = false → s.tasks ≠ [] ∨ jobs = []) :
    Wakes ((s.push jobs).notify w b) := by
  cases w with
  | none =>
      cases b with
      | true =>
          intro _ _ hnotifying
          exact absurd hnotifying (Nat.succ_ne_zero s.notifying)
      | false =>
          intro htasks hpipe hnotifying hwriting
          refine hk ?_ hpipe hnotifying hwriting
          rcases hb rfl with h | h
          · exact h
          · subst h
            have hsame : (s.push []).notify none false = s := push_nil s
            rwa [hsame] at htasks
  | some v =>
      obtain ⟨f, own, hpc⟩ := calls_some hc
      cases b with
      | true => exact wakes_awake (drowsy_setWorker rfl)
      | false =>
          apply wakes_awake (w := v)
          exact Worker.drowsy_at (f := f) (by simp [State.notify, hpc, Pc.at?])

theorem step_wakes {s s' : State n} {a : Act n} (h : step s a = some s')
    (hok : Heard s a) (hi : Idles s) (he : Execs s) (hk : Wakes s) : Wakes s' := by
  cases step_cases h with
  | worker h => exact worker_wakes h hok hi he hk
  | schedule hc =>
      refine hk.push hc fun hb => .inl ?_
      intro htasks
      rw [htasks] at hb
      cases hb
  | @scheduleBatch w jobs hc =>
      refine hk.push hc fun hb => ?_
      by_cases hjobs : jobs = []
      · subst hjobs
        exact .inr rfl
      · refine .inl fun htasks => ?_
        rw [scheduleAll_fst s htasks hjobs] at hb
        cases hb
  | tickleRead =>
      by_cases hidle : 0 < s.idleThreadCount
      · rw [if_pos hidle]
        intro _ _ _ hwriting
        exact absurd hwriting (Nat.succ_ne_zero s.writing)
      · rw [if_neg hidle]
        exact wakes_of_unheard hi hidle hok
  | tickleWrite =>
      intro _ hpipe
      exact absurd hpipe (Nat.succ_ne_zero s.pipe)
  | @addTimer w t front hc =>
      have hk' : Wakes { s with timers := s.timers ++ [t] } := hk
      have hpush : Wakes ((State.push { s with timers := s.timers ++ [t] } []).notify w
          front) := hk'.push hc fun _ => .inr rfl
      rwa [push_nil] at hpush
  | cancelTimer | addEvent | dropEvent | newFiber => exact hk
  | stop =>
      intro htasks hpipe hnotifying hwriting
      exact hk htasks hpipe (Nat.eq_zero_of_add_eq_zero_right hnotifying) hwriting
  | @drain w hpc =>
      apply wakes_awake (w := w)
      simp only [Worker.drowsy, Worker.goesIdle, hpc]
  | wake | back | yieldToReady | yieldToHold | finish =>
      exact wakes_awake (drowsy_setWorker rfl)
  | @listExpired w expired =>
      refine wakes_awake (w := w) (drowsy_setWorker ?_)
      cases (State.expiredCbs s.timers expired).isEmpty <;> rfl
  | @trigger w job =>
      refine wakes_awake (w := w) (drowsy_setWorker ?_)
      cases s.tasks.isEmpty <;> rfl

/-! ## Runs -/

theorem idles_init : Idles (init : State n) := by
  rw [Idles, countWhere_eq_zero_iff.mpr fun _ => rfl]
  rfl

/-- A task that any worker may take waits, every worker is blocked in
`epoll_wait`, and neither the pipe nor a call of `tickle` is going to wake
one. -/
def LostWakeup (s : State n) : Prop :=
  (∃ t ∈ s.tasks, t.thread = none ∧ ∀ f, t.job = .fiber f → s.fibers f ≠ .EXEC) ∧
    (∀ w, (s.workers w).pc = .waiting) ∧
    s.pipe = 0 ∧ s.notifying = 0 ∧ s.writing = 0

/-- **No wake-up is lost** in a run in which no `tickle` counts nobody while every
worker is between a scan that took nothing and its increment of the idle count. -/
theorem wakeup_run {as : List (Act n)} {s : State n}
    (hok : Meets step Heard init as) (h : run step init as = some s) :
    ¬LostWakeup s := by
  have hstep : ∀ (s : State n) (a : Act n) (s' : State n), Idles s ∧ Execs s ∧ Wakes s →
      Heard s a → step s a = some s' → Idles s' ∧ Execs s' ∧ Wakes s' := by
    rintro s a s' ⟨hi, he, hk⟩ ha hs
    exact ⟨step_idles hs hi, step_execs hs he, step_wakes hs ha hi he hk⟩
  have hinv : Idles s ∧ Execs s ∧ Wakes s := run_invariant hstep
    ⟨idles_init, fun f hf => (by cases hf), fun h => absurd rfl h⟩ hok h
  rintro ⟨⟨t, ht, -⟩, hwaiting, hpipe, hnotifying, hwriting⟩
  obtain ⟨w, hw⟩ := hinv.2.2 (List.ne_nil_of_mem ht) hpipe hnotifying hwriting
  simp only [Worker.drowsy, hwaiting w] at hw
  cases hw

/-- A worker goes to sleep over the empty queue, and a callback is scheduled. -/
def wokenRun : List (Act 1) :=
  [.step 0, .step 0, .step 0, .step 0, .step 0, .step 0, .step 0,
    .schedule none (some (.cb 1)) none, .tickleRead, .tickleWrite]

theorem wokenRun_wakes : ∃ s, run step init wokenRun = some s ∧
    (s.workers 0).pc = .waiting ∧ s.pipe = 1 ∧ ¬LostWakeup s :=
  ⟨_, rfl, rfl, rfl, wakeup_run (show Meets step Heard init wokenRun by decide) rfl⟩

/-- The only worker has scanned; a callback is scheduled, and its `tickle` counts
nobody; the worker goes to sleep. -/
def unheardRun : List (Act 1) :=
  [.step 0, .step 0, .schedule none (some (.cb 1)) none, .tickleRead,
    .step 0, .step 0, .step 0, .step 0, .step 0]

theorem tickle_unheard : ∃ s, run step init unheardRun = some s ∧ LostWakeup s :=
  ⟨_, rfl, ⟨⟨0, .cb 1, none⟩, .head _, rfl, fun _ h => (by cases h)⟩, by decide,
    rfl, rfl, rfl⟩

end Hps.Scheduler
