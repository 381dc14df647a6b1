import Hps.Scheduler.Roles
import Hps.Scheduler.Steps

/-!
# Scheduler — one worker at a time runs a fiber

The scan passes by a fiber that is `EXEC`, and nothing else keeps a second
worker away. A fiber is not `EXEC` between the scan that took its task and the
`call`, nor between its own write of `READY`, `TERM` or `EXCEPT` and the test of
that state by the worker. A run in which nobody comes to a fiber in these times
runs no fiber twice at once (`exclusive_run`); where somebody does, two workers
are between `call` and its return on one fiber (`twiceScheduled_shared`).
-/

namespace Hps.Scheduler

open Hps.Lib

variable {n : Nat}

/-! ## Where a worker stands -/

/-- The fiber that the worker is in: between `call` and its return. -/
def Pc.inCall : Pc → Option Nat
  | .tickle _ next => next.inCall
  | .running f _ | .leaving f _ => some f
  | _ => none

/-- No fiber is run by two workers. -/
def Exclusive (s : State n) : Prop :=
  ∀ v w f, (s.workers v).pc.inCall = some f → (s.workers w).pc.inCall = some f → v = w

def Task.role : Option (Task n) → Role
  | some ⟨_, .fiber f, _⟩ => .taken f
  | _ => .away

def Pc.role (task : Option (Task n)) : Pc → Role
  | .tickle _ next => next.role task
  | .select => Task.role task
  | .call f _ => .calling f
  | .running f _ | .hold f _ => .on f
  | .leaving f _ | .returned f _ | .settle f _ => .off f
  | _ => .away

def Worker.role (x : Worker n) : Role := x.pc.role x.task

def State.view (s : State n) : View n := ⟨fun w => (s.workers w).role, s.fibers⟩

/-- The fiber that the worker's next step comes to, or resets: the one of the
task that the scan takes, unless it has ended, or its own. -/
def State.comesTo (s : State n) (w : Fin n) : Option Nat :=
  let x := s.workers w
  match x.pc with
  | .scan =>
      match (scanTasks w s.fibers s.tasks).1 with
      | some ⟨_, .fiber f, _⟩ => if (s.fibers f).dead then none else some f
      | _ => none
  | .select =>
      match x.task with
      | some ⟨_, .cb _, _⟩ => x.taskFiber
      | _ => none
  | .settle f true => if (s.fibers f).dead then some f else none
  | _ => none

/-- Nobody comes to a fiber while another worker is at it outside of its
`EXEC`. -/
def Careful (s : State n) : Act n → Prop
  | .step w => ∀ f ∈ s.comesTo w, s.view.Free w f
  | _ => True

instance (s : State n) : (a : Act n) → Decidable (Careful s a)
  | .step w => inferInstanceAs (Decidable (∀ f ∈ s.comesTo w, s.view.Free w f))
  | .schedule .. | .scheduleBatch .. | .tickleRead | .tickleWrite | .addTimer ..
  | .cancelTimer .. | .addEvent _ | .dropEvent _ | .newFiber | .stop
  | .yieldToReady _ | .yieldToHold _ | .finish .. | .wake _ | .listExpired ..
  | .drain _ | .trigger .. | .back _ => isTrue trivial

/-! ## Fibers that have been made -/

def Pc.fiber? : Pc → Option Nat
  | .tickle _ next => next.fiber?
  | .call f _ | .running f _ | .leaving f _ | .returned f _ | .settle f _ | .hold f _
  | .requeue f _ => some f
  | _ => none

/-- Every fiber that a worker is at has been made. -/
structure Worker.Made (k : Nat) (x : Worker n) : Prop where
  pc : ∀ f, x.pc.fiber? = some f → f < k
  task : ∀ i f th, x.task = some ⟨i, .fiber f, th⟩ → f < k
  own : ∀ f, x.taskFiber = some f → f < k

structure Made (s : State n) : Prop where
  tasks : ∀ i f th, ⟨i, .fiber f, th⟩ ∈ s.tasks → f < s.fiberCount
  workers : ∀ w, (s.workers w).Made s.fiberCount

theorem Worker.Made.mono {x : Worker n} {k k' : Nat} (h : x.Made k) (hk : k ≤ k') :
    x.Made k' where
  pc f hf := Nat.lt_of_lt_of_le (h.pc f hf) hk
  task i f th hf := Nat.lt_of_lt_of_le (h.task i f th hf) hk
  own f hf := Nat.lt_of_lt_of_le (h.own f hf) hk

/-- A worker that only goes on. -/
theorem Worker.Made.goto {x : Worker n} {k : Nat} (h : x.Made k) {pc : Pc}
    (hpc : ∀ f, pc.fiber? = some f → x.pc.fiber? = some f) :
    Worker.Made k { x with pc } where
  pc f hf := h.pc f (hpc f hf)
  task := h.task
  own := h.own

theorem Made.update {s s' : State n} {w : Fin n} {x : Worker n} (hm : Made s)
    (htasks : s'.tasks ⊆ s.tasks) (hk : s.fiberCount ≤ s'.fiberCount)
    (hworkers : s'.workers = Function.update s.workers w x)
    (hx : x.Made s'.fiberCount) : Made s' where
  tasks i f th h := Nat.lt_of_lt_of_le (hm.tasks i f th (htasks h)) hk
  workers := by
    rw [hworkers]
    exact (Function.forall_update_iff s.workers fun _ => Worker.Made s'.fiberCount).mpr
      ⟨hx, fun v _ => (hm.workers v).mono hk⟩

theorem Made.setWorker {s : State n} (hm : Made s) {w : Fin n} {x : Worker n}
    (hx : x.Made s.fiberCount) : Made (s.setWorker w x) :=
  hm.update (List.Subset.refl _) (Nat.le_refl _) rfl hx

/-- Behind a task the worker has none. -/
theorem Worker.Made.rest {x : Worker n} {k : Nat} (h : x.Made k) {pc : Pc}
    (hpc : pc.fiber? = none) {own : Option Nat}
    (hown : own = none ∨ own = x.taskFiber) :
    Worker.Made (n := n) k { x with pc, task := none, taskFiber := own } where
  pc f hf := by
    rw [hpc] at hf
    cases hf
  task i f th hf := by cases hf
  own f hf := by
    rcases hown with rfl | rfl
    · cases hf
    · exact h.own f hf

theorem mem_numberFrom {k i : Nat} {j : Job} {th : Option (Fin n)}
    {jobs : List (Job × Option (Fin n))} (h : ⟨i, j, th⟩ ∈ numberFrom k jobs) :
    (j, th) ∈ jobs := by
  induction jobs generalizing k with
  | nil => cases h
  | cons x jobs ih =>
      rcases List.mem_cons.mp h with h | h
      · cases h
        exact List.mem_cons_self
      · exact List.mem_cons_of_mem x (ih h)

theorem Made.push {s : State n} (hm : Made s) {jobs : List (Job × Option (Fin n))}
    (hj : ∀ j th, (j, th) ∈ jobs → s.known (some j) = true) : Made (s.push jobs) where
  tasks i f th h := by
    rcases List.mem_append.mp h with h | h
    · exact hm.tasks i f th h
    · exact of_decide_eq_true (hj _ _ (mem_numberFrom h))
  workers := hm.workers

theorem Made.notify {s : State n} (hm : Made s) (w : Option (Fin n)) (b : Bool) :
    Made (s.notify w b) := by
  rcases notify_cases s w b with ⟨h, -⟩ | ⟨-, -, h⟩ | ⟨v, -, -, h⟩
  · rw [h]
    exact hm
  · rw [h]
    exact ⟨hm.tasks, hm.workers⟩
  · rw [h]
    exact hm.setWorker ((hm.workers v).goto fun _ hf => hf)

theorem queued_mem {j : Job} {job : Option Job} {th th' : Option (Fin n)}
    (h : (j, th) ∈ queued job th') : job = some j := by
  obtain ⟨i, hi, he⟩ := List.mem_map.mp h
  cases he
  exact Option.mem_toList.mp hi

theorem queuedAll_mem {j : Job} {jobs : List (Option Job)} {th : Option (Fin n)}
    (h : (j, th) ∈ queuedAll jobs) : some j ∈ jobs := by
  obtain ⟨job, hjob, hmem⟩ := List.mem_flatMap.mp h
  rw [← queued_mem hmem]
  exact hjob

theorem worker_made {s s' : State n} {w : Fin n} (h : WorkerStep s w s')
    (hm : Made s) : Made s' := by
  have hw := hm.workers w
  have hsame := List.Subset.refl s.tasks
  cases h with
  | scan hpc =>
      have hqueue : (scanTasks w s.fibers s.tasks).2.1 ⊆ s.tasks := by
        rw [scanTasks_queue]
        exact List.eraseP_subset
      have htask : ∀ t, (scanTasks w s.fibers s.tasks).1 = some t → t ∈ s.tasks := by
        intro t ht
        rw [scanTasks_fst] at ht
        exact List.mem_of_find?_eq_some ht
      refine hm.update hqueue (Nat.le_refl _) rfl ⟨?_, ?_, hw.own⟩
      · intro f hf
        simp only at hf
        split at hf <;> cases hf
      · intro i f th ht
        exact hm.tasks i f th (htask _ ht)
  | tickleRead hpc =>
      refine hm.setWorker (hw.goto fun f hf => ?_)
      rw [hpc]
      split at hf <;> exact hf
  | tickleWrite hpc =>
      refine hm.update hsame (Nat.le_refl _) rfl (hw.goto fun f hf => ?_)
      rw [hpc]
      exact hf
  | skipNone _ _ hskip | skipDead _ _ _ hskip =>
      cases hskip <;>
        exact hm.update hsame (Nat.le_refl _) rfl (hw.goto fun f hf => by cases hf)
  | selectFiber hpc htask hdead =>
      refine hm.setWorker ⟨?_, hw.task, hw.own⟩
      intro g hg
      cases hg
      exact hw.task _ _ _ htask
  | selectReset hpc htask hfiber hdead =>
      refine hm.update hsame (Nat.le_refl _) rfl ⟨?_, fun i f th h => (by cases h), hw.own⟩
      intro g hg
      cases hg
      exact hw.own _ hfiber
  | selectNew hpc htask hfiber =>
      refine hm.update hsame (Nat.le_succ _) rfl ⟨?_, fun i f th h => (by cases h), ?_⟩
      · intro g hg
        cases hg
        exact Nat.lt_succ_self _
      · intro g hg
        cases hg
        exact Nat.lt_succ_self _
  | settleDead hpc hdead =>
      split <;>
        exact hm.update hsame (Nat.le_refl _) rfl (hw.rest rfl (.inr rfl))
  | hold hpc =>
      refine hm.update hsame (Nat.le_refl _) rfl (hw.rest rfl ?_)
      split
      · exact .inl rfl
      · exact .inr rfl
  | @requeue f own hpc =>
      have hf : f < s.fiberCount := hw.pc f (by rw [hpc]; rfl)
      have hpush : Made (s.push [(.fiber f, none)]) := by
        refine hm.push fun j th hj => ?_
        cases List.mem_singleton.mp hj
        exact decide_eq_true hf
      refine hpush.setWorker (hw.rest ?_ ?_)
      · split <;> rfl
      · split
        · exact .inl rfl
        · exact .inr rfl
  | @expired cbs hpc =>
      have hpush : Made (s.push (queuedAll (cbs.map fun c => some (.cb c)))) := by
        refine hm.push fun j th hj => ?_
        obtain ⟨c, -, hc⟩ := List.mem_map.mp (queuedAll_mem hj)
        cases hc
        rfl
      refine hpush.setWorker (hw.goto fun f hf => ?_)
      split at hf <;> cases hf
  | idleTimer hpc | idlePending hpc =>
      refine hm.setWorker (hw.goto fun f hf => ?_)
      split at hf <;> cases hf
  | call hpc | leaving hpc | returned hpc | settleReady hpc | settleHold hpc =>
      refine hm.update hsame (Nat.le_refl _) rfl (hw.goto fun f hf => ?_)
      rw [hpc]
      exact hf
  | idleCount hpc | idleWaits hpc | triggered hpc =>
      exact hm.update hsame (Nat.le_refl _) rfl (hw.goto fun f hf => by cases hf)
  | idleCall hpc | idleStops hpc | idleReturn hpc =>
      exact hm.update hsame (Nat.le_refl _) rfl
        ⟨fun f hf => (by cases hf), hw.task, hw.own⟩

theorem step_made {s s' : State n} {a : Act n} (h : step s a = some s')
    (hm : Made s) : Made s' := by
  have hsame := List.Subset.refl s.tasks
  cases step_cases h with
  | worker h => exact worker_made h hm
  | schedule hc hk =>
      refine Made.notify (hm.push fun j th hj => ?_) _ _
      rw [← queued_mem hj]
      exact hk
  | scheduleBatch hc hk =>
      exact Made.notify (hm.push fun j th hj =>
        List.all_eq_true.mp hk _ (queuedAll_mem hj)) _ _
  | @addTimer w t front hc =>
      have ht : Made { s with timers := s.timers ++ [t] } := ⟨hm.tasks, hm.workers⟩
      exact ht.notify w front
  | newFiber =>
      exact ⟨fun i f th ht => Nat.lt_succ_of_lt (hm.tasks i f th ht),
        fun w => (hm.workers w).mono (Nat.le_succ _)⟩
  | tickleRead | tickleWrite | cancelTimer | addEvent | dropEvent | stop | drain =>
      exact ⟨hm.tasks, hm.workers⟩
  | @yieldToReady w _ _ hpc | @yieldToHold w _ _ hpc | @finish w _ _ _ hpc =>
      refine hm.update hsame (Nat.le_refl _) rfl ((hm.workers w).goto fun f hf => ?_)
      rw [hpc]
      exact hf
  | @wake w | @back w =>
      exact hm.setWorker ((hm.workers w).goto fun f hf => by cases hf)
  | @listExpired w _ hpc =>
      refine hm.update hsame (Nat.le_refl _) rfl ((hm.workers w).goto fun f hf => ?_)
      split at hf <;> cases hf
  | @trigger w job hpc h hk =>
      have hpush : Made (s.push [(job, none)]) := by
        refine hm.push fun j th hj => ?_
        cases List.mem_singleton.mp hj
        exact hk
      refine hpush.setWorker ((hm.workers w).goto fun f hf => ?_)
      split at hf <;> cases hf

theorem made_init : Made (init : State n) where
  tasks _ _ _ h := by cases h
  workers _ := ⟨fun _ h => (by cases h), fun _ _ _ h => (by cases h),
    fun _ h => (by cases h)⟩

/-! ## The steps as steps towards fibers -/

theorem view_eq {s s' : State n} {w : Fin n} {x : Worker n} {fibers : Nat → FiberState}
    (hw : s'.workers = Function.update s.workers w x) (hf : s'.fibers = fibers) :
    s'.view = ⟨Function.update s.view.role w x.role, fibers⟩ := by
  rw [State.view, hw, hf]
  congr 1
  funext v
  by_cases h : v = w
  · subst h
    rw [Function.update_self, Function.update_self]
  · rw [Function.update_of_ne h, Function.update_of_ne h]
    rfl

theorem view_to {s s' : State n} {w : Fin n} {x : Worker n} {fibers : Nat → FiberState}
    (hw : s'.workers = Function.update s.workers w x) (hf : s'.fibers = fibers)
    (h : View.Step s.view ⟨Function.update s.view.role w x.role, fibers⟩) :
    View.Step s.view s'.view := by
  rw [view_eq hw hf]
  exact h

/-- The worker keeps its place. -/
theorem view_keeps {s s' : State n} {w : Fin n} {x : Worker n}
    (hw : s'.workers = Function.update s.workers w x) (hf : s'.fibers = s.fibers)
    (hx : x.role = (s.workers w).role) : View.Step s.view s'.view := by
  have hsame : Function.update s.view.role w x.role = s.view.role :=
    hx ▸ Function.update_eq_self w s.view.role
  rw [view_eq hw hf, hsame]
  exact .stays

theorem view_drops {s s' : State n} {w : Fin n} {x : Worker n}
    (hw : s'.workers = Function.update s.workers w x) (hf : s'.fibers = s.fibers)
    (hx : x.role = .away) : View.Step s.view s'.view :=
  view_to hw hf (hx ▸ .drops)

theorem view_notify {s : State n} (w : Option (Fin n)) (b : Bool) :
    (s.notify w b).view = s.view := by
  rcases notify_cases s w b with ⟨h, -⟩ | ⟨-, -, h⟩ | ⟨v, -, -, h⟩
  · rw [h]
  · rw [h]
    rfl
  · rw [h, view_eq rfl rfl]
    exact congrArg (View.mk · s.fibers) (Function.update_eq_self v s.view.role)

theorem Worker.Made.role_lt {x : Worker n} {k f : Nat} (h : x.Made k)
    (hf : x.role.fiber? = some f) : f < k := by
  obtain ⟨pc, task, isActive, taskFiber, idleFiber⟩ := x
  have hrole : ∀ pc : Pc, (∀ g, pc.fiber? = some g → g < k) →
      (pc.role task).fiber? = some f → f < k := by
    intro pc
    induction pc with
    | tickle _ next ih => exact ih
    | select =>
        intro _ hr
        cases task with
        | none => cases hr
        | some t =>
            obtain ⟨i, job, th⟩ := t
            cases job with
            | cb c => cases hr
            | fiber =>
                cases hr
                exact h.task i _ th rfl
    | call | running | leaving | returned | settle | hold =>
        intro hpc hr
        cases hr
        exact hpc _ rfl
    | _ =>
        intro _ hr
        cases hr
  exact hrole pc h.pc hf

/-- A scan gives its worker the task that it takes, or none. -/
theorem scan_view {s : State n} {w : Fin n} (hpc : (s.workers w).pc = .scan)
    (hok : Careful s (.step w)) :
    View.Step s.view (({ s with
        tasks := (scanTasks w s.fibers s.tasks).2.1
        activeThreadCount :=
          if (scanTasks w s.fibers s.tasks).1.isSome then s.activeThreadCount + 1
          else s.activeThreadCount } : State n).setWorker w
        { s.workers w with
          pc := if (scanTasks w s.fibers s.tasks).2.2 then .tickle false .select
            else .select
          task := (scanTasks w s.fibers s.tasks).1
          isActive := (scanTasks w s.fibers s.tasks).1.isSome }).view := by
  have hselect : ∀ b : Bool, ∀ task : Option (Task n),
      Pc.role task (if b then .tickle false .select else .select) = Task.role task := by
    intro b task
    cases b <;> rfl
  cases ht : (scanTasks w s.fibers s.tasks).1 with
  | none =>
      refine view_drops rfl rfl ?_
      rw [Worker.role, hselect]
      rfl
  | some t =>
      obtain ⟨i, job, th⟩ := t
      cases job with
      | cb c =>
          refine view_drops rfl rfl ?_
          rw [Worker.role, hselect]
          rfl
      | fiber f =>
          have hallowed : allowed w s.fibers ⟨i, .fiber f, th⟩ = true :=
            List.find?_some (scanTasks_fst.symm.trans ht)
          have hexec : s.fibers f ≠ .EXEC :=
            of_decide_eq_true (Bool.and_eq_true _ _ ▸ hallowed).2
          have hfree : (s.fibers f).dead = false → s.view.Free w f := by
            intro hdead
            apply hok f
            simp [State.comesTo, hpc, ht, hdead]
          refine view_to rfl rfl ?_
          rw [Worker.role, hselect]
          exact .takes hexec hfree

theorem worker_view {s s' : State n} {w : Fin n} (h : WorkerStep s w s')
    (hok : Careful s (.step w)) (hm : Made s) : View.Step s.view s'.view := by
  have hrole : s.view.role w = (s.workers w).pc.role (s.workers w).task := rfl
  cases h with
  | scan hpc => exact scan_view hpc hok
  | tickleRead hpc =>
      refine view_keeps rfl rfl ?_
      rw [Worker.role, Worker.role, hpc]
      split <;> rfl
  | tickleWrite hpc =>
      refine view_keeps rfl rfl ?_
      rw [Worker.role, Worker.role, hpc]
      rfl
  | leaving hpc | returned hpc =>
      refine view_keeps rfl rfl ?_
      rw [Worker.role, Worker.role, hpc]
      rfl
  | skipNone _ _ hskip | skipDead _ _ _ hskip =>
      cases hskip <;> exact view_drops rfl rfl rfl
  | @selectFiber i f th hpc htask hdead =>
      rw [hpc, htask] at hrole
      exact view_to rfl rfl (.selects hrole hdead)
  | @selectReset i c f th hpc htask hfiber hdead =>
      have hfree : s.view.Free w f := by
        apply hok f
        simp only [State.comesTo, hpc, htask, hfiber, Option.mem_some_iff]
      exact view_to rfl rfl (.resets hdead hfree)
  | selectNew hpc htask hfiber =>
      refine view_to rfl rfl (.makes fun v hv => ?_)
      exact Nat.lt_irrefl _ ((hm.workers v).role_lt hv)
  | call hpc =>
      rw [hpc] at hrole
      exact view_to rfl rfl (.calls hrole)
  | @settleDead f own hpc hdead =>
      cases own with
      | false => exact view_drops rfl rfl rfl
      | true =>
          have hfree : s.view.Free w f := by
            apply hok f
            simp only [State.comesTo, hpc, hdead, if_true, Option.mem_some_iff]
          rw [hpc] at hrole
          exact view_to rfl rfl (.clears hrole hfree)
  | settleHold hpc hready hdead =>
      rw [hpc] at hrole
      exact view_to rfl rfl (.settles hrole hready hdead)
  | hold hpc =>
      rw [hpc] at hrole
      exact view_to rfl rfl (.holds hrole)
  | requeue | idleTimer | idlePending | expired =>
      refine view_drops rfl rfl ?_
      rw [Worker.role]
      split <;> rfl
  | _ => exact view_drops rfl rfl rfl

theorem step_view {s s' : State n} {a : Act n} (h : step s a = some s')
    (hok : Careful s a) (hm : Made s) : View.Step s.view s'.view := by
  cases step_cases h with
  | worker h => exact worker_view h hok hm
  | schedule | scheduleBatch | addTimer =>
      rw [view_notify]
      exact .stays
  | tickleRead | tickleWrite | cancelTimer | addEvent | dropEvent | newFiber | stop
  | drain => exact .stays
  | @yieldToReady w f own hpc hexec =>
      have hrole : s.view.role w = .on f := congrArg (Pc.role _) hpc
      exact view_to rfl rfl (.sets hrole (by decide))
  | @yieldToHold w f own hpc hexec =>
      have hrole : s.view.role w = .on f := congrArg (Pc.role _) hpc
      exact view_to rfl rfl (.yields hrole)
  | @finish w f own except hpc =>
      have hrole : s.view.role w = .on f := congrArg (Pc.role _) hpc
      exact view_to rfl rfl (.sets hrole (by cases except <;> decide))
  | wake | back => exact view_drops rfl rfl rfl
  | listExpired | trigger =>
      refine view_drops rfl rfl ?_
      rw [Worker.role]
      split <;> rfl

/-! ## Runs -/

theorem view_init : (init : State n).view.Inv where
  one _ _ _ h := by cases h
  fits _ := trivial

theorem inCall_role {x : Worker n} {f : Nat} (h : x.pc.inCall = some f)
    (fibers : Nat → FiberState) : x.role.holds? fibers = some f := by
  have hpc : ∀ pc : Pc, pc.inCall = some f →
      (pc.role x.task).holds? fibers = some f := by
    intro pc
    induction pc with
    | tickle _ next ih => exact ih
    | running | leaving => exact id
    | _ =>
        intro hc
        cases hc
  exact hpc x.pc h


/-- **One worker at a time runs a fiber**, in every run in which nobody comes to
a fiber while another worker is at it outside of its `EXEC`. -/
theorem exclusive_run {as : List (Act n)} {s : State n}
    (hok : Meets step Careful init as) (h : run step init as = some s) :
    Exclusive s := by
  have hstep : ∀ (s : State n) (a : Act n) (s' : State n), s.view.Inv ∧ Made s →
      Careful s a → step s a = some s' → s'.view.Inv ∧ Made s' :=
    fun s a s' hi ha hs => ⟨hi.1.step (step_view hs ha hi.2), step_made hs hi.2⟩
  have hinv : s.view.Inv ∧ Made s := run_invariant hstep ⟨view_init, made_init⟩ hok h
  intro v w f hv hw
  exact hinv.1.one v w f (inCall_role hv s.fibers) (inCall_role hw s.fibers)

/-- A fiber yields to `READY` under worker 0, worker 1 takes it again. -/
def yieldRun : List (Act 2) :=
  [.newFiber, .schedule none (some (.fiber 0)) none, .step 0, .step 0, .step 0,
    .yieldToReady 0, .step 0, .step 0, .step 0, .step 0, .step 1, .step 1, .step 1]

theorem yieldRun_exclusive : ∃ s, run step init yieldRun = some s ∧
    (s.workers 1).pc = .running 0 false ∧ Exclusive s :=
  ⟨_, rfl, by decide,
    exclusive_run (show Meets step Careful init yieldRun by decide) rfl⟩

/-- A fiber that waits is scheduled twice, and both workers take it before the
first has called it. -/
def twiceScheduled : List (Act 2) :=
  [.newFiber, .schedule none (some (.fiber 0)) none,
    .schedule none (some (.fiber 0)) none, .step 0, .step 1, .step 0, .step 0,
    .step 0, .step 1, .step 1]

theorem twiceScheduled_shared : ∃ s, run step (init : State 2) twiceScheduled = some s ∧
    ¬Exclusive s :=
  ⟨_, rfl, fun h => absurd (h 0 1 0 rfl rfl) (by decide)⟩

end Hps.Scheduler
