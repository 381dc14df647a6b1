import Hps.Scheduler.Model

/-!
# Scheduler — the contexts of the fibers

`fiber.cc` on one thread, with the `swapcontext` of `call` and `back` written
out. A fiber's `call` keeps the code that runs in the context of the thread's
fiber, or of the scheduler's, and its `back` goes on with what that context
holds, whoever made the call. Calls and returns are nested, each return behind
the call it belongs to, exactly if a fiber is called by the fiber that it goes
back to (`nested_iff`).
-/

namespace Hps.Scheduler.Contexts

open Hps.Lib

/-- What a `ucontext_t` holds. -/
inductive Ctx where
  /-- The beginning of `MainFunc`, from `makecontext`. -/
  | start
  /-- The code of a fiber, behind its `n`-th `swapcontext`. -/
  | behind (code n : Nat)
  /-- The end of `MainFunc`, behind its `back`. -/
  | ended
  deriving DecidableEq, Repr

structure Fiber where
  state : FiberState := .INIT
  ctx : Ctx := .start
  joinSchedule : Bool := false
  deriving DecidableEq, Repr

/-- One thread. A fiber is its `m_id`, which is 0 for the fiber of the thread
itself. -/
structure State where
  fibers : Nat → Fiber := fun _ => {}
  fiberId : Nat := 0
  tFiber : Option Nat := none
  tThreadFiber : Option Nat := none
  tScheduler : Bool := false
  tSchedulerFiber : Option Nat := none
  /-- The fiber whose code runs. -/
  running : Nat := 0
  /-- How often the code of a fiber came to a `swapcontext`. -/
  switches : Nat → Nat := fun _ => 0
  /-- The fibers that were called and are not back, the last one first; the
  program does not keep them. -/
  calls : List Nat := []

/-- What the code that runs does next. -/
inductive Op
  | getThis
  | new (joinSchedule : Bool)
  | reset (f : Nat) (joinSchedule : Bool)
  | setUseCaller (f : Nat)
  /-- The constructor of a scheduler with `use_mainThread`. -/
  | useMainThread
  /-- `Scheduler::run` comes to a thread that is not `m_rootThread`. -/
  | run
  /-- `Scheduler::run` finds that the fiber has not ended. -/
  | hold (f : Nat)
  | call (f : Nat)
  | yieldToReady
  | yieldToHold
  /-- `back` of the current fiber, as the end of `IOManager::idle` has it. -/
  | back
  /-- The end of the fiber's function, or what it throws. -/
  | finish (thrown : Bool)
  deriving Repr

namespace State

variable (s : State)

def put (f : Nat) (x : Fiber) : State := { s with fibers := Function.update s.fibers f x }

def setState (f : Nat) (x : FiberState) : State := s.put f { s.fibers f with state := x }

def has (f : Nat) : Prop := f ≤ s.fiberId ∧ (f = 0 → s.tThreadFiber = some 0)

instance (f : Nat) : Decidable (s.has f) := inferInstanceAs (Decidable (_ ∧ _))

/-- `Fiber::GetThis()`: the thread's fiber is made at its first call. -/
def getThis : State :=
  match s.tFiber with
  | some _ => s
  | none =>
      { s.put 0 { state := .EXEC, ctx := .behind 0 (s.switches 0) } with
        tFiber := some 0
        tThreadFiber := some 0 }

def new (joinSchedule : Bool) : State :=
  { s.put (s.fiberId + 1) { joinSchedule := joinSchedule } with
    fiberId := s.fiberId + 1 }

/-- The fiber has a stack, and its state is one of those that `reset` asserts. -/
def reset (f : Nat) (joinSchedule : Bool) : Option State :=
  if f ≠ 0 ∧ ((s.fibers f).state.dead ∨ (s.fibers f).state = .INIT) then
    some (s.put f { joinSchedule := joinSchedule })
  else none

/-- `setUseCaller` does not look at its argument. -/
def setUseCaller (f : Nat) : State := s.put f { s.fibers f with joinSchedule := true }

def useMainThread : Option State :=
  let s := s.getThis
  if s.tScheduler then none
  else
    let s := { s.new false with tScheduler := true }
    some { s with tSchedulerFiber := some s.fiberId }

def run : State :=
  let s := { s.getThis with tScheduler := true }
  { s with tSchedulerFiber := s.tFiber }

def hold (f : Nat) : State :=
  if (s.fibers f).state.dead then s else s.setState f .HOLD

/-- The fiber whose context `call` and `back` use. -/
def mainFiber (f : Nat) : Option Nat :=
  if (s.fibers f).joinSchedule then s.tSchedulerFiber else s.tThreadFiber

/-- What `swapcontext` leaves of the code that comes to it. -/
def here (ended : Bool) : Ctx :=
  if ended then .ended else .behind s.running (s.switches s.running + 1)

/-- The first half of `swapcontext`. -/
def saved (ended : Bool) (f : Nat) : State :=
  { s.put f { s.fibers f with ctx := s.here ended } with
    switches := Function.update s.switches s.running (s.switches s.running + 1) }

/-- `swapcontext(&f->m_ctx, &g->m_ctx)`. Behind the end of `MainFunc` the code
fails its `ASSERT2`. -/
def swapcontext (ended : Bool) (f g : Nat) : Option State :=
  let s := s.saved ended f
  match (s.fibers g).ctx with
  | .start => some { s with running := g }
  | .behind code _ => some { s with running := code }
  | .ended => none

/-- Without the fiber whose context it needs, the process ends. -/
def call (f : Nat) : Option State :=
  let s := { s.setState f .EXEC with tFiber := some f, calls := f :: s.calls }
  match s.mainFiber f with
  | none => none
  | some m => s.swapcontext false m f

def back (ended : Bool) (f : Nat) : Option State :=
  match s.mainFiber f with
  | none => none
  | some m =>
      let s := { s with tFiber := some m, calls := s.calls.tail }
      s.swapcontext ended f m

/-- `YieldToReady` and `YieldToHold`, which leaves the state as it is. -/
def yield (state : FiberState) : Option State :=
  let s := s.getThis
  match s.tFiber with
  | none => none
  | some cur =>
      if (s.fibers cur).state = .EXEC then (s.setState cur state).back false cur else none

/-- The end of `MainFunc`, which no thread's own code comes to. -/
def finish (thrown : Bool) : Option State :=
  if s.running = 0 then none
  else (s.setState s.running (if thrown then .EXCEPT else .TERM)).back true s.running

end State

def step (s : State) : Op → Option State
  | .getThis => some s.getThis
  | .new joinSchedule => some (s.new joinSchedule)
  | .reset f joinSchedule => if s.has f then s.reset f joinSchedule else none
  | .setUseCaller f => if s.has f then some (s.setUseCaller f) else none
  | .useMainThread => s.useMainThread
  | .run => some s.run
  | .hold f => if s.has f then some (s.hold f) else none
  | .call f => if s.has f then s.call f else none
  | .yieldToReady => s.yield .READY
  | .yieldToHold => s.yield .EXEC
  | .back => s.getThis.tFiber.bind (s.getThis.back false)
  | .finish thrown => s.finish thrown

/-! ## Nested calls -/

/-- The fibers that were called, and the thread's. -/
def State.stack (s : State) : List Nat := s.calls ++ [0]

/-- Who called the fiber that runs. -/
def State.caller (s : State) : Nat := s.calls.tail.headD 0

/-- The calls that are not back are nested. -/
structure Nested (s : State) : Prop where
  /-- No fiber is in two calls. -/
  nodup : s.stack.Nodup
  /-- It is the fiber of the last call that runs. -/
  running : s.running = s.calls.headD 0
  /-- `GetThis` tells the fiber that runs. -/
  this : s.tFiber = some s.running ∨ s.tFiber = none ∧ s.calls = []
  /-- Who waits for a fiber is kept where it made the call. -/
  waiting : ∀ f ∈ s.stack.tail, (s.fibers f).ctx = .behind f (s.switches f)
  /-- All others are kept where they went back, or have not begun. -/
  away : ∀ f ≤ s.fiberId, f ∉ s.stack → (s.fibers f).ctx = .start ∨
    (s.fibers f).ctx = .behind f (s.switches f) ∨ (s.fibers f).ctx = .ended

/-- A fiber is called by the fiber that it goes back to, which is in the call
until then, and it is not in a call already. -/
def Disciplined (s : State) : Op → Prop
  | .call f => s.mainFiber f = some s.running ∧ f ∉ s.stack
  | .yieldToReady | .yieldToHold | .back | .finish _ =>
      s.getThis.mainFiber s.running = some s.caller
  | _ => True

/-- With what the program keeps to: a fiber is called with a state in which it
is not reset. -/
structure Inv (s : State) : Prop extends Nested s where
  thread : s.tThreadFiber = some 0 ∧ s.tFiber ≠ none ∨
    s.tThreadFiber = none ∧ s.tFiber = none ∧ s.tSchedulerFiber = none
  made : ∀ f ∈ s.calls, f ≤ s.fiberId
  scheduler : ∀ f, s.tSchedulerFiber = some f → f ≤ s.fiberId
  alive : ∀ f ∈ s.calls, (s.fibers f).state.dead = false ∧ (s.fibers f).state ≠ .INIT

/-! ## The state -/

section Fields

variable (s : State) (f : Nat)

@[simp] theorem put_self (x : Fiber) : (s.put f x).fibers f = x := Function.update_self ..

theorem put_of_ne {f g : Nat} (h : g ≠ f) (x : Fiber) : (s.put f x).fibers g = s.fibers g :=
  Function.update_of_ne h ..

@[simp] theorem setState_ctx (x : FiberState) (g : Nat) :
    ((s.setState f x).fibers g).ctx = (s.fibers g).ctx := by
  by_cases h : g = f
  · rw [h, State.setState, put_self]
  · rw [State.setState, put_of_ne s h]

@[simp] theorem setState_mainFiber (x : FiberState) (g : Nat) :
    (s.setState f x).mainFiber g = s.mainFiber g := by
  by_cases h : g = f
  · simp only [State.mainFiber, State.setState, h, put_self]
    rfl
  · simp only [State.mainFiber, State.setState, put_of_ne s h]
    rfl

theorem setState_self : s.setState f (s.fibers f).state = s := by
  simp only [State.setState, State.put, Function.update_eq_self]

end Fields

section Stack

variable {s : State}

theorem Nested.stack_eq (h : Nested s) : s.stack = s.running :: s.stack.tail := by
  rw [State.stack, h.running]
  cases s.calls with
  | nil => rfl
  | cons f calls => rfl

theorem Nested.running_mem (h : Nested s) : s.running ∈ s.stack := by
  rw [h.stack_eq]
  exact List.mem_cons_self

theorem Nested.mem_tail (h : Nested s) {f : Nat} (hf : f ∈ s.stack) (hne : f ≠ s.running) :
    f ∈ s.stack.tail := by
  rw [h.stack_eq] at hf
  exact (List.mem_cons.mp hf).resolve_left hne

theorem Nested.zero_not_mem (h : Nested s) : 0 ∉ s.calls := by
  intro h0
  exact (List.nodup_append.mp h.nodup).2.2 0 h0 0 (List.mem_singleton_self 0) rfl

theorem Inv.running_le (h : Inv s) : s.running ≤ s.fiberId := by
  rw [h.running]
  cases hc : s.calls with
  | nil => exact Nat.zero_le _
  | cons f calls => exact h.made f (hc ▸ List.mem_cons_self)

/-- A fiber that is no caller may be made anew, and any fiber that ran may get
another state. -/
theorem Inv.put (h : Inv s) {f : Nat} {x : Fiber}
    (hctx : x.ctx = (s.fibers f).ctx ∨ f ∉ s.stack ∧ x.ctx = .start)
    (hstate : f ∈ s.calls → x.state.dead = false ∧ x.state ≠ .INIT) : Inv (s.put f x) where
  nodup := h.nodup
  running := h.running
  this := h.this
  waiting := by
    intro g hg
    by_cases hgf : g = f
    · subst hgf
      rw [put_self]
      rcases hctx with hctx | ⟨hnot, -⟩
      · rw [hctx]
        exact h.waiting g hg
      · exact absurd (List.mem_of_mem_tail hg) hnot
    · rw [put_of_ne s hgf]
      exact h.waiting g hg
  away := by
    intro g hle hg
    by_cases hgf : g = f
    · subst hgf
      rw [put_self]
      rcases hctx with hctx | ⟨-, hctx⟩
      · rw [hctx]
        exact h.away g hle hg
      · exact .inl hctx
    · rw [put_of_ne s hgf]
      exact h.away g hle hg
  thread := h.thread
  made := h.made
  scheduler := h.scheduler
  alive := by
    intro g hg
    by_cases hgf : g = f
    · subst hgf
      rw [put_self]
      exact hstate hg
    · rw [put_of_ne s hgf]
      exact h.alive g hg

end Stack

/-! ## Steps -/

section Steps

variable {s t : State}

theorem Inv.getThis (h : Inv s) : Inv s.getThis := by
  rw [State.getThis]
  cases ht : s.tFiber with
  | some f => exact h
  | none =>
      -- no fiber was called, and the thread's is the one that runs
      have hcalls : s.calls = [] := (h.this.resolve_left (by simp [ht])).2
      have hzero : s.running = 0 := by rw [h.running, hcalls]; rfl
      have hsched : s.tSchedulerFiber = none := by
        rcases h.thread with ⟨-, hne⟩ | ⟨-, -, hsched⟩
        · exact absurd ht hne
        · exact hsched
      refine { h with
        this := .inl (by rw [← hzero]; rfl)
        waiting := ?_
        away := ?_
        thread := .inl ⟨rfl, by simp⟩
        scheduler := fun f hf => by cases hsched.symm.trans hf
        alive := ?_ }
      · intro f hf
        simp [State.stack, State.put, hcalls] at hf
      · intro f hle hf
        have hne : f ≠ 0 := by
          rintro rfl
          exact hf (List.mem_append_right _ (List.mem_singleton_self 0))
        show ((s.put 0 _).fibers f).ctx = _ ∨ _
        rw [put_of_ne s hne]
        exact h.away f hle hf
      · intro f hf
        exact absurd (hcalls ▸ hf : f ∈ []) List.not_mem_nil

theorem Inv.getThis_fiber (h : Inv s) : s.getThis.tFiber = some s.running := by
  rw [State.getThis]
  rcases h.this with ht | ⟨ht, hcalls⟩
  · rw [ht]
    exact ht
  · rw [ht, h.running, hcalls]
    rfl

@[simp] theorem getThis_running : s.getThis.running = s.running := by
  rw [State.getThis]
  split <;> rfl

@[simp] theorem getThis_calls : s.getThis.calls = s.calls := by
  rw [State.getThis]
  split <;> rfl

theorem Inv.new (h : Inv s) (joinSchedule : Bool) : Inv (s.new joinSchedule) := by
  have hfresh : s.fiberId + 1 ∉ s.calls := fun hf =>
    absurd (h.made _ hf) (Nat.not_succ_le_self _)
  have hput : Inv (s.put (s.fiberId + 1) { joinSchedule := joinSchedule }) := by
    refine h.put (.inr ⟨?_, rfl⟩) fun hf => absurd hf hfresh
    simpa [State.stack] using hfresh
  refine { hput with away := ?_, made := ?_, scheduler := ?_ }
  · intro f hle hf
    rcases Nat.lt_or_eq_of_le hle with hlt | rfl
    · exact hput.away f (Nat.le_of_lt_succ hlt) hf
    · exact .inl (by simp [State.new])
  · exact fun f hf => Nat.le_succ_of_le (h.made f hf)
  · exact fun f hf => Nat.le_succ_of_le (h.scheduler f hf)

theorem Inv.reset (h : Inv s) {f : Nat} {joinSchedule : Bool}
    (ht : s.reset f joinSchedule = some t) : Inv t := by
  rw [State.reset] at ht
  split at ht
  · rename_i hf
    cases ht
    have hnot : f ∉ s.calls := by
      intro hmem
      obtain ⟨hdead, hinit⟩ := h.alive f hmem
      rcases hf.2 with hd | hi
      · rw [hdead] at hd
        cases hd
      · exact hinit hi
    refine h.put (.inr ⟨?_, rfl⟩) fun hmem => absurd hmem hnot
    simpa [State.stack, hf.1] using hnot
  · cases ht

theorem Inv.hold (h : Inv s) (f : Nat) : Inv (s.hold f) := by
  rw [State.hold]
  split
  · exact h
  · exact h.put (.inl rfl) fun _ => ⟨rfl, by simp⟩

/-- The scheduler's fiber is one that has been made. -/
theorem Inv.useMain (h : Inv s) (ht : s.tFiber ≠ none) {f : Nat} (hf : f ≤ s.fiberId) :
    Inv { s with tScheduler := true, tSchedulerFiber := some f } := by
  refine { h with thread := .inl ⟨?_, ht⟩, scheduler := ?_ }
  · exact (h.thread.resolve_right fun hn => ht hn.2.1).1
  · rintro g hg
    cases hg
    exact hf

theorem Inv.useMainThread (h : Inv s) (ht : s.useMainThread = some t) : Inv t := by
  rw [State.useMainThread] at ht
  dsimp only at ht
  split at ht
  · cases ht
  · cases ht
    have hne : s.getThis.tFiber ≠ none := by simp [h.getThis_fiber]
    exact (h.getThis.new false).useMain hne (Nat.le_refl _)

theorem Inv.run (h : Inv s) : Inv s.run := by
  have hfiber := h.getThis_fiber
  have hle := h.getThis.running_le
  rw [getThis_running] at hle
  have hrun := h.getThis.useMain (by simp [hfiber]) hle
  rw [← hfiber] at hrun
  exact hrun

/-! ## Switches -/

theorem swapcontext_eq {ended : Bool} {f g : Nat} (ht : s.swapcontext ended f g = some t) :
    ∃ r, t = { s.saved ended f with running := r } ∧
      (((s.saved ended f).fibers g).ctx = .start ∧ r = g ∨
        ∃ n, ((s.saved ended f).fibers g).ctx = .behind r n) := by
  rw [State.swapcontext] at ht
  split at ht
  · rename_i hctx
    cases ht
    exact ⟨g, rfl, .inl ⟨hctx, rfl⟩⟩
  · rename_i code n hctx
    cases ht
    exact ⟨code, rfl, .inr ⟨n, hctx⟩⟩
  · cases ht

theorem saved_self (ended : Bool) (f : Nat) :
    ((s.saved ended f).fibers f).ctx = s.here ended := by
  simp [State.saved]

theorem saved_state (ended : Bool) (f g : Nat) :
    ((s.saved ended f).fibers g).state = (s.fibers g).state := by
  by_cases h : g = f
  · subst h
    simp [State.saved]
  · simp only [State.saved, put_of_ne s h]

theorem saved_of_ne {ended : Bool} {f g : Nat} (h : g ≠ f) :
    (s.saved ended f).fibers g = s.fibers g := by
  simp only [State.saved, put_of_ne s h]

theorem saved_switches (ended : Bool) (f : Nat) :
    (s.saved ended f).switches s.running = s.switches s.running + 1 := Function.update_self ..

theorem saved_switches_of_ne {ended : Bool} {f g : Nat} (h : g ≠ s.running) :
    (s.saved ended f).switches g = s.switches g := Function.update_of_ne h ..

/-- Who has a fiber to go back to has the thread's fiber. -/
theorem Inv.thread_of_main (h : Inv s) {f m : Nat} (hmain : s.mainFiber f = some m) :
    s.tThreadFiber = some 0 := by
  rcases h.thread with ⟨hthread, -⟩ | ⟨hnone, -, hsched⟩
  · exact hthread
  · rw [State.mainFiber] at hmain
    split at hmain
    · cases hsched.symm.trans hmain
    · cases hnone.symm.trans hmain

/-- **A call** of a fiber by the one that it goes back to, which waits for it. -/
theorem Inv.call (h : Inv s) {f : Nat} (hf : f ≤ s.fiberId)
    (hmain : s.mainFiber f = some s.running) (hout : f ∉ s.stack)
    (ht : s.call f = some t) : Inv t := by
  have hne : f ≠ s.running := fun hf => hout (hf ▸ h.running_mem)
  set s₁ : State := { s.setState f .EXEC with tFiber := some f, calls := f :: s.calls } with hs₁
  have hswap : s₁.swapcontext false s.running f = some t := by
    have hmain₁ : s₁.mainFiber f = some s.running := (setState_mainFiber s f .EXEC f).trans hmain
    rw [State.call] at ht
    dsimp only at ht
    rw [← hs₁, hmain₁] at ht
    exact ht
  have hctx : ∀ g, g ≠ s.running → ((s₁.saved false s.running).fibers g).ctx =
      (s.fibers g).ctx := by
    intro g hg
    rw [saved_of_ne hg]
    exact setState_ctx s f .EXEC g
  obtain ⟨r, rfl, hr⟩ := swapcontext_eq hswap
  obtain rfl : f = r := by
    rw [hctx f hne] at hr
    rcases hr with ⟨-, hr⟩ | ⟨n, hr⟩
    · exact hr.symm
    · rcases h.away f hf hout with ha | ha | ha <;> rw [ha] at hr <;> cases hr
      rfl
  have hwaiting : ∀ g ∈ s.stack, ((s₁.saved false s.running).fibers g).ctx =
      .behind g ((s₁.saved false s.running).switches g) := by
    intro g hg
    by_cases hself : g = s.running
    · subst hself
      rw [saved_self]
      exact congrArg _ (saved_switches (s := s₁) false s.running).symm
    · rw [hctx g hself, saved_switches_of_ne (s := s₁) hself]
      exact h.waiting g (h.mem_tail hg hself)
  refine ⟨⟨List.nodup_cons.mpr ⟨hout, h.nodup⟩, rfl, .inl rfl, hwaiting, ?_⟩, ?_, ?_,
    h.scheduler, ?_⟩
  · intro g hle hg
    have hout' : g ∉ s.stack := fun hg' => hg (List.mem_cons_of_mem _ hg')
    have hself : g ≠ s.running := fun hg' => hout' (hg' ▸ h.running_mem)
    show ((s₁.saved false s.running).fibers g).ctx = _ ∨
      ((s₁.saved false s.running).fibers g).ctx =
        .behind g ((s₁.saved false s.running).switches g) ∨ _
    rw [hctx g hself, saved_switches_of_ne (s := s₁) hself]
    exact h.away g hle hout'
  · exact .inl ⟨h.thread_of_main hmain, Option.some_ne_none _⟩
  · exact List.forall_mem_cons.mpr ⟨hf, h.made⟩
  · have hcalls : f ∉ s.calls := fun hmem => hout (List.mem_append_left _ hmem)
    show ∀ g ∈ f :: s.calls, ((s₁.saved false s.running).fibers g).state.dead = false ∧
      ((s₁.saved false s.running).fibers g).state ≠ .INIT
    simp only [saved_state]
    refine List.forall_mem_cons.mpr ⟨?_, ?_⟩
    · simp [hs₁, State.setState, FiberState.dead]
    · intro g hg
      have hgf : g ≠ f := fun hgf => hcalls (hgf ▸ hg)
      have hsame : s₁.fibers g = s.fibers g := put_of_ne s hgf _
      rw [hsame]
      exact h.alive g hg

/-! ### Returns -/

/-- The fibers behind a return, of which the first one runs. -/
def State.behind (s : State) : List Nat := s.calls.tail ++ [0]

theorem caller_mem (s : State) : s.caller ∈ s.behind := by
  rw [State.caller, State.behind]
  cases s.calls.tail <;> simp

theorem mem_stack_of_behind {g : Nat} (hg : g ∈ s.behind) : g ∈ s.stack := by
  rcases List.mem_append.mp hg with hg | hg
  · exact List.mem_append_left _ (List.mem_of_mem_tail hg)
  · exact List.mem_append_right _ hg

/-- The thread's own code goes back to itself, and a fiber to another one, and out
of the calls. -/
theorem Nested.caller_cases (h : Nested s) : s.caller = s.running ∧ s.running = 0 ∧ s.calls = [] ∨
    s.caller ≠ s.running ∧ s.running ∉ s.behind := by
  have hnodup := h.nodup
  have hrunning := h.running
  have hcaller := caller_mem s
  rw [State.stack] at hnodup
  rw [State.behind] at hcaller ⊢
  cases hc : s.calls with
  | nil =>
      rw [hc] at hrunning
      exact .inl ⟨by rw [State.caller, hc, hrunning]; rfl, hrunning, rfl⟩
  | cons f calls =>
      rw [hc, List.cons_append, List.nodup_cons] at hnodup
      rw [hc] at hrunning hcaller
      have hnot : s.running ∉ calls ++ [0] := hrunning ▸ hnodup.1
      exact .inr ⟨fun heq => hnot (heq ▸ hcaller), hnot⟩

theorem Nested.ne_of_behind_tail (h : Nested s) {g : Nat} (hg : g ∈ s.behind.tail) :
    g ≠ s.running := by
  rcases h.caller_cases with ⟨-, -, hcalls⟩ | ⟨-, hnot⟩
  · rw [State.behind, hcalls] at hg
    cases hg
  · exact fun heq => hnot (heq ▸ List.mem_of_mem_tail hg)

theorem Nested.ne_of_calls_tail (h : Nested s) {g : Nat} (hg : g ∈ s.calls.tail) :
    g ≠ s.running := by
  rcases h.caller_cases with ⟨-, -, hcalls⟩ | ⟨-, hnot⟩
  · rw [hcalls] at hg
    cases hg
  · exact fun heq => hnot (heq ▸ List.mem_append_left _ hg)

theorem Nested.mem_behind (h : Nested s) {g : Nat} (hg : g ∈ s.stack) (hne : g ≠ s.running) :
    g ∈ s.behind := by
  have htail := h.mem_tail hg hne
  rw [State.stack] at htail
  rw [State.behind]
  cases hc : s.calls with
  | nil =>
      rw [hc] at htail
      cases htail
  | cons f calls =>
      rw [hc] at htail
      exact htail

/-- Where `back` comes to its `swapcontext`. -/
def State.leaving (s : State) (state : FiberState) : State :=
  { s.setState s.running state with tFiber := some s.caller, calls := s.calls.tail }

theorem leaving_ctx {state : FiberState} {ended : Bool} {g : Nat} (hg : g ≠ s.running) :
    (((s.leaving state).saved ended s.running).fibers g).ctx = (s.fibers g).ctx := by
  rw [saved_of_ne hg]
  exact setState_ctx s s.running state g

theorem leaving_switches {state : FiberState} {ended : Bool} {g : Nat} (hg : g ≠ s.running) :
    ((s.leaving state).saved ended s.running).switches g = s.switches g :=
  saved_switches_of_ne hg

/-- It is the caller's code that goes on. -/
theorem Nested.resumes_caller (h : Nested s) {state : FiberState} {ended : Bool} {r : Nat}
    (hthread : ended = true → s.running ≠ 0)
    (hr : (((s.leaving state).saved ended s.running).fibers s.caller).ctx = .start ∧ r = s.caller ∨
      ∃ n, (((s.leaving state).saved ended s.running).fibers s.caller).ctx = .behind r n) :
    r = s.caller := by
  rcases h.caller_cases with ⟨heq, hzero, -⟩ | ⟨hne, -⟩
  · cases ended with
    | true => exact absurd hzero (hthread rfl)
    | false =>
        rw [heq, saved_self] at hr
        rcases hr with ⟨hr, -⟩ | ⟨n, hr⟩
        · cases hr
        · cases hr
          exact heq.symm
  · rw [leaving_ctx hne, h.waiting _ (h.mem_tail (mem_stack_of_behind (caller_mem s)) hne)] at hr
    rcases hr with ⟨hr, -⟩ | ⟨n, hr⟩
    · cases hr
    · cases hr
      rfl

theorem Nested.leave (h : Nested s) (state : FiberState) (ended : Bool) :
    Nested { (s.leaving state).saved ended s.running with running := s.caller } where
  nodup := h.nodup.sublist ((List.tail_sublist _).append_right _)
  running := rfl
  this := .inl rfl
  waiting := by
    intro g hg
    have hself : g ≠ s.running := h.ne_of_behind_tail hg
    show (((s.leaving state).saved ended s.running).fibers g).ctx =
      .behind g (((s.leaving state).saved ended s.running).switches g)
    rw [leaving_ctx hself, leaving_switches hself]
    exact h.waiting g (h.mem_tail (mem_stack_of_behind (List.mem_of_mem_tail hg)) hself)
  away := by
    intro g hle hg
    show (((s.leaving state).saved ended s.running).fibers g).ctx = _ ∨
      (((s.leaving state).saved ended s.running).fibers g).ctx =
        .behind g (((s.leaving state).saved ended s.running).switches g) ∨ _
    by_cases hself : g = s.running
    · -- the fiber that is left: at its end, or behind the `swapcontext` it made
      subst hself
      rw [saved_self]
      cases ended with
      | true => exact .inr (.inr rfl)
      | false =>
          have hswitch := saved_switches (s := s.leaving state) false s.running
          exact .inr (.inl (congrArg _ hswitch.symm))
    · rw [leaving_ctx hself, leaving_switches hself]
      exact h.away g hle fun hmem => hg (h.mem_behind hmem hself)

/-- **A return** to the caller, which goes on where it made the call. -/
theorem Inv.leave (h : Inv s) (state : FiberState) {ended : Bool}
    (hthread : ended = true → s.running ≠ 0) (hmain : s.mainFiber s.running = some s.caller)
    (ht : (s.setState s.running state).back ended s.running = some t) : Inv t := by
  have hswap : (s.leaving state).swapcontext ended s.running s.caller = some t := by
    rw [State.back, setState_mainFiber, hmain] at ht
    exact ht
  obtain ⟨r, rfl, hr⟩ := swapcontext_eq hswap
  obtain rfl := h.resumes_caller hthread hr
  refine ⟨h.toNested.leave state ended, .inl ⟨h.thread_of_main hmain, Option.some_ne_none _⟩,
    fun g hg => h.made g (List.mem_of_mem_tail hg), h.scheduler, ?_⟩
  intro g hg
  have hself : g ≠ s.running := h.ne_of_calls_tail hg
  have hsame : (s.leaving state).fibers g = s.fibers g := put_of_ne s hself _
  show (((s.leaving state).saved ended s.running).fibers g).state.dead = false ∧
    (((s.leaving state).saved ended s.running).fibers g).state ≠ .INIT
  rw [saved_state, hsame]
  exact h.alive g (List.mem_of_mem_tail hg)

/-! ## Returns by name -/

theorem Inv.yield_eq (h : Inv s) {state : FiberState} (ht : s.yield state = some t) :
    (s.getThis.setState s.getThis.running state).back false s.getThis.running = some t := by
  rw [State.yield] at ht
  simp only [h.getThis_fiber] at ht
  split at ht
  · rw [getThis_running]
    exact ht
  · cases ht

theorem Inv.back_eq (h : Inv s)
    (ht : s.getThis.tFiber.bind (s.getThis.back false) = some t) :
    (s.getThis.setState s.getThis.running
      (s.getThis.fibers s.getThis.running).state).back false s.getThis.running = some t := by
  rw [setState_self, getThis_running]
  rw [h.getThis_fiber] at ht
  exact ht

/-- A fiber's code runs behind the first `GetThis`. -/
theorem Inv.finish_eq (h : Inv s) {thrown : Bool} (ht : s.finish thrown = some t) :
    s.running ≠ 0 ∧ s.getThis = s ∧
      (s.setState s.running (if thrown then .EXCEPT else .TERM)).back true s.running =
        some t := by
  rw [State.finish] at ht
  split at ht
  · cases ht
  · rename_i hrunning
    refine ⟨hrunning, ?_, ht⟩
    rcases h.this with hthis | ⟨-, hcalls⟩
    · rw [State.getThis, hthis]
    · rw [h.running, hcalls] at hrunning
      exact absurd rfl hrunning

@[simp] theorem getThis_caller : s.getThis.caller = s.caller := by
  rw [State.caller, State.caller, getThis_calls]

theorem Inv.leave_this (h : Inv s) {state : FiberState}
    (hmain : s.getThis.mainFiber s.running = some s.caller)
    (ht : (s.getThis.setState s.getThis.running state).back false s.getThis.running = some t) :
    Inv t := by
  refine h.getThis.leave state (fun hf => by cases hf) ?_ ht
  rw [getThis_running, getThis_caller]
  exact hmain

/-! ## What nested calls need -/

theorem Inv.mainFiber_le (h : Inv s) {f m : Nat} (hm : s.mainFiber f = some m) :
    m ≤ s.fiberId := by
  rw [State.mainFiber] at hm
  split at hm
  · exact h.scheduler m hm
  · rcases h.thread with ⟨hthread, -⟩ | ⟨hnone, -⟩
    · cases hthread.symm.trans hm
      exact Nat.zero_le _
    · cases hnone.symm.trans hm

/-- A caller that the fiber does not go back to is kept in a context that is not
its own. -/
theorem Inv.call_disciplined (h : Inv s) {f : Nat} (ht : s.call f = some t) (hn : Nested t) :
    s.mainFiber f = some s.running ∧ f ∉ s.stack := by
  rw [State.call] at ht
  dsimp only at ht
  set s₁ : State := { s.setState f .EXEC with tFiber := some f, calls := f :: s.calls } with hs₁
  have hmain₁ : s₁.mainFiber f = s.mainFiber f := setState_mainFiber s f .EXEC f
  rw [hmain₁] at ht
  cases hm : s.mainFiber f with
  | none =>
      rw [hm] at ht
      cases ht
  | some m =>
      rw [hm] at ht
      obtain ⟨r, rfl, hr⟩ := swapcontext_eq ht
      have hnodup : (f :: s.stack).Nodup := hn.nodup
      have hrun : r = f := hn.running
      have hkept : ((s₁.saved false m).fibers m).ctx =
          .behind s.running (s.switches s.running + 1) := saved_self false m
      refine ⟨congrArg some (by_contra fun hne => ?_), (List.nodup_cons.mp hnodup).1⟩
      by_cases hmf : m = f
      · -- the call goes on with its own caller
        rw [← hmf, hkept] at hr
        rcases hr with ⟨hr, -⟩ | ⟨n, hr⟩
        · cases hr
        · cases hr
          exact hne (hmf.trans hrun.symm)
      · by_cases hin : m ∈ s.stack
        · have hwait := hn.waiting m hin
          rw [show (State.fibers _ m).ctx = _ from hkept] at hwait
          exact hne (Ctx.behind.inj hwait).1.symm
        · have hout : m ∉ f :: s.stack := by
            rw [List.mem_cons, not_or]
            exact ⟨hmf, hin⟩
          have haway := hn.away m (h.mainFiber_le hm) hout
          rw [show (State.fibers _ m).ctx = _ from hkept] at haway
          rcases haway with ha | ha | ha
          · cases ha
          · exact hne (Ctx.behind.inj ha).1.symm
          · cases ha

theorem leave_disciplined {state : FiberState} {ended : Bool}
    (ht : (s.setState s.running state).back ended s.running = some t) (hn : Nested t) :
    s.mainFiber s.running = some s.caller := by
  rw [State.back, setState_mainFiber] at ht
  cases hm : s.mainFiber s.running with
  | none =>
      rw [hm] at ht
      cases ht
  | some m =>
      rw [hm] at ht
      obtain ⟨r, rfl, -⟩ := swapcontext_eq ht
      have hrun : r = s.caller := hn.running
      rcases hn.this with hthis | ⟨hthis, -⟩
      · exact (show some m = some r from hthis).trans (congrArg some hrun)
      · cases hthis

/-- Before the thread has a fiber. -/
theorem inv_init : Inv {} where
  nodup := by decide
  running := rfl
  this := .inr ⟨rfl, rfl⟩
  waiting f hf := by cases hf
  away f _ _ := .inl rfl
  thread := .inr ⟨rfl, rfl, rfl⟩
  made f hf := by cases hf
  scheduler f hf := by cases hf
  alive f hf := by cases hf

/-- **The calls of fibers are nested.** Whatever a thread's code does with its
fibers, in all states `GetThis` is the fiber whose code runs, a fiber that goes
back goes back to its caller, and each of the others is kept where it stopped,
exactly if every call that is made is one of a fiber, in no call yet, by the fiber
that it goes back to. -/
theorem nested_iff (ops : List Op) :
    Always step Nested {} ops ↔
      Meets step (fun s op => (step s op).isSome → Disciplined s op) {} ops := by
  refine always_iff_meets ?_ (fun s (h : Inv s) => h.toNested) ?_ inv_init
  · intro s op t h hok ht
    have hd := hok (by rw [ht]; rfl)
    cases op with
    | getThis =>
        cases ht
        exact h.getThis
    | new joinSchedule =>
        cases ht
        exact h.new joinSchedule
    | reset f joinSchedule =>
        obtain ⟨-, ht⟩ := Option.ite_none_right_eq_some.mp ht
        exact h.reset ht
    | setUseCaller f =>
        obtain ⟨-, ht⟩ := Option.ite_none_right_eq_some.mp ht
        cases ht
        exact h.put (.inl rfl) (h.alive f)
    | useMainThread => exact h.useMainThread ht
    | run =>
        cases ht
        exact h.run
    | hold f =>
        obtain ⟨-, ht⟩ := Option.ite_none_right_eq_some.mp ht
        cases ht
        exact h.hold f
    | call f =>
        obtain ⟨hf, ht⟩ := Option.ite_none_right_eq_some.mp ht
        exact h.call hf.1 hd.1 hd.2 ht
    | yieldToReady => exact h.leave_this hd (h.yield_eq ht)
    | yieldToHold => exact h.leave_this hd (h.yield_eq ht)
    | back => exact h.leave_this hd (h.back_eq ht)
    | finish thrown =>
        obtain ⟨hrunning, hthis, ht⟩ := h.finish_eq ht
        rw [Disciplined, hthis] at hd
        exact h.leave _ (fun _ => hrunning) hd ht
  · intro s op h hn hsome
    obtain ⟨t, ht⟩ := Option.isSome_iff_exists.mp hsome
    replace hn := hn t ht
    cases op with
    | getThis | new | reset | setUseCaller | useMainThread | run | hold => trivial
    | call f =>
        obtain ⟨-, ht⟩ := Option.ite_none_right_eq_some.mp ht
        exact h.call_disciplined ht hn
    | yieldToReady | yieldToHold =>
        have hd := leave_disciplined (h.yield_eq ht) hn
        rwa [getThis_running, getThis_caller] at hd
    | back =>
        have hd := leave_disciplined (h.back_eq ht) hn
        rwa [getThis_running, getThis_caller] at hd
    | finish thrown =>
        obtain ⟨-, hthis, ht⟩ := h.finish_eq ht
        rw [Disciplined, hthis]
        exact leave_disciplined ht hn

end Steps

end Hps.Scheduler.Contexts
