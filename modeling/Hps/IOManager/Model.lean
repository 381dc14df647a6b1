import Mathlib.Algebra.Group.Nat.Defs
import Mathlib.Data.Finset.Card
import Mathlib.Logic.Function.Basic
import Hps.Lib.Run

/-!
# IOManager — the fd-context table, the kernel registration and the steps

The state of `iomanager.cc` that `addEvent`, `delEvent`, `cancelEvent`,
`cancelAll` and the dispatch loop of `idle` share, and the atomic steps the
threads take on it. A call is not one step: it looks the `FdContext` up
under the manager's lock (a read lock; `addEvent` on an fd out of range
drops it and takes the write lock to grow the table), and only then does
its work under the context's own mutex. Every critical section is one
`Act`, so an interleaving of calls is a list of `Act`s.

An `FdContext *` is the index of the object in `contexts`, which holds
every context ever allocated: `contextResize` may drop a pointer from the
table, it never deletes the object.
-/

namespace Hps.IOManager

/-- `IOManager::Event` without `NONE`: `READ` (`EPOLLIN`) and `WRITE`
(`EPOLLOUT`). A mask of event bits is a set of these. -/
inductive Event where
  | read
  | write
deriving DecidableEq, Repr

abbrev Events := Finset Event

/-- `FdContext::EventContext`: the pointers are present or null. -/
structure EventContext where
  scheduler : Option Nat := none
  fiber : Option Nat := none
  cb : Option Nat := none
deriving DecidableEq, Repr

/-- `resetContext`: every member null. -/
def EventContext.reset : EventContext := {}

structure FdContext where
  read : EventContext := {}
  write : EventContext := {}
  fd : Nat := 0
  events : Events := ∅
deriving DecidableEq

def FdContext.getContext (c : FdContext) : Event → EventContext
  | .read => c.read
  | .write => c.write

/-- Assignment through the reference `getContext` returns. -/
def FdContext.putContext (c : FdContext) (x : EventContext) : Event → FdContext
  | .read => { c with read := x }
  | .write => { c with write := x }

abbrev Ptr := Nat

/-- Where a process ends abnormally: an `ASSERT`, or a null pointer. -/
inductive Fault where
  | assertion
  | nullPointer
deriving DecidableEq, Repr

/-- What is to go on when an event comes. -/
inductive Continuation where
  | cb (f : Nat)
  | fiber (f : Nat)
deriving DecidableEq, Repr

/-- A call `scheduler->schedule` by `triggerEvent`. -/
structure Task where
  scheduler : Nat
  continuation : Continuation
deriving DecidableEq, Repr

/-- The bits of `epoll_event::events` the dispatcher looks at; `errhup` is
`EPOLLERR | EPOLLHUP`. -/
structure Report where
  epollin : Bool := false
  epollout : Bool := false
  errhup : Bool := false
deriving DecidableEq, Repr

/-- The thread a call is made from: its scheduler and its running fiber. -/
structure Caller where
  scheduler : Nat
  fiber : Nat
deriving DecidableEq, Repr

inductive Op where
  | addEvent (event : Event) (cb : Option Nat) (caller : Caller)
  | delEvent (event : Event)
  | cancelEvent (event : Event)
  | cancelAll
deriving DecidableEq, Repr

/-- Where a thread stands between two critical sections. -/
inductive Pc where
  /-- Outside `IOManager`. -/
  | ready
  /-- `addEvent` found `fd` out of range and dropped the read lock. -/
  | grow (fd : Nat) (op : Op)
  /-- The call holds its `fd_ctx` and is about to lock its mutex. -/
  | locked (fd : Nat) (op : Op) (ctx : Ptr)
  /-- `idle` still has these reports of its `epoll_wait` to dispatch. -/
  | idle (events : List (Ptr × Report))
deriving DecidableEq, Repr

structure State where
  /-- Every `FdContext` allocated so far. -/
  contexts : List FdContext := []
  /-- `m_fdContexts`. -/
  fdContexts : List (Option Ptr) := []
  /-- The kernel's interest list: registered mask and `data.ptr` per fd. -/
  interest : Nat → Option (Events × Ptr) := fun _ => none
  pendingEventCount : Nat := 0
  /-- What has been handed to the schedulers, oldest first. -/
  tasks : List Task := []
  threads : Nat → Pc := fun _ => .ready
  fault : Option Fault := none

/-! ## The fd-context table -/

/-- `std::vector::resize` on a vector of pointers. -/
def resize (l : List (Option Ptr)) (size : Nat) : List (Option Ptr) :=
  l.take size ++ List.replicate (size - l.length) none

/-- The loop of `contextResize` from index `i` on: every null entry gets a
new `FdContext` for its own fd. -/
def fillNull : Nat → List (Option Ptr) → List FdContext →
    List (Option Ptr) × List FdContext
  | _, [], cs => ([], cs)
  | i, some p :: l, cs =>
      let r := fillNull (i + 1) l cs
      (some p :: r.1, r.2)
  | i, none :: l, cs =>
      let r := fillNull (i + 1) l (cs ++ [{ fd := i }])
      (some cs.length :: r.1, r.2)

def State.contextResize (s : State) (size : Nat) : State :=
  let r := fillNull 0 (resize s.fdContexts size) s.contexts
  { s with fdContexts := r.1, contexts := r.2 }

/-- The constructor: `contextResize(32)` on an empty table. -/
def init : State := ({} : State).contextResize 32

/-- `fd * 1.5` truncated to `size_t`. -/
def growTarget (fd : Nat) : Nat := fd * 3 / 2

/-! ## epoll_ctl -/

inductive CtlOp where
  | add
  | mod
  | del
deriving DecidableEq, Repr

/-- `epoll_ctl`: it may fail at will (`ok = false`), and it always fails on
an `ADD` of a registered fd and on a `MOD` or `DEL` of an unregistered one. -/
def epollCtl (k : Nat → Option (Events × Ptr)) (ok : Bool) (op : CtlOp)
    (fd : Nat) (mask : Events) (ptr : Ptr) :
    Option (Nat → Option (Events × Ptr)) :=
  if !ok then none
  else match op, k fd with
    | .add, none => some (Function.update k fd (some (mask, ptr)))
    | .mod, some _ => some (Function.update k fd (some (mask, ptr)))
    | .del, some _ => some (Function.update k fd none)
    | _, _ => none

/-- `op = events ? EPOLL_CTL_MOD : EPOLL_CTL_DEL`. -/
def modOrDel (left : Events) : CtlOp := if left = ∅ then .del else .mod

/-! ## The critical sections -/

/-- `--m_pendingEventCount` on a `size_t`. -/
def decrement (n : Nat) : Nat := if n = 0 then 2 ^ 64 - 1 else n - 1

def State.setCtx (s : State) (p : Ptr) (c : FdContext) : State :=
  { s with contexts := s.contexts.set p c }

def State.fail (s : State) (f : Fault) : State := { s with fault := some f }

/-- `FdContext::triggerEvent` on the context at `p`: the pointer form of
`schedule` swaps the callback (or the fiber) out of the context. -/
def State.triggerEvent (s : State) (p : Ptr) (c : FdContext) (e : Event) :
    Except Fault (State × FdContext) :=
  if e ∈ c.events then
    let ctx := c.getContext e
    match ctx.scheduler with
    | none => .error .nullPointer
    | some sch =>
        let (task, ctx') := match ctx.cb with
          | some f => ([Task.mk sch (.cb f)], { ctx with cb := none })
          | none => ((ctx.fiber.map fun f => Task.mk sch (.fiber f)).toList,
              { ctx with fiber := none })
        let c' := { c with events := c.events.erase e }.putContext
          { ctx' with scheduler := none } e
        .ok ({ s.setCtx p c' with tasks := s.tasks ++ task }, c')
  else .error .assertion

/-- `triggerEvent(event); --m_pendingEventCount;` guarded by a bit test. -/
def State.triggerIf (b : Bool) (e : Event) (p : Ptr)
    (r : Except Fault (State × FdContext)) : Except Fault (State × FdContext) :=
  match r with
  | .error f => .error f
  | .ok (s, c) =>
      if b then
        match s.triggerEvent p c e with
        | .error f => .error f
        | .ok (s', c') =>
            .ok ({ s' with pendingEventCount := decrement s'.pendingEventCount }, c')
      else .ok (s, c)

/-- The part of `addEvent` under `fd_ctx->mutex`. -/
def State.addEvent (s : State) (ok : Bool) (fd : Nat) (p : Ptr) (c : FdContext)
    (e : Event) (cb : Option Nat) (caller : Caller) : State :=
  if e ∈ c.events then s.fail .assertion
  else
    let op : CtlOp := if c.events = ∅ then .add else .mod
    match epollCtl s.interest ok op fd (insert e c.events) p with
    | none => s
    | some k =>
        let c' := { c with events := insert e c.events }
        let s' := { s.setCtx p c' with
          interest := k, pendingEventCount := s.pendingEventCount + 1 }
        let ctx := c'.getContext e
        if ctx ≠ {} then s'.fail .assertion
        else
          let ctx' := match cb with
            | some f => { ctx with scheduler := some caller.scheduler, cb := some f }
            | none => { ctx with
                scheduler := some caller.scheduler, fiber := some caller.fiber }
          s'.setCtx p (c'.putContext ctx' e)

/-- The part of `delEvent` under `fd_ctx->mutex`. -/
def State.delEvent (s : State) (ok : Bool) (fd : Nat) (p : Ptr) (c : FdContext)
    (e : Event) : State :=
  if e ∈ c.events then
    let left := c.events.erase e
    match epollCtl s.interest ok (modOrDel left) fd left p with
    | none => s
    | some k =>
        { s.setCtx p ({ c with events := left }.putContext EventContext.reset e) with
          interest := k, pendingEventCount := decrement s.pendingEventCount }
  else s

/-- Take the outcome of the triggers, or end the process. -/
def State.settle (s : State) : Except Fault (State × FdContext) → State
  | .ok (s', _) => s'
  | .error f => s.fail f

/-- The part of `cancelEvent` under `fd_ctx->mutex`. -/
def State.cancelEvent (s : State) (ok : Bool) (fd : Nat) (p : Ptr) (c : FdContext)
    (e : Event) : State :=
  if e ∈ c.events then
    let left := c.events.erase e
    match epollCtl s.interest ok (modOrDel left) fd left p with
    | none => s
    | some k =>
        s.settle (State.triggerIf true e p (.ok ({ s with interest := k }, c)))
  else s

/-- The part of `cancelAll` under `fd_ctx->mutex`. -/
def State.cancelAll (s : State) (ok : Bool) (fd : Nat) (p : Ptr) (c : FdContext) :
    State :=
  if c.events = ∅ then s
  else match epollCtl s.interest ok .del fd ∅ p with
    | none => s
    | some k =>
        match State.triggerIf (.read ∈ c.events) .read p (.ok ({ s with interest := k }, c)) with
        | .error f => s.fail f
        | .ok (s₁, c₁) =>
            match State.triggerIf (.write ∈ c₁.events) .write p (.ok (s₁, c₁)) with
            | .error f => s.fail f
            | .ok (s₂, c₂) =>
                if c₂.events = ∅ then s₂ else s₂.fail .assertion

/-- The `READ`/`WRITE` bits `epoll_wait` reported. -/
def Report.reported (r : Report) : Events :=
  (if r.epollin then {.read} else ∅) ∪ (if r.epollout then {.write} else ∅)

/-- `real_events`: an error or hang-up report stands for every registered
event. -/
def Report.realEvents (r : Report) (registered : Events) : Events :=
  r.reported ∪ (if r.errhup then registered else ∅)

/-- One round of the dispatch loop of `idle`, under `fd_ctx->mutex`. -/
def State.dispatch (s : State) (ok : Bool) (p : Ptr) (c : FdContext) (r : Report) :
    State :=
  let real := r.realEvents c.events
  if c.events ∩ real = ∅ then s
  else
    let left := c.events \ real
    match epollCtl s.interest ok (modOrDel left) c.fd left p with
    | none => s
    | some k =>
        s.settle (State.triggerIf (.write ∈ real) .write p
          (State.triggerIf (.read ∈ real) .read p (.ok ({ s with interest := k }, c))))

/-! ## The step function -/

inductive Act where
  /-- Thread `t` makes the call and looks `fd` up under the manager's lock. -/
  | call (t fd : Nat) (op : Op)
  /-- Thread `t` grows the table under the write lock. -/
  | grow (t : Nat)
  /-- Thread `t` runs its section under the context's mutex; `ok` is the
  outcome of its `epoll_ctl`. -/
  | enter (t : Nat) (ok : Bool)
  /-- `epoll_wait` returns to thread `t` with a report for each of these fds. -/
  | wait (t : Nat) (events : List (Nat × Report))
deriving DecidableEq, Repr

def State.setPc (s : State) (t : Nat) (pc : Pc) : State :=
  { s with threads := Function.update s.threads t pc }

/-- `fd_ctx = m_fdContexts[fd]`, then on to the context's mutex. -/
def State.hold (s : State) (t fd : Nat) (op : Op) : State :=
  match s.fdContexts[fd]? with
  | some (some p) => s.setPc t (.locked fd op p)
  | _ => s.fail .nullPointer

/-- What the kernel may report for `fd`: only events it is registered for
(`EPOLLERR` and `EPOLLHUP` are always reported), with its `data.ptr`. -/
def State.reportOf (s : State) (x : Nat × Report) : Option (Ptr × Report) :=
  match s.interest x.1 with
  | some (mask, p) => if x.2.reported ⊆ mask then some (p, x.2) else none
  | none => none

def State.runOp (s : State) (ok : Bool) (fd : Nat) (p : Ptr) (c : FdContext) : Op → State
  | .addEvent e cb caller => s.addEvent ok fd p c e cb caller
  | .delEvent e => s.delEvent ok fd p c e
  | .cancelEvent e => s.cancelEvent ok fd p c e
  | .cancelAll => s.cancelAll ok fd p c

def Op.isAdd : Op → Bool
  | .addEvent .. => true
  | _ => false

def step (s : State) (a : Act) : Option State :=
  if s.fault.isSome then none
  else match a with
    | .call t fd op =>
        match s.threads t with
        | .ready =>
            if fd < s.fdContexts.length then some (s.hold t fd op)
            else if op.isAdd then some (s.setPc t (.grow fd op))
            else some s
        | _ => none
    | .grow t =>
        match s.threads t with
        | .grow fd op => some ((s.contextResize (growTarget fd)).hold t fd op)
        | _ => none
    | .enter t ok =>
        match s.threads t with
        | .locked fd op p =>
            match s.contexts[p]? with
            | some c => some ((s.runOp ok fd p c op).setPc t .ready)
            | none => none
        | .idle ((p, r) :: rest) =>
            match s.contexts[p]? with
            | some c => some ((s.dispatch ok p c r).setPc t
                (if rest = [] then .ready else .idle rest))
            | none => none
        | _ => none
    | .wait t events =>
        match s.threads t with
        | .ready =>
            match events.mapM s.reportOf with
            | some (x :: xs) => some (s.setPc t (.idle (x :: xs)))
            | _ => none
        | _ => none

end Hps.IOManager
