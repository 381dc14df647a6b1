import Hps.Lib.Run

/-!
# Hook — descriptors and their contexts

The part of `hook.cc` and `fd_manager.cc` that keeps an `FdCtx` beside every
descriptor: the hooked `socket`, `accept` and `close`, and the calls that ask
for a mode (`fcntl`, `ioctl`, `setsockopt`). A call is one step. The kernel
hands out any number that is not open, so that a number may come back as soon
as it is closed.
-/

namespace Hps.Hook

/-- File status flags, an `int`. -/
abbrev Flags := BitVec 32

def O_NONBLOCK : Flags := 0x800

/-- `flags & O_NONBLOCK`, as a condition. -/
def asksNonblock (flags : Flags) : Bool := flags &&& O_NONBLOCK != 0

/-- The flags `F_SETFL` can change: `O_APPEND`, `O_NONBLOCK`, `O_ASYNC`,
`O_DIRECT` and `O_NOATIME`. -/
def setflMask : Flags := 0x46c00

/-- An open file. `serial` counts the opens before it. -/
structure File where
  serial : Nat
  isSocket : Bool
  flags : Flags

def File.nonblock (f : File) : Bool := asksNonblock f.flags

structure Kernel where
  files : Nat → Option File := fun _ => none
  opened : Nat := 0

namespace Kernel

/-- Puts a file behind a number. -/
def put (k : Kernel) (fd : Nat) (f : Option File) : Kernel :=
  { k with files := fun n => if n = fd then f else k.files n }

/-- A new socket gets the number `fd`. -/
def openSocket (k : Kernel) (fd : Nat) (flags : Flags) : Kernel :=
  { k.put fd (some ⟨k.opened, true, flags⟩) with opened := k.opened + 1 }

/-- `close_f` -/
def close (k : Kernel) (fd : Nat) : Kernel := k.put fd none

/-- `fcntl_f(fd, F_SETFL, arg)` -/
def setfl (k : Kernel) (fd : Nat) (arg : Flags) : Kernel :=
  match k.files fd with
  | none => k
  | some f =>
      k.put fd (some { f with
        flags := (f.flags &&& ~~~setflMask) ||| (arg &&& setflMask) })

/-- `ioctl_f(fd, FIONBIO, &on)` -/
def fionbio (k : Kernel) (fd : Nat) (on : BitVec 32) : Kernel :=
  match k.files fd with
  | none => k
  | some f =>
      k.put fd (some { f with
        flags := if on = 0 then f.flags &&& ~~~O_NONBLOCK
          else f.flags ||| O_NONBLOCK })

end Kernel

/-! ## `FdCtx` -/

/-- `FdCtx`. `created` counts the opens before its constructor ran. -/
structure FdCtx where
  isInit : Bool
  isSocket : Bool
  sysNonblock : Bool
  userNonblock : Bool
  isClosed : Bool
  fd : Nat
  recvTimeout : UInt64
  sendTimeout : UInt64
  created : Nat

/-- `(uint64_t)-1` -/
def noTimeout : UInt64 := 0xffffffffffffffff

/-- What `init` does to the kernel: a socket is made non-blocking. -/
def Kernel.initSocket (k : Kernel) (fd : Nat) : Kernel :=
  match k.files fd with
  | none => k
  | some f =>
      if f.isSocket ∧ ¬f.nonblock then k.setfl fd (f.flags ||| O_NONBLOCK) else k

/-- The constructor of `FdCtx`, which runs `init`. -/
def FdCtx.new (k : Kernel) (fd : Nat) : FdCtx where
  isInit := (k.files fd).isSome
  isSocket := (k.files fd).any File.isSocket
  sysNonblock := (k.files fd).any File.isSocket
  userNonblock := false
  isClosed := false
  fd := fd
  recvTimeout := noTimeout
  sendTimeout := noTimeout
  created := k.opened

/-- The option a timeout is set for: `SO_RCVTIMEO`, or `SO_SNDTIMEO`. -/
inductive TimeoutOf where
  | recv
  | send
  deriving DecidableEq, Repr

def FdCtx.setTimeout (c : FdCtx) (type : TimeoutOf) (v : UInt64) : FdCtx :=
  match type with
  | .recv => { c with recvTimeout := v }
  | .send => { c with sendTimeout := v }

/-! ## `FdManager` -/

/-- `m_datas.resize(fd * 1.5)`, if `fd` is out of range. -/
def growTo {α : Type} (fd : Nat) (datas : List (Option α)) : List (Option α) :=
  if fd ≥ datas.length then datas ++ List.replicate (fd * 3 / 2 - datas.length) none
  else datas

theorem length_growTo {α : Type} {fd : Nat} {datas : List (Option α)}
    (h : 64 ≤ datas.length) :
    fd < (growTo fd datas).length ∧ datas.length ≤ (growTo fd datas).length := by
  rw [growTo]
  split
  · rw [List.length_append, List.length_replicate]
    omega
  · omega

/-- The new entries are empty. -/
theorem getElem?_growTo {α : Type} (fd : Nat) (datas : List (Option α)) (n : Nat) :
    (growTo fd datas)[n]?.join = datas[n]?.join := by
  rw [growTo]
  split
  · rw [List.getElem?_append]
    split
    · rfl
    · rename_i hn
      rw [List.getElem?_eq_none (Nat.not_lt.mp hn), List.getElem?_replicate]
      split <;> rfl
  · rfl

/-- The contexts by descriptor; the vector starts with 64 entries and only
grows. -/
structure FdManager where
  datas : List (Option FdCtx)
  large : 64 ≤ datas.length

namespace FdManager

def new : FdManager := ⟨List.replicate 64 none, by simp⟩

/-- `get(fd)` -/
def get (m : FdManager) (fd : Nat) : Option FdCtx := m.datas[fd]?.join

/-- `m_datas[fd] = ctx`, after the growth to `fd * 1.5` if `fd` is out of
range. -/
def store (m : FdManager) (fd : Nat) (ctx : Option FdCtx) : FdManager where
  datas := (growTo fd m.datas).set fd ctx
  large := by
    rw [List.length_set]
    exact Nat.le_trans m.large (length_growTo m.large).2

/-- `m_datas[fd].reset()`, if `fd` is in range. -/
def del (m : FdManager) (fd : Nat) : FdManager where
  datas := m.datas.set fd none
  large := by
    rw [List.length_set]
    exact m.large

end FdManager

structure State where
  kernel : Kernel := {}
  fdMgr : FdManager := .new

namespace State

def ctx (s : State) (fd : Nat) : Option FdCtx := s.fdMgr.get fd

def file (s : State) (fd : Nat) : Option File := s.kernel.files fd

/-- The kernel opens a socket. -/
def openSocket (s : State) (fd : Nat) (flags : Flags) : State :=
  { s with kernel := s.kernel.openSocket fd flags }

/-- `FdMgr::GetInstance()->get(fd, true)` -/
def getAutoCreate (s : State) (fd : Nat) : State :=
  if (s.ctx fd).isSome then s
  else
    { kernel := s.kernel.initSocket fd
      fdMgr := s.fdMgr.store fd (some (.new s.kernel fd)) }

/-- Writes through the pointer that `get(fd)` returned. -/
def setCtx (s : State) (fd : Nat) (c : FdCtx) : State :=
  { s with fdMgr := s.fdMgr.store fd (some c) }

/-- `!ctx || ctx->isClose() || !ctx->isSocket()`, the other way around -/
def managed (s : State) (fd : Nat) : Option FdCtx :=
  (s.ctx fd).filter fun c => !c.isClosed && c.isSocket

end State

/-! ## Opening and closing -/

/-- The calls that open and close, each by a thread whose hook is enabled or
not. `fd` is the number the kernel returned, `none` that it returned -1. -/
inductive Call where
  | socket (hook : Bool) (flags : Flags) (fd : Option Nat)
  | accept (hook : Bool) (fd : Option Nat)
  | close (hook : Bool) (fd : Nat)
  deriving DecidableEq

/-- One call; `none` if the kernel cannot have returned that number. -/
def step (s : State) : Call → Option State
  | .socket _ _ none => some s
  | .socket hook flags (some fd) =>
      if (s.file fd).isSome then none
      else
        let s := s.openSocket fd flags
        some (if hook then s.getAutoCreate fd else s)
  | .accept _ none => some s
  | .accept _ (some fd) =>
      -- `do_io` asks for the hook, what follows it does not
      if (s.file fd).isSome then none
      else
        some ((s.openSocket fd 0).getAutoCreate fd)
  | .close hook fd =>
      let s := if hook then
          if (s.ctx fd).isSome then { s with fdMgr := s.fdMgr.del fd } else s
        else s
      some { s with kernel := s.kernel.close fd }

/-! ## Modes -/

/-- The calls that ask for a mode. `timeout` is a `setsockopt` of
`SO_RCVTIMEO` or `SO_SNDTIMEO`, `sockopt` any other. -/
inductive Control where
  | setfl (arg : Flags)
  | getfl
  | fionbio (flag : BitVec 32)
  | timeout (type : TimeoutOf) (sec usec : Int)
  | sockopt
  deriving DecidableEq

namespace State

/-- `fcntl(fd, F_SETFL, arg)` -/
def fcntlSetfl (s : State) (fd : Nat) (arg : Flags) : State :=
  match s.managed fd with
  | none => { s with kernel := s.kernel.setfl fd arg }
  | some c =>
      let s := s.setCtx fd { c with userNonblock := asksNonblock arg }
      let arg := if c.sysNonblock then arg ||| O_NONBLOCK else arg &&& ~~~O_NONBLOCK
      { s with kernel := s.kernel.setfl fd arg }

/-- What `fcntl(fd, F_GETFL)` returns. -/
def fcntlGetfl (s : State) (fd : Nat) : Option Flags :=
  (s.file fd).map fun f =>
    match s.managed fd with
    | none => f.flags
    | some c =>
        if c.userNonblock then f.flags ||| O_NONBLOCK else f.flags &&& ~~~O_NONBLOCK

/-- `ioctl(fd, FIONBIO, &flag)` -/
def ioctlFionbio (s : State) (fd : Nat) (flag : BitVec 32) : State :=
  let s :=
    match s.managed fd with
    | none => s
    | some c => s.setCtx fd { c with userNonblock := flag != 0 }
  { s with kernel := s.kernel.fionbio fd flag }

/-- `setsockopt` of a timeout, with the hook enabled. -/
def setsockoptTimeout (s : State) (fd : Nat) (type : TimeoutOf) (sec usec : Int) :
    State :=
  match s.ctx fd with
  | none => s
  | some c => s.setCtx fd
      (c.setTimeout type (UInt64.ofInt (sec * 1000 + usec.tdiv 1000)))

def control (s : State) (fd : Nat) : Control → State
  | .setfl arg => s.fcntlSetfl fd arg
  | .getfl => s
  | .fionbio flag => s.ioctlFionbio fd flag
  | .timeout type sec usec => s.setsockoptTimeout fd type sec usec
  | .sockopt => s

end State

end Hps.Hook
