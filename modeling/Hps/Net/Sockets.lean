import Hps.Hook.Model
import Hps.Lib.Handles
import Hps.Net.Bind

/-!
# Net — sockets and their system calls

The methods of `Socket` and `SSLSocket` that open, use and close descriptors, as
programs that make system calls. The methods of different sockets run at once,
on threads whose hook is enabled or not, and may wait at each call. What is left
out of a socket is its protocol, which is always 0, and the number of bytes.
-/

namespace Hps.Net.Descriptors

open Hps.Lib

/-! ## System calls -/

/-- What is asked of one descriptor, to succeed or to fail. -/
inductive Request where
  | setsockopt
  | connect (addr : Address)
  | bind (addr : Address)
  | listen
  /-- `send`, `recv` and their kin -/
  | transfer
  | sslConnect
  | sslAccept
  deriving DecidableEq

/-- The calls that a `Socket` makes; `none` is the descriptor -1. -/
inductive Sys where
  | socket (hook : Bool) (family type : Int)
  | accept (hook : Bool) (sock : Option Nat)
  | close (hook : Bool) (fd : Nat)
  /-- `FdMgr::GetInstance()->get(fd)` -/
  | get (fd : Nat)
  | ask (q : Request) (fd : Option Nat)
  | getsockname (fd : Option Nat)
  | getpeername (fd : Option Nat)
  | unlink (path : List UInt8)
  deriving DecidableEq

/-- A number or -1; whether the context is that of an open socket; whether a
request succeeds; an address if there is one. -/
abbrev Sys.Answer : Sys → Type
  | .socket .. => Option Nat
  | .accept .. => Option Nat
  | .close .. => Unit
  | .get _ => Bool
  | .ask .. => Bool
  | .getsockname _ => Option Address
  | .getpeername _ => Option Address
  | .unlink _ => Unit

/-- `ctx && ctx->isSocket() && !ctx->isClose()` -/
def isOpenSocket (s : Hook.State) (fd : Nat) : Bool :=
  (s.ctx fd).any fun c => c.isSocket && !c.isClosed

/-- What the hooks and the kernel make of a call; on -1 nothing succeeds. -/
def answer (s : Hook.State) : (c : Sys) → c.Answer → Option Hook.State
  | .socket hook _ _, fd => Hook.step s (.socket hook 0 fd)
  | .accept hook sock, fd =>
      if sock = none ∧ fd.isSome then none else Hook.step s (.accept hook fd)
  | .close hook fd, _ => Hook.step s (.close hook fd)
  | .get fd, r => if r = isOpenSocket s fd then some s else none
  | .ask _ fd, r => if fd = none ∧ r = true then none else some s
  | .getsockname fd, r => if fd = none ∧ r.isSome then none else some s
  | .getpeername fd, r => if fd = none ∧ r.isSome then none else some s
  | .unlink _, _ => some s

def Sys.target : Sys → Option Nat
  | .close _ fd => some fd
  | .get fd => some fd
  | .ask _ fd => fd
  | .getsockname fd => fd
  | .getpeername fd => fd
  | _ => none

def Sys.closes : Sys → Prop
  | .close .. => True
  | _ => False

def Sys.opens : (c : Sys) → c.Answer → Option Nat
  | .socket .., fd => fd
  | .accept .., fd => fd
  | _, _ => none

def kernel : Kernel Sys Sys.Answer Hook.State Nat (Option Hook.FdCtx) where
  answer
  Open s fd := (s.file fd).isSome
  view s fd := s.ctx fd
  target := Sys.target
  closes := Sys.closes
  opens := Sys.opens

/-! ## `Socket` and `SSLSocket` -/

abbrev Call := Prog Sys Sys.Answer

def sys (c : Sys) : Call c.Answer := Prog.send c

def ask (q : Request) (fd : Option Nat) : Call Bool := sys (.ask q fd)

/-- `SOCK_STREAM` -/
def TCP : Int := 1

/-- `SOCK_DGRAM` -/
def UDP : Int := 2

/-- A `Socket`, or an `SSLSocket` with the descriptor its `m_ssl` was set to.
`m_protocol` is always 0. -/
structure Socket where
  ssl : Bool := false
  sock : Option Nat := none
  family : Int
  type : Int := TCP
  isConnected : Bool := false
  localAddress : Option Address := none
  remoteAddress : Option Address := none
  sslSession : Option Nat := none
  deriving DecidableEq

namespace Socket

def isValid (x : Socket) : Bool := x.sock.isSome

def initSock (x : Socket) : Call Unit := do
  let _ ← ask .setsockopt x.sock
  if x.type = TCP then
    let _ ← ask .setsockopt x.sock
    pure ()
  else pure ()

def newSock (hook : Bool) (x : Socket) : Call Socket := do
  let fd ← sys (.socket hook x.family x.type)
  let x := { x with sock := fd }
  if x.isValid then
    let _ ← x.initSock
    pure x
  else pure x

/-- How `bind` and `connect` begin: a socket without a descriptor gets one. -/
def ready (hook : Bool) (x : Socket) : Call Socket :=
  if x.isValid then pure x else x.newSock hook

def getRemoteAddress (x : Socket) : Call Socket :=
  if x.remoteAddress.isSome then pure x
  else do
    let addr ← sys (.getpeername x.sock)
    pure { x with remoteAddress := addr }

def getLocalAddress (x : Socket) : Call Socket :=
  if x.localAddress.isSome then pure x
  else do
    let addr ← sys (.getsockname x.sock)
    pure { x with localAddress := addr }

def close (hook : Bool) (x : Socket) : Call Socket :=
  if !x.isConnected && !x.isValid then pure x
  else
    match x.sock with
    | none => pure { x with isConnected := false }
    | some fd => do
        let _ ← sys (.close hook fd)
        pure { x with isConnected := false, sock := none }

/-- `Socket::connect` -/
def connectBase (hook : Bool) (addr : Address) (x : Socket) : Call (Bool × Socket) := do
  let x ← { x with remoteAddress := some addr }.ready hook
  if !x.isValid then pure (false, x)
  else if addr.getFamily ≠ x.family then pure (false, x)
  else
    let ok ← ask (.connect addr) x.sock
    if !ok then
      let x ← x.close hook
      pure (false, x)
    else
      let x := { x with isConnected := true }
      let x ← x.getRemoteAddress
      let x ← x.getLocalAddress
      pure (true, x)

/-- `connect(addr)`, of either class. -/
def connect (hook : Bool) (addr : Address) (x : Socket) : Call (Bool × Socket) := do
  let (ok, x) ← x.connectBase hook addr
  if x.ssl && ok then
    let x := { x with sslSession := x.sock }
    let ok ← ask .sslConnect x.sslSession
    pure (ok, x)
  else pure (ok, x)

def reconnect (hook : Bool) (x : Socket) : Call (Bool × Socket) :=
  match x.remoteAddress with
  | none => pure (false, x)
  | some addr => { x with localAddress := none }.connect hook addr

/-- What `bind` does first at a path: if somebody listens there it is not free,
else its file is removed. The socket that asks is destroyed behind it. -/
def taken (hook : Bool) : Address → Call Bool
  | .sockaddr _ _ => pure false
  | .unix path => do
      let (ok, sock) ← ({ family := Address.afUnix } : Socket).connect hook (.unix path)
      if ok then
        let _ ← sock.close hook
        pure true
      else
        let _ ← sys (.unlink path)
        let _ ← sock.close hook
        pure false

def bind (hook : Bool) (addr : Address) (x : Socket) : Call (Bool × Socket) := do
  let x ← x.ready hook
  if !x.isValid then pure (false, x)
  else if addr.getFamily ≠ x.family then pure (false, x)
  else
    let isTaken ← taken hook addr
    if isTaken then pure (false, x)
    else
      let ok ← ask (.bind addr) x.sock
      if !ok then pure (false, x)
      else
        let x ← x.getLocalAddress
        pure (true, x)

def listen (x : Socket) : Call Bool :=
  if !x.isValid then pure false
  else do
    let ok ← ask .listen x.sock
    pure ok

/-- `Socket::init(sock)` -/
def initBase (sock : Nat) (x : Socket) : Call (Bool × Socket) := do
  let managed ← sys (.get sock)
  if managed then
    let x := { x with sock := some sock, isConnected := true }
    let _ ← x.initSock
    let x ← x.getLocalAddress
    let x ← x.getRemoteAddress
    pure (true, x)
  else pure (false, x)

/-- `init(sock)`, of either class. -/
def init (sock : Nat) (x : Socket) : Call (Bool × Socket) := do
  let (ok, x) ← x.initBase sock
  if x.ssl && ok then
    let x := { x with sslSession := x.sock }
    let ok ← ask .sslAccept x.sslSession
    pure (ok, x)
  else pure (ok, x)

/-- `accept()` of a listening socket `x`. A new socket that is not returned is
destroyed. -/
def accept (hook : Bool) (x : Socket) : Call (Option Socket) := do
  let sock : Socket := { ssl := x.ssl, family := x.family, type := x.type }
  let newsock ← sys (.accept hook x.sock)
  match newsock with
  | none => do
      let _ ← sock.close hook
      pure none
  | some fd => do
      let (ok, sock) ← sock.init fd
      if ok then pure (some sock)
      else
        let _ ← sock.close hook
        pure none

/-- `send`, `recv` and their kin: a `Socket` asks whether it is connected, an
`SSLSocket` whether it has a session. -/
def transfer (x : Socket) : Call Unit :=
  if x.ssl then
    match x.sslSession with
    | none => pure ()
    | some fd => do
        let _ ← ask .transfer (some fd)
        pure ()
  else if x.isConnected then do
    let _ ← ask .transfer x.sock
    pure ()
  else pure ()

end Socket

/-! ## Sockets side by side -/

/-- What is done to a place for a socket. `create` stands for the functions that
make one without a descriptor (`CreateTCP`, `CreateTCPSocket`,
`CreateUnixUDPSocket` and so on), `createUDP` for those that open one. -/
inductive Method where
  | create (ssl : Bool) (family type : Int)
  | createUDP (hook : Bool) (family : Int)
  | accept (hook : Bool) (listening : Socket)
  | bind (hook : Bool) (addr : Address)
  | listen
  | connect (hook : Bool) (addr : Address)
  | reconnect (hook : Bool)
  | transfer
  | close (hook : Bool)
  /-- `~Socket` -/
  | destroy (hook : Bool)

/-- The program of a method, in a place without a socket or with one. -/
def Method.prog : Method → Option Socket → Option (Call (Option Socket))
  | create ssl family type, none => some (pure (some { ssl, family, type }))
  | createUDP hook family, none => some do
      let x ← ({ family, type := UDP } : Socket).newSock hook
      pure (some { x with isConnected := true })
  | accept hook listening, none => some (listening.accept hook)
  | bind hook addr, some x => some do
      let (_, x) ← x.bind hook addr
      pure (some x)
  | listen, some x => some do
      let _ ← x.listen
      pure (some x)
  | connect hook addr, some x => some do
      let (_, x) ← x.connect hook addr
      pure (some x)
  | reconnect hook, some x => some do
      let (_, x) ← x.reconnect hook
      pure (some x)
  | transfer, some x => some do
      let _ ← x.transfer
      pure (some x)
  | close hook, some x => some do
      let x ← x.close hook
      pure (some x)
  | destroy hook, some x => some do
      let _ ← x.close hook
      pure none
  | _, _ => none

abbrev State := Kernel.System Sys Sys.Answer Hook.State Nat (Option Socket)

abbrev Act := Kernel.Act Sys Sys.Answer Nat Method

/-- No socket, and no descriptor. -/
def start : State := ⟨{}, fun _ => .ret none⟩

def step : State → Act → Option State := kernel.step Method.prog

end Hps.Net.Descriptors
