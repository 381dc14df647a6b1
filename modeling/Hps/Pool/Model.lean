import Hps.Http.Connection
import Hps.Http.Dump
import Hps.Lib.Run

/-!
# Pool — an `HttpConnectionPool`

`getConnection` and `ReleasePtr` as the sections that other threads can come
between, and what `doRequest` does between the two. A connection is an index
into all that were ever made; the calls in progress stand in no order.

`m_maxSize` is left out: nothing reads it. A clock reading is a natural
number of milliseconds.
-/

namespace Hps.Pool

open Hps.Lib Hps.Http

/-! ## Connections -/

structure HttpConnection where
  socket : Socket
  createTime : Nat
  request : Nat
  /-- When the socket was connected; the program does not keep it. -/
  established : Nat
  /-- Something of a request was not written, or of its response not read. -/
  spoiled : Bool

namespace HttpConnection

/-- `HttpConnection(sock)` for a socket that was connected at `now`. -/
def new (now : Nat) : HttpConnection where
  socket := { arrivals := [] }
  createTime := 0
  request := 0
  established := now
  spoiled := false

def isConnected (c : HttpConnection) : Bool := c.socket.connected

def close (c : HttpConnection) : HttpConnection := { c with socket := c.socket.close }

end HttpConnection

/-- The members of the pool that do not change. -/
structure Config where
  maxAliveTime : Nat
  maxRequest : Nat

/-! ## Requests -/

/-- What comes from outside while a request is made. -/
structure Exchange where
  req : HttpRequest
  websocket : Bool
  /-- What the writes return, one after the other; -1 behind the last. -/
  sends : List Int
  /-- What the peer answers. -/
  answer : List Arrival
  /-- A read behind the answer fails, rather than finding the end. -/
  broken : Bool

/-- The loop of `writeFixSize(buffer, length)`: what it returns early, and
how much is left. -/
def writeLoop : List Int → Nat → Option Int × Nat
  | _, 0 => (none, 0)
  | [], left => (some (-1), left)
  | len :: sends, left =>
      if len ≤ 0 then (some len, left) else writeLoop sends (left - len.toNat)

/-- `sendRequest(req)`: what it returns, and how much was left to write. -/
def sendRequest (connected : Bool) (x : Exchange) : Int × Nat :=
  let data := x.req.toString x.websocket
  let (early, left) := writeLoop (if connected then x.sends else []) data.length
  (early.getD (toInt32 data.length), left)

/-- `HttpResult::Error`, as far as `doRequest` uses it with a connection. -/
inductive Error where
  | OK
  | SEND_CLOSE_BY_PEER
  | SEND_SOCKET_ERROR
  | TIMEOUT
  deriving DecidableEq, Repr

/-- What `doRequest` returns or throws, and the connection. -/
abbrev Exchanged := Except Response.Fault (Error × Option HttpResponse) × HttpConnection

/-- The part of `doRequest` between `getConnection` and the release. The
connection is spoiled unless the request was written to its end and nothing
of the answer is left to read. -/
def exchange (buff : Response.BuffSize) (x : Exchange) (c : HttpConnection) : Exchanged :=
  let (rt, left) := sendRequest c.isConnected x
  let socket := { c.socket with arrivals := c.socket.arrivals ++ x.answer, broken := x.broken }
  if rt = 0 then
    (.ok (.SEND_CLOSE_BY_PEER, none), { c with socket, spoiled := true })
  else if rt < 0 then
    (.ok (.SEND_SOCKET_ERROR, none), { c with socket, spoiled := true })
  else
    match Response.recvResponse buff socket with
    | (.error e, socket) => (.error e, { c with socket, spoiled := true })
    | (.ok none, socket) => (.ok (.TIMEOUT, none), { c with socket, spoiled := true })
    | (.ok (some rsp), socket) =>
        (.ok (.OK, some rsp),
          { c with socket, spoiled := c.spoiled || left != 0 || !socket.arrivals.isEmpty })

/-! ## The pool -/

/-- An `HttpConnection *`. -/
abbrev ConnId := Nat

/-- What a call in progress does next. -/
inductive Pc where
  /-- `getConnection` has read the clock. -/
  | scanning (now : Nat)
  /-- It has left the lock with what it found, and the invalid ones. -/
  | dropping (invalid : List ConnId) (ptr : Option ConnId)
  /-- The invalid ones are deleted, and not yet subtracted. -/
  | subtracting (n : Nat) (ptr : Option ConnId)
  | connecting
  /-- The new connection is not yet added to `m_total`. -/
  | counting (id : ConnId)
  /-- `ReleasePtr` has deleted the connection. -/
  | uncounting
  /-- It is to be put back. -/
  | pushing (id : ConnId)
  deriving DecidableEq, Repr

structure State where
  /-- Every connection that was made, a deleted one as `none`. -/
  heap : List (Option HttpConnection) := []
  /-- `m_conns` -/
  conns : List ConnId := []
  /-- `m_total` -/
  total : Int := 0
  /-- The connections that were returned and not yet released. -/
  held : List ConnId := []
  calls : List Pc := []
  /-- Every return of a connection. -/
  handouts : List ConnId := []
  clock : Nat := 0

namespace State

def conn? (s : State) (id : ConnId) : Option HttpConnection := s.heap[id]?.join

def put (s : State) (id : ConnId) (c : Option HttpConnection) : State :=
  { s with heap := s.heap.set id c }

/-- `new HttpConnection`, behind the index `s.heap.length`. -/
def make (s : State) (c : HttpConnection) : State := { s with heap := s.heap ++ [some c] }

/-- `delete` of each of them. -/
def delete (s : State) : List ConnId → State
  | [] => s
  | id :: ids => (s.put id none).delete ids

end State

variable (cfg : Config) (buff : Response.BuffSize)

/-- What `getConnection` asks of an idle connection. A dangling pointer may
answer anything; here it says yes. -/
def keeps (s : State) (now : Nat) (id : ConnId) : Bool :=
  match s.conn? id with
  | none => true
  | some c => c.isConnected && !(c.createTime + cfg.maxAliveTime > now)

/-- The loop of `getConnection` under the lock: the invalid ones, what it
found, and what is left of the list. -/
def scan (keep : ConnId → Bool) : List ConnId → List ConnId × Option ConnId × List ConnId
  | [] => ([], none, [])
  | id :: conns =>
      if keep id then ([], some id, conns)
      else
        let (invalid, ptr, rest) := scan keep conns
        (id :: invalid, ptr, rest)

/-- The next section of a call that has been taken off `calls`. A connection
is made at the time `connects`, if at all. -/
def State.go (s : State) (connects : Option Nat) : Pc → Option State
  | .scanning now =>
      let (invalid, ptr, conns) := scan (keeps cfg s now) s.conns
      some { s with conns, calls := .dropping invalid ptr :: s.calls }
  | .dropping invalid ptr =>
      some { s.delete invalid with calls := .subtracting invalid.length ptr :: s.calls }
  | .subtracting n ptr =>
      let s := { s with total := s.total - n }
      match ptr with
      | some id => some { s with held := id :: s.held, handouts := id :: s.handouts }
      | none => some { s with calls := .connecting :: s.calls }
  | .connecting =>
      match connects with
      | none => some s
      | some now =>
          if now < s.clock then none
          else
            some { s.make (.new now) with
              calls := .counting s.heap.length :: s.calls
              clock := now }
  | .counting id =>
      some { s with total := s.total + 1, held := id :: s.held, handouts := id :: s.handouts }
  | .uncounting => some { s with total := s.total - 1 }
  | .pushing id => some { s with conns := s.conns ++ [id] }

/-- The first section of `ReleasePtr`, for a connection that its holder
leaves as `c`. -/
def State.release (s : State) (id : ConnId) (c : HttpConnection) (now : Nat) : State :=
  let c := { c with request := c.request + 1 }
  let s := { s with held := s.held.erase id, clock := now }
  if !c.isConnected || c.createTime + cfg.maxAliveTime ≥ now ||
      c.request ≥ cfg.maxRequest then
    { s.put id none with calls := .uncounting :: s.calls }
  else { s.put id (some c) with calls := .pushing id :: s.calls }

inductive Act where
  | getConnection (now : Nat)
  /-- The call at place `i` goes on. -/
  | go (i : Nat) (connects : Option Nat)
  /-- Someone closes the connection. -/
  | close (id : ConnId)
  /-- The holder lets go of the connection. -/
  | release (id : ConnId) (now : Nat)
  /-- The holder makes a request, and lets go of it. -/
  | request (id : ConnId) (x : Exchange) (now : Nat)

/-- One section. A fault other than an exception ends the program. -/
def step (s : State) : Act → Option State
  | .getConnection now =>
      if now < s.clock then none
      else some { s with calls := .scanning now :: s.calls, clock := now }
  | .go i connects =>
      match s.calls[i]? with
      | none => none
      | some pc => State.go cfg { s with calls := s.calls.eraseIdx i } connects pc
  | .close id => (s.conn? id).map fun c => s.put id (some c.close)
  | .release id now =>
      if id ∈ s.held ∧ s.clock ≤ now then
        (s.conn? id).map fun c => s.release cfg id c now
      else none
  | .request id x now =>
      if id ∈ s.held ∧ s.clock ≤ now then
        match s.conn? id with
        | none => none
        | some c =>
            match exchange buff x c with
            | (.ok _, c) => some (s.release cfg id c now)
            | (.error (.thrown _), c) => some (s.release cfg id c now)
            | (.error _, _) => none
      else none

end Hps.Pool
