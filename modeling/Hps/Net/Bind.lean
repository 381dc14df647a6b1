import Mathlib.Data.List.Forall2

/-!
# Net — binding a server

`Socket::bind` and `listen`, and `TcpServer::bind` over a list of addresses.
When an address fails, the server drops the sockets of the others, and with
them those it had before: `bind_allOrNothing_iff` says when that is nothing.
-/

namespace Hps.Net

/-! ## Addresses and sockets -/

/-- An `Address`: the bytes of a `sockaddr` of its family, or the path of a
`UnixAddress`. -/
inductive Address where
  | sockaddr (family : Int) (addr : List UInt8)
  | unix (path : List UInt8)
  deriving DecidableEq, Repr

namespace Address

/-- `AF_UNIX` -/
def afUnix : Int := 1

def getFamily : Address → Int
  | .sockaddr family _ => family
  | .unix _ => afUnix

/-- `std::dynamic_pointer_cast<UnixAddress>` -/
def isUnix : Address → Bool
  | .sockaddr _ _ => false
  | .unix _ => true

end Address

/-- What the system calls return that are made for one address. -/
structure Attempt where
  /-- `socket`: a descriptor, or -1 -/
  socket : Int
  /-- whether `sock->connect(uaddr)` finds somebody who listens at the path -/
  connect : Bool
  /-- `::bind` -/
  bind : Int
  /-- `::listen` -/
  listen : Int

/-- A `Socket`, or an `SSLSocket`, with what the kernel has of it. -/
structure Socket where
  ssl : Bool
  sock : Int := -1
  family : Int
  bound : Option Address := none
  listening : Bool := false
  deriving DecidableEq

namespace Socket

/-- `CreateTCP`, of either class. -/
def createTCP (ssl : Bool) (address : Address) : Socket where
  ssl
  family := address.getFamily

def isValid (s : Socket) : Bool := s.sock != -1

def newSock (os : Attempt) (s : Socket) : Socket := { s with sock := os.socket }

/-- `bind(addr)`. Where nobody listens at a path, its file is removed. -/
def bind (os : Attempt) (addr : Address) (s : Socket) : Bool × Socket :=
  let s := if s.isValid then s else s.newSock os
  if !s.isValid then (false, s)
  else if addr.getFamily ≠ s.family then (false, s)
  else if addr.isUnix && os.connect then (false, s)
  else if os.bind ≠ 0 then (false, s)
  else (true, { s with bound := some addr })

def listen (os : Attempt) (s : Socket) : Bool × Socket :=
  if !s.isValid then (false, s)
  else if os.listen ≠ 0 then (false, s)
  else (true, { s with listening := true })

end Socket

/-! ## The server -/

structure TcpServer where
  socks : List Socket := []
  ssl : Bool := false

namespace TcpServer

/-- The loop over the addresses; `turn` counts them. -/
def bindLoop (os : Nat → Attempt) (ssl : Bool) : Nat → List Address → TcpServer →
    List Address → TcpServer × List Address
  | _, [], s, fails => (s, fails)
  | turn, addr :: addrs, s, fails =>
      let (bound, sock) := (Socket.createTCP ssl addr).bind (os turn) addr
      if !bound then bindLoop os ssl (turn + 1) addrs s (fails ++ [addr])
      else
        let (listens, sock) := sock.listen (os turn)
        if !listens then bindLoop os ssl (turn + 1) addrs s (fails ++ [addr])
        else bindLoop os ssl (turn + 1) addrs { s with socks := s.socks ++ [sock] } fails

/-- `bind(addrs, fails, ssl)`: what it returns, `fails` and the server. -/
def bind (os : Nat → Attempt) (addrs fails : List Address) (ssl : Bool) (s : TcpServer) :
    Bool × List Address × TcpServer :=
  let (s, fails) := bindLoop os ssl 0 addrs { s with ssl := ssl } fails
  if !fails.isEmpty then (false, fails, { s with socks := [] }) else (true, fails, s)

/-- `bind(addr, ssl)` -/
def bindOne (os : Nat → Attempt) (addr : Address) (ssl : Bool) (s : TcpServer) :
    Bool × TcpServer :=
  let (ok, _, s) := s.bind os [addr] [] ssl
  (ok, s)

end TcpServer

/-! ## All or nothing -/

/-- The address can be bound, and listened at. -/
def Attempt.Succeeds (os : Attempt) (addr : Address) : Prop :=
  os.socket ≠ -1 ∧ ¬(addr.isUnix && os.connect) ∧ os.bind = 0 ∧ os.listen = 0

instance (os : Attempt) (addr : Address) : Decidable (os.Succeeds addr) :=
  inferInstanceAs (Decidable (_ ∧ _ ∧ _ ∧ _))

/-- The addresses that fail, in their order; the first one is the `turn`-th. -/
def failing (os : Nat → Attempt) (turn : Nat) (addrs : List Address) : List Address :=
  ((addrs.zipIdx turn).filter fun x => ¬(os x.2).Succeeds x.1).map Prod.fst

/-- A socket that listens at the address. -/
structure Socket.ListensAt (ssl : Bool) (addr : Address) (s : Socket) : Prop where
  ssl : s.ssl = ssl
  valid : s.isValid = true
  bound : s.bound = some addr
  listening : s.listening = true

/-- What is to be of a call that had no failed addresses before: either all
addresses are listened at, or nothing has happened to the sockets. -/
structure AllOrNothing (os : Nat → Attempt) (addrs : List Address) (ssl : Bool) (s : TcpServer)
    (ok : Bool) (fails : List Address) (s' : TcpServer) : Prop where
  ok_iff : ok = true ↔ ∀ i, ∀ h : i < addrs.length, (os i).Succeeds addrs[i]
  all : ok = true → ∃ socks, s'.socks = s.socks ++ socks ∧
    List.Forall₂ (Socket.ListensAt ssl) addrs socks
  nothing : ok = false → fails = failing os 0 addrs ∧ s'.socks = s.socks

variable {os : Nat → Attempt} {ssl : Bool} {addr : Address} {addrs : List Address}

theorem failing_cons (turn : Nat) : failing os turn (addr :: addrs) =
    if (os turn).Succeeds addr then failing os (turn + 1) addrs
    else addr :: failing os (turn + 1) addrs := by
  rw [failing, List.zipIdx_cons, List.filter_cons]
  by_cases h : (os turn).Succeeds addr
  · rw [if_neg (by simpa using h), if_pos h, failing]
  · rw [if_pos (by simpa using h), if_neg h, List.map_cons, failing]

theorem failing_eq_nil_iff (turn : Nat) : failing os turn addrs = [] ↔
    ∀ i, ∀ h : i < addrs.length, (os (turn + i)).Succeeds addrs[i] := by
  induction addrs generalizing turn with
  | nil => exact ⟨fun _ i h => absurd h (Nat.not_lt_zero i), fun _ => rfl⟩
  | cons addr addrs ih =>
      rw [failing_cons]
      constructor
      · intro h i hi
        split at h
        · rename_i haddr
          cases i with
          | zero => exact haddr
          | succ i =>
              have hi' := (ih (turn + 1)).mp h i (Nat.lt_of_succ_lt_succ hi)
              rwa [Nat.add_right_comm] at hi'
        · cases h
      · intro h
        have haddr : (os turn).Succeeds addr := h 0 (Nat.zero_lt_succ _)
        rw [if_pos haddr, ih]
        intro i hi
        have hi' : (os (turn + (i + 1))).Succeeds addrs[i] := h (i + 1) (Nat.succ_lt_succ hi)
        rwa [Nat.add_comm i, ← Nat.add_assoc] at hi'

/-! ## One address -/

/-- A turn of the loop: the socket that listens, if all goes well. -/
def attempt (os : Attempt) (ssl : Bool) (addr : Address) : Option Socket :=
  let (bound, sock) := (Socket.createTCP ssl addr).bind os addr
  if !bound then none
  else
    let (listens, sock) := sock.listen os
    if !listens then none else some sock

theorem bindLoop_cons (turn : Nat) (s : TcpServer) (fails : List Address) :
    TcpServer.bindLoop os ssl turn (addr :: addrs) s fails =
      match attempt (os turn) ssl addr with
      | none => TcpServer.bindLoop os ssl (turn + 1) addrs s (fails ++ [addr])
      | some sock =>
          TcpServer.bindLoop os ssl (turn + 1) addrs { s with socks := s.socks ++ [sock] }
            fails := by
  rw [TcpServer.bindLoop, attempt]
  dsimp only
  split
  · rfl
  · split <;> rfl

/-- A new socket has the family of its address. -/
theorem create_bind (os : Attempt) (ssl : Bool) (addr : Address) :
    (Socket.createTCP ssl addr).bind os addr =
      if os.socket ≠ -1 ∧ ¬(addr.isUnix && os.connect) ∧ os.bind = 0 then
        (true, { ssl, sock := os.socket, family := addr.getFamily, bound := some addr })
      else (false, { ssl, sock := os.socket, family := addr.getFamily }) := by
  simp only [Socket.bind, Socket.createTCP, Socket.isValid, Socket.newSock]
  by_cases hsocket : os.socket = -1
  · simp [hsocket]
  · by_cases hconnect : (addr.isUnix && os.connect) = true
    · simp [hsocket, hconnect]
    · by_cases hbind : os.bind = 0
      · simp [hsocket, hconnect, hbind]
      · simp [hsocket, hconnect, hbind]

theorem attempt_some {os : Attempt} (h : os.Succeeds addr) :
    ∃ sock, attempt os ssl addr = some sock ∧ sock.ListensAt ssl addr := by
  obtain ⟨hsocket, hconnect, hbind, hlisten⟩ := h
  let sock : Socket :=
    { ssl, sock := os.socket, family := addr.getFamily, bound := some addr, listening := true }
  refine ⟨sock, ?_, rfl, by simpa [sock, Socket.isValid] using hsocket, rfl, rfl⟩
  rw [attempt, create_bind, if_pos ⟨hsocket, hconnect, hbind⟩]
  simp [Socket.listen, Socket.isValid, hsocket, hlisten, sock]

theorem attempt_none {os : Attempt} (h : ¬os.Succeeds addr) : attempt os ssl addr = none := by
  rw [attempt, create_bind]
  by_cases hbind : os.socket ≠ -1 ∧ ¬(addr.isUnix && os.connect) ∧ os.bind = 0
  · have hlisten : os.listen ≠ 0 := fun hl => h ⟨hbind.1, hbind.2.1, hbind.2.2, hl⟩
    rw [if_pos hbind]
    simp [Socket.listen, Socket.isValid, hbind.1, hlisten]
  · rw [if_neg hbind]
    rfl

/-! ## The loop -/

/-- The sockets that listen are put behind those of before, and the addresses
that fail behind `fails`. -/
theorem bindLoop_eq (turn : Nat) (s : TcpServer) (fails : List Address) :
    ∃ socks, TcpServer.bindLoop os ssl turn addrs s fails =
        ({ s with socks := s.socks ++ socks }, fails ++ failing os turn addrs) ∧
      (failing os turn addrs = [] → List.Forall₂ (Socket.ListensAt ssl) addrs socks) := by
  induction addrs generalizing turn s fails with
  | nil =>
      refine ⟨[], ?_, fun _ => .nil⟩
      rw [List.append_nil]
      exact (congrArg (Prod.mk s) (List.append_nil fails)).symm
  | cons addr addrs ih =>
      rw [bindLoop_cons, failing_cons]
      by_cases h : (os turn).Succeeds addr
      · obtain ⟨sock, hattempt, hlistens⟩ := @attempt_some ssl _ _ h
        obtain ⟨socks, hloop, hall⟩ :=
          ih (turn + 1) { s with socks := s.socks ++ [sock] } fails
        refine ⟨sock :: socks, ?_, ?_⟩
        · rw [hattempt, if_pos h]
          dsimp only
          rw [hloop]
          dsimp only
          rw [List.append_assoc, List.singleton_append]
        · rw [if_pos h]
          exact fun hnone => .cons hlistens (hall hnone)
      · obtain ⟨socks, hloop, -⟩ := ih (turn + 1) s (fails ++ [addr])
        refine ⟨socks, ?_, ?_⟩
        · rw [attempt_none h, if_neg h]
          dsimp only
          rw [hloop, List.append_assoc, List.singleton_append]
        · rw [if_neg h]
          exact nofun

/-- **Binding is all or nothing** exactly if no address fails or the server
had no sockets before. -/
theorem bind_allOrNothing_iff (os : Nat → Attempt) (addrs : List Address) (ssl : Bool)
    (s : TcpServer) :
    ∃ ok fails s', s.bind os addrs [] ssl = (ok, fails, s') ∧
      (AllOrNothing os addrs ssl s ok fails s' ↔
        (∀ i, ∀ h : i < addrs.length, (os i).Succeeds addrs[i]) ∨ s.socks = []) := by
  have hiff := @failing_eq_nil_iff os addrs 0
  simp only [Nat.zero_add] at hiff
  rw [← hiff]
  obtain ⟨socks, hloop, hall⟩ :=
    @bindLoop_eq os ssl addrs 0 { s with ssl := ssl } []
  rw [List.nil_append] at hloop
  rw [TcpServer.bind, hloop]
  dsimp only
  by_cases hnone : failing os 0 addrs = []
  · rw [hnone]
    refine ⟨true, [], _, rfl, fun _ => .inl rfl, fun _ => ⟨?_, ?_, nofun⟩⟩
    · exact ⟨fun _ => hiff.mp hnone, fun _ => rfl⟩
    · exact fun _ => ⟨socks, rfl, hall hnone⟩
  · have hsome : (failing os 0 addrs).isEmpty = false := by
      rw [← Bool.not_eq_true, List.isEmpty_iff]
      exact hnone
    rw [hsome]
    refine ⟨false, _, _, rfl, ?_, ?_⟩
    · intro h
      exact .inr (h.nothing rfl).2.symm
    · rintro (h | hempty)
      · exact absurd h hnone
      · exact ⟨⟨nofun, fun h => absurd (hiff.mpr h) hnone⟩, nofun, fun _ => ⟨rfl, hempty.symm⟩⟩

/-- All calls go well. -/
def working : Attempt := ⟨3, false, 0, 0⟩

/-- The address is in use. -/
def inUse : Attempt := ⟨4, false, -1, 0⟩

/-- A server that listens at one address. -/
def oneSocket : TcpServer := (TcpServer.bindOne (fun _ => working) (.sockaddr 2 [80]) false {}).2

/-- A second address that is in use takes the first socket with it. -/
theorem oneSocket_dropped : ¬∀ (os : Nat → Attempt) (addrs : List Address) (ssl : Bool)
    (s : TcpServer), AllOrNothing os addrs ssl s (s.bind os addrs [] ssl).1
      (s.bind os addrs [] ssl).2.1 (s.bind os addrs [] ssl).2.2 := by
  intro h
  have hnothing := (h (fun _ => inUse) [.sockaddr 2 [81]] false oneSocket).nothing (by decide)
  exact absurd hnothing.2 (by decide)

end Hps.Net
