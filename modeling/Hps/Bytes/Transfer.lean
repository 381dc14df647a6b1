import Hps.Bytes.Gather

/-!
# Bytes — fixed-size transfers over a socket

`SocketStream::read` and `write` of a `ByteArray`, and the loops of
`Stream::readFixSize` and `writeFixSize` over them. The kernel is a `Net`:
it may take or deliver as much as it likes at each call.
-/

namespace Hps.Bytes

open Hps.Lib

/-! ## The functions -/

/-- What the kernel does at the `turn`-th call. -/
structure Net where
  /-- What `sendmsg` returns when it is offered these bytes; it has taken as
  many of them. -/
  send : (turn : Nat) → (offered : List UInt8) → Int
  /-- What `recvmsg` puts into buffers of this size, or returns instead. -/
  recv : (turn : Nat) → (room : Nat) → Except Int (List UInt8)

/-- The array at one end of the connection, and what went over it. -/
structure Wire where
  array : ByteArray
  connected : Bool := true
  turn : Nat := 0
  sent : List UInt8 := []
  received : List UInt8 := []

abbrev Io := EStateM Error Wire

/-- A call on the array. -/
def onArray {α : Type} (m : M α) : Io α := fun w =>
  match m w.array with
  | .ok a b => .ok a { w with array := b }
  | .error e b => .error e { w with array := b }

namespace Socket

/-- `send(const iovec *, size_t)` -/
def send (net : Net) (buffers : List IoVec) : Io Int := fun w =>
  if w.connected then
    let offered := gatherBytes w.array.nodes buffers
    let rt := net.send w.turn offered
    .ok rt { w with turn := w.turn + 1, sent := w.sent ++ offered.take rt.toNat }
  else .ok (-1) w

/-- `recv(iovec *, size_t)` -/
def recv (net : Net) (buffers : List IoVec) : Io Int := fun w =>
  if w.connected then
    match net.recv w.turn (totalLen buffers) with
    | .error rt => .ok rt { w with turn := w.turn + 1 }
    | .ok bytes =>
        .ok bytes.length { w with
          array := { w.array with nodes := fillBytes w.array.nodes buffers bytes }
          turn := w.turn + 1
          received := w.received ++ bytes }
  else .ok (-1) w

end Socket

namespace SocketStream

/-- `m_socket->...`, and the position moved on by what it returns. -/
def advance (io : Io Int) : Io Int := do
  let rt ← io
  if rt > 0 then
    let w ← get
    onArray (setPosition (w.array.position + rt.toNat))
  pure rt

/-- `read(ByteArray::ptr, size_t)` -/
def read (net : Net) (length : Nat) : Io Int := do
  let w ← get
  if w.connected then
    let (iovs, _) ← onArray (getWriteBuffers [] length)
    advance (Socket.recv net iovs)
  else pure (-1)

/-- `write(ByteArray::ptr, size_t)` -/
def write (net : Net) (length : Nat) : Io Int := do
  let w ← get
  if w.connected then
    let (iovs, _) ← onArray (getReadBuffers [] length)
    advance (Socket.send net iovs)
  else pure (-1)

end SocketStream

/-- The loop of `readFixSize` and `writeFixSize`, and what it returns early.
A turn that does not return moves a byte or more, so that `fuel` turns are
enough for `left ≤ fuel`. -/
def fixSizeLoop (io : Nat → Io Int) : Nat → Int → Io (Option Int)
  | 0, _ => pure none
  | fuel + 1, left =>
      if left > 0 then do
        let len ← io left.toNat
        if len ≤ 0 then pure (some len) else fixSizeLoop io fuel (left - len)
      else pure none

/-- `left` is an `int64_t`, and what is returned an `int`. -/
def fixSize (io : Nat → Io Int) (length : Nat) : Io Int := do
  let left := (length : Int).bmod (2 ^ 64)
  let early ← fixSizeLoop io left.toNat left
  pure (early.getD ((length : Int).bmod (2 ^ 32)))

namespace Stream

/-- `readFixSize(ByteArray::ptr, size_t)` -/
def readFixSize (net : Net) (length : Nat) : Io Int := fixSize (SocketStream.read net) length

/-- `writeFixSize(ByteArray::ptr, size_t)` -/
def writeFixSize (net : Net) (length : Nat) : Io Int := fixSize (SocketStream.write net) length

end Stream

/-! ## The loop -/

theorem io_bind_ok {α β : Type} {x : Io α} {k : α → Io β} {a : α} {w w' : Wire}
    (h : x w = .ok a w') : (x >>= k) w = k a w' := by
  simp [bind, EStateM.bind, h]

/-- **The loop rule.** `Ready left w` says that `left` more bytes can be
moved, and `Moved n w w'` that `n` bytes were. If each turn moves between one
byte and all of them, the loop moves them all. -/
theorem fixSizeLoop_moves {io : Nat → Io Int} {Ready : Nat → Wire → Prop}
    {Moved : Nat → Wire → Wire → Prop} (hzero : ∀ w, Moved 0 w w)
    (hadd : ∀ {left m n w w' w''}, Ready left w → Moved m w w' → Moved n w' w'' →
      Moved (m + n) w w'')
    (hturn : ∀ {left w}, Ready left w → 0 < left →
      ∃ (k : Nat) (w' : Wire), io left w = .ok (k : Int) w' ∧ 1 ≤ k ∧ k ≤ left ∧
        Moved k w w' ∧ Ready (left - k) w')
    {left fuel : Nat} {w : Wire} (hready : Ready left w) (hfuel : left ≤ fuel) :
    ∃ w', fixSizeLoop io fuel left w = .ok none w' ∧ Moved left w w' := by
  induction fuel generalizing left w with
  | zero =>
      rw [Nat.le_zero.mp hfuel]
      exact ⟨w, rfl, hzero w⟩
  | succ fuel ih =>
      rw [fixSizeLoop]
      by_cases hleft : left = 0
      · rw [hleft, if_neg (by omega)]
        exact ⟨w, rfl, hzero w⟩
      · obtain ⟨k, w₁, hio, hk, hkl, hmoved, hready₁⟩ := hturn hready (Nat.pos_of_ne_zero hleft)
        obtain ⟨w', hloop, hrest⟩ := ih hready₁ (by omega)
        refine ⟨w', ?_, ?_⟩
        · rw [if_pos (by omega), Int.toNat_natCast, io_bind_ok hio, if_neg (by omega),
            show (left : Int) - k = (left - k : Nat) by omega]
          exact hloop
        · rw [show left = k + (left - k) by omega]
          exact hadd hready hmoved hrest

/-- The rule for the whole function, whose length is an `int`. -/
theorem fixSize_moves {io : Nat → Io Int} {Ready : Nat → Wire → Prop}
    {Moved : Nat → Wire → Wire → Prop} (hzero : ∀ w, Moved 0 w w)
    (hadd : ∀ {left m n w w' w''}, Ready left w → Moved m w w' → Moved n w' w'' →
      Moved (m + n) w w'')
    (hturn : ∀ {left w}, Ready left w → 0 < left →
      ∃ (k : Nat) (w' : Wire), io left w = .ok (k : Int) w' ∧ 1 ≤ k ∧ k ≤ left ∧
        Moved k w w' ∧ Ready (left - k) w')
    {n : Nat} {w : Wire} (hready : Ready n w) (hn : n < 2 ^ 31) :
    ∃ w', fixSize io n w = .ok (n : Int) w' ∧ Moved n w w' := by
  have h64 : (n : Int).bmod (2 ^ 64) = n := by
    rw [Int.bmod_eq_of_le] <;> omega
  have h32 : (n : Int).bmod (2 ^ 32) = n := by
    rw [Int.bmod_eq_of_le] <;> omega
  obtain ⟨w', hloop, hmoved⟩ := fixSizeLoop_moves hzero hadd hturn hready (Nat.le_refl n)
  refine ⟨w', ?_, hmoved⟩
  rw [fixSize, h64, h32, Int.toNat_natCast, io_bind_ok hloop]
  rfl

/-! ## One turn -/

theorem onArray_ok {α : Type} {m : M α} {a : α} {w : Wire} {b : ByteArray}
    (h : m w.array = .ok a b) : onArray m w = .ok a { w with array := b } := by
  rw [onArray, h]

theorem advance_ok {io : Io Int} {k : Nat} {w w' : Wire} {b : ByteArray} (hk : 1 ≤ k)
    (hio : io w = .ok (k : Int) w')
    (hset : setPosition (w'.array.position + k) w'.array = .ok () b) :
    SocketStream.advance io w = .ok (k : Int) { w' with array := b } := by
  have hget : (get : Io Wire) w' = .ok w' w' := rfl
  rw [SocketStream.advance, io_bind_ok hio, if_pos (by omega), io_bind_ok hget,
    Int.toNat_natCast, io_bind_ok (onArray_ok hset)]
  rfl

/-! ### Sending -/

/-- `left` bytes are there to be sent. -/
def CanSend (left : Nat) (w : Wire) : Prop :=
  Wf w.array ∧ w.connected = true ∧ left ≤ w.array.getReadSize

/-- The next `n` bytes went to the socket, and the position behind them. -/
def Sent (n : Nat) (w w' : Wire) : Prop :=
  w'.sent = w.sent ++ (w.array.content.drop w.array.position).take n ∧
    w'.array.position = w.array.position + n ∧ w'.array.content = w.array.content

theorem Sent.zero (w : Wire) : Sent 0 w w := by
  refine ⟨?_, rfl, rfl⟩
  rw [List.take_zero, List.append_nil]

theorem Sent.add {m n : Nat} {w w' w'' : Wire} (h : Sent m w w') (h' : Sent n w' w'') :
    Sent (m + n) w w'' := by
  obtain ⟨hsent, hpos, hcontent⟩ := h
  obtain ⟨hsent', hpos', hcontent'⟩ := h'
  refine ⟨?_, ?_, hcontent'.trans hcontent⟩
  · rw [hsent', hsent, hpos, hcontent, List.append_assoc, ← List.drop_drop, List.take_add]
  · rw [hpos', hpos, Nat.add_assoc]

theorem write_turn {net : Net}
    (hnet : ∀ turn offered, offered ≠ [] →
      1 ≤ net.send turn offered ∧ net.send turn offered ≤ offered.length)
    {left : Nat} {w : Wire} (h : CanSend left w) (hleft : 0 < left) :
    ∃ (k : Nat) (w' : Wire), SocketStream.write net left w = .ok (k : Int) w' ∧
      1 ≤ k ∧ k ≤ left ∧ Sent k w w' ∧ CanSend (left - k) w' := by
  obtain ⟨hw, hconn, hread⟩ := h
  obtain ⟨iovs, hiovs, hbytes⟩ := gather_refines hw.refines [] left
  rw [Nat.min_eq_left hread] at hiovs hbytes
  have hsize := hw.size_le
  have hlen : (gatherBytes w.array.nodes iovs).length = left := by
    rw [ByteArray.getReadSize] at hread
    rw [hbytes, Flat.toString, List.length_take, List.length_drop, hw.refines.length_data]
    exact Nat.min_eq_left hread
  obtain ⟨hk, hkl⟩ := hnet w.turn (gatherBytes w.array.nodes iovs)
    (List.ne_nil_of_length_pos (by omega))
  -- the kernel takes `k` of the bytes offered
  obtain ⟨k, hrt⟩ := Int.eq_ofNat_of_zero_le (by omega :
    0 ≤ net.send w.turn (gatherBytes w.array.nodes iovs))
  rw [hrt] at hk hkl
  have hfit : w.array.position + k ≤ w.array.flat.data.length := by
    rw [ByteArray.getReadSize] at hread
    rw [hw.refines.length_data]
    omega
  obtain ⟨b, hset, hr, -⟩ := setPosition_refines hw.refines hfit
  have hsend : Socket.send net iovs w = .ok (k : Int) { w with
      turn := w.turn + 1, sent := w.sent ++ (gatherBytes w.array.nodes iovs).take k } := by
    rw [Socket.send, if_pos hconn]
    dsimp only
    rw [hrt]
    rfl
  have hget : (get : Io Wire) w = .ok w w := rfl
  refine ⟨k, { w with
    array := b
    turn := w.turn + 1
    sent := w.sent ++ (gatherBytes w.array.nodes iovs).take k }, ?_, by omega, by omega,
    ⟨?_, hr.pos, hr.data⟩, hr.wf, hconn, ?_⟩
  · rw [SocketStream.write, io_bind_ok hget, if_pos hconn, io_bind_ok (onArray_ok hiovs)]
    exact advance_ok (by omega) hsend hset
  · rw [hbytes, List.take_take, Nat.min_eq_left (by omega)]
    rfl
  · have hsize' := hr.length_data
    rw [hw.refines.length_data] at hsize'
    rw [ByteArray.getReadSize] at hread ⊢
    rw [hr.pos, ← hsize']
    dsimp only
    omega

/-! ### Receiving -/

def CanReceive (w : Wire) : Prop := Wf w.array ∧ w.connected = true

/-- `n` bytes came from the socket, and were written at the position. -/
def Received (n : Nat) (w w' : Wire) : Prop :=
  ∃ bytes : List UInt8, bytes.length = n ∧ w'.received = w.received ++ bytes ∧
    w'.array.flat = w.array.flat.write bytes

theorem Received.zero (w : Wire) : Received 0 w w := by
  refine ⟨[], rfl, (List.append_nil _).symm, ?_⟩
  rw [Flat.write, splice_nil]
  rfl

theorem Received.add {m n : Nat} {w w' w'' : Wire} (hw : Wf w.array) (h : Received m w w')
    (h' : Received n w' w'') : Received (m + n) w w'' := by
  obtain ⟨bytes, hlen, hgot, hflat⟩ := h
  obtain ⟨bytes', hlen', hgot', hflat'⟩ := h'
  refine ⟨bytes ++ bytes', ?_, ?_, ?_⟩
  · rw [List.length_append, hlen, hlen']
  · rw [hgot', hgot, List.append_assoc]
  · rw [hflat', hflat, Flat.write_write hw.refines.pos_le]

theorem read_turn {net : Net}
    (hnet : ∀ turn room, 0 < room →
      ∃ bytes, net.recv turn room = .ok bytes ∧ 1 ≤ bytes.length ∧ bytes.length ≤ room)
    {left : Nat} {w : Wire} (h : CanReceive w) (hleft : 0 < left) :
    ∃ (k : Nat) (w' : Wire), SocketStream.read net left w = .ok (k : Int) w' ∧
      1 ≤ k ∧ k ≤ left ∧ Received k w w' ∧ CanReceive w' := by
  obtain ⟨hw, hconn⟩ := h
  obtain ⟨bytes, hrecv, hpos, hle⟩ := hnet w.turn left hleft
  obtain ⟨iovs, b₁, b₂, hiovs, -, htotal, -, -, hset, hr⟩ := scatter_refines hw.refines [] hle
  have hgot : Socket.recv net iovs { w with array := b₁ } = .ok (bytes.length : Int) { w with
      array := { b₁ with nodes := fillBytes b₁.nodes iovs bytes }
      turn := w.turn + 1
      received := w.received ++ bytes } := by
    rw [Socket.recv, if_pos hconn, htotal]
    dsimp only
    rw [hrecv]
  have hget : (get : Io Wire) w = .ok w w := rfl
  refine ⟨bytes.length, { w with
    array := b₂
    turn := w.turn + 1
    received := w.received ++ bytes }, ?_, hpos, hle, ⟨bytes, rfl, rfl, hr.flat_eq⟩, hr.wf, hconn⟩
  rw [SocketStream.read, io_bind_ok hget, if_pos hconn, io_bind_ok (onArray_ok hiovs)]
  exact advance_ok hpos hgot hset

/-! ## Whole transfers -/

/-- **Fixed-size transfers.** However few bytes the kernel takes at a time,
`writeFixSize` hands it the next `n` bytes of the array, in order and once
each; and however few it delivers at a time, `readFixSize` stores `n` of them
in one piece from the position on. Both return `n` and move the position on
by `n`. -/
theorem fixSize_transfers {b : ByteArray} (h : Reachable b) {n : Nat} (hn : n < 2 ^ 31)
    (net : Net) :
    (n ≤ b.getReadSize →
      (∀ turn offered, offered ≠ [] →
        1 ≤ net.send turn offered ∧ net.send turn offered ≤ offered.length) →
      ∃ w, Stream.writeFixSize net n { array := b } = .ok (n : Int) w ∧
        w.sent = (b.content.drop b.position).take n ∧
        w.array.position = b.position + n ∧ w.array.content = b.content) ∧
      ((∀ turn room, 0 < room →
        ∃ bytes, net.recv turn room = .ok bytes ∧ 1 ≤ bytes.length ∧ bytes.length ≤ room) →
      ∃ w, Stream.readFixSize net n { array := b } = .ok (n : Int) w ∧
        w.received.length = n ∧
        w.array.content = splice b.content b.position w.received ∧
        w.array.position = b.position + n) := by
  constructor
  · intro hread hnet
    have hready : CanSend n { array := b } := ⟨h.wf, rfl, hread⟩
    obtain ⟨w, hloop, hsent, hpos, hcontent⟩ :=
      fixSize_moves Sent.zero (fun _ => Sent.add) (write_turn hnet) hready hn
    exact ⟨w, hloop, hsent, hpos, hcontent⟩
  · intro hnet
    have hready : CanReceive { array := b } := ⟨h.wf, rfl⟩
    obtain ⟨w, hloop, bytes, hlen, hgot, hflat⟩ :=
      @fixSize_moves (SocketStream.read net) (fun _ => CanReceive) Received Received.zero
        (fun hw => Received.add hw.1) (read_turn hnet) n _ hready hn
    obtain rfl : w.received = bytes := hgot
    refine ⟨w, hloop, hlen, congrArg Flat.data hflat, ?_⟩
    rw [← hlen]
    exact congrArg Flat.pos hflat

/-- A kernel that takes and delivers one byte at a time. -/
def oneByte : Net where
  send := fun _ _ => 1
  recv := fun _ _ => .ok [9]

theorem oneByte_transfers :
    ∃ (b : ByteArray) (w w' : Wire),
      run step (.new (fun _ _ => 0) 2) [.write [1, 2, 3], .setPosition 1] = some b ∧
      Stream.writeFixSize oneByte 2 { array := b } = .ok 2 w ∧
      w.sent = (b.content.drop b.position).take 2 ∧
      Stream.readFixSize oneByte 2 { array := b } = .ok 2 w' ∧
      w'.array.content = splice b.content b.position w'.received := by
  have hruns : (run step (.new (fun _ _ => 0) 2) [.write [1, 2, 3], .setPosition 1]).map
      ByteArray.getReadSize = some 2 := by decide +kernel
  obtain ⟨b, hrun, hsize⟩ := Option.map_eq_some_iff.mp hruns
  have hsend : ∀ (turn : Nat) (offered : List UInt8), offered ≠ [] →
      1 ≤ oneByte.send turn offered ∧ oneByte.send turn offered ≤ offered.length := by
    intro turn offered hne
    have := List.length_pos_of_ne_nil hne
    exact ⟨Int.le_refl 1, by show (1 : Int) ≤ offered.length; omega⟩
  have hrecv : ∀ turn room : Nat, 0 < room → ∃ bytes, oneByte.recv turn room = .ok bytes ∧
      1 ≤ bytes.length ∧ bytes.length ≤ room := by
    intro turn room hroom
    exact ⟨[9], rfl, Nat.le_refl 1, hroom⟩
  obtain ⟨hwrite, hread⟩ :=
    fixSize_transfers ⟨_, _, _, by decide, hrun⟩ (by decide : 2 < 2 ^ 31) oneByte
  obtain ⟨w, hloop, hsent, -⟩ := hwrite (Nat.le_of_eq hsize.symm) hsend
  obtain ⟨w', hloop', -, hcontent, -⟩ := hread hrecv
  exact ⟨b, w, w', hrun, hloop, hsent, hloop', hcontent⟩

end Hps.Bytes
