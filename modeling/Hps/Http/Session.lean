import Hps.Http.RequestParser

/-!
# HTTP — sessions

`Socket::recv`, `Stream::readFixSize` and `HttpSession::recvRequest`. What
the peer sends reaches the socket in arrivals: a `recv` hands out the bytes
of one arrival, as many as were asked for, and leaves the rest of it to the
next. After the last arrival the peer has closed, or the connection broke.
-/

namespace Hps.Http

/-- An `int` that a wider integer was converted to. -/
def toInt32 (n : Int) : Int := n.bmod (2 ^ 32)

/-- An `int64_t` that a `uint64_t` was converted to. -/
def toInt64 (n : UInt64) : Int := n.toBitVec.toInt

/-! ## Sockets -/

/-- The bytes that one `recv` with enough room hands out. -/
structure Arrival where
  bytes : List UInt8
  nonempty : bytes ≠ []
  /-- `recv` counts in `int` -/
  fits : bytes.length < 2 ^ 31

structure Socket where
  arrivals : List Arrival
  /-- what `recv` returns after the last arrival: -1 rather than 0 -/
  broken : Bool := false
  connected : Bool := true

namespace Socket

/-- Everything that is still to be received. -/
def bytes (s : Socket) : List UInt8 := (s.arrivals.map Arrival.bytes).flatten

def close (s : Socket) : Socket := { s with connected := false }

/-- `recv(buffer, length)`: what it returns, the bytes and the socket. -/
def recv (s : Socket) (length : Nat) : Int × List UInt8 × Socket :=
  if ¬s.connected then (-1, [], s)
  else if length = 0 then (0, [], s)
  else
    match s.arrivals with
    | [] => (if s.broken then -1 else 0, [], s)
    | a :: as =>
        if h : length < a.bytes.length then
          (length, a.bytes.take length,
            { s with
              arrivals :=
                ⟨a.bytes.drop length, by simp [List.drop_eq_nil_iff, h],
                  by have := a.fits; rw [List.length_drop]; omega⟩ :: as })
        else (a.bytes.length, a.bytes, { s with arrivals := as })


/-- The loop of `readFixSize`; every turn but the last reads a byte or more,
so that `fuel` turns are enough for `left ≤ fuel`. -/
def readLoop : Nat → Socket → Nat → List UInt8 → Option Int × List UInt8 × Socket
  | 0, s, _, got => (none, got, s)
  | fuel + 1, s, left, got =>
      if left = 0 then (none, got, s)
      else
        let (len, bs, s) := s.recv left
        if len ≤ 0 then (some len, got ++ bs, s)
        else readLoop fuel s (left - bs.length) (got ++ bs)

/-- `readFixSize(buffer, length)`: what it returns, the bytes it put into the
buffer, and the socket. -/
def readFixSize (s : Socket) (length : Nat) : Int × List UInt8 × Socket :=
  match readLoop length s length [] with
  | (some len, got, s) => (len, got, s)
  | (none, got, s) => (toInt32 length, got, s)

end Socket

namespace Request

/-! ## `recvRequest` -/

/-- `buff_size` -/
def buffSize : Nat := 100

/-- What `recvRequest` returns, the null pointer being `none`. -/
abbrev Reply := Except Thrown (Option HttpRequest)

/-- What the head loop leaves to the rest of `recvRequest`: the parser, and
the `offset` bytes of the buffer that it did not read. -/
structure Head where
  parser : HttpRequestParser
  data : List UInt8
  offset : Nat

/-- The `do`-`while` of `recvRequest`; every turn reads a byte or more, so
that one turn more than there are bytes is enough. -/
def recvHead : Nat → HttpRequestParser → List UInt8 → Nat → Socket →
    Except Thrown (Option Head) × Socket
  | 0, _, _, _, s => (.ok none, s)
  | fuel + 1, parser, data, offset, s =>
      let (n, got, s) := s.recv (buffSize - offset)
      if n ≤ 0 then (.ok none, s.close)
      else
        let data := data.take offset ++ got ++ data.drop (offset + got.length)
        let len := offset + got.length
        match parser.execute data len with
        | .error e => (.error e, s)
        | .ok (nparse, parser, data) =>
            if parser.hasError then (.ok none, s.close)
            else if len - nparse = buffSize then (.ok none, s.close)
            else if parser.isFinished ≠ 0 then
              (.ok (some ⟨parser, data, len - nparse⟩), s)
            else recvHead fuel parser data (len - nparse) s

/-- The part of `recvRequest` behind the loop. -/
def recvBody (h : Head) (s : Socket) : Option HttpRequest × Socket :=
  let length := toInt64 h.parser.getContentLength
  if 0 < length then
    let front := h.data.take (min length.toNat h.offset)
    let left := length - h.offset
    if 0 < left then
      let (rt, rest, s) := s.readFixSize left.toNat
      if rt ≤ 0 then (none, s.close)
      else (some (h.parser.data.setBody (front ++ rest)).init, s)
    else (some (h.parser.data.setBody front).init, s)
  else (some h.parser.data.init, s)

/-- What an allocation leaves undefined: the members of the parser that are
never set, and the contents of the buffer. -/
structure Garbage extends Uninit where
  buffer : List UInt8
  full : buffer.length = buffSize

/-- `HttpSession::recvRequest` -/
def recvRequest (g : Garbage) (s : Socket) : Reply × Socket :=
  match recvHead (s.bytes.length + 1) (.new g.toUninit) g.buffer 0 s with
  | (.error e, s) => (.error e, s)
  | (.ok none, s) => (.ok none, s)
  | (.ok (some h), s) =>
      let (r, s) := recvBody h s
      (.ok r, s)

end Request

end Hps.Http
