import Hps.Http.ResponseParser

/-!
# HTTP — connections

`HttpConnection::recvResponse`: the head loop, the chunk loops and the body of
a fixed length. The buffer is the list of its `len` valid bytes.
-/

namespace Hps.Http.Response

/-- `GetHttpRequestBufferSize()`, which `recvResponse` uses as an `int`. -/
structure BuffSize where
  size : Nat
  pos : 0 < size
  fits : size < 2 ^ 31

theorem BuffSize.configured_pos : 0 < 4 * 1024 := by decide

theorem BuffSize.configured_fits : 4 * 1024 < 2 ^ 31 := by decide

/-- How a part of `recvResponse` leaves off, and the socket: the null pointer
is `none`. -/
abbrev Received (α : Type) := Except Fault (Option α) × Socket

/-- Goes on behind a part that neither failed nor returned. -/
def Received.bind {α β : Type} (x : Received α) (f : α → Socket → Received β) :
    Received β :=
  match x with
  | (.error e, s) => (.error e, s)
  | (.ok none, s) => (.ok none, s)
  | (.ok (some a), s) => f a s

@[simp] theorem Received.bind_some {α β : Type} (a : α) (s : Socket)
    (f : α → Socket → Received β) : Received.bind (.ok (some a), s) f = f a s := rfl

@[simp] theorem Received.bind_none {α β : Type} (s : Socket)
    (f : α → Socket → Received β) : Received.bind (.ok none, s) f = (.ok none, s) := rfl

@[simp] theorem Received.bind_error {α β : Type} (e : Fault) (s : Socket)
    (f : α → Socket → Received β) : Received.bind (.error e, s) f = (.error e, s) := rfl

variable (buff : BuffSize)

/-- `read(data + len, buff_size - len)`, which closes when nothing came. -/
def readMore (data : List UInt8) (s : Socket) : Received (List UInt8) :=
  let (rt, got, s) := s.recv (buff.size - data.length)
  if rt ≤ 0 then (.ok none, s.close) else (.ok (some (data ++ got)), s)

/-- `parser->execute(data, len, chunck)` and the tests behind it. -/
def parse (chunck : Bool) (parser : HttpResponseParser) (data : List UInt8)
    (s : Socket) : Received (HttpResponseParser × List UInt8) :=
  match parser.execute data chunck with
  | .error e => (.error e, s)
  | .ok (nparse, parser, rest) =>
      if parser.hasError then (.ok none, s.close)
      else if data.length - nparse = buff.size then (.ok none, s.close)
      else (.ok (some (parser, rest)), s)

/-- The loop over the head; every turn reads a byte or more, so that one turn
more than there are bytes is enough. -/
def recvHead : Nat → HttpResponseParser → List UInt8 → Socket →
    Received (HttpResponseParser × List UInt8)
  | 0, _, _, s => (.ok none, s)
  | fuel + 1, parser, data, s =>
      (readMore buff data s).bind fun data s =>
        (parse buff false parser data s).bind fun (parser, data) s =>
          if parser.isFinished ≠ 0 then (.ok (some (parser, data)), s)
          else recvHead fuel parser data s

/-- The loop over the line before a chunk. It does not read on its first turn
if there is something in the buffer. -/
def recvChunkHead : Nat → Bool → HttpResponseParser → List UInt8 → Socket →
    Received (HttpResponseParser × List UInt8)
  | 0, _, _, _, s => (.ok none, s)
  | fuel + 1, begins, parser, data, s =>
      (if ¬begins ∨ data.length = 0 then readMore buff data s
        else (.ok (some data), s)).bind fun data s =>
          (parse buff true parser data s).bind fun (parser, data) s =>
            if parser.isFinished ≠ 0 then (.ok (some (parser, data)), s)
            else recvChunkHead fuel false parser data s

/-- `while(left > 0)`: what is still to come of a chunk; every turn reads a
byte or more. -/
def readLeft : Nat → Nat → List UInt8 → Socket → Received (List UInt8)
  | 0, _, body, s => (.ok (some body), s)
  | fuel + 1, left, body, s =>
      if left = 0 then (.ok (some body), s)
      else
        let (rt, got, s) := s.recv (if left > buff.size then buff.size else left)
        if rt ≤ 0 then (.ok none, s.close)
        else readLeft fuel (left - got.length) (body ++ got) s

/-- The data of a chunk: the body and the buffer behind it. `append` and
`resize` throw at a negative size. -/
def recvChunkData (contentLen : Int) (body data : List UInt8) (s : Socket) :
    Received (List UInt8 × List UInt8) :=
  if 2 ^ 31 ≤ contentLen + 2 then (.error .overflow, s)
  else if contentLen + 2 ≤ data.length then
    if contentLen < 0 then (.error (.thrown .lengthError), s)
    else
      (.ok (some (body ++ data.take contentLen.toNat, data.drop (contentLen.toNat + 2))), s)
  else
    let left := (contentLen - data.length + 2).toNat
    (readLeft buff left left (body ++ data) s).bind fun body s =>
      if body.length < 2 then (.error (.thrown .lengthError), s)
      else (.ok (some (body.take (body.length - 2), [])), s)

/-- The loop over the chunks; every turn reads a byte or more of a line. -/
def recvChunks : Nat → HttpResponseParser → List UInt8 → List UInt8 → Socket →
    Received (HttpResponseParser × List UInt8)
  | 0, _, _, _, s => (.ok none, s)
  | fuel + 1, parser, data, body, s =>
      (recvChunkHead buff (s.bytes.length + 2) true parser data s).bind
        fun (parser, data) s =>
          (recvChunkData buff parser.parser.contentLen body data s).bind
            fun (body, data) s =>
              if parser.parser.chunksDone then (.ok (some (parser, body)), s)
              else recvChunks fuel parser data body s

/-- The body of a response that has a length. -/
def recvLength (parser : HttpResponseParser) (data : List UInt8) (s : Socket) :
    Received (List UInt8) :=
  let length := toInt64 parser.getContentLength
  if 0 < length then
    let front := data.take (min length.toNat data.length)
    let left := length - data.length
    if 0 < left then
      let (rt, rest, s) := s.readFixSize left.toNat
      if rt ≤ 0 then (.ok none, s.close) else (.ok (some (front ++ rest)), s)
    else (.ok (some front), s)
  else (.ok (some []), s)

/-- `HttpConnection::recvResponse` -/
def recvResponse (s : Socket) : Received HttpResponse :=
  (recvHead buff (s.bytes.length + 1) .new [] s).bind fun (parser, data) s =>
    (if parser.parser.chunked then
      recvChunks buff (data.length + s.bytes.length + 1) parser data [] s
    else (recvLength parser data s).bind fun body s => (.ok (some (parser, body)), s)).bind
      fun (parser, body) s =>
        (.ok (some (if body = [] then parser.data else parser.data.setBody body)), s)

end Hps.Http.Response
