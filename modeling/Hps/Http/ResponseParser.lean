import Hps.Http.ResponseGrammar
import Hps.Http.Session

/-!
# HTTP — the response parser

`httpclient_parser_execute` of `httpclient_parser.rl` and the class around it
in `http_parser.cc`. A buffer is the list of the bytes that were received;
behind them stands the NUL that the callers put there. `status` of the parser
is set and never read.
-/

namespace Hps.Http

open Hps.Lib

/-! ## `strtol` -/

/-- The value of a digit, letters being those from ten on. -/
def digitValue (c : UInt8) : Option Nat :=
  if digit c then some (c - ch '0').toNat
  else if ch 'a' ≤ tolower c ∧ tolower c ≤ ch 'z' then
    some (10 + (tolower c - ch 'a').toNat)
  else none

/-- A digit to the base. -/
def baseDigit (base : Nat) (c : UInt8) : Bool := (digitValue c).any (· < base)

/-- The value of the digits that the text begins with. -/
def digitsValue (base : Nat) (s : List UInt8) : Nat :=
  (s.takeWhile (baseDigit base)).foldl (fun v c => v * base + (digitValue c).getD 0) 0

/-- `strtol(s, NULL, base)`: blanks, a sign, `0x` before hexadecimal digits,
and the value, which stays within `long`. -/
def strtol (s : List UInt8) (base : Nat) : Int :=
  let s := s.dropWhile Response.space
  let negative := s.head? = some (ch '-')
  let s := if s.head? = some (ch '-') ∨ s.head? = some (ch '+') then s.tail else s
  let s := if base = 16 ∧ (s.take 2).map tolower = text "0x" ∧ (s.drop 2).head?.any xdigit
    then s.drop 2 else s
  let v : Int := digitsValue base s
  if negative then max (-v) (-2 ^ 63) else min v (2 ^ 63 - 1)

/-- `atoi` -/
def atoi (s : List UInt8) : Int := toInt32 (strtol s 10)

/-! ## Responses -/

/-- The fields of `HttpResponse` that the parser and the connection touch. -/
structure HttpResponse where
  status : Int := 200
  version : UInt8 := 0x11
  close : Bool := true
  body : List UInt8 := []
  reason : List UInt8 := []
  headers : MapType := []
  deriving DecidableEq

namespace HttpResponse

def setStatus (r : HttpResponse) (v : Int) : HttpResponse := { r with status := v }

def setVersion (r : HttpResponse) (v : UInt8) : HttpResponse := { r with version := v }

def setBody (r : HttpResponse) (v : List UInt8) : HttpResponse := { r with body := v }

def setReason (r : HttpResponse) (v : List UInt8) : HttpResponse := { r with reason := v }

def setHeader (r : HttpResponse) (key val : List UInt8) : HttpResponse :=
  { r with headers := MapType.set key val r.headers }

/-- `getHeaderAs<uint64_t>(key, def)` -/
def getHeaderAsU64 (r : HttpResponse) (key : List UInt8) (dflt : UInt64) : UInt64 :=
  r.headers.getAsU64 key dflt

end HttpResponse

namespace Response

/-! ## The generated parser -/

/-- The members of `struct httpclient_parser` besides the callbacks; `none` is
`httpclient_parser_error`. -/
structure HttpClientParser where
  cs : Option State
  bodyStart : Nat
  contentLen : Int
  chunked : Bool
  chunksDone : Bool
  close : Bool
  nread : Nat
  mark : Nat
  fieldStart : Nat
  fieldLen : Int

def httpClientParserInit : HttpClientParser where
  cs := some .start
  bodyStart := 0
  contentLen := -1
  chunked := false
  chunksDone := false
  close := false
  nread := 0
  mark := 0
  fieldStart := 0
  fieldLen := 0

/-- The callbacks of type `element_cb`. -/
inductive Element where
  | reasonPhrase | statusCode | chunkSize | httpVersion | headerDone | lastChunk
  deriving DecidableEq, Repr

/-- A call of a callback, with its pointers as offsets into the buffer. -/
inductive Call where
  | element (cb : Element) (ptr : Nat) (length : Int)
  | httpField (field : Nat) (flen : Int) (value : Nat) (vlen : Int)
  deriving DecidableEq, Repr

/-- `LEN(AT, FPC)` -/
def len (ptr fpc : Nat) : Int := (fpc : Int) - ptr

/-- An action at `fpc`, in a buffer that ends at `pe`. -/
def act (buffer : List UInt8) :
    Action → Nat → HttpClientParser → HttpClientParser × List Call
  | .mark, fpc, s => ({ s with mark := fpc }, [])
  | .startField, fpc, s => ({ s with fieldStart := fpc }, [])
  | .writeField, fpc, s => ({ s with fieldLen := len s.fieldStart fpc }, [])
  | .startValue, fpc, s => ({ s with mark := fpc }, [])
  | .writeContentLen, _, s =>
      ({ s with contentLen := toInt32 (strtol (buffer.drop s.mark) 10) }, [])
  | .writeConnectionClose, _, s => ({ s with close := true }, [])
  | .writeValue, fpc, s =>
      (s, [.httpField s.fieldStart s.fieldLen s.mark (len s.mark fpc)])
  | .reasonPhrase, fpc, s => (s, [.element .reasonPhrase s.mark (len s.mark fpc)])
  | .statusCode, fpc, s => (s, [.element .statusCode s.mark (len s.mark fpc)])
  | .httpVersion, fpc, s => (s, [.element .httpVersion s.mark (len s.mark fpc)])
  | .chunkSize, fpc, s =>
      let n := toInt32 (strtol (buffer.drop s.mark) 16)
      ({ s with chunked := true, contentLen := n, chunksDone := n ≤ 0 },
        [.element (if n ≤ 0 then .lastChunk else .chunkSize) s.mark (len s.mark fpc)])
  | .transChunked, _, s => ({ s with chunked := true }, [])
  | .done, fpc, s =>
      ({ s with bodyStart := fpc + 1 },
        [.element .headerDone (fpc + 1) (len (fpc + 1) buffer.length)])

/-- The machine's state at the end of a run, as `cs` has it. -/
def endState : Ending State → Option State
  | .running q => some q
  | .stopped q => some q
  | .failed => none

/-- What a call forgets of the call before it. -/
def HttpClientParser.reset (s : HttpClientParser) : HttpClientParser :=
  { s with nread := 0, mark := 0, fieldLen := 0, fieldStart := 0 }

/-- The loop of `httpclient_parser_execute(parser, buffer, len, 0)`: the parser
behind it and the calls. -/
def httpClientParserRun (s : HttpClientParser) (buffer : List UInt8) :
    HttpClientParser × List Call :=
  match s.cs with
  | none => (s.reset, [])
  | some cs =>
      let o := machine.exec (act buffer) cs 0 s.reset buffer
      ({ o.regs with cs := endState o.ending, nread := o.pos }, o.calls)

/-- What `httpclient_parser_execute` asserts behind the loop. -/
def HttpClientParser.asserted (s : HttpClientParser) (len : Nat) : Bool :=
  s.nread ≤ len ∧ s.bodyStart ≤ len

/-- What it returns: the bytes read, or -1 where a `check` fails. -/
def HttpClientParser.returned (s : HttpClientParser) (len : Nat) : Int :=
  if s.mark < len ∧ s.fieldLen ≤ len ∧ s.fieldStart < len then s.nread else -1

def HttpClientParser.hasError (s : HttpClientParser) : Bool := s.cs.isNone

def HttpClientParser.isFinished (s : HttpClientParser) : Bool := s.cs.any State.final

/-- `httpclient_parser_finish` -/
def HttpClientParser.finish (s : HttpClientParser) : Int :=
  if s.hasError then -1 else if s.isFinished then 1 else 0

/-! ## The parser class -/

/-- What ends the program, or leaves it undefined. -/
inductive Fault where
  | thrown (e : Thrown)
  /-- an `assert` that fails -/
  | assertion
  /-- an access outside of a buffer -/
  | outOfBounds
  /-- signed arithmetic that overflows -/
  | overflow
  deriving DecidableEq, Repr

structure HttpResponseParser where
  parser : HttpClientParser
  data : HttpResponse
  error : Nat

namespace HttpResponseParser

/-- The constructor. -/
def new : HttpResponseParser := ⟨httpClientParserInit, {}, 0⟩

def setError (p : HttpResponseParser) (v : Nat) : HttpResponseParser :=
  { p with error := v }

variable (mem : List UInt8) (p : HttpResponseParser) (ptr : Nat) (length : Int)

def onResponseReason : Except Thrown HttpResponseParser := do
  return { p with data := p.data.setReason (← stdString mem ptr length) }

def onResponseStatus : HttpResponseParser :=
  { p with data := p.data.setStatus (atoi (mem.drop ptr)) }

def onResponseVersion : HttpResponseParser :=
  if strncmpEq (mem.drop ptr) (text "HTTP/1.1") (sizeT length) then
    { p with data := p.data.setVersion 0x11 }
  else if strncmpEq (mem.drop ptr) (text "HTTP/1.0") (sizeT length) then
    { p with data := p.data.setVersion 0x10 }
  else p.setError 1001

def onResponseHttpField (flen : Int) (value : Nat) (vlen : Int) :
    Except Thrown HttpResponseParser := do
  if flen = 0 then return p
  return { p with
    data := p.data.setHeader (← stdString mem ptr flen) (← stdString mem value vlen) }

/-- A call of the generated parser, over the buffer it was made on. -/
def call : Call → Except Thrown HttpResponseParser
  | .element .reasonPhrase ptr length => onResponseReason mem p ptr length
  | .element .statusCode ptr _ => .ok (onResponseStatus mem p ptr)
  | .element .httpVersion ptr length => .ok (onResponseVersion mem p ptr length)
  | .element .chunkSize _ _ => .ok p
  | .element .lastChunk _ _ => .ok p
  | .element .headerDone _ _ => .ok p
  | .httpField field flen value vlen => onResponseHttpField mem p field flen value vlen

/-- `execute(data, len, chunck)`: the bytes read, the parser, and what is left
of the buffer. -/
def execute (p : HttpResponseParser) (data : List UInt8) (chunck : Bool) :
    Except Fault (Nat × HttpResponseParser × List UInt8) :=
  let (parser, calls) := httpClientParserRun
    (if chunck then httpClientParserInit else p.parser) data
  match calls.foldlM (call data) { p with parser } with
  | .error e => .error (.thrown e)
  | .ok p =>
      if ¬parser.asserted data.length then .error .assertion
      else if parser.returned data.length < 0 then .error .outOfBounds
      else
        .ok (parser.nread, p, data.drop parser.nread)

def isFinished (p : HttpResponseParser) : Int := p.parser.finish

def hasError (p : HttpResponseParser) : Bool := p.error != 0 || p.parser.hasError

def getContentLength (p : HttpResponseParser) : UInt64 :=
  p.data.getHeaderAsU64 (text "content-length") 0

end HttpResponseParser

end Response

end Hps.Http
