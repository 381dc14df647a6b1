import Hps.Http.Message

/-!
# HTTP — the request parser

`http_parser_execute` of `http11_parser.rl` and the class around it in
`http_parser.cc`. Pointers into the buffer are offsets. The callbacks write
to the request and never to the parser, so `http_parser_execute` returns the
calls it makes, and `HttpRequestParser::execute` runs them in order over the
bytes of the buffer.

A length is the difference of two pointers. A negative one is the `size_t`
that wraps around, for which `std::string` throws `std::length_error`.
-/

namespace Hps.Http

open Hps.Lib

/-- What leaves a function by `throw`. -/
inductive Thrown where
  | lengthError
  deriving DecidableEq, Repr

/-- `std::string(mem + ptr, n)` -/
def stdString (mem : List UInt8) (ptr : Nat) (n : Int) :
    Except Thrown (List UInt8) :=
  if n < 0 then .error .lengthError else .ok ((mem.drop ptr).take n.toNat)

/-- A length as the `size_t` it is passed in. -/
def sizeT (n : Int) : Nat := (n % UInt64.size).toNat

namespace Request

/-! ## The generated parser -/

/-- The members of `struct http_parser` besides the callbacks; `none` is
`http_parser_error`. -/
structure HttpParser where
  cs : Option State
  bodyStart : Nat
  contentLen : Int
  nread : Nat
  mark : Nat
  fieldStart : Nat
  fieldLen : Int
  queryStart : Nat
  xmlSent : Bool
  jsonSent : Bool
  uriRelaxed : Bool

/-- The members `http_parser_init` leaves as it finds them. -/
structure Uninit where
  queryStart : Nat
  uriRelaxed : Bool

def httpParserInit (u : Uninit) : HttpParser where
  cs := some .start
  bodyStart := 0
  contentLen := 0
  nread := 0
  mark := 0
  fieldStart := 0
  fieldLen := 0
  queryStart := u.queryStart
  xmlSent := false
  jsonSent := false
  uriRelaxed := u.uriRelaxed

/-- The callbacks of type `element_cb`. -/
inductive Element where
  | requestMethod | requestUri | fragment | requestPath | queryString
  | httpVersion | headerDone
  deriving DecidableEq, Repr

/-- A call of a callback, with its pointers as offsets into the buffer. -/
inductive Call where
  | element (cb : Element) (ptr : Nat) (length : Int)
  | httpField (field : Nat) (flen : Int) (value : Nat) (vlen : Int)
  deriving DecidableEq, Repr

/-- `LEN(AT, FPC)` -/
def len (ptr fpc : Nat) : Int := (fpc : Int) - ptr

/-- An action at `fpc`, in a buffer that ends at `pe`. -/
def act (pe : Nat) : Action → Nat → HttpParser → HttpParser × List Call
  | .mark, fpc, s => ({ s with mark := fpc }, [])
  | .startField, fpc, s => ({ s with fieldStart := fpc }, [])
  | .writeField, fpc, s => ({ s with fieldLen := len s.fieldStart fpc }, [])
  | .startValue, fpc, s => ({ s with mark := fpc }, [])
  | .writeValue, fpc, s =>
      (s, [.httpField s.fieldStart s.fieldLen s.mark (len s.mark fpc)])
  | .requestMethod, fpc, s =>
      (s, [.element .requestMethod s.mark (len s.mark fpc)])
  | .requestUri, fpc, s => (s, [.element .requestUri s.mark (len s.mark fpc)])
  | .fragment, fpc, s => (s, [.element .fragment s.mark (len s.mark fpc)])
  | .startQuery, fpc, s => ({ s with queryStart := fpc }, [])
  | .queryString, fpc, s =>
      (s, [.element .queryString s.queryStart (len s.queryStart fpc)])
  | .httpVersion, fpc, s => (s, [.element .httpVersion s.mark (len s.mark fpc)])
  | .requestPath, fpc, s => (s, [.element .requestPath s.mark (len s.mark fpc)])
  | .xml, _, s => ({ s with xmlSent := true }, [])
  | .json, _, s => ({ s with jsonSent := true }, [])
  | .done, fpc, s =>
      if s.xmlSent ∨ s.jsonSent then
        ({ s with bodyStart := s.mark, contentLen := len s.mark fpc + 1 }, [])
      else
        ({ s with bodyStart := fpc + 1 },
          [.element .headerDone (fpc + 1) (len (fpc + 1) pe)])

/-- The machine's state at the end of a run, as `cs` has it. -/
def endState : Ending State → Option State
  | .running q => some q
  | .stopped q => some q
  | .failed => none

/-- What a call forgets of the call before it. -/
def HttpParser.reset (s : HttpParser) : HttpParser :=
  { s with nread := 0, mark := 0, fieldLen := 0, fieldStart := 0 }

/-- `http_parser_execute`: the bytes read, the parser and the calls. -/
def httpParserExecute (s : HttpParser) (buffer : List UInt8) (len off : Nat) :
    Nat × HttpParser × List Call :=
  if len = 0 then (0, s, [])
  else
    match s.cs with
    | none => (0, s.reset, [])
    | some cs =>
        let o := (machine s.uriRelaxed).exec (act len) cs off s.reset
          ((buffer.take len).drop off)
        (o.pos - off,
          { o.regs with cs := endState o.ending, nread := o.pos - off },
          o.calls)

def HttpParser.hasError (s : HttpParser) : Bool := s.cs.isNone

def HttpParser.isFinished (s : HttpParser) : Bool := s.cs.any State.final

/-- `http_parser_finish` -/
def HttpParser.finish (s : HttpParser) : Int :=
  if s.hasError then -1 else if s.isFinished then 1 else 0

/-! ## The parser class -/

structure HttpRequestParser where
  parser : HttpParser
  data : HttpRequest
  error : Nat

namespace HttpRequestParser

/-- The constructor. -/
def new (u : Uninit) : HttpRequestParser := ⟨httpParserInit u, {}, 0⟩

def setError (p : HttpRequestParser) (v : Nat) : HttpRequestParser :=
  { p with error := v }

variable (mem : List UInt8) (p : HttpRequestParser) (ptr : Nat) (length : Int)

def onRequestMethod : HttpRequestParser :=
  let m := charsToHttpMethod (mem.drop ptr)
  if m = .INVALID_METHOD then p.setError 1000
  else { p with data := p.data.setMethod m }

def onRequestFragment : Except Thrown HttpRequestParser := do
  return { p with data := p.data.setFragment (← stdString mem ptr length) }

def onRequestPath : Except Thrown HttpRequestParser := do
  return { p with data := p.data.setPath (← stdString mem ptr length) }

def onRequestQuery : Except Thrown HttpRequestParser := do
  return { p with data := p.data.setQuery (← stdString mem ptr length) }

def onRequestVersion : HttpRequestParser :=
  if strncmpEq (mem.drop ptr) (text "HTTP/1.1") (sizeT length) then
    { p with data := p.data.setVersion 0x11 }
  else if strncmpEq (mem.drop ptr) (text "HTTP/1.0") (sizeT length) then
    { p with data := p.data.setVersion 0x10 }
  else p.setError 1001

def onRequestHttpField (flen : Int) (value : Nat) (vlen : Int) :
    Except Thrown HttpRequestParser := do
  if flen = 0 then return p
  return { p with
    data := p.data.setHeader (← stdString mem ptr flen)
      (← stdString mem value vlen) }

/-- A call of the generated parser, over the buffer it was made on. -/
def call : Call → Except Thrown HttpRequestParser
  | .element .requestMethod ptr _ => .ok (onRequestMethod mem p ptr)
  | .element .requestUri _ _ => .ok p
  | .element .fragment ptr length => onRequestFragment mem p ptr length
  | .element .requestPath ptr length => onRequestPath mem p ptr length
  | .element .queryString ptr length => onRequestQuery mem p ptr length
  | .element .httpVersion ptr length => .ok (onRequestVersion mem p ptr length)
  | .element .headerDone _ _ => .ok p
  | .httpField field flen value vlen =>
      onRequestHttpField mem p field flen value vlen

/-- `execute(data, len)`: the bytes read, the parser, and the buffer with
what was not read moved to its front. -/
def execute (p : HttpRequestParser) (data : List UInt8) (len : Nat) :
    Except Thrown (Nat × HttpRequestParser × List UInt8) := do
  let (offset, parser, calls) := httpParserExecute p.parser data len 0
  let p ← calls.foldlM (call data) { p with parser }
  return (offset, p, (data.take len).drop offset ++ data.drop (len - offset))

def isFinished (p : HttpRequestParser) : Int := p.parser.finish

def hasError (p : HttpRequestParser) : Bool :=
  p.error != 0 || p.parser.hasError

def getContentLength (p : HttpRequestParser) : UInt64 :=
  p.data.getHeaderAsU64 (text "content-length") 0

end HttpRequestParser

end Request

end Hps.Http
