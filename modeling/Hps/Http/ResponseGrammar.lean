import Hps.Http.Message

/-!
# HTTP — the response grammar

The machine of `httpclient_parser.rl`: a response head, or the line that
stands before a chunk. Three headers have rules of their own beside the rule
for fields, and the generated parser follows both for as long as it can. The
blanks of these rules are `space*`, line ends included, so that behind an
empty value the parser stands at the start of a line and inside the blanks of
the header before it.
-/

namespace Hps.Http

open Hps.Lib

namespace Response

/-! ## Characters -/

/-- `space` -/
def space (c : UInt8) : Bool := (9 ≤ c && c ≤ 13) || c == ch ' '

/-- `cntrl | 127` -/
def ctl (c : UInt8) : Bool := c ≤ 31 || c == 127

def tspecials (c : UInt8) : Bool :=
  (text "()<>@,;:\\\"/[]?=\x7b\x7d \t").contains c

def token (c : UInt8) : Bool := ascii c && !(ctl c || tspecials c)

/-! ## Headers with a rule of their own -/

/-- `conn_close`, `content_length` and `transfer_encoding_chunked` -/
inductive Special where
  | connClose | contentLength | transferEncodingChunked
  deriving DecidableEq, Repr

/-- The names, in lower case. -/
def Special.name : Special → List UInt8
  | .connClose => text "connection"
  | .contentLength => text "content-length"
  | .transferEncodingChunked => text "transfer-encoding"

def specials : List Special :=
  [.connClose, .contentLength, .transferEncodingChunked]

/-- What is left to match of the names behind `typed` and one byte more:
nothing, when no name begins so. -/
def typedNext (typed : Option (List UInt8)) (c : UInt8) : Option (List UInt8) :=
  typed.bind fun t =>
    let t := t ++ [tolower c]
    if specials.any fun k => t.isPrefixOf k.name then some t else none

/-- The header whose name was typed. -/
def typedSpecial (typed : Option (List UInt8)) : Option Special :=
  typed.bind fun t => specials.find? fun k => k.name == t

/-- One byte more of the value behind `n` bytes of it; one digit is as good as
many. -/
def Special.wordNext (k : Special) (n : Nat) (c : UInt8) : Option Nat :=
  match k with
  | .connClose => if (text "close")[n]? = some (tolower c) then some (n + 1) else none
  | .contentLength => if digit c then some 1 else none
  | .transferEncodingChunked =>
      if (text "chunked")[n]? = some (tolower c) then some (n + 1) else none

/-- The value is complete. -/
def Special.wordDone (k : Special) (n : Nat) : Bool :=
  match k with
  | .connClose => n == 5
  | .contentLength => n == 1
  | .transferEncodingChunked => n == 7

/-! ## Messages -/

/-- The actions of the grammar. -/
inductive Action where
  | mark | startField | writeField | startValue | writeContentLen
  | writeConnectionClose | writeValue | reasonPhrase | statusCode | httpVersion
  | chunkSize | transChunked | done
  deriving DecidableEq, Repr

/-- What is pending at the start of a line. -/
inductive Pending where
  | nothing
  /-- `write_connection_close`, which runs on leaving the line end -/
  | close
  /-- the blanks of a header may go on -/
  | blanks (k : Special)
  deriving DecidableEq, Repr

/-- Where the parser stands. -/
inductive State where
  | start
  | chunkSize
  /-- behind the `;` -/
  | chunkExtension
  | chunkExtName
  | chunkExtEq
  | chunkExtVal
  /-- behind the CR that ends the head -/
  | lastCr
  /-- `n` bytes into `HTTP/` -/
  | http (n : Nat)
  | major
  | dot
  | minor
  | statusStart
  | status
  | reasonStart
  | reason
  /-- at the start of a header line -/
  | line (p : Pending)
  /-- behind a CR there: the end, or one of the blanks -/
  | lineCr (k : Special)
  /-- in a name, and in a value that came behind line ends -/
  | fieldName (typed : Option (List UInt8)) (word : Option (Special × Nat))
  /-- behind the colon -/
  | fieldSpace (k : Option Special)
  /-- behind a CR there: the end of the line, or one of the blanks -/
  | fieldSpaceCr (k : Special)
  | fieldValue (word : Option (Special × Nat))
  /-- in the blanks of a header of its own rule -/
  | blanks (k : Special)
  /-- in its value -/
  | word (k : Special) (n : Nat)
  /-- behind the CR that ends a line -/
  | crlf (k : Option Special)
  /-- the head is complete -/
  | finished (k : Option Special)

/-- `cs == httpclient_parser_first_final`: of the four states in which a head
is complete, the first. -/
def State.final : State → Bool
  | .finished none => true
  | _ => false

/-- A transition. -/
abbrev Next := Option (State × List Action)

/-- Runs `as` first. -/
def entering (as : List Action) (t : Next) : Next := t.map fun x => (x.1, as ++ x.2)

/-- What runs at the end of a value by its own rule. -/
def Special.wordEnd : Special → List Action
  | .connClose => []
  | .contentLength => [.writeContentLen, .writeValue]
  | .transferEncodingChunked => [.writeValue]

/-- The LF behind the value of `k`. -/
def crlfNext (k : Option Special) (c : UInt8) : Next :=
  if c ≠ 10 then none
  else match k with
    | some .connClose => some (.line .close, [])
    | some .transferEncodingChunked => some (.line .nothing, [.transChunked])
    | _ => some (.line .nothing, [])

/-- The end of a line, with the value of `k` complete. -/
def lineEnd (k : Option Special) (as : List Action) (c : UInt8) : Next :=
  if c = 13 then some (.crlf k, as) else entering as (crlfNext k c)

/-- The first byte of a value of `k`, behind blanks. -/
def wordStart (k : Special) (c : UInt8) : Next :=
  (k.wordNext 0 c).map fun n =>
    (.word k n, if k = .connClose then [] else [.startValue])

/-- The bytes of `space*`, or of the value behind it. -/
def blanksNext (k : Special) (c : UInt8) : Next :=
  if space c then some (.blanks k, []) else wordStart k c

/-- A value of `k` alone. -/
def wordNext (k : Special) (n : Nat) (c : UInt8) : Next :=
  match k.wordNext n c with
  | some m => some (.word k m, [])
  | none => if k.wordDone n then lineEnd (some k) k.wordEnd c else none

/-- What runs at the end of a field whose value so far is `word`. -/
def valueEnd (word : Option (Special × Nat)) (c : UInt8) : Next :=
  match word with
  | some (k, n) =>
      if k.wordDone n then
        lineEnd (some k) (if k = .connClose then [.writeValue] else k.wordEnd) c
      else lineEnd none [.writeValue] c
  | none => lineEnd none [.writeValue] c

/-- One byte more of a value. -/
def advance (word : Option (Special × Nat)) (c : UInt8) : Option (Special × Nat) :=
  word.bind fun x => (x.1.wordNext x.2 c).map fun n => (x.1, n)

def fieldValueNext (word : Option (Special × Nat)) (c : UInt8) : Next :=
  if c = 10 ∨ c = 13 then valueEnd word c
  else some (.fieldValue (advance word c), [])

/-- The bytes behind the colon. -/
def fieldSpaceNext (k : Option Special) (c : UInt8) : Next :=
  if c = 10 then
    some (.line (k.elim .nothing .blanks), [.startValue, .writeValue])
  else if c = 13 then
    some (k.elim (.crlf none) .fieldSpaceCr, [.startValue, .writeValue])
  else if space c then some (.fieldSpace k, [.startValue])
  else some (.fieldValue (advance (k.map fun k => (k, 0)) c), [.startValue])

/-- The bytes of a name that has begun. -/
def fieldNameNext (typed : Option (List UInt8)) (word : Option (Special × Nat))
    (c : UInt8) : Next :=
  if c = ch ':' then some (.fieldSpace (typedSpecial typed), [.writeField])
  else if token c then some (.fieldName (typedNext typed c) (advance word c), [])
  else match word with
    | some (k, n) => if k.wordDone n then lineEnd (some k) k.wordEnd c else none
    | none => none

/-- The first byte of a line. -/
def lineStart (c : UInt8) : Next :=
  if c = 10 then some (.finished none, [.done])
  else if c = 13 then some (.lastCr, [])
  else if token c then some (.fieldName (typedNext (some []) c) none, [.startField])
  else none

/-- The first byte of a line, where the header before it may still go on. -/
def lineNext (p : Pending) (c : UInt8) : Next :=
  match p with
  | .nothing => lineStart c
  | .close => entering [.writeConnectionClose] (lineStart c)
  | .blanks k =>
      if c = 10 then some (.finished (some k), [.done])
      else if c = 13 then some (.lineCr k, [])
      else if token c then
        some (.fieldName (typedNext (some []) c) (advance (some (k, 0)) c),
          (wordStart k c).elim [] Prod.snd ++ [.startField])
      else if space c then some (.blanks k, [])
      else none

/-- `HTTP/` -/
def httpText : List UInt8 := text "HTTP/"

/-- The bytes of `chunk_extension` behind a name or a value. -/
def extensionNext (as : List Action) (c : UInt8) : Next :=
  if c = 10 then some (.finished none, as ++ [.done])
  else if c = 13 then some (.lastCr, as)
  else if c = ch ';' then some (.chunkExtension, as)
  else none

def next : State → UInt8 → Next
  | .start, c =>
      if xdigit c then some (.chunkSize, [.mark])
      else if c = ch 'H' then some (.http 1, [.mark])
      else none
  | .chunkSize, c =>
      if xdigit c then some (.chunkSize, []) else extensionNext [.chunkSize] c
  | .chunkExtension, c => if token c then some (.chunkExtName, [.startField]) else none
  | .chunkExtName, c =>
      if token c then some (.chunkExtName, [])
      else if c = ch '=' then some (.chunkExtEq, [.writeField, .startValue])
      else extensionNext [.writeField, .startValue, .writeValue] c
  | .chunkExtEq, c => if token c then some (.chunkExtVal, [.startValue]) else none
  | .chunkExtVal, c =>
      if token c then some (.chunkExtVal, []) else extensionNext [.writeValue] c
  | .lastCr, c => if c = 10 then some (.finished none, [.done]) else none
  | .http n, c =>
      if n < 5 then if httpText[n]? = some c then some (.http (n + 1), []) else none
      else if digit c then some (.major, [])
      else none
  | .major, c =>
      if digit c then some (.major, [])
      else if c = ch '.' then some (.dot, [])
      else none
  | .dot, c => if digit c then some (.minor, []) else none
  | .minor, c =>
      if digit c then some (.minor, [])
      else if c = ch ' ' then some (.statusStart, [.httpVersion])
      else none
  | .statusStart, c => if digit c then some (.status, [.mark]) else none
  | .status, c =>
      if digit c then some (.status, [])
      else if c = ch ' ' then some (.reasonStart, [.statusCode])
      else none
  | .reasonStart, c => if c = 10 then none else some (.reason, [.mark])
  | .reason, c =>
      if c = 10 then some (.line .nothing, [.reasonPhrase])
      else if c = 13 then some (.crlf none, [.reasonPhrase])
      else some (.reason, [])
  | .line p, c => lineNext p c
  | .lineCr k, c =>
      if c = 10 then some (.finished (some k), [.done]) else blanksNext k c
  | .fieldName typed word, c => fieldNameNext typed word c
  | .fieldSpace k, c => fieldSpaceNext k c
  | .fieldSpaceCr k, c =>
      if c = 10 then some (.line (.blanks k), []) else blanksNext k c
  | .fieldValue word, c => fieldValueNext word c
  | .blanks k, c => blanksNext k c
  | .word k n, c => wordNext k n c
  | .crlf k, c => crlfNext k c
  | .finished k, c => k.bind fun k => blanksNext k c

/-- The machine; `done` leaves the loop by `fbreak`. -/
def machine : Machine State UInt8 Action where
  next := next
  stops a := a = .done

end Response

end Hps.Http
