import Hps.Http.RequestGrammar

/-!
# HTTP — requests

The part of `http.h` and `http.cc` that the parsers and the sessions use:
methods, the header map and the request record. A `const char *` is the list
of the bytes from there on; where the list ends stands a NUL.
-/

namespace Hps.Http

/-! ## C strings -/

/-- `strncmp(a, b, n) == 0` -/
def strncmpEq : List UInt8 → List UInt8 → Nat → Bool
  | _, _, 0 => true
  | a, b, n + 1 =>
      a.headD 0 == b.headD 0 &&
        (a.headD 0 == 0 || strncmpEq a.tail b.tail n)

def tolower (c : UInt8) : UInt8 := if upper c then c + 32 else c

def strcasecmp : List UInt8 → List UInt8 → Ordering
  | [], [] => .eq
  | [], b :: _ => if b = 0 then .eq else .lt
  | a :: _, [] => if a = 0 then .eq else .gt
  | a :: as, b :: bs =>
      match compare (tolower a) (tolower b) with
      | .eq => if a = 0 then .eq else strcasecmp as bs
      | o => o

/-! ## Methods -/

inductive HttpMethod where
  | DELETE | GET | HEAD | POST | PUT | CONNECT | OPTIONS | TRACE | COPY | LOCK
  | MKCOL | MOVE | PROPFIND | PROPPATCH | SEARCH | UNLOCK | BIND | REBIND
  | UNBIND | ACL | REPORT | MKACTIVITY | CHECKOUT | MERGE | MSEARCH | NOTIFY
  | SUBSCRIBE | UNSUBSCRIBE | PATCH | PURGE | MKCALENDAR | LINK | UNLINK
  | SOURCE | INVALID_METHOD
  deriving DecidableEq, Repr

/-- `HTTP_METHOD_MAP`, with the names as the preprocessor spells them. -/
def httpMethodMap : List (HttpMethod × String) :=
  [(.DELETE, "DELETE"), (.GET, "GET"), (.HEAD, "HEAD"), (.POST, "POST"),
   (.PUT, "PUT"), (.CONNECT, "CONNECT"), (.OPTIONS, "OPTIONS"),
   (.TRACE, "TRACE"), (.COPY, "COPY"), (.LOCK, "LOCK"), (.MKCOL, "MKCOL"),
   (.MOVE, "MOVE"), (.PROPFIND, "PROPFIND"), (.PROPPATCH, "PROPPATCH"),
   (.SEARCH, "SEARCH"), (.UNLOCK, "UNLOCK"), (.BIND, "BIND"),
   (.REBIND, "REBIND"), (.UNBIND, "UNBIND"), (.ACL, "ACL"),
   (.REPORT, "REPORT"), (.MKACTIVITY, "MKACTIVITY"), (.CHECKOUT, "CHECKOUT"),
   (.MERGE, "MERGE"), (.MSEARCH, "M - SEARCH"), (.NOTIFY, "NOTIFY"),
   (.SUBSCRIBE, "SUBSCRIBE"), (.UNSUBSCRIBE, "UNSUBSCRIBE"),
   (.PATCH, "PATCH"), (.PURGE, "PURGE"), (.MKCALENDAR, "MKCALENDAR"),
   (.LINK, "LINK"), (.UNLINK, "UNLINK"), (.SOURCE, "SOURCE")]

/-- `CharsToHttpMethod`: the first name that the text begins with. -/
def charsToHttpMethod (m : List UInt8) : HttpMethod :=
  match httpMethodMap.find? fun x =>
      strncmpEq (text x.2) m (text x.2).length with
  | some x => x.1
  | none => .INVALID_METHOD

/-! ## Headers -/

/-- `std::map<std::string, std::string, CaseInsensitiveLess>`: the entries in
the order of their keys. -/
abbrev MapType := List (List UInt8 × List UInt8)

/-- `CaseInsensitiveLess` -/
def caseInsensitiveLess (lhs rhs : List UInt8) : Bool :=
  strcasecmp lhs rhs == .lt

/-- `m[key] = val`: an entry that is there keeps the spelling of its key. -/
def MapType.set (key val : List UInt8) : MapType → MapType
  | [] => [(key, val)]
  | (k, v) :: m =>
      if caseInsensitiveLess key k then (key, val) :: (k, v) :: m
      else if caseInsensitiveLess k key then (k, v) :: MapType.set key val m
      else (k, val) :: m

def MapType.find (m : MapType) (key : List UInt8) : Option (List UInt8) :=
  (List.find? (fun x => !caseInsensitiveLess x.1 key &&
    !caseInsensitiveLess key x.1) m).map Prod.snd

/-- `boost::lexical_cast<uint64_t>`: an optional sign and decimal digits. A
minus takes the negative modulo `2^64`. -/
def lexicalCastU64 (s : List UInt8) : Option UInt64 :=
  let ds := if s.head? = some (ch '-') ∨ s.head? = some (ch '+') then s.tail
    else s
  let v := ds.foldl (fun v c => v * 10 + (c - ch '0').toNat) 0
  if ds ≠ [] ∧ ds.all digit ∧ v < UInt64.size then
    some (if s.head? = some (ch '-') then 0 - UInt64.ofNat v else UInt64.ofNat v)
  else none

/-- `getAs<uint64_t>(m, key, def)` -/
def MapType.getAsU64 (m : MapType) (key : List UInt8) (dflt : UInt64) : UInt64 :=
  ((m.find key).bind lexicalCastU64).getD dflt

/-! ## Requests -/

/-- The fields of `HttpRequest` that the parser and the session touch. -/
structure HttpRequest where
  method : HttpMethod := .GET
  version : UInt8 := 0x11
  close : Bool := true
  path : List UInt8 := text "/"
  query : List UInt8 := []
  fragment : List UInt8 := []
  body : List UInt8 := []
  headers : MapType := []
  deriving DecidableEq

namespace HttpRequest

def setMethod (r : HttpRequest) (v : HttpMethod) : HttpRequest :=
  { r with method := v }

def setVersion (r : HttpRequest) (v : UInt8) : HttpRequest :=
  { r with version := v }

def setPath (r : HttpRequest) (v : List UInt8) : HttpRequest :=
  { r with path := v }

def setQuery (r : HttpRequest) (v : List UInt8) : HttpRequest :=
  { r with query := v }

def setFragment (r : HttpRequest) (v : List UInt8) : HttpRequest :=
  { r with fragment := v }

def setBody (r : HttpRequest) (v : List UInt8) : HttpRequest :=
  { r with body := v }

def setHeader (r : HttpRequest) (key val : List UInt8) : HttpRequest :=
  { r with headers := MapType.set key val r.headers }

def getHeader (r : HttpRequest) (key dflt : List UInt8) : List UInt8 :=
  (r.headers.find key).getD dflt

/-- `getHeaderAs<uint64_t>(key, def)` -/
def getHeaderAsU64 (r : HttpRequest) (key : List UInt8) (dflt : UInt64) : UInt64 :=
  r.headers.getAsU64 key dflt

/-- `init()`: the connection header decides whether to close. -/
def init (r : HttpRequest) : HttpRequest :=
  let conn := r.getHeader (text "connection") []
  if conn = [] then r
  else { r with close := strcasecmp conn (text "keep-alive") != .eq }

end HttpRequest

end Hps.Http
