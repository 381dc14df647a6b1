import Mathlib.Algebra.Group.Int.Defs
import Mathlib.Algebra.Group.Nat.Defs
import Mathlib.Computability.RegularExpressions
import Hps.Lib.Machine

/-!
# HTTP — the request grammar

The machine of `http11_parser.rl`: one state for every point of the grammar
where the generated parser can stand, under the names of the rules, and on
every byte the actions of the transition in the order in which they run.

Some rules do not say what their notation suggests, and the machine follows
them to the letter. `0 - 31` is the byte 0 without the byte 31, so the other
control characters but the tab are `token` characters. `6( h16 ":" )` is the
byte 6 and one group. `more_delims` are let through under `uri_relaxed`,
which nobody sets: it is a parameter here.
-/

namespace Hps.Http

open Hps.Lib

/-! ## Characters -/

def ch (c : Char) : UInt8 := c.toUInt8

/-- The bytes of an ASCII text. -/
def text (s : String) : List UInt8 := s.toList.map ch

def upper (c : UInt8) : Bool := ch 'A' ≤ c && c ≤ ch 'Z'

def alpha (c : UInt8) : Bool := upper c || (ch 'a' ≤ c && c ≤ ch 'z')

def digit (c : UInt8) : Bool := ch '0' ≤ c && c ≤ ch '9'

def xdigit (c : UInt8) : Bool :=
  digit c || (ch 'A' ≤ c && c ≤ ch 'F') || (ch 'a' ≤ c && c ≤ ch 'f')

def ascii (c : UInt8) : Bool := c < 128

namespace Request

def moreDelims (c : UInt8) : Bool := text "{}^" |>.contains c

def subDelims (relaxed : Bool) (c : UInt8) : Bool :=
  (text "!$&'()*+,;=").contains c || (relaxed && moreDelims c)

def unreserved (c : UInt8) : Bool :=
  alpha c || digit c || (text "-._~").contains c

/-- The bytes of `reg_name`; percent-encoded ones are states of their own. -/
def regChar (relaxed : Bool) (c : UInt8) : Bool :=
  unreserved c || subDelims relaxed c

/-- The bytes of `segment_nz_nc`. -/
def segmentNzNcChar (relaxed : Bool) (c : UInt8) : Bool :=
  regChar relaxed c || c == ch '@'

/-- The bytes of `pchar`; those above ASCII are there for Chinese. -/
def pchar (relaxed : Bool) (c : UInt8) : Bool :=
  !ascii c || segmentNzNcChar relaxed c || c == ch ':'

def queryChar (relaxed : Bool) (c : UInt8) : Bool :=
  pchar relaxed c || c == ch '/' || c == ch '?'

/-- `HTTP_CTL`: `(0 - 31) | 127`, the bytes 0 and 127. -/
def httpCtl (c : UInt8) : Bool := c == 0 || c == 127

def httpSeparator (c : UInt8) : Bool :=
  (text "()<>@,;:\\\"/[]?=\x7b\x7d \t").contains c

def token (c : UInt8) : Bool := ascii c && !(httpCtl c || httpSeparator c)

/-! ## IP literals -/

namespace IP

open RegularExpression

abbrev Re := RegularExpression UInt8

/-- One byte of a class. -/
def oneOf (p : UInt8 → Bool) : Re :=
  (((List.range 256).map UInt8.ofNat).filter p).foldr (fun c r => char c + r) 0

def lit (c : Char) : Re := char (ch c)

def opt (r : Re) : Re := 1 + r

/-- `r{n,}` -/
def atLeast (n : Nat) (r : Re) : Re := r ^ n * star r

/-- `dec_octet`; the character ranges in quotes are single bytes. -/
def decOctet : Re :=
  oneOf digit + lit '1' * oneOf digit + lit '1' * oneOf digit * oneOf digit
    + lit '2' * lit '0' * oneOf digit + lit '2' * lit '5' * lit '0'

def ipv4address : Re :=
  decOctet * lit '.' * decOctet * lit '.' * decOctet * lit '.' * decOctet

def h16 : Re :=
  oneOf xdigit * opt (oneOf xdigit) * opt (oneOf xdigit) * opt (oneOf xdigit)

def ls32 : Re := h16 * lit ':' * h16 + ipv4address

def group : Re := h16 * lit ':'

def gap : Re := lit ':' * lit ':'

/-- What may stand before the `::`, with at least `n` groups. -/
def before (n : Nat) : Re := opt (atLeast n group * h16)

/-- `IPv6address`, the repetition counts being bytes. -/
def ipv6address : Re :=
  char 6 * group * ls32
    + gap * char 5 * group * ls32
    + opt h16 * gap * char 4 * group * ls32
    + before 1 * gap * char 3 * group * ls32
    + before 2 * gap * char 2 * group * ls32
    + before 3 * gap * group * ls32
    + before 4 * gap * ls32
    + before 5 * gap * h16
    + before 6 * gap

def ipvFuture (relaxed : Bool) : Re :=
  lit 'v' * oneOf xdigit * star (oneOf xdigit) * lit '.'
    * (oneOf (fun c => regChar relaxed c || c == ch ':')
      * star (oneOf fun c => regChar relaxed c || c == ch ':'))

/-- `IP_literal` behind its opening bracket. -/
def ipLiteral (relaxed : Bool) : Re :=
  (ipv6address + ipvFuture relaxed) * lit ']'

/-- No word matches. -/
def dead : Re → Bool
  | .zero => true
  | .epsilon => false
  | .char _ => false
  | .plus p q => dead p && dead q
  | .comp p q => dead p || dead q
  | .star _ => false

theorem matches_nonempty_of_not_dead (r : Re) (h : dead r = false) :
    ∃ w, w ∈ r.matches' := by
  induction r with
  | zero => cases h
  | epsilon => exact ⟨[], Set.mem_singleton _⟩
  | char c => exact ⟨[c], Set.mem_singleton _⟩
  | plus p q ihp ihq =>
      rcases Bool.and_eq_false_iff.mp h with h | h
      · obtain ⟨w, hw⟩ := ihp h
        exact ⟨w, .inl hw⟩
      · obtain ⟨w, hw⟩ := ihq h
        exact ⟨w, .inr hw⟩
  | comp p q ihp ihq =>
      obtain ⟨hp, hq⟩ := Bool.or_eq_false_iff.mp h
      obtain ⟨v, hv⟩ := ihp hp
      obtain ⟨w, hw⟩ := ihq hq
      exact ⟨v ++ w, Language.append_mem_mul hv hw⟩
  | star p ih => exact ⟨[], Language.nil_mem_kstar _⟩

theorem not_matches_of_dead (r : Re) (h : dead r = true) (w : List UInt8) :
    w ∉ r.matches' := by
  induction r generalizing w with
  | zero => exact Language.notMem_zero w
  | epsilon => cases h
  | char c => cases h
  | plus p q ihp ihq =>
      obtain ⟨hp, hq⟩ := (Bool.and_eq_true _ _).mp h
      rintro (hw | hw)
      · exact ihp hp w hw
      · exact ihq hq w hw
  | comp p q ihp ihq =>
      intro hw
      obtain ⟨u, hu, v, hv, rfl⟩ := Language.mem_mul.mp hw
      rcases (Bool.or_eq_true _ _).mp h with h | h
      · exact ihp h u hu
      · exact ihq h v hv
  | star p ih => cases h

/-- **A literal is given up on at the first byte that no word of it allows.** -/
theorem dead_iff (r : Re) : dead r = true ↔ ∀ w, w ∉ r.matches' := by
  refine ⟨not_matches_of_dead r, ?_⟩
  intro h
  by_contra hd
  obtain ⟨w, hw⟩ := matches_nonempty_of_not_dead r (by simpa using hd)
  exact h w hw

end IP

/-! ## Paths -/

/-- The rules whose bytes may be percent-encoded. -/
inductive Chars where
  | segmentNzNc | segment | regName | userinfo | hostName
  deriving DecidableEq, Repr

/-- Where the parser stands in `relative_part` or `hier_part`. -/
inductive PathState where
  | relativePart
  | hierPart
  | chars (s : Chars)
  /-- behind the `%` -/
  | pct (s : Chars)
  /-- behind the first of its digits -/
  | pctDigit (s : Chars)
  /-- behind a first `/` -/
  | slash
  /-- behind `//` -/
  | authority
  /-- behind the `:` of a port, or of a `userinfo` -/
  | port
  /-- behind the `@` -/
  | host
  | hostPort
  /-- inside the brackets, with what has to follow -/
  | ipLiteral (rest : IP.Re)
  | ipLiteralEnd

/-- The path may end here. -/
def PathState.final : PathState → Bool
  | .chars s => s != .userinfo
  | .pct _ | .pctDigit _ | .ipLiteral _ => false
  | _ => true

/-- The bytes of the rule. -/
def Chars.has (relaxed : Bool) : Chars → UInt8 → Bool
  | .segmentNzNc => segmentNzNcChar relaxed
  | .segment => pchar relaxed
  | .regName => regChar relaxed
  | .userinfo => fun c => regChar relaxed c || c == ch ':'
  | .hostName => regChar relaxed

/-- What may follow the bytes of the rule in the path. -/
def Chars.follow : Chars → UInt8 → Option PathState
  | .segmentNzNc, c => if c = ch '/' then some (.chars .segment) else none
  | .segment, c => if c = ch '/' then some (.chars .segment) else none
  | .regName, c =>
      if c = ch '/' then some (.chars .segment)
      else if c = ch ':' then some .port
      else if c = ch '@' then some .host
      else none
  | .userinfo, c => if c = ch '@' then some .host else none
  | .hostName, c =>
      if c = ch '/' then some (.chars .segment)
      else if c = ch ':' then some .hostPort
      else none

/-- One byte of the rule, or what follows it. -/
def Chars.next (relaxed : Bool) (s : Chars) (c : UInt8) : Option PathState :=
  if s.has relaxed c then some (.chars s)
  else if c = ch '%' then some (.pct s)
  else s.follow c

def PathState.next (relaxed : Bool) : PathState → UInt8 → Option PathState
  | .relativePart, c =>
      if c = ch '/' then some .slash else Chars.segmentNzNc.next relaxed c
  | .hierPart, c =>
      if c = ch '/' then some .slash else Chars.segment.next relaxed c
  | .chars s, c => s.next relaxed c
  | .pct s, c => if xdigit c then some (.pctDigit s) else none
  | .pctDigit s, c => if xdigit c then some (.chars s) else none
  | .slash, c =>
      if c = ch '/' then some .authority else Chars.segment.next relaxed c
  | .authority, c =>
      if c = ch '[' then some (.ipLiteral (IP.ipLiteral relaxed))
      else Chars.regName.next relaxed c
  | .port, c =>
      if digit c then some .port
      else if c = ch '/' then some (.chars .segment)
      else Chars.userinfo.next relaxed c
  | .host, c =>
      if c = ch '[' then some (.ipLiteral (IP.ipLiteral relaxed))
      else Chars.hostName.next relaxed c
  | .hostPort, c =>
      if digit c then some .hostPort
      else if c = ch '/' then some (.chars .segment)
      else none
  | .ipLiteral rest, c =>
      if IP.dead (rest.deriv c) then none
      else if (rest.deriv c).matchEpsilon then some .ipLiteralEnd
      else some (.ipLiteral (rest.deriv c))
  | .ipLiteralEnd, c =>
      if c = ch '/' then some (.chars .segment)
      else if c = ch ':' then some .hostPort
      else none

/-! ## Messages -/

/-- The actions of the grammar. -/
inductive Action where
  | mark | startField | writeField | startValue | writeValue
  | requestMethod | requestUri | fragment | startQuery | queryString
  | httpVersion | requestPath | xml | json | done
  deriving DecidableEq, Repr

/-- Where the parser stands. -/
inductive State where
  | start
  /-- `n` bytes into the method -/
  | method (n : Nat)
  | uri
  | scheme
  | path (s : PathState)
  | queryStart
  | query
  | queryPct
  | queryPctDigit
  | fragmentStart
  | fragment
  | fragmentPct
  | fragmentPctDigit
  /-- `n` bytes into the version -/
  | version (n : Nat)
  /-- behind a CR that ends a line -/
  | crlf
  /-- at the start of a header line -/
  | line
  /-- behind a CR at the start of a line: the end, or part of a name -/
  | lineCr
  | fieldName
  /-- behind the colon -/
  | fieldLws
  | fieldValue
  /-- the head is complete -/
  | finished
  | xmlTag
  | xmlName
  | xmlData
  /-- behind a `>` -/
  | xmlEnd
  | jsonPath (s : PathState)
  | jsonGap
  | jsonData
  /-- behind a closing brace -/
  | jsonEnd
  /-- a socket message is complete -/
  | socketFinished

/-- `cs >= http_parser_first_final` -/
def State.final : State → Bool
  | .finished | .socketFinished => true
  | _ => false

/-- The bytes of a `URI_reference` behind the scheme, where the path stands
at `s`; `entering` runs before the byte's own actions. -/
def uriNext (relaxed : Bool) (s : PathState) (entering : List Action)
    (c : UInt8) : Option (State × List Action) :=
  if s.final ∧ c = ch ' ' then
    some (.version 0, entering ++ [.requestPath, .requestUri])
  else if s.final ∧ c = ch '#' then
    some (.fragmentStart, entering ++ [.requestPath, .requestUri])
  else if s.final ∧ c = ch '?' then
    some (.queryStart, entering ++ [.requestPath])
  else (s.next relaxed c).map fun s' => (.path s', entering)

/-- The bytes of `query`. -/
def queryNext (relaxed : Bool) (entering : List Action) (c : UInt8) :
    Option (State × List Action) :=
  if c = ch ' ' then some (.version 0, entering ++ [.queryString, .requestUri])
  else if c = ch '#' then
    some (.fragmentStart, entering ++ [.queryString, .requestUri])
  else if c = ch '%' then some (.queryPct, entering)
  else if queryChar relaxed c then some (.query, entering)
  else none

/-- The bytes of `fragment`. -/
def fragmentNext (relaxed : Bool) (entering : List Action) (c : UInt8) :
    Option (State × List Action) :=
  if c = ch ' ' then some (.version 0, entering ++ [.fragment])
  else if c = ch '%' then some (.fragmentPct, entering)
  else if queryChar relaxed c then some (.fragment, entering)
  else none

/-- `HTTP_Version` up to its last digit. -/
def versionText : List UInt8 := text "HTTP/1."

def versionNext (n : Nat) (c : UInt8) : Option (State × List Action) :=
  if n < 7 then
    if versionText[n]? = some c then
      some (.version (n + 1), if n = 0 then [.mark] else [])
    else none
  else if n = 7 then
    if c = ch '0' ∨ c = ch '1' then some (.version 8, []) else none
  else if c = 10 then some (.line, [.httpVersion])
  else if c = 13 then some (.crlf, [.httpVersion])
  else none

/-- The bytes behind the colon of a header line. -/
def valueNext (entering : List Action) (c : UInt8) :
    Option (State × List Action) :=
  if c = 10 then some (.line, entering ++ [.writeValue])
  else if c = 13 then some (.crlf, entering ++ [.writeValue])
  else if httpCtl c then none
  else some (.fieldValue, entering)

/-- The bytes of a name that has begun. -/
def nameNext (c : UInt8) : Option (State × List Action) :=
  if c = ch ':' then some (.fieldLws, [.writeField])
  else if token c then some (.fieldName, [])
  else none

def State.next (relaxed : Bool) : State → UInt8 → Option (State × List Action)
  | .start, c =>
      if upper c || digit c then some (.method 1, [.mark])
      else if c = ch '<' then some (.xmlTag, [.mark])
      else if c = ch '@' then some (.jsonPath .relativePart, [.mark])
      else none
  | .method n, c =>
      if c = ch ' ' then some (.uri, [.requestMethod])
      else if (upper c || digit c) ∧ n < 20 then some (.method (n + 1), [])
      else none
  | .uri, c =>
      if alpha c then some (.scheme, [.mark])
      else uriNext relaxed .relativePart [.mark] c
  | .scheme, c =>
      if c = ch ':' then some (.path .hierPart, [])
      else if alpha c || digit c || (text "+-.").contains c then
        some (.scheme, [])
      else uriNext relaxed (.chars .segmentNzNc) [] c
  | .path .hierPart, c => uriNext relaxed .hierPart [.mark] c
  | .path s, c => uriNext relaxed s [] c
  | .queryStart, c => queryNext relaxed [.startQuery] c
  | .query, c => queryNext relaxed [] c
  | .queryPct, c => if xdigit c then some (.queryPctDigit, []) else none
  | .queryPctDigit, c => if xdigit c then some (.query, []) else none
  | .fragmentStart, c => fragmentNext relaxed [.mark] c
  | .fragment, c => fragmentNext relaxed [] c
  | .fragmentPct, c => if xdigit c then some (.fragmentPctDigit, []) else none
  | .fragmentPctDigit, c => if xdigit c then some (.fragment, []) else none
  | .version n, c => versionNext n c
  | .crlf, c => if c = 10 then some (.line, []) else none
  | .line, c =>
      if c = 10 then some (.finished, [.startField, .done])
      else if c = 13 then some (.lineCr, [.startField])
      else if token c then some (.fieldName, [.startField])
      else none
  | .lineCr, c => if c = 10 then some (.finished, [.done]) else nameNext c
  | .fieldName, c => nameNext c
  | .fieldLws, c =>
      if c = ch ' ' ∨ c = 9 then some (.fieldLws, [.startValue])
      else valueNext [.startValue] c
  | .fieldValue, c => valueNext [] c
  | .finished, c => nameNext c
  | .xmlTag, c =>
      if alpha c || digit c || (text "-.").contains c then some (.xmlName, [])
      else none
  | .xmlName, c =>
      if alpha c || digit c || (text "-.").contains c then some (.xmlName, [])
      else if (9 ≤ c && c ≤ 13) || c == ch ' ' || c == ch '/' || c == ch '>' then
        some (.xmlData, [.requestPath])
      else none
  | .xmlData, c => some (if c = ch '>' then .xmlEnd else .xmlData, [])
  | .xmlEnd, c =>
      if c = 0 then some (.socketFinished, [.xml, .done])
      else some (if c = ch '>' then .xmlEnd else .xmlData, [])
  | .jsonPath s, c =>
      if s.final ∧ c = ch ' ' then some (.jsonGap, [.requestPath])
      else (s.next relaxed c).map fun s' => (.jsonPath s', [])
  | .jsonGap, c => if c = 0x7b then some (.jsonData, [.mark]) else none
  | .jsonData, c => some (if c = 0x7d then .jsonEnd else .jsonData, [])
  | .jsonEnd, c =>
      if c = 0 then some (.socketFinished, [.json, .done])
      else some (if c = 0x7d then .jsonEnd else .jsonData, [])
  | .socketFinished, _ => none

/-- The machine `http_parser`; `done` breaks out of it. -/
def machine (relaxed : Bool) : Machine State UInt8 Action where
  next := State.next relaxed
  stops a := a = .done

end Request

end Hps.Http
