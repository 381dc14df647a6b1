import Mathlib.Tactic.Tauto
import Hps.Lib.Lines
import Hps.Lib.Segments
import Hps.Http.Dump
import Hps.Http.ResponseParser

/-!
# HTTP — the length a message declares

`dump` of a request or a response writes the headers of the message as they
are, and behind them a `content-length` of its own if there is a body. A
header named so that is in the map already, of a message that was parsed and is
sent on or one that was set, is written too. This module says which messages
come out with one length only, and that of their body.
-/

namespace Hps.Http

open Hps.Lib

/-! ## Responses as text -/

/-- `HTTP_STATUS_MAP`, with the texts as the preprocessor spells them. -/
def httpStatusMap : List (Int × String) :=
  [(100, "Continue"), (101, "Switching Protocols"), (102, "Processing"), (200, "OK"),
   (201, "Created"), (202, "Accepted"), (203, "Non - Authoritative Information"),
   (204, "No Content"), (205, "Reset Content"), (206, "Partial Content"),
   (207, "Multi - Status"), (208, "Already Reported"), (226, "IM Used"),
   (300, "Multiple Choices"), (301, "Moved Permanently"), (302, "Found"),
   (303, "See Other"), (304, "Not Modified"), (305, "Use Proxy"),
   (307, "Temporary Redirect"), (308, "Permanent Redirect"), (400, "Bad Request"),
   (401, "Unauthorized"), (402, "Payment Required"), (403, "Forbidden"),
   (404, "Not Found"), (405, "Method Not Allowed"), (406, "Not Acceptable"),
   (407, "Proxy Authentication Required"), (408, "Request Timeout"),
   (409, "Conflict"), (410, "Gone"), (411, "Length Required"),
   (412, "Precondition Failed"), (413, "Payload Too Large"), (414, "URI Too Long"),
   (415, "Unsupported Media Type"), (416, "Range Not Satisfiable"),
   (417, "Expectation Failed"), (421, "Misdirected Request"),
   (422, "Unprocessable Entity"), (423, "Locked"), (424, "Failed Dependency"),
   (426, "Upgrade Required"), (428, "Precondition Required"),
   (429, "Too Many Requests"), (431, "Request Header Fields Too Large"),
   (451, "Unavailable For Legal Reasons"), (500, "Internal Server Error"),
   (501, "Not Implemented"), (502, "Bad Gateway"), (503, "Service Unavailable"),
   (504, "Gateway Timeout"), (505, "HTTP Version Not Supported"),
   (506, "Variant Also Negotiates"), (507, "Insufficient Storage"),
   (508, "Loop Detected"), (510, "Not Extended"),
   (511, "Network Authentication Required")]

/-- `HttpStatusToString` -/
def httpStatusToString (s : Int) : List UInt8 :=
  match httpStatusMap.find? fun x => x.1 == s with
  | some x => text x.2
  | none => text "<unknown>"

namespace HttpResponse

/-- `m_body.size()` -/
def bodySize (r : HttpResponse) : UInt64 := UInt64.ofNat r.body.length

/-- `dump(os)`, for the `m_websocket` and the `m_cookies` of the response. -/
def dump (websocket : Bool) (cookies : List (List UInt8)) (r : HttpResponse) :
    List UInt8 :=
  text "HTTP/" ++
    decimal (r.version >>> 4).toNat ++
    text "." ++
    decimal (r.version &&& 0x0F).toNat ++
    text " " ++
    decimal (r.status % 2 ^ 32).toNat ++
    text " " ++
    (if r.reason = [] then httpStatusToString r.status else r.reason) ++
    text "\r\n" ++
    (r.headers.flatMap fun i =>
      if !websocket && strcasecmp i.1 (text "connection") == .eq then []
      else i.1 ++ text ": " ++ i.2 ++ text "\r\n") ++
    (cookies.flatMap fun i => text "Set-Cookie: " ++ i ++ text "\r\n") ++
    (if !websocket then
      text "connection: " ++ (if r.close then text "close" else text "keep-alive") ++
        text "\r\n"
    else []) ++
    (if r.body ≠ [] then
      text "content-length: " ++ decimal r.bodySize.toNat ++ text "\r\n\r\n" ++
        r.body
    else text "\r\n")

end HttpResponse

/-! ## What a reader sees

The grammars of both parsers end a line at a line feed, with or without a
carriage return before it. -/

/-- The line without the carriage return at its end. -/
def chomp (l : List UInt8) : List UInt8 :=
  if l.getLast? = some 13 then l.dropLast else l

def blankLine (l : List UInt8) : Bool := chomp l == []

/-- The header lines of a message. -/
def headerLines (t : List UInt8) : List (List UInt8) :=
  (Lines.head 10 blankLine t).map chomp

/-- What stands behind the head. -/
def bodyBehind (t : List UInt8) : List UInt8 := Lines.behind 10 blankLine t

/-- A `content-length` line, as the header map compares names. -/
def NamesLength (l : List UInt8) : Prop :=
  ch ':' ∈ l ∧ SameName (l.takeWhile (· != ch ':')) (text "content-length")

instance (l : List UInt8) : Decidable (NamesLength l) :=
  inferInstanceAs (Decidable (_ ∧ _))

def blankByte (c : UInt8) : Bool := c == ch ' ' || c == 9

/-- The value of a header line. -/
def lineValue (l : List UInt8) : List UInt8 :=
  (l.dropWhile (· != ch ':')).tail.dropWhile blankByte

/-- **The length that is declared is that of the body**: on every header line
of the text that declares one, and the body is all that stands behind the
head. -/
structure DeclaresLength (t body : List UInt8) : Prop where
  lines : ∀ l ∈ headerLines t, NamesLength l →
    lineValue l = decimal (UInt64.ofNat body.length).toNat
  empty : body = [] → ∀ l ∈ headerLines t, NamesLength l → lineValue l = text "0"
  behind : bodyBehind t = body

/-! ## What is written -/

/-- A message with what `dump` reads of it. -/
inductive Message where
  | request (r : HttpRequest)
  | response (cookies : List (List UInt8)) (r : HttpResponse)

namespace Message

def dump (websocket : Bool) : Message → List UInt8
  | request r => r.dump websocket
  | response cookies r => r.dump websocket cookies

def body : Message → List UInt8
  | request r => r.body
  | response _ r => r.body

def headers : Message → MapType
  | request r => r.headers
  | response _ r => r.headers

def cookies : Message → List (List UInt8)
  | request _ => []
  | response cookies _ => cookies

def close : Message → Bool
  | request r => r.close
  | response _ r => r.close

/-- The first line. -/
def start : Message → List UInt8
  | request r =>
      httpMethodToString r.method ++ text " " ++ r.path ++
        (if r.query = [] then [] else text "?") ++ r.query ++
        (if r.fragment = [] then [] else text "#") ++ r.fragment ++
        text " HTTP/" ++ decimal (r.version >>> 4).toNat ++ text "." ++
        decimal (r.version &&& 0x0F).toNat
  | response _ r =>
      text "HTTP/" ++ decimal (r.version >>> 4).toNat ++ text "." ++
        decimal (r.version &&& 0x0F).toNat ++ text " " ++
        decimal (r.status % 2 ^ 32).toNat ++ text " " ++
        (if r.reason = [] then httpStatusToString r.status else r.reason)

/-- The header lines that come from the map and the cookies. -/
def entries (websocket : Bool) (m : Message) : List (List UInt8 × List UInt8) :=
  m.headers.filter (fun i => websocket || !decide (SameName i.1 (text "connection"))) ++
    m.cookies.map fun c => (text "Set-Cookie", c)

end Message

/-- A header line without its end. -/
def fieldText (x : List UInt8 × List UInt8) : List UInt8 := x.1 ++ text ": " ++ x.2

/-- The lines of what is written before an end of line. -/
def textLines (p : List UInt8) : List (List UInt8) :=
  ((p ++ text "\r").splitOn 10).map chomp

/-- A line that does not end the head, and does not declare another length. -/
def LineAgrees (size : Nat) (l : List UInt8) : Prop :=
  l ≠ [] ∧ (NamesLength l → lineValue l = decimal size)

instance (size : Nat) (l : List UInt8) : Decidable (LineAgrees size l) :=
  inferInstanceAs (Decidable (_ ∧ _))

namespace Message

/-- `m_body.size()` -/
def bodySize (m : Message) : Nat := (UInt64.ofNat m.body.length).toNat

/-- **The lines of the message agree with its body**: the lines that its
headers and its cookies come to, and what a line feed in the first line cuts
off. -/
structure LengthsAgree (websocket : Bool) (m : Message) : Prop where
  start : ∀ l ∈ (textLines m.start).tail, LineAgrees m.bodySize l
  entries : ∀ x ∈ m.entries websocket, ∀ l ∈ textLines (fieldText x),
    LineAgrees m.bodySize l

/-- No part of the message has a line feed, and no name a colon. -/
structure Plain (m : Message) : Prop where
  start : (10 : UInt8) ∉ m.start
  names : ∀ x ∈ m.headers, (10 : UInt8) ∉ x.1 ∧ ch ':' ∉ x.1
  values : ∀ x ∈ m.headers, (10 : UInt8) ∉ x.2
  cookies : ∀ c ∈ m.cookies, (10 : UInt8) ∉ c

/-- The headers of the map that declare a length. -/
def HeadersAgree (m : Message) : Prop :=
  ∀ x ∈ m.headers, SameName x.1 (text "content-length") →
    x.2.dropWhile blankByte = decimal m.bodySize

end Message

/-! ## The text as lines -/

theorem flatMap_skip {α β : Type} (l : List α) (skip : α → Bool) (f : α → List β) :
    (l.flatMap fun i => if skip i then [] else f i) =
      (l.filter fun i => !skip i).flatMap f := by
  induction l with
  | nil => rfl
  | cons i l ih =>
      cases h : skip i with
      | true => simp [h, ih]
      | false => simp [h, ih]

/-- Lines with their ends, the carriage return and the line feed. -/
theorem ended_cr (ps : List (List UInt8)) :
    Lines.ended 10 (ps.map (· ++ text "\r")) = ps.flatMap (· ++ text "\r\n") := by
  have hend : text "\r\n" = text "\r" ++ [10] := rfl
  simp only [Lines.ended, List.flatMap_map, hend, List.append_assoc]

namespace Message

def connectionField (websocket close : Bool) : List (List UInt8 × List UInt8) :=
  if websocket then []
  else [(text "connection", if close then text "close" else text "keep-alive")]

/-- The length that `dump` declares itself. -/
def lengthField (body : List UInt8) : List (List UInt8 × List UInt8) :=
  if body = [] then []
  else [(text "content-length", decimal (UInt64.ofNat body.length).toNat)]

/-- The header lines in the order in which they are written. -/
def fields (websocket : Bool) (m : Message) : List (List UInt8 × List UInt8) :=
  match m with
  | request r =>
      connectionField websocket r.close ++ m.entries websocket ++ lengthField m.body
  | response _ r =>
      m.entries websocket ++ connectionField websocket r.close ++ lengthField m.body

/-- The header lines that come from neither the map nor the cookies. -/
theorem mem_fields {websocket : Bool} {m : Message} {x : List UInt8 × List UInt8} :
    x ∈ m.fields websocket ↔
      x ∈ m.entries websocket ∨ x ∈ connectionField websocket m.close ∨
        x ∈ lengthField m.body := by
  cases m with
  | request r =>
      simp only [fields, close, List.mem_append]
      tauto
  | response cookies r =>
      simp only [fields, close, List.mem_append]
      tauto

theorem headers_flatMap (websocket : Bool) (headers : MapType) :
    (headers.flatMap fun i =>
      if !websocket && strcasecmp i.1 (text "connection") == .eq then []
      else i.1 ++ text ": " ++ i.2 ++ text "\r\n") =
      (headers.filter fun i =>
        websocket || !decide (SameName i.1 (text "connection"))).flatMap fun x =>
          fieldText x ++ text "\r\n" := by
  rw [flatMap_skip]
  congr 1
  refine List.filter_congr fun i _ => ?_
  have hsame : (strcasecmp i.1 (text "connection") == .eq) =
      decide (SameName i.1 (text "connection")) := by
    rw [beq_eq_decide]
    rfl
  rw [hsame]
  cases websocket <;> simp

theorem connection_flatMap (websocket close : Bool) :
    (if !websocket then
      text "connection: " ++ (if close then text "close" else text "keep-alive") ++
        text "\r\n"
    else []) =
      (connectionField websocket close).flatMap fun x =>
        fieldText x ++ text "\r\n" := by
  have hname : text "connection: " = text "connection" ++ text ": " := rfl
  cases websocket with
  | true => rfl
  | false => simp [connectionField, fieldText, hname]

/-- The end of the head, and the body. -/
theorem length_flatMap (body : List UInt8) :
    (if body ≠ [] then
      text "content-length: " ++ decimal (UInt64.ofNat body.length).toNat ++
        text "\r\n\r\n" ++ body
    else text "\r\n") =
      ((lengthField body).flatMap fun x => fieldText x ++ text "\r\n") ++
        text "\r\n" ++ body := by
  have hname : text "content-length: " = text "content-length" ++ text ": " := rfl
  have hend : text "\r\n\r\n" = text "\r\n" ++ text "\r\n" := rfl
  by_cases hb : body = []
  · simp [lengthField, hb]
  · simp [lengthField, hb, fieldText, hname, hend]

theorem cookies_flatMap (cookies : List (List UInt8)) :
    (cookies.flatMap fun i => text "Set-Cookie: " ++ i ++ text "\r\n") =
      (cookies.map fun c => (text "Set-Cookie", c)).flatMap fun x =>
        fieldText x ++ text "\r\n" := by
  have hname : text "Set-Cookie: " = text "Set-Cookie" ++ text ": " := rfl
  simp only [List.flatMap_map, fieldText, hname]

/-- **A message is its first line, its header lines, a blank one and its
body.** -/
theorem dump_eq (websocket : Bool) (m : Message) :
    m.dump websocket =
      Lines.ended 10 ((m.start :: (m.fields websocket).map fieldText ++ [[]]).map
        (· ++ text "\r")) ++ m.body := by
  rw [ended_cr]
  -- the two kinds differ in where the connection header stands
  simp only [List.flatMap_append, List.flatMap_cons, List.flatMap_nil, List.flatMap_map,
    List.nil_append, List.append_nil]
  cases m with
  | request r =>
      simp only [dump, HttpRequest.dump, HttpRequest.bodySize]
      rw [headers_flatMap, connection_flatMap, length_flatMap]
      simp only [start, fields, entries, headers, cookies, body, List.map_nil,
        List.append_nil, List.flatMap_append, List.append_assoc]
  | response cs r =>
      simp only [dump, HttpResponse.dump, HttpResponse.bodySize]
      rw [headers_flatMap, connection_flatMap, cookies_flatMap, length_flatMap]
      simp only [start, fields, entries, headers, cookies, body, List.flatMap_append,
        List.append_assoc]

end Message

/-! ## Lines that are written -/

theorem chomp_append_cr (l : List UInt8) : chomp (l ++ text "\r") = l := by
  have hcr : text "\r" = [13] := rfl
  simp [chomp, hcr]

/-- What has no line feed is one line. -/
theorem textLines_of_not_mem {p : List UInt8} (h : (10 : UInt8) ∉ p) :
    textLines p = [p] := by
  have hcr : (10 : UInt8) ∉ p ++ text "\r" := by
    rw [List.mem_append]
    exact not_or.mpr ⟨h, by decide⟩
  rw [textLines, List.splitOn_eq_singleton hcr, List.map_singleton, chomp_append_cr]

section Fields

variable {x : List UInt8 × List UInt8}

theorem takeWhile_fieldText (h : ch ':' ∉ x.1) :
    (fieldText x).takeWhile (· != ch ':') = x.1 := by
  have hsep : text ": " ++ x.2 = ch ':' :: (text " " ++ x.2) := rfl
  rw [fieldText, List.append_assoc, List.takeWhile_append_of_pos (Lib.Segments.bne_of_not_mem h), hsep,
    List.takeWhile_cons_of_neg (by decide), List.append_nil]

theorem namesLength_fieldText (h : ch ':' ∉ x.1) :
    NamesLength (fieldText x) ↔ SameName x.1 (text "content-length") := by
  have hmem : ch ':' ∈ fieldText x := by
    simp [fieldText, text]
  rw [NamesLength, takeWhile_fieldText h]
  exact and_iff_right hmem

theorem lineValue_fieldText (h : ch ':' ∉ x.1) :
    lineValue (fieldText x) = x.2.dropWhile blankByte := by
  have hsep : text ": " ++ x.2 = ch ':' :: ch ' ' :: x.2 := rfl
  rw [lineValue, fieldText, List.append_assoc, List.dropWhile_append_of_pos (Lib.Segments.bne_of_not_mem h),
    hsep, List.dropWhile_cons_of_neg (by decide), List.tail_cons,
    List.dropWhile_cons_of_pos (by decide)]

/-- Lines without line feeds are judged by their name and value. -/
theorem lineAgrees_fieldText {size : Nat} (hname : (10 : UInt8) ∉ x.1 ∧ ch ':' ∉ x.1)
    (hvalue : (10 : UInt8) ∉ x.2) :
    (∀ l ∈ textLines (fieldText x), LineAgrees size l) ↔
      (SameName x.1 (text "content-length") →
        x.2.dropWhile blankByte = decimal size) := by
  have hsep : (10 : UInt8) ∉ text ": " := by decide
  have hlf : (10 : UInt8) ∉ fieldText x := by
    simp only [fieldText, List.mem_append, not_or]
    exact ⟨⟨hname.1, hsep⟩, hvalue⟩
  have hne : fieldText x ≠ [] := by simp [fieldText, text]
  rw [textLines_of_not_mem hlf, List.forall_mem_singleton, LineAgrees,
    namesLength_fieldText hname.2, lineValue_fieldText hname.2]
  exact and_iff_right hne

end Fields

theorem decimal_not_mem {n : Nat} {c : UInt8} (hc : digit c = false) :
    c ∉ decimal n := by
  intro hmem
  have := List.all_eq_true.mp (decimal_digits n) c hmem
  rw [hc] at this
  cases this

/-- Before a printed number there are no blanks to drop. -/
theorem dropWhile_decimal (n : Nat) : (decimal n).dropWhile blankByte = decimal n := by
  cases hd : decimal n with
  | nil => rfl
  | cons c cs =>
      refine List.dropWhile_cons_of_neg ?_
      intro hblank
      have hmem : c ∈ decimal n := by simp [hd]
      simp only [blankByte, Bool.or_eq_true, beq_iff_eq] at hblank
      rcases hblank with rfl | rfl
      · exact decimal_not_mem (by decide) hmem
      · exact decimal_not_mem (by decide) hmem

namespace Message

variable {websocket : Bool} {m : Message}

/-- **The lines `dump` writes itself agree.** -/
theorem own_agrees {x : List UInt8 × List UInt8}
    (hx : x ∈ connectionField websocket m.close ∨ x ∈ lengthField m.body) :
    ∀ l ∈ textLines (fieldText x), LineAgrees m.bodySize l := by
  -- `connection` names another header, and the number is that of the body
  rcases hx with hx | hx
  · cases websocket with
    | true => cases hx
    | false =>
        obtain rfl := List.mem_singleton.mp hx
        have hname : (10 : UInt8) ∉ text "connection" ∧ ch ':' ∉ text "connection" := by
          decide
        have hother : ¬SameName (text "connection") (text "content-length") := by decide
        rw [lineAgrees_fieldText hname (by cases m.close <;> decide)]
        exact fun hsame => absurd hsame hother
  · unfold lengthField at hx
    split at hx
    · cases hx
    · obtain rfl := List.mem_singleton.mp hx
      have hname : (10 : UInt8) ∉ text "content-length" ∧
        ch ':' ∉ text "content-length" := by decide
      rw [lineAgrees_fieldText hname (decimal_not_mem (by decide))]
      exact fun _ => dropWhile_decimal m.bodySize

/-- The lines of the text are those of the first line, of the header lines, a
blank one, and those of the body. -/
theorem dump_framed (websocket : Bool) (m : Message) :
    ∃ first rest, (m.start ++ text "\r").splitOn 10 = first :: rest ∧
      Lines.Framed 10 (m.dump websocket) first
        (rest ++ Lines.linesOf 10 ((m.fields websocket).map fun x =>
          fieldText x ++ text "\r")) (text "\r") m.body := by
  obtain ⟨first, rest, hstart⟩ := List.exists_cons_of_ne_nil
    (List.splitOn_ne_nil 10 (m.start ++ text "\r"))
  refine ⟨first, rest, hstart, ?_⟩
  have hblank : (text "\r").splitOn 10 = [text "\r"] :=
    List.splitOn_eq_singleton (by decide)
  rw [Lines.Framed, dump_eq, Lines.splitOn_ended]
  simp [Lines.linesOf, hstart, hblank, List.flatMap_map]

/-- What is asked of the lines of the text, asked of the lines of the
message. -/
theorem lines_agree_iff {first : List UInt8} {rest : List (List UInt8)}
    (hstart : (m.start ++ text "\r").splitOn 10 = first :: rest) :
    (∀ l ∈ rest ++ Lines.linesOf 10 ((m.fields websocket).map fun x =>
        fieldText x ++ text "\r"),
      blankLine l = false ∧ (NamesLength (chomp l) →
        lineValue (chomp l) = decimal m.bodySize)) ↔
      m.LengthsAgree websocket := by
  have hline : ∀ l, (blankLine l = false ∧ (NamesLength (chomp l) →
      lineValue (chomp l) = decimal m.bodySize)) ↔ LineAgrees m.bodySize (chomp l) := by
    intro l
    simp [LineAgrees, blankLine]
  have hrest : (textLines m.start).tail = rest.map chomp := by
    rw [textLines, hstart]
    rfl
  simp only [hline, List.forall_mem_append]
  constructor
  · rintro ⟨h1, h2⟩
    refine ⟨?_, ?_⟩
    · rw [hrest]
      exact List.forall_mem_map.mpr h1
    · intro x hx l hl
      obtain ⟨l', hl', rfl⟩ := List.mem_map.mp hl
      refine h2 l' ?_
      rw [Lines.linesOf, List.flatMap_map]
      exact List.mem_flatMap.mpr ⟨x, mem_fields.mpr (.inl hx), hl'⟩
  · intro h
    refine ⟨?_, ?_⟩
    · have h1 := h.start
      rw [hrest] at h1
      exact List.forall_mem_map.mp h1
    · intro l hl
      rw [Lines.linesOf, List.flatMap_map] at hl
      obtain ⟨x, hx, hl⟩ := List.mem_flatMap.mp hl
      have hmem : chomp l ∈ textLines (fieldText x) := List.mem_map_of_mem hl
      -- from the message, or written by `dump` itself
      rcases mem_fields.mp hx with hx | hx
      · exact h.entries x hx _ hmem
      · exact own_agrees hx _ hmem

/-- Of a message without line feeds, only the headers of the map count. -/
theorem lengthsAgree_iff_headers (h : m.Plain) :
    m.LengthsAgree websocket ↔ m.HeadersAgree := by
  have hset : (10 : UInt8) ∉ text "Set-Cookie" ∧ ch ':' ∉ text "Set-Cookie" := by
    decide
  have hcookie : ¬SameName (text "Set-Cookie") (text "content-length") := by decide
  have hstart : (textLines m.start).tail = [] := by
    rw [textLines_of_not_mem h.start]
    rfl
  have hfield : ∀ x ∈ m.headers, (∀ l ∈ textLines (fieldText x),
      LineAgrees m.bodySize l) ↔ (SameName x.1 (text "content-length") →
        x.2.dropWhile blankByte = decimal m.bodySize) :=
    fun x hx => lineAgrees_fieldText (h.names x hx) (h.values x hx)
  constructor
  · intro hagree x hx hsame
    -- a header that is left out is named otherwise
    have hconn : ¬SameName x.1 (text "connection") := by
      intro hother
      rw [SameName, strcasecmp_eq_compare, Std.LawfulEqCmp.compare_eq_iff_eq] at hsame hother
      exact absurd (hsame.symm.trans hother) (by decide)
    have hmem : x ∈ m.entries websocket := by
      refine List.mem_append.mpr (.inl (List.mem_filter.mpr ⟨hx, ?_⟩))
      simp [hconn]
    exact (hfield x hx).mp (hagree.entries x hmem) hsame
  · intro hheaders
    refine ⟨?_, ?_⟩
    · rw [hstart]
      exact fun l hl => absurd hl List.not_mem_nil
    · intro x hx
      rcases List.mem_append.mp hx with hx | hx
      -- a header that is written, or a cookie
      · have hx := (List.mem_filter.mp hx).1
        exact (hfield x hx).mpr (hheaders x hx)
      · obtain ⟨c, hc, rfl⟩ := List.mem_map.mp hx
        rw [lineAgrees_fieldText hset (h.cookies c hc)]
        exact fun hsame => absurd hsame hcookie

/-! ## Declared lengths -/

/-- The lines of the text are asked what those of the message are asked. -/
theorem declaresLength_iff_agree (websocket : Bool) (m : Message) :
    DeclaresLength (m.dump websocket) m.body ↔ m.LengthsAgree websocket := by
  obtain ⟨first, rest, hstart, hframed⟩ := dump_framed websocket m
  have hiff := Lines.framed_iff hframed (show blankLine (text "\r") = true from rfl)
    fun l => NamesLength (chomp l) → lineValue (chomp l) = decimal m.bodySize
  rw [lines_agree_iff hstart] at hiff
  rw [← hiff]
  constructor
  · intro h
    exact ⟨List.forall_mem_map.mp h.lines, h.behind⟩
  · rintro ⟨hlines, hbehind⟩
    have hall : ∀ l ∈ headerLines (m.dump websocket), NamesLength l →
        lineValue l = decimal m.bodySize := List.forall_mem_map.mpr hlines
    refine ⟨hall, ?_, hbehind⟩
    intro hempty l hl hnames
    have hzero : decimal m.bodySize = text "0" := by
      rw [bodySize, hempty]
      decide +kernel
    rw [← hzero]
    exact hall l hl hnames

end Message

/-- **Which messages declare the length of their body**: those whose lines
agree with it; of messages without line feeds, those whose header map holds no
`content-length` but this one. -/
theorem declaresLength_iff (websocket : Bool) (m : Message) :
    (DeclaresLength (m.dump websocket) m.body ↔ m.LengthsAgree websocket) ∧
      (m.Plain → (DeclaresLength (m.dump websocket) m.body ↔ m.HeadersAgree)) := by
  have hiff := Message.declaresLength_iff_agree websocket m
  exact ⟨hiff, fun hplain => hiff.trans (Message.lengthsAgree_iff_headers hplain)⟩

/-- A header that was set stays behind when the body is another. -/
def keptLength : Message :=
  .request (({} : HttpRequest).setHeader (text "content-length") (text "5")
    |>.setBody (text "abc"))

theorem keptLength_not_declared :
    ¬∀ (websocket : Bool) (m : Message),
      DeclaresLength (m.dump websocket) m.body := by
  intro h
  have hline : text "content-length: 5" ∈ headerLines (keptLength.dump false) := by
    decide +kernel
  have hvalue := (h false keptLength).lines _ hline (by decide +kernel)
  exact absurd hvalue (by decide +kernel)

/-- The header of a message that was parsed, and is sent on as it is. -/
theorem parsedLength_declared :
    DeclaresLength
      ((Message.response [text "a=b"] (({} : HttpResponse).setHeader
        (text "Content-Length") (text "3") |>.setBody (text "abc"))).dump false)
      (text "abc") :=
  (declaresLength_iff false (.response [text "a=b"] (({} : HttpResponse).setHeader
    (text "Content-Length") (text "3") |>.setBody (text "abc")))).1.mpr
      ⟨by decide +kernel, by decide +kernel⟩

end Hps.Http
