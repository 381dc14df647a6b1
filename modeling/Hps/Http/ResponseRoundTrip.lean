import Hps.Http.Assembly
import Hps.Http.ResponseParts

/-!
# HTTP — responses that are sent and received

What `HttpResponse::dump` writes and `HttpConnection::recvResponse` reads on
the other side. `Encodable` says which responses get across, `readBack` what
the client makes of one, and `recvResponse_dump` that it does so however the
bytes behind the first read arrive.
-/

namespace Hps.Http.Response

open Hps.Lib

/-! ## Responses that can be written -/

/-- A header line of a message that the grammar takes as one, and that announces
no chunks. -/
structure LineOk (x : List UInt8 × List UInt8) : Prop where
  name_ne : x.1 ≠ []
  name_token : ∀ c ∈ x.1, token c = true
  value_ok : ∀ c ∈ x.2, c ≠ 10 ∧ c ≠ 13
  value_start : ∀ c ∈ x.2.head?, space c = false
  filled : x.2 = [] → ∀ k : Special, x.1.map tolower ≠ k.name
  not_chunked : ¬(x.1.map tolower = text "transfer-encoding" ∧
    x.2.map tolower = text "chunked")

/-- **What the grammar asks of a response that is to be read back**, with its
`m_websocket` and its `m_cookies`. -/
structure Encodable (websocket : Bool) (cookies : List (List UInt8)) (r : HttpResponse) :
    Prop where
  version : r.version = 0x10 ∨ r.version = 0x11
  status : 0 ≤ r.status ∧ r.status < 2 ^ 31
  reason : ∀ c ∈ r.reason, c ≠ 10 ∧ c ≠ 13
  lines : ∀ x ∈ (Message.response cookies r).entries websocket, LineOk x
  /-- no header of a response without a body announces one -/
  unannounced : r.body = [] → ∀ x ∈ (Message.response cookies r).entries websocket,
    ¬SameName x.1 (text "content-length")
  fits : r.body.length < 2 ^ 31

/-- The headers of the response that is read: the lines that were written, in
their order. -/
def readHeaders (websocket : Bool) (cookies : List (List UInt8)) (r : HttpResponse) :
    MapType :=
  OrderedMap.setAll NameLess [] ((Message.response cookies r).fields websocket)

/-- The reason that is written. -/
def reasonText (r : HttpResponse) : List UInt8 :=
  if r.reason = [] then httpStatusToString r.status else r.reason

/-- The response that is read. Its `m_close` is not set by anything that was
read. -/
def readBack (websocket : Bool) (cookies : List (List UInt8)) (r : HttpResponse) :
    HttpResponse :=
  { r with close := true, reason := reasonText r, headers := readHeaders websocket cookies r }

/-! ## The head that is written -/

section Lines

variable {x : List UInt8 × List UInt8}

theorem space_of_digit {c : UInt8} (h : digit c = true) : space c = false := by
  simp only [digit, ch, Bool.and_eq_true, decide_eq_true_eq, UInt8.le_iff_toNat_le] at h
  have h0 : ('0'.toUInt8).toNat = 48 := rfl
  have h9 : (13 : UInt8).toNat = 13 := rfl
  have hblank : c ≠ ch ' ' := by
    rintro rfl
    exact absurd h.1 (by decide)
  simp only [space, Bool.or_eq_false_iff, Bool.and_eq_false_iff, decide_eq_false_iff_not,
    UInt8.le_iff_toNat_le, beq_eq_false_iff_ne]
  exact ⟨.inr (by omega), hblank⟩

/-- A text in one line. -/
def oneLine (b : List UInt8) : Bool := b.all fun c => c != 10 && c != 13

theorem oneLine_iff {b : List UInt8} : oneLine b = true ↔ ∀ c ∈ b, c ≠ 10 ∧ c ≠ 13 := by
  simp [oneLine]

/-- The lines that can be checked byte by byte: those with a value. -/
def checkLine (name value : List UInt8) : Bool :=
  !name.isEmpty && name.all token && oneLine value && !value.isEmpty && !value.head?.any space &&
    name.map tolower != text "transfer-encoding"

theorem LineOk.of_check {name value : List UInt8} (h : checkLine name value = true) :
    LineOk (name, value) := by
  simp only [checkLine, Bool.and_eq_true, Bool.not_eq_true', bne_iff_ne, ne_eq] at h
  obtain ⟨⟨⟨⟨⟨hname, htoken⟩, hline⟩, hvalue⟩, hstart⟩, hchunked⟩ := h
  exact {
    name_ne := List.isEmpty_eq_false_iff.mp hname
    name_token := List.all_eq_true.mp htoken
    value_ok := oneLine_iff.mp hline
    value_start := fun c hc => by
      rw [Option.mem_def.mp hc] at hstart
      exact hstart
    filled := fun hnil => absurd hnil (List.isEmpty_eq_false_iff.mp hvalue)
    not_chunked := fun h => hchunked h.1 }

theorem lineOk_connection (close : Bool) :
    LineOk (text "connection", if close then text "close" else text "keep-alive") := by
  cases close with
  | true => exact .of_check (by decide)
  | false => exact .of_check (by decide)

theorem lineOk_length (n : Nat) : LineOk (text "content-length", decimal n) := by
  have hdigit : ∀ c ∈ decimal n, digit c = true := List.all_eq_true.mp (decimal_digits n)
  have htoken : (text "content-length").all token = true := by decide
  refine ⟨show text "content-length" ≠ [] by decide, List.all_eq_true.mp htoken, ?_, ?_, ?_, ?_⟩
  · intro c hc
    have hd := hdigit c hc
    constructor
    · rintro rfl
      exact absurd hd (by decide)
    · rintro rfl
      exact absurd hd (by decide)
  · intro c hc
    exact space_of_digit (hdigit c (List.mem_of_head? hc))
  · intro hnil
    have hnil : decimal n = [] := hnil
    rw [decimal_eq] at hnil
    exact absurd (List.map_eq_nil_iff.mp hnil) Nat.toDigits_ne_nil
  · rintro ⟨hname, -⟩
    exact absurd hname (show (text "content-length").map tolower ≠ text "transfer-encoding" by
      decide)

/-- The lines as those of a head. -/
theorem exists_fieldLines {xs : List (List UInt8 × List UInt8)} (h : ∀ x ∈ xs, LineOk x) :
    ∃ fs : List FieldLine, (fs.map fun f => (f.name, f.value)) = xs ∧
      fs.flatMap FieldLine.bytes = (xs.flatMap fun x => fieldText x ++ text "\r\n") ∧
      ∀ f ∈ fs, ¬f.Chunked := by
  induction xs with
  | nil =>
      refine ⟨[], rfl, rfl, ?_⟩
      intro f hf
      cases hf
  | cons x xs ih =>
      obtain ⟨hx, hxs⟩ := List.forall_mem_cons.mp h
      obtain ⟨fs, hfs, hbytes, hchunked⟩ := ih hxs
      have hblank : ∀ c ∈ [ch ' '], c = 32 ∨ c = 9 := by
        intro c hc
        exact .inl (List.mem_singleton.mp hc)
      let f : FieldLine := ⟨x.1, [ch ' '], x.2, hx.name_ne, hx.name_token, hblank, hx.value_ok,
        hx.value_start, hx.filled⟩
      refine ⟨f :: fs, ?_, ?_, ?_⟩
      · rw [List.map_cons, hfs]
      · have hsep : text ": " = [ch ':'] ++ [ch ' '] := rfl
        have hend : text "\r\n" = crlf := rfl
        rw [List.flatMap_cons, List.flatMap_cons, hbytes, fieldText, hsep, hend]
        simp only [f, FieldLine.bytes, List.append_assoc]
      · exact List.forall_mem_cons.mpr ⟨hx.not_chunked, hchunked⟩

end Lines

section Heads

variable {websocket : Bool} {cookies : List (List UInt8)} {r : HttpResponse}

theorem Encodable.fields (h : Encodable websocket cookies r) :
    ∀ x ∈ (Message.response cookies r).fields websocket, LineOk x := by
  intro x hx
  rcases Message.mem_fields.mp hx with hx | hx | hx
  · exact h.lines x hx
  · cases websocket with
    | true => cases hx
    | false =>
        obtain rfl := List.mem_singleton.mp hx
        exact lineOk_connection _
  · rw [Message.lengthField] at hx
    split at hx
    · cases hx
    · obtain rfl := List.mem_singleton.mp hx
      exact lineOk_length _

/-- Every reason is some text in one line. -/
theorem httpStatusToString_line (s : Int) :
    httpStatusToString s ≠ [] ∧ ∀ c ∈ httpStatusToString s, c ≠ 10 ∧ c ≠ 13 := by
  have hmap : (httpStatusMap.all fun x => !(text x.2).isEmpty && oneLine (text x.2)) = true := by
    decide +kernel
  rw [httpStatusToString]
  split
  · rename_i x hx
    have hline := List.all_eq_true.mp hmap x (List.mem_of_find?_eq_some hx)
    rw [Bool.and_eq_true, Bool.not_eq_true', List.isEmpty_eq_false_iff] at hline
    exact hline.imp_right oneLine_iff.mp
  · exact ⟨by decide, oneLine_iff.mp (by decide)⟩

/-- **What `dump` writes before the body** is a head that says what it was made
of. -/
theorem exists_head (h : Encodable websocket cookies r) :
    ∃ (hd : Head) (n : Nat), (n : Int) = r.status ∧ n < 2 ^ 31 ∧
      VersionText hd.version r.version ∧ hd.status = decimal n ∧ hd.reason ≠ [] ∧
      ¬hd.Chunked ∧ hd.bytes ++ r.body = r.dump websocket cookies ∧
      { hd.response r.version n with body := r.body } = readBack websocket cookies r := by
  obtain ⟨fs, hfs, hbytes, hchunked⟩ := exists_fieldLines h.fields
  obtain ⟨n, hn⟩ := Int.eq_ofNat_of_zero_le h.status.1
  have hlt : n < 2 ^ 31 := by
    have := h.status.2
    omega
  have hreason : reasonText r ≠ [] ∧ ∀ c ∈ reasonText r, c ≠ 10 ∧ c ≠ 13 := by
    rw [reasonText]
    split
    · exact httpStatusToString_line _
    · exact ⟨‹_›, h.reason⟩
  have hdigits : decimal n ≠ [] := by
    rw [decimal_eq]
    exact mt List.map_eq_nil_iff.mp Nat.toDigits_ne_nil
  obtain ⟨version, hversion, htext⟩ : ∃ version, VersionText version r.version ∧
      version = text "HTTP/" ++ decimal (r.version >>> 4).toNat ++ text "." ++
        decimal (r.version &&& 0x0F).toNat := by
    rcases h.version with hv | hv <;> rw [hv]
    · exact ⟨_, .inr ⟨rfl, rfl⟩, by decide +kernel⟩
    · exact ⟨_, .inl ⟨rfl, rfl⟩, by decide +kernel⟩
  have hone : version = text "HTTP/1.1" ∨ version = text "HTTP/1.0" :=
    hversion.imp And.left And.left
  refine ⟨⟨version, decimal n, reasonText r, fs, hone, hdigits,
    List.all_eq_true.mp (decimal_digits n), hreason.2⟩, n, hn.symm, hlt, hversion, rfl,
    hreason.1, ?_, ?_, ?_⟩
  · rintro ⟨f, hf, hc⟩
    exact hchunked f hf hc
  · have hdump := Message.dump_eq websocket (.response cookies r)
    have hstart : (Message.response cookies r).start =
        version ++ [ch ' '] ++ decimal n ++ [ch ' '] ++ reasonText r := by
      have hmod : (r.status % 2 ^ 32).toNat = n := by omega
      rw [Message.start, hmod, htext, reasonText]
      rfl
    rw [ended_cr] at hdump
    have hend : text "\r\n" = crlf := rfl
    rw [hend] at hdump hbytes
    show Head.bytes _ ++ r.body = (Message.response cookies r).dump websocket
    rw [hdump, hstart]
    simp only [Head.bytes, hbytes, List.flatMap_append, List.flatMap_cons, List.flatMap_nil,
      List.flatMap_map, List.append_assoc, List.nil_append, List.append_nil, Message.body]
  · simp only [Head.response, readBack, readHeaders, hfs, hn]

end Heads

/-! ## What the client reads -/

/-- How many bytes the first read of a call brings. -/
def firstRead (buff : BuffSize) : List Arrival → Nat
  | [] => 0
  | a :: _ => min buff.size a.bytes.length

section Reading

variable {buff : BuffSize} {websocket : Bool} {cookies : List (List UInt8)}
  {r : HttpResponse} {s : Socket}

/-- The first read brings the next bytes. -/
theorem readMore_first (hc : s.connected = true) (hpos : 0 < firstRead buff s.arrivals) :
    readMore buff [] s = (.ok (some (s.bytes.take (firstRead buff s.arrivals))),
      s.skip (firstRead buff s.arrivals)) := by
  cases harr : s.arrivals with
  | nil =>
      rw [harr] at hpos
      exact absurd hpos (Nat.lt_irrefl 0)
  | cons a as =>
      have hrecv := Socket.recv_eq harr hc buff.pos
      have hle : min buff.size a.bytes.length ≤ a.bytes.length := Nat.min_le_right _ _
      rw [harr] at hpos
      have hpos : 0 < min buff.size a.bytes.length := hpos
      rw [readMore, List.length_nil, Nat.sub_zero, hrecv]
      dsimp only
      rw [if_neg (by omega), List.nil_append, Socket.bytes_eq, harr, flat_cons, firstRead,
        List.take_append_of_le_length hle, ← List.take_eq_take_min]

/-- The head loop ends after one read that brings the whole head. -/
theorem recvHead_once {bytes rest : List UInt8} {p : HttpResponseParser}
    (hexec : HttpResponseParser.new.execute (bytes ++ rest) false =
      .ok (bytes.length, p, rest))
    (hcs : p.parser.cs = some (.finished none)) (herror : p.error = 0) (hne : bytes ≠ [])
    (hc : s.connected = true)
    (hfirst : s.bytes.take (firstRead buff s.arrivals) = bytes ++ rest) (fuel : Nat) :
    recvHead buff (fuel + 1) .new [] s =
      (.ok (some (p, rest)), s.skip (firstRead buff s.arrivals)) := by
  have hlen := List.length_pos_of_ne_nil hne
  have hread : (bytes ++ rest).length ≤ firstRead buff s.arrivals := by
    rw [← hfirst]
    exact List.length_take_le _ _
  have hroom : (bytes ++ rest).length ≤ buff.size := by
    refine hread.trans ?_
    cases s.arrivals with
    | nil => exact Nat.zero_le _
    | cons a as => exact Nat.min_le_left _ _
  rw [List.length_append] at hread hroom
  have hfine : p.hasError = false := by
    simp [HttpResponseParser.hasError, HttpClientParser.hasError, hcs, herror]
  have hdone : p.isFinished ≠ 0 := by
    simp [HttpResponseParser.isFinished, HttpClientParser.finish, HttpClientParser.hasError,
      HttpClientParser.isFinished, hcs, State.final]
  rw [recvHead, readMore_first hc (by omega), Received.bind_some, hfirst, parse, hexec]
  dsimp only
  rw [if_neg (by simp [hfine]), List.length_append, if_neg (by omega), Received.bind_some,
    if_pos hdone]

/-- What the last line of a name says is what the client reads of it. -/
theorem find_readHeaders (key : List UInt8) :
    MapType.find (readHeaders websocket cookies r) key =
      OrderedMap.find NameLess key
        ((Message.response cookies r).fields websocket).reverse := by
  rw [MapType.find_eq, readHeaders, OrderedMap.find_setAll]
  exact Option.or_none

theorem toInt64_ofNat {n : Nat} (hn : n < 2 ^ 31) : toInt64 (UInt64.ofNat n) = n := by
  have hbits : (UInt64.ofNat n).toBitVec = BitVec.ofNat 64 n := rfl
  rw [toInt64, hbits, BitVec.toInt_ofNat', Int.bmod_eq_of_le] <;> omega

/-- The length that the client reads is that of the body. -/
theorem contentLength_readBack (h : Encodable websocket cookies r) :
    toInt64 (MapType.getAsU64 (readHeaders websocket cookies r) (text "content-length") 0) =
      (r.body.length : Nat) := by
  have hfit := h.fits
  by_cases hbody : r.body = []
  · have hnone : MapType.find (readHeaders websocket cookies r) (text "content-length") =
        none := by
      rw [find_readHeaders]
      refine OrderedMap.find_eq_none fun x hx => nameLess_or_of_not_same ?_
      rcases Message.mem_fields.mp (List.mem_reverse.mp hx) with hx | hx | hx
      · exact h.unannounced hbody x hx
      · cases websocket with
        | true => cases hx
        | false =>
            obtain rfl := List.mem_singleton.mp hx
            show ¬SameName (text "connection") (text "content-length")
            decide
      · have hnil : Message.lengthField r.body = [] := if_pos hbody
        rw [Message.body, hnil] at hx
        cases hx
    rw [MapType.getAsU64, hnone, hbody]
    rfl
  · have hlast : ((Message.response cookies r).fields websocket).reverse =
        (text "content-length", decimal (UInt64.ofNat r.body.length).toNat) ::
          ((Message.response cookies r).entries websocket ++
            Message.connectionField websocket r.close).reverse := by
      simp [Message.fields, Message.lengthField, Message.body, hbody]
    have hfind : MapType.find (readHeaders websocket cookies r) (text "content-length") =
        some (decimal (UInt64.ofNat r.body.length).toNat) := by
      rw [find_readHeaders, hlast, OrderedMap.find_cons,
        if_neg (by simp [irrefl_of NameLess])]
    rw [MapType.getAsU64, hfind, Option.bind_some, lexicalCastU64_decimal, Option.getD_some]
    exact toInt64_ofNat hfit

end Reading

/-- **Responses get across.** What `dump` writes of a response, `recvResponse`
reads back on the other side, if the first read brings the head: the body
behind it may arrive in any pieces, and what comes behind the body stays in
the stream but for what that read brought of it. -/
theorem recvResponse_dump (buff : BuffSize) {websocket : Bool}
    {cookies : List (List UInt8)} {r : HttpResponse} (h : Encodable websocket cookies r)
    {s : Socket} (hc : s.connected = true) {rest : List UInt8}
    (hbytes : s.bytes = r.dump websocket cookies ++ rest)
    (hhead : (r.dump websocket cookies).length ≤
      firstRead buff s.arrivals + r.body.length) :
    recvResponse buff s =
      (.ok (some (readBack websocket cookies r)),
        s.skip (max (firstRead buff s.arrivals) (r.dump websocket cookies).length)) := by
  obtain ⟨hd, n, hn, hlt, hversion, hstatus, hreason, hchunked, hdump, hsays⟩ := exists_head h
  set k := firstRead buff s.arrivals with hk
  have hlen : (r.dump websocket cookies).length = hd.bytes.length + r.body.length := by
    rw [← hdump, List.length_append]
  have hne : hd.bytes ≠ [] := by
    rw [hd.bytes_eq]
    simp
  have hstream : s.bytes = hd.bytes ++ (r.body ++ rest) := by
    rw [hbytes, ← hdump, List.append_assoc]
  have htake : s.bytes.take k = hd.bytes ++ (r.body ++ rest).take (k - hd.bytes.length) := by
    rw [hstream, List.take_append, List.take_of_length_le (by omega)]
  obtain ⟨p, hexec, hcs, herror, hpc, hdata⟩ := execute_response hd hversion hlt hstatus hreason
    hchunked ((r.body ++ rest).take (k - hd.bytes.length))
  have hrun := recvHead_once hexec hcs herror hne hc htake s.bytes.length
  have hheaders : p.data.headers = readHeaders websocket cookies r := by
    rw [hdata]
    exact congrArg HttpResponse.headers hsays
  have hlength : toInt64 p.getContentLength = (r.body.length : Nat) := by
    rw [HttpResponseParser.getContentLength, HttpResponse.getHeaderAsU64, hheaders]
    exact contentLength_readBack h
  have hsocket : (s.skip k).connected = true := hc
  rw [recvResponse, hrun, Received.bind_some]
  dsimp only
  rw [hpc, if_neg Bool.false_ne_true]
  by_cases hbody : r.body = []
  · have hread : recvLength p ((r.body ++ rest).take (k - hd.bytes.length)) (s.skip k) =
        (.ok (some []), s.skip k) := by
      rw [recvLength, hlength, hbody]
      rfl
    have hpd : p.data = readBack websocket cookies r := by
      rw [hdata, ← hsays, hbody]
      rfl
    have hmax : max k (r.dump websocket cookies).length = k := by
      rw [hbody, List.length_nil] at hhead
      omega
    rw [hread, Received.bind_some, Received.bind_some, if_pos rfl, hpd, hmax]
  · have hpos := List.length_pos_of_ne_nil hbody
    have hleft : ((r.body ++ rest).take (k - hd.bytes.length)) ++ (s.skip k).bytes =
        r.body ++ rest := by
      rw [Socket.bytes_skip, hstream, List.drop_append, List.drop_of_length_le (by omega),
        List.nil_append, List.take_append_drop]
    have hwhole := congrArg List.length hleft
    rw [List.length_append, List.length_append] at hwhole
    have hbodies := assemble_enough (n := r.body.length) (Nat.le_refl _) hsocket h.fits
      (by omega : r.body.length ≤ ((r.body ++ rest).take (k - hd.bytes.length)).length +
        (s.skip k).bytes.length)
    rw [List.take_length, hleft, List.take_left] at hbodies
    have hpd : p.data.setBody r.body = readBack websocket cookies r := by
      rw [hdata, ← hsays]
      rfl
    have hmax : k + (r.body.length - ((r.body ++ rest).take (k - hd.bytes.length)).length) =
        max k (r.dump websocket cookies).length := by
      rw [List.length_take, List.length_append]
      omega
    rw [recvLength_of_pos hlength hpos, hbodies, Received.bind_some, Received.bind_some,
      if_neg hbody, hpd, Socket.skip_skip, hmax]

/-- A response of a servlet with a cookie and a body. -/
def found : HttpResponse where
  status := 404
  version := 0x10
  close := false
  body := text "gone!"
  headers := [(text "Connection", text "upgrade"), (text "Server", text "hps")]

/-- Its body ends in the arrival that brings the next bytes. -/
def foundSocket : Socket where
  arrivals :=
    [Request.arrival ("HTTP/1.0 404 Not Found\r\nServer: hps\r\nSet-Cookie: a=b\r\n" ++
        "connection: keep-alive\r\ncontent-length: 5\r\n\r\ngo") (by decide +kernel),
      Request.arrival "ne!more" (by decide +kernel)]

theorem found_received :
    recvResponse ⟨4096, by decide, by decide⟩ foundSocket =
      (.ok (some { found with
        close := true
        reason := text "Not Found"
        headers := [(text "connection", text "keep-alive"),
          (text "content-length", text "5"), (text "Server", text "hps"),
          (text "Set-Cookie", text "a=b")] }),
        { arrivals := [Request.arrival "more" (by decide +kernel)] }) := by
  have henc : Encodable false [text "a=b"] found := by
    refine ⟨.inl rfl, ⟨by decide, by decide⟩, List.forall_mem_nil _, ?_,
      fun h => absurd h (by decide), by decide⟩
    have hentries : (Message.response [text "a=b"] found).entries false =
      [(text "Server", text "hps"), (text "Set-Cookie", text "a=b")] := by decide +kernel
    rw [hentries]
    simp only [List.forall_mem_cons]
    exact ⟨.of_check (by decide), .of_check (by decide), List.forall_mem_nil _⟩
  have hbytes : foundSocket.bytes = found.dump false [text "a=b"] ++ text "more" := by
    decide +kernel
  have hrun := recvResponse_dump ⟨4096, by decide, by decide⟩ henc rfl hbytes (by decide +kernel)
  have hback : readBack false [text "a=b"] found = { found with
      close := true
      reason := text "Not Found"
      headers := [(text "connection", text "keep-alive"),
        (text "content-length", text "5"), (text "Server", text "hps"),
        (text "Set-Cookie", text "a=b")] } := by decide +kernel
  rw [hrun, hback]
  rfl

end Hps.Http.Response
