import Hps.Http.Closing
import Hps.Http.Fragments

/-!
# HTTP — the body behind a head

`recvRequest` and `recvResponse` put a body of a declared length together
from the bytes that came with the head and a read of a fixed size. `Leftover`
is what the head loops leave, and `body_assembled` what both make of it.
-/

namespace Hps.Http

open Hps.Lib

/-! ## Reads that get less -/

namespace Socket

variable {s : Socket}

/-- The loop of `readFixSize` gives up where the bytes end. -/
theorem readLoop_short {fuel left : Nat} (got : List UInt8) (hc : s.connected = true)
    (hfuel : left ≤ fuel) (hleft : s.bytes.length < left) :
    ∃ len, (readLoop fuel s left got).1 = some len ∧ len ≤ 0 := by
  induction fuel generalizing s left got with
  | zero => omega
  | succ fuel ih =>
      rw [readLoop, if_neg (by omega)]
      rcases s.recv_cases left with ⟨rt, bs, t, hrecv, hle⟩ | ⟨-, k, hk, -, hle, hrecv⟩
      · rw [hrecv]
        dsimp only
        rw [if_pos hle]
        exact ⟨rt, rfl, hle⟩
      · have hlen : (s.bytes.take k).length = k := List.length_take_of_le hle
        have hrest : (s.skip k).bytes.length = s.bytes.length - k := by
          rw [bytes_skip, List.length_drop]
        rw [hrecv]
        dsimp only
        rw [if_neg (by omega), hlen]
        exact ih (got ++ s.bytes.take k) hc (by omega) (by omega)

theorem readFixSize_short (length : Nat) (hc : s.connected = true)
    (hlen : s.bytes.length < length) : (s.readFixSize length).1 ≤ 0 := by
  obtain ⟨len, hloop, hle⟩ := readLoop_short [] hc (Nat.le_refl length) hlen
  revert hloop
  rw [readFixSize]
  obtain ⟨early, got, t⟩ := readLoop length s length []
  rintro rfl
  exact hle

end Socket

/-! ## What a head leaves -/

/-- `left` came with the head and was not read by its parser; behind it goes
on what is still in the socket, which is open. -/
structure Leftover (stream left : List UInt8) (s : Socket) : Prop where
  follows : left ++ s.bytes <:+ stream
  connected : s.connected = true

/-- The next read, where the bytes before it are kept. -/
theorem Leftover.recv {s : Socket} (hc : s.connected = true) (left : List UInt8) (k : Nat) :
    Leftover (left ++ s.bytes) (left ++ s.bytes.take k) (s.skip k) := by
  refine ⟨?_, hc⟩
  rw [Socket.bytes_skip, List.append_assoc, List.take_append_drop]

theorem Leftover.drop {stream left : List UInt8} {s : Socket} (h : Leftover stream left s)
    (n : Nat) : Leftover stream (left.drop n) s := by
  refine ⟨?_, h.connected⟩
  have hdrop : left.drop n ++ s.bytes <:+ left ++ s.bytes := by
    refine ⟨left.take n, ?_⟩
    rw [← List.append_assoc, List.take_append_drop]
  exact hdrop.trans h.follows

theorem Leftover.trans {stream left left' : List UInt8} {s s' : Socket}
    (h : Leftover stream left s) (h' : Leftover (left ++ s.bytes) left' s') :
    Leftover stream left' s' :=
  ⟨h'.follows.trans h.follows, h'.connected⟩

/-! ## Requests -/

namespace Request

theorem httpParserExecute_le (s : HttpParser) (buffer : List UInt8) (len : Nat) :
    (httpParserExecute s buffer len 0).1 ≤ len := by
  rw [httpParserExecute]
  split
  · exact Nat.zero_le len
  · split
    · exact Nat.zero_le len
    · rename_i cs _
      have hle := Machine.exec_pos_le (machine s.uriRelaxed) (act len) cs 0 s.reset
        ((buffer.take len).drop 0)
      rw [List.drop_zero, List.length_take, Nat.zero_add] at hle
      exact hle.trans (Nat.min_le_left _ _)

/-- `execute` moves what it did not read to the front. -/
theorem execute_moves {p q : HttpRequestParser} {data data' : List UInt8} {len nparse : Nat}
    (h : p.execute data len = .ok (nparse, q, data')) :
    nparse ≤ len ∧ data' = (data.take len).drop nparse ++ data.drop (len - nparse) := by
  simp only [HttpRequestParser.execute] at h
  have hle := httpParserExecute_le p.parser data len
  revert h hle
  obtain ⟨n, parser, calls⟩ := httpParserExecute p.parser data len 0
  intro h hle
  cases hcalls : calls.foldlM (HttpRequestParser.call data) { p with parser } with
  | error e =>
      rw [hcalls] at h
      cases h
  | ok p' =>
      rw [hcalls] at h
      cases h
      exact ⟨hle, rfl⟩

/-- **What the head loop leaves** is in the buffer. -/
theorem recvHead_leftover {fuel : Nat} {parser : HttpRequestParser} {data : List UInt8}
    {offset : Nat} {s s' : Socket} {h : Head} (hdata : data.length = buffSize)
    (hoff : offset ≤ buffSize)
    (hrun : recvHead fuel parser data offset s = (.ok (some h), s')) :
    h.offset ≤ h.data.length ∧
      Leftover (data.take offset ++ s.bytes) (h.data.take h.offset) s' := by
  induction fuel generalizing parser data offset s with
  | zero => cases hrun
  | succ fuel ih =>
      rw [recvHead] at hrun
      rcases s.recv_cases (buffSize - offset) with
        ⟨n, got, t, hrecv, hle⟩ | ⟨hc, k, hk, hgot, hkbytes, hrecv⟩
      · rw [hrecv] at hrun
        dsimp only at hrun
        rw [if_pos hle] at hrun
        cases hrun
      · have hread := Leftover.recv hc (data.take offset) k
        have hgotlen : (s.bytes.take k).length = k := List.length_take_of_le hkbytes
        rw [hrecv] at hrun
        generalize s.bytes.take k = got at hrun hread hgotlen
        generalize s.skip k = t at hrun hread
        subst hgotlen
        dsimp only at hrun
        rw [if_neg (by omega)] at hrun
        generalize hbuf : data.take offset ++ got ++ data.drop (offset + got.length) = buf at hrun
        have hlen : (data.take offset ++ got).length = offset + got.length := by
          rw [List.length_append, List.length_take]
          omega
        have hfront : buf.take (offset + got.length) = data.take offset ++ got := by
          rw [← hbuf, ← hlen, List.take_left]
        have hfull : buf.length = buffSize := by
          rw [← hbuf, List.length_append, hlen, List.length_drop]
          omega
        cases hexec : parser.execute buf (offset + got.length) with
        | error e =>
            rw [hexec] at hrun
            cases hrun
        | ok r =>
            obtain ⟨nparse, q, data'⟩ := r
            obtain ⟨hparse, hmoved⟩ := execute_moves hexec
            rw [hfront] at hmoved
            have hkept : data'.take (offset + got.length - nparse) =
                (data.take offset ++ got).drop nparse := by
              rw [hmoved]
              refine List.take_left' ?_
              rw [List.length_drop, hlen]
            have hfull' : data'.length = buffSize := by
              rw [hmoved, List.length_append, List.length_drop, List.length_drop, hlen]
              omega
            have hleft := hread.drop nparse
            rw [← hkept] at hleft
            rw [hexec] at hrun
            dsimp only at hrun
            -- an error, a full buffer, the end of the head, or another turn
            split_ifs at hrun
            · cases hrun
            · cases hrun
            · cases hrun
              refine ⟨?_, hleft⟩
              dsimp only
              omega
            · obtain ⟨hle, hrest⟩ := ih hfull' (by omega) hrun
              exact ⟨hle, hleft.trans hrest⟩

end Request

/-! ## Responses -/

namespace Response

variable (buff : BuffSize)

theorem Received.bind_eq_some {α β : Type} {x : Received α} {f : α → Socket → Received β}
    {b : β} {s' : Socket} (h : x.bind f = (.ok (some b), s')) :
    ∃ a s, x = (.ok (some a), s) ∧ f a s = (.ok (some b), s') := by
  obtain ⟨r, s⟩ := x
  cases r with
  | error e => cases h
  | ok r =>
      cases r with
      | none => cases h
      | some a => exact ⟨a, s, rfl, h⟩

theorem readMore_leftover {data data' : List UInt8} {s s' : Socket}
    (h : readMore buff data s = (.ok (some data'), s')) :
    Leftover (data ++ s.bytes) data' s' := by
  rw [readMore] at h
  rcases s.recv_cases (buff.size - data.length) with
    ⟨rt, got, t, hrecv, hle⟩ | ⟨hc, k, hk, -, -, hrecv⟩
  · rw [hrecv] at h
    dsimp only at h
    rw [if_pos hle] at h
    cases h
  · rw [hrecv] at h
    dsimp only at h
    rw [if_neg (by omega)] at h
    cases h
    exact Leftover.recv hc data k

theorem parse_leftover {chunck : Bool} {parser p : HttpResponseParser}
    {data rest : List UInt8} {s s' : Socket}
    (h : parse buff chunck parser data s = (.ok (some (p, rest)), s')) :
    s' = s ∧ ∃ n, rest = data.drop n := by
  rw [parse] at h
  split at h
  · cases h
  · rename_i n q rest' hexec
    split_ifs at h
    · cases h
    · cases h
    · cases h
      refine ⟨rfl, ?_⟩
      rw [HttpResponseParser.execute] at hexec
      generalize httpClientParserRun (if chunck then httpClientParserInit else parser.parser)
        data = run at hexec
      obtain ⟨parser', calls⟩ := run
      dsimp only at hexec
      split at hexec
      · cases hexec
      · split_ifs at hexec
        cases hexec
        exact ⟨_, rfl⟩

theorem recvHead_leftover {fuel : Nat} {parser p : HttpResponseParser}
    {data rest : List UInt8} {s s' : Socket}
    (hrun : recvHead buff fuel parser data s = (.ok (some (p, rest)), s')) :
    Leftover (data ++ s.bytes) rest s' := by
  induction fuel generalizing parser data s with
  | zero => cases hrun
  | succ fuel ih =>
      rw [recvHead] at hrun
      obtain ⟨data₁, s₁, hread, hrun⟩ := Received.bind_eq_some hrun
      obtain ⟨⟨q, data₂⟩, s₂, hparse, hrun⟩ := Received.bind_eq_some hrun
      obtain ⟨rfl, n, rfl⟩ := parse_leftover buff hparse
      have hleft := (readMore_leftover buff hread).drop n
      dsimp only at hrun
      split at hrun
      · cases hrun
        exact hleft
      · exact hleft.trans (ih hrun)

end Response

/-! ## The body -/

/-- What both functions do with a positive length: `offset` bytes of the
buffer came with the head. -/
def assemble (data : List UInt8) (offset : Nat) (length : Int) (s : Socket) :
    Option (List UInt8) × Socket :=
  let front := data.take (min length.toNat offset)
  let left := length - offset
  if 0 < left then
    let (rt, rest, s) := s.readFixSize left.toNat
    if rt ≤ 0 then (none, s.close) else (some (front ++ rest), s)
  else (some front, s)

section Body

variable {data : List UInt8} {offset n : Nat} {s : Socket}

theorem toInt32_of_fits (hn : n < 2 ^ 31) : toInt32 (n : Nat) = n := by
  rw [toInt32, Int.bmod_eq_of_le] <;> omega

/-- The body is the next `n` bytes, if they come. -/
theorem assemble_enough (hoff : offset ≤ data.length) (hs : s.connected = true)
    (hfit : n < 2 ^ 31) (hle : n ≤ offset + s.bytes.length) :
    assemble data offset n s =
      (some ((data.take offset ++ s.bytes).take n), s.skip (n - offset)) := by
  have hlen : (data.take offset).length = offset := List.length_take_of_le hoff
  rw [assemble, Int.toNat_natCast]
  dsimp only
  -- some of the body is still to be read, or all of it came with the head
  by_cases hmore : offset < n
  · have hread := @Socket.readFixSize_eq s (n - offset) hs (by omega)
    rw [toInt32_of_fits (by omega)] at hread
    rw [if_pos (by omega), show ((n : Int) - offset).toNat = n - offset by omega, hread,
      Nat.min_eq_right hmore.le]
    dsimp only
    rw [if_neg (by omega), List.take_append, hlen,
      List.take_of_length_le (by omega : (data.take offset).length ≤ n)]
  · rw [if_neg (by omega), Nat.min_eq_left (by omega),
      List.take_append_of_le_length (by omega), List.take_take, Nat.min_eq_left (by omega),
      Nat.sub_eq_zero_of_le (by omega), Socket.skip_zero]

/-- It is given up, if the stream ends or fails before them. -/
theorem assemble_short (hs : s.connected = true) (hlt : offset + s.bytes.length < n) :
    assemble data offset n s = (none, (s.readFixSize (n - offset)).2.2.close) := by
  have hshort := Socket.readFixSize_short (n - offset) hs (by omega)
  rw [assemble]
  dsimp only
  rw [if_pos (by omega), show ((n : Int) - offset).toNat = n - offset by omega, if_pos hshort]

theorem Request.recvBody_of_pos {h : Request.Head} (hlen : toInt64 h.parser.getContentLength = n)
    (hpos : 0 < n) :
    recvBody h s =
      ((assemble h.data h.offset n s).1.map fun body => (h.parser.data.setBody body).init,
        (assemble h.data h.offset n s).2) := by
  rw [recvBody, hlen]
  dsimp only
  rw [if_pos (by omega), assemble]
  dsimp only
  split
  · split <;> rfl
  · rfl

theorem Response.recvLength_of_pos {parser : HttpResponseParser}
    (hlen : toInt64 parser.getContentLength = n) (hpos : 0 < n) :
    recvLength parser data s =
      (.ok (assemble data data.length n s).1, (assemble data data.length n s).2) := by
  rw [recvLength, hlen]
  dsimp only
  rw [if_pos (by omega), assemble]
  dsimp only
  split
  · split <;> rfl
  · rfl

end Body

/-- **Body assembly.** Once a head has been parsed that declares a length `n`,
`recvRequest`, and `recvResponse` where the head does not say `chunked`, set
the body to the first `n` bytes behind the head, those that came with it and
those that are read in however many reads, and leave what is behind them in
the stream. If the stream ends or fails before them, they return null and
close. -/
theorem body_assembled {n : Nat} (hpos : 0 < n) (hfit : n < 2 ^ 31) :
    (∀ (g : Request.Garbage) (s s' : Socket) (h : Request.Head),
      Request.recvHead (s.bytes.length + 1) (.new g.toUninit) g.buffer 0 s =
        (.ok (some h), s') →
      toInt64 h.parser.getContentLength = n →
      h.offset ≤ h.data.length ∧ h.data.take h.offset ++ s'.bytes <:+ s.bytes ∧
      (n ≤ h.offset + s'.bytes.length →
        Request.recvRequest g s =
          (.ok (some (h.parser.data.setBody
            ((h.data.take h.offset ++ s'.bytes).take n)).init), s'.skip (n - h.offset))) ∧
      (h.offset + s'.bytes.length < n →
        (Request.recvRequest g s).1 = .ok none ∧
          (Request.recvRequest g s).2.connected = false)) ∧
    ∀ (buff : Response.BuffSize) (s s' : Socket) (parser : Response.HttpResponseParser)
      (data : List UInt8),
      Response.recvHead buff (s.bytes.length + 1) .new [] s = (.ok (some (parser, data)), s') →
      parser.parser.chunked = false → toInt64 parser.getContentLength = n →
      data ++ s'.bytes <:+ s.bytes ∧
      (n ≤ data.length + s'.bytes.length →
        Response.recvResponse buff s =
          (.ok (some (parser.data.setBody ((data ++ s'.bytes).take n))),
            s'.skip (n - data.length))) ∧
      (data.length + s'.bytes.length < n →
        (Response.recvResponse buff s).1 = .ok none ∧
          (Response.recvResponse buff s).2.connected = false) := by
  constructor
  · intro g s s' h hrun hlen
    obtain ⟨hoff, hfollows, hs⟩ :=
      Request.recvHead_leftover g.full (Nat.zero_le _) hrun
    rw [List.take_zero, List.nil_append] at hfollows
    refine ⟨hoff, hfollows, ?_, ?_⟩
    · intro hle
      simp only [Request.recvRequest, hrun, Request.recvBody_of_pos hlen hpos,
        assemble_enough hoff hs hfit hle, Option.map_some]
    · intro hlt
      simp only [Request.recvRequest, hrun, Request.recvBody_of_pos hlen hpos,
        assemble_short hs hlt, Option.map_none]
      exact ⟨trivial, rfl⟩
  · intro buff s s' parser data hrun hchunked hlen
    obtain ⟨hfollows, hs⟩ := Response.recvHead_leftover buff hrun
    rw [List.nil_append] at hfollows
    refine ⟨hfollows, ?_, ?_⟩
    · intro hle
      have hne : (data ++ s'.bytes).take n ≠ [] := by
        refine List.ne_nil_of_length_pos ?_
        rw [List.length_take, List.length_append]
        omega
      have hbody := assemble_enough (Nat.le_refl data.length) hs hfit hle
      rw [List.take_length] at hbody
      simp only [Response.recvResponse, hrun, Response.Received.bind_some, hchunked,
        Bool.false_eq_true, if_false, Response.recvLength_of_pos hlen hpos, hbody, if_neg hne]
    · intro hlt
      simp only [Response.recvResponse, hrun, Response.Received.bind_some, hchunked,
        Bool.false_eq_true, if_false, Response.recvLength_of_pos hlen hpos,
        assemble_short hs hlt, Response.Received.bind_none]
      exact ⟨trivial, rfl⟩

/-- Five bytes of a body, two of them with the head, and two that follow. -/
def splitPost : Socket where
  arrivals :=
    [Request.arrival "POST / HTTP/1.1\r\ncontent-length: 5\r\n\r\nab" (by decide +kernel),
      Request.arrival "cd" (by decide +kernel), Request.arrival "efg" (by decide +kernel)]

def splitReply : Socket where
  arrivals :=
    [Request.arrival "HTTP/1.1 200 OK\r\ncontent-length: 5\r\n\r\nab" (by decide +kernel),
      Request.arrival "cd" (by decide +kernel), Request.arrival "efg" (by decide +kernel)]

theorem fiveBytes_assembled :
    (∃ (q : HttpRequest) (s : Socket), Request.recvRequest Request.garbage splitPost =
      (.ok (some (q.setBody (text "abcde")).init), s)) ∧
    ∃ (q : HttpResponse) (s : Socket), Response.recvResponse ⟨4096, by decide, by decide⟩ splitReply =
      (.ok (some (q.setBody (text "abcde"))), s) := by
  obtain ⟨hrequest, hresponse⟩ := @body_assembled 5 (by decide) (by decide)
  constructor
  · have hhead : (match Request.recvHead (splitPost.bytes.length + 1)
        (.new Request.garbage.toUninit) Request.garbage.buffer 0 splitPost with
      | (.ok (some h), s) => some (toInt64 h.parser.getContentLength, h.offset,
          h.data.take h.offset, s.bytes)
      | (.ok none, _) | (.error _, _) => none) = some (5, 2, text "ab", text "cdefg") := by decide +kernel
    split at hhead
    · rename_i h s hrun
      simp only [Option.some.injEq, Prod.mk.injEq] at hhead
      obtain ⟨hlen, hoff, hleft, hbytes⟩ := hhead
      have hbody := (hrequest _ _ _ _ hrun hlen).2.2.1 (by rw [hoff, hbytes]; decide)
      rw [hleft, hbytes] at hbody
      exact ⟨_, _, hbody⟩
    · cases hhead
    · cases hhead
  · have hhead : (match Response.recvHead ⟨4096, by decide, by decide⟩
        (splitReply.bytes.length + 1) .new [] splitReply with
      | (.ok (some (parser, data)), s) => some (toInt64 parser.getContentLength,
          parser.parser.chunked, data, s.bytes)
      | (.ok none, _) | (.error _, _) => none) = some (5, false, text "ab", text "cdefg") := by decide +kernel
    split at hhead
    · rename_i parser data s hrun
      simp only [Option.some.injEq, Prod.mk.injEq] at hhead
      obtain ⟨hlen, hchunked, rfl, hbytes⟩ := hhead
      have hbody := (hresponse _ _ _ _ _ hrun hchunked hlen).2.1 (by rw [hbytes]; decide)
      rw [hbytes] at hbody
      exact ⟨_, _, hbody⟩
    · cases hhead
    · cases hhead

end Hps.Http
