import Hps.Http.Fragments

/-!
# HTTP — one request after another

Successive calls of `HttpSession::recvRequest` on one session. Every call has
a buffer of its own, so what a read brought beyond the end of its request is
gone when the call returns. As long as no read does that (`Tidy`), the calls
return the requests of the stream in order (`recvRequests_tidy`).
-/

namespace Hps.Http.Request

open Hps.Lib

/-! ## One call -/

/-- How many bytes the first read of a call brings. -/
def firstRead : List Arrival → Nat
  | [] => 0
  | a :: _ => min buffSize a.bytes.length

section Call

variable {g : Garbage} {b : List UInt8} {r : HttpRequest} {sock : Socket}

/-- The head loop ends after one read that brings the whole head. -/
theorem recvHead_once (h : parseHead g.toUninit b = some r)
    (hconn : sock.connected = true) {front : List UInt8}
    (hfirst : firstRead sock.arrivals = b.length + front.length)
    (hbytes : b ++ front <+: sock.bytes) (fuel : Nat) :
    ∃ s data,
      recvHead (fuel + 1) (.new g.toUninit) g.buffer 0 sock =
        (.ok (some ⟨⟨s, r, 0⟩, data, front.length⟩),
          sock.skip (b.length + front.length)) ∧
      data.take front.length = front := by
  have hbpos := List.length_pos_of_ne_nil (parseHead_reads h).1
  cases harr : sock.arrivals with
  | nil =>
      rw [harr] at hfirst
      have : 0 = b.length + front.length := hfirst
      omega
  | cons a as =>
      rw [harr] at hfirst
      have hmin : min buffSize a.bytes.length = b.length + front.length := hfirst
      have hgot : a.bytes.take buffSize = b ++ front := by
        have hpre : a.bytes.take buffSize <+: sock.bytes := by
          rw [Socket.bytes_eq, harr, flat_cons]
          exact (List.take_prefix _ _).trans (List.prefix_append _ _)
        refine (List.prefix_of_prefix_length_le hpre hbytes ?_).eq_of_length ?_
        · rw [List.length_take, List.length_append, hmin]
        · rw [List.length_take, List.length_append, hmin]
      have hrecv := Socket.recv_eq (m := buffSize) harr hconn (by decide)
      rw [hmin, hgot, ← List.length_append] at hrecv
      obtain ⟨s, q, data, hexec, hcs, hq, hdata⟩ := execute_head h front
        (g.buffer.drop (b ++ front).length)
      rw [← List.append_assoc, ← List.length_append] at hexec
      have hne : b ++ front ≠ [] := by
        rintro hnil
        have := congrArg List.length hnil
        rw [List.length_append, List.length_nil] at this
        omega
      have hleft : (b ++ front).length - b.length = front.length := by
        rw [List.length_append, Nat.add_sub_cancel_left]
      have hroom : (b ++ front).length - b.length ≠ buffSize := by
        rw [hleft]
        omega
      refine ⟨s, data, ?_, hdata⟩
      rw [recvHead_finishes fuel hrecv hne hexec hcs hq hroom, hleft,
        List.length_append]

/-- **One call** whose first read brings the head, and nothing beyond the body,
returns the request and leaves what comes behind it. -/
theorem recvRequest_once (h : parseHead g.toUninit b = some r)
    (hconn : sock.connected = true) {c : List UInt8}
    (hlen : toInt64 (r.getHeaderAsU64 (text "content-length") 0) = (c.length : Nat))
    (hbytes : b ++ c <+: sock.bytes) (hhead : b.length ≤ firstRead sock.arrivals)
    (hbody : firstRead sock.arrivals ≤ b.length + c.length)
    (hfit : firstRead sock.arrivals < b.length + c.length →
      0 < toInt32 ((b.length + c.length - firstRead sock.arrivals : Nat) : Int)) :
    recvRequest g sock =
      (.ok (some (withBody r c).init), sock.skip (b.length + c.length)) := by
  set k := firstRead sock.arrivals with hk
  set front := c.take (k - b.length) with hfront
  set rest := c.drop (k - b.length) with hrest
  have hc : front ++ rest = c := List.take_append_drop _ _
  have hflen : b.length + front.length = k := by
    rw [hfront, List.length_take]
    omega
  have hrlen : rest.length = b.length + c.length - k := by
    rw [hrest, List.length_drop]
    omega
  have hbytes' : (b ++ front) ++ rest <+: sock.bytes := by
    rwa [List.append_assoc, hc]
  obtain ⟨s, data, hrun, hdata⟩ := recvHead_once h hconn (hk.symm.trans hflen.symm)
    ((List.prefix_append _ _).trans hbytes') sock.bytes.length
  have hbehind : rest <+: (sock.skip (b.length + front.length)).bytes := by
    obtain ⟨more, hmore⟩ := hbytes'
    rw [Socket.bytes_skip, ← hmore, List.append_assoc, ← List.length_append,
      List.drop_left]
    exact List.prefix_append _ _
  have hfit' : rest = [] ∨ 0 < toInt32 (rest.length : Nat) := by
    by_cases hlt : k < b.length + c.length
    · rw [hrlen]
      exact .inr (hfit hlt)
    · exact .inl (List.eq_nil_of_length_eq_zero (by omega))
  have hbody' := recvBody_eq (h := ⟨⟨s, r, 0⟩, data, front.length⟩)
    (s := sock.skip (b.length + front.length)) (by rw [hc]; exact hlen) hdata rfl hconn
    hbehind hfit'
  rw [Socket.skip_skip, hc, hflen, hrlen, show k + (b.length + c.length - k) =
    b.length + c.length by omega] at hbody'
  rw [hflen] at hrun
  simp only [recvRequest, hrun, hbody']

end Call

/-! ## Calls in a row -/

/-- A request on the wire. -/
structure Message where
  head : List UInt8
  body : List UInt8

def Message.length (q : Message) : Nat := q.head.length + q.body.length

/-- The head fits in one read and is read as `r`, which announces the body. -/
structure Message.Ok (q : Message) (u : Uninit) (r : HttpRequest) : Prop where
  fits : q.head.length ≤ buffSize
  parsed : parseHead u q.head = some r
  announced : toInt64 (r.getHeaderAsU64 (text "content-length") 0) =
    (q.body.length : Nat)

/-- The calls of `HttpServer::handleClient` on one session. -/
def recvRequests : List Garbage → Socket → List Reply × Socket
  | [], s => ([], s)
  | g :: gs, s =>
      let (reply, s) := recvRequest g s
      let (replies, s) := recvRequests gs s
      (reply :: replies, s)

/-- Every call's first read brings the whole head, and nothing beyond the body;
what it leaves of the body is positive as an `int`. -/
def Tidy : List Message → List Arrival → Prop
  | [], _ => True
  | q :: qs, as =>
      q.head.length ≤ firstRead as ∧ firstRead as ≤ q.length ∧
        (firstRead as < q.length →
          0 < toInt32 ((q.length - firstRead as : Nat) : Int)) ∧
        Tidy qs (skip q.length as)

/-- **The requests of the stream are returned in order**, as long as no read
brings more than the request it begins with. -/
theorem recvRequests_tidy {calls : List (Garbage × Message × HttpRequest)}
    {sock : Socket} (hconn : sock.connected = true)
    (hok : ∀ x ∈ calls, x.2.1.Ok x.1.toUninit x.2.2)
    (hbytes : (calls.map fun x => x.2.1.head ++ x.2.1.body).flatten = sock.bytes)
    (htidy : Tidy (calls.map fun x => x.2.1) sock.arrivals) :
    (recvRequests (calls.map Prod.fst) sock).1 =
      calls.map fun x => .ok (some (withBody x.2.2 x.2.1.body).init) := by
  induction calls generalizing sock with
  | nil => rfl
  | cons x calls ih =>
      obtain ⟨g, q, r⟩ := x
      have hq := hok _ List.mem_cons_self
      obtain ⟨hhead, hbody, hfit, hrest⟩ := htidy
      rw [List.map_cons, List.flatten_cons] at hbytes
      have hone := recvRequest_once hq.parsed hconn hq.announced
        ⟨_, hbytes⟩ hhead hbody hfit
      have hbytes' : (calls.map fun x => x.2.1.head ++ x.2.1.body).flatten =
          (sock.skip q.length).bytes := by
        rw [Socket.bytes_skip, ← hbytes, Message.length, ← List.length_append,
          List.drop_left]
      have hih := @ih (sock.skip q.length) hconn
        (fun y hy => hok y (List.mem_cons_of_mem _ hy)) hbytes' hrest
      simp only [List.map_cons, recvRequests, hone]
      exact congrArg _ hih

/-- A post and a get, with the buffers of the calls. -/
def posting : List (Garbage × Message × HttpRequest) :=
  [(garbage, ⟨text "POST / HTTP/1.1\r\ncontent-length: 3\r\n\r\n", text "abc"⟩,
      { method := .POST, headers := [(text "content-length", text "3")] }),
    (garbage, ⟨text "GET / HTTP/1.1\r\n\r\n", []⟩, {})]

/-- The body of the post ends in the arrival that brings the get. -/
def postThenGet : Socket where
  arrivals :=
    [arrival "POST / HTTP/1.1\r\ncontent-length: 3\r\n\r\nab" (by decide +kernel),
      arrival "cGET / HTTP/1.1\r\n\r\n" (by decide +kernel)]

theorem postThenGet_returned :
    (recvRequests [garbage, garbage] postThenGet).1 =
      [.ok (some { method := .POST, body := text "abc"
                   headers := [(text "content-length", text "3")] }),
        .ok (some {})] := by
  have hok : ∀ x ∈ posting, x.2.1.Ok x.1.toUninit x.2.2 := by
    simp only [posting, List.forall_mem_cons]
    refine ⟨⟨?_, ?_, ?_⟩, ⟨?_, ?_, ?_⟩, nofun⟩ <;> decide +kernel
  have htidy : Tidy (posting.map fun x => x.2.1) postThenGet.arrivals := by
    refine ⟨?_, ?_, ?_, ?_, ?_, ?_, trivial⟩ <;> decide +kernel
  have hbytes : (posting.map fun x => x.2.1.head ++ x.2.1.body).flatten =
    postThenGet.bytes := by decide +kernel
  exact recvRequests_tidy rfl hok hbytes htidy

/-- Two gets in one arrival. -/
def twoAtOnce : Socket where
  arrivals :=
    [arrival "GET / HTTP/1.1\r\n\r\nGET / HTTP/1.1\r\n\r\n" (by decide +kernel)]

theorem twoAtOnce_lost :
    Message.Ok ⟨text "GET / HTTP/1.1\r\n\r\n", []⟩ garbage.toUninit {} ∧
      twoAtOnce.bytes =
        text "GET / HTTP/1.1\r\n\r\n" ++ text "GET / HTTP/1.1\r\n\r\n" ∧
      (recvRequests [garbage, garbage] twoAtOnce).1 ≠
        [.ok (some {}), .ok (some {})] := by
  refine ⟨⟨?_, ?_, ?_⟩, ?_, fun hrun => ?_⟩
  case refine_5 =>
    have hsecond : (recvRequests [garbage, garbage] twoAtOnce).1.map
        (fun x => x.toOption.map Option.isSome) = [some true, some false] := by
      decide +kernel
    rw [hrun] at hsecond
    cases hsecond
  all_goals decide +kernel

end Hps.Http.Request
