import Hps.Http.Declared
import Hps.Http.KeepAlive
import Hps.Http.Servlet
import Hps.Pool.Model

/-!
# HTTP — a server and one of its clients

`HttpServer::handleClient`: one request after the other is received, handed to
a servlet and answered. What a call of `recvRequest` returns of the arrivals
that it reads, it returns in front of any more (`recvRequest_append`), and so a
conversation comes out as its requests do one by one (`handleClient_eq`).
-/

namespace Hps.Http.Serving

open Hps.Lib
open Hps.Http.Dispatch (Uri Servlet ServletDispatch)
open Hps.Http.Request (Garbage recvHead recvBody recvRequest)

/-! ## Servlets -/

/-- A response with all that `dump` reads of it. -/
structure Answer where
  response : HttpResponse
  websocket : Bool := false
  cookies : List (List UInt8) := []

def Answer.dump (a : Answer) : List UInt8 := a.response.dump a.websocket a.cookies

/-- The `m_content` that the constructor of `NotFoundServlet` makes. -/
def notFoundContent (name : Uri) : List UInt8 :=
  text ("<html><head><title>404 Not Found" ++
    "</title></head><body><center><h1>404 Not Found</h1></center>" ++ "<hr><center>") ++
    name ++ text "</center></body></html>"

/-- `NotFoundServlet::handle` -/
def notFound (name : Uri) (a : Answer) : Answer :=
  let response := a.response.setStatus 404
  let response := response.setHeader (text "Server") (text "HPS/1.0.0")
  let response := response.setHeader (text "Content-Type") (text "text/html")
  { a with response := response.setBody (notFoundContent name) }

/-- What is not in the server: `fnmatch`, what the creators make, and the
callbacks and the servlets of its user. They may change the request and the
response, and `ω` is what they remember. -/
structure Program (σ κ τ ω : Type) where
  fnmatch : Uri → Uri → Int
  new : τ → Servlet σ κ
  callback : κ → HttpRequest → Answer → ω → HttpRequest × Answer × ω
  user : σ → HttpRequest → Answer → ω → HttpRequest × Answer × ω

section Server

variable {σ κ τ ω : Type} (p : Program σ κ τ ω)

/-- `Servlet::handle` -/
def Program.handle (slt : Servlet σ κ) (req : HttpRequest) (a : Answer) (w : ω) :
    HttpRequest × Answer × ω :=
  match slt with
  | .notFound name => (req, notFound name a, w)
  | .function cb => p.callback cb req a w
  | .user slt => p.user slt req a w

/-! ## The server -/

/-- The members that `handleClient` reads. -/
structure HttpServer (σ κ τ : Type) where
  isKeepalive : Bool
  name : List UInt8
  dispatch : ServletDispatch σ κ τ

variable (srv : HttpServer σ κ τ)

/-- The response that `handleClient` makes for a request, before it is
handled. -/
def HttpServer.response (req : HttpRequest) : Answer where
  response :=
    HttpResponse.setHeader { version := req.version, close := req.close || !srv.isKeepalive }
      (text "Server") srv.name

/-- `m_dispatch->handle(req, rsp, session)`: the request and the response
behind it. -/
def HttpServer.answer (req : HttpRequest) (w : ω) : HttpRequest × Answer × ω :=
  p.handle (srv.dispatch.getMatchedServlet p.fnmatch p.new req.path) req (srv.response req) w

/-- What a turn of the loop gets from outside: the memory that `recvRequest`
allocates, and what the writes of the response return. -/
structure Turn where
  garbage : Garbage
  sends : List Int

/-- How `handleClient` stands. -/
inductive Ending where
  | running
  | closed
  | thrown (e : Thrown)
  deriving DecidableEq

/-- What was done for a client: the requests that were received, all that was
written, and how it ended. -/
structure Service (ω : Type) where
  handled : List HttpRequest
  written : List UInt8
  world : ω
  socket : Socket
  ending : Ending

/-- What `sendResponse(rsp)` writes. -/
def sendResponse (s : Socket) (sends : List Int) (a : Answer) : List UInt8 :=
  let data := a.dump
  let (_, left) := Pool.writeLoop (if s.connected then sends else []) data.length
  data.take (data.length - left)

/-- `HttpServer::handleClient`, as many turns as there are in the list. -/
def handleClient : List Turn → ω → Socket → Service ω
  | [], w, s => ⟨[], [], w, s, .running⟩
  | t :: ts, w, s =>
      match recvRequest t.garbage s with
      | (.error e, s) => ⟨[], [], w, s, .thrown e⟩
      | (.ok none, s) => ⟨[], [], w, s.close, .closed⟩
      | (.ok (some req), s) =>
          let (behind, a, w) := srv.answer p req w
          let out := sendResponse s t.sends a
          if !srv.isKeepalive || behind.close then ⟨[req], out, w, s.close, .closed⟩
          else
            let rest := handleClient ts w s
            { rest with handled := req :: rest.handled, written := out ++ rest.written }

end Server

/-! ## More arrivals -/

section More

variable {as : List Arrival} {b : Bool} (more : List Arrival) (b' : Bool)

/-- A read that brings bytes does not see what comes behind them. -/
theorem recv_append {n : Nat} {rt : Int} {got : List UInt8} {s : Socket}
    (h : Socket.recv ⟨as, b, true⟩ n = (rt, got, s)) (hpos : 0 < rt) :
    ∃ as', s = ⟨as', b, true⟩ ∧
      Socket.recv ⟨as ++ more, b', true⟩ n = (rt, got, ⟨as' ++ more, b', true⟩) := by
  rcases Nat.eq_zero_or_pos n with rfl | hn
  · simp only [Socket.recv, not_true_eq_false, if_false, if_true] at h
    cases h
    exact absurd hpos (by decide)
  · have hn0 : n ≠ 0 := Nat.ne_of_gt hn
    cases as with
    | nil =>
        simp only [Socket.recv, not_true_eq_false, if_false, hn0] at h
        cases h
        split at hpos <;> omega
    | cons a as =>
        simp only [Socket.recv, not_true_eq_false, if_false, hn0, List.cons_append] at h ⊢
        split at h
        · rename_i hlt
          cases h
          exact ⟨_, rfl, dif_pos hlt⟩
        · rename_i hlt
          cases h
          exact ⟨as, rfl, dif_neg hlt⟩

theorem readLoop_append {fuel left : Nat} {got out : List UInt8} {s : Socket}
    (h : Socket.readLoop fuel ⟨as, b, true⟩ left got = (none, out, s)) :
    ∃ as', s = ⟨as', b, true⟩ ∧
      Socket.readLoop fuel ⟨as ++ more, b', true⟩ left got =
        (none, out, ⟨as' ++ more, b', true⟩) := by
  induction fuel generalizing as left got with
  | zero =>
      cases h
      exact ⟨as, rfl, rfl⟩
  | succ fuel ih =>
      rw [Socket.readLoop] at h ⊢
      by_cases h0 : left = 0
      · rw [if_pos h0] at h ⊢
        cases h
        exact ⟨as, rfl, rfl⟩
      · rw [if_neg h0] at h ⊢
        rcases hrecv : Socket.recv ⟨as, b, true⟩ left with ⟨rt, bs, t⟩
        rw [hrecv] at h
        dsimp only at h
        by_cases hle : rt ≤ 0
        · rw [if_pos hle] at h
          cases h
        · rw [if_neg hle] at h
          obtain ⟨as₁, rfl, hmore⟩ := recv_append more b' hrecv (by omega)
          rw [hmore]
          dsimp only
          rw [if_neg hle]
          exact ih h

/-- What ends the loop early is no number of bytes. -/
theorem readLoop_early {fuel left : Nat} {got out : List UInt8} {s t : Socket} {len : Int}
    (h : Socket.readLoop fuel s left got = (some len, out, t)) : len ≤ 0 := by
  induction fuel generalizing s left got with
  | zero => cases h
  | succ fuel ih =>
      rw [Socket.readLoop] at h
      rcases hrecv : s.recv left with ⟨rt, bs, t'⟩
      rw [hrecv] at h
      dsimp only at h
      split_ifs at h with h0 hle
      · cases h
      · cases h
        exact hle
      · exact ih h

theorem readFixSize_append {n : Nat} {rt : Int} {out : List UInt8} {s : Socket}
    (h : Socket.readFixSize ⟨as, b, true⟩ n = (rt, out, s)) (hpos : 0 < rt) :
    ∃ as', s = ⟨as', b, true⟩ ∧
      Socket.readFixSize ⟨as ++ more, b', true⟩ n = (rt, out, ⟨as' ++ more, b', true⟩) := by
  rw [Socket.readFixSize] at h ⊢
  rcases hloop : Socket.readLoop n ⟨as, b, true⟩ n [] with ⟨early, got, t⟩
  rw [hloop] at h
  cases early with
  | some len =>
      cases h
      exact absurd (readLoop_early hloop) (by omega)
  | none =>
      obtain ⟨as', rfl, hmore⟩ := readLoop_append more b' hloop
      rw [hmore]
      simp only [Prod.mk.injEq] at h
      obtain ⟨rfl, rfl, rfl⟩ := h
      exact ⟨as', rfl, rfl⟩

/-- A head that was read is read in front of any more. -/
theorem recvHead_append {fuel fuel' : Nat} (hfuel : fuel ≤ fuel')
    {parser : Request.HttpRequestParser} {data : List UInt8} {offset : Nat}
    {h : Request.Head} {s : Socket}
    (hrun : recvHead fuel parser data offset ⟨as, b, true⟩ = (.ok (some h), s)) :
    ∃ as', s = ⟨as', b, true⟩ ∧
      recvHead fuel' parser data offset ⟨as ++ more, b', true⟩ =
        (.ok (some h), ⟨as' ++ more, b', true⟩) := by
  induction fuel generalizing fuel' as parser data offset with
  | zero => cases hrun
  | succ fuel ih =>
      obtain ⟨fuel', rfl⟩ : ∃ n, fuel' = n + 1 := ⟨fuel' - 1, by omega⟩
      rw [recvHead] at hrun ⊢
      rcases hrecv : Socket.recv ⟨as, b, true⟩ (Request.buffSize - offset) with ⟨rt, got, t⟩
      rw [hrecv] at hrun
      dsimp only at hrun
      split_ifs at hrun with hle
      · cases hrun
      · obtain ⟨as₁, rfl, hmore⟩ := recv_append more b' hrecv (by omega)
        rw [hmore]
        dsimp only
        rw [if_neg hle]
        revert hrun
        generalize parser.execute (data.take offset ++ got ++ data.drop (offset + got.length))
          (offset + got.length) = res
        intro hrun
        cases res with
        | error e => cases hrun
        | ok res =>
            obtain ⟨nparse, parser', data'⟩ := res
            dsimp only at hrun ⊢
            split_ifs at hrun ⊢ with herr hfull hfin
            · cases hrun
            · cases hrun
            · cases hrun
              exact ⟨as₁, rfl, rfl⟩
            · exact ih (by omega) hrun

theorem recvBody_append {h : Request.Head} {q : HttpRequest} {s : Socket}
    (hrun : recvBody h ⟨as, b, true⟩ = (some q, s)) :
    ∃ as', s = ⟨as', b, true⟩ ∧
      recvBody h ⟨as ++ more, b', true⟩ = (some q, ⟨as' ++ more, b', true⟩) := by
  rw [recvBody] at hrun ⊢
  generalize toInt64 h.parser.getContentLength = length at hrun ⊢
  dsimp only at hrun ⊢
  -- a body that is still to be read, one that came with the head, or none
  by_cases hlen : 0 < length
  · rw [if_pos hlen] at hrun ⊢
    by_cases hleft : 0 < length - h.offset
    · rw [if_pos hleft] at hrun ⊢
      rcases hread : Socket.readFixSize ⟨as, b, true⟩ (length - h.offset).toNat with ⟨rt, rest, t⟩
      rw [hread] at hrun
      dsimp only at hrun
      by_cases hle : rt ≤ 0
      · rw [if_pos hle] at hrun
        cases hrun
      · rw [if_neg hle] at hrun
        obtain ⟨as', rfl, hmore⟩ := readFixSize_append more b' hread (by omega)
        cases hrun
        refine ⟨as', rfl, ?_⟩
        rw [hmore]
        exact if_neg hle
    · rw [if_neg hleft] at hrun ⊢
      cases hrun
      exact ⟨as, rfl, rfl⟩
  · rw [if_neg hlen] at hrun ⊢
    cases hrun
    exact ⟨as, rfl, rfl⟩

theorem bytes_append : (Socket.bytes ⟨as ++ more, b', true⟩).length =
    (Socket.bytes ⟨as, b, true⟩).length + (flat more).length := by
  simp [Socket.bytes, flat]

/-- **A request that is received is received in front of any more**, and what
it leaves stays in front of that. -/
theorem recvRequest_append {g : Garbage} {q : HttpRequest} {s : Socket}
    (h : recvRequest g ⟨as, b, true⟩ = (.ok (some q), s)) :
    ∃ as', s = ⟨as', b, true⟩ ∧
      recvRequest g ⟨as ++ more, b', true⟩ = (.ok (some q), ⟨as' ++ more, b', true⟩) := by
  rw [recvRequest] at h ⊢
  have hfuel : (Socket.bytes ⟨as, b, true⟩).length + 1 ≤
      (Socket.bytes ⟨as ++ more, b', true⟩).length + 1 := by
    rw [@bytes_append as b more b']
    omega
  rcases hhead : recvHead ((Socket.bytes ⟨as, b, true⟩).length + 1) (.new g.toUninit) g.buffer 0
    ⟨as, b, true⟩ with ⟨res, t⟩
  rw [hhead] at h
  cases res with
  | error e => cases h
  | ok res =>
      cases res with
      | none => cases h
      | some hd =>
          obtain ⟨as₁, rfl, hmore⟩ := recvHead_append more b' hfuel hhead
          rw [hmore]
          dsimp only at h ⊢
          rcases hbody : recvBody hd ⟨as₁, b, true⟩ with ⟨r, t⟩
          rw [hbody] at h
          cases h
          obtain ⟨as', rfl, hmore'⟩ := recvBody_append more b' hbody
          rw [hmore']
          exact ⟨as', rfl, rfl⟩

/-- No request comes where the stream ends. -/
theorem recvRequest_ended (g : Garbage) (b : Bool) :
    recvRequest g ⟨[], b, true⟩ = (.ok none, ⟨[], b, false⟩) := by
  cases b with
  | true => rfl
  | false => rfl

end More

/-! ## Conversations -/

section Conversations

variable {σ κ τ ω : Type} (p : Program σ κ τ ω) (srv : HttpServer σ κ τ)

/-- A request as it comes to the server, and the turn it comes in. -/
structure Incoming where
  request : HttpRequest
  arrivals : List Arrival
  turn : Turn

/-- The arrivals are those of the request, and nothing else. -/
def Incoming.Arrives (x : Incoming) : Prop :=
  recvRequest x.turn.garbage ⟨x.arrivals, false, true⟩ =
    (.ok (some x.request), ⟨[], false, true⟩)

/-- What is done for a request: `behind` is the request behind its servlet, and
`out` what is written of the answer. -/
structure Exchange where
  behind : HttpRequest
  answer : Answer
  out : List UInt8

/-- What would be done for the requests, if none of them ended the
conversation. -/
def exchanges : ω → List Incoming → List Exchange
  | _, [] => []
  | w, x :: xs =>
      let (behind, a, w) := srv.answer p x.request w
      ⟨behind, a, sendResponse ⟨[], false, true⟩ x.turn.sends a⟩ :: exchanges w xs

/-- What the program remembers behind the requests. -/
def worldAfter : ω → List Incoming → ω
  | w, [] => w
  | w, x :: xs => worldAfter (srv.answer p x.request w).2.2 xs

/-- The conversation ends behind the exchange. -/
def HttpServer.ends (e : Exchange) : Bool := !srv.isKeepalive || e.behind.close

/-- The exchanges up to the first that ends the conversation, and with it. -/
def HttpServer.upToEnd : List Exchange → List Exchange
  | [] => []
  | e :: es => if srv.ends e then [e] else e :: upToEnd es

/-- What is done for the client: nothing is received behind the end. -/
def conversation (w : ω) (xs : List Incoming) (b : Bool) : Service ω :=
  let done := srv.upToEnd (exchanges p srv w xs)
  { handled := (xs.take done.length).map Incoming.request
    written := done.flatMap Exchange.out
    world := worldAfter p srv w (xs.take done.length)
    socket := ⟨(xs.drop done.length).flatMap Incoming.arrivals, b, false⟩
    ending := .closed }

theorem sendResponse_connected {s : Socket} (h : s.connected = true) (sends : List Int)
    (a : Answer) : sendResponse s sends a = sendResponse ⟨[], false, true⟩ sends a := by
  rw [sendResponse, sendResponse, h]

/-- **A client is served one request after the other.** Its requests are
received as they are one by one, every one is handed to its servlet and
answered before the next is received, and with the first that is to be the last,
or where the client ends, the session is closed. -/
theorem handleClient_eq (xs : List Incoming) (hxs : ∀ x ∈ xs, x.Arrives) (t : Turn) (w : ω)
    (b : Bool) :
    handleClient p srv (xs.map Incoming.turn ++ [t]) w
      ⟨xs.flatMap Incoming.arrivals, b, true⟩ = conversation p srv w xs b := by
  induction xs generalizing w with
  | nil =>
      rw [List.map_nil, List.nil_append, handleClient, List.flatMap_nil,
        recvRequest_ended]
      rfl
  | cons x xs ih =>
      obtain ⟨hx, hxs⟩ := List.forall_mem_cons.mp hxs
      obtain ⟨as', hnil, hrecv⟩ := recvRequest_append (xs.flatMap Incoming.arrivals) b hx
      obtain rfl : as' = [] := (congrArg Socket.arrivals hnil).symm
      rw [List.nil_append] at hrecv
      rw [List.map_cons, List.cons_append, List.flatMap_cons, handleClient, hrecv]
      dsimp only
      rw [sendResponse_connected rfl]
      -- the answer ends the conversation, or the next request is received
      by_cases hend : (!srv.isKeepalive || (srv.answer p x.request w).1.close) = true
      · rw [if_pos hend]
        simp only [conversation, exchanges, HttpServer.upToEnd, HttpServer.ends, hend, if_true]
        simp [worldAfter, Socket.close]
      · rw [if_neg hend, ih hxs]
        simp only [conversation, exchanges, HttpServer.upToEnd, HttpServer.ends, hend]
        simp [worldAfter]

end Conversations

end Hps.Http.Serving
