import Hps.Http.ClientRequest
import Hps.Http.ResponseRoundTrip
import Hps.Http.Serving
import Hps.Pool.Reuse

/-!
# Pool — a client and its server

The two ends of one connection: the client makes its requests one after the
other, as `doRequest` does on a connection of the pool, and the server serves
them with `handleClient`. The server sees the requests that were made
(`arrives_of_carried`), the client the responses that the servlets made of them
(`conversation_carried`), whatever pieces the bytes come in behind the heads,
which the first reads have to bring.
-/

namespace Hps.Pool

open Hps.Lib Hps.Http
open Hps.Http.Serving
open Hps.Http.Dispatch (ServletDispatch)

/-! ## Requests -/

/-- The request that the server sees: with the headers that `dump` adds. -/
def received (r : HttpRequest) : HttpRequest :=
  { r with headers := Request.readHeaders r }

section Requests

variable {r : HttpRequest}

theorem received_eq (r : HttpRequest) :
    (Request.withBody (Request.readBack r) r.body).init = received r := by
  have hclose := Request.init_close r
  have hget : (Request.readBack r).getHeader (text "connection") [] =
      Request.connectionValue r := by
    rw [HttpRequest.getHeader]
    exact congrArg (·.getD []) (Request.find_connection r)
  have hbody : Request.withBody (Request.readBack r) r.body =
      { Request.readBack r with body := r.body } := by
    rw [Request.withBody]
    split
    · rename_i hnil
      rw [hnil]
      rfl
    · rfl
  have hget' : HttpRequest.getHeader { Request.readBack r with body := r.body }
      (text "connection") [] = Request.connectionValue r := hget
  rw [hbody, HttpRequest.init, hget']
  rw [HttpRequest.init, hget] at hclose
  have hne : Request.connectionValue r ≠ [] := by
    rw [Request.connectionValue]
    split <;> decide
  rw [if_neg hne] at hclose ⊢
  dsimp only at hclose
  rw [hclose]
  rfl

/-- The length that the server reads is that of the body. -/
theorem contentLength_readBack {relaxed : Bool} (h : Request.Encodable relaxed r)
    (hfit : r.body.length < 2 ^ 31) :
    toInt64 ((Request.readBack r).getHeaderAsU64 (text "content-length") 0) =
      (r.body.length : Nat) := by
  by_cases hbody : r.body = []
  · have hnone : (Request.readBack r).headers.find (text "content-length") = none := by
      show (Request.readHeaders r).find (text "content-length") = none
      rw [MapType.find_eq, Request.readHeaders, if_pos hbody, MapType.set_eq,
        OrderedMap.find_set_of_lt_or_gt Request.connection_ne_contentLength.symm]
      exact OrderedMap.find_eq_none fun x hx =>
        nameLess_or_of_not_same (h.not_contentLength x hx)
    rw [HttpRequest.getHeaderAsU64, MapType.getAsU64, hnone, hbody]
    rfl
  · have hget : (Request.readBack r).headers.find (text "content-length") =
        some (decimal r.bodySize.toNat) := Request.find_contentLength hbody
    rw [HttpRequest.getHeaderAsU64, MapType.getAsU64, hget, Option.bind_some,
      lexicalCastU64_decimal, Option.getD_some]
    exact Response.toInt64_ofNat hfit

end Requests

/-! ## Calls -/

/-- A request of the client, as it comes to the server. -/
structure Call where
  exchange : Exchange
  arrivals : List Arrival
  turn : Turn

def Call.incoming (c : Call) : Incoming := ⟨received c.exchange.req, c.arrivals, c.turn⟩

/-- The request is one that can be written, it is written to its end, and the
server's first read brings its head. -/
structure Call.Carried (c : Call) : Prop where
  plain : c.exchange.websocket = false
  encodable : Request.Encodable c.turn.garbage.uriRelaxed c.exchange.req
  authority : Request.AuthorityOk c.turn.garbage.uriRelaxed c.exchange.req.path
  fits : c.exchange.req.body.length < 2 ^ 31
  sent : c.exchange.Sent
  bytes : flat c.arrivals = c.exchange.req.toString false
  head : (Request.headText c.exchange.req).length ≤ Request.firstRead c.arrivals

/-- The answer is one that can be written, it is written to its end, and the
client's first read brings its head. -/
structure Call.Answered (buff : Response.BuffSize) (c : Call) (a : Answer) : Prop where
  encodable : Response.Encodable a.websocket a.cookies a.response
  written : Written c.turn.sends a.dump.length
  bytes : flat c.exchange.answer = a.dump
  head : a.dump.length ≤
    Response.firstRead buff c.exchange.answer + a.response.body.length

/-- The requests of the client, one after the other on one connection. -/
def exchangeAll (buff : Response.BuffSize) :
    List Exchange → HttpConnection →
      List (Except Response.Fault (Error × Option HttpResponse)) × HttpConnection
  | [], c => ([], c)
  | x :: xs, c =>
      let (res, c) := exchange buff x c
      let (rest, c) := exchangeAll buff xs c
      (res :: rest, c)

/-- The bytes that were all read. -/
theorem skip_length (as : List Arrival) {n : Nat} (hn : (flat as).length ≤ n) :
    Http.skip n as = [] := by
  have hflat : flat (Http.skip n as) = [] := by
    rw [flat_skip, List.drop_of_length_le hn]
  cases hskip : Http.skip n as with
  | nil => rfl
  | cons a as' =>
      rw [hskip, flat_cons] at hflat
      exact absurd (List.append_eq_nil_iff.mp hflat).1 a.nonempty

/-- **The server receives the request that was made.** -/
theorem arrives_of_carried {c : Call} (h : c.Carried) : c.incoming.Arrives := by
  have htext := Request.toString_eq h.encodable.not_connection
  have hflat := h.bytes
  rw [htext] at hflat
  have hfirst : Request.firstRead c.arrivals ≤ (flat c.arrivals).length := by
    cases c.arrivals with
    | nil => exact Nat.zero_le _
    | cons a as =>
        rw [flat_cons, List.length_append]
        exact (Nat.min_le_right _ _).trans (Nat.le_add_right _ _)
  rw [hflat, List.length_append] at hfirst
  have hconn : (Socket.mk c.arrivals false true).connected = true := rfl
  have honce := Request.recvRequest_once
    (Request.parseHead_headText h.encodable h.authority) hconn (c := c.exchange.req.body)
    (contentLength_readBack h.encodable h.fits)
    (by rw [Socket.bytes_eq]; exact hflat ▸ List.prefix_refl _) h.head hfirst
    (by
      intro hlt
      have hfits := h.fits
      have hhead : _ ≤ Request.firstRead (Socket.mk c.arrivals false true).arrivals := h.head
      rw [toInt32_of_fits (by omega)]
      omega)
  rw [Incoming.Arrives, Call.incoming, honce, received_eq]
  dsimp only
  rw [Socket.skip, skip_length _ (by rw [hflat, List.length_append])]

/-- **The client reads the answer**, and nothing is left to read. -/
theorem exchange_of_answered {buff : Response.BuffSize} {c : Call} {a : Answer}
    (hc : c.Carried) (ha : c.Answered buff a) {client : HttpConnection}
    (hopen : client.isConnected = true) (hempty : client.socket.arrivals = []) :
    ∃ next, exchange buff c.exchange client =
        (.ok (.OK, some (Response.readBack a.websocket a.cookies a.response)), next) ∧
      next.isConnected = true ∧ next.socket.arrivals = [] ∧
      next.spoiled = client.spoiled := by
  have hconn : (c.exchange.asked client.socket).connected = true := hopen
  have harr : (c.exchange.asked client.socket).arrivals = c.exchange.answer := by
    rw [Exchange.asked, hempty]
    rfl
  have hbytes : (c.exchange.asked client.socket).bytes =
      HttpResponse.dump a.websocket a.cookies a.response ++ [] := by
    rw [Socket.bytes_eq, harr, ha.bytes, List.append_nil]
    rfl
  have hread := Response.recvResponse_dump buff ha.encodable hconn hbytes
    (by rw [harr]; exact ha.head)
  set n := max (Response.firstRead buff (c.exchange.asked client.socket).arrivals)
    (HttpResponse.dump a.websocket a.cookies a.response).length with hn
  have hgone : ((c.exchange.asked client.socket).skip n).arrivals = [] := by
    have hdump : (flat c.exchange.answer).length ≤ n := by
      rw [ha.bytes]
      exact Nat.le_max_right _ _
    rw [Socket.skip_arrivals, harr]
    exact skip_length _ hdump
  obtain ⟨rt, hsend, hrt, -⟩ | ⟨rt, left, -, -, hnot⟩ := sendRequest_cases c.exchange
  · have hexchange : exchange buff c.exchange client =
        (.ok (.OK, some (Response.readBack a.websocket a.cookies a.response)),
          { client with
            socket := (c.exchange.asked client.socket).skip n
            spoiled := client.spoiled || (0 : Nat) != 0 ||
              !((c.exchange.asked client.socket).skip n).arrivals.isEmpty }) := by
      rw [exchange, hopen, hsend, ← Exchange.asked]
      dsimp only
      rw [hread, if_neg (by omega), if_neg (by omega)]
    refine ⟨_, hexchange, hconn, hgone, ?_⟩
    rw [hgone]
    simp
  · exact absurd hc.sent hnot

section Conversations

variable {σ κ τ ω : Type} {p : Program σ κ τ ω} {srv : HttpServer σ κ τ}

/-- The server's end of the exchanges, without what was written. -/
theorem length_exchanges (w : ω) (xs : List Incoming) :
    (exchanges p srv w xs).length = xs.length := by
  induction xs generalizing w with
  | nil => rfl
  | cons x xs ih => rw [exchanges, List.length_cons, List.length_cons, ih]

theorem upToEnd_prefix (es : List Serving.Exchange) :
    srv.upToEnd es = es.take (srv.upToEnd es).length := by
  induction es with
  | nil => rfl
  | cons e es ih =>
      rw [HttpServer.upToEnd]
      split
      · rfl
      · rw [List.length_cons, List.take_succ_cons, ← ih]

/-- Requests and answers that get across, one after the other. -/
theorem exchangeAll_eq {buff : Response.BuffSize} {pairs : List (Call × Answer)}
    (h : ∀ x ∈ pairs, x.1.Carried ∧ x.1.Answered buff x.2) {client : HttpConnection}
    (hopen : client.isConnected = true) (hempty : client.socket.arrivals = []) :
    ∃ next, exchangeAll buff (pairs.map fun x => x.1.exchange) client =
        (pairs.map fun x =>
          .ok (.OK, some (Response.readBack x.2.websocket x.2.cookies x.2.response)), next) ∧
      next.isConnected = true ∧ next.socket.arrivals = [] ∧
      next.spoiled = client.spoiled := by
  induction pairs generalizing client with
  | nil => exact ⟨client, rfl, hopen, hempty, rfl⟩
  | cons x pairs ih =>
      obtain ⟨⟨hc, ha⟩, hrest⟩ := List.forall_mem_cons.mp h
      obtain ⟨c₁, hone, hopen₁, hempty₁, hclean₁⟩ := exchange_of_answered hc ha hopen hempty
      obtain ⟨next, hall, hopen', hempty', hclean⟩ := ih hrest hopen₁ hempty₁
      refine ⟨next, ?_, hopen', hempty', hclean.trans hclean₁⟩
      rw [List.map_cons, exchangeAll, hone]
      dsimp only
      rw [hall]
      rfl

theorem sendResponse_written {sends : List Int} {a : Answer}
    (h : Written sends a.dump.length) : sendResponse ⟨[], false, true⟩ sends a = a.dump := by
  rw [sendResponse]
  dsimp only
  rw [if_pos rfl]
  obtain ⟨hloop, -⟩ | ⟨_, _, -, -, hnot⟩ := writeLoop_cases sends a.dump.length
  · rw [hloop]
    exact List.take_length
  · exact absurd h hnot

/-- What is written of the answers that get across. -/
theorem out_eq {buff : Response.BuffSize} {w : ω} {calls : List Call}
    (h : ∀ x ∈ calls.zip (exchanges p srv w (calls.map Call.incoming)),
      x.1.Answered buff x.2.answer) :
    ∀ e ∈ exchanges p srv w (calls.map Call.incoming), e.out = e.answer.dump := by
  induction calls generalizing w with
  | nil =>
      intro e he
      cases he
  | cons c calls ih =>
      rw [List.map_cons, exchanges] at h ⊢
      generalize srv.answer p c.incoming.request w = res at h ⊢
      obtain ⟨behind, a, w'⟩ := res
      dsimp only at h ⊢
      rw [List.zip_cons_cons, List.forall_mem_cons] at h
      obtain ⟨hfirst, hrest⟩ := h
      refine List.forall_mem_cons.mpr ⟨?_, ih hrest⟩
      dsimp only [Call.incoming]
      exact sendResponse_written hfirst.written

theorem handleClient_calls {calls : List Call} (hcalls : ∀ c ∈ calls, c.Carried) (w : ω)
    (t : Turn) (b : Bool) :
    handleClient p srv (calls.map Call.turn ++ [t]) w ⟨calls.flatMap Call.arrivals, b, true⟩ =
      conversation p srv w (calls.map Call.incoming) b := by
  have hin : ∀ x ∈ calls.map Call.incoming, x.Arrives := by
    intro x hx
    obtain ⟨c, hc, rfl⟩ := List.mem_map.mp hx
    exact arrives_of_carried (hcalls c hc)
  have hserved := handleClient_eq p srv _ hin t w b
  rw [List.map_map, List.flatMap_map] at hserved
  exact hserved

/-- **A conversation.** The requests of a client that get across, each head in
the first read, are received as they were made, with the headers that were added
to them, and the client reads the answers that the servlets make of them, in
their order; all of it up to the request or the answer that is the last, behind
which the server closes. -/
theorem conversation_carried {buff : Response.BuffSize} {calls : List Call}
    (hcalls : ∀ c ∈ calls, c.Carried) {w : ω}
    (hanswers : ∀ x ∈ calls.zip (exchanges p srv w (calls.map Call.incoming)),
      x.1.Answered buff x.2.answer) (t : Turn) (b : Bool) {client : HttpConnection}
    (hopen : client.isConnected = true) (hempty : client.socket.arrivals = []) :
    let es := srv.upToEnd (exchanges p srv w (calls.map Call.incoming))
    let served := handleClient p srv (calls.map Call.turn ++ [t]) w
      ⟨calls.flatMap Call.arrivals, b, true⟩
    served.handled = (calls.take es.length).map (fun c => received c.exchange.req) ∧
      served.written = es.flatMap (fun e => e.answer.dump) ∧ served.ending = .closed ∧
      ∃ next, exchangeAll buff ((calls.take es.length).map Call.exchange) client =
          (es.map fun e => .ok (.OK, some (Response.readBack e.answer.websocket
            e.answer.cookies e.answer.response)), next) ∧
        next.isConnected = true ∧ next.socket.arrivals = [] ∧
        next.spoiled = client.spoiled := by
  intro es served
  have hserved : served = conversation p srv w (calls.map Call.incoming) b :=
    handleClient_calls hcalls w t b
  set all := exchanges p srv w (calls.map Call.incoming) with hall
  have hes : es = all.take es.length := upToEnd_prefix all
  have hlen : all.length = calls.length := by
    rw [hall, length_exchanges, List.length_map]
  refine ⟨?_, ?_, ?_, ?_⟩
  · rw [hserved, conversation, ← List.map_take, List.map_map]
    rfl
  · rw [hserved, conversation]
    refine List.flatMap_congr fun e he => ?_
    rw [← hall] at he
    have hmem : e ∈ all := by
      rw [show srv.upToEnd all = es from rfl, hes] at he
      exact List.mem_of_mem_take he
    exact out_eq hanswers e hmem
  · rw [hserved]
    rfl
  · -- the client makes as many requests as are answered
    set pairs := ((calls.zip all).take es.length).map fun x => (x.1, x.2.answer) with hpairs
    have hcarried : ∀ x ∈ pairs, x.1.Carried ∧ x.1.Answered buff x.2 := by
      intro x hx
      obtain ⟨y, hy, rfl⟩ := List.mem_map.mp hx
      have hy := List.mem_of_mem_take hy
      exact ⟨hcalls _ (List.of_mem_zip hy).1, hanswers y hy⟩
    obtain ⟨next, hrun, hrest⟩ := exchangeAll_eq hcarried hopen hempty
    have hfst : (calls.zip all).map Prod.fst = calls := List.map_fst_zip hlen.ge
    have hsnd : (calls.zip all).map Prod.snd = all := List.map_snd_zip hlen.le
    have hasked : pairs.map (fun x => x.1.exchange) =
        (calls.take es.length).map Call.exchange := by
      conv_rhs => rw [← hfst, ← List.map_take, List.map_map]
      rw [hpairs, List.map_map]
      rfl
    have hread : (pairs.map fun x => Except.ok (Error.OK,
          some (Response.readBack x.2.websocket x.2.cookies x.2.response))) =
        es.map fun e => (.ok (.OK, some (Response.readBack e.answer.websocket
          e.answer.cookies e.answer.response)) :
            Except Response.Fault (Error × Option HttpResponse)) := by
      conv_rhs => rw [hes, ← hsnd, ← List.map_take, List.map_map]
      rw [hpairs, List.map_map]
      rfl
    refine ⟨next, ?_, hrest⟩
    rw [← hasked, hrun, hread]

end Conversations

/-- A servlet that sends the body back, and counts. -/
def echo : Program Unit Unit Unit Nat where
  fnmatch _ _ := 1
  new _ := .function ()
  callback _ req a n := (req, { a with response := a.response.setBody req.body }, n + 1)
  user _ req a n := (req, a, n)

def echoServer : HttpServer Unit Unit Unit where
  isKeepalive := true
  name := text "HPS"
  dispatch := ServletDispatch.new.addServletFunction (text "/echo") ()

/-- A get that keeps the connection, and a post that ends it. -/
def asked : Call where
  exchange :=
    { req := { path := text "/echo", close := false }, websocket := false, sends := [20, 30]
      answer := [Request.arrival
        "HTTP/1.1 200 OK\r\nServer: HPS\r\nconnection: keep-alive\r\n\r\n" (by decide +kernel)]
      broken := false }
  arrivals := [Request.arrival
    "GET /echo HTTP/1.1\r\nconnection: keep-alive\r\n\r\n" (by decide +kernel)]
  turn := ⟨Request.garbage, [100]⟩

def posted : Call where
  exchange :=
    { req := { method := .POST, path := text "/echo", body := text "hi" }
      websocket := false, sends := [100]
      answer := [Request.arrival ("HTTP/1.1 200 OK\r\nServer: HPS\r\nconnection: close\r\n" ++
        "content-length: 2\r\n\r\nh") (by decide +kernel), Request.arrival "i" (by decide +kernel)]
      broken := false }
  arrivals := [Request.arrival ("POST /echo HTTP/1.1\r\nconnection: close\r\n" ++
    "content-length: 2\r\n\r\n") (by decide +kernel), Request.arrival "hi" (by decide +kernel)]
  turn := ⟨Request.garbage, [100]⟩

theorem asked_carried : asked.Carried where
  plain := rfl
  encodable := ⟨by decide +kernel, .inr rfl, ⟨text "echo", rfl, by decide +kernel⟩, rfl, rfl,
    .nil, List.forall_mem_nil _, List.forall_mem_nil _, List.forall_mem_nil _,
    List.forall_mem_nil _⟩
  authority := by
    intro rest h
    exact absurd (List.cons.inj (List.cons.inj h).2).1 (by decide)
  fits := by decide
  sent := ⟨⟨2, by decide, by decide, by decide +kernel⟩, by decide +kernel⟩
  bytes := by decide +kernel
  head := by decide +kernel

theorem posted_carried : posted.Carried where
  plain := rfl
  encodable := ⟨by decide +kernel, .inr rfl, ⟨text "echo", rfl, by decide +kernel⟩, rfl, rfl,
    .nil, List.forall_mem_nil _, List.forall_mem_nil _, List.forall_mem_nil _,
    List.forall_mem_nil _⟩
  authority := by
    intro rest h
    exact absurd (List.cons.inj (List.cons.inj h).2).1 (by decide)
  fits := by decide
  sent := ⟨⟨1, by decide, by decide, by decide +kernel⟩, by decide +kernel⟩
  bytes := by decide +kernel
  head := by decide +kernel

/-- The answers, as the client reads them. -/
def echoed (r : HttpRequest) : Answer where
  response :=
    { close := r.close, body := r.body, headers := [(text "Server", text "HPS")] }

theorem echoed_encodable (r : HttpRequest) (h : r.body.length < 2 ^ 31) :
    Response.Encodable false [] (echoed r).response := by
  refine ⟨.inr rfl, ⟨Int.zero_le_ofNat 200, (by decide : (200 : Int) < 2 ^ 31)⟩,
    List.forall_mem_nil _, ?_, ?_, h⟩
  · intro x hx
    have hx : x ∈ [(text "Server", text "HPS")] := by
      rwa [show (Message.response [] (echoed r).response).entries false =
        [(text "Server", text "HPS")] from rfl] at hx
    obtain rfl := List.mem_singleton.mp hx
    exact .of_check (by decide)
  · intro _ x hx
    have hx : x ∈ [(text "Server", text "HPS")] := by
      rwa [show (Message.response [] (echoed r).response).entries false =
        [(text "Server", text "HPS")] from rfl] at hx
    obtain rfl := List.mem_singleton.mp hx
    decide

theorem echo_conversation :
    (handleClient echo echoServer [asked.turn, posted.turn, asked.turn] 0
      ⟨asked.arrivals ++ posted.arrivals, false, true⟩).handled =
        [received asked.exchange.req, received posted.exchange.req] ∧
      ∃ next, exchangeAll ⟨4096, by decide, by decide⟩ [asked.exchange, posted.exchange]
        (.new 0) = ([.ok (.OK, some (Response.readBack false []
            (echoed asked.exchange.req).response)),
          .ok (.OK, some (Response.readBack false [] (echoed posted.exchange.req).response))],
          next) := by
  have hcarried : ∀ c ∈ [asked, posted], c.Carried := by
    simp only [List.forall_mem_cons]
    exact ⟨asked_carried, posted_carried, List.forall_mem_nil _⟩
  have hexchanges : exchanges echo echoServer 0 ([asked, posted].map Call.incoming) =
      [⟨received asked.exchange.req, echoed asked.exchange.req,
          sendResponse ⟨[], false, true⟩ [100] (echoed asked.exchange.req)⟩,
        ⟨received posted.exchange.req, echoed posted.exchange.req,
          sendResponse ⟨[], false, true⟩ [100] (echoed posted.exchange.req)⟩] := rfl
  have hanswers : ∀ x ∈ [asked, posted].zip (exchanges echo echoServer 0
      ([asked, posted].map Call.incoming)),
      x.1.Answered ⟨4096, by decide, by decide⟩ x.2.answer := by
    rw [hexchanges]
    simp only [List.zip_cons_cons, List.zip_nil_right, List.forall_mem_cons]
    refine ⟨⟨echoed_encodable _ (by decide), ?_, ?_, ?_⟩,
      ⟨echoed_encodable _ (by decide), ?_, ?_, ?_⟩, List.forall_mem_nil _⟩
    · exact ⟨1, by decide, by decide, by decide +kernel⟩
    · decide +kernel
    · decide +kernel
    · exact ⟨1, by decide, by decide, by decide +kernel⟩
    · decide +kernel
    · decide +kernel
  obtain ⟨hhandled, -, -, next, hread, -⟩ := conversation_carried hcarried hanswers asked.turn
    false (show (HttpConnection.new 0).isConnected = true from rfl) rfl
  refine ⟨?_, next, ?_⟩
  · exact hhandled
  · exact hread

end Hps.Pool
