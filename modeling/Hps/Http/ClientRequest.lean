import Hps.Http.Encoding
import Hps.Uri.Model

/-!
# HTTP — the requests of a client

`HttpConnection::DoRequest` and `HttpConnectionPool::doRequest` make a request
out of an URI, a map of headers and a body. What their loop over the headers
leaves (`addHeaders_eq`), and when a pool sends the same text as a connection
(`poolRequest_toString_iff`).
-/

namespace Hps.Http

open Hps.Lib

/-! ## Making requests -/

/-- A turn of the loop over `headers`, with `has_host`. -/
def addHeader (a : HttpRequest × Bool) (i : List UInt8 × List UInt8) : HttpRequest × Bool :=
  let (req, hasHost) := a
  if strcasecmp i.1 (text "connection") = .eq then
    (if strcasecmp i.2 (text "keep-alive") = .eq then { req with close := false } else req,
      hasHost)
  else
    let hasHost :=
      if !hasHost && strcasecmp i.1 (text "host") == .eq then !i.2.isEmpty else hasHost
    (req.setHeader i.1 i.2, hasHost)

/-- The loop, and the `Host` behind it. -/
def addHeaders (headers : List (List UInt8 × List UInt8)) (host : List UInt8)
    (req : HttpRequest) : HttpRequest :=
  let (req, hasHost) := headers.foldl addHeader (req, false)
  if !hasHost then req.setHeader (text "Host") host else req

/-- The request of `HttpConnection::DoRequest(method, uri, timeout_ms, headers,
body)`. -/
def connectionRequest (method : HttpMethod) (uri : Uri)
    (headers : List (List UInt8 × List UInt8)) (body : List UInt8) : HttpRequest :=
  let req : HttpRequest := {}
  let req := req.setPath uri.getPath
  let req := req.setQuery uri.getQuery
  let req := req.setFragment uri.getFragment
  let req := req.setMethod method
  (addHeaders headers uri.getHost req).setBody body

/-- The members of `HttpConnectionPool` that go into a request. -/
structure PoolHost where
  host : List UInt8
  vhost : List UInt8

/-- The request of `HttpConnectionPool::doRequest(method, url, timeout_ms,
headers, body)`. -/
def poolRequest (pool : PoolHost) (method : HttpMethod) (url : List UInt8)
    (headers : List (List UInt8 × List UInt8)) (body : List UInt8) : HttpRequest :=
  let req : HttpRequest := {}
  let req := req.setPath url
  let req := req.setMethod method
  let req := { req with close := false }
  (addHeaders headers (if pool.vhost = [] then pool.host else pool.vhost) req).setBody body

/-- The url that the pool makes of an URI. -/
def poolUrl (uri : Uri) : List UInt8 :=
  uri.getPath ++ (if uri.getQuery = [] then [] else text "?") ++ uri.getQuery ++
    (if uri.getFragment = [] then [] else text "#") ++ uri.getFragment

/-! ## The loop over the headers -/

/-- The headers that are not those of the connection. -/
def kept (headers : List (List UInt8 × List UInt8)) : List (List UInt8 × List UInt8) :=
  headers.filter fun i => !decide (SameName i.1 (text "connection"))

def AsksKeepAlive (headers : List (List UInt8 × List UInt8)) : Prop :=
  ∃ i ∈ headers, SameName i.1 (text "connection") ∧ SameName i.2 (text "keep-alive")

/-- A host is named. -/
def NamesHost (headers : List (List UInt8 × List UInt8)) : Prop :=
  ∃ i ∈ headers, SameName i.1 (text "host") ∧ i.2 ≠ []

instance (headers : List (List UInt8 × List UInt8)) : Decidable (AsksKeepAlive headers) :=
  inferInstanceAs (Decidable (∃ i ∈ headers, _ ∧ _))

instance (headers : List (List UInt8 × List UInt8)) : Decidable (NamesHost headers) :=
  inferInstanceAs (Decidable (∃ i ∈ headers, _ ∧ _))

/-- The header that is added, if no host is named. -/
def hostLine (headers : List (List UInt8 × List UInt8)) (host : List UInt8) :
    List (List UInt8 × List UInt8) :=
  if NamesHost headers then [] else [(text "Host", host)]

section Loop

variable {headers : List (List UInt8 × List UInt8)} {host : List UInt8} {req : HttpRequest}

theorem connection_ne_host {name : List UInt8} (h : SameName name (text "connection")) :
    ¬SameName name (text "host") := by
  intro h'
  rw [SameName, strcasecmp_eq_compare, Std.LawfulEqOrd.compare_eq_iff_eq] at h h'
  exact absurd (h.symm.trans h') (by decide)

theorem foldl_addHeader (hasHost : Bool) :
    headers.foldl addHeader (req, hasHost) =
      ({ req with
          close := req.close && !decide (AsksKeepAlive headers)
          headers := OrderedMap.setAll NameLess req.headers (kept headers) },
        hasHost || decide (NamesHost headers)) := by
  induction headers generalizing req hasHost with
  | nil => simp [AsksKeepAlive, NamesHost, kept]
  | cons i headers ih =>
      have hasks : AsksKeepAlive (i :: headers) ↔ (SameName i.1 (text "connection") ∧
          SameName i.2 (text "keep-alive")) ∨ AsksKeepAlive headers :=
        List.exists_mem_cons_iff _ _ _
      have hnames : NamesHost (i :: headers) ↔
          (SameName i.1 (text "host") ∧ i.2 ≠ []) ∨ NamesHost headers :=
        List.exists_mem_cons_iff _ _ _
      have hkept : kept (i :: headers) =
          if SameName i.1 (text "connection") then kept headers else i :: kept headers := by
        by_cases hc : SameName i.1 (text "connection") <;> simp [kept, hc]
      rw [List.foldl_cons, addHeader]
      dsimp only
      by_cases hc : SameName i.1 (text "connection")
      · have hh := connection_ne_host hc
        have hc' : strcasecmp i.1 (text "connection") = .eq := hc
        rw [if_pos hc', ih]
        by_cases hk : SameName i.2 (text "keep-alive")
        · have hk' : strcasecmp i.2 (text "keep-alive") = .eq := hk
          simp [hasks, hnames, hkept, hc, hh, hk, hk']
        · have hk' : strcasecmp i.2 (text "keep-alive") ≠ .eq := hk
          simp [hasks, hnames, hkept, hc, hh, hk, hk']
      · have hc' : strcasecmp i.1 (text "connection") ≠ .eq := hc
        rw [if_neg hc', ih]
        have hset : (req.setHeader i.1 i.2).headers =
            OrderedMap.set NameLess i.1 i.2 req.headers := MapType.set_eq _ _ _
        have hfound : (if (!hasHost && strcasecmp i.1 (text "host") == .eq) = true then !i.2.isEmpty
            else hasHost) = (hasHost || decide (SameName i.1 (text "host") ∧ i.2 ≠ [])) := by
          have hsame : (strcasecmp i.1 (text "host") == .eq) =
              decide (SameName i.1 (text "host")) := by
            rw [beq_eq_decide]
            rfl
          rw [hsame]
          cases hasHost with
          | true => rfl
          | false =>
              by_cases hn : SameName i.1 (text "host")
              · cases hv : i.2 <;> simp [hn]
              · simp [hn]
        rw [hfound, hset]
        simp [hasks, hnames, hkept, hc, HttpRequest.setHeader, Bool.or_assoc]

/-- **What the loop leaves**: the headers but for those of the connection, with
the host behind them if none of them names one. -/
theorem addHeaders_eq :
    addHeaders headers host req =
      { req with
        close := req.close && !decide (AsksKeepAlive headers)
        headers :=
          OrderedMap.setAll NameLess req.headers (kept headers ++ hostLine headers host) } := by
  rw [addHeaders, foldl_addHeader, hostLine]
  by_cases h : NamesHost headers
  · simp [h]
  · simp [h, HttpRequest.setHeader, MapType.set_eq, OrderedMap.setAll_append]

end Loop

/-! ## A pool and a connection -/

section Agreement

variable {pool : PoolHost} {method : HttpMethod} {uri : Uri}
  {headers : List (List UInt8 × List UInt8)} {body : List UInt8}

/-- The host that the pool names, if none is named. -/
def PoolHost.name (pool : PoolHost) : List UInt8 :=
  if pool.vhost = [] then pool.host else pool.vhost

theorem connectionRequest_eq :
    connectionRequest method uri headers body =
      { method, path := uri.getPath, query := uri.getQuery, fragment := uri.getFragment, body,
        close := !decide (AsksKeepAlive headers)
        headers := OrderedMap.setAll NameLess []
          (kept headers ++ hostLine headers uri.getHost) } := by
  rw [connectionRequest, addHeaders_eq]
  simp [HttpRequest.setPath, HttpRequest.setQuery, HttpRequest.setFragment,
    HttpRequest.setMethod, HttpRequest.setBody]

theorem poolRequest_eq {url : List UInt8} :
    poolRequest pool method url headers body =
      { method, path := url, body, close := false
        headers := OrderedMap.setAll NameLess []
          (kept headers ++ hostLine headers pool.name) } := by
  rw [poolRequest, addHeaders_eq]
  simp [HttpRequest.setPath, HttpRequest.setMethod, HttpRequest.setBody, PoolHost.name]

/-- The header lines of a request as they are written. -/
def headersText (websocket : Bool) (m : MapType) : List UInt8 :=
  m.flatMap fun i =>
    if !websocket && strcasecmp i.1 (text "connection") == .eq then []
    else i.1 ++ (text ": " ++ (i.2 ++ text "\r\n"))

theorem key_not_connection {x : List UInt8 × List UInt8}
    (h : x ∈ OrderedMap.setAll NameLess [] (kept headers)) :
    ¬SameName x.1 (text "connection") := by
  obtain ⟨y, hy, hkey⟩ := (OrderedMap.mem_setAll h).1
  rw [← hkey]
  simpa using (List.mem_filter.mp hy).2

/-- The lines are the same exactly if the hosts are, where one is added. -/
theorem headersText_iff (websocket : Bool) (host host' : List UInt8) :
    headersText websocket (OrderedMap.setAll NameLess []
        (kept headers ++ hostLine headers host)) =
      headersText websocket (OrderedMap.setAll NameLess []
        (kept headers ++ hostLine headers host')) ↔
      NamesHost headers ∨ host = host' := by
  by_cases hnames : NamesHost headers
  · simp [hostLine, hnames]
  · rw [or_iff_right hnames, hostLine, hostLine, if_neg hnames, if_neg hnames,
      OrderedMap.setAll_append, OrderedMap.setAll_append]
    obtain ⟨k, front, behind, hset⟩ := OrderedMap.exists_set (r := NameLess) (ν := List UInt8)
      (text "Host") (OrderedMap.setAll NameLess [] (kept headers))
    have hkey : ¬SameName k (text "connection") := by
      have hmem : (k, ([] : List UInt8)) ∈ OrderedMap.set NameLess (text "Host") []
          (OrderedMap.setAll NameLess [] (kept headers)) := by
        rw [hset]
        simp
      rcases (OrderedMap.mem_set hmem).1 with rfl | ⟨y, hy, hyk⟩
      · decide
      · obtain rfl : y.1 = k := hyk
        exact key_not_connection hy
    have hskip : (!websocket && strcasecmp k (text "connection") == .eq) = false := by
      have hne : (strcasecmp k (text "connection") == .eq) = false := by simpa [SameName] using hkey
      rw [hne, Bool.and_false]
    have htext : ∀ v, headersText websocket (OrderedMap.setAll NameLess
        (OrderedMap.setAll NameLess [] (kept headers)) [(text "Host", v)]) =
        headersText websocket front ++ (k ++ (text ": " ++ (v ++ (text "\r\n" ++
          headersText websocket behind)))) := by
      intro v
      rw [OrderedMap.setAll_cons, OrderedMap.setAll_nil, hset, headersText, List.flatMap_append,
        List.flatMap_cons]
      simp only [hskip, headersText, List.append_assoc, Bool.false_eq_true, if_false]
    rw [htext, htext]
    simp only [List.append_cancel_left_eq, List.append_cancel_right_eq]

/-- **A pool sends the text that a connection of its own would be sent**
exactly if the connection is to be kept alive, or nothing is written of it, and
the hosts that are named are the same. -/
theorem poolRequest_toString_iff (pool : PoolHost) (method : HttpMethod) (uri : Uri)
    (headers : List (List UInt8 × List UInt8)) (body : List UInt8) (websocket : Bool) :
    (poolRequest pool method (poolUrl uri) headers body).toString websocket =
        (connectionRequest method uri headers body).toString websocket ↔
      (websocket = true ∨ AsksKeepAlive headers) ∧
        (NamesHost headers ∨ pool.name = uri.getHost) := by
  have hlines : ∀ m : MapType, (m.flatMap fun i =>
      if !websocket && strcasecmp i.1 (text "connection") == .eq then []
      else i.1 ++ (text ": " ++ (i.2 ++ text "\r\n"))) = headersText websocket m := fun _ => rfl
  rw [connectionRequest_eq, poolRequest_eq, ← headersText_iff websocket]
  simp only [HttpRequest.toString, HttpRequest.dump, poolUrl, HttpRequest.bodySize,
    List.append_assoc, List.append_cancel_left_eq, if_true, List.nil_append, hlines]
  cases websocket with
  | true => simp only [Bool.not_true, Bool.false_eq_true, if_false, List.nil_append,
      List.append_cancel_right_eq, true_or, true_and]
  | false =>
      by_cases hasks : AsksKeepAlive headers
      · simp only [hasks, decide_true, Bool.not_true, Bool.not_false, Bool.false_eq_true, if_false,
          if_true, List.append_cancel_left_eq, List.append_cancel_right_eq, or_true, true_and]
      · -- `keep-alive` and `close` differ in their first byte
        have hdiffer : ∀ xs ys : List UInt8, text "keep-alive" ++ xs ≠ text "close" ++ ys := by
          intro xs ys h
          exact absurd (List.cons.inj h).1 (by decide)
        simp only [hasks, decide_false, Bool.not_false, if_true, Bool.false_eq_true, if_false,
          List.append_assoc, List.append_cancel_left_eq, or_self, false_and, iff_false]
        exact hdiffer _ _

end Agreement

/-! ## Reading a request -/

namespace Request

/-- The head of what was written is read on its own. -/
theorem parseHead_headText {r : HttpRequest} {u : Uninit} (h : Encodable u.uriRelaxed r)
    (ha : AuthorityOk u.uriRelaxed r.path) :
    parseHead u (headText r) = some (readBack r) := by
  obtain ⟨hend, hpos, hmakes⟩ := scan_headText h ha
  have hne : headText r ≠ [] := by
    intro hnil
    rw [hnil] at hend
    cases hend
  rw [scan] at hend hpos hmakes
  obtain ⟨n, s', res, hcs, hpos', -, hreads, hexec⟩ := execute_reads
    (fun _ _ => True) [] 0 (registers_init u) rfl hne
    (b := headText r) (k := 0) ⟨[], (List.append_nil _).symm⟩ (.inl rfl)
    (scan_wellFormed u.uriRelaxed) (fun e _ _ => (rfl : (fun _ => 0) e = 0))
    (fun _ _ => trivial) {}
  obtain rfl : n = (headText r).length := by omega
  rw [hend] at hcs
  rw [hmakes res hreads, List.append_nil] at hexec
  have hfine : HttpRequestParser.hasError ⟨s', readBack r, 0⟩ = false := by
    simp [HttpRequestParser.hasError, HttpParser.hasError, hcs, endState]
  have hdone : HttpRequestParser.isFinished ⟨s', readBack r, 0⟩ = 1 := by
    simp [HttpRequestParser.isFinished, HttpParser.finish, HttpParser.hasError,
      HttpParser.isFinished, hcs, endState, State.final]
  have hok : HttpRequestParser.execute (.new u) (headText r)
      (headText r).length = .ok ((headText r).length,
        ⟨s', readBack r, 0⟩, _) := hexec
  rw [parseHead, hok]
  exact if_pos ⟨rfl, hfine, hdone⟩

/-- A head that is read has an authority where the grammar wants one. -/
theorem authority_of_parseHead {r q : HttpRequest} {u : Uninit}
    (h : Encodable u.uriRelaxed r) (hq : parseHead u (headText r) = some q) :
    AuthorityOk u.uriRelaxed r.path := by
  by_contra ha
  obtain ⟨-, ⟨q, hstop⟩, -⟩ := parseHead_reads hq
  rw [scan_fails h ha] at hstop
  cases hstop

end Request

end Hps.Http
