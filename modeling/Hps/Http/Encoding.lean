import Hps.Http.Parts

/-!
# HTTP — reading back what was written

The head that `HttpRequest::dump` writes, read by one call of the parser. The
machine gets to its end (`scan_headText`), or it stops in a path whose
authority is none (`scan_fails`): `execute_toString`.
-/

namespace Hps.Http.Request

open Hps.Lib

/-! ## The whole head -/

theorem ne_of_digit {c d : UInt8} (hc : digit c = true) (hd : digit d = false) :
    c ≠ d := by
  rintro rfl
  rw [hc] at hd
  cases hd

theorem valueOk_decimal (n : Nat) : ValueOk (decimal n) := by
  have hall := List.all_eq_true.mp (decimal_digits n)
  have hfirst : ∀ d, digit d = false → ¬[d] <+: decimal n := by
    intro d hd hpre
    have hmem : d ∈ decimal n := hpre.subset List.mem_cons_self
    exact ne_of_digit (hall d hmem) hd rfl
  refine ⟨fun c hc => ?_, hfirst _ rfl, hfirst _ rfl⟩
  have hdig := hall c hc
  refine ⟨?_, ne_of_digit hdig rfl, ne_of_digit hdig rfl⟩
  simp [httpCtl, ne_of_digit hdig (show digit 0 = false from rfl),
    ne_of_digit hdig (show digit 127 = false from rfl)]

theorem nameOk_connection : NameOk (text "connection") :=
  ⟨by decide +kernel, by decide +kernel, by decide +kernel, by decide +kernel⟩

theorem nameOk_contentLength : NameOk (text "content-length") :=
  ⟨by decide +kernel, by decide +kernel, by decide +kernel, by decide +kernel⟩

theorem valueOk_connection (r : HttpRequest) : ValueOk (connectionValue r) := by
  unfold connectionValue
  split
  · exact ⟨by decide +kernel, by decide +kernel, by decide +kernel⟩
  · exact ⟨by decide +kernel, by decide +kernel, by decide +kernel⟩

/-- The connection and the length are headers like the others. -/
theorem writtenFields_ok {relaxed : Bool} {r : HttpRequest}
    (h : Encodable relaxed r) :
    ∀ x ∈ writtenFields r, NameOk x.1 ∧ ValueOk x.2 := by
  intro x hx
  rcases List.mem_cons.mp hx with rfl | hx
  · exact ⟨nameOk_connection, valueOk_connection r⟩
  · rcases List.mem_append.mp hx with hx | hx
    · exact ⟨h.names x hx, h.values x hx⟩
    · split at hx
      · cases hx
      · obtain rfl := List.mem_singleton.mp hx
        exact ⟨nameOk_contentLength, valueOk_decimal _⟩

/-- The headers of the request that is read: those that were written. -/
def readHeaders (r : HttpRequest) : MapType :=
  let m := MapType.set (text "connection") (connectionValue r) r.headers
  if r.body = [] then m
  else MapType.set (text "content-length") (decimal r.bodySize.toNat) m

theorem setAll_writtenFields {relaxed : Bool} {r : HttpRequest}
    (h : Encodable relaxed r) :
    OrderedMap.setAll NameLess [] (writtenFields r) = readHeaders r := by
  have hconn : OrderedMap.setAll NameLess
      (OrderedMap.set NameLess (text "connection") (connectionValue r) [])
      r.headers = MapType.set (text "connection") (connectionValue r) r.headers := by
    rw [MapType.set_eq]
    exact OrderedMap.setAll_set _ _ [] h.ordered fun x hx =>
      (nameLess_or_of_not_same (h.not_connection x hx)).symm
  rw [writtenFields, OrderedMap.setAll_cons, OrderedMap.setAll_append, hconn,
    readHeaders]
  split
  · rfl
  · rw [OrderedMap.setAll_cons, OrderedMap.setAll_nil, MapType.set_eq _ (decimal _)]

/-- The request that is read. -/
def readBack (r : HttpRequest) : HttpRequest :=
  { r with close := true, body := [], headers := readHeaders r }

theorem exec_end (relaxed : Bool) {m : Marks} (hm : m.socket = false) (p : Nat) :
    (machine relaxed).exec scanAct .line p m (text "\r\n") =
      ⟨.stopped .finished, p + 2, { m with field := p }, [.headerDone]⟩ := by
  have hcr : (machine relaxed).next .line 13 = some (.lineCr, [.startField]) := rfl
  have hlf : (machine relaxed).next .lineCr 10 = some (.finished, [.done]) := rfl
  have htext : text "\r\n" = [13, 10] := rfl
  rw [htext, Machine.exec_cons_step hcr rfl, Machine.exec_cons_stop hlf rfl]
  simp [acts, scanAct, hm, Outcome.after]

/-- **The head is read back.** -/
theorem scan_headText {relaxed : Bool} {r : HttpRequest}
    (h : Encodable relaxed r) (ha : AuthorityOk relaxed r.path) :
    (scan relaxed (headText r)).ending = .stopped .finished ∧
      (scan relaxed (headText r)).pos = (headText r).length ∧
      Makes (headText r) {} (scan relaxed (headText r)).calls (readBack r) := by
  have hb : Piece (headText r) 0 (headText r) := ⟨[], (List.append_nil _).symm⟩
  obtain ⟨m₁, hm₁, hline⟩ := parses_requestLine h ha hb.left
  obtain ⟨m₂, hm₂, hfields⟩ := parses_fields relaxed (m := m₁)
    (r := readLine r) (writtenFields_ok h) hb.right.left
  obtain ⟨ts, hruns, hmakes⟩ := hline.append hfields
  have hend := exec_end relaxed (hm₂.trans hm₁)
  have hhead : headText r =
      (requestLine r ++ (writtenFields r).flatMap fieldLine) ++ text "\r\n" :=
    (List.append_assoc _ _ _).symm
  have hscan : scan relaxed (headText r) = _ :=
    (congrArg _ hhead).trans ((hruns.exec_append _).trans (by rw [hend]))
  rw [hscan]
  refine ⟨rfl, ?_, ?_⟩
  · simp only [Machine.after_pos, hhead, List.length_append, Nat.zero_add]
    rfl
  · have hread : readBack r =
        { readLine r with
          headers := OrderedMap.setAll NameLess (readLine r).headers
            (writtenFields r) } := by
      rw [show (readLine r).headers = [] from rfl, setAll_writtenFields h]
      rfl
    rw [hread]
    exact hmakes.append (Makes.one fun _ hres => hres)

/-! ## Paths that are not taken -/

section Fails

variable {relaxed : Bool}

theorem exec_path_fails {s : PathState} {cs more : List UInt8} {d : UInt8}
    (hs : ∀ re, s ≠ .ipLiteral re) (hh : s ≠ .hierPart)
    (hcs : ∀ c ∈ cs, c ≠ ch ' ' ∧ c ≠ ch '#' ∧ c ≠ ch '?' ∧ c ≠ ch '[')
    (hd : d = ch '/' ∨ d = ch ' ' ∨ d = ch '#' ∨ d = ch '?')
    (hrun : (s.run relaxed cs).any PathState.final = false) (p : Nat) (m : Marks) :
    ((machine relaxed).exec scanAct (.path s) p m (cs ++ d :: more)).ending =
      .failed := by
  induction cs generalizing s p m with
  | nil =>
      have hf : s.final = false := hrun
      have hnext : (machine relaxed).next (.path s) d = none := by
        refine (State.next_path hh d).trans ?_
        simp [uriNext, hf, PathState.next_of_not_final hs hf hd]
      rw [List.nil_append, Machine.exec_cons_none hnext]
  | cons c cs ih =>
      obtain ⟨h1, h2, h3, h4⟩ := hcs c List.mem_cons_self
      have huri : State.next relaxed (.path s) c =
          (s.next relaxed c).map fun s' => (.path s', []) := by
        rw [State.next_path hh, uriNext]
        simp [h1, h2, h3]
      cases hc : s.next relaxed c with
      | none =>
          rw [hc, Option.map_none] at huri
          rw [List.cons_append, Machine.exec_cons_none huri]
      | some s₁ =>
          rw [hc, Option.map_some] at huri
          rw [PathState.run_cons hc] at hrun
          rw [List.cons_append, Machine.exec_cons_step huri rfl]
          exact ih (PathState.next_ne_ipLiteral hs h4 hc)
            (PathState.next_ne_hierPart hc)
            (fun e he => hcs e (List.mem_cons_of_mem c he)) hrun _ _

/-- A sign or a blank ends the path. -/
theorem behind_path (query f rest : List UInt8) :
    ∃ d more, announced (text "?") query ++ (announced (text "#") f ++
      (text " " ++ rest)) = d :: more ∧
      (d = ch '/' ∨ d = ch ' ' ∨ d = ch '#' ∨ d = ch '?') := by
  by_cases hq : query = []
  · by_cases hf : f = []
    · exact ⟨ch ' ', rest, by rw [hq, hf]; rfl, .inr (.inl rfl)⟩
    · refine ⟨ch '#', f ++ (text " " ++ rest), ?_, .inr (.inr (.inl rfl))⟩
      rw [hq, announced, announced, if_pos rfl, if_neg hf]
      rfl
  · refine ⟨ch '?', query ++ (announced (text "#") f ++ (text " " ++ rest)), ?_,
      .inr (.inr (.inr rfl))⟩
    rw [announced, if_neg hq]
    rfl

/-- A slash, or what ends the path, ends the authority. -/
theorem behind_authority {d₀ : UInt8} (rest more₀ : List UInt8)
    (hd₀ : d₀ = ch '/' ∨ d₀ = ch ' ' ∨ d₀ = ch '#' ∨ d₀ = ch '?') :
    ∃ d more, rest ++ d₀ :: more₀ =
      rest.takeWhile (· != ch '/') ++ d :: more ∧
      (d = ch '/' ∨ d = ch ' ' ∨ d = ch '#' ∨ d = ch '?') := by
  have hsplit := List.takeWhile_append_dropWhile (p := (· != ch '/')) (l := rest)
  cases hdrop : rest.dropWhile (· != ch '/') with
  | nil =>
      rw [hdrop, List.append_nil] at hsplit
      exact ⟨d₀, more₀, by rw [hsplit], hd₀⟩
  | cons x xs =>
      have hx : x = ch '/' := by
        have := List.head?_dropWhile_not (· != ch '/') rest
        simpa [hdrop] using this
      refine ⟨x, xs ++ d₀ :: more₀, ?_, .inl hx⟩
      calc rest ++ d₀ :: more₀
          = rest.takeWhile (· != ch '/') ++ rest.dropWhile (· != ch '/') ++
              d₀ :: more₀ := by rw [hsplit]
        _ = rest.takeWhile (· != ch '/') ++ x :: (xs ++ d₀ :: more₀) := by
              rw [hdrop, List.append_assoc, List.cons_append]

/-- **A path whose authority is none is not taken.** -/
theorem scan_fails {r : HttpRequest} (h : Encodable relaxed r)
    (ha : ¬AuthorityOk relaxed r.path) :
    (scan relaxed (headText r)).ending = .failed := by
  simp only [AuthorityOk, not_forall] at ha
  obtain ⟨rest, hpath, hauth⟩ := ha
  obtain ⟨rest', hpath', hunits⟩ := h.path
  obtain rfl : rest' = ch '/' :: rest := by
    rw [hpath] at hpath'
    exact (List.cons.inj hpath').2.symm
  rw [units_cons (by decide), Bool.and_eq_true] at hunits
  have hne : ∀ c ∈ rest.takeWhile (· != ch '/'),
      c ≠ ch ' ' ∧ c ≠ ch '#' ∧ c ≠ ch '?' ∧ c ≠ ch '[' := fun c hc =>
    segments_ne hunits.2 c (List.takeWhile_subset _ hc)
  obtain ⟨d₀, more₀, hbehind, hd₀⟩ := behind_path r.query r.fragment
    (versionLine r.version ++ ((writtenFields r).flatMap fieldLine ++ text "\r\n"))
  obtain ⟨d, more, hmore, hd⟩ := behind_authority rest more₀ hd₀
  have htext : headText r = (httpMethodToString r.method ++ text " ") ++
      ch '/' :: ch '/' :: (rest.takeWhile (· != ch '/') ++ d :: more) := by
    simp only [← hmore, ← hbehind, headText, requestLine, hpath, List.append_assoc,
      List.cons_append]
  have hb : Piece (headText r) 0 (headText r) := ⟨[], (List.append_nil _).symm⟩
  have hmethod : Parses relaxed (headText r) .start 0 {} {}
      (httpMethodToString r.method ++ text " ") .uri {}
      (({} : HttpRequest).setMethod r.method) :=
    parses_method h.method hb.left.left
  obtain ⟨ts, hruns, -⟩ := hmethod
  have h1 : (machine relaxed).next .uri (ch '/') = some (.path .slash, [.mark]) := rfl
  have h2 : (machine relaxed).next (.path .slash) (ch '/') =
    some (.path .authority, []) := rfl
  have hauth' : (PathState.run relaxed .authority
      (rest.takeWhile (· != ch '/'))).any PathState.final = false :=
    eq_false_of_ne_true hauth
  rw [scan, htext, hruns.exec_append, Machine.exec_cons_step h1 rfl,
    Machine.exec_cons_step h2 rfl]
  refine exec_path_fails ?_ ?_ hne hd hauth' _ _
  · intro re heq
    cases heq
  · intro heq
    cases heq

end Fails

/-! ## Decoding what was encoded -/

theorem connection_ne_contentLength :
    NameLess (text "content-length") (text "connection") ∨
      NameLess (text "connection") (text "content-length") :=
  nameLess_or_of_not_same (by decide)

/-- The connection header of the request that is read. -/
theorem find_connection (r : HttpRequest) :
    (readHeaders r).find (text "connection") = some (connectionValue r) := by
  rw [MapType.find_eq, readHeaders]
  split
  · rw [MapType.set_eq, OrderedMap.find_set_self]
  · rw [MapType.set_eq, OrderedMap.find_set_of_lt_or_gt connection_ne_contentLength,
      MapType.set_eq, OrderedMap.find_set_self]

theorem find_contentLength {r : HttpRequest} (h : r.body ≠ []) :
    (readHeaders r).find (text "content-length") =
      some (decimal r.bodySize.toNat) := by
  rw [MapType.find_eq, readHeaders, if_neg h, MapType.set_eq,
    OrderedMap.find_set_self]

/-- The other headers are those of the request that was written. -/
theorem find_readHeaders {name : List UInt8} (r : HttpRequest)
    (hc : ¬SameName (text "connection") name)
    (hl : ¬SameName (text "content-length") name) :
    (readHeaders r).find name = r.headers.find name := by
  rw [MapType.find_eq, MapType.find_eq, readHeaders]
  split
  · rw [MapType.set_eq, OrderedMap.find_set_of_lt_or_gt (nameLess_or_of_not_same hc)]
  · rw [MapType.set_eq, OrderedMap.find_set_of_lt_or_gt (nameLess_or_of_not_same hl),
      MapType.set_eq, OrderedMap.find_set_of_lt_or_gt (nameLess_or_of_not_same hc)]

theorem init_close (r : HttpRequest) : (readBack r).init.close = r.close := by
  have hget : (readBack r).getHeader (text "connection") [] = connectionValue r := by
    rw [HttpRequest.getHeader]
    exact congrArg (·.getD []) (find_connection r)
  rw [HttpRequest.init, hget, connectionValue]
  cases r.close <;> rfl

/-- What one call of `execute` on what `toString` wrote has to show: the bytes
it reads, the parser, and the buffer, with the body at its front. -/
structure Decodes (u : Uninit) (r : HttpRequest) (n : Nat)
    (p : HttpRequestParser) (data : List UInt8) : Prop where
  executes : HttpRequestParser.execute (.new u) (r.toString false)
    (r.toString false).length = .ok (n, p, data)
  no_error : p.hasError = false
  finished : p.isFinished = 1
  consumed : n + r.body.length = (r.toString false).length
  body : data.take r.body.length = r.body
  read : p.data = readBack r
  close : p.data.init.close = r.close
  contentLength : r.body ≠ [] → p.getContentLength = r.bodySize

/-- A request that was written is read back. -/
theorem decodes_of_authority (u : Uninit) (r : HttpRequest)
    (h : Encodable u.uriRelaxed r) (ha : AuthorityOk u.uriRelaxed r.path) :
    ∃ n p data, Decodes u r n p data := by
  obtain ⟨hend, hpos, hmakes⟩ := scan_headText h ha
  have htext := toString_eq h.not_connection
  have hne : headText r ≠ [] := by
    intro hnil
    rw [hnil] at hend
    cases hend
  rw [scan] at hend hpos hmakes
  obtain ⟨n, s', res, hcs, hpos', -, hreads, hexec⟩ := execute_reads
    (fun _ _ => True) r.body r.body.length (registers_init u) rfl hne
    (b := headText r) (k := 0) ⟨[], (List.append_nil _).symm⟩
    (.inr fun q' hq => by rw [hend] at hq; cases hq)
    (scan_wellFormed u.uriRelaxed) (fun e _ _ => (rfl : (fun _ => 0) e = 0))
    (fun _ _ => trivial) {}
  obtain rfl : n = (headText r).length := by omega
  rw [hend] at hcs
  rw [hmakes res hreads, ← List.length_append, ← htext] at hexec
  refine ⟨_, _, _, {
    executes := hexec
    no_error := ?_
    finished := ?_
    consumed := ?_
    body := ?_
    read := rfl
    close := init_close r
    contentLength := ?_ }⟩
  · simp [HttpRequestParser.hasError, HttpParser.hasError, hcs, endState]
  · simp [HttpRequestParser.isFinished, HttpParser.finish, HttpParser.hasError,
      HttpParser.isFinished, hcs, endState, State.final]
  · rw [htext, List.length_append]
  · rw [List.take_length, List.drop_left, List.take_left]
  · intro hb
    have hget : (readBack r).headers.find (text "content-length") =
      some (decimal r.bodySize.toNat) := find_contentLength hb
    rw [HttpRequestParser.getContentLength, HttpRequest.getHeaderAsU64,
      MapType.getAsU64, hget, Option.bind_some, lexicalCastU64_decimal,
      Option.getD_some]

/-- What was read back had an authority where the grammar wants one. -/
theorem authority_of_decodes {u : Uninit} {r : HttpRequest}
    (h : Encodable u.uriRelaxed r) {n : Nat} {p : HttpRequestParser}
    {data : List UInt8} (hdec : Decodes u r n p data) :
    AuthorityOk u.uriRelaxed r.path := by
  by_contra ha
  have hend := scan_fails h ha
  have hne : headText r ≠ [] := by
    intro hnil
    rw [hnil] at hend
    cases hend
  rw [scan] at hend
  obtain ⟨n', s', res, hcs, -, -, hreads, hexec⟩ := execute_reads
    (fun _ _ => True) r.body r.body.length (registers_init u) rfl hne
    (b := headText r) (k := 0) ⟨[], (List.append_nil _).symm⟩
    (.inr fun q' hq => by rw [hend] at hq; cases hq)
    (scan_wellFormed u.uriRelaxed) (fun e _ _ => (rfl : (fun _ => 0) e = 0))
    (fun _ _ => trivial) {}
  have hrun := hdec.executes
  rw [toString_eq h.not_connection, List.length_append] at hrun
  have herr := hdec.no_error
  rw [HttpRequestParser.hasError, Bool.or_eq_false_iff] at herr
  cases res with
  | none =>
      have := hexec _ hrun
      simp [this] at herr
  | some r' =>
      rw [hend] at hcs
      cases hrun.symm.trans hexec
      simp [HttpParser.hasError, hcs, endState] at herr

/-- **A request that was written is read back exactly if what its path has
for an authority is one.** -/
theorem execute_toString (u : Uninit) (r : HttpRequest)
    (h : Encodable u.uriRelaxed r) :
    (∃ n p data, Decodes u r n p data) ↔ AuthorityOk u.uriRelaxed r.path := by
  constructor
  · rintro ⟨n, p, data, hdec⟩
    exact authority_of_decodes h hdec
  · exact decodes_of_authority u r h

/-- A post with everything a request can have. -/
def posted : HttpRequest where
  method := .POST
  close := false
  path := text "/a%20b/c"
  query := text "id=1"
  fragment := text "top"
  body := text "x=1"
  headers := [(text "Accept", text "*/*; q=1"), (text "X-Empty", [])]

theorem posted_encodable : Encodable false posted where
  method := by decide +kernel
  version := .inr rfl
  path := ⟨text "a%20b/c", rfl, by decide +kernel⟩
  query := by decide +kernel
  fragment := by decide +kernel
  ordered := by decide +kernel
  names := by
    simp only [posted, List.forall_mem_cons]
    refine ⟨⟨?_, ?_, ?_, ?_⟩, ⟨?_, ?_, ?_, ?_⟩, nofun⟩ <;> decide +kernel
  not_connection := by decide +kernel
  not_contentLength := by decide +kernel
  values := by
    simp only [posted, List.forall_mem_cons]
    refine ⟨⟨?_, ?_, ?_⟩, ⟨?_, ?_, ?_⟩, nofun⟩ <;> decide +kernel

theorem posted_decodes : Encodable false posted ∧
    ∃ n p data, Decodes ⟨0, false⟩ posted n p data :=
  ⟨posted_encodable,
    (execute_toString ⟨0, false⟩ posted posted_encodable).mpr nofun⟩

/-- A path whose second segment is no authority. -/
def twoSlashes : HttpRequest := { path := text "//a:b" }

theorem twoSlashes_not_decoded : Encodable false twoSlashes ∧
    ¬∃ n p data, Decodes ⟨0, false⟩ twoSlashes n p data := by
  have henc : Encodable false twoSlashes :=
    ⟨by decide +kernel, .inr rfl, ⟨text "/a:b", rfl, by decide +kernel⟩, rfl, rfl,
      .nil, nofun, nofun, nofun, nofun⟩
  refine ⟨henc, ?_⟩
  rintro ⟨n, p, data, hdec⟩
  have := authority_of_decodes henc hdec (text "a:b") rfl
  revert this
  decide +kernel

end Hps.Http.Request
