import Hps.Http.Receiving
import Hps.Http.Splitting

/-!
# HTTP — requests that arrive in fragments

`HttpSession::recvRequest` keeps the state of the machine between two reads
and nothing else. A head that arrives in fragments gives the request of the
head read at once exactly if no fragment ends in a token that matters
(`recvRequest_split_iff`).
-/

namespace Hps.Http.Request

open Hps.Lib

/-- The requests have the same line and the same headers. -/
def SameHead (r r' : HttpRequest) : Prop := ∀ κ, part r κ = part r' κ

theorem sameHead_iff {r r' : HttpRequest} :
    SameHead r r' ↔ SameLine r r' ∧ r.headers = r'.headers := by
  constructor
  · intro h
    exact ⟨fun κ _ => h κ, Value.headers.inj (h .headers)⟩
  · rintro ⟨hline, hheaders⟩ κ
    by_cases hκ : κ = .headers
    · subst hκ
      exact congrArg Value.headers hheaders
    · exact hline κ hκ

theorem part_init (r : HttpRequest) (κ : Part) : part r.init κ = part r κ := by
  unfold HttpRequest.init
  dsimp only
  split
  · rfl
  · cases κ <;> rfl

theorem part_setBody (r : HttpRequest) (c : List UInt8) (κ : Part) :
    part (r.setBody c) κ = part r κ := by
  cases κ <;> rfl

/-- What the fragments leave of a head: of every token what the request needs,
and fields that still give the same map. -/
structure KeepsHead (relaxed : Bool) (b : List UInt8) (fs : List (List UInt8)) :
    Prop where
  line : ∀ t ∈ (scan relaxed b).calls, t.Intact b (t.start (pieceStart 0 fs))
  headers : headerMap b (pieceStart 0 fs) [] (scan relaxed b).calls =
    headerMap b (fun _ => 0) [] (scan relaxed b).calls

/-- The body that the head announces follows it, and its length is positive as
an `int`. -/
def BodyFollows (r : HttpRequest) (rest : List Arrival) : Prop :=
  toInt64 (r.getHeaderAsU64 (text "content-length") 0) ≤ (flat rest).length ∧
    (0 < toInt64 (r.getHeaderAsU64 (text "content-length") 0) →
      0 < toInt32 (toInt64 (r.getHeaderAsU64 (text "content-length") 0)))

/-- Behind the head, only the body and `close` are set. -/
theorem recvBody_same {h : Head} {s s' : Socket} {r' : HttpRequest}
    (hr : recvBody h s = (some r', s')) : SameHead h.parser.data r' := by
  have hset : ∀ c, SameHead h.parser.data (h.parser.data.setBody c).init := fun c κ => by
    rw [part_init, part_setBody]
  have hdata : SameHead h.parser.data h.parser.data.init := fun κ =>
    (part_init _ κ).symm
  simp only [recvBody] at hr
  split_ifs at hr <;> cases hr
  · exact hset _
  · exact hset _
  · exact hdata

/-- A body that is there is read. -/
theorem recvBody_some {h : Head} {s : Socket} (hoff : h.offset = 0)
    (hs : s.connected = true) (hbody : BodyFollows h.parser.data s.arrivals) :
    ∃ r' s', recvBody h s = (some r', s') := by
  obtain ⟨hle, hint⟩ := hbody
  by_cases hpos : 0 < toInt64 h.parser.getContentLength
  · obtain ⟨n, hn⟩ := Int.eq_ofNat_of_zero_le hpos.le
    have hbytes : n ≤ s.bytes.length := by
      have : toInt64 h.parser.getContentLength ≤ s.bytes.length := hle
      omega
    have hlen : (s.bytes.take n).length = n := by
      rw [List.length_take, Nat.min_eq_left hbytes]
    have hfit : 0 < toInt32 (s.bytes.take n).length := by
      rw [hlen, ← hn]
      exact hint hpos
    have hall : toInt64 h.parser.getContentLength =
        (([] ++ s.bytes.take n).length : Nat) := by
      rw [List.nil_append, hlen, hn]
    exact ⟨_, _, recvBody_eq hall rfl hoff hs (List.take_prefix n s.bytes) (.inr hfit)⟩
  · refine ⟨h.parser.data.init, s, ?_⟩
    simp only [recvBody]
    exact if_neg hpos

section Split

variable {g : Garbage} {b : List UInt8} {r : HttpRequest} {fs : List Arrival}
  {rest : List Arrival} {sock : Socket}

/-- The head loop on fragments, beside the head read at once. -/
theorem recvHead_split (h : parseHead g.toUninit b = some r) (hb : flat fs = b)
    (h100 : ∀ a ∈ fs, a.bytes.length ≤ buffSize)
    (harr : sock.arrivals = fs ++ rest) (hconn : sock.connected = true) :
    ∃ res, Leaves (recvHead (sock.bytes.length + 1) (.new g.toUninit) g.buffer 0 sock)
        { sock with arrivals := rest } res ∧
      ((∃ r₁, res = some r₁ ∧ SameHead r r₁) ↔
        KeepsHead g.uriRelaxed b (fs.map Arrival.bytes)) := by
  obtain ⟨-, ⟨q, hstop⟩, hpos, hone⟩ := parseHead_reads h
  have hwf := scan_wellFormed (b := b) g.uriRelaxed
  have hfuel : fs.length ≤ sock.bytes.length + 1 := by
    have := length_le_flat fs
    rw [Socket.bytes_eq, harr, flat, List.map_append, List.flatten_append,
      List.length_append]
    exact (this.trans (Nat.le_add_right _ _)).trans (Nat.le_succ _)
  have hloop : ∃ res, ReadsAll (fun _ _ => True) b
      (pieceStart 0 (fs.map Arrival.bytes)) {} (scan g.uriRelaxed b).calls res ∧
      Leaves (recvHead (sock.bytes.length + 1) (.new g.toUninit) g.buffer 0 sock)
        { sock with arrivals := rest } res :=
    recvHead_reads fs (registers_init g.toUninit) rfl rfl
      ⟨hb.symm, Nat.zero_le _, h100, ⟨q, hstop⟩, hpos, hwf, fun _ _ => rfl⟩
      hfuel harr hconn
  obtain ⟨res, hreads, hleaves⟩ := hloop
  refine ⟨res, hleaves, ?_⟩
  have hplaced : ∀ t ∈ (scan g.uriRelaxed b).calls,
      Placed b (pieceStart 0 (fs.map Arrival.bytes)) t := by
    intro t ht
    refine ⟨hwf t ht, fun e he => ?_⟩
    have hlt := (scan_stop ht he).2
    rw [Nat.zero_add] at hlt
    rw [Token.start, he]
    exact ⟨pieceStart_le _ (Nat.zero_le e), hlt⟩
  constructor
  · rintro ⟨r₁, rfl, hsame⟩
    obtain ⟨hline, hheaders⟩ := sameHead_iff.mp hsame
    constructor
    · by_contra hcut
      exact readsAll_cut hstop hplaced (scan_parts _ _ _ _ _) (SameLine.refl {}) hcut
        hone hreads hline
    · exact (readsAll_headers hwf hreads).symm.trans
        (hheaders.symm.trans (readsAll_headers hwf hone))
  · rintro ⟨hintact, hmap⟩
    obtain ⟨r₁, rfl, hline⟩ := readsAll_intact hstop hplaced (SameLine.refl {})
      hintact hone hreads
    refine ⟨r₁, rfl, sameHead_iff.mpr ⟨hline, ?_⟩⟩
    exact (readsAll_headers hwf hone).trans
      (hmap.symm.trans (readsAll_headers hwf hreads).symm)

/-- **A request that arrives in fragments** is the one read at once exactly if
the fragments keep its head. -/
theorem recvRequest_split_iff (h : parseHead g.toUninit b = some r)
    (hb : flat fs = b) (h100 : ∀ a ∈ fs, a.bytes.length ≤ buffSize)
    (harr : sock.arrivals = fs ++ rest) (hconn : sock.connected = true)
    (hbody : BodyFollows r rest) :
    (∃ r' sock', recvRequest g sock = (.ok (some r'), sock') ∧ SameHead r r') ↔
      KeepsHead g.uriRelaxed b (fs.map Arrival.bytes) := by
  obtain ⟨res, hleaves, hkeeps⟩ := recvHead_split h hb h100 harr hconn
  rw [← hkeeps]
  cases res with
  | none =>
      refine ⟨?_, fun ⟨_, hnone, _⟩ => nomatch hnone⟩
      rintro ⟨r', sock', hrun, -⟩
      unfold recvRequest at hrun
      split at hrun
      · cases hrun
      · cases hrun
      · rename_i head s' hhead
        exact absurd (congrArg Prod.fst hhead) (hleaves head)
  | some r₁ =>
      obtain ⟨s, data, hhead⟩ := hleaves
      simp only [recvRequest, hhead]
      constructor
      · rintro ⟨r', sock', hrun, hsame⟩
        refine ⟨r₁, rfl, fun κ => (hsame κ).trans ?_⟩
        cases hbody' : recvBody ⟨⟨s, r₁, 0⟩, data, 0⟩ { sock with arrivals := rest } with
        | mk x s' =>
            rw [hbody'] at hrun
            cases hrun
            exact (recvBody_same hbody' κ).symm
      · rintro ⟨_, ⟨⟩, hsame⟩
        have hheaders := (sameHead_iff.mp hsame).2
        have hbody₁ : BodyFollows r₁ rest := by
          unfold BodyFollows HttpRequest.getHeaderAsU64 at hbody ⊢
          rw [← hheaders]
          exact hbody
        obtain ⟨r', s', hr⟩ := recvBody_some
          (h := ⟨⟨s, r₁, 0⟩, data, 0⟩) (s := { sock with arrivals := rest }) rfl hconn
          hbody₁
        refine ⟨r', s', by rw [hr], fun κ => (hsame κ).trans ?_⟩
        exact recvBody_same hr κ

end Split

/-! ## Two splits -/

instance (b : List UInt8) (k : Nat) : DecidablePred (Token.Intact b k)
  | .element .requestMethod s e =>
      inferInstanceAs (Decidable (charsToHttpMethod (slice b (max s k) e) =
        charsToHttpMethod (slice b s e)))
  | .element .requestPath s _ => inferInstanceAs (Decidable (k ≤ s))
  | .element .fragment s _ => inferInstanceAs (Decidable (k ≤ s))
  | .element .httpVersion s e =>
      inferInstanceAs (Decidable (k ≤ s ∨ (k = e ∧ slice b s e = text "HTTP/1.1")))
  | .query start _ => inferInstanceAs (Decidable (∀ i ∈ start, k ≤ i))
  | .element .requestUri _ _ => isTrue trivial
  | .element .queryString _ _ => isTrue trivial
  | .element .headerDone _ _ => isTrue trivial
  | .headerDone => isTrue trivial
  | .field _ _ _ _ _ => isTrue trivial

/-- An arrival of text. -/
def arrival (s : String) (h : 0 < (text s).length ∧ (text s).length < 2 ^ 31) :
    Arrival :=
  ⟨text s, List.ne_nil_of_length_pos h.1, h.2⟩

def garbage : Garbage := ⟨⟨0, false⟩, List.replicate 100 0, rfl⟩

/-- A head whose first line arrives before its header. -/
def byLines : List Arrival :=
  [arrival "GET / HTTP/1.1\r\n" (by decide), arrival "A: 1\r\n\r\n" (by decide)]

theorem byLines_kept : ∃ r' sock',
    recvRequest garbage { arrivals := byLines } = (.ok (some r'), sock') ∧
      SameHead { headers := [(text "A", text "1")] } r' := by
  have hhead : parseHead garbage.toUninit (flat byLines) =
    some { headers := [(text "A", text "1")] } := by decide +kernel
  have h100 : ∀ a ∈ byLines, a.bytes.length ≤ buffSize := by decide +kernel
  have hbody : BodyFollows { headers := [(text "A", text "1")] } [] :=
    ⟨by decide +kernel, by decide +kernel⟩
  exact (recvRequest_split_iff hhead rfl h100 rfl rfl hbody).mpr
    ⟨by decide +kernel, by decide +kernel⟩

/-- A head whose method is cut. -/
def cutMethod : List Arrival :=
  [arrival "GE" (by decide), arrival "T / HTTP/1.1\r\n\r\n" (by decide)]

theorem cutMethod_lost : parseHead garbage.toUninit (flat cutMethod) = some {} ∧
    ∀ r' sock', recvRequest garbage { arrivals := cutMethod } ≠
      (.ok (some r'), sock') := by
  refine ⟨by decide +kernel, fun r' sock' hrun => ?_⟩
  have hnone : ((recvRequest garbage { arrivals := cutMethod }).1.toOption.map
    Option.isSome) = some false := by decide +kernel
  rw [hrun] at hnone
  cases hnone

end Hps.Http.Request
