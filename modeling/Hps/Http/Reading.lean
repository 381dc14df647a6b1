import Hps.Http.Method

/-!
# HTTP — what a request is read from

`Reads behind b k r t res` says what the callbacks make of the request `r`
when the token `t` of `b` ends in a call that begins at `k`: of a token that
began before, only what lies behind `k` is seen. The method is compared with
the memory at its token; what lies behind the blank is only known to meet
`behind`. `execute_reads` connects this to `HttpRequestParser::execute`.
-/

namespace Hps.Http.Request

open Hps.Lib

/-! ## Slices -/

theorem slice_length {b : List UInt8} {i j : Nat} (hj : j ≤ b.length) :
    (slice b i j).length = j - i := by
  rw [slice, List.length_take, List.length_drop]
  omega

/-- A piece `f` of `b` that begins at `k`, in a buffer of which the rest is
`stale`. -/
structure Piece (b : List UInt8) (k : Nat) (f : List UInt8) : Prop where
  prefix_drop : ∃ rest, b.drop k = f ++ rest

theorem Piece.lt_length {b f : List UInt8} {k e : Nat} (h : Piece b k f)
    (hk : k ≤ e) (he : e < k + f.length) : e < b.length := by
  obtain ⟨rest, hrest⟩ := h.prefix_drop
  have := congrArg List.length hrest
  rw [List.length_drop, List.length_append] at this
  omega

/-- A part of the piece, read from the buffer. -/
theorem Piece.take_drop {b f : List UInt8} {k i e : Nat} (h : Piece b k f)
    (stale : List UInt8) (hk : k ≤ e) (he : e ≤ k + f.length) :
    ((f ++ stale).drop (i - k)).take (e - k - (i - k)) = slice b (max i k) e := by
  obtain ⟨rest, hrest⟩ := h.prefix_drop
  by_cases hi : e ≤ i
  · have h1 : e - k - (i - k) = 0 := by omega
    have h2 : e - max i k = 0 := by omega
    rw [slice, h1, h2, List.take_zero, List.take_zero]
  · have h1 : max i k = k + (i - k) := by omega
    have h2 : e - max i k = e - k - (i - k) := by omega
    have h3 : i - k ≤ f.length := by omega
    have h4 : e - k - (i - k) ≤ (f.drop (i - k)).length := by
      rw [List.length_drop]
      omega
    rw [slice, h2, h1, ← List.drop_drop, hrest, List.drop_append_of_le_length h3,
      List.drop_append_of_le_length h3, List.take_append_of_le_length h4,
      List.take_append_of_le_length h4]

theorem Piece.getElem? {b f : List UInt8} {k e : Nat} (h : Piece b k f)
    (stale : List UInt8) (hk : k ≤ e) (he : e < k + f.length) :
    (f ++ stale)[e - k]? = b[e]? := by
  obtain ⟨rest, hrest⟩ := h.prefix_drop
  have hlt : e - k < f.length := by omega
  rw [List.getElem?_append_left hlt]
  calc f[e - k]? = (f ++ rest)[e - k]? := (List.getElem?_append_left hlt).symm
    _ = b[k + (e - k)]? := by rw [← hrest, List.getElem?_drop]
    _ = b[e]? := by rw [Nat.add_sub_cancel' hk]

/-! ## What the callbacks make of a token -/

def readMethod (r : HttpRequest) (m : List UInt8) : Option HttpRequest :=
  if charsToHttpMethod m = .INVALID_METHOD then none
  else some (r.setMethod (charsToHttpMethod m))

def readVersion (r : HttpRequest) (v : List UInt8) : Option HttpRequest :=
  if strncmpEq v (text "HTTP/1.1") v.length then some (r.setVersion 0x11)
  else if strncmpEq v (text "HTTP/1.0") v.length then some (r.setVersion 0x10)
  else none

def readField (r : HttpRequest) (name value : List UInt8) : HttpRequest :=
  if name = [] then r else r.setHeader name value

/-- The request after a token, in a call that begins at `k`; `none` is an
error, or an exception. -/
def Reads (behind : Nat → List UInt8 → Prop) (b : List UInt8) (k : Nat)
    (r : HttpRequest) : Token → Option HttpRequest → Prop
  | .element .requestMethod s e, res => ∃ junk, behind e junk ∧
      res = readMethod r (slice b (max s k) e ++ ch ' ' :: junk)
  | .element .requestPath s e, res =>
      res = some (r.setPath (slice b (max s k) e))
  | .element .fragment s e, res =>
      res = some (r.setFragment (slice b (max s k) e))
  | .element .httpVersion s e, res =>
      res = readVersion r (slice b (max s k) e)
  | .element _ _ _, res => res = some r
  | .query start e, res => ∀ i, start = some i →
      (k ≤ i → res = some (r.setQuery (slice b i e))) ∧
      (i < k → ∀ r', res = some r' →
        ∃ q, q.length + i ≠ e ∧ r' = r.setQuery q)
  | .headerDone, res => res = some r
  | .field s _ ne vs e, res =>
      res = some (readField r (slice b (max s k) (max ne k))
        (slice b (max vs k) e))

/-- What the parser class has to show for a request: the request and no
error, or an error or exception. -/
def Shows (parser : HttpParser) (out : Except Thrown HttpRequestParser) :
    Option HttpRequest → Prop
  | some r => out = .ok ⟨parser, r, 0⟩
  | none => ∀ p, out = .ok p → p.error ≠ 0

theorem strncmpEq_take (a b : List UInt8) (n : Nat) :
    strncmpEq (a.take n) b n = strncmpEq a b n := by
  induction n generalizing a b with
  | zero => rfl
  | succ n ih =>
      cases a with
      | nil => rfl
      | cons x xs => simp [strncmpEq, ih]

theorem stdString_piece {b f : List UInt8} {k i e : Nat} (h : Piece b k f)
    (stale : List UInt8) (hk : k ≤ e) (he : e < k + f.length) (hi : i ≤ e) :
    stdString (f ++ stale) (i - k) (((e - k : Nat) : Int) - (i - k : Nat)) =
      .ok (slice b (max i k) e) := by
  have hn : (((e - k : Nat) : Int) - (i - k : Nat)).toNat = e - k - (i - k) := by
    omega
  rw [stdString, if_neg (by omega), hn, h.take_drop stale hk (by omega)]

section Calls

variable {behind : Nat → List UInt8 → Prop} {b f stale : List UInt8} {k : Nat}
  {parser : HttpParser} {r : HttpRequest}

theorem method_reads (h : Piece b k f) {s e : Nat} (hk : k ≤ e)
    (he : e < k + f.length) (hse : s ≤ e) (hb : b[e]? = some (ch ' '))
    (hbeh : behind e ((f ++ stale).drop (e - k + 1))) (length : Int) :
    ∃ res, Reads behind b k r (.element .requestMethod s e) res ∧
      Shows parser (HttpRequestParser.call (f ++ stale) ⟨parser, r, 0⟩
        (.element .requestMethod (s - k) length)) res := by
  have hsp : (f ++ stale)[e - k]? = some (ch ' ') := by
    rw [h.getElem? stale hk he, hb]
  obtain ⟨hlt, hget⟩ := List.getElem?_eq_some_iff.mp hsp
  have hmem : (f ++ stale).drop (s - k) =
      slice b (max s k) e ++ ch ' ' :: (f ++ stale).drop (e - k + 1) := by
    rw [← h.take_drop stale hk (by omega), ← hget, ← List.drop_eq_getElem_cons hlt,
      show e - k = s - k + (e - k - (s - k)) by omega, ← List.drop_drop,
      Nat.add_sub_cancel_left, List.take_append_drop]
  refine ⟨readMethod r (slice b (max s k) e ++ ch ' ' ::
    (f ++ stale).drop (e - k + 1)), ⟨_, hbeh, rfl⟩, ?_⟩
  simp only [HttpRequestParser.call, HttpRequestParser.onRequestMethod, hmem,
    readMethod]
  split_ifs with hinv
  · rintro p ⟨⟩
    simp [HttpRequestParser.setError]
  · rfl

theorem version_reads (h : Piece b k f) {s e : Nat} (hk : k ≤ e)
    (he : e < k + f.length) (hse : e = s + 8) :
    ∃ res, Reads behind b k r (.element .httpVersion s e) res ∧
      Shows parser (HttpRequestParser.call (f ++ stale) ⟨parser, r, 0⟩
        (.element .httpVersion (s - k)
          (((e - k : Nat) : Int) - (s - k : Nat)))) res := by
  have hn : sizeT (((e - k : Nat) : Int) - (s - k : Nat)) = e - k - (s - k) := by
    have : (UInt64.size : Int) = 18446744073709551616 := rfl
    rw [sizeT, this]
    omega
  have hlen : (slice b (max s k) e).length = e - k - (s - k) := by
    rw [slice_length (h.lt_length hk he).le]
    omega
  have hcmp : ∀ v, strncmpEq ((f ++ stale).drop (s - k)) v (e - k - (s - k)) =
      strncmpEq (slice b (max s k) e) v (slice b (max s k) e).length := by
    intro v
    rw [hlen, ← h.take_drop stale hk (by omega), strncmpEq_take]
  refine ⟨_, rfl, ?_⟩
  simp only [HttpRequestParser.call, HttpRequestParser.onRequestVersion, hn, hcmp,
    readVersion]
  split_ifs
  · rfl
  · rfl
  · rintro p ⟨⟩
    simp [HttpRequestParser.setError]

theorem query_reads (h : Piece b k f) {i e ptr : Nat} (hk : k ≤ e)
    (he : e < k + f.length) (hie : i ≤ e) (hptr : k ≤ i → ptr = i - k) :
    ∃ res, Reads behind b k r (.query (some i) e) res ∧
      Shows parser (HttpRequestParser.call (f ++ stale) ⟨parser, r, 0⟩
        (.element .queryString ptr (((e - k : Nat) : Int) - ptr))) res := by
  by_cases hki : k ≤ i
  · obtain rfl := hptr hki
    refine ⟨some (r.setQuery (slice b i e)), ?_, ?_⟩
    · rintro j ⟨⟩
      exact ⟨fun _ => rfl, fun hlt => absurd hlt (by omega)⟩
    · simp only [HttpRequestParser.call, HttpRequestParser.onRequestQuery,
        stdString_piece h stale hk he hie, Nat.max_eq_left hki]
      rfl
  · by_cases hp : ptr ≤ e - k
    · -- the offset is that of an older buffer: the text is too short
      have hlen : (((f ++ stale).drop ptr).take (e - k - ptr)).length =
          e - k - ptr := by
        rw [List.length_take, List.length_drop, List.length_append]
        omega
      refine ⟨some (r.setQuery (((f ++ stale).drop ptr).take (e - k - ptr))),
        ?_, ?_⟩
      · rintro j ⟨⟩
        refine ⟨fun hle => absurd hle hki, ?_⟩
        rintro _ r' ⟨⟩
        exact ⟨_, by rw [hlen]; omega, rfl⟩
      · have hn : (((e - k : Nat) : Int) - ptr).toNat = e - k - ptr := by omega
        simp only [HttpRequestParser.call, HttpRequestParser.onRequestQuery,
          stdString, if_neg (show ¬((e - k : Nat) : Int) - ptr < 0 by omega), hn]
        rfl
    · -- the length wraps around
      refine ⟨none, ?_, ?_⟩
      · rintro j ⟨⟩
        exact ⟨fun hle => absurd hle hki, fun _ _ hres => by cases hres⟩
      · intro p hp'
        simp only [HttpRequestParser.call, HttpRequestParser.onRequestQuery,
          stdString, if_pos (show ((e - k : Nat) : Int) - ptr < 0 by omega)] at hp'
        cases hp'

theorem field_reads (h : Piece b k f) {s ne vs e : Nat} (hk : k ≤ e)
    (he : e < k + f.length) (hs : s ≤ ne) (hne : ne ≤ e) (hvs : vs ≤ e) :
    ∃ res, Reads behind b k r (.field s s ne vs e) res ∧
      Shows parser (HttpRequestParser.call (f ++ stale) ⟨parser, r, 0⟩
        (.httpField (s - k) (((ne - k : Nat) : Int) - (s - k : Nat)) (vs - k)
          (((e - k : Nat) : Int) - (vs - k : Nat)))) res := by
  have hmax : ((ne - k : Nat) : Int) - (s - k : Nat) =
      ((max ne k - k : Nat) : Int) - (s - k : Nat) := by omega
  have hname : stdString (f ++ stale) (s - k)
      (((ne - k : Nat) : Int) - (s - k : Nat)) =
        .ok (slice b (max s k) (max ne k)) := by
    rw [hmax]
    by_cases hsk : s ≤ max ne k
    · exact stdString_piece h stale (Nat.le_max_right ne k) (by omega) hsk
    · omega
  have hlen := slice_length (b := b) (i := max s k) (j := max ne k)
    (h.lt_length (Nat.le_max_right ne k) (by omega)).le
  refine ⟨_, rfl, ?_⟩
  simp only [HttpRequestParser.call, HttpRequestParser.onRequestHttpField]
  by_cases hnil : slice b (max s k) (max ne k) = []
  · rw [hnil] at hlen
    rw [if_pos (by simp only [List.length_nil] at hlen; omega), readField,
      if_pos hnil]
    rfl
  · have hpos := List.length_pos_of_ne_nil hnil
    rw [if_neg (by omega), readField, if_neg hnil, hname,
      stdString_piece h stale hk he hvs]
    rfl

/-- **A call of the generated parser reads its token.** -/
theorem call_reads (stale : List UInt8) (parser : HttpParser) (r : HttpRequest)
    (h : Piece b k f) {t : Token} {c : Call}
    (hcut : Cut k t c) (hwf : t.WellFormed b)
    (hstop : ∀ e, t.stop = some e → k ≤ e ∧ e < k + f.length)
    (hbeh : ∀ e, k ≤ e → behind e ((f ++ stale).drop (e - k + 1))) :
    ∃ res, Reads behind b k r t res ∧
      Shows parser (HttpRequestParser.call (f ++ stale) ⟨parser, r, 0⟩ c) res := by
  cases hcut with
  | headerDone ptr length => exact ⟨_, rfl, rfl⟩
  | query e hptr =>
      obtain ⟨i, rfl, hie⟩ := hwf
      obtain ⟨hk, he⟩ := hstop e rfl
      exact query_reads h hk he hie (hptr i rfl)
  | field s ns ne vs e =>
      obtain ⟨rfl, hs, hne, hvs⟩ := hwf
      obtain ⟨hk, he⟩ := hstop e rfl
      exact field_reads h hk he hs hne hvs
  | element cb s e =>
      obtain ⟨hk, he⟩ := hstop e rfl
      cases cb with
      | requestMethod =>
          obtain ⟨rfl, -, hb⟩ := hwf
          exact method_reads h hk he (Nat.zero_le e) hb (hbeh e hk) _
      | httpVersion => exact version_reads h hk he hwf.1
      | fragment =>
          refine ⟨_, rfl, ?_⟩
          simp only [HttpRequestParser.call, HttpRequestParser.onRequestFragment,
            stdString_piece h stale hk he hwf]
          rfl
      | requestPath =>
          refine ⟨_, rfl, ?_⟩
          simp only [HttpRequestParser.call, HttpRequestParser.onRequestPath,
            stdString_piece h stale hk he hwf]
          rfl
      | requestUri => exact ⟨_, rfl, rfl⟩
      | queryString => exact hwf.elim
      | headerDone => exact ⟨_, rfl, rfl⟩

/-- An error stays. -/
theorem call_error {mem : List UInt8} {p p' : HttpRequestParser} {c : Call}
    (hp : p.error ≠ 0) (h : HttpRequestParser.call mem p c = .ok p') :
    p'.error ≠ 0 := by
  have hstr : ∀ {ptr : Nat} {length : Int} {g : List UInt8 → HttpRequestParser},
      (∀ x, (g x).error = p.error) →
      (do return g (← stdString mem ptr length)) = Except.ok p' →
      p'.error ≠ 0 := by
    intro ptr length g hg h
    cases hs : stdString mem ptr length with
    | error e => simp [hs, bind, Except.bind] at h
    | ok x =>
        rw [hs] at h
        cases h
        rw [hg]
        exact hp
  cases c with
  | element cb ptr length =>
      cases cb with
      | requestMethod =>
          cases h
          simp only [HttpRequestParser.onRequestMethod]
          split_ifs
          · simp [HttpRequestParser.setError]
          · exact hp
      | httpVersion =>
          cases h
          simp only [HttpRequestParser.onRequestVersion]
          split_ifs
          · exact hp
          · exact hp
          · simp [HttpRequestParser.setError]
      | requestUri => cases h; exact hp
      | headerDone => cases h; exact hp
      | fragment =>
          exact hstr (g := fun x => { p with data := p.data.setFragment x })
            (fun _ => rfl) h
      | requestPath =>
          exact hstr (g := fun x => { p with data := p.data.setPath x })
            (fun _ => rfl) h
      | queryString =>
          exact hstr (g := fun x => { p with data := p.data.setQuery x })
            (fun _ => rfl) h
  | httpField field flen value vlen =>
      simp only [HttpRequestParser.call, HttpRequestParser.onRequestHttpField] at h
      split_ifs at h
      · cases h
        exact hp
      · cases h1 : stdString mem field flen with
        | error e => simp [h1, bind, Except.bind] at h
        | ok name =>
            rw [h1] at h
            exact hstr (g := fun x => { p with data := p.data.setHeader name x })
              (fun _ => rfl) h

theorem calls_error {mem : List UInt8} {p p' : HttpRequestParser}
    {cs : List Call} (hp : p.error ≠ 0)
    (h : cs.foldlM (HttpRequestParser.call mem) p = .ok p') : p'.error ≠ 0 := by
  induction cs generalizing p with
  | nil =>
      cases h
      exact hp
  | cons c cs ih =>
      rw [List.foldlM_cons] at h
      cases hc : HttpRequestParser.call mem p c with
      | error e => simp [hc, bind, Except.bind] at h
      | ok p₁ =>
          rw [hc] at h
          exact ih (call_error hp hc) h

end Calls

/-! ## Lists of tokens -/

/-- Where the call begins that a token ends in. -/
def Token.start (base : Nat → Nat) (t : Token) : Nat := (t.stop.map base).getD 0

theorem Token.start_zero (t : Token) : t.start (fun _ => 0) = 0 := by
  unfold Token.start
  cases t.stop <;> rfl

/-- The request after the tokens, each read in a call that begins at `base`
of the position where it ends. -/
def ReadsAll (behind : Nat → List UInt8 → Prop) (b : List UInt8)
    (base : Nat → Nat) : HttpRequest → List Token → Option HttpRequest → Prop
  | r, [], res => res = some r
  | r, t :: ts, res =>
      (Reads behind b (t.start base) r t none ∧ res = none) ∨
      ∃ r', Reads behind b (t.start base) r t (some r') ∧
        ReadsAll behind b base r' ts res

section All

variable {behind : Nat → List UInt8 → Prop} {b : List UInt8}
  {base : Nat → Nat} {r r' : HttpRequest} {ts us : List Token}
  {res : Option HttpRequest}

theorem ReadsAll.append (h : ReadsAll behind b base r ts (some r'))
    (h' : ReadsAll behind b base r' us res) :
    ReadsAll behind b base r (ts ++ us) res := by
  induction ts generalizing r with
  | nil =>
      cases h
      exact h'
  | cons t ts ih =>
      rcases h with ⟨-, hn⟩ | ⟨r₁, h1, h2⟩
      · cases hn
      · exact .inr ⟨r₁, h1, ih h2⟩

theorem ReadsAll.append_none (h : ReadsAll behind b base r ts none)
    (us : List Token) : ReadsAll behind b base r (ts ++ us) none := by
  induction ts generalizing r with
  | nil => cases h
  | cons t ts ih =>
      rcases h with ⟨h1, -⟩ | ⟨r₁, h1, h2⟩
      · exact .inl ⟨h1, rfl⟩
      · exact .inr ⟨r₁, h1, ih h2⟩

end All

section Execute

variable {behind : Nat → List UInt8 → Prop} {b f stale : List UInt8}
  {k : Nat} {base : Nat → Nat} {parser : HttpParser} {r : HttpRequest}

/-- **The calls of the generated parser read their tokens.** -/
theorem calls_reads (stale : List UInt8) (parser : HttpParser) (r : HttpRequest)
    (h : Piece b k f) {ts : List Token} {cs : List Call}
    (hcut : List.Forall₂ (Cut k) ts cs) (hwf : ∀ t ∈ ts, t.WellFormed b)
    (hstop : ∀ t ∈ ts, ∀ e, t.stop = some e → k ≤ e ∧ e < k + f.length)
    (hbase : ∀ e, k ≤ e → e < k + f.length → base e = k)
    (hbeh : ∀ e, k ≤ e → behind e ((f ++ stale).drop (e - k + 1))) :
    ∃ res, ReadsAll behind b base r ts res ∧
      Shows parser (cs.foldlM (HttpRequestParser.call (f ++ stale))
        ⟨parser, r, 0⟩) res := by
  induction hcut generalizing r with
  | nil => exact ⟨some r, rfl, rfl⟩
  | @cons t c ts cs hc _ ih =>
      have ht := hstop t List.mem_cons_self
      obtain ⟨res, hres, hshow⟩ := call_reads stale parser r
        h hc (hwf t List.mem_cons_self) ht hbeh
      have hreads : Reads behind b (t.start base) r t res := by
        cases hs : t.stop with
        | none =>
            cases t <;> cases hs
            exact hres
        | some e =>
            have := ht e hs
            rwa [Token.start, hs, Option.map_some, Option.getD_some,
              hbase e this.1 this.2]
      rw [List.foldlM_cons]
      cases res with
      | none =>
          refine ⟨none, .inl ⟨hreads, rfl⟩, ?_⟩
          intro p hp
          cases hcall : HttpRequestParser.call (f ++ stale) ⟨parser, r, 0⟩ c with
          | error e => simp [hcall, bind, Except.bind] at hp
          | ok p₁ =>
              rw [hcall] at hp
              exact calls_error (hshow p₁ hcall) hp
      | some r₁ =>
          obtain ⟨res', h1, h2⟩ := ih r₁
            (fun t' ht' => hwf t' (List.mem_cons_of_mem t ht'))
            (fun t' ht' => hstop t' (List.mem_cons_of_mem t ht'))
          have hshow' : HttpRequestParser.call (f ++ stale) ⟨parser, r, 0⟩ c =
              .ok ⟨parser, r₁, 0⟩ := hshow
          rw [hshow']
          exact ⟨res', .inr ⟨r₁, hreads, h1⟩, h2⟩

/-- What `execute` has to show for a request: the bytes read, the parser with
the request and no error, and the buffer; or an error or exception. -/
def Executes (n : Nat) (s : HttpParser) (data : List UInt8)
    (out : Except Thrown (Nat × HttpRequestParser × List UInt8)) :
    Option HttpRequest → Prop
  | some r => out = .ok (n, ⟨s, r, 0⟩, data)
  | none => ∀ x, out = .ok x → x.2.1.error ≠ 0

/-- **`execute` on a piece reads the tokens that end in it.** The buffer may
hold `x` bytes more if the machine does not get to them. -/
theorem execute_reads (behind : Nat → List UInt8 → Prop) (stale : List UInt8)
    (x : Nat) {relaxed : Bool} {k' : Nat} {m : Marks} {s : HttpParser}
    {q : State} (hs : Registers relaxed k' k k m s) (hq : s.cs = some q)
    (hf : f ≠ []) (h : Piece b k f)
    (hx : x = 0 ∨ ∀ q',
      ((machine relaxed).exec scanAct q k m f).ending ≠ .running q')
    (hwf : ∀ t ∈ ((machine relaxed).exec scanAct q k m f).calls, t.WellFormed b)
    (hbase : ∀ e, k ≤ e → e < k + f.length → base e = k)
    (hbeh : ∀ e, k ≤ e → behind e ((f ++ stale).drop (e - k + 1)))
    (r : HttpRequest) :
    ∃ n s' res,
      s'.cs = endState ((machine relaxed).exec scanAct q k m f).ending ∧
      ((machine relaxed).exec scanAct q k m f).pos = k + n ∧
      Registers relaxed k ((machine relaxed).exec scanAct q k m f).pos
        ((machine relaxed).exec scanAct q k m f).pos
        ((machine relaxed).exec scanAct q k m f).regs s' ∧
      ReadsAll behind b base r ((machine relaxed).exec scanAct q k m f).calls
        res ∧
      Executes n s'
        ((f ++ stale.take x).drop n ++ (f ++ stale).drop (f.length + x - n))
        (HttpRequestParser.execute ⟨s, r, 0⟩ (f ++ stale) (f.length + x))
        res := by
  obtain ⟨n, s', calls, hexec, hcs, hpos, hregs, hcut⟩ :=
    execute_cut stale x hs hq hf hx
  obtain ⟨res, hreads, hshow⟩ := calls_reads stale s' r h hcut hwf
    (fun t ht e he => scan_stop ht he) hbase hbeh
  refine ⟨n, s', res, hcs, hpos, hregs, hreads, ?_⟩
  have hout : HttpRequestParser.execute ⟨s, r, 0⟩ (f ++ stale) (f.length + x) =
      (calls.foldlM (HttpRequestParser.call (f ++ stale)) ⟨s', r, 0⟩).bind
        fun p => .ok (n, p,
          (f ++ stale.take x).drop n ++ (f ++ stale).drop (f.length + x - n)) := by
    simp only [HttpRequestParser.execute, hexec, List.take_length_add_append]
    rfl
  rw [hout]
  cases res with
  | some r' =>
      have hfold : calls.foldlM (HttpRequestParser.call (f ++ stale))
          ⟨s', r, 0⟩ = .ok ⟨s', r', 0⟩ := hshow
      rw [hfold]
      rfl
  | none =>
      intro x hx
      cases hfold : calls.foldlM (HttpRequestParser.call (f ++ stale))
          ⟨s', r, 0⟩ with
      | error e => simp [hfold, Except.bind] at hx
      | ok p =>
          rw [hfold] at hx
          cases hx
          exact hshow p hfold

end Execute

end Hps.Http.Request
