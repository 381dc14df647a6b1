import Hps.Http.Head
import Hps.Http.Pieces

/-!
# HTTP — what survives splitting

A token is `Intact` if the call it ends in reads it as it stands, whatever the
calls before it saw: no token of the request line is cut where a call begins,
but for a method whose rest has the same name and for a version that is cut
behind its last byte. Intact tokens give the same request line
(`readsAll_intact`), and a token that is not shows in it (`readsAll_cut`).
Fields that are cut are lost or shortened: `headerMap`.
-/

namespace Hps.Http.Request

open Hps.Lib

/-! ## Parts of a request -/

/-- What a part of a request may be. -/
inductive Value where
  | method (m : HttpMethod)
  | version (v : UInt8)
  | text (t : List UInt8)
  | headers (m : MapType)

def part (r : HttpRequest) : Part → Value
  | .method => .method r.method
  | .path => .text r.path
  | .query => .text r.query
  | .fragment => .text r.fragment
  | .version => .version r.version
  | .headers => .headers r.headers

/-- The requests have the same request line. -/
def SameLine (r r' : HttpRequest) : Prop :=
  ∀ κ, κ ≠ .headers → part r κ = part r' κ

section SameLine

variable {r r' : HttpRequest}

theorem SameLine.refl (r : HttpRequest) : SameLine r r := fun _ _ => rfl

theorem SameLine.setMethod (h : SameLine r r') (m : HttpMethod) :
    SameLine (r.setMethod m) (r'.setMethod m) := by
  intro κ hκ
  cases κ
  case method => rfl
  all_goals exact h _ hκ

theorem SameLine.setPath (h : SameLine r r') (x : List UInt8) :
    SameLine (r.setPath x) (r'.setPath x) := by
  intro κ hκ
  cases κ
  case path => rfl
  all_goals exact h _ hκ

theorem SameLine.setQuery (h : SameLine r r') (x : List UInt8) :
    SameLine (r.setQuery x) (r'.setQuery x) := by
  intro κ hκ
  cases κ
  case query => rfl
  all_goals exact h _ hκ

theorem SameLine.setFragment (h : SameLine r r') (x : List UInt8) :
    SameLine (r.setFragment x) (r'.setFragment x) := by
  intro κ hκ
  cases κ
  case fragment => rfl
  all_goals exact h _ hκ

theorem SameLine.setVersion (h : SameLine r r') (v : UInt8) :
    SameLine (r.setVersion v) (r'.setVersion v) := by
  intro κ hκ
  cases κ
  case version => rfl
  all_goals exact h _ hκ

theorem SameLine.readField (h : SameLine r r') (n v n' v' : List UInt8) :
    SameLine (readField r n v) (readField r' n' v') := by
  intro κ hκ
  unfold Request.readField
  split_ifs
  all_goals
    cases κ
    case headers => exact absurd rfl hκ
    all_goals exact h _ hκ

end SameLine

/-! ## One token -/

section Token

variable {behind : Nat → List UInt8 → Prop} {b : List UInt8} {k : Nat}
  {r r' r₁ : HttpRequest} {t : Token} {res : Option HttpRequest}

theorem readMethod_some {m : List UInt8} (h : readMethod r m = some r') :
    charsToHttpMethod m ≠ .INVALID_METHOD ∧
      r' = r.setMethod (charsToHttpMethod m) := by
  unfold readMethod at h
  split_ifs at h with hm
  exact ⟨hm, (Option.some.inj h).symm⟩

theorem readVersion_some {v : List UInt8} (h : readVersion r v = some r') :
    ∃ x, r' = r.setVersion x := by
  unfold readVersion at h
  split_ifs at h <;> exact ⟨_, (Option.some.inj h).symm⟩

/-- A token leaves the other parts alone. -/
theorem reads_frame (hwf : t.WellFormed b) (hread : Reads behind b k r t (some r'))
    {κ : Part} (hκ : t.part ≠ some κ) : part r' κ = part r κ := by
  cases t with
  | headerDone => rw [Option.some.inj hread]
  | query start e =>
      obtain ⟨i, rfl, hie⟩ := hwf
      obtain ⟨h1, h2⟩ := hread i rfl
      have hq : ∃ q, r' = r.setQuery q := by
        by_cases hki : k ≤ i
        · exact ⟨_, Option.some.inj (h1 hki)⟩
        · obtain ⟨q, -, hq⟩ := h2 (Nat.lt_of_not_le hki) r' rfl
          exact ⟨q, hq⟩
      obtain ⟨q, rfl⟩ := hq
      cases κ
      case query => exact absurd rfl hκ
      all_goals rfl
  | field s ns ne vs e =>
      rw [Option.some.inj hread, readField]
      split_ifs
      · rfl
      · cases κ
        case headers => exact absurd rfl hκ
        all_goals rfl
  | element cb s e =>
      cases cb with
      | requestMethod =>
          obtain ⟨junk, -, hm⟩ := hread
          rw [(readMethod_some hm.symm).2]
          cases κ
          case method => exact absurd rfl hκ
          all_goals rfl
      | requestPath =>
          rw [Option.some.inj hread]
          cases κ
          case path => exact absurd rfl hκ
          all_goals rfl
      | fragment =>
          rw [Option.some.inj hread]
          cases κ
          case fragment => exact absurd rfl hκ
          all_goals rfl
      | httpVersion =>
          obtain ⟨v, rfl⟩ := readVersion_some (Eq.symm hread)
          cases κ
          case version => exact absurd rfl hκ
          all_goals rfl
      | requestUri => rw [Option.some.inj hread]
      | queryString => exact hwf.elim
      | headerDone => rw [Option.some.inj hread]

/-- The header map after a token. -/
def Token.addHeader (b : List UInt8) (k : Nat) (m : MapType) : Token → MapType
  | .field s _ ne vs e =>
      if slice b (max s k) (max ne k) = [] then m
      else MapType.set (slice b (max s k) (max ne k)) (slice b (max vs k) e) m
  | _ => m

theorem reads_headers (hwf : t.WellFormed b)
    (hread : Reads behind b k r t (some r')) :
    r'.headers = t.addHeader b k r.headers := by
  by_cases hκ : t.part = some .headers
  · cases t with
    | field s ns ne vs e =>
        rw [Option.some.inj hread, readField, Token.addHeader]
        split_ifs <;> rfl
    | element cb s e => cases cb <;> cases hκ
    | query start e => cases hκ
    | headerDone => cases hκ
  · have hpart := Value.headers.inj (reads_frame hwf hread hκ)
    cases t with
    | field s ns ne vs e => exact absurd rfl hκ
    | element cb s e => exact hpart
    | query start e => exact hpart
    | headerDone => exact hpart

/-! ## Cut tokens -/

/-- A call that begins at `k` reads the token as it stands. -/
def Token.Intact (b : List UInt8) (k : Nat) : Token → Prop
  | .element .requestMethod s e =>
      charsToHttpMethod (slice b (max s k) e) = charsToHttpMethod (slice b s e)
  | .element .requestPath s _ => k ≤ s
  | .element .fragment s _ => k ≤ s
  | .element .httpVersion s e =>
      k ≤ s ∨ (k = e ∧ slice b s e = text "HTTP/1.1")
  | .query start _ => ∀ i ∈ start, k ≤ i
  | _ => True

theorem slice_ne {s e : Nat} (hsk : s < k) (hke : k ≤ e) (he : e ≤ b.length) :
    slice b s e ≠ slice b k e := by
  intro h
  have := congrArg List.length h
  rw [slice_length he, slice_length he] at this
  omega

/-- What is left of a version that is cut. -/
theorem version_cut {v : List UInt8}
    (hv : v = text "HTTP/1.0" ∨ v = text "HTTP/1.1") {d : Nat} (h0 : 0 < d)
    (h8 : d < 8) (r : HttpRequest) : readVersion r (v.drop d) = none := by
  have hcut : ∀ w ∈ [text "HTTP/1.0", text "HTTP/1.1"], ∀ d < 8, 0 < d →
      strncmpEq (w.drop d) (text "HTTP/1.1") (w.drop d).length = false ∧
      strncmpEq (w.drop d) (text "HTTP/1.0") (w.drop d).length = false := by
    decide
  obtain ⟨h1, h2⟩ := hcut v (by simpa using hv) d h8 h0
  rw [readVersion, h1, h2]
  rfl

theorem readVersion_nil (r : HttpRequest) :
    readVersion r [] = some (r.setVersion 0x11) := rfl

theorem readVersion_10 (r : HttpRequest) :
    readVersion r (text "HTTP/1.0") = some (r.setVersion 0x10) := by
  rw [readVersion, if_neg (by decide), if_pos (by decide)]

theorem readVersion_11 (r : HttpRequest) :
    readVersion r (text "HTTP/1.1") = some (r.setVersion 0x11) := by
  rw [readVersion, if_pos (by decide)]

theorem slice_drop {s e d : Nat} : (slice b s e).drop d = slice b (s + d) e := by
  rw [slice, slice, List.drop_take, List.drop_drop, Nat.sub_sub]

theorem all_slice {p : UInt8 → Bool} {s k e : Nat} (hsk : s ≤ k)
    (h : (slice b s e).all p = true) : (slice b k e).all p = true := by
  obtain ⟨d, rfl⟩ := Nat.le.dest hsk
  rw [← slice_drop]
  rw [List.all_eq_true] at h ⊢
  intro c hc
  exact h c (List.mem_of_mem_drop hc)

/-- A method is found behind a cut exactly if the rest of its token has the
same name. -/
theorem method_cut {tok junk : List UInt8} {m : HttpMethod}
    (htok : tok.all methodChar = true) (h1 : m ≠ .INVALID_METHOD)
    (h2 : m ≠ .MSEARCH) :
    charsToHttpMethod (tok ++ ch ' ' :: junk) = m ↔ charsToHttpMethod tok = m := by
  by_cases hm : tok = text "M"
  · subst hm
    rw [charsToHttpMethod_m]
    rcases charsToHttpMethod_m_blank junk with h | h <;> rw [h]
    exact ⟨fun h => absurd h.symm h2, fun h => absurd h.symm h1⟩
  · rw [charsToHttpMethod_blank htok fun h => absurd h hm]

section Compare

variable {relaxed : Bool} {q : State}

/-- What one token shows of a cut: a token that is left whole gives the same
request line, any other a different one, if it gives one. -/
def Compares (t : Token) (k : Nat) (b : List UInt8) (r₁ : HttpRequest)
    (res : Option HttpRequest) : Prop :=
  (t.Intact b k → ∃ r₁', res = some r₁' ∧ SameLine r₁ r₁') ∧
  (¬t.Intact b k → ∀ r₁', res = some r₁' →
    ∃ κ, κ ≠ .headers ∧ t.part = some κ ∧ part r₁ κ ≠ part r₁' κ)

theorem compares_method {s e : Nat} (hstop : (scan relaxed b).ending = .stopped q)
    (hwf : (Token.element .requestMethod s e).WellFormed b)
    (hline : SameLine r r')
    (h1 : Reads (Follows b) b 0 r (.element .requestMethod s e) (some r₁))
    (h2 : Reads (fun _ _ => True) b k r' (.element .requestMethod s e) res) :
    Compares (.element .requestMethod s e) k b r₁ res := by
  obtain ⟨rfl, hall, hb⟩ := hwf
  obtain ⟨junk, hjunk, h1⟩ := h1
  obtain ⟨junk', -, rfl⟩ := h2
  rw [Nat.max_self] at h1
  rw [Nat.zero_max]
  obtain ⟨hvalid, rfl⟩ := readMethod_some h1.symm
  rw [method_of_head hstop hall hb hjunk] at hvalid ⊢
  have hcut : charsToHttpMethod (slice b k e ++ ch ' ' :: junk') =
      charsToHttpMethod (slice b 0 e) ↔ charsToHttpMethod (slice b k e) =
        charsToHttpMethod (slice b 0 e) :=
    method_cut (all_slice (Nat.zero_le k) hall) hvalid
      (charsToHttpMethod_ne_msearch hall)
  have hintact : (Token.element .requestMethod 0 e).Intact b k ↔
      charsToHttpMethod (slice b k e) = charsToHttpMethod (slice b 0 e) := by
    rw [Token.Intact, Nat.zero_max]
  rw [Compares, hintact, ← hcut]
  constructor
  · intro hm
    refine ⟨_, ?_, hline.setMethod _⟩
    rw [readMethod, hm, if_neg hvalid]
  · intro hm r₁' hres
    obtain ⟨-, rfl⟩ := readMethod_some hres
    exact ⟨.method, by simp, rfl, fun h => hm (Value.method.inj h).symm⟩

theorem compares_version {s e : Nat}
    (hwf : (Token.element .httpVersion s e).WellFormed b)
    (hline : SameLine r r') (hk : k ≤ e)
    (h1 : Reads (Follows b) b 0 r (.element .httpVersion s e) (some r₁))
    (h2 : Reads (fun _ _ => True) b k r' (.element .httpVersion s e) res) :
    Compares (.element .httpVersion s e) k b r₁ res := by
  obtain ⟨rfl, htext⟩ := hwf
  have h1 : some r₁ = readVersion r (slice b (max s 0) (s + 8)) := h1
  have h2 : res = readVersion r' (slice b (max s k) (s + 8)) := h2
  rw [Nat.max_zero] at h1
  by_cases hks : k ≤ s
  · -- nothing is cut
    rw [Nat.max_eq_left hks] at h2
    refine ⟨fun _ => ?_, fun hn => absurd (Or.inl hks) hn⟩
    rcases htext with ht | ht
    · rw [ht, readVersion_10] at h1 h2
      exact ⟨_, h2, Option.some.inj h1 ▸ hline.setVersion _⟩
    · rw [ht, readVersion_11] at h1 h2
      exact ⟨_, h2, Option.some.inj h1 ▸ hline.setVersion _⟩
  · obtain ⟨d, rfl⟩ := Nat.le.dest (Nat.lt_of_not_le hks).le
    rw [Nat.max_eq_right (Nat.le_add_right s d), ← slice_drop] at h2
    by_cases hd : d = 8
    · -- only the end of the token is left
      subst hd
      have hlen : (slice b s (s + 8)).drop 8 = [] := by
        rw [slice_drop, slice_self]
      rw [hlen, readVersion_nil] at h2
      subst h2
      rcases htext with ht | ht
      · rw [ht, readVersion_10] at h1
        rw [Option.some.inj h1]
        refine ⟨?_, fun _ r₁' hr => ?_⟩
        · rintro (h | ⟨-, h⟩)
          · exact absurd h hks
          · exact absurd (ht ▸ h) (by decide)
        · obtain rfl := Option.some.inj hr
          exact ⟨.version, by simp, rfl, by simp [part, HttpRequest.setVersion]⟩
      · rw [ht, readVersion_11] at h1
        refine ⟨fun _ => ⟨_, rfl, Option.some.inj h1 ▸ hline.setVersion _⟩, ?_⟩
        exact fun hn => absurd (Or.inr ⟨rfl, ht⟩) hn
    · rw [version_cut htext (by omega) (by omega)] at h2
      subst h2
      refine ⟨?_, fun _ _ hr => by cases hr⟩
      rintro (h | ⟨h, -⟩)
      · exact absurd h hks
      · omega

/-- **What a cut shows of one token.** -/
theorem reads_compares (hstop : (scan relaxed b).ending = .stopped q)
    (hwf : t.WellFormed b) (hline : SameLine r r')
    (hk : ∀ e, t.stop = some e → k ≤ e ∧ e < b.length)
    (h1 : Reads (Follows b) b 0 r t (some r₁))
    (h2 : Reads (fun _ _ => True) b k r' t res) :
    Compares t k b r₁ res := by
  cases t with
  | headerDone =>
      have hr : r₁ = r := Option.some.inj h1
      exact ⟨fun _ => ⟨_, h2, hr ▸ hline⟩, fun hn => absurd trivial hn⟩
  | field s ns ne vs e =>
      refine ⟨fun _ => ⟨_, h2, ?_⟩, fun hn => absurd trivial hn⟩
      rw [Option.some.inj h1]
      exact hline.readField _ _ _ _
  | query start e =>
      obtain ⟨i, rfl, hie⟩ := hwf
      obtain ⟨hke, hel⟩ := hk e rfl
      have hr : r₁ = r.setQuery (slice b i e) :=
        Option.some.inj ((h1 i rfl).1 (Nat.zero_le i))
      obtain ⟨h2, h2'⟩ := h2 i rfl
      subst hr
      by_cases hki : k ≤ i
      · refine ⟨fun _ => ⟨_, h2 hki, hline.setQuery _⟩, fun hn => absurd ?_ hn⟩
        rintro j ⟨⟩
        exact hki
      · refine ⟨fun h => absurd (h i rfl) hki, fun _ r₁' hres => ?_⟩
        obtain ⟨x, hx, rfl⟩ := h2' (Nat.lt_of_not_le hki) r₁' hres
        refine ⟨.query, by simp, rfl, fun heq => hx ?_⟩
        have := congrArg List.length (Value.text.inj heq)
        rw [show (r.setQuery (slice b i e)).query = slice b i e from rfl,
          show (r'.setQuery x).query = x from rfl, slice_length hel.le] at this
        omega
  | element cb s e =>
      obtain ⟨hke, hel⟩ := hk e rfl
      cases cb with
      | requestMethod => exact compares_method hstop hwf hline h1 h2
      | httpVersion => exact compares_version hwf hline hke h1 h2
      | requestPath =>
          have hr : r₁ = r.setPath (slice b (max s 0) e) := Option.some.inj h1
          have h2 : res = some (r'.setPath (slice b (max s k) e)) := h2
          rw [Nat.max_zero] at hr
          subst hr
          by_cases hks : k ≤ s
          · rw [Nat.max_eq_left hks] at h2
            exact ⟨fun _ => ⟨_, h2, hline.setPath _⟩, fun hn => absurd hks hn⟩
          · rw [Nat.max_eq_right (Nat.lt_of_not_le hks).le] at h2
            refine ⟨fun h => absurd h hks, fun _ r₁' hres => ?_⟩
            obtain rfl := Option.some.inj (h2.symm.trans hres)
            exact ⟨.path, by simp, rfl, fun h => slice_ne (Nat.lt_of_not_le hks)
              hke hel.le (Value.text.inj h)⟩
      | fragment =>
          have hr : r₁ = r.setFragment (slice b (max s 0) e) := Option.some.inj h1
          have h2 : res = some (r'.setFragment (slice b (max s k) e)) := h2
          rw [Nat.max_zero] at hr
          subst hr
          by_cases hks : k ≤ s
          · rw [Nat.max_eq_left hks] at h2
            exact ⟨fun _ => ⟨_, h2, hline.setFragment _⟩, fun hn => absurd hks hn⟩
          · rw [Nat.max_eq_right (Nat.lt_of_not_le hks).le] at h2
            refine ⟨fun h => absurd h hks, fun _ r₁' hres => ?_⟩
            obtain rfl := Option.some.inj (h2.symm.trans hres)
            exact ⟨.fragment, by simp, rfl, fun h => slice_ne
              (Nat.lt_of_not_le hks) hke hel.le (Value.text.inj h)⟩
      | requestUri =>
          have hr : r₁ = r := Option.some.inj h1
          exact ⟨fun _ => ⟨_, h2, hr ▸ hline⟩, fun hn => absurd trivial hn⟩
      | queryString => exact hwf.elim
      | headerDone =>
          have hr : r₁ = r := Option.some.inj h1
          exact ⟨fun _ => ⟨_, h2, hr ▸ hline⟩, fun hn => absurd trivial hn⟩

end Compare

end Token

/-! ## All tokens -/

/-- The header map that the fields give, each read in a call that begins at
`base` of the position where it ends. -/
def headerMap (b : List UInt8) (base : Nat → Nat) (m : MapType)
    (ts : List Token) : MapType :=
  ts.foldl (fun m t => t.addHeader b (t.start base) m) m

section All

variable {behind : Nat → List UInt8 → Prop} {b : List UInt8} {base : Nat → Nat}
  {r r' r₁ : HttpRequest} {ts : List Token} {res : Option HttpRequest}

theorem readsAll_headers (hwf : ∀ t ∈ ts, t.WellFormed b)
    (h : ReadsAll behind b base r ts (some r')) :
    r'.headers = headerMap b base r.headers ts := by
  induction ts generalizing r with
  | nil =>
      cases h
      rfl
  | cons t ts ih =>
      rcases h with ⟨-, hn⟩ | ⟨r₁, h1, h2⟩
      · cases hn
      · rw [headerMap, List.foldl_cons,
          ← reads_headers (hwf t List.mem_cons_self) h1]
        exact ih (fun u hu => hwf u (List.mem_cons_of_mem t hu)) h2

/-- Tokens of other parts leave a part alone. -/
theorem readsAll_frame {κ : Part} (hwf : ∀ t ∈ ts, t.WellFormed b)
    (hκ : ∀ t ∈ ts, t.part ≠ some κ)
    (h : ReadsAll behind b base r ts (some r')) : part r' κ = part r κ := by
  induction ts generalizing r with
  | nil =>
      cases h
      rfl
  | cons t ts ih =>
      rcases h with ⟨-, hn⟩ | ⟨r₁, h1, h2⟩
      · cases hn
      · rw [ih (fun u hu => hwf u (List.mem_cons_of_mem t hu))
          (fun u hu => hκ u (List.mem_cons_of_mem t hu)) h2]
        exact reads_frame (hwf t List.mem_cons_self) h1 (hκ t List.mem_cons_self)

variable {relaxed : Bool} {q : State}

/-- What the tokens need of the calls they are read in. -/
structure Placed (b : List UInt8) (base : Nat → Nat) (t : Token) : Prop where
  wellFormed : t.WellFormed b
  start_le : ∀ e, t.stop = some e → t.start base ≤ e ∧ e < b.length

theorem Placed.compares {t : Token} {k : Nat} {r₂ : HttpRequest}
    (hstop : (scan relaxed b).ending = .stopped q) (ht : Placed b base t)
    (hline : SameLine r r') (hk : t.start base = k)
    (h1 : Reads (Follows b) b (t.start fun _ => 0) r t (some r₂))
    (h2 : Reads (fun _ _ => True) b k r' t res) : Compares t k b r₂ res := by
  subst hk
  rw [Token.start_zero] at h1
  exact reads_compares hstop ht.wellFormed hline ht.start_le h1 h2

/-- Tokens that are left whole give the same request line. -/
theorem readsAll_intact (hstop : (scan relaxed b).ending = .stopped q)
    (hts : ∀ t ∈ ts, Placed b base t) (hline : SameLine r r')
    (hintact : ∀ t ∈ ts, t.Intact b (t.start base))
    (h1 : ReadsAll (Follows b) b (fun _ => 0) r ts (some r₁))
    (h2 : ReadsAll (fun _ _ => True) b base r' ts res) :
    ∃ r₁', res = some r₁' ∧ SameLine r₁ r₁' := by
  induction ts generalizing r r' with
  | nil =>
      cases h1
      exact ⟨r', h2, hline⟩
  | cons t ts ih =>
      have ht := hts t List.mem_cons_self
      have hint := hintact t List.mem_cons_self
      rcases h1 with ⟨-, hn⟩ | ⟨r₂, h1, h1'⟩
      · cases hn
      · rcases h2 with ⟨h2, -⟩ | ⟨r₂', h2, h2'⟩
        · obtain ⟨x, hx, -⟩ := (ht.compares hstop hline rfl h1 h2).1 hint
          cases hx
        · obtain ⟨x, hx, hline'⟩ := (ht.compares hstop hline rfl h1 h2).1 hint
          cases hx
          exact ih (fun u hu => hts u (List.mem_cons_of_mem t hu)) hline'
            (fun u hu => hintact u (List.mem_cons_of_mem t hu)) h1' h2'

/-- **A token that is not left whole shows in its part**: no later token sets
that part again. -/
theorem readsAll_cut (hstop : (scan relaxed b).ending = .stopped q)
    (hts : ∀ t ∈ ts, Placed b base t) (hapart : ts.Pairwise Apart)
    (hline : SameLine r r') (hcut : ¬∀ t ∈ ts, t.Intact b (t.start base))
    (h1 : ReadsAll (Follows b) b (fun _ => 0) r ts (some r₁))
    {r₁' : HttpRequest} (h2 : ReadsAll (fun _ _ => True) b base r' ts (some r₁')) :
    ¬SameLine r₁ r₁' := by
  induction ts generalizing r r' with
  | nil => exact absurd (fun _ hu => nomatch hu) hcut
  | cons t ts ih =>
      have ht := hts t List.mem_cons_self
      have hts' : ∀ u ∈ ts, Placed b base u := fun u hu =>
        hts u (List.mem_cons_of_mem t hu)
      obtain ⟨hhead, htail⟩ := List.pairwise_cons.mp hapart
      rcases h1 with ⟨-, hn⟩ | ⟨r₂, h1, h1'⟩
      · cases hn
      rcases h2 with ⟨-, hn⟩ | ⟨r₂', h2, h2'⟩
      · cases hn
      obtain ⟨hwhole, hshows⟩ := ht.compares hstop hline rfl h1 h2
      by_cases hint : t.Intact b (t.start base)
      · obtain ⟨x, hx, hline'⟩ := hwhole hint
        cases hx
        refine ih hts' htail hline' ?_ h1' h2'
        intro hall
        exact hcut (List.forall_mem_cons.mpr ⟨hint, hall⟩)
      · obtain ⟨κ, hκ, hpart, hne⟩ := hshows hint r₂' rfl
        have hlater : ∀ u ∈ ts, u.part ≠ some κ := fun u hu hu' =>
          hκ (hhead u hu κ hpart hu')
        have hwf : ∀ u ∈ ts, u.WellFormed b := fun u hu => (hts' u hu).wellFormed
        intro hsame
        apply hne
        rw [← readsAll_frame hwf hlater h1', ← readsAll_frame hwf hlater h2']
        exact hsame κ hκ

end All

end Hps.Http.Request
