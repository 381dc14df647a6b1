import Hps.Http.Dump
import Hps.Http.Head

/-!
# HTTP — the parts of a head

`Parses b q p m r xs q' m' r'` says that the machine reads `xs` at `p` from
`q` to `q'`, and that the tokens it finds there make `r'` of the request `r`.
Such runs follow one another (`Parses.append`), and every part that
`HttpRequest::dump` writes is one: the request line (`parses_requestLine`),
and one line for every header (`parses_fields`).
-/

namespace Hps.Http.Request

open Hps.Lib

/-! ## Reading tokens -/

theorem readsAll_append {behind : Nat → List UInt8 → Prop} {b : List UInt8}
    {base : Nat → Nat} {r : HttpRequest} {ts us : List Token}
    {res : Option HttpRequest} (h : ReadsAll behind b base r (ts ++ us) res) :
    (ReadsAll behind b base r ts none ∧ res = none) ∨
      ∃ r', ReadsAll behind b base r ts (some r') ∧
        ReadsAll behind b base r' us res := by
  induction ts generalizing r with
  | nil => exact .inr ⟨r, rfl, h⟩
  | cons t ts ih =>
      rcases h with ⟨hn, rfl⟩ | ⟨r₁, h1, h2⟩
      · exact .inl ⟨.inl ⟨hn, rfl⟩, rfl⟩
      · rcases ih h2 with ⟨hts, rfl⟩ | ⟨r', hts, hus⟩
        · exact .inl ⟨.inr ⟨r₁, h1, hts⟩, rfl⟩
        · exact .inr ⟨r', .inr ⟨r₁, h1, hts⟩, hus⟩

/-- In one call the tokens make `r'` of `r`, and nothing else. -/
def Makes (b : List UInt8) (r : HttpRequest) (ts : List Token)
    (r' : HttpRequest) : Prop :=
  ∀ res, ReadsAll (fun _ _ => True) b (fun _ => 0) r ts res → res = some r'

section Makes

variable {b : List UInt8} {r r₁ r₂ : HttpRequest} {t : Token}
  {ts us : List Token}

theorem Makes.nil : Makes b r [] r := fun _ h => h

theorem Makes.append (h : Makes b r ts r₁) (h' : Makes b r₁ us r₂) :
    Makes b r (ts ++ us) r₂ := by
  intro res hres
  rcases readsAll_append hres with ⟨hts, -⟩ | ⟨r', hts, hus⟩
  · cases h none hts
  · cases h (some r') hts
    exact h' res hus

theorem Makes.one
    (h : ∀ res, Reads (fun _ _ => True) b 0 r t res → res = some r₁) :
    Makes b r [t] r₁ := by
  intro res hres
  simp only [ReadsAll, Token.start_zero] at hres
  rcases hres with ⟨hn, -⟩ | ⟨r', hr', rfl⟩
  · cases h none hn
  · exact h (some r') hr'

/-! ### Tokens that stand in the text -/

theorem Piece.slice {p : Nat} {xs : List UInt8} (h : Piece b p xs) :
    Request.slice b p (p + xs.length) = xs := by
  obtain ⟨rest, hrest⟩ := h.prefix_drop
  rw [Request.slice, hrest, Nat.add_sub_cancel_left, List.take_left]

theorem Piece.left {p : Nat} {xs ys : List UInt8} (h : Piece b p (xs ++ ys)) :
    Piece b p xs := by
  obtain ⟨rest, hrest⟩ := h.prefix_drop
  exact ⟨ys ++ rest, by rw [hrest, List.append_assoc]⟩

theorem Piece.right {p : Nat} {xs ys : List UInt8} (h : Piece b p (xs ++ ys)) :
    Piece b (p + xs.length) ys := by
  obtain ⟨rest, hrest⟩ := h.prefix_drop
  refine ⟨rest, ?_⟩
  rw [← List.drop_drop, hrest, List.append_assoc, List.drop_left]

variable {p : Nat} {xs : List UInt8}

theorem makes_path (h : Piece b p xs) :
    Makes b r [.element .requestPath p (p + xs.length)] (r.setPath xs) :=
  Makes.one fun res hres => by
    rw [hres, Nat.max_eq_left (Nat.zero_le p), h.slice]

theorem makes_uri (s e : Nat) : Makes b r [.element .requestUri s e] r :=
  Makes.one fun _ hres => hres

theorem makes_query (h : Piece b p xs) :
    Makes b r [.query (some p) (p + xs.length)] (r.setQuery xs) :=
  Makes.one fun res hres => by
    rw [(hres p rfl).1 (Nat.zero_le p), h.slice]

theorem makes_fragment (h : Piece b p xs) :
    Makes b r [.element .fragment p (p + xs.length)] (r.setFragment xs) :=
  Makes.one fun res hres => by
    rw [hres, Nat.max_eq_left (Nat.zero_le p), h.slice]

theorem makes_version {v : UInt8} (hv : readVersion r xs = some (r.setVersion v))
    (h : Piece b p xs) :
    Makes b r [.element .httpVersion p (p + xs.length)] (r.setVersion v) :=
  Makes.one fun res hres => by
    rw [hres, Nat.max_eq_left (Nat.zero_le p), h.slice, hv]

theorem makes_field {name value : List UInt8} {q : Nat} (hne : name ≠ [])
    (hname : Piece b p name) (hvalue : Piece b q value) :
    Makes b r [.field p p (p + name.length) q (q + value.length)]
      (r.setHeader name value) :=
  Makes.one fun res hres => by
    rw [hres, Nat.max_eq_left (Nat.zero_le p), Nat.max_eq_left (Nat.zero_le q),
      Nat.max_eq_left (Nat.zero_le _), hname.slice, hvalue.slice, readField,
      if_neg hne]

set_option maxRecDepth 10000 in
/-- A method whose name is a word is found by its name. -/
theorem method_of_upper {m : HttpMethod}
    (h : (httpMethodToString m).all upper = true) :
    charsToHttpMethod (httpMethodToString m) = m ∧ m ≠ .INVALID_METHOD ∧
      httpMethodToString m ≠ [] ∧ httpMethodToString m ≠ text "M" ∧
      (httpMethodToString m).length ≤ 20 := by
  revert h
  cases m <;> decide

theorem methodChar_of_upper {cs : List UInt8} (h : cs.all upper = true) :
    cs.all methodChar = true := by
  rw [List.all_eq_true] at h ⊢
  intro c hc
  simp [methodChar, h c hc]

theorem makes_method {m : HttpMethod}
    (hup : (httpMethodToString m).all upper = true)
    (h : Piece b 0 (httpMethodToString m)) :
    Makes b r [.element .requestMethod 0 (0 + (httpMethodToString m).length)]
      (r.setMethod m) :=
  Makes.one fun res hres => by
    obtain ⟨junk, -, hres⟩ := hres
    obtain ⟨hfound, hvalid, -, hne, -⟩ := method_of_upper hup
    rw [Nat.max_self, h.slice] at hres
    rw [hres, readMethod, charsToHttpMethod_blank (methodChar_of_upper hup)
      fun hm => absurd hm hne, hfound, if_neg hvalid]

end Makes

/-! ## Runs over the text -/

/-- The machine reads `xs` at `p` from `q` to `q'`, and the tokens it finds
make `r'` of `r`. -/
def Parses (relaxed : Bool) (b : List UInt8) (q : State) (p : Nat) (m : Marks)
    (r : HttpRequest) (xs : List UInt8) (q' : State) (m' : Marks)
    (r' : HttpRequest) : Prop :=
  ∃ ts, Machine.Runs (machine relaxed) scanAct q p m xs q' m' ts ∧ Makes b r ts r'

section Parses

variable {relaxed : Bool} {b : List UInt8} {q q₁ q₂ : State} {p : Nat}
  {m m₁ m₂ : Marks} {r r₁ r₂ : HttpRequest} {xs ys : List UInt8} {c : UInt8}

theorem Parses.nil : Parses relaxed b q p m r [] q m r := ⟨[], .nil, .nil⟩

theorem Parses.append (h : Parses relaxed b q p m r xs q₁ m₁ r₁)
    (h' : Parses relaxed b q₁ (p + xs.length) m₁ r₁ ys q₂ m₂ r₂) :
    Parses relaxed b q p m r (xs ++ ys) q₂ m₂ r₂ := by
  obtain ⟨ts, hts, hmake⟩ := h
  obtain ⟨us, hus, hmake'⟩ := h'
  exact ⟨ts ++ us, hts.append hus, hmake.append hmake'⟩

/-- One byte, with the calls of its actions. -/
theorem Parses.byte (as : List Action)
    (h : State.next relaxed q c = some (q₁, as))
    (hs : as.any (machine relaxed).stops = false)
    (hm : (acts scanAct p as m).1 = m₁)
    (hr : Makes b r (acts scanAct p as m).2 r₁) :
    Parses relaxed b q p m r [c] q₁ m₁ r₁ := by
  refine ⟨_, ?_, hr⟩
  subst hm
  exact .step (M := machine relaxed) h hs p m

theorem Parses.silent (h : State.next relaxed q c = some (q₁, [])) :
    Parses relaxed b q p m r [c] q₁ m r :=
  .byte [] h rfl rfl .nil

theorem Parses.cons (h : Parses relaxed b q p m r [c] q₁ m₁ r₁)
    (h' : Parses relaxed b q₁ (p + 1) m₁ r₁ xs q₂ m₂ r₂) :
    Parses relaxed b q p m r (c :: xs) q₂ m₂ r₂ :=
  h.append h'

/-- Bytes that lead back to where they come from. -/
theorem Parses.loop (h : ∀ c ∈ xs, State.next relaxed q c = some (q, [])) :
    Parses relaxed b q p m r xs q m r := by
  induction xs generalizing p with
  | nil => exact .nil
  | cons c xs ih =>
      exact (Parses.silent (h c List.mem_cons_self)).cons
        (ih fun d hd => h d (List.mem_cons_of_mem c hd))

/-! ### Percent-encoded parts -/

/-- A rule whose bytes may be percent-encoded: how it is entered at `q₀`, and
its own states. -/
structure Encoded (relaxed : Bool) (has : UInt8 → Bool) (q₀ q pct digit : State)
    (entering : List Action) : Prop where
  char : ∀ c, has c = true → State.next relaxed q₀ c = some (q, entering)
  sign : State.next relaxed q₀ (ch '%') = some (pct, entering)
  first : ∀ c, xdigit c = true → State.next relaxed pct c = some (digit, [])
  second : ∀ c, xdigit c = true → State.next relaxed digit c = some (q, [])

variable {has : UInt8 → Bool} {q₀ pct digit : State} {entering : List Action}

theorem Encoded.parses (h : Encoded relaxed has q q pct digit [])
    (hxs : units has xs = true) : Parses relaxed b q p m r xs q m r := by
  induction xs using units.induct generalizing p with
  | case1 => exact .nil
  | case2 x y xs ih =>
      rw [units_pct, Bool.and_eq_true, Bool.and_eq_true] at hxs
      exact (Parses.silent h.sign).cons ((Parses.silent (h.first x hxs.1.1)).cons
        ((Parses.silent (h.second y hxs.1.2)).cons (ih hxs.2)))
  | case3 xs hshort =>
      obtain ⟨x, y, xs', rfl, -⟩ := exists_of_units_pct hxs
      exact absurd rfl (hshort x y xs')
  | case4 c xs hc ih =>
      rw [units_cons hc, Bool.and_eq_true] at hxs
      exact (Parses.silent (h.char c hxs.1)).cons (ih hxs.2)

/-- The first byte runs the entering actions. -/
theorem Encoded.enters (h : Encoded relaxed has q₀ q pct digit entering)
    (hin : Encoded relaxed has q q pct digit [])
    (hs : entering.any (machine relaxed).stops = false)
    (hm : acts scanAct p entering m = (m₁, [])) (hne : xs ≠ [])
    (hxs : units has xs = true) : Parses relaxed b q₀ p m r xs q m₁ r := by
  have hbyte : ∀ {c q₁}, State.next relaxed q₀ c = some (q₁, entering) →
      Parses relaxed b q₀ p m r [c] q₁ m₁ r := fun hn =>
    .byte entering hn hs (by rw [hm]) (by rw [hm]; exact .nil)
  cases xs with
  | nil => exact absurd rfl hne
  | cons c xs =>
      by_cases hc : c = ch '%'
      · subst hc
        obtain ⟨x, y, xs', rfl, hx, hy, hrest⟩ := exists_of_units_pct hxs
        exact (hbyte h.sign).cons ((Parses.silent (h.first x hx)).cons
          ((Parses.silent (h.second y hy)).cons (hin.parses hrest)))
      · rw [units_cons hc, Bool.and_eq_true] at hxs
        exact (hbyte (h.char c hxs.1)).cons (hin.parses hxs.2)

/-! ### The request line -/

theorem queryChar_ne {relaxed : Bool} {c : UInt8}
    (h : queryChar relaxed c = true) :
    c ≠ ch ' ' ∧ c ≠ ch '#' ∧ c ≠ ch '%' := by
  refine ⟨?_, ?_, ?_⟩ <;>
  · rintro rfl
    cases relaxed <;> exact absurd h (by decide)

theorem queryNext_char (entering : List Action) (h : queryChar relaxed c = true) :
    queryNext relaxed entering c = some (.query, entering) := by
  obtain ⟨h1, h2, h3⟩ := queryChar_ne h
  simp [queryNext, h1, h2, h3, h]

theorem fragmentNext_char (entering : List Action)
    (h : queryChar relaxed c = true) :
    fragmentNext relaxed entering c = some (.fragment, entering) := by
  obtain ⟨h1, -, h3⟩ := queryChar_ne h
  simp [fragmentNext, h1, h3, h]

theorem query_encoded (relaxed : Bool) :
    Encoded relaxed (queryChar relaxed) .query .query .queryPct .queryPctDigit
      [] where
  char _ h := queryNext_char [] h
  sign := rfl
  first _ h := if_pos h
  second _ h := if_pos h

theorem queryStart_encoded (relaxed : Bool) :
    Encoded relaxed (queryChar relaxed) .queryStart .query .queryPct
      .queryPctDigit [.startQuery] where
  char _ h := queryNext_char [.startQuery] h
  sign := rfl
  first _ h := if_pos h
  second _ h := if_pos h

theorem fragment_encoded (relaxed : Bool) :
    Encoded relaxed (queryChar relaxed) .fragment .fragment .fragmentPct
      .fragmentPctDigit [] where
  char _ h := fragmentNext_char [] h
  sign := rfl
  first _ h := if_pos h
  second _ h := if_pos h

theorem fragmentStart_encoded (relaxed : Bool) :
    Encoded relaxed (queryChar relaxed) .fragmentStart .fragment .fragmentPct
      .fragmentPctDigit [.mark] where
  char _ h := fragmentNext_char [.mark] h
  sign := rfl
  first _ h := if_pos h
  second _ h := if_pos h

theorem parses_methodChars {n : Nat} (hxs : xs.all upper = true)
    (hn : n + xs.length ≤ 20) :
    Parses relaxed b (.method n) p m r xs (.method (n + xs.length)) m r := by
  induction xs generalizing n p with
  | nil => exact .nil
  | cons c xs ih =>
      rw [List.all_cons, Bool.and_eq_true] at hxs
      rw [List.length_cons] at hn ⊢
      have hc : c ≠ ch ' ' := by
        rintro rfl
        exact absurd hxs.1 (by decide)
      have hnext : State.next relaxed (.method n) c = some (.method (n + 1), []) := by
        simp [State.next, hc, hxs.1, show n < 20 by omega]
      have hrest := ih (n := n + 1) (p := p + 1) hxs.2 (by omega)
      rw [show n + 1 + xs.length = n + (xs.length + 1) by omega] at hrest
      exact (Parses.silent hnext).cons hrest

theorem parses_method {method : HttpMethod}
    (hup : (httpMethodToString method).all upper = true)
    (hb : Piece b 0 (httpMethodToString method)) :
    Parses relaxed b .start 0 {} r (httpMethodToString method ++ text " ") .uri {}
      (r.setMethod method) := by
  have hmake := makes_method (r := r) hup hb
  obtain ⟨-, -, hne, -, hlen⟩ := method_of_upper hup
  have hblank : Parses relaxed b (.method (httpMethodToString method).length)
      (0 + (httpMethodToString method).length) {} r [ch ' '] .uri {}
      (r.setMethod method) :=
    .byte [.requestMethod] (by simp [State.next]) rfl rfl hmake
  refine Parses.append ?_ hblank
  cases hname : httpMethodToString method with
  | nil => exact absurd hname hne
  | cons c cs =>
      rw [hname, List.all_cons, Bool.and_eq_true] at hup
      rw [hname, List.length_cons] at hlen
      have hstart : State.next relaxed .start c = some (.method 1, [.mark]) :=
        if_pos (by simp [hup.1])
      have hchars : Parses relaxed b (.method 1) (0 + 1) {} r cs
          (.method (1 + cs.length)) {} r := parses_methodChars hup.2 (by omega)
      rw [Nat.add_comm 1] at hchars
      exact (Parses.byte [.mark] hstart rfl rfl .nil).cons hchars

theorem PathState.next_ne_hierPart {s s' : PathState}
    (h : s.next relaxed c = some s') : s' ≠ .hierPart := by
  rintro rfl
  by_cases hs : s.inner = true
  · cases PathState.next_inner hs h
  · cases s
    case relativePart | hierPart | slash =>
      simp only [PathState.next] at h
      split_ifs at h
      all_goals first
        | cases h
        | exact absurd (Chars.next_inner h) Bool.false_ne_true
    all_goals exact hs rfl

/-- What ends a path is no byte of it. -/
theorem PathState.next_end {s : PathState} (hf : s.final = true)
    (hc : c = ch ' ' ∨ c = ch '#' ∨ c = ch '?') : s.next relaxed c = none := by
  cases s with
  | chars x =>
      rcases hc with rfl | rfl | rfl <;> cases x <;> cases relaxed <;> rfl
  | pct x => cases hf
  | pctDigit x => cases hf
  | ipLiteral rest => cases hf
  | hostPort => rcases hc with rfl | rfl | rfl <;> rfl
  | ipLiteralEnd => rcases hc with rfl | rfl | rfl <;> rfl
  | relativePart => rcases hc with rfl | rfl | rfl <;> cases relaxed <;> rfl
  | hierPart => rcases hc with rfl | rfl | rfl <;> cases relaxed <;> rfl
  | slash => rcases hc with rfl | rfl | rfl <;> cases relaxed <;> rfl
  | authority => rcases hc with rfl | rfl | rfl <;> cases relaxed <;> rfl
  | port => rcases hc with rfl | rfl | rfl <;> cases relaxed <;> rfl
  | host => rcases hc with rfl | rfl | rfl <;> cases relaxed <;> rfl

theorem uriNext_path {s s' : PathState} (entering : List Action)
    (h : s.next relaxed c = some s') :
    uriNext relaxed s entering c = some (.path s', entering) := by
  have hend : ¬(s.final = true ∧ (c = ch ' ' ∨ c = ch '#' ∨ c = ch '?')) := by
    rintro ⟨hf, hc⟩
    rw [PathState.next_end hf hc] at h
    cases h
  unfold uriNext
  rw [if_neg (by tauto), if_neg (by tauto), if_neg (by tauto), h, Option.map_some]

theorem parses_pathChars {s s' : PathState} (hs : s ≠ .hierPart)
    (hrun : s.run relaxed xs = some s') :
    Parses relaxed b (.path s) p m r xs (.path s') m r := by
  induction xs generalizing s p with
  | nil =>
      cases hrun
      exact .nil
  | cons c xs ih =>
      obtain ⟨s₁, h1, h2⟩ := Option.bind_eq_some_iff.mp
        (List.foldlM_cons.symm.trans hrun)
      have hnext : State.next relaxed (.path s) c = some (.path s₁, []) := by
        rw [← uriNext_path [] h1]
        cases s <;> first | rfl | exact absurd rfl hs
      exact (Parses.silent hnext).cons (ih (PathState.next_ne_hierPart h1) h2)

theorem parses_path {rest : List UInt8} {s : PathState}
    (hrun : PathState.run relaxed .slash rest = some s) :
    Parses relaxed b .uri p m r (ch '/' :: rest) (.path s) { m with mark := p }
      r := by
  have hnext : State.next relaxed .uri (ch '/') = some (.path .slash, [.mark]) := rfl
  exact (Parses.byte [.mark] hnext rfl rfl .nil).cons (parses_pathChars nofun hrun)

/-- The version and the end of its line. -/
theorem parses_version {v : UInt8} (hv : v = 0x10 ∨ v = 0x11)
    (hb : Piece b p (versionLine v)) :
    Parses relaxed b (.version 0) p m r (versionLine v) .line { m with mark := p }
      (r.setVersion v) := by
  obtain ⟨d, hline, hread, hd⟩ : ∃ d,
      versionLine v = (versionText ++ [d]) ++ text "\r\n" ∧
      readVersion r (versionText ++ [d]) = some (r.setVersion v) ∧
      (d = ch '0' ∨ d = ch '1') := by
    rcases hv with rfl | rfl
    · exact ⟨ch '0', by decide, rfl, .inl rfl⟩
    · exact ⟨ch '1', by decide, rfl, .inr rfl⟩
  rw [hline] at hb ⊢
  have hmake := makes_version hread hb.left
  have h8 : State.next relaxed (.version 7) d = some (.version 8, []) := by
    rcases hd with rfl | rfl <;> rfl
  have htext : Parses relaxed b (.version 0) p m r versionText (.version 7)
      { m with mark := p } r :=
    Parses.cons (.byte [.mark] rfl rfl rfl .nil) <| Parses.cons (.silent rfl) <|
      Parses.cons (.silent rfl) <| Parses.cons (.silent rfl) <|
      Parses.cons (.silent rfl) <| Parses.cons (.silent rfl) (.silent rfl)
  have hcr : Parses relaxed b (.version 8) (p + (versionText ++ [d]).length)
      { m with mark := p } r [13] .crlf { m with mark := p } (r.setVersion v) :=
    .byte [.httpVersion] rfl rfl rfl hmake
  exact (htext.append (.silent h8)).append (hcr.cons (.silent rfl))

/-- A part of the URI that ends here: a blank and a `#` call for it alike. -/
structure Ends (relaxed : Bool) (b : List UInt8) (q : State) (p : Nat)
    (m : Marks) (r r' : HttpRequest) : Prop where
  blank : Parses relaxed b q p m r [ch ' '] (.version 0) m r'
  hash : Parses relaxed b q p m r [ch '#'] .fragmentStart m r'

theorem State.next_path {s : PathState} (hs : s ≠ .hierPart) (c : UInt8) :
    State.next relaxed (.path s) c = uriNext relaxed s [] c := by
  cases s <;> first | rfl | exact absurd rfl hs

theorem path_ends {s : PathState} {path : List UInt8} (hs : s ≠ .hierPart)
    (hf : s.final = true) (hb : Piece b m.mark path) :
    Ends relaxed b (.path s) (m.mark + path.length) m r (r.setPath path) := by
  have hmake := (makes_path (r := r) hb).append
    (makes_uri m.mark (m.mark + path.length))
  constructor
  · refine .byte [.requestPath, .requestUri] ?_ rfl rfl hmake
    rw [State.next_path hs]
    exact if_pos ⟨hf, rfl⟩
  · refine .byte [.requestPath, .requestUri] ?_ rfl rfl hmake
    rw [State.next_path hs, uriNext, if_neg (by rintro ⟨-, h⟩; cases h)]
    exact if_pos ⟨hf, rfl⟩

theorem query_ends {query : List UInt8} (hq : m.query = some p)
    (hb : Piece b p query) :
    Ends relaxed b .query (p + query.length) m r (r.setQuery query) := by
  have hmake := (makes_query (r := r) hb).append
    (makes_uri m.mark (p + query.length))
  rw [← hq] at hmake
  exact ⟨.byte [.queryString, .requestUri] rfl rfl rfl hmake,
    .byte [.queryString, .requestUri] rfl rfl rfl hmake⟩

/-- The fragment, if there is one, and the version. -/
theorem parses_fragment {f : List UInt8} {v : UInt8}
    (hend : Ends relaxed b q p m r r₁) (hfr : r₁.fragment = [])
    (hf : units (queryChar relaxed) f = true) (hv : v = 0x10 ∨ v = 0x11)
    (hb : Piece b p (announced (text "#") f ++ (text " " ++ versionLine v))) :
    ∃ m', m'.socket = m.socket ∧
      Parses relaxed b q p m r
        (announced (text "#") f ++ (text " " ++ versionLine v)) .line m'
        ((r₁.setFragment f).setVersion v) := by
  by_cases hne : f = []
  · subst hne
    have hsame : r₁.setFragment [] = r₁ := by
      rw [HttpRequest.setFragment, ← hfr]
    have hb' : Piece b p (text " " ++ versionLine v) := hb
    rw [hsame]
    exact ⟨{ m with mark := p + 1 }, rfl,
      hend.blank.append (parses_version hv hb'.right)⟩
  · rw [announced, if_neg hne, List.append_assoc] at hb ⊢
    have hb' := hb.right
    have henter : Parses relaxed b .fragmentStart (p + 1) m r₁ f .fragment
        { m with mark := p + 1 } r₁ :=
      (fragmentStart_encoded relaxed).enters (fragment_encoded relaxed) rfl rfl
        hne hf
    have hblank : Parses relaxed b .fragment (p + 1 + f.length)
        { m with mark := p + 1 } r₁ [ch ' '] (.version 0) { m with mark := p + 1 }
        (r₁.setFragment f) :=
      .byte [.fragment] rfl rfl rfl (makes_fragment hb'.left)
    exact ⟨{ m with mark := p + 1 + f.length + 1 }, rfl,
      hend.hash.append (henter.append (hblank.append
        (parses_version hv hb'.right.right)))⟩

variable (relaxed) in
/-- The path, and the query, if there is one. -/
theorem parses_query {s : PathState} {path query f : List UInt8} {v : UInt8}
    (hs : s ≠ .hierPart) (hfin : s.final = true) (hfr : r.fragment = [])
    (hqr : r.query = []) (hq : units (queryChar relaxed) query = true)
    (hf : units (queryChar relaxed) f = true) (hv : v = 0x10 ∨ v = 0x11)
    (hb : Piece b m.mark (path ++ (announced (text "?") query ++
      (announced (text "#") f ++ (text " " ++ versionLine v))))) :
    ∃ m', m'.socket = m.socket ∧
      Parses relaxed b (.path s) (m.mark + path.length) m r
        (announced (text "?") query ++
          (announced (text "#") f ++ (text " " ++ versionLine v))) .line m'
        ((((r.setPath path).setQuery query).setFragment f).setVersion v) := by
  by_cases hne : query = []
  · subst hne
    have hsame : (r.setPath path).setQuery [] = r.setPath path := by
      rw [HttpRequest.setQuery, HttpRequest.setPath, ← hqr]
    rw [hsame]
    exact parses_fragment (path_ends hs hfin hb.left) hfr hf hv hb.right
  · rw [announced, if_neg hne, List.append_assoc] at hb ⊢
    have hb' := hb.right.right
    have hsign : Parses relaxed b (.path s) (m.mark + path.length) m r [ch '?']
        .queryStart m (r.setPath path) := by
      refine .byte [.requestPath] ?_ rfl rfl (makes_path hb.left)
      rw [State.next_path hs, uriNext, if_neg (by rintro ⟨-, h⟩; cases h),
        if_neg (by rintro ⟨-, h⟩; cases h)]
      exact if_pos ⟨hfin, rfl⟩
    have henter : Parses relaxed b .queryStart (m.mark + path.length + 1) m
        (r.setPath path) query .query
        { m with query := some (m.mark + path.length + 1) } (r.setPath path) :=
      (queryStart_encoded relaxed).enters (query_encoded relaxed) rfl rfl hne hq
    obtain ⟨m', hsock, hrest⟩ := parses_fragment
      (query_ends (m := { m with query := some (m.mark + path.length + 1) })
        (r := r.setPath path) rfl hb'.left) hfr hf hv hb'.right
    exact ⟨m', hsock, hsign.append (henter.append hrest)⟩

/-- The request behind its first line. -/
def readLine (r : HttpRequest) : HttpRequest where
  method := r.method
  path := r.path
  query := r.query
  fragment := r.fragment
  version := r.version

/-- **The request line is read back.** -/
theorem parses_requestLine (h : Encodable relaxed r)
    (ha : AuthorityOk relaxed r.path) (hb : Piece b 0 (requestLine r)) :
    ∃ m', m'.socket = false ∧
      Parses relaxed b .start 0 {} {} (requestLine r) .line m' (readLine r) := by
  obtain ⟨rest, hpath, hrest⟩ := h.path
  rw [hpath] at ha
  obtain ⟨s, hrun, hfin, hs⟩ := path_taken hrest ha
  rw [requestLine, ← List.append_assoc] at hb ⊢
  set r₀ := ({} : HttpRequest).setMethod r.method
  set p := 0 + (httpMethodToString r.method ++ text " ").length
  have hmethod : Parses relaxed b .start 0 {} {}
      (httpMethodToString r.method ++ text " ") .uri {} r₀ :=
    parses_method h.method hb.left.left
  have hp : Parses relaxed b .uri p {} r₀ r.path (.path s) { mark := p } r₀ := by
    rw [hpath]
    exact parses_path hrun
  obtain ⟨m', hsock, hline⟩ := parses_query relaxed (r := r₀)
    (m := { mark := p }) hs hfin rfl rfl h.query h.fragment h.version hb.right
  exact ⟨m', hsock, hmethod.append (hp.append hline)⟩

/-! ### Header lines -/

theorem nameNext_token (h : token c = true) :
    nameNext c = some (.fieldName, []) := by
  have hc : c ≠ ch ':' := by
    rintro rfl
    exact absurd h (by decide)
  simp [nameNext, hc, h]

variable (relaxed) in
/-- A name is read up to its colon. -/
theorem parses_name {name : List UInt8} (h : NameOk name) :
    ∃ q₁, State.next relaxed q₁ (ch ':') = some (.fieldLws, [.writeField]) ∧
      Parses relaxed b .line p m r name q₁ { m with field := p } r := by
  obtain ⟨hne, htok, hlf, hcrlf⟩ := h
  have hloop : ∀ {cs : List UInt8} {p : Nat} {m : Marks},
      (∀ c ∈ cs, token c = true) →
      Parses relaxed b .fieldName p m r cs .fieldName m r := fun hcs =>
    .loop fun c hc => nameNext_token (hcs c hc)
  cases name with
  | nil => exact absurd rfl hne
  | cons c cs =>
      have hcs : ∀ d ∈ cs, token d = true := fun d hd =>
        htok d (List.mem_cons_of_mem c hd)
      have h10 : c ≠ 10 := by
        rintro rfl
        exact hlf ⟨cs, rfl⟩
      by_cases h13 : c = 13
      · subst h13
        have hcr : Parses relaxed b .line p m r [13] .lineCr { m with field := p } r :=
          .byte [.startField] rfl rfl rfl .nil
        cases cs with
        | nil => exact ⟨.lineCr, rfl, hcr⟩
        | cons d ds =>
            have hd : d ≠ 10 := by
              rintro rfl
              exact hcrlf ⟨ds, rfl⟩
            have hnext : State.next relaxed .lineCr d = some (.fieldName, []) :=
              (if_neg hd).trans (nameNext_token (hcs d List.mem_cons_self))
            exact ⟨.fieldName, rfl, hcr.cons ((Parses.silent hnext).cons
              (hloop fun e he => hcs e (List.mem_cons_of_mem d he)))⟩
      · have hnext : State.next relaxed .line c = some (.fieldName, [.startField]) := by
          simp [State.next, h10, h13, htok c List.mem_cons_self]
        exact ⟨.fieldName, rfl,
          (Parses.byte [.startField] hnext rfl rfl .nil).cons (hloop hcs)⟩

theorem valueNext_char (entering : List Action)
    (h : httpCtl c = false ∧ c ≠ 10 ∧ c ≠ 13) :
    valueNext entering c = some (.fieldValue, entering) := by
  simp [valueNext, h.1, h.2.1, h.2.2]

/-- A value is read up to the end of its line. -/
theorem parses_value {name value : List UInt8} {n : Nat} (hne : name ≠ [])
    (h : ValueOk value) (hname : Piece b n name) (hvalue : Piece b p value)
    (hf : m.field = n) (hn : m.nameStart = n) (hs : m.nameStop = n + name.length) :
    Parses relaxed b .fieldLws p m r (value ++ text "\r\n") .line
      { m with mark := p } (r.setHeader name value) := by
  have hmake := makes_field (r := r) hne hname hvalue
  obtain ⟨hline, hblank, htab⟩ := h
  have hlf : Parses relaxed b .crlf (p + value.length + 1) { m with mark := p }
      (r.setHeader name value) [10] .line { m with mark := p }
      (r.setHeader name value) := .silent rfl
  cases value with
  | nil =>
      have hcr : Parses relaxed b .fieldLws p m r [13] .crlf { m with mark := p }
          (r.setHeader name []) := by
        refine .byte [.startValue, .writeValue] rfl rfl rfl ?_
        simp only [acts, scanAct, List.append_nil, List.nil_append, hf, hn, hs]
        exact hmake
      exact hcr.cons hlf
  | cons c cs =>
      have h32 : c ≠ ch ' ' := by
        rintro rfl
        exact hblank ⟨cs, rfl⟩
      have h9 : c ≠ 9 := by
        rintro rfl
        exact htab ⟨cs, rfl⟩
      have hnext : State.next relaxed .fieldLws c =
          some (.fieldValue, [.startValue]) := by
        rw [State.next, if_neg (not_or.mpr ⟨h32, h9⟩)]
        exact valueNext_char _ (hline c List.mem_cons_self)
      have hfirst : Parses relaxed b .fieldLws p m r [c] .fieldValue
          { m with mark := p } r := .byte [.startValue] hnext rfl rfl .nil
      have hrest : Parses relaxed b .fieldValue (p + 1) { m with mark := p } r cs
          .fieldValue { m with mark := p } r :=
        .loop fun d hd => valueNext_char [] (hline d (List.mem_cons_of_mem c hd))
      have hcr : Parses relaxed b .fieldValue (p + (c :: cs).length)
          { m with mark := p } r [13] .crlf { m with mark := p }
          (r.setHeader name (c :: cs)) := by
        refine .byte [.writeValue] rfl rfl rfl ?_
        simp only [acts, scanAct, List.append_nil, hf, hn, hs]
        exact hmake
      exact (hfirst.cons hrest).append (hcr.cons hlf)

variable (relaxed) in
theorem parses_fieldLine {x : List UInt8 × List UInt8} (hx : NameOk x.1)
    (hv : ValueOk x.2) (hb : Piece b p (fieldLine x)) :
    ∃ m', m'.socket = m.socket ∧
      Parses relaxed b .line p m r (fieldLine x) .line m' (r.setHeader x.1 x.2) := by
  obtain ⟨q₁, hcolon, hname⟩ := parses_name relaxed (b := b) (p := p)
    (m := m) (r := r) hx
  have h1 : Parses relaxed b q₁ (p + x.1.length) { m with field := p } r [ch ':']
      .fieldLws
      { m with field := p, nameStart := p, nameStop := p + x.1.length } r :=
    .byte [.writeField] hcolon rfl rfl .nil
  have h2 : Parses relaxed b .fieldLws (p + x.1.length + 1)
      { m with field := p, nameStart := p, nameStop := p + x.1.length } r [ch ' ']
      .fieldLws
      { m with
        field := p, nameStart := p, nameStop := p + x.1.length
        mark := p + x.1.length + 1 } r :=
    .byte [.startValue] rfl rfl rfl .nil
  have hvalue : Piece b (p + x.1.length + 2) x.2 := hb.right.right.left
  refine ⟨{ m with
    field := p, nameStart := p, nameStop := p + x.1.length
    mark := p + x.1.length + 2 }, rfl, ?_⟩
  exact hname.append (h1.cons (h2.append
    (parses_value hx.nonempty hv hb.left hvalue rfl rfl rfl)))

variable (relaxed) in
/-- **The header lines are read back**, in their order. -/
theorem parses_fields {xs : List (List UInt8 × List UInt8)}
    (hxs : ∀ x ∈ xs, NameOk x.1 ∧ ValueOk x.2)
    (hb : Piece b p (xs.flatMap fieldLine)) :
    ∃ m', m'.socket = m.socket ∧
      Parses relaxed b .line p m r (xs.flatMap fieldLine) .line m'
        { r with headers := OrderedMap.setAll NameLess r.headers xs } := by
  induction xs generalizing p m r with
  | nil => exact ⟨m, rfl, .nil⟩
  | cons x xs ih =>
      rw [List.flatMap_cons] at hb ⊢
      obtain ⟨hname, hvalue⟩ := hxs x List.mem_cons_self
      obtain ⟨m₁, hm₁, hfirst⟩ := parses_fieldLine relaxed (m := m)
        (r := r) hname hvalue hb.left
      obtain ⟨m', hm', hrest⟩ := ih (m := m₁) (r := r.setHeader x.1 x.2)
        (fun y hy => hxs y (List.mem_cons_of_mem x hy)) hb.right
      rw [HttpRequest.setHeader, MapType.set_eq] at hrest hfirst
      exact ⟨m', hm'.trans hm₁, hfirst.append hrest⟩

end Parses

end Hps.Http.Request
