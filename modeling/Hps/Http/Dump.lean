import Hps.Http.Headers

/-!
# HTTP — requests as text

`HttpRequest::dump` writes a request without looking at it. This module says
which requests it can write so that the grammar of the parser takes them back
(`Encodable`), and what a path has to be for that: one that begins with `//`
begins, to the grammar, with an authority.
-/

namespace Hps.Http

open Hps.Lib

/-! ## Writing -/

/-- `HttpMethodToString`: the names are found by the number of the method. -/
def httpMethodToString (m : HttpMethod) : List UInt8 :=
  match httpMethodMap[m.ctorIdx]? with
  | some x => text x.2
  | none => text "<unknown>"

namespace HttpRequest

/-- `m_body.size()` -/
def bodySize (r : HttpRequest) : UInt64 := UInt64.ofNat r.body.length

/-- `dump(os)`, for the `m_websocket` of the request. -/
def dump (websocket : Bool) (r : HttpRequest) : List UInt8 :=
  httpMethodToString r.method ++ text " " ++
    r.path ++
    (if r.query = [] then [] else text "?") ++
    r.query ++
    (if r.fragment = [] then [] else text "#") ++
    r.fragment ++
    text " HTTP/" ++
    decimal (r.version >>> 4).toNat ++
    text "." ++
    decimal (r.version &&& 0x0F).toNat ++
    text "\r\n" ++
    (if !websocket then
      text "connection: " ++ (if r.close then text "close" else text "keep-alive") ++
        text "\r\n"
    else []) ++
    (r.headers.flatMap fun i =>
      if !websocket && strcasecmp i.1 (text "connection") == .eq then []
      else i.1 ++ text ": " ++ i.2 ++ text "\r\n") ++
    (if r.body ≠ [] then
      text "content-length: " ++ decimal r.bodySize.toNat ++ text "\r\n\r\n" ++
        r.body
    else text "\r\n")

/-- `toString()` -/
def toString (websocket : Bool) (r : HttpRequest) : List UInt8 :=
  r.dump websocket

end HttpRequest

namespace Request

/-! ## What is written -/

/-- The value of the connection header. -/
def connectionValue (r : HttpRequest) : List UInt8 :=
  if r.close then text "close" else text "keep-alive"

/-- The headers in the order in which they are written. -/
def writtenFields (r : HttpRequest) : List (List UInt8 × List UInt8) :=
  (text "connection", connectionValue r) :: (r.headers ++
    if r.body = [] then []
    else [(text "content-length", decimal r.bodySize.toNat)])

def fieldLine (x : List UInt8 × List UInt8) : List UInt8 :=
  x.1 ++ (text ": " ++ (x.2 ++ text "\r\n"))

/-- A part of the URI with what announces it, if there is one. -/
def announced (sign : List UInt8) (part : List UInt8) : List UInt8 :=
  if part = [] then [] else sign ++ part

def versionLine (v : UInt8) : List UInt8 :=
  text "HTTP/" ++ (decimal (v >>> 4).toNat ++ (text "." ++
    (decimal (v &&& 0x0F).toNat ++ text "\r\n")))

def requestLine (r : HttpRequest) : List UInt8 :=
  httpMethodToString r.method ++ (text " " ++ (r.path ++
    (announced (text "?") r.query ++ (announced (text "#") r.fragment ++
      (text " " ++ versionLine r.version)))))

/-- Everything up to the body. -/
def headText (r : HttpRequest) : List UInt8 :=
  requestLine r ++ ((writtenFields r).flatMap fieldLine ++ text "\r\n")

theorem announced_append (sign part rest : List UInt8) :
    (if part = [] then [] else sign) ++ (part ++ rest) =
      announced sign part ++ rest := by
  unfold announced
  split
  · rename_i h
    rw [h, List.nil_append]
  · rw [List.append_assoc]

/-- **A request is its head and its body.** -/
theorem toString_eq {r : HttpRequest}
    (h : ∀ x ∈ r.headers, ¬SameName x.1 (text "connection")) :
    r.toString false = headText r ++ r.body := by
  have hfields : (r.headers.flatMap fun i =>
      if !false && strcasecmp i.1 (text "connection") == .eq then []
      else i.1 ++ text ": " ++ i.2 ++ text "\r\n") =
        r.headers.flatMap fieldLine := by
    refine List.flatMap_congr fun x hx => ?_
    have hx : (strcasecmp x.1 (text "connection") == .eq) = false := by
      simpa [SameName] using h x hx
    simp [hx, fieldLine]
  have hhttp : text " HTTP/" = text " " ++ text "HTTP/" := rfl
  have hconn : text "connection: " = text "connection" ++ text ": " := rfl
  have hlen : text "content-length: " = text "content-length" ++ text ": " := rfl
  have hend : text "\r\n\r\n" = text "\r\n" ++ text "\r\n" := rfl
  rw [HttpRequest.toString, HttpRequest.dump, hfields]
  simp only [hhttp, hconn, hlen, hend, List.append_assoc, announced_append,
    headText, requestLine, versionLine, writtenFields, List.flatMap_cons,
    List.flatMap_append, fieldLine, connectionValue, Bool.not_false, if_true]
  by_cases hb : r.body = []
  · simp [hb]
  · simp [hb, fieldLine]

/-! ## What may be written -/

/-- `( c | pct_encoded )*` for the bytes `c` of a class. -/
def units (has : UInt8 → Bool) : List UInt8 → Bool
  | [] => true
  | c :: cs =>
      if c = ch '%' then
        match cs with
        | a :: b :: cs => xdigit a && xdigit b && units has cs
        | _ => false
      else has c && units has cs

section Units

variable {has : UInt8 → Bool} {c : UInt8} {cs : List UInt8}

theorem units_cons (hc : c ≠ ch '%') :
    units has (c :: cs) = (has c && units has cs) := by
  rcases cs with _ | ⟨a, _ | ⟨b, cs⟩⟩ <;> exact if_neg hc

@[simp] theorem units_pct (a b : UInt8) :
    units has (ch '%' :: a :: b :: cs) = (xdigit a && xdigit b && units has cs) :=
  rfl

/-- Behind the `%` there are two digits. -/
theorem exists_of_units_pct (h : units has (ch '%' :: cs) = true) :
    ∃ a b cs', cs = a :: b :: cs' ∧ xdigit a = true ∧ xdigit b = true ∧
      units has cs' = true := by
  rcases cs with _ | ⟨a, _ | ⟨b, cs⟩⟩
  · cases h
  · cases h
  · rw [units_pct, Bool.and_eq_true, Bool.and_eq_true] at h
    exact ⟨a, b, cs, rfl, h.1.1, h.1.2, h.2⟩

theorem mem_of_units (h : units has cs = true) :
    ∀ c ∈ cs, has c = true ∨ c = ch '%' ∨ xdigit c = true := by
  induction cs using units.induct with
  | case1 => exact fun _ hc => nomatch hc
  | case2 a b cs ih =>
      rw [units_pct, Bool.and_eq_true, Bool.and_eq_true] at h
      intro c hc
      rcases List.mem_cons.mp hc with rfl | hc
      · exact .inr (.inl rfl)
      · rcases List.mem_cons.mp hc with rfl | hc
        · exact .inr (.inr h.1.1)
        · rcases List.mem_cons.mp hc with rfl | hc
          · exact .inr (.inr h.1.2)
          · exact ih h.2 c hc
  | case3 cs hshort =>
      obtain ⟨a, b, cs', rfl, -⟩ := exists_of_units_pct h
      exact absurd rfl (hshort a b cs')
  | case4 d cs hd ih =>
      rw [units_cons hd, Bool.and_eq_true] at h
      intro c hc
      rcases List.mem_cons.mp hc with rfl | hc
      · exact .inl h.1
      · exact ih h.2 c hc

/-- A slash does not stand in a percent-encoded byte. -/
theorem units_behind_slash {xs ys : List UInt8}
    (h : units has (xs ++ ch '/' :: ys) = true) : units has ys = true := by
  induction xs using units.induct with
  | case1 =>
      rw [List.nil_append, units_cons (by decide), Bool.and_eq_true] at h
      exact h.2
  | case2 a b cs ih =>
      rw [List.cons_append, List.cons_append, List.cons_append, units_pct,
        Bool.and_eq_true] at h
      exact ih h.2
  | case3 cs hcs =>
      obtain ⟨a, b, cs', hab, ha, hb, -⟩ := exists_of_units_pct h
      have hslash : xdigit (ch '/') = false := by decide
      rcases cs with _ | ⟨x, _ | ⟨y, cs⟩⟩
      · obtain rfl : ch '/' = a := (List.cons.inj hab).1
        rw [hslash] at ha
        cases ha
      · obtain rfl : ch '/' = b := (List.cons.inj (List.cons.inj hab).2).1
        rw [hslash] at hb
        cases hb
      · exact absurd rfl (hcs x y cs)
  | case4 c cs hc ih =>
      rw [List.cons_append, units_cons hc, Bool.and_eq_true] at h
      exact ih h.2

end Units

/-- The bytes of segments and of the slashes between them. -/
def segmentsChar (relaxed : Bool) (c : UInt8) : Bool :=
  pchar relaxed c || c == ch '/'

/-- A name the grammar takes: `token`s, which for it are all bytes of ASCII
but the separators, 0 and 127. At the start of a line a line feed, or a
carriage return before one, is the end of the head. -/
structure NameOk (name : List UInt8) : Prop where
  nonempty : name ≠ []
  token : ∀ c ∈ name, token c = true
  no_lf : ¬[10] <+: name
  no_crlf : ¬[13, 10] <+: name

/-- A value that stays on its line and begins behind the blanks. -/
structure ValueOk (value : List UInt8) : Prop where
  line : ∀ c ∈ value, httpCtl c = false ∧ c ≠ 10 ∧ c ≠ 13
  no_blank : ¬[ch ' '] <+: value
  no_tab : ¬[9] <+: value

/-- **What the grammar asks of a request that is to be read back**, but for
the authority in its path. -/
structure Encodable (relaxed : Bool) (r : HttpRequest) : Prop where
  method : (httpMethodToString r.method).all upper = true
  version : r.version = 0x10 ∨ r.version = 0x11
  path : ∃ rest, r.path = ch '/' :: rest ∧ units (segmentsChar relaxed) rest = true
  query : units (queryChar relaxed) r.query = true
  fragment : units (queryChar relaxed) r.fragment = true
  /-- the map is one -/
  ordered : OrderedMap.Ordered NameLess r.headers
  names : ∀ x ∈ r.headers, NameOk x.1
  not_connection : ∀ x ∈ r.headers, ¬SameName x.1 (text "connection")
  not_contentLength : ∀ x ∈ r.headers, ¬SameName x.1 (text "content-length")
  values : ∀ x ∈ r.headers, ValueOk x.2

/-! ## Paths -/

/-- The path machine gets from one state to another. -/
def PathState.run (relaxed : Bool) (s : PathState) (cs : List UInt8) :
    Option PathState := cs.foldlM (PathState.next relaxed) s

/-- The rule `authority` takes the text. -/
def authority (relaxed : Bool) (cs : List UInt8) : Bool :=
  (PathState.run relaxed .authority cs).any PathState.final

/-- Where a path begins with `//`, the bytes up to the next slash are an
authority. -/
def AuthorityOk (relaxed : Bool) (path : List UInt8) : Prop :=
  ∀ rest, path = ch '/' :: ch '/' :: rest →
    authority relaxed (rest.takeWhile (· != ch '/')) = true

theorem PathState.run_cons {relaxed : Bool} {s s' : PathState} {c : UInt8}
    (h : s.next relaxed c = some s') (cs : List UInt8) :
    s.run relaxed (c :: cs) = s'.run relaxed cs := by
  rw [run, List.foldlM_cons, h]
  rfl

theorem PathState.run_append (relaxed : Bool) (s : PathState)
    (xs ys : List UInt8) :
    s.run relaxed (xs ++ ys) = (s.run relaxed xs).bind fun s' => s'.run relaxed ys :=
  List.foldlM_append

/-- Behind the slashes of the beginning. -/
def PathState.inner : PathState → Bool
  | .relativePart | .hierPart | .slash => false
  | _ => true

theorem Chars.next_inner {relaxed : Bool} {x : Chars} {c : UInt8} {s : PathState}
    (h : x.next relaxed c = some s) : s.inner = true := by
  unfold Chars.next at h
  split_ifs at h
  · cases h; rfl
  · cases h; rfl
  · cases x <;> simp only [Chars.follow] at h <;> split_ifs at h <;>
      (cases h; rfl)

theorem PathState.next_inner {relaxed : Bool} {s s' : PathState} {c : UInt8}
    (hs : s.inner = true) (h : s.next relaxed c = some s') : s'.inner = true := by
  cases s <;> simp only [PathState.next] at h
  case relativePart | hierPart | slash => cases hs
  case chars => exact Chars.next_inner h
  all_goals
    split_ifs at h
    all_goals first
      | exact Chars.next_inner h
      | (cases h; rfl)

theorem PathState.run_inner {relaxed : Bool} {s s' : PathState}
    {cs : List UInt8} (hs : s.inner = true) (h : s.run relaxed cs = some s') :
    s'.inner = true := by
  induction cs generalizing s with
  | nil =>
      cases h
      exact hs
  | cons c cs ih =>
      obtain ⟨s₁, h1, h2⟩ := Option.bind_eq_some_iff.mp
        (List.foldlM_cons.symm.trans h)
      exact ih (PathState.next_inner hs h1) h2

/-- Where an inner path may end, segments may follow. -/
theorem PathState.next_slash {relaxed : Bool} {s : PathState}
    (hs : s.inner = true) (hf : s.final = true) :
    s.next relaxed (ch '/') = some (.chars .segment) := by
  cases s with
  | relativePart => cases hs
  | hierPart => cases hs
  | slash => cases hs
  | chars x => cases x <;> cases relaxed <;> first | rfl | cases hf
  | pct x => cases hf
  | pctDigit x => cases hf
  | ipLiteral rest => cases hf
  | authority => cases relaxed <;> rfl
  | port => cases relaxed <;> rfl
  | host => cases relaxed <;> rfl
  | hostPort => rfl
  | ipLiteralEnd => rfl

theorem pct_next (relaxed : Bool) :
    PathState.next relaxed (.chars .segment) (ch '%') = some (.pct .segment) := by
  cases relaxed <;> rfl

theorem segment_next {relaxed : Bool} {c : UInt8}
    (h : segmentsChar relaxed c = true) :
    PathState.next relaxed (.chars .segment) c = some (.chars .segment) := by
  by_cases hp : pchar relaxed c = true
  · exact if_pos hp
  · have hc : c = ch '/' := by simpa [segmentsChar, hp] using h
    subst hc
    cases relaxed <;> rfl

theorem segments_run {relaxed : Bool} {cs : List UInt8}
    (h : units (segmentsChar relaxed) cs = true) :
    PathState.run relaxed (.chars .segment) cs = some (.chars .segment) := by
  induction cs using units.induct with
  | case1 => rfl
  | case2 a b cs ih =>
      rw [units_pct, Bool.and_eq_true, Bool.and_eq_true] at h
      obtain ⟨⟨ha, hb⟩, hcs⟩ := h
      have h2 : PathState.next relaxed (.pct .segment) a =
        some (.pctDigit .segment) := if_pos ha
      have h3 : PathState.next relaxed (.pctDigit .segment) b =
        some (.chars .segment) := if_pos hb
      rw [PathState.run_cons (pct_next relaxed), PathState.run_cons h2,
        PathState.run_cons h3]
      exact ih hcs
  | case3 cs hcs =>
      obtain ⟨a, b, cs', rfl, -⟩ := exists_of_units_pct h
      exact absurd rfl (hcs a b cs')
  | case4 c cs hc ih =>
      rw [units_cons hc, Bool.and_eq_true] at h
      rw [PathState.run_cons (segment_next h.1)]
      exact ih h.2

/-- Behind the first slash a path goes on like a segment, but for a second
slash. -/
theorem slash_next {relaxed : Bool} {c : UInt8} (hc : c ≠ ch '/') :
    PathState.next relaxed .slash c = PathState.next relaxed (.chars .segment) c :=
  if_neg hc

/-- **A path of segments is taken**, if its authority is one. -/
theorem path_taken {relaxed : Bool} {rest : List UInt8}
    (h : units (segmentsChar relaxed) rest = true)
    (ha : AuthorityOk relaxed (ch '/' :: rest)) :
    ∃ s, PathState.run relaxed .slash rest = some s ∧ s.final = true ∧
      s ≠ .hierPart := by
  cases rest with
  | nil => exact ⟨.slash, rfl, rfl, nofun⟩
  | cons c rest =>
      by_cases hc : c = ch '/'
      · -- the machine is behind `//`
        subst hc
        obtain ⟨s, hs, hf⟩ := (Option.any_eq_true _ _).mp (ha rest rfl)
        have hin := PathState.run_inner rfl hs
        have hsplit := List.takeWhile_append_dropWhile (p := (· != ch '/')) (l := rest)
        rw [PathState.run_cons rfl, ← hsplit, PathState.run_append, hs,
          Option.bind_some]
        cases hd : rest.dropWhile (· != ch '/') with
        | nil =>
            refine ⟨s, rfl, hf, ?_⟩
            rintro rfl
            cases hin
        | cons d more =>
            obtain rfl : d = ch '/' := by
              have := List.head?_dropWhile_not (· != ch '/') rest
              simpa [hd] using this
            have hmore : units (segmentsChar relaxed) more = true := by
              have hall : units (segmentsChar relaxed)
                  ((ch '/' :: rest.takeWhile (· != ch '/')) ++ ch '/' :: more) =
                    true := by
                rwa [List.cons_append, ← hd, hsplit]
              exact units_behind_slash hall
            rw [PathState.run_cons (PathState.next_slash hin hf)]
            exact ⟨_, segments_run hmore, rfl, nofun⟩
      · refine ⟨.chars .segment, ?_, rfl, nofun⟩
        rw [← segments_run h]
        simp only [PathState.run, List.foldlM_cons, slash_next hc]

/-! ### Paths that are not taken -/

/-- The bytes that end a path, or begin an IP literal, are none of a
segment. -/
theorem segments_ne {relaxed : Bool} {cs : List UInt8}
    (h : units (segmentsChar relaxed) cs = true) :
    ∀ c ∈ cs, c ≠ ch ' ' ∧ c ≠ ch '#' ∧ c ≠ ch '?' ∧ c ≠ ch '[' := by
  intro c hc
  have hmem := mem_of_units h c hc
  refine ⟨?_, ?_, ?_, ?_⟩ <;>
  · rintro rfl
    cases relaxed <;> exact absurd hmem (by decide)

theorem PathState.next_ne_ipLiteral {relaxed : Bool} {s s' : PathState}
    {c : UInt8} (hs : ∀ re, s ≠ .ipLiteral re) (hc : c ≠ ch '[')
    (h : s.next relaxed c = some s') : ∀ re, s' ≠ .ipLiteral re := by
  have hchars : ∀ {x : Chars}, x.next relaxed c = some s' →
      ∀ re, s' ≠ .ipLiteral re := by
    rintro x hx re rfl
    unfold Chars.next at hx
    split_ifs at hx
    · cases hx
    · cases hx
    · cases x <;> simp only [Chars.follow] at hx <;> split_ifs at hx <;> cases hx
  rintro re rfl
  cases s <;> simp only [PathState.next] at h
  case ipLiteral => exact hs _ rfl
  case chars => exact hchars h re rfl
  all_goals
    split_ifs at h
    all_goals first
      | exact hchars h re rfl
      | exact absurd ‹_› hc
      | cases h

/-- Where a path may not end, it does not go on with a slash either. -/
theorem PathState.next_of_not_final {relaxed : Bool} {s : PathState} {c : UInt8}
    (hs : ∀ re, s ≠ .ipLiteral re) (hf : s.final = false)
    (hc : c = ch '/' ∨ c = ch ' ' ∨ c = ch '#' ∨ c = ch '?') :
    s.next relaxed c = none := by
  cases s with
  | chars x =>
      cases x with
      | userinfo => rcases hc with rfl | rfl | rfl | rfl <;> cases relaxed <;> rfl
      | segmentNzNc => cases hf
      | segment => cases hf
      | regName => cases hf
      | hostName => cases hf
  | pct x => rcases hc with rfl | rfl | rfl | rfl <;> rfl
  | pctDigit x => rcases hc with rfl | rfl | rfl | rfl <;> rfl
  | ipLiteral re => exact absurd rfl (hs re)
  | relativePart => cases hf
  | hierPart => cases hf
  | slash => cases hf
  | authority => cases hf
  | port => cases hf
  | host => cases hf
  | hostPort => cases hf
  | ipLiteralEnd => cases hf

end Request

end Hps.Http
