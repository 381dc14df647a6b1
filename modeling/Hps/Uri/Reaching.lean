import Hps.Http.ClientRequest
import Hps.Uri.Components

/-!
# Uri — from an URI to a server

The rules of `uri.rl` for a path, a query and a fragment, and those of the
request grammar: what the one takes the other does (`Spells`). So a request
that is made of an URI is read by a server for what the URI says, exactly if
what its path has for an authority is one (`request_reaches_iff`).
-/

namespace Hps.UriParser

open RegularExpression Hps.Lib
open Hps.Http (ch text alpha digit xdigit ascii)
open Hps.Http.Request (units)
open Hps.Http.Request.IP (Re oneOf lit opt)
open Hps.Lib.Integers (forall_byte)

/-! ## Words of units -/

/-- The words of the rule can stand before any units of the class. -/
def Spells (has : UInt8 → Bool) (r : Re) : Prop :=
  ∀ w ∈ r.matches', ∀ ys, units has ys = true → units has (w ++ ys) = true

section Spells

variable {has : UInt8 → Bool} {r s : Re}

theorem spells_one : Spells has 1 := by
  intro w hw ys hys
  obtain rfl : w = [] := hw
  exact hys

theorem spells_oneOf {p : UInt8 → Bool} (h : ∀ c, p c = true → has c = true ∧ c ≠ ch '%') :
    Spells has (oneOf p) := by
  intro w hw ys hys
  obtain ⟨c, rfl, hc⟩ := mem_oneOf.mp hw
  obtain ⟨hhas, hpct⟩ := h c hc
  rw [List.singleton_append, Http.Request.units_cons hpct, hhas, hys]
  rfl

theorem spells_lit {c : Char} (hhas : has (ch c) = true) (hpct : ch c ≠ ch '%') :
    Spells has (lit c) := by
  intro w hw ys hys
  obtain rfl : w = [ch c] := hw
  rw [List.singleton_append, Http.Request.units_cons hpct, hhas, hys]
  rfl

theorem spells_pctEncoded : Spells has pctEncoded := by
  intro w hw ys hys
  obtain ⟨v, hv, b, hb, rfl⟩ := Language.mem_mul.mp hw
  obtain ⟨u, hu, a, ha, rfl⟩ := Language.mem_mul.mp hv
  obtain rfl : u = [ch '%'] := hu
  obtain ⟨x, rfl, hx⟩ := mem_oneOf.mp ha
  obtain ⟨y, rfl, hy⟩ := mem_oneOf.mp hb
  show units has (ch '%' :: x :: y :: ys) = true
  rw [Http.Request.units_pct, hx, hy, hys]
  rfl

theorem Spells.add (hr : Spells has r) (hs : Spells has s) : Spells has (r + s) := by
  rintro w (hw | hw)
  · exact hr w hw
  · exact hs w hw

theorem Spells.mul (hr : Spells has r) (hs : Spells has s) : Spells has (r * s) := by
  intro w hw ys hys
  obtain ⟨u, hu, v, hv, rfl⟩ := Language.mem_mul.mp hw
  rw [List.append_assoc]
  exact hr u hu _ (hs v hv ys hys)

theorem Spells.star (hr : Spells has r) : Spells has (star r) := by
  intro w hw ys hys
  obtain ⟨ws, rfl, hws⟩ := Language.mem_kstar.mp hw
  clear hw
  induction ws with
  | nil => exact hys
  | cons u ws ih =>
      obtain ⟨hu, hws⟩ := List.forall_mem_cons.mp hws
      rw [List.flatten_cons, List.append_assoc]
      exact hr u hu _ (ih hws)

theorem Spells.units (h : Spells has r) {w : List UInt8} (hw : w ∈ r.matches') :
    Http.Request.units has w = true := by
  have := h w hw [] rfl
  rwa [List.append_nil] at this

end Spells

/-! ## The rules of an URI -/

section Rules

variable (relaxed : Bool)

theorem spells_pchar {has : UInt8 → Bool}
    (h : ∀ c, Http.Request.pchar relaxed c = true → has c = true) : Spells has pchar := by
  have hclass : ∀ (p : UInt8 → Bool),
      (∀ c, p c = true → Http.Request.pchar relaxed c = true ∧ c ≠ ch '%') →
      Spells has (oneOf p) := fun p hp =>
    spells_oneOf fun c hc => ⟨h c (hp c hc).1, (hp c hc).2⟩
  have hpct := @spells_pctEncoded has
  refine Spells.add (Spells.add (Spells.add (Spells.add (Spells.add ?_ ?_) hpct) ?_) ?_) ?_
  · refine hclass _ ?_
    cases relaxed <;> exact forall_byte (by decide +kernel)
  · refine hclass _ ?_
    cases relaxed <;> exact forall_byte (by decide +kernel)
  · refine hclass _ ?_
    cases relaxed <;> exact forall_byte (by decide +kernel)
  · exact spells_lit (h _ (by cases relaxed <;> decide)) (by decide)
  · exact spells_lit (h _ (by cases relaxed <;> decide)) (by decide)

theorem spells_query : Spells (Http.Request.queryChar relaxed) query := by
  have hpchar : Spells (Http.Request.queryChar relaxed) pchar :=
    spells_pchar relaxed fun c hc => by simp [Http.Request.queryChar, hc]
  refine Spells.star (Spells.add (Spells.add hpchar ?_) ?_)
  · exact spells_lit (by cases relaxed <;> decide) (by decide)
  · exact spells_lit (by cases relaxed <;> decide) (by decide)

theorem spells_path : Spells (Http.Request.segmentsChar relaxed) pathAbempty := by
  have hpchar : Spells (Http.Request.segmentsChar relaxed) pchar :=
    spells_pchar relaxed fun c hc => by simp [Http.Request.segmentsChar, hc]
  have hsegment : Spells (Http.Request.segmentsChar relaxed) (lit '/' * segment) :=
    (spells_lit (by cases relaxed <;> decide) (by decide)).mul hpchar.star
  exact (spells_one.add hsegment).mul hsegment.star

/-- A path without a slash at its start is none. -/
theorem exists_segments {path : List UInt8} (h : path ∈ pathAbempty.matches') :
    ∃ rest, (if path = [] then text "/" else path) = ch '/' :: rest ∧
      units (Http.Request.segmentsChar relaxed) rest = true := by
  cases path with
  | nil => exact ⟨[], rfl, rfl⟩
  | cons c cs =>
      obtain rfl := path_head h
      have hunits := (spells_path relaxed).units h
      rw [Http.Request.units_cons (by decide), Bool.and_eq_true] at hunits
      exact ⟨cs, if_neg (List.cons_ne_nil _ _), hunits.2⟩

/-- What may stand in the value of a header, and at its start. -/
def Printed (c : UInt8) : Prop :=
  (Http.Request.httpCtl c = false ∧ c ≠ 10 ∧ c ≠ 13) ∧ c ≠ ch ' ' ∧ c ≠ 9

instance (c : UInt8) : Decidable (Printed c) := inferInstanceAs (Decidable (_ ∧ _))

theorem over_printed {p : UInt8 → Bool} (h : ∀ n < 256, p (UInt8.ofNat n) = true →
    Printed (UInt8.ofNat n)) : Over Printed (oneOf p) :=
  over_oneOf fun c hc => forall_byte (P := fun c => p c = true → Printed c) h c hc

theorem printed_host {h : List UInt8} (hh : h ∈ ipv4address.matches' ∨ h ∈ regName.matches') :
    ∀ c ∈ h, Printed c := by
  have hdigit : Over Printed (oneOf digit) := over_printed (by decide +kernel)
  rcases hh with hh | hh
  · have hoctet : Over Printed decOctet := by
      refine (((hdigit.add ?_).add ?_).add ?_).add ?_
      · exact (over_printed (by decide +kernel)).mul hdigit
      · exact ((over_char (by decide)).mul hdigit).mul hdigit
      · exact ((over_char (by decide)).mul (over_printed (by decide +kernel))).mul hdigit
      · exact ((over_char (by decide)).mul (over_char (by decide))).mul
          (over_printed (by decide +kernel))
    have hdot : Over Printed (lit '.') := over_char (by decide)
    have haddress : Over Printed ipv4address :=
      (((((hoctet.mul hdot).mul hoctet).mul hdot).mul hoctet).mul hdot).mul hoctet
    exact haddress h hh
  · have hunit : Over Printed nameUnit := by
      refine Over.add (Over.add ?_ (((over_char (by decide)).mul ?_).mul ?_)) ?_
      · exact over_printed (by decide +kernel)
      · exact over_printed (by decide +kernel)
      · exact over_printed (by decide +kernel)
      · exact over_printed (by decide +kernel)
    exact hunit.star h hh

theorem valueOk_host {h : List UInt8} (hh : h ∈ ipv4address.matches' ∨ h ∈ regName.matches') :
    Http.Request.ValueOk h := by
  have hall := printed_host hh
  refine ⟨fun c hc => (hall c hc).1, ?_, ?_⟩
  · rintro ⟨rest, rfl⟩
    exact (hall (ch ' ') (by simp)).2.1 rfl
  · rintro ⟨rest, rfl⟩
    exact (hall 9 (by simp)).2.2 rfl

end Rules

/-! ## Requests -/

section Requests

open Hps.Http
open Hps.Http.Request (NameOk ValueOk Encodable AuthorityOk parseHead headText readBack)

/-- The headers that a caller may give: names and values that the grammar takes,
and no length. -/
structure HeadersOk (headers : List (List UInt8 × List UInt8)) : Prop where
  names : ∀ i ∈ kept headers, NameOk i.1
  values : ∀ i ∈ kept headers, ValueOk i.2
  no_length : ∀ i ∈ kept headers, ¬SameName i.1 (text "content-length")

variable {method : HttpMethod} {headers : List (List UInt8 × List UInt8)} {c : Components}
  {body : List UInt8}

/-- **A request that is made of an URI can be written.** -/
theorem encodable_read (relaxed : Bool) (hup : (httpMethodToString method).all upper = true)
    (hheaders : HeadersOk headers) :
    Encodable relaxed (connectionRequest method c.read headers body) := by
  have hname : NameOk (text "Host") :=
    ⟨by decide, by decide +kernel, by decide +kernel, by decide +kernel⟩
  have hother : ¬SameName (text "Host") (text "connection") ∧
      ¬SameName (text "Host") (text "content-length") := by decide
  have hline : ∀ i ∈ kept headers ++ hostLine headers c.host, NameOk i.1 ∧ ValueOk i.2 ∧
      ¬SameName i.1 (text "connection") ∧ ¬SameName i.1 (text "content-length") := by
    intro i hi
    rcases List.mem_append.mp hi with hi | hi
    · have hconn : ¬SameName i.1 (text "connection") := by
        simpa using (List.mem_filter.mp hi).2
      exact ⟨hheaders.names i hi, hheaders.values i hi, hconn, hheaders.no_length i hi⟩
    · rw [hostLine] at hi
      split at hi
      · cases hi
      · obtain rfl := List.mem_singleton.mp hi
        exact ⟨hname, valueOk_host c.host_mem, hother⟩
  rw [connectionRequest_eq]
  have hentry : ∀ x ∈ OrderedMap.setAll NameLess [] (kept headers ++ hostLine headers c.host),
      NameOk x.1 ∧ ValueOk x.2 ∧ ¬SameName x.1 (text "connection") ∧
        ¬SameName x.1 (text "content-length") := by
    intro x hx
    obtain ⟨⟨y, hy, hkey⟩, z, hz, hvalue⟩ := OrderedMap.mem_setAll hx
    rw [← hkey, ← hvalue]
    exact ⟨(hline y hy).1, (hline z hz).2.1, (hline y hy).2.2⟩
  exact {
    method := hup
    version := .inr rfl
    path := exists_segments relaxed c.path_mem
    query := by
      show units _ (c.query.getD []) = true
      cases hq : c.query with
      | none => rfl
      | some q => exact (spells_query relaxed).units (c.query_mem q hq)
    fragment := by
      show units _ (c.fragment.getD []) = true
      cases hf : c.fragment with
      | none => rfl
      | some f => exact (spells_query relaxed).units (c.fragment_mem f hf)
    ordered := OrderedMap.Ordered.setAll List.Pairwise.nil _
    names := fun x hx => (hentry x hx).1
    not_connection := fun x hx => (hentry x hx).2.2.1
    not_contentLength := fun x hx => (hentry x hx).2.2.2
    values := fun x hx => (hentry x hx).2.1 }

/-- The request says what the URI and the caller's headers do. -/
structure Reaches (c : Components) (method : HttpMethod)
    (headers : List (List UInt8 × List UInt8)) (q : HttpRequest) : Prop where
  method_eq : q.method = method
  path_eq : q.path = if c.path = [] then text "/" else c.path
  query_eq : q.query = c.query.getD []
  fragment_eq : q.fragment = c.fragment.getD []
  host_eq : ¬NamesHost headers → q.getHeader (text "Host") [] = c.host
  header_eq : ∀ name, ¬SameName (text "connection") name →
    ¬SameName (text "content-length") name → ¬SameName (text "Host") name →
    q.headers.find name = OrderedMap.find NameLess name (kept headers).reverse

theorem reaches_readBack (c : Components) :
    Reaches c method headers (readBack (connectionRequest method c.read headers body)) := by
  have hfields : ∀ name, ¬SameName (text "connection") name →
      ¬SameName (text "content-length") name →
      (readBack (connectionRequest method c.read headers body)).headers.find name =
        OrderedMap.find NameLess name (kept headers ++ hostLine headers c.host).reverse := by
    intro name hc hl
    show (Http.Request.readHeaders _).find name = _
    rw [Http.Request.find_readHeaders _ hc hl, MapType.find_eq, connectionRequest_eq,
      OrderedMap.find_setAll]
    exact Option.or_none
  constructor
  · rw [connectionRequest_eq]
    rfl
  · rw [connectionRequest_eq]
    rfl
  · rw [connectionRequest_eq]
    rfl
  · rw [connectionRequest_eq]
    rfl
  · intro hnames
    rw [HttpRequest.getHeader, hfields _ (by decide) (by decide), hostLine, if_neg hnames,
      List.reverse_append, List.reverse_singleton, List.singleton_append, OrderedMap.find_cons,
      if_neg (by simp [irrefl_of NameLess])]
    rfl
  · intro name hc hl hh
    rw [hfields name hc hl, hostLine]
    split
    · rw [List.append_nil]
    · rw [List.reverse_append, List.reverse_singleton, List.singleton_append,
        OrderedMap.find_cons, if_pos (nameLess_or_of_not_same hh)]

/-- The path that is asked for looks like the URI's: an empty one is `/`. -/
theorem authority_connectionRequest {relaxed : Bool} (c : Components) :
    AuthorityOk relaxed (connectionRequest method c.read headers body).path ↔
      AuthorityOk relaxed c.path := by
  rw [connectionRequest_eq]
  show AuthorityOk _ (if c.path = [] then text "/" else c.path) ↔ _
  split
  · -- neither the empty path nor the slash in its place begins with two
    rename_i hpath
    rw [hpath]
    constructor
    · intro _ rest hrest
      cases hrest
    · intro _ rest hrest
      exact absurd (List.cons.inj hrest).2 (by simp)
  · exact Iff.rfl

/-- **A request reaches the server as the URI says.** The head that
`DoRequest` writes for the text of an URI, which `Create` takes apart, is
parsed on the other side for its method, path, query and fragment, and the host
is that of the URI if none of the headers names one, exactly if what the path
has for an authority is one. -/
theorem request_reaches_iff (c : Components) {u : Http.Request.Uninit}
    (hup : (httpMethodToString method).all upper = true) (hheaders : HeadersOk headers) :
    ∃ uri, Uri.create c.text = .ok (some uri) ∧
      ((∃ q, parseHead u (headText (connectionRequest method uri headers body)) = some q ∧
          Reaches c method headers q) ↔ AuthorityOk u.uriRelaxed c.path) := by
  have henc : Encodable u.uriRelaxed (connectionRequest method c.read headers body) :=
    encodable_read u.uriRelaxed hup hheaders
  have hpath : AuthorityOk u.uriRelaxed (connectionRequest method c.read headers body).path ↔
      AuthorityOk u.uriRelaxed c.path := authority_connectionRequest c
  refine ⟨c.read, create_text c, ?_⟩
  rw [← hpath]
  constructor
  · rintro ⟨q, hq, -⟩
    exact Http.Request.authority_of_parseHead henc hq
  · intro ha
    exact ⟨_, Http.Request.parseHead_headText henc ha, reaches_readBack c⟩

/-- `http://host/a?x#top` -/
def page : Components :=
  { digitsAsPassword with
    userinfo := none
    path := text "/a"
    query := some (text "x")
    fragment := some (text "top")
    userinfo_mem := by
      intro v hv
      cases hv
    path_mem := by
      refine Language.mem_mul.mpr ⟨text "/a", .inr (Language.mem_mul.mpr ⟨[ch '/'], rfl, [ch 'a'],
        ?_, rfl⟩), [], Language.nil_mem_kstar _, rfl⟩
      refine mem_star_of_forall fun c hc => ?_
      rw [List.mem_singleton.mp hc]
      exact .inl (.inl (.inl (.inl (.inr (mem_unreserved (by decide))))))
    query_mem := by
      intro v hv
      obtain rfl := Option.some.inj hv
      refine mem_star_of_forall fun c hc => ?_
      rw [List.mem_singleton.mp hc]
      exact .inl (.inl (.inl (.inl (.inl (.inl (.inr (mem_unreserved (by decide))))))))
    fragment_mem := by
      intro v hv
      obtain rfl := Option.some.inj hv
      have hbytes : (text "top").all (fun c => alpha c || digit c) = true := by decide
      exact mem_star_of_forall fun c hc => .inl (.inl (.inl (.inl (.inl (.inl (.inr
        (mem_unreserved (List.all_eq_true.mp hbytes c hc)))))))) }

theorem page_reaches : ∃ uri q, Uri.create (text "http://host/a?x#top") = .ok (some uri) ∧
    parseHead ⟨0, false⟩ (headText (connectionRequest .POST uri
      [(text "Accept", text "*/*"), (text "connection", text "keep-alive")] (text "hi"))) = some q ∧
    q.path = text "/a" ∧ q.query = text "x" ∧ q.fragment = text "top" ∧
    q.getHeader (text "Host") [] = text "host" := by
  have htext : page.text = text "http://host/a?x#top" := by decide
  have hheaders : HeadersOk
      [(text "Accept", text "*/*"), (text "connection", text "keep-alive")] := by
    have hkept : kept [(text "Accept", text "*/*"), (text "connection", text "keep-alive")] =
      [(text "Accept", text "*/*")] := by decide
    constructor
    all_goals
      intro i hi
      rw [hkept] at hi
      obtain rfl := List.mem_singleton.mp hi
    · exact ⟨by decide, by decide +kernel, by decide +kernel, by decide +kernel⟩
    · exact ⟨by decide +kernel, by decide +kernel, by decide +kernel⟩
    · decide
  have hpath : AuthorityOk false page.path := by
    intro rest h
    exact absurd (List.cons.inj (List.cons.inj h).2).1 (by decide)
  obtain ⟨uri, huri, hiff⟩ := @request_reaches_iff .POST _ (text "hi") page ⟨0, false⟩
    (by decide +kernel) hheaders
  obtain ⟨q, hq, hreaches⟩ := hiff.mpr hpath
  rw [htext] at huri
  exact ⟨uri, q, huri, hq, hreaches.path_eq, hreaches.query_eq, hreaches.fragment_eq,
    hreaches.host_eq (by decide)⟩

end Requests

end Hps.UriParser
