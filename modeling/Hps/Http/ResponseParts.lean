import Hps.Http.Declared
import Hps.Http.Parts
import Hps.Http.ResponseHead
import Hps.Uri.Components

/-!
# HTTP — the parts of a response head

`Parses b q p s r xs q' s' r'` says that the machine of the response parser
reads `xs` at `p` from `q` to `q'`, and that the callbacks it calls there make
`r'` of the response `r`. Every part that `HttpResponse::dump` writes before
the body is such a run: the status line (`parses_statusLine`), and one line for
every header (`parses_fields`).
-/

namespace Hps.Http.Response

open Hps.Lib
open Hps.Http.Request (Piece)

/-! ## Calls -/

/-- The calls make `r'` of the response `r`, and nothing else. -/
def Makes (b : List UInt8) (r : HttpResponse) (cs : List Call) (r' : HttpResponse) : Prop :=
  ∀ p : HttpResponseParser, p.data = r →
    cs.foldlM (HttpResponseParser.call b) p = .ok { p with data := r' }

section Makes

variable {b : List UInt8} {r r₁ r₂ : HttpResponse} {cs ds : List Call} {p : Nat}
  {xs : List UInt8}

theorem Makes.nil : Makes b r [] r := by
  rintro p rfl
  rfl

theorem Makes.append (h : Makes b r cs r₁) (h' : Makes b r₁ ds r₂) :
    Makes b r (cs ++ ds) r₂ := by
  intro p hp
  rw [List.foldlM_append, h p hp]
  exact h' { p with data := r₁ } rfl

theorem Makes.one {x : Call}
    (h : ∀ p : HttpResponseParser, p.data = r →
      HttpResponseParser.call b p x = .ok { p with data := r₁ }) :
    Makes b r [x] r₁ := by
  intro p hp
  rw [List.foldlM_cons, h p hp]
  rfl

theorem stdString_piece (h : Piece b p xs) : stdString b p (xs.length : Nat) = .ok xs := by
  obtain ⟨rest, hrest⟩ := h.prefix_drop
  rw [stdString, if_neg (by omega), Int.toNat_natCast, hrest, List.take_left]

theorem makes_version {v : UInt8} (rest : List UInt8)
    (hb : b = text "HTTP/1.1" ++ rest ∧ v = 0x11 ∨ b = text "HTTP/1.0" ++ rest ∧ v = 0x10) :
    Makes b r [.element .httpVersion 0 8] (r.setVersion v) := by
  refine .one ?_
  rintro p rfl
  rcases hb with ⟨rfl, rfl⟩ | ⟨rfl, rfl⟩ <;> rfl

/-- The value of printed digits. -/
theorem digitsValue_decimal (n : Nat) : digitsValue 10 (decimal n) = n := by
  have hall : ∀ c ∈ decimal n, digit c = true := List.all_eq_true.mp (decimal_digits n)
  have htake : (decimal n).takeWhile (baseDigit 10) = decimal n := by
    rw [List.takeWhile_eq_self_iff]
    intro c hc
    rw [UriParser.baseDigit_ten]
    exact hall c hc
  have hfold : ∀ (cs : List UInt8) (v : Nat), (∀ c ∈ cs, digit c = true) →
      cs.foldl (fun v c => v * 10 + (digitValue c).getD 0) v =
        cs.foldl (fun v c => v * 10 + (c - ch '0').toNat) v := by
    intro cs
    induction cs with
    | nil => exact fun _ _ => rfl
    | cons c cs ih =>
        intro v h
        obtain ⟨hc, hcs⟩ := List.forall_mem_cons.mp h
        rw [List.foldl_cons, List.foldl_cons, digitValue, if_pos hc]
        exact ih _ hcs
  rw [digitsValue, htake, hfold _ _ hall, decimal_eq, foldl_decimal _ fun c hc =>
    Nat.isDigit_of_mem_toDigits (by decide) (by decide) hc, Nat.ofDigitChars_ten_toDigits]

/-- What stands behind the status is no digit. -/
theorem makes_status {n : Nat} (hn : n < 2 ^ 31) {c : UInt8} (hc : digit c = false)
    (hb : Piece b p (decimal n ++ [c])) (length : Int) :
    Makes b r [.element .statusCode p length] (r.setStatus n) := by
  obtain ⟨rest, hrest⟩ := hb.prefix_drop
  have hall : ∀ c ∈ decimal n, digit c = true := List.all_eq_true.mp (decimal_digits n)
  have hne : decimal n ≠ [] := by
    rw [decimal_eq]
    exact mt List.map_eq_nil_iff.mp Nat.toDigits_ne_nil
  have hbehind : ∀ d ∈ ([c] ++ rest).head?, digit d = false := by
    intro d hd
    obtain rfl := Option.some.inj hd
    exact hc
  refine .one ?_
  rintro p rfl
  have hatoi := UriParser.atoi_digits hne hall hbehind (by rwa [digitsValue_decimal])
  rw [digitsValue_decimal] at hatoi
  simp only [HttpResponseParser.call, HttpResponseParser.onResponseStatus, hrest,
    List.append_assoc, hatoi]

theorem makes_reason (hb : Piece b p xs) :
    Makes b r [.element .reasonPhrase p (xs.length : Nat)] (r.setReason xs) := by
  refine .one ?_
  rintro p rfl
  simp only [HttpResponseParser.call, HttpResponseParser.onResponseReason, stdString_piece hb]
  rfl

theorem makes_field {name value : List UInt8} {q : Nat} (hne : name ≠ [])
    (hname : Piece b p name) (hvalue : Piece b q value) :
    Makes b r [.httpField p (name.length : Nat) q (value.length : Nat)]
      (r.setHeader name value) := by
  refine .one ?_
  rintro p rfl
  have hlen : ((name.length : Nat) : Int) ≠ 0 := by
    simpa using hne
  simp only [HttpResponseParser.call, HttpResponseParser.onResponseHttpField, if_neg hlen,
    stdString_piece hname, stdString_piece hvalue]
  rfl

end Makes

/-! ## Runs over the text -/

/-- The machine reads `xs` at `p` from `q` to `q'`, and its calls make `r'` of
the response `r`. -/
def Parses (b : List UInt8) (q : State) (p : Nat) (s : HttpClientParser) (r : HttpResponse)
    (xs : List UInt8) (q' : State) (s' : HttpClientParser) (r' : HttpResponse) : Prop :=
  ∃ out, Machine.Runs machine (act b) q p s xs q' s' out ∧ Makes b r out r'

section Parses

variable {b : List UInt8} {q q₁ q₂ : State} {p : Nat} {s s₁ s₂ : HttpClientParser}
  {r r₁ r₂ : HttpResponse} {xs ys : List UInt8} {c : UInt8}

theorem Parses.nil : Parses b q p s r [] q s r := ⟨[], .nil, .nil⟩

theorem Parses.append (h : Parses b q p s r xs q₁ s₁ r₁)
    (h' : Parses b q₁ (p + xs.length) s₁ r₁ ys q₂ s₂ r₂) :
    Parses b q p s r (xs ++ ys) q₂ s₂ r₂ := by
  obtain ⟨cs, hcs, hmake⟩ := h
  obtain ⟨ds, hds, hmake'⟩ := h'
  exact ⟨cs ++ ds, hcs.append hds, hmake.append hmake'⟩

/-- One byte, with the calls of its actions. -/
theorem Parses.byte (as : List Action) (h : next q c = some (q₁, as)) (hd : .done ∉ as)
    (hs : (acts (act b) p as s).1 = s₁) (hr : Makes b r (acts (act b) p as s).2 r₁) :
    Parses b q p s r [c] q₁ s₁ r₁ := by
  refine ⟨_, ?_, hr⟩
  subst hs
  refine .step (M := machine) h ?_ p s
  rw [List.any_eq_false]
  intro a ha hstop
  obtain rfl : a = .done := of_decide_eq_true hstop
  exact hd ha

theorem Parses.silent (h : next q c = some (q₁, [])) : Parses b q p s r [c] q₁ s r :=
  .byte [] h List.not_mem_nil rfl .nil

theorem Parses.cons (h : Parses b q p s r [c] q₁ s₁ r₁)
    (h' : Parses b q₁ (p + 1) s₁ r₁ xs q₂ s₂ r₂) :
    Parses b q p s r (c :: xs) q₂ s₂ r₂ :=
  h.append h'

/-- Bytes that lead back to where they come from. -/
theorem Parses.loop (h : ∀ c ∈ xs, next q c = some (q, [])) : Parses b q p s r xs q s r := by
  induction xs generalizing p with
  | nil => exact .nil
  | cons c xs ih =>
      exact (Parses.silent (h c List.mem_cons_self)).cons
        (ih fun d hd => h d (List.mem_cons_of_mem c hd))

/-! ### The status line -/

theorem parses_status {n : Nat} (hn : n < 2 ^ 31) (hb : Piece b p (decimal n ++ [ch ' '])) :
    Parses b .statusStart p s r (decimal n ++ [ch ' ']) .reasonStart { s with mark := p }
      (r.setStatus n) := by
  have hall : ∀ c ∈ decimal n, digit c = true := List.all_eq_true.mp (decimal_digits n)
  have hmake := makes_status (r := r) hn (show digit (ch ' ') = false from rfl) hb
  cases hdigits : decimal n with
  | nil =>
      rw [decimal_eq] at hdigits
      exact absurd (List.map_eq_nil_iff.mp hdigits) Nat.toDigits_ne_nil
  | cons c cs =>
      rw [hdigits] at hall
      obtain ⟨hc, hcs⟩ := List.forall_mem_cons.mp hall
      have hfirst : Parses b .statusStart p s r [c] .status { s with mark := p } r :=
        .byte [.mark] (if_pos hc) (by decide) rfl .nil
      have hrest : Parses b .status (p + 1) { s with mark := p } r cs .status
          { s with mark := p } r :=
        .loop fun d hd => if_pos (hcs d hd)
      have hblank : Parses b .status (p + 1 + cs.length) { s with mark := p } r [ch ' ']
          .reasonStart { s with mark := p } (r.setStatus n) :=
        .byte [.statusCode] rfl (by decide) rfl (hmake _)
      exact hfirst.cons (hrest.append hblank)

theorem parses_reason {reason : List UInt8} (hne : reason ≠ [])
    (hok : ∀ c ∈ reason, c ≠ 10 ∧ c ≠ 13) (hb : Piece b p reason) :
    Parses b .reasonStart p s r (reason ++ crlf) (.line .nothing) { s with mark := p }
      (r.setReason reason) := by
  have hmake := makes_reason (r := r) hb
  cases reason with
  | nil => exact absurd rfl hne
  | cons c cs =>
      obtain ⟨hc, hcs⟩ := List.forall_mem_cons.mp hok
      have hfirst : Parses b .reasonStart p s r [c] .reason { s with mark := p } r :=
        .byte [.mark] (if_neg hc.1) (by decide) rfl .nil
      have hrest : Parses b .reason (p + 1) { s with mark := p } r cs .reason
          { s with mark := p } r := by
        refine .loop fun d hd => ?_
        obtain ⟨h10, h13⟩ := hcs d hd
        show (if _ then _ else _) = _
        rw [if_neg h10, if_neg h13]
      have hlen : len p (p + 1 + cs.length) = ((c :: cs).length : Nat) := by
        rw [len, List.length_cons]
        omega
      rw [← hlen] at hmake
      have hcr : Parses b .reason (p + 1 + cs.length) { s with mark := p } r [13]
          (.crlf none) { s with mark := p } (r.setReason (c :: cs)) :=
        .byte [.reasonPhrase] rfl (by decide) rfl hmake
      have hlf : Parses b (.crlf none) (p + 1 + cs.length + 1) { s with mark := p }
          (r.setReason (c :: cs)) [10] (.line .nothing) { s with mark := p }
          (r.setReason (c :: cs)) :=
        .silent rfl
      exact hfirst.cons (hrest.append (hcr.cons hlf))

/-! ### Header lines -/

theorem parses_name (f : FieldLine) {pend : Pending} (hp : pend.Fresh) :
    ∃ s₁ : HttpClientParser, s₁.chunked = s.chunked ∧ s₁.fieldStart = p ∧
      s₁.fieldLen = (f.name.length : Nat) ∧ Parses b (.line pend) p s r (f.name ++ [ch ':'])
        (.fieldSpace f.special) s₁ r := by
  cases hname : f.name with
  | nil => exact absurd hname f.name_ne
  | cons c cs =>
      have htoken := f.name_token
      rw [hname] at htoken
      obtain ⟨hc, hcs⟩ := List.forall_mem_cons.mp htoken
      have hstart : next (.line .nothing) c =
          some (.fieldName (typedNext (some []) c) none, [.startField]) := by
        show lineStart c = _
        rw [lineStart, if_neg (ne_of_token hc).1, if_neg (ne_of_token hc).2.1, if_pos hc]
      -- a connection that is to be closed is noted on leaving the line before
      obtain ⟨s₁, hchunked, hfield, hfirst⟩ : ∃ s₁ : HttpClientParser,
          s₁.chunked = s.chunked ∧ s₁.fieldStart = p ∧ Parses b (.line pend) p s r [c]
            (.fieldName (typedNext (some []) c) none) s₁ r := by
        rcases hp with rfl | rfl
        · exact ⟨{ s with fieldStart := p }, rfl, rfl,
            .byte [.startField] hstart (by decide) rfl .nil⟩
        · refine ⟨{ s with close := true, fieldStart := p }, rfl, rfl,
            .byte [.writeConnectionClose, .startField] ?_ (by decide) rfl .nil⟩
          show entering _ (next (.line .nothing) c) = _
          rw [hstart]
          rfl
      have hrest : ∀ (ds : List UInt8) (typed : Option (List UInt8)) (i : Nat),
          (∀ d ∈ ds, token d = true) →
          Parses b (.fieldName typed none) i s₁ r ds
            (.fieldName (ds.foldl typedNext typed) none) s₁ r := by
        intro ds
        induction ds with
        | nil => exact fun _ _ _ => .nil
        | cons d ds ih =>
            intro typed i hds
            obtain ⟨hd, hds⟩ := List.forall_mem_cons.mp hds
            have hnext : next (.fieldName typed none) d =
                some (.fieldName (typedNext typed d) none, []) := by
              show fieldNameNext typed none d = _
              rw [fieldNameNext, if_neg (ne_of_token hd).2.2, if_pos hd]
              rfl
            exact (Parses.silent hnext).cons (ih _ _ hds)
      have hcolon : Parses b (.fieldName (cs.foldl typedNext (typedNext (some []) c)) none)
          (p + 1 + cs.length) s₁ r [ch ':'] (.fieldSpace f.special)
          { s₁ with fieldLen := len s₁.fieldStart (p + 1 + cs.length) } r := by
        rw [FieldLine.special, hname, List.foldl_cons]
        exact .byte [.writeField] rfl (by decide) rfl .nil
      refine ⟨{ s₁ with fieldLen := len s₁.fieldStart (p + 1 + cs.length) }, hchunked, hfield,
        ?_, hfirst.cons ((hrest cs _ _ hcs).append hcolon)⟩
      show len s₁.fieldStart (p + 1 + cs.length) = _
      rw [hfield, len, List.length_cons]
      omega

theorem parses_blanks {k : Option Special} {bs : List UInt8} (h : ∀ c ∈ bs, c = 32 ∨ c = 9) :
    ∃ m, Parses b (.fieldSpace k) p s r bs (.fieldSpace k) { s with mark := m } r := by
  induction bs generalizing p s with
  | nil => exact ⟨s.mark, .nil⟩
  | cons c bs ih =>
      obtain ⟨hc, hbs⟩ := List.forall_mem_cons.mp h
      have hnext : next (.fieldSpace k) c = some (.fieldSpace k, [.startValue]) := by
        rcases hc with rfl | rfl <;> rfl
      have hfirst : Parses b (.fieldSpace k) p s r [c] (.fieldSpace k) { s with mark := p } r :=
        .byte [.startValue] hnext (by decide) rfl .nil
      obtain ⟨m, hm⟩ := ih (p := p + 1) (s := { s with mark := p }) hbs
      exact ⟨m, hfirst.cons hm⟩

/-- The bytes of a value behind the blanks. -/
theorem parses_value {k : Option Special} {v : List UInt8} (hne : v ≠ [])
    (hok : ∀ c ∈ v, c ≠ 10 ∧ c ≠ 13) (hstart : ∀ c ∈ v.head?, space c = false) :
    Parses b (.fieldSpace k) p s r v
      (.fieldValue (v.foldl advance (k.map fun k => (k, 0)))) { s with mark := p } r := by
  cases v with
  | nil => exact absurd rfl hne
  | cons c cs =>
      obtain ⟨⟨h10, h13⟩, hcs⟩ := List.forall_mem_cons.mp hok
      have hspace : space c = false := hstart c rfl
      have hnext : next (.fieldSpace k) c =
          some (.fieldValue (advance (k.map fun k => (k, 0)) c), [.startValue]) := by
        show fieldSpaceNext k c = _
        rw [fieldSpaceNext, if_neg h10, if_neg h13, if_neg (by simp [hspace])]
      have hrest : ∀ (ds : List UInt8) (word : Option (Special × Nat)) (i : Nat),
          (∀ d ∈ ds, d ≠ 10 ∧ d ≠ 13) →
          Parses b (.fieldValue word) i { s with mark := p } r ds
            (.fieldValue (ds.foldl advance word)) { s with mark := p } r := by
        intro ds
        induction ds with
        | nil => exact fun _ _ _ => .nil
        | cons d ds ih =>
            intro word i hds
            obtain ⟨hd, hds⟩ := List.forall_mem_cons.mp hds
            have hstep : next (.fieldValue word) d = some (.fieldValue (advance word d), []) :=
              if_neg (by simp [hd])
            exact (Parses.silent hstep).cons (ih _ _ hds)
      have hfirst : Parses b (.fieldSpace k) p s r [c]
          (.fieldValue (advance (k.map fun k => (k, 0)) c)) { s with mark := p } r :=
        .byte [.startValue] hnext (by decide) rfl .nil
      exact hfirst.cons (hrest cs _ _ hcs)

/-- What runs at the end of a line whose value is not that of chunks. -/
theorem valueEnd_cases {word : Option (Special × Nat)}
    (hw : word ≠ some (.transferEncodingChunked, 7)) :
    ∃ (k : Option Special) (as : List Action) (pend : Pending), pend.Fresh ∧
      next (.fieldValue word) 13 = some (.crlf k, as) ∧
      next (.crlf k) 10 = some (.line pend, []) ∧
      (as = [.writeValue] ∨ as = [.writeContentLen, .writeValue]) := by
  have hend : next (.fieldValue word) 13 = valueEnd word 13 := rfl
  rw [hend]
  cases word with
  | none => exact ⟨none, _, .nothing, .inl rfl, rfl, rfl, .inl rfl⟩
  | some w =>
      obtain ⟨k, n⟩ := w
      by_cases h : k.wordDone n = true
      · cases k with
        | connClose => exact ⟨_, _, .close, .inr rfl, if_pos h, rfl, .inl rfl⟩
        | contentLength => exact ⟨_, _, .nothing, .inl rfl, if_pos h, rfl, .inr rfl⟩
        | transferEncodingChunked =>
            obtain rfl : n = 7 := eq_of_beq h
            exact absurd rfl hw
      · exact ⟨none, _, .nothing, .inl rfl, if_neg h, rfl, .inl rfl⟩

/-- The end of a line, which hands out its name and its value. -/
theorem parses_valueEnd {word : Option (Special × Nat)} {name v : List UInt8} {i : Nat}
    (hw : word ≠ some (.transferEncodingChunked, 7)) (hne : name ≠ [])
    (hname : Piece b i name) (hv : Piece b s.mark v) (hi : s.fieldStart = i)
    (hlen : s.fieldLen = (name.length : Nat)) (hp : p = s.mark + v.length) :
    ∃ (pend : Pending) (s' : HttpClientParser), pend.Fresh ∧ s'.chunked = s.chunked ∧
      Parses b (.fieldValue word) p s r crlf (.line pend) s' (r.setHeader name v) := by
  obtain ⟨k, as, pend, hfresh, hcr, hlf, has⟩ := valueEnd_cases hw
  have hmake : Makes b r [.httpField s.fieldStart s.fieldLen s.mark (len s.mark p)]
      (r.setHeader name v) := by
    have hvlen : len s.mark p = (v.length : Nat) := by
      rw [len, hp]
      omega
    rw [hvlen, hi, hlen]
    exact makes_field hne hname hv
  rcases has with rfl | rfl
  · have hfirst : Parses b (.fieldValue word) p s r [13] (.crlf k) s (r.setHeader name v) :=
      .byte [.writeValue] hcr (by decide) rfl hmake
    exact ⟨pend, s, hfresh, rfl, hfirst.cons (.silent hlf)⟩
  · have hfirst : Parses b (.fieldValue word) p s r [13] (.crlf k)
        { s with contentLen := toInt32 (strtol (b.drop s.mark) 10) } (r.setHeader name v) :=
      .byte [.writeContentLen, .writeValue] hcr (by decide) rfl hmake
    exact ⟨pend, { s with contentLen := toInt32 (strtol (b.drop s.mark) 10) }, hfresh, rfl,
      hfirst.cons (.silent hlf)⟩

/-- A line without a value. -/
theorem parses_noValue {name : List UInt8} {i : Nat} (hne : name ≠ []) (hname : Piece b i name)
    (hi : s.fieldStart = i) (hlen : s.fieldLen = (name.length : Nat)) :
    Parses b (.fieldSpace none) p s r crlf (.line .nothing) { s with mark := p }
      (r.setHeader name []) := by
  have hmake : Makes b r [.httpField s.fieldStart s.fieldLen p (len p p)]
      (r.setHeader name []) := by
    have hvlen : len p p = (([] : List UInt8).length : Nat) := by
      rw [len, List.length_nil]
      omega
    rw [hvlen, hi, hlen]
    exact makes_field hne hname ⟨⟨b.drop p, rfl⟩⟩
  have hcr : Parses b (.fieldSpace none) p s r [13] (.crlf none) { s with mark := p }
      (r.setHeader name []) :=
    .byte [.startValue, .writeValue] rfl (by decide) rfl hmake
  exact hcr.cons (.silent rfl)

/-! ### Lines that announce no chunks -/

/-- What was read of the word of chunks. -/
theorem advance_some {cs : List UInt8} {k k' : Special} {n m : Nat}
    (h : cs.foldl advance (some (k, n)) = some (k', m)) :
    k' = k ∧ (k = .transferEncodingChunked →
      m = n + cs.length ∧ ∃ rest, (text "chunked").drop n = cs.map tolower ++ rest) := by
  induction cs generalizing n with
  | nil =>
      cases h
      exact ⟨rfl, fun _ => ⟨rfl, _, rfl⟩⟩
  | cons c cs ih =>
      rw [List.foldl_cons] at h
      cases hadv : advance (some (k, n)) c with
      | none =>
          rw [hadv, foldl_none fun _ => rfl] at h
          cases h
      | some w =>
          simp only [advance, Option.bind_some, Option.map_eq_some_iff] at hadv
          obtain ⟨n', hn', rfl⟩ := hadv
          have hw : advance (some (k, n)) c = some (k, n') := by
            simp [advance, hn']
          rw [hw] at h
          obtain ⟨hk, hrest⟩ := ih h
          refine ⟨hk, ?_⟩
          rintro rfl
          obtain ⟨hm, rest, htext⟩ := hrest rfl
          simp only [Special.wordNext] at hn'
          split at hn'
          · rename_i hc
            cases hn'
            refine ⟨by rw [hm, List.length_cons]; omega, rest, ?_⟩
            obtain ⟨hlt, hget⟩ := List.getElem?_eq_some_iff.mp hc
            rw [List.drop_eq_getElem_cons hlt, hget, htext]
            rfl
          · cases hn'

theorem FieldLine.word_ne {f : FieldLine} (h : ¬f.Chunked) :
    f.value.foldl advance (f.special.map fun k => (k, 0)) ≠
      some (.transferEncodingChunked, 7) := by
  intro hword
  cases hk : f.special with
  | none =>
      rw [hk, Option.map_none, foldl_none fun _ => rfl] at hword
      cases hword
  | some k =>
      rw [hk, Option.map_some] at hword
      obtain ⟨rfl, hrest⟩ := advance_some hword
      obtain ⟨hlen, rest, htext⟩ := hrest rfl
      have hrestLen : rest.length = 0 := by
        have := congrArg List.length htext
        simp only [List.drop_zero, List.length_append, List.length_map] at this
        have h7 : (text "chunked").length = 7 := rfl
        omega
      rw [List.eq_nil_of_length_eq_zero hrestLen, List.append_nil, List.drop_zero] at htext
      exact h ⟨FieldLine.special_name hk, htext.symm⟩

/-- **A header line** hands out its name and its value. -/
theorem parses_line (f : FieldLine) (hf : ¬f.Chunked) {pend : Pending} (hp : pend.Fresh)
    (hb : Piece b p f.bytes) :
    ∃ (pend' : Pending) (s' : HttpClientParser), pend'.Fresh ∧ s'.chunked = s.chunked ∧
      Parses b (.line pend) p s r f.bytes (.line pend') s' (r.setHeader f.name f.value) := by
  obtain ⟨s₁, hchunked, hstart, hlen, hname⟩ :=
    parses_name (b := b) (p := p) (s := s) (r := r) f hp
  obtain ⟨m, hblanks⟩ := parses_blanks (b := b) (k := f.special)
    (p := p + (f.name ++ [ch ':']).length) (s := s₁) (r := r) f.blanks_ok
  have hfront := hname.append hblanks
  have hbytes : f.bytes = (f.name ++ [ch ':'] ++ f.blanks) ++ (f.value ++ crlf) := by
    simp only [FieldLine.bytes, List.append_assoc]
  rw [hbytes] at hb ⊢
  have hpiece : Piece b p f.name := hb.left.left.left
  have hvalue := hb.right.left
  by_cases hv : f.value = []
  · have hspecial : f.special = none := by
      cases hk : f.special with
      | none => rfl
      | some k => exact absurd (FieldLine.special_name hk) (f.filled hv k)
    rw [hspecial] at hfront
    rw [hv, List.nil_append]
    exact ⟨.nothing, { s₁ with mark := p + (f.name ++ [ch ':'] ++ f.blanks).length }, .inl rfl,
      hchunked, hfront.append (parses_noValue (s := { s₁ with mark := m }) f.name_ne hpiece
        hstart hlen)⟩
  · have hread := parses_value (b := b) (p := p + (f.name ++ [ch ':'] ++ f.blanks).length)
      (s := { s₁ with mark := m }) (r := r) (k := f.special) hv f.value_ok f.value_start
    obtain ⟨pend', s', hfresh, hchunked', hend⟩ := parses_valueEnd (r := r)
      (s := { s₁ with mark := p + (f.name ++ [ch ':'] ++ f.blanks).length })
      (FieldLine.word_ne hf) f.name_ne hpiece hvalue hstart hlen rfl
    exact ⟨pend', s', hfresh, hchunked'.trans hchunked,
      hfront.append (hread.append hend)⟩

/-- **The header lines are read back**, in their order. -/
theorem parses_fields {fs : List FieldLine} (hfs : ∀ f ∈ fs, ¬f.Chunked) {pend : Pending}
    (hp : pend.Fresh) (hb : Piece b p (fs.flatMap FieldLine.bytes)) :
    ∃ (pend' : Pending) (s' : HttpClientParser), pend'.Fresh ∧ s'.chunked = s.chunked ∧
      Parses b (.line pend) p s r (fs.flatMap FieldLine.bytes) (.line pend') s'
        { r with headers :=
            OrderedMap.setAll NameLess r.headers (fs.map fun f => (f.name, f.value)) } := by
  induction fs generalizing p s r pend with
  | nil => exact ⟨pend, s, hp, rfl, .nil⟩
  | cons f fs ih =>
      obtain ⟨hf, hfs⟩ := List.forall_mem_cons.mp hfs
      rw [List.flatMap_cons] at hb ⊢
      obtain ⟨pend₁, s₁, hp₁, hc₁, hfirst⟩ :=
        parses_line (s := s) (r := r) f hf hp hb.left
      obtain ⟨pend', s', hp', hc', hrest⟩ :=
        ih (s := s₁) (r := r.setHeader f.name f.value) hfs hp₁ hb.right
      rw [HttpResponse.setHeader, MapType.set_eq] at hrest hfirst
      exact ⟨pend', s', hp', hc'.trans hc₁, hfirst.append hrest⟩

end Parses

/-! ## Heads -/

/-- The response that a head says, behind its first line. -/
def Head.response (h : Head) (v : UInt8) (n : Nat) : HttpResponse where
  status := n
  version := v
  reason := h.reason
  headers := OrderedMap.setAll NameLess [] (h.fields.map fun f => (f.name, f.value))

/-- What the version callback makes of the text. -/
def VersionText (version : List UInt8) (v : UInt8) : Prop :=
  version = text "HTTP/1.1" ∧ v = 0x11 ∨ version = text "HTTP/1.0" ∧ v = 0x10

theorem parses_lastCr {b : List UInt8} {pend : Pending} (hp : pend.Fresh) {p : Nat}
    {s : HttpClientParser} {r : HttpResponse} :
    ∃ s' : HttpClientParser, s'.chunked = s.chunked ∧
      Parses b (.line pend) p s r [13] .lastCr s' r := by
  rcases hp with rfl | rfl
  · exact ⟨s, rfl, .silent rfl⟩
  · exact ⟨{ s with close := true }, rfl,
      .byte [.writeConnectionClose] rfl (by decide) rfl .nil⟩

/-- A head up to the last byte. -/
theorem parses_head (h : Head) {v : UInt8} {n : Nat} (hv : VersionText h.version v)
    (hn : n < 2 ^ 31) (hstatus : h.status = decimal n) (hreason : h.reason ≠ [])
    (hc : ¬h.Chunked) (rest : List UInt8) :
    ∃ s' : HttpClientParser, s'.chunked = false ∧
      Parses (h.bytes ++ rest) .start 0 httpClientParserInit.reset {}
        ((h.version ++ [ch ' ']) ++ h.lines) .lastCr s' (h.response v n) := by
  set b := h.bytes ++ rest with hb
  have hwhole : Piece b 0 ((h.version ++ [ch ' ']) ++ h.lines) := by
    refine ⟨⟨[10] ++ rest, ?_⟩⟩
    rw [List.drop_zero, hb, h.bytes_eq]
    simp only [List.append_assoc]
  obtain ⟨s₁, hruns⟩ := runs_version b h.version_ok httpClientParserInit.reset
  have hchunked₁ : s₁.chunked = false := by
    have := hruns
    rcases hv with ⟨hver, -⟩ | ⟨hver, -⟩ <;> rw [hver] at this
    · exact (congrArg (fun o => o.regs.chunked) this).symm
    · exact (congrArg (fun o => o.regs.chunked) this).symm
  have hfront : Parses b .start 0 httpClientParserInit.reset {} (h.version ++ [ch ' '])
      .statusStart s₁ (HttpResponse.setVersion {} v) := by
    refine ⟨_, hruns, ?_⟩
    rcases hv with ⟨hver, rfl⟩ | ⟨hver, rfl⟩
    · refine makes_version ([ch ' '] ++ (h.lines ++ ([10] ++ rest))) (.inl ⟨?_, rfl⟩)
      rw [hb, h.bytes_eq, ← hver]
      simp only [List.append_assoc]
    · refine makes_version ([ch ' '] ++ (h.lines ++ ([10] ++ rest))) (.inr ⟨?_, rfl⟩)
      rw [hb, h.bytes_eq, ← hver]
      simp only [List.append_assoc]
  have hlines : h.lines = (decimal n ++ [ch ' ']) ++ ((h.reason ++ crlf) ++
      (h.fields.flatMap FieldLine.bytes ++ [13])) := by
    simp only [Head.lines, hstatus, List.append_assoc]
  rw [hlines] at hwhole ⊢
  have hcode := parses_status (s := s₁) (r := HttpResponse.setVersion {} v) hn
    hwhole.right.left
  have hwords := parses_reason (s := { s₁ with mark := 0 + (h.version ++ [ch ' ']).length })
    (r := (HttpResponse.setVersion {} v).setStatus n) hreason h.reason_ok
    hwhole.right.right.left.left
  obtain ⟨pend, s₂, hfresh, hchunked₂, hfields⟩ := parses_fields
    (fun f hf hch => hc ⟨f, hf, hch⟩) (.inl rfl) hwhole.right.right.right.left
    (s := { s₁ with mark := 0 + (h.version ++ [ch ' ']).length + (decimal n ++ [ch ' ']).length })
    (r := ((HttpResponse.setVersion {} v).setStatus n).setReason h.reason)
  obtain ⟨s₃, hchunked₃, hcr⟩ := parses_lastCr (b := b) hfresh (s := s₂) (r := h.response v n)
    (p := 0 + (h.version ++ [ch ' ']).length + (decimal n ++ [ch ' ']).length +
      (h.reason ++ crlf).length + (h.fields.flatMap FieldLine.bytes).length)
  exact ⟨s₃, by rw [hchunked₃, hchunked₂, hchunked₁],
    hfront.append (hcode.append (hwords.append (hfields.append hcr)))⟩

/-- What `execute` returns, it made with its calls. -/
theorem execute_makes {p q : HttpResponseParser} {data rest : List UInt8} {n : Nat}
    {r : HttpResponse} (h : p.execute data false = .ok (n, q, rest))
    (hm : Makes data p.data (httpClientParserRun p.parser data).2 r) :
    q = { p with parser := (httpClientParserRun p.parser data).1, data := r } := by
  simp only [HttpResponseParser.execute, Bool.false_eq_true, if_false] at h
  rw [hm { p with parser := (httpClientParserRun p.parser data).1 } rfl] at h
  dsimp only at h
  split_ifs at h
  cases h
  rfl

/-- **A head that announces no chunks is read** for what it says. -/
theorem execute_response (h : Head) {v : UInt8} {n : Nat} (hv : VersionText h.version v)
    (hn : n < 2 ^ 31) (hstatus : h.status = decimal n) (hreason : h.reason ≠ [])
    (hc : ¬h.Chunked) (rest : List UInt8) :
    ∃ p', HttpResponseParser.new.execute (h.bytes ++ rest) false =
        .ok (h.bytes.length, p', rest) ∧
      p'.parser.cs = some (.finished none) ∧ p'.error = 0 ∧ p'.parser.chunked = false ∧
      p'.data = h.response v n := by
  obtain ⟨p', hexec, hcs, herror, -, -⟩ := execute_head h rest
  obtain ⟨s', hchunked, out, hrun, hmakes⟩ := parses_head h hv hn hstatus hreason hc rest
  have hsplit : h.bytes ++ rest = ((h.version ++ [ch ' ']) ++ h.lines) ++ 10 :: rest := by
    rw [h.bytes_eq, List.append_assoc]
    rfl
  -- the line feed at the end stops the machine
  have hdone : machine.next .lastCr 10 = some (.finished none, [.done]) := rfl
  have hwhole := hrun.exec_append (10 :: rest)
  rw [← hsplit, Machine.exec_cons_stop hdone rfl] at hwhole
  have hcalls : ∃ i length, (httpClientParserRun httpClientParserInit (h.bytes ++ rest)).2 =
      out ++ [.element .headerDone i length] :=
    ⟨_, _, congrArg Outcome.calls hwhole⟩
  have hregs : (httpClientParserRun httpClientParserInit (h.bytes ++ rest)).1.chunked =
      s'.chunked :=
    congrArg (fun o => o.regs.chunked) hwhole
  obtain ⟨i, length, hcalls⟩ := hcalls
  have hall : Makes (h.bytes ++ rest) {}
      (httpClientParserRun httpClientParserInit (h.bytes ++ rest)).2 (h.response v n) := by
    rw [hcalls]
    refine hmakes.append (.one fun p hp => ?_)
    rw [← hp]
    rfl
  have hp := execute_makes hexec hall
  refine ⟨p', hexec, hcs, herror, ?_, congrArg HttpResponseParser.data hp⟩
  rw [congrArg HttpResponseParser.parser hp]
  exact hregs.trans hchunked

end Hps.Http.Response
