import Hps.Http.ResponseCalls

/-!
# HTTP — response heads

The heads of well-formed responses (`Head`), and what one call of `execute`
makes of one: it reads the head to its end, and it notes the chunks if a line
of the head announces them (`execute_head`). The run of the machine is put
together line by line; all that matters of a piece is that the machine goes
on behind it (`Goes`).
-/

namespace Hps.Http.Response

open Hps.Lib

/-! ## Heads -/

/-- A header line: `name: value CRLF`, with any blanks behind the colon. The
headers with a rule of their own have a value. -/
structure FieldLine where
  name : List UInt8
  blanks : List UInt8
  value : List UInt8
  name_ne : name ≠ []
  name_token : ∀ c ∈ name, token c = true
  blanks_ok : ∀ c ∈ blanks, c = 32 ∨ c = 9
  value_ok : ∀ c ∈ value, c ≠ 10 ∧ c ≠ 13
  value_start : ∀ c ∈ value.head?, space c = false
  filled : value = [] → ∀ k : Special, name.map tolower ≠ k.name

def crlf : List UInt8 := [13, 10]

def FieldLine.bytes (f : FieldLine) : List UInt8 :=
  f.name ++ ([ch ':'] ++ (f.blanks ++ (f.value ++ crlf)))

/-- `Transfer-Encoding: chunked`, in letters of any case. -/
def FieldLine.Chunked (f : FieldLine) : Prop :=
  f.name.map tolower = text "transfer-encoding" ∧
    f.value.map tolower = text "chunked"

/-- A response head. -/
structure Head where
  version : List UInt8
  status : List UInt8
  reason : List UInt8
  fields : List FieldLine
  version_ok : version = text "HTTP/1.1" ∨ version = text "HTTP/1.0"
  status_ne : status ≠ []
  status_digit : ∀ c ∈ status, digit c = true
  reason_ok : ∀ c ∈ reason, c ≠ 10 ∧ c ≠ 13

def Head.bytes (h : Head) : List UInt8 :=
  (h.version ++ [ch ' ']) ++ (h.status ++ ([ch ' '] ++ (h.reason ++ (crlf ++
    (h.fields.flatMap FieldLine.bytes ++ crlf)))))

/-- The head announces chunks. -/
def Head.Chunked (h : Head) : Prop := ∃ f ∈ h.fields, f.Chunked

/-! ## Pieces of a run -/

/-- The machine reads `xs` from `q` to `q'`, without an error and without
forgetting about chunks; `found` says that it learns of them. -/
def Goes (buffer : List UInt8) (q : State) (xs : List UInt8) (q' : State)
    (found : Prop) : Prop :=
  ∀ p r, ∃ r' out, Machine.Runs machine (act buffer) q p r xs q' r' out ∧
    (r.chunked = true ∨ found → r'.chunked = true) ∧ ∀ x ∈ out, x.Fine buffer

section Goes

variable {buffer xs ys : List UInt8} {q q₁ q₂ : State} {found found₁ found₂ : Prop}

theorem Goes.nil : Goes buffer q [] q False :=
  fun _ r => ⟨r, [], Machine.Runs.nil, fun h => h.resolve_right id, by simp⟩

theorem Goes.imp (h : Goes buffer q xs q₁ found) (hf : found₁ → found) :
    Goes buffer q xs q₁ found₁ := by
  intro p r
  obtain ⟨r', out, run, chunked, fine⟩ := h p r
  exact ⟨r', out, run, fun h => chunked (h.imp_right hf), fine⟩

theorem Goes.append (h : Goes buffer q xs q₁ found₁) (h' : Goes buffer q₁ ys q₂ found₂) :
    Goes buffer q (xs ++ ys) q₂ (found₁ ∨ found₂) := by
  intro p r
  obtain ⟨r₁, out₁, run₁, chunked₁, fine₁⟩ := h p r
  obtain ⟨r₂, out₂, run₂, chunked₂, fine₂⟩ := h' (p + xs.length) r₁
  refine ⟨r₂, out₁ ++ out₂, run₁.append run₂, ?_, ?_⟩
  · rintro (hr | hf | hf)
    · exact chunked₂ (.inl (chunked₁ (.inl hr)))
    · exact chunked₂ (.inl (chunked₁ (.inr hf)))
    · exact chunked₂ (.inr hf)
  · intro x hx
    exact (List.mem_append.mp hx).elim (fine₁ x) (fine₂ x)

/-- Behind a piece in which nothing was found. -/
theorem Goes.trans (h : Goes buffer q xs q₁ False) (h' : Goes buffer q₁ ys q₂ found) :
    Goes buffer q (xs ++ ys) q₂ found :=
  (h.append h').imp .inr

/-- No action makes the parser forget about chunks. -/
theorem acts_chunked (as : List Action) (p : Nat) (r : HttpClientParser)
    (h : r.chunked = true ∨ .transChunked ∈ as) :
    (acts (act buffer) p as r).1.chunked = true := by
  induction as generalizing r with
  | nil => exact h.resolve_right List.not_mem_nil
  | cons a as ih =>
      show (acts (act buffer) p as (act buffer a p r).1).1.chunked = true
      apply ih
      rcases h with h | h
      · left
        cases a <;> first | exact h | rfl
      · rcases List.mem_cons.mp h with rfl | h
        · exact .inl rfl
        · exact .inr h

theorem acts_fine (as : List Action) (p : Nat) (r : HttpClientParser)
    (h : .httpVersion ∉ as) : ∀ x ∈ (acts (act buffer) p as r).2, x.Fine buffer := by
  induction as generalizing r with
  | nil => simp [acts]
  | cons a as ih =>
      intro x hx
      rcases List.mem_append.mp hx with hx | hx
      · cases a with
        | httpVersion => exact absurd List.mem_cons_self h
        | reasonPhrase | statusCode | writeValue | done =>
            obtain rfl := List.mem_singleton.mp hx
            trivial
        | chunkSize =>
            obtain rfl := List.mem_singleton.mp hx
            show Call.Fine buffer (.element (if _ then _ else _) _ _)
            split <;> trivial
        | _ => cases hx
      · exact ih _ (fun h' => h (List.mem_cons_of_mem _ h')) x hx

theorem Goes.step {c : UInt8} {as : List Action} (h : next q c = some (q₁, as))
    (hd : .done ∉ as) (hv : .httpVersion ∉ as) :
    Goes buffer q [c] q₁ (.transChunked ∈ as) := by
  intro p r
  have hs : as.any machine.stops = false := by
    rw [List.any_eq_false]
    intro a ha hstop
    obtain rfl : a = .done := of_decide_eq_true hstop
    exact hd ha
  exact ⟨_, _, Machine.Runs.step h hs p r, acts_chunked as p r, acts_fine as p r hv⟩

/-- A step that finds nothing. -/
theorem Goes.next {c : UInt8} {as : List Action} (h : next q c = some (q₁, as))
    (hd : .done ∉ as) (hv : .httpVersion ∉ as) : Goes buffer q [c] q₁ False :=
  (Goes.step h hd hv).imp False.elim

/-- A loop of the machine. -/
theorem Goes.loop (h : ∀ c ∈ xs, Goes buffer q [c] q False) :
    Goes buffer q xs q False := by
  induction xs with
  | nil => exact .nil
  | cons c xs ih =>
      obtain ⟨hc, hxs⟩ := List.forall_mem_cons.mp h
      exact hc.trans (ih hxs)

end Goes

/-! ## Lines -/

section Lines

variable {buffer : List UInt8} {c : UInt8}

theorem ne_of_token (h : token c = true) : c ≠ 10 ∧ c ≠ 13 ∧ c ≠ ch ':' := by
  refine ⟨?_, ?_, ?_⟩ <;> rintro rfl <;> exact absurd h (by decide)

/-- A line that begins where no header goes on. -/
def Pending.Fresh (p : Pending) : Prop := p = .nothing ∨ p = .close

theorem goes_nameStart {p : Pending} (hp : p.Fresh) (h : token c = true) :
    Goes buffer (.line p) [c] (.fieldName (typedNext (some []) c) none) False := by
  obtain ⟨h10, h13, -⟩ := ne_of_token h
  have hstart : next (.line .nothing) c =
      some (.fieldName (typedNext (some []) c) none, [.startField]) := by
    show lineStart c = _
    rw [lineStart, if_neg h10, if_neg h13, if_pos h]
  rcases hp with rfl | rfl
  · exact Goes.next hstart (by decide) (by decide)
  · have hnext : next (.line .close) c =
        some (.fieldName (typedNext (some []) c) none,
          [.writeConnectionClose, .startField]) := by
      show entering _ (next (.line .nothing) c) = _
      rw [hstart]
      rfl
    exact Goes.next hnext (by decide) (by decide)

theorem goes_nameRest (typed : Option (List UInt8)) {cs : List UInt8}
    (h : ∀ c ∈ cs, token c = true) :
    Goes buffer (.fieldName typed none) cs (.fieldName (cs.foldl typedNext typed) none)
      False := by
  induction cs generalizing typed with
  | nil => exact .nil
  | cons c cs ih =>
      obtain ⟨hc, hcs⟩ := List.forall_mem_cons.mp h
      have hnext : next (.fieldName typed none) c =
          some (.fieldName (typedNext typed c) none, []) := by
        show fieldNameNext typed none c = _
        rw [fieldNameNext, if_neg (ne_of_token hc).2.2, if_pos hc]
        rfl
      exact (Goes.next hnext (by decide) (by decide)).trans (ih _ hcs)

/-- What the name of a line was taken for. -/
def FieldLine.special (f : FieldLine) : Option Special :=
  typedSpecial (f.name.foldl typedNext (some []))

theorem goes_name (f : FieldLine) {p : Pending} (hp : p.Fresh) :
    Goes buffer (.line p) (f.name ++ [ch ':']) (.fieldSpace f.special) False := by
  have hcolon : Goes buffer (.fieldName (f.name.foldl typedNext (some [])) none)
      [ch ':'] (.fieldSpace f.special) False :=
    Goes.next rfl (by decide) (by decide)
  refine Goes.trans ?_ hcolon
  cases hn : f.name with
  | nil => exact absurd hn f.name_ne
  | cons c cs =>
      have htoken := f.name_token
      rw [hn] at htoken
      obtain ⟨hc, hcs⟩ := List.forall_mem_cons.mp htoken
      exact (goes_nameStart hp hc).trans (goes_nameRest _ hcs)

theorem goes_blanks (k : Option Special) {bs : List UInt8}
    (h : ∀ c ∈ bs, c = 32 ∨ c = 9) :
    Goes buffer (.fieldSpace k) bs (.fieldSpace k) False := by
  apply Goes.loop
  intro c hc
  have hnext : next (.fieldSpace k) c = some (.fieldSpace k, [.startValue]) := by
    rcases h c hc with rfl | rfl <;> rfl
  exact Goes.next hnext (by decide) (by decide)

theorem goes_valueRest (word : Option (Special × Nat)) {cs : List UInt8}
    (h : ∀ c ∈ cs, c ≠ 10 ∧ c ≠ 13) :
    Goes buffer (.fieldValue word) cs (.fieldValue (cs.foldl advance word)) False := by
  induction cs generalizing word with
  | nil => exact .nil
  | cons c cs ih =>
      obtain ⟨hc, hcs⟩ := List.forall_mem_cons.mp h
      have hnext : next (.fieldValue word) c = some (.fieldValue (advance word c), []) :=
        if_neg (by simp [hc])
      exact (Goes.next hnext (by decide) (by decide)).trans (ih _ hcs)

/-- The bytes of a value behind the blanks. -/
theorem goes_value (k : Option Special) {value : List UInt8} (hne : value ≠ [])
    (hok : ∀ c ∈ value, c ≠ 10 ∧ c ≠ 13) (hstart : ∀ c ∈ value.head?, space c = false) :
    Goes buffer (.fieldSpace k) value
      (.fieldValue (value.foldl advance (k.map fun k => (k, 0)))) False := by
  cases value with
  | nil => exact absurd rfl hne
  | cons c cs =>
      obtain ⟨⟨h10, h13⟩, hcs⟩ := List.forall_mem_cons.mp hok
      have hspace : space c = false := hstart c rfl
      have hnext : next (.fieldSpace k) c =
          some (.fieldValue (advance (k.map fun k => (k, 0)) c), [.startValue]) := by
        show fieldSpaceNext k c = _
        rw [fieldSpaceNext, if_neg h10, if_neg h13, if_neg (by simp [hspace])]
      exact (Goes.next hnext (by decide) (by decide)).trans (goes_valueRest _ hcs)

variable (buffer) in
/-- The end of a line behind a value, which may have been a word. -/
theorem goes_valueEnd (word : Option (Special × Nat)) :
    ∃ p : Pending, p.Fresh ∧ Goes buffer (.fieldValue word) crlf (.line p)
      (word = some (.transferEncodingChunked, 7)) := by
  obtain ⟨k, as, hend, hdone, hversion, hfound⟩ : ∃ (k : Option Special) (as : List Action),
      valueEnd word 13 = some (.crlf k, as) ∧ .done ∉ as ∧ .httpVersion ∉ as ∧
        (word = some (.transferEncodingChunked, 7) → k = some .transferEncodingChunked) := by
    cases word with
    | none => exact ⟨none, [.writeValue], rfl, by decide, by decide, nofun⟩
    | some w =>
        obtain ⟨k, n⟩ := w
        by_cases h : k.wordDone n = true
        · cases k with
          | connClose => exact ⟨_, _, if_pos h, by decide, by decide, by simp⟩
          | contentLength => exact ⟨_, _, if_pos h, by decide, by decide, by simp⟩
          | transferEncodingChunked => exact ⟨_, _, if_pos h, by decide, by decide, by simp⟩
        · refine ⟨none, [.writeValue], if_neg h, by decide, by decide, ?_⟩
          intro hw
          cases hw
          exact absurd rfl h
  have hcr : next (.fieldValue word) 13 = some (.crlf k, as) := by
    show fieldValueNext word 13 = _
    rw [fieldValueNext, if_pos (.inr rfl), hend]
  have hboth : ∀ {p : Pending} {as' : List Action}, crlfNext k 10 = some (.line p, as') →
      .done ∉ as' → .httpVersion ∉ as' →
      Goes buffer (.fieldValue word) crlf (.line p) (.transChunked ∈ as') := by
    intro p as' hlf hd hv
    exact (Goes.next hcr hdone hversion).trans (Goes.step hlf hd hv)
  cases k with
  | none =>
      refine ⟨.nothing, .inl rfl, (hboth rfl (by decide) (by decide)).imp ?_⟩
      intro hw
      cases hfound hw
  | some k =>
      cases k with
      | connClose =>
          refine ⟨.close, .inr rfl, (hboth rfl (by decide) (by decide)).imp ?_⟩
          intro hw
          cases hfound hw
      | contentLength =>
          refine ⟨.nothing, .inl rfl, (hboth rfl (by decide) (by decide)).imp ?_⟩
          intro hw
          cases hfound hw
      | transferEncodingChunked =>
          exact ⟨.nothing, .inl rfl, (hboth rfl (by decide) (by decide)).imp fun _ => by simp⟩

/-- A line without a value. -/
theorem goes_noValue : Goes buffer (.fieldSpace none) crlf (.line .nothing) False := by
  have hcr : Goes buffer (.fieldSpace none) [13] (.crlf none) False :=
    Goes.next rfl (by decide) (by decide)
  have hlf : Goes buffer (.crlf none) [10] (.line .nothing) False :=
    Goes.next rfl (by decide) (by decide)
  exact hcr.trans hlf

end Lines

/-! ## Names and words -/

theorem tolower_tolower (c : UInt8) : tolower (tolower c) = tolower c := by
  unfold tolower upper ch
  split
  · rename_i h
    simp only [Bool.and_eq_true, decide_eq_true_eq, UInt8.le_iff_toNat_le] at h
    have h1 : ('A'.toUInt8).toNat = 65 := rfl
    have h2 : ('Z'.toUInt8).toNat = 90 := rfl
    have h3 : (c + 32).toNat = c.toNat + 32 := by
      rw [UInt8.toNat_add]
      show (c.toNat + 32) % 256 = _
      omega
    rw [if_neg]
    simp only [Bool.and_eq_true, decide_eq_true_eq, UInt8.le_iff_toNat_le]
    omega
  · rfl

theorem typedNext_tolower (typed : Option (List UInt8)) (c : UInt8) :
    typedNext typed (tolower c) = typedNext typed c := by
  rw [typedNext, typedNext, tolower_tolower]

/-- The words of chunks are read in letters of any case. -/
theorem advance_tolower (n : Nat) (c : UInt8) :
    advance (some (.transferEncodingChunked, n)) (tolower c) =
      advance (some (.transferEncodingChunked, n)) c := by
  simp only [advance, Option.bind_some, Special.wordNext, tolower_tolower]

theorem foldl_none {α : Type} {f : Option α → UInt8 → Option α}
    (hf : ∀ c, f none c = none) (cs : List UInt8) : cs.foldl f none = none := by
  induction cs with
  | nil => rfl
  | cons c cs ih =>
      rw [List.foldl_cons, hf]
      exact ih

theorem typed_some {cs pre t : List UInt8} (h : cs.foldl typedNext (some pre) = some t) :
    t = pre ++ cs.map tolower := by
  induction cs generalizing pre with
  | nil => simpa using h.symm
  | cons c cs ih =>
      rw [List.foldl_cons] at h
      cases hn : typedNext (some pre) c with
      | none =>
          rw [hn, foldl_none fun _ => rfl] at h
          cases h
      | some pre' =>
          have hpre : pre' = pre ++ [tolower c] := by
            simp only [typedNext, Option.bind_some] at hn
            split at hn
            · exact (Option.some.inj hn).symm
            · cases hn
          rw [hn] at h
          rw [ih h, hpre, List.map_cons, List.append_assoc]
          rfl

theorem FieldLine.special_name {f : FieldLine} {k : Special} (h : f.special = some k) :
    f.name.map tolower = k.name := by
  cases ht : f.name.foldl typedNext (some []) with
  | none =>
      rw [special, ht] at h
      cases h
  | some t =>
      rw [special, ht] at h
      have hk : (k.name == t) = true :=
        List.find?_some (p := fun k : Special => k.name == t) h
      have hname : t = [] ++ f.name.map tolower := typed_some ht
      rw [eq_of_beq hk, hname, List.nil_append]

theorem FieldLine.Chunked.special {f : FieldLine} (h : f.Chunked) :
    f.special = some .transferEncodingChunked := by
  have hmap : f.name.foldl typedNext (some []) =
      (f.name.map tolower).foldl typedNext (some []) := by
    rw [List.foldl_map]
    congr 1
    funext typed c
    exact (typedNext_tolower typed c).symm
  rw [FieldLine.special, hmap, h.1]
  decide

theorem FieldLine.Chunked.word {f : FieldLine} (h : f.Chunked) :
    f.value.foldl advance (some (.transferEncodingChunked, 0)) =
      some (.transferEncodingChunked, 7) := by
  have hfold : ∀ (cs : List UInt8) (n : Nat),
      cs.foldl advance (some (.transferEncodingChunked, n)) =
        (cs.map tolower).foldl advance (some (.transferEncodingChunked, n)) := by
    intro cs
    induction cs with
    | nil => exact fun _ => rfl
    | cons c cs ih =>
        intro n
        rw [List.map_cons, List.foldl_cons, List.foldl_cons, advance_tolower]
        cases hadv : advance (some (.transferEncodingChunked, n)) c with
        | none =>
            rw [foldl_none fun _ => rfl, foldl_none fun _ => rfl]
        | some w =>
            have hw : w.1 = .transferEncodingChunked := by
              simp only [advance, Option.bind_some, Option.map_eq_some_iff] at hadv
              obtain ⟨_, _, rfl⟩ := hadv
              rfl
            obtain ⟨k, m⟩ := w
            obtain rfl : k = .transferEncodingChunked := hw
            exact ih m
  rw [hfold, h.2]
  decide

/-! ## Heads -/

section Heads

variable {buffer : List UInt8}

/-- **A header line** ends at the start of the next. -/
theorem goes_line (f : FieldLine) {p : Pending} (hp : p.Fresh) :
    ∃ p' : Pending, p'.Fresh ∧ Goes buffer (.line p) f.bytes (.line p') f.Chunked := by
  have hname : Goes buffer (.line p) (f.name ++ ([ch ':'] ++ f.blanks))
      (.fieldSpace f.special) False := by
    rw [← List.append_assoc]
    exact (goes_name f hp).trans (goes_blanks f.special f.blanks_ok)
  have hbytes : f.bytes = (f.name ++ ([ch ':'] ++ f.blanks)) ++ (f.value ++ crlf) := by
    simp only [FieldLine.bytes, List.append_assoc]
  rw [hbytes]
  by_cases hv : f.value = []
  · have hspecial : f.special = none := by
      cases hk : f.special with
      | none => rfl
      | some k => exact absurd (FieldLine.special_name hk) (f.filled hv k)
    rw [hspecial] at hname
    refine ⟨.nothing, .inl rfl, ?_⟩
    rw [hv, List.nil_append]
    refine (hname.trans goes_noValue).imp fun hc => ?_
    have := hc.2
    rw [hv] at this
    exact absurd this (by decide)
  · obtain ⟨p', hp', hend⟩ := goes_valueEnd buffer
      (f.value.foldl advance (f.special.map fun k => (k, 0)))
    refine ⟨p', hp', hname.trans ?_⟩
    refine ((goes_value f.special hv f.value_ok f.value_start).trans hend).imp fun hc => ?_
    rw [hc.special]
    exact hc.word

theorem goes_fields {fs : List FieldLine} {p : Pending} (hp : p.Fresh) :
    ∃ p' : Pending, p'.Fresh ∧ Goes buffer (.line p) (fs.flatMap FieldLine.bytes)
      (.line p') (∃ f ∈ fs, f.Chunked) := by
  induction fs generalizing p with
  | nil => exact ⟨p, hp, Goes.nil.imp (by simp)⟩
  | cons f fs ih =>
      obtain ⟨p₁, hp₁, hline⟩ := goes_line f hp
      obtain ⟨p₂, hp₂, hlines⟩ := ih hp₁
      refine ⟨p₂, hp₂, ?_⟩
      rw [List.flatMap_cons]
      exact (hline.append hlines).imp fun hc => by simpa using hc

theorem goes_status {status : List UInt8} (hne : status ≠ [])
    (hdigit : ∀ c ∈ status, digit c = true) :
    Goes buffer .statusStart (status ++ [ch ' ']) .reasonStart False := by
  cases status with
  | nil => exact absurd rfl hne
  | cons c cs =>
      obtain ⟨hc, hcs⟩ := List.forall_mem_cons.mp hdigit
      have hfirst : Goes buffer .statusStart [c] .status False :=
        Goes.next (if_pos hc) (by decide) (by decide)
      have hrest : Goes buffer .status cs .status False :=
        Goes.loop fun d hd => Goes.next (if_pos (hcs d hd)) (by decide) (by decide)
      have hblank : Goes buffer .status [ch ' '] .reasonStart False :=
        Goes.next rfl (by decide) (by decide)
      exact hfirst.trans (hrest.trans hblank)

/-- The reason may be empty: then the CR is one, and the LF ends the line. -/
theorem goes_reason {reason : List UInt8} (hok : ∀ c ∈ reason, c ≠ 10 ∧ c ≠ 13) :
    Goes buffer .reasonStart (reason ++ crlf) (.line .nothing) False := by
  cases reason with
  | nil =>
      have hcr : Goes buffer .reasonStart [13] .reason False :=
        Goes.next rfl (by decide) (by decide)
      have hlf : Goes buffer .reason [10] (.line .nothing) False :=
        Goes.next rfl (by decide) (by decide)
      exact hcr.trans hlf
  | cons c cs =>
      obtain ⟨hc, hcs⟩ := List.forall_mem_cons.mp hok
      have hfirst : Goes buffer .reasonStart [c] .reason False :=
        Goes.next (if_neg hc.1) (by decide) (by decide)
      have hrest : Goes buffer .reason cs .reason False := by
        apply Goes.loop
        intro d hd
        obtain ⟨h10, h13⟩ := hcs d hd
        have hnext : next .reason d = some (.reason, []) := by
          show (if _ then _ else _) = _
          rw [if_neg h10, if_neg h13]
        exact Goes.next hnext (by decide) (by decide)
      have hcr : Goes buffer .reason [13] (.crlf none) False :=
        Goes.next rfl (by decide) (by decide)
      have hlf : Goes buffer (.crlf none) [10] (.line .nothing) False :=
        Goes.next rfl (by decide) (by decide)
      exact hfirst.trans (hrest.trans (hcr.trans hlf))

theorem goes_lastCr {p : Pending} (hp : p.Fresh) :
    Goes buffer (.line p) [13] .lastCr False := by
  rcases hp with rfl | rfl
  · have hnext : next (.line .nothing) 13 = some (.lastCr, []) := rfl
    exact Goes.next hnext (by decide) (by decide)
  · have hnext : next (.line .close) 13 = some (.lastCr, [.writeConnectionClose]) := rfl
    exact Goes.next hnext (by decide) (by decide)

/-- A head behind its version, up to the last byte. -/
def Head.lines (h : Head) : List UInt8 :=
  h.status ++ ([ch ' '] ++ (h.reason ++ (crlf ++
    (h.fields.flatMap FieldLine.bytes ++ [13]))))

theorem Head.bytes_eq (h : Head) :
    h.bytes = (h.version ++ [ch ' ']) ++ h.lines ++ [10] := by
  simp only [Head.bytes, Head.lines, crlf, List.append_assoc, List.cons_append,
    List.nil_append]

variable (buffer) in
theorem goes_head (h : Head) :
    Goes buffer .statusStart h.lines .lastCr h.Chunked := by
  obtain ⟨p, hp, hfields⟩ := @goes_fields buffer h.fields .nothing (.inl rfl)
  have hlines : Goes buffer (.line .nothing) (h.fields.flatMap FieldLine.bytes ++ [13])
      .lastCr h.Chunked :=
    (hfields.append (goes_lastCr hp)).imp .inl
  have hreason := (goes_reason h.reason_ok).trans hlines
  have hstatus := (goes_status h.status_ne h.status_digit).trans hreason
  simpa only [Head.lines, List.append_assoc] using hstatus

variable (buffer) in
/-- The version, which the callback is called with. -/
theorem runs_version {version : List UInt8}
    (h : version = text "HTTP/1.1" ∨ version = text "HTTP/1.0") (r : HttpClientParser) :
    ∃ r', Machine.Runs machine (act buffer) .start 0 r (version ++ [ch ' ']) .statusStart r'
      [.element .httpVersion 0 8] := by
  rcases h with rfl | rfl
  · exact ⟨{ r with mark := 0 }, rfl⟩
  · exact ⟨{ r with mark := 0 }, rfl⟩

theorem fine_version {version : List UInt8}
    (h : version = text "HTTP/1.1" ∨ version = text "HTTP/1.0") (rest : List UInt8) :
    Call.Fine (version ++ rest) (.element .httpVersion 0 8) := by
  rcases h with rfl | rfl
  · exact .inl rfl
  · exact .inr rfl

end Heads

/-- **A head that arrives in one piece is read to its end**, and the parser
knows of the chunks it announces. -/
theorem execute_head (h : Head) (rest : List UInt8) :
    ∃ p', HttpResponseParser.new.execute (h.bytes ++ rest) false =
        .ok (h.bytes.length, p', rest) ∧
      p'.parser.cs = some (.finished none) ∧ p'.error = 0 ∧ p'.data.body = [] ∧
      (h.Chunked → p'.parser.chunked = true) := by
  set buffer := h.bytes ++ rest with hbuffer
  set front := (h.version ++ [ch ' ']) ++ h.lines with hfront
  have hsplit : buffer = front ++ 10 :: rest := by
    rw [hbuffer, h.bytes_eq, List.append_assoc]
    rfl
  have hlen : 0 + front.length + 1 = h.bytes.length := by
    have hbytes : h.bytes = front ++ [10] := h.bytes_eq
    simp only [hbytes, List.length_append, List.length_cons, List.length_nil]
    omega
  have hne : buffer ≠ [] := by
    rw [hsplit]
    simp
  obtain ⟨r₁, hversion⟩ := runs_version buffer h.version_ok httpClientParserInit.reset
  obtain ⟨r₂, out, hrest, hchunked, hfine⟩ := goes_head buffer h
    (0 + (h.version ++ [ch ' ']).length) r₁
  have hdone : machine.next .lastCr 10 = some (.finished none, [.done]) := rfl
  have hrun := (hversion.append hrest).exec_append (10 :: rest)
  rw [← hfront, ← hsplit, Machine.exec_cons_stop hdone rfl, hlen] at hrun
  obtain ⟨p', he, hparser, hbody, herror, -⟩ :=
    @execute_eq .new buffer false httpClientParserInit .start rfl rfl rfl hne
  rw [runOn, hrun] at he hparser herror
  refine ⟨p', ?_, ?_, ?_, hbody, ?_⟩
  · rw [he]
    simp only [Machine.after_pos, hbuffer, List.drop_left]
  · rw [hparser]
    rfl
  · apply herror
    intro x hx
    rw [Machine.after_calls] at hx
    rcases List.mem_append.mp hx with hx | hx
    · rcases List.mem_append.mp hx with hx | hx
      · obtain rfl := List.mem_singleton.mp hx
        rw [hsplit, hfront, List.append_assoc, List.append_assoc]
        exact fine_version h.version_ok _
      · exact hfine x hx
    · obtain rfl := List.mem_singleton.mp hx
      trivial
  · intro hc
    rw [hparser]
    show r₂.chunked = true
    exact hchunked (.inr hc)

end Hps.Http.Response
