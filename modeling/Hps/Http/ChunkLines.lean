import Mathlib.Tactic.Ring
import Hps.Http.ResponseHead
import Hps.Lib.Integers

/-!
# HTTP — size lines

The line before a chunk: hexadecimal digits and a line end. `parse` starts
anew on every call: a line in one piece gives its number (`parse_line`), the
beginning of one is read and forgotten (`parse_part`), and what begins like
no line is an error (`parse_fails`).
-/

namespace Hps.Http.Response

open Hps.Lib
open Hps.Lib.Integers (forall_byte)

/-! ## Numbers -/

/-- The value of hexadecimal digits. -/
def hexValue (ds : List UInt8) : Nat :=
  ds.foldl (fun v c => v * 16 + (digitValue c).getD 0) 0

theorem hexValue_append (ds es : List UInt8) :
    hexValue (ds ++ es) = hexValue ds * 16 ^ es.length + hexValue es := by
  have hfold : ∀ (es : List UInt8) (v : Nat),
      es.foldl (fun v c => v * 16 + (digitValue c).getD 0) v =
        v * 16 ^ es.length + hexValue es := by
    intro es
    induction es with
    | nil => simp [hexValue]
    | cons c es ih =>
        intro v
        have hc : hexValue (c :: es) =
            (digitValue c).getD 0 * 16 ^ es.length + hexValue es := by
          rw [hexValue, List.foldl_cons, ih, Nat.zero_mul, Nat.zero_add]
        rw [List.foldl_cons, ih, hc, List.length_cons, pow_succ]
        ring
  show (ds ++ es).foldl _ 0 = _
  rw [List.foldl_append, hfold]
  rfl

theorem hexValue_drop_le (ds : List UInt8) (m : Nat) : hexValue (ds.drop m) ≤ hexValue ds := by
  have h := hexValue_append (ds.take m) (ds.drop m)
  rw [List.take_append_drop] at h
  omega

theorem baseDigit_sixteen (c : UInt8) : baseDigit 16 c = xdigit c :=
  forall_byte (P := fun c => baseDigit 16 c = xdigit c) (by decide +kernel) c

theorem ne_of_xdigit {c d : UInt8} (hc : xdigit c = true) (hd : xdigit d = false) :
    c ≠ d := by
  rintro rfl
  rw [hc] at hd
  cases hd

theorem space_of_xdigit {c : UInt8} : xdigit c = true → space c = false :=
  forall_byte (P := fun c => xdigit c = true → space c = false) (by decide +kernel) c

theorem ne_x_of_xdigit {c : UInt8} : xdigit c = true ∨ c = 13 → tolower c ≠ ch 'x' :=
  forall_byte (P := fun c => xdigit c = true ∨ c = 13 → tolower c ≠ ch 'x')
    (by decide +kernel) c

/-- What `strtol` reads of digits: `LONG_MAX` of too many. -/
theorem strtol_digits {ds rest : List UInt8} (hne : ds ≠ [])
    (hex : ∀ c ∈ ds, xdigit c = true)
    (hrest : ∀ c, rest.head? = some c → xdigit c = false ∧ tolower c ≠ ch 'x') :
    strtol (ds ++ rest) 16 = min (hexValue ds : Int) (2 ^ 63 - 1) := by
  have hstop : rest.takeWhile (baseDigit 16) = [] := by
    cases rest with
    | nil => rfl
    | cons c cs =>
        refine List.takeWhile_cons_of_neg ?_
        rw [baseDigit_sixteen, (hrest c rfl).1]
        exact Bool.false_ne_true
  have htake : (ds ++ rest).takeWhile (baseDigit 16) = ds := by
    rw [List.takeWhile_append_of_pos, hstop, List.append_nil]
    intro c hc
    rw [baseDigit_sixteen]
    exact hex c hc
  have hvalue : digitsValue 16 (ds ++ rest) = hexValue ds := by
    rw [digitsValue, htake]
    rfl
  cases ds with
  | nil => exact absurd rfl hne
  | cons c cs =>
      obtain ⟨hc, hcs⟩ := List.forall_mem_cons.mp hex
      have hspace := space_of_xdigit hc
      have hminus : c ≠ ch '-' := ne_of_xdigit hc (by decide)
      have hplus : c ≠ ch '+' := ne_of_xdigit hc (by decide)
      -- no `0x`: behind the first digit stands a digit or the rest
      have hprefix : (((c :: cs) ++ rest).take 2).map tolower ≠ text "0x" := by
        intro h
        cases cs with
        | nil =>
            cases rest with
            | nil => cases (List.cons.inj h).2
            | cons d rest =>
                exact (hrest d rfl).2 (List.cons.inj (List.cons.inj h).2).1
        | cons d cs =>
            have hd := hcs d List.mem_cons_self
            exact ne_x_of_xdigit (.inl hd) (List.cons.inj (List.cons.inj h).2).1
      have hdrop : ((c :: cs) ++ rest).dropWhile space = (c :: cs) ++ rest :=
        List.dropWhile_cons_of_neg (by simp [hspace])
      have hhead : ((c :: cs) ++ rest).head? = some c := rfl
      simp only [strtol, hdrop, hhead, Option.some.injEq, hminus, hplus, or_self, if_false,
        hprefix, false_and, and_false, hvalue]

/-- What `strtol` reads of a size line, unless the number is too large. -/
theorem strtol_hex {ds : List UInt8} (hne : ds ≠ []) (hex : ∀ c ∈ ds, xdigit c = true)
    (hsmall : hexValue ds < 2 ^ 63) (rest : List UInt8) :
    strtol (ds ++ 13 :: rest) 16 = hexValue ds := by
  have hcr : ∀ c, (13 :: rest).head? = some c → xdigit c = false ∧ tolower c ≠ ch 'x' := by
    intro c hc
    obtain rfl := Option.some.inj hc
    decide
  rw [strtol_digits hne hex hcr]
  omega

theorem toInt32_small {n : Nat} (h : n < 2 ^ 31) : toInt32 n = n := by
  unfold toInt32
  rw [Int.bmod_eq_of_le] <;> omega

/-! ## Runs -/

section Runs

variable {buffer ds : List UInt8} {r : HttpClientParser}

theorem runs_moreDigits {p : Nat} (hex : ∀ c ∈ ds, xdigit c = true) :
    Machine.Runs machine (act buffer) .chunkSize p r ds .chunkSize r [] := by
  induction ds generalizing p with
  | nil => exact Machine.Runs.nil
  | cons c cs ih =>
      obtain ⟨hc, hcs⟩ := List.forall_mem_cons.mp hex
      have hnext : machine.next .chunkSize c = some (.chunkSize, []) := if_pos hc
      exact (Machine.Runs.step hnext rfl p r).append (ih hcs)

theorem runs_digits (hne : ds ≠ []) (hex : ∀ c ∈ ds, xdigit c = true) :
    Machine.Runs machine (act buffer) .start 0 r ds .chunkSize { r with mark := 0 } [] := by
  cases ds with
  | nil => exact absurd rfl hne
  | cons c cs =>
      obtain ⟨hc, hcs⟩ := List.forall_mem_cons.mp hex
      have hnext : machine.next .start c = some (.chunkSize, [.mark]) := if_pos hc
      exact (Machine.Runs.step hnext rfl 0 r).append (runs_moreDigits hcs)

/-- The registers behind the digits and the CR. -/
def sized (buffer : List UInt8) (r : HttpClientParser) : HttpClientParser :=
  let n := toInt32 (strtol buffer 16)
  { r with mark := 0, chunked := true, contentLen := n, chunksDone := n ≤ 0 }

variable (buffer r) in
theorem runs_line (hne : ds ≠ []) (hex : ∀ c ∈ ds, xdigit c = true) :
    ∃ x : Call, x.Idle ∧ Machine.Runs machine (act buffer) .start 0 r (ds ++ [13]) .lastCr
      (sized buffer r) [x] := by
  have hnext : machine.next .chunkSize 13 = some (.lastCr, [.chunkSize]) := rfl
  have hcr : Machine.Runs machine (act buffer) .chunkSize (0 + ds.length)
      { r with mark := 0 } [13] .lastCr (sized buffer r)
      [.element (if toInt32 (strtol buffer 16) ≤ 0 then .lastChunk else .chunkSize) 0
        (len 0 (0 + ds.length))] :=
    Machine.Runs.step hnext rfl _ _
  refine ⟨_, ?_, (runs_digits hne hex).append hcr⟩
  by_cases hn : toInt32 (strtol buffer 16) ≤ 0
  · rw [if_pos hn]
    exact .inr (.inl rfl)
  · rw [if_neg hn]
    exact .inl rfl

end Runs

/-! ## `parse` -/

section Parse

variable (buff : BuffSize) {p : HttpResponseParser} (s : Socket)

/-- `p'` is `p` on another message. -/
def Kept (p p' : HttpResponseParser) : Prop := p'.error = p.error ∧ p'.data = p.data

theorem Kept.refl (p : HttpResponseParser) : Kept p p := ⟨rfl, rfl⟩

theorem Kept.trans {p p₁ p₂ : HttpResponseParser} (h : Kept p p₁) (h' : Kept p₁ p₂) :
    Kept p p₂ :=
  ⟨h'.1.trans h.1, h'.2.trans h.2⟩

theorem Call.Idle.fine {x : Call} (h : x.Idle) (mem : List UInt8) : x.Fine mem := by
  cases x with
  | element cb _ _ => rcases h with rfl | rfl | rfl <;> trivial
  | httpField => exact h.elim

/-- `parse` in terms of the run that it starts anew. -/
theorem parse_eq {data : List UInt8} (hp : p.error = 0) (hne : data ≠ [])
    (hfit : data.length ≤ buff.size)
    (hidle : ∀ x ∈ (runOn httpClientParserInit .start data).calls, x.Idle)
    (hpos : 0 < (runOn httpClientParserInit .start data).pos) {q : State}
    (hend : endState (runOn httpClientParserInit .start data).ending = some q) :
    ∃ p', parse buff true p data s =
        (.ok (some (p', data.drop (runOn httpClientParserInit .start data).pos)), s) ∧
      Kept p p' ∧
      p'.parser = { (runOn httpClientParserInit .start data).regs with
        cs := some q, nread := (runOn httpClientParserInit .start data).pos } := by
  obtain ⟨p', he, hparser, -, hfine, hdata⟩ :=
    @execute_eq p data true httpClientParserInit .start rfl rfl rfl hne
  have herror := hfine fun x hx => (hidle x hx).fine data
  refine ⟨p', ?_, ⟨herror, hdata hidle⟩, by rw [hparser, hend]⟩
  have hlen := List.length_pos_of_ne_nil hne
  have hno : p'.hasError = false := by
    rw [HttpResponseParser.hasError, herror, hp, hparser, hend]
    rfl
  simp only [parse, he, hno]
  rw [if_neg (by simp), if_neg (by omega)]

/-- **A line in one piece.** -/
theorem parse_line {ds : List UInt8} (rest : List UInt8) (hp : p.error = 0) (hne : ds ≠ [])
    (hex : ∀ c ∈ ds, xdigit c = true) (hsize : hexValue ds < 2 ^ 31)
    (hfit : (ds ++ crlf ++ rest).length ≤ buff.size) :
    ∃ p', parse buff true p (ds ++ crlf ++ rest) s = (.ok (some (p', rest)), s) ∧
      Kept p p' ∧ p'.isFinished = 1 ∧ p'.parser.contentLen = hexValue ds ∧
      p'.parser.chunksDone = decide (hexValue ds = 0) := by
  set data := ds ++ crlf ++ rest with hdata
  have hsplit : data = (ds ++ [13]) ++ 10 :: rest := by
    simp only [hdata, crlf, List.append_assoc, List.cons_append, List.nil_append]
  obtain ⟨x, hx, hline⟩ := runs_line data httpClientParserInit.reset hne hex
  have hdone : machine.next .lastCr 10 = some (.finished none, [.done]) := rfl
  have hrun := hline.exec_append (10 :: rest)
  rw [← hsplit, Machine.exec_cons_stop hdone rfl] at hrun
  have hcalls : ∀ y ∈ (runOn httpClientParserInit .start data).calls, y.Idle := by
    intro y hy
    rw [runOn, hrun] at hy
    rcases List.mem_append.mp hy with hy | hy
    · obtain rfl := List.mem_singleton.mp hy
      exact hx
    · obtain rfl := List.mem_singleton.mp hy
      exact .inr (.inr rfl)
  have hpos : (runOn httpClientParserInit .start data).pos = (ds ++ crlf).length := by
    rw [runOn, hrun]
    simp only [Machine.after_pos, crlf, List.length_append, List.length_cons, List.length_nil]
    omega
  have hend : endState (runOn httpClientParserInit .start data).ending =
      some (.finished none) := by
    rw [runOn, hrun]
    rfl
  have hstrtol : toInt32 (strtol data 16) = hexValue ds := by
    rw [hsplit, List.append_assoc]
    show toInt32 (strtol (ds ++ 13 :: (10 :: rest)) 16) = _
    rw [strtol_hex hne hex (by omega), toInt32_small hsize]
  obtain ⟨p', he, hkept, hparser⟩ := parse_eq buff s hp (by simp [hsplit]) hfit hcalls
    (by simp [hpos, crlf]) hend
  have hregs : (runOn httpClientParserInit .start data).regs.contentLen = hexValue ds ∧
      (runOn httpClientParserInit .start data).regs.chunksDone =
        decide ((hexValue ds : Int) ≤ 0) := by
    rw [runOn, hrun, ← hstrtol]
    exact ⟨rfl, rfl⟩
  refine ⟨p', ?_, hkept, ?_, ?_, ?_⟩
  · rw [he, hpos, hdata, List.drop_left]
  · rw [HttpResponseParser.isFinished, hparser]
    rfl
  · rw [hparser]
    exact hregs.1
  · rw [hparser]
    show (runOn httpClientParserInit .start data).regs.chunksDone = _
    rw [hregs.2, decide_eq_decide]
    omega

/-- **The beginning of a line** is read and forgotten. -/
theorem parse_part {ds data : List UInt8} (hp : p.error = 0) (hne : ds ≠ [])
    (hex : ∀ c ∈ ds, xdigit c = true) (hdata : data = ds ∨ data = ds ++ [13])
    (hfit : data.length ≤ buff.size) :
    ∃ p', parse buff true p data s = (.ok (some (p', [])), s) ∧ Kept p p' ∧
      p'.isFinished = 0 := by
  obtain ⟨q, r', out, hrun, hidle, hq⟩ : ∃ q r' out,
      Machine.Runs machine (act data) .start 0 httpClientParserInit.reset data q r' out ∧
        (∀ x ∈ out, x.Idle) ∧ q.final = false := by
    rcases hdata with rfl | rfl
    · exact ⟨_, _, _, runs_digits hne hex, by simp, rfl⟩
    · obtain ⟨x, hx, hline⟩ := runs_line (ds ++ [13]) httpClientParserInit.reset hne hex
      exact ⟨_, _, _, hline, by simpa using hx, rfl⟩
  have hne' : data ≠ [] := by
    rcases hdata with rfl | rfl
    · exact hne
    · simp
  have hrun' : runOn httpClientParserInit .start data = _ := hrun
  obtain ⟨p', he, hkept, hparser⟩ := parse_eq buff s hp hne' hfit (by rwa [hrun'])
    (by rw [hrun']; simpa using List.length_pos_of_ne_nil hne') (by rw [hrun']; rfl)
  refine ⟨p', ?_, hkept, ?_⟩
  · rw [he, hrun']
    simp
  · rw [HttpResponseParser.isFinished, hparser]
    simp [HttpClientParser.finish, HttpClientParser.hasError, HttpClientParser.isFinished, hq]

/-- **What begins like no line** is an error. -/
theorem parse_fails {c : UInt8} (data : List UInt8) (hc : xdigit c = false)
    (hH : c ≠ ch 'H') : parse buff true p (c :: data) s = (.ok none, s.close) := by
  have hnext : machine.next .start c = none := by
    show (if _ then _ else _) = _
    rw [if_neg (by simp [hc]), if_neg hH]
  have hrun : runOn httpClientParserInit .start (c :: data) = _ :=
    Machine.exec_cons_none hnext 0 _ data
  obtain ⟨p', he, hparser, -⟩ :=
    @execute_eq p (c :: data) true httpClientParserInit .start rfl rfl rfl (by simp)
  have herror : p'.hasError = true := by
    rw [HttpResponseParser.hasError, hparser, hrun]
    simp [endState, HttpClientParser.hasError]
  simp only [parse, he, herror, if_true]

end Parse

end Hps.Http.Response
