import Hps.Http.Connection

/-!
# HTTP — what a call of the response parser does

The registers point at bytes that were read (`HttpClientParser.Within`), so
that no length is negative and no callback throws, no `check` fails, and
`execute` returns the bytes its machine read (`execute_eq`). What a callback
may spoil is the version (`Call.Fine`).
-/

namespace Hps.Http.Response

open Hps.Lib

/-! ## Registers -/

/-- At `p`, every register is behind a byte that was read. -/
structure HttpClientParser.Within (s : HttpClientParser) (p : Nat) : Prop where
  mark_le : s.mark ≤ p - 1
  fieldStart_le : s.fieldStart ≤ p - 1
  fieldLen_nonneg : 0 ≤ s.fieldLen
  fieldLen_le : s.fieldLen ≤ p
  bodyStart_le : s.bodyStart ≤ p

/-- A call whose lengths are no negative numbers. -/
def Call.Sane : Call → Prop
  | .element cb _ length => cb = .headerDone ∨ 0 ≤ length
  | .httpField _ flen _ vlen => 0 ≤ flen ∧ 0 ≤ vlen

section Registers

variable {buffer : List UInt8} {s : HttpClientParser} {p : Nat}

theorem HttpClientParser.Within.succ (h : s.Within p) : s.Within (p + 1) where
  mark_le := h.mark_le.trans (by omega)
  fieldStart_le := h.fieldStart_le.trans (by omega)
  fieldLen_nonneg := h.fieldLen_nonneg
  fieldLen_le := h.fieldLen_le.trans (by omega)
  bodyStart_le := h.bodyStart_le.trans (by omega)

/-- An action at `p` sets registers to `p`, or to a distance up to there. -/
theorem HttpClientParser.Within.act (a : Action) (h : s.Within (p + 1)) :
    (Response.act buffer a p s).1.Within (p + 1) := by
  have hfield := h.fieldStart_le
  cases a with
  | mark | startValue => exact { h with mark_le := Nat.le_refl p }
  | startField => exact { h with fieldStart_le := Nat.le_refl p }
  | writeField =>
      have h0 : 0 ≤ len s.fieldStart p := by unfold len; omega
      have hp : len s.fieldStart p ≤ ((p + 1 : Nat) : Int) := by unfold len; omega
      exact { h with fieldLen_nonneg := h0, fieldLen_le := hp }
  | done => exact { h with bodyStart_le := Nat.le_refl (p + 1) }
  | _ => exact { h with }

theorem HttpClientParser.Within.call (a : Action) (h : s.Within (p + 1)) :
    ∀ x ∈ (Response.act buffer a p s).2, x.Sane := by
  have hlen : 0 ≤ len s.mark p := by
    have := h.mark_le
    unfold len
    omega
  cases a with
  | writeValue => simp [Response.act, Call.Sane, hlen, h.fieldLen_nonneg]
  | reasonPhrase | statusCode | httpVersion | chunkSize =>
      simp [Response.act, Call.Sane, hlen]
  | done => simp [Response.act, Call.Sane]
  | _ => simp [Response.act]

theorem HttpClientParser.Within.acts (as : List Action) (h : s.Within (p + 1)) :
    (Lib.acts (Response.act buffer) p as s).1.Within (p + 1) ∧
      ∀ x ∈ (Lib.acts (Response.act buffer) p as s).2, x.Sane := by
  induction as generalizing s with
  | nil => exact ⟨h, by simp [Lib.acts]⟩
  | cons a as ih =>
      obtain ⟨hregs, hcalls⟩ := ih (h.act a)
      exact ⟨hregs, fun x hx => (List.mem_append.mp hx).elim (h.call a x) (hcalls x)⟩

end Registers

/-- The registers and the calls of a run. -/
theorem exec_within {buffer : List UInt8} {s : HttpClientParser} (h : s.Within 0)
    (q : State) :
    (machine.exec (act buffer) q 0 s buffer).regs.Within
        (machine.exec (act buffer) q 0 s buffer).pos ∧
      ∀ x ∈ (machine.exec (act buffer) q 0 s buffer).calls, x.Sane := by
  constructor
  · have hstep : ∀ {q : State} {c : UInt8} {q' : State} {as : List Action} {p : Nat}
        {r : HttpClientParser}, r.Within p → machine.next q c = some (q', as) →
        (Lib.acts (act buffer) p as r).1.Within (p + 1) := by
      intro _ _ _ as _ _ h _
      exact (h.succ.acts as).1
    exact @Machine.exec_kept _ _ _ _ _ machine (act buffer) (fun p r => r.Within p)
      hstep 0 s h q buffer
  · refine Machine.exec_invariant (fun _ p r => r.Within p) ?_ h rfl
    intro _ _ _ as _ _ h _ _
    exact h.succ.acts as

/-! ## Callbacks -/

/-- A call that sets no error: any but that of another version. -/
def Call.Fine (mem : List UInt8) : Call → Prop
  | .element .httpVersion ptr length =>
      strncmpEq (mem.drop ptr) (text "HTTP/1.1") (sizeT length) = true ∨
        strncmpEq (mem.drop ptr) (text "HTTP/1.0") (sizeT length) = true
  | _ => True

/-- A call that leaves the response as it is. -/
def Call.Idle : Call → Prop
  | .element cb _ _ => cb = .chunkSize ∨ cb = .lastChunk ∨ cb = .headerDone
  | .httpField _ _ _ _ => False

section Calls

variable (mem : List UInt8) (p : HttpResponseParser)

theorem stdString_sane (ptr : Nat) {n : Int} (h : 0 ≤ n) :
    ∃ t, stdString mem ptr n = .ok t := by
  exact ⟨_, if_neg (by omega)⟩

/-- A callback writes to the head of the response, or sets the error. -/
theorem call_sane {x : Call} (h : x.Sane) :
    ∃ p', HttpResponseParser.call mem p x = .ok p' ∧ p'.parser = p.parser ∧
      p'.data.body = p.data.body ∧ (x.Fine mem → p'.error = p.error) ∧
      (x.Idle → p' = p) := by
  cases x with
  | element cb ptr length =>
      cases cb with
      | reasonPhrase =>
          obtain ⟨t, ht⟩ := stdString_sane mem ptr (h.resolve_left nofun)
          refine ⟨{ p with data := p.data.setReason t }, ?_, rfl, rfl, fun _ => rfl, ?_⟩
          · simp [HttpResponseParser.call, HttpResponseParser.onResponseReason, ht]
          · simp [Call.Idle]
      | httpVersion =>
          refine ⟨_, rfl, ?_, ?_, ?_, by simp [Call.Idle]⟩
          · unfold HttpResponseParser.onResponseVersion
            split
            · rfl
            · split <;> rfl
          · unfold HttpResponseParser.onResponseVersion
            split
            · rfl
            · split <;> rfl
          · intro hf
            unfold HttpResponseParser.onResponseVersion
            rcases hf with hf | hf
            · rw [if_pos hf]
            · split
              · rfl
              · rfl
      | statusCode => exact ⟨_, rfl, rfl, rfl, fun _ => rfl, by simp [Call.Idle]⟩
      | _ => exact ⟨p, rfl, rfl, rfl, fun _ => rfl, fun _ => rfl⟩
  | httpField field flen value vlen =>
      obtain ⟨n, hn⟩ := stdString_sane mem field h.1
      obtain ⟨v, hv⟩ := stdString_sane mem value h.2
      by_cases h0 : flen = 0
      · refine ⟨p, ?_, rfl, rfl, fun _ => rfl, fun _ => rfl⟩
        simp only [HttpResponseParser.call, HttpResponseParser.onResponseHttpField, h0,
          if_true]
        rfl
      · refine ⟨{ p with data := p.data.setHeader n v }, ?_, rfl, rfl, fun _ => rfl, nofun⟩
        simp only [HttpResponseParser.call, HttpResponseParser.onResponseHttpField, h0,
          if_false, hn, hv]
        rfl

theorem calls_sane {cs : List Call} (h : ∀ x ∈ cs, x.Sane) :
    ∃ p', cs.foldlM (HttpResponseParser.call mem) p = .ok p' ∧ p'.parser = p.parser ∧
      p'.data.body = p.data.body ∧ ((∀ x ∈ cs, x.Fine mem) → p'.error = p.error) ∧
      ((∀ x ∈ cs, x.Idle) → p' = p) := by
  induction cs generalizing p with
  | nil => exact ⟨p, rfl, rfl, rfl, fun _ => rfl, fun _ => rfl⟩
  | cons x cs ih =>
      obtain ⟨hx, hcs⟩ := List.forall_mem_cons.mp h
      obtain ⟨p₁, e1, s1, b1, f1, i1⟩ := call_sane mem p hx
      obtain ⟨p₂, e2, s2, b2, f2, i2⟩ := ih p₁ hcs
      refine ⟨p₂, ?_, s2.trans s1, b2.trans b1, ?_, ?_⟩
      · rw [List.foldlM_cons, e1]
        exact e2
      · intro hf
        obtain ⟨hf1, hf2⟩ := List.forall_mem_cons.mp hf
        exact (f2 hf2).trans (f1 hf1)
      · intro hi
        obtain ⟨hi1, hi2⟩ := List.forall_mem_cons.mp hi
        exact (i2 hi2).trans (i1 hi1)

end Calls

/-! ## `execute` -/

/-- The run of the machine that a call makes. -/
def runOn (s : HttpClientParser) (q : State) (data : List UInt8) :
    Outcome State HttpClientParser Call :=
  machine.exec (act data) q 0 s.reset data

/-- **A call of `execute`** reads what its machine reads, and never throws. -/
theorem execute_eq {p : HttpResponseParser} {data : List UInt8} {chunck : Bool}
    {s : HttpClientParser} {q : State}
    (hs : (if chunck then httpClientParserInit else p.parser) = s)
    (hq : s.cs = some q) (hb : s.bodyStart = 0) (hne : data ≠ []) :
    ∃ p', p.execute data chunck =
        .ok ((runOn s q data).pos, p', data.drop (runOn s q data).pos) ∧
      p'.parser = { (runOn s q data).regs with
        cs := endState (runOn s q data).ending, nread := (runOn s q data).pos } ∧
      p'.data.body = p.data.body ∧
      ((∀ x ∈ (runOn s q data).calls, x.Fine data) → p'.error = p.error) ∧
      ((∀ x ∈ (runOn s q data).calls, x.Idle) → p'.data = p.data) := by
  have h0 : s.reset.Within 0 :=
    ⟨Nat.le_refl 0, Nat.le_refl 0, le_refl 0, le_refl 0, hb.le⟩
  obtain ⟨hregs, hcalls⟩ : (runOn s q data).regs.Within (runOn s q data).pos ∧
      ∀ x ∈ (runOn s q data).calls, x.Sane := exec_within h0 q
  have hpos : (runOn s q data).pos ≤ data.length := by
    have := Machine.exec_pos_le machine (act data) q 0 s.reset data
    rwa [Nat.zero_add] at this
  have hlen := List.length_pos_of_ne_nil hne
  set o := runOn s q data with ho
  set s' : HttpClientParser :=
    { o.regs with cs := endState o.ending, nread := o.pos } with hs'
  have hrun : httpClientParserRun s data = (s', o.calls) := by
    rw [httpClientParserRun, hq]
    rfl
  obtain ⟨p', e, he, hbody, hf, hi⟩ :=
    calls_sane data { p with parser := s' } hcalls
  refine ⟨p', ?_, he, hbody, hf, fun h => by rw [hi h]⟩
  have hasserted : s'.asserted data.length = true := by
    have := hregs.bodyStart_le
    simp only [HttpClientParser.asserted, hs', decide_eq_true_eq]
    exact ⟨hpos, this.trans hpos⟩
  have hreturned : s'.returned data.length = o.pos := by
    have h1 := hregs.mark_le
    have h2 := hregs.fieldStart_le
    have h3 := hregs.fieldLen_le
    have hok : s'.mark < data.length ∧ s'.fieldLen ≤ data.length ∧
        s'.fieldStart < data.length := by
      simp only [hs']
      exact ⟨by omega, by omega, by omega⟩
    exact if_pos hok
  simp only [HttpResponseParser.execute, hs, hrun]
  rw [e]
  simp only [hasserted, hreturned]
  rw [if_neg (by simp), if_neg (by omega)]

end Hps.Http.Response
