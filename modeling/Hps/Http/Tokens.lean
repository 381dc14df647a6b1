import Hps.Http.Session

/-!
# HTTP — the tokens of a request

The parser's registers count from the start of the buffer it is called on,
and most of them are forgotten between two calls. `scan` runs the same
machine once over a whole byte string, with registers that count from its
start: the tokens it finds do not depend on how the bytes arrive. A call on
a piece of the string that begins at `k` makes the calls of `scan`, each with
its token cut off at `k` (`execute_cut`).
-/

namespace Hps.Http.Request

open Hps.Lib

/-- The bytes of `b` at the positions from `i` up to `j`. -/
def slice (b : List UInt8) (i j : Nat) : List UInt8 := (b.drop i).take (j - i)

/-- What a callback is called with, as positions in the whole string. A field
has the `field_start` of the call, the two ends of the name as they were when
`field_len` was set, and the ends of the value. -/
inductive Token where
  | element (cb : Element) (start stop : Nat)
  | query (start : Option Nat) (stop : Nat)
  | headerDone
  | field (start nameStart nameStop valueStart stop : Nat)
  deriving DecidableEq

/-- The registers of `scan`. -/
structure Marks where
  mark : Nat := 0
  field : Nat := 0
  nameStart : Nat := 0
  nameStop : Nat := 0
  query : Option Nat := none
  socket : Bool := false

def scanAct : Action → Nat → Marks → Marks × List Token
  | .mark, p, m => ({ m with mark := p }, [])
  | .startField, p, m => ({ m with field := p }, [])
  | .writeField, p, m => ({ m with nameStart := m.field, nameStop := p }, [])
  | .startValue, p, m => ({ m with mark := p }, [])
  | .writeValue, p, m => (m, [.field m.field m.nameStart m.nameStop m.mark p])
  | .requestMethod, p, m => (m, [.element .requestMethod m.mark p])
  | .requestUri, p, m => (m, [.element .requestUri m.mark p])
  | .fragment, p, m => (m, [.element .fragment m.mark p])
  | .startQuery, p, m => ({ m with query := some p }, [])
  | .queryString, p, m => (m, [.query m.query p])
  | .httpVersion, p, m => (m, [.element .httpVersion m.mark p])
  | .requestPath, p, m => (m, [.element .requestPath m.mark p])
  | .xml, _, m => ({ m with socket := true }, [])
  | .json, _, m => ({ m with socket := true }, [])
  | .done, _, m => (m, if m.socket then [] else [.headerDone])

/-- The run of the machine over the whole string. -/
def scan (relaxed : Bool) (b : List UInt8) : Outcome State Marks Token :=
  (machine relaxed).exec scanAct .start 0 {} b

/-! ## Calls on a piece -/

/-- The call that a token makes on a piece that begins at `k`. Where the
query begins is not reset, so that of a query begun in an earlier piece is an
offset into a buffer that is gone. -/
inductive Cut (k : Nat) : Token → Call → Prop where
  | element (cb : Element) (s e : Nat) :
      Cut k (.element cb s e)
        (.element cb (s - k) (((e - k : Nat) : Int) - (s - k : Nat)))
  | query {start : Option Nat} (e : Nat) {ptr : Nat}
      (h : ∀ i, start = some i → k ≤ i → ptr = i - k) :
      Cut k (.query start e)
        (.element .queryString ptr (((e - k : Nat) : Int) - ptr))
  | headerDone (ptr : Nat) (length : Int) :
      Cut k .headerDone (.element .headerDone ptr length)
  | field (s ns ne vs e : Nat) :
      Cut k (.field s ns ne vs e)
        (.httpField (s - k) (((ne - k : Nat) : Int) - (ns - k : Nat)) (vs - k)
          (((e - k : Nat) : Int) - (vs - k : Nat)))

/-- The registers of a call on a piece that begins at `k`, at position `p`;
the query begins before `q`. -/
structure Registers (relaxed : Bool) (k p q : Nat) (m : Marks) (s : HttpParser) :
    Prop where
  mark : s.mark = m.mark - k
  field : s.fieldStart = m.field - k
  name : s.fieldLen = ((m.nameStop - k : Nat) : Int) - (m.nameStart - k : Nat)
  query : ∀ i, m.query = some i → k ≤ i → s.queryStart = i - k
  socket : m.socket = (s.xmlSent || s.jsonSent)
  relaxed : s.uriRelaxed = relaxed
  mark_le : m.mark ≤ p
  field_le : m.field ≤ p
  nameStart_le : m.nameStart ≤ p
  nameStop_le : m.nameStop ≤ p
  query_lt : ∀ i, m.query = some i → i < q

theorem Registers.mono {relaxed : Bool} {k p q p' q' : Nat} {m : Marks}
    {s : HttpParser} (h : Registers relaxed k p q m s) (hp : p ≤ p')
    (hq : q ≤ q') : Registers relaxed k p' q' m s where
  mark := h.mark
  field := h.field
  name := h.name
  query := h.query
  socket := h.socket
  relaxed := h.relaxed
  mark_le := h.mark_le.trans hp
  field_le := h.field_le.trans hp
  nameStart_le := h.nameStart_le.trans hp
  nameStop_le := h.nameStop_le.trans hp
  query_lt i hi := (h.query_lt i hi).trans_le hq

theorem registers_act {relaxed : Bool} {k p pe : Nat} {m : Marks}
    {s : HttpParser} (a : Action)
    (h : Registers relaxed k (k + p) (k + p + 1) m s) :
    Registers relaxed k (k + p) (k + p + 1) (scanAct a (k + p) m).1
        (act pe a p s).1 ∧
      List.Forall₂ (Cut k) (scanAct a (k + p) m).2 (act pe a p s).2 := by
  have hp : k + p - k = p := Nat.add_sub_cancel_left k p
  have hcut : ∀ cb, Cut k (.element cb m.mark (k + p))
      (.element cb s.mark (len s.mark p)) := by
    intro cb
    have := Cut.element (k := k) cb m.mark (k + p)
    rwa [hp, ← h.mark] at this
  cases a with
  | mark =>
      exact ⟨{ h with mark := hp.symm, mark_le := Nat.le_refl _ }, .nil⟩
  | startField =>
      exact ⟨{ h with field := hp.symm, field_le := Nat.le_refl _ }, .nil⟩
  | writeField =>
      refine ⟨{ h with
        name := ?_, nameStart_le := h.field_le, nameStop_le := Nat.le_refl _ },
        .nil⟩
      simp only [act, scanAct, len, hp, h.field]
  | startValue =>
      exact ⟨{ h with mark := hp.symm, mark_le := Nat.le_refl _ }, .nil⟩
  | writeValue =>
      refine ⟨h, .cons ?_ .nil⟩
      have := Cut.field (k := k) m.field m.nameStart m.nameStop m.mark (k + p)
      rwa [hp, ← h.mark, ← h.field, ← h.name] at this
  | requestMethod => exact ⟨h, .cons (hcut _) .nil⟩
  | requestUri => exact ⟨h, .cons (hcut _) .nil⟩
  | fragment => exact ⟨h, .cons (hcut _) .nil⟩
  | startQuery =>
      refine ⟨{ h with query := ?_, query_lt := ?_ }, .nil⟩
      · rintro i ⟨⟩ -
        exact hp.symm
      · rintro i ⟨⟩
        exact Nat.lt_succ_self _
  | queryString =>
      refine ⟨h, .cons ?_ .nil⟩
      have := Cut.query (k := k) (k + p) h.query
      rwa [hp] at this
  | httpVersion => exact ⟨h, .cons (hcut _) .nil⟩
  | requestPath => exact ⟨h, .cons (hcut _) .nil⟩
  | xml => exact ⟨{ h with socket := by simp [scanAct, act] }, .nil⟩
  | json => exact ⟨{ h with socket := by simp [scanAct, act] }, .nil⟩
  | done =>
      by_cases hs : s.xmlSent = true ∨ s.jsonSent = true
      · have hm : m.socket = true := by simpa [h.socket] using hs
        simp only [scanAct, act, hs, hm, if_true]
        exact ⟨{ h with }, .nil⟩
      · have hm : m.socket = false := by simpa [h.socket] using hs
        simp only [scanAct, act, hs, hm, if_false]
        exact ⟨{ h with }, .cons (.headerDone _ _) .nil⟩

theorem scan_simulation (relaxed : Bool) (k pe : Nat) :
    Machine.Simulation (machine relaxed) scanAct (act pe) k
      (fun p => Registers relaxed k p p)
      (fun p => Registers relaxed k p (p + 1)) (Cut k) where
  enter h := h.mono (Nat.le_refl _) (Nat.le_succ _)
  leave h := h.mono (Nat.le_succ _) (Nat.le_refl _)
  act a _ _ _ h := registers_act a h

/-- The registers a call starts with fit whatever was scanned before. -/
theorem Registers.reset {relaxed : Bool} {k k' : Nat} {m : Marks}
    {s : HttpParser} (h : Registers relaxed k k' k' m s) :
    Registers relaxed k' k' k' m s.reset where
  mark := (Nat.sub_eq_zero_of_le h.mark_le).symm
  field := (Nat.sub_eq_zero_of_le h.field_le).symm
  name := by
    rw [Nat.sub_eq_zero_of_le h.nameStart_le, Nat.sub_eq_zero_of_le h.nameStop_le]
    rfl
  query i hi hk := by
    have := h.query_lt i hi
    omega
  socket := h.socket
  relaxed := h.relaxed
  mark_le := h.mark_le
  field_le := h.field_le
  nameStart_le := h.nameStart_le
  nameStop_le := h.nameStop_le
  query_lt := h.query_lt

theorem registers_init (u : Uninit) :
    Registers u.uriRelaxed 0 0 0 {} (httpParserInit u) where
  mark := rfl
  field := rfl
  name := rfl
  query := by simp
  socket := rfl
  relaxed := rfl
  mark_le := Nat.le_refl 0
  field_le := Nat.le_refl 0
  nameStart_le := Nat.le_refl 0
  nameStop_le := Nat.le_refl 0
  query_lt := by simp

/-- **A call on a piece makes the calls of the scan, cut off where the piece
begins.** `k'` is where the piece before it began. The buffer may hold `x`
bytes more if the machine does not get to them. -/
theorem execute_cut {relaxed : Bool} {k k' : Nat} {m : Marks} {s : HttpParser}
    {q : State} {f : List UInt8} (mem : List UInt8) (x : Nat)
    (hs : Registers relaxed k' k k m s) (hq : s.cs = some q) (hf : f ≠ [])
    (hx : x = 0 ∨ ∀ q',
      ((machine relaxed).exec scanAct q k m f).ending ≠ .running q') :
    ∃ n s' calls,
      httpParserExecute s (f ++ mem) (f.length + x) 0 = (n, s', calls) ∧
      s'.cs = endState ((machine relaxed).exec scanAct q k m f).ending ∧
      ((machine relaxed).exec scanAct q k m f).pos = k + n ∧
      Registers relaxed k ((machine relaxed).exec scanAct q k m f).pos
        ((machine relaxed).exec scanAct q k m f).pos
        ((machine relaxed).exec scanAct q k m f).regs s' ∧
      List.Forall₂ (Cut k) ((machine relaxed).exec scanAct q k m f).calls
        calls := by
  have hf' : f.length + x ≠ 0 := by
    have := List.length_pos_of_ne_nil hf
    omega
  obtain ⟨he, hp, hr, hc⟩ := Machine.exec_sim (q := q) (p := 0)
    (scan_simulation relaxed k (f.length + x)) hs.reset f
  simp only [Nat.add_zero] at he hp hr hc
  set o := (machine relaxed).exec (act (f.length + x)) q 0 s.reset f with ho
  have hmore : (machine relaxed).exec (act (f.length + x)) q 0 s.reset
      (f ++ mem.take x) = o := by
    rcases hx with rfl | hx
    · rw [List.take_zero, List.append_nil]
    · exact Machine.exec_append_of_ended _ (he ▸ hx)
  have hrun : httpParserExecute s (f ++ mem) (f.length + x) 0 =
      (o.pos, { o.regs with cs := endState o.ending, nread := o.pos }, o.calls) := by
    rw [← hmore]
    simp only [httpParserExecute, hf', if_false, hq, hs.relaxed, List.drop_zero,
      List.take_length_add_append, Nat.sub_zero]
  exact ⟨_, _, _, hrun, congrArg endState he.symm, hp, { hr with }, hc⟩

end Hps.Http.Request
