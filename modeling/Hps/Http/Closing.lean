import Hps.Http.Receiving
import Hps.Http.ResponseCalls

/-!
# HTTP — responses that do not come

`recvResponse` closes the socket exactly when it gives up
(`recvResponse_connected`). Its loops never come to the end of their turns:
every turn but the first of a chunk head takes a byte or more
(`readMore_ensures`, `parse_takes`).
-/

namespace Hps.Http

open Hps.Lib

@[simp] theorem Socket.recv_connected (s : Socket) (n : Nat) :
    (s.recv n).2.2.connected = s.connected := by
  rw [recv]
  split
  · rfl
  · split
    · rfl
    · split
      · rfl
      · split <;> rfl

theorem Socket.readLoop_connected {fuel left : Nat} {s : Socket} {got : List UInt8} :
    (readLoop fuel s left got).2.2.connected = s.connected := by
  induction fuel generalizing s left got with
  | zero => rfl
  | succ fuel ih =>
      have hrecv := s.recv_connected left
      rw [readLoop]
      split
      · rfl
      · dsimp only
        split
        · exact hrecv
        · exact ih.trans hrecv

theorem Socket.readFixSize_connected (s : Socket) (n : Nat) :
    (s.readFixSize n).2.2.connected = s.connected := by
  have hloop := @readLoop_connected n n s []
  rw [readFixSize]
  split
  · rename_i h
    rw [h] at hloop
    exact hloop
  · rename_i h
    rw [h] at hloop
    exact hloop

namespace Response

/-! ## Giving up -/

/-- The part of `recvResponse` closes the socket if it gives up, and only
then. It goes on with `P`. -/
def Received.Ensures {α : Type} (x : Received α) (P : α → Socket → Prop) : Prop :=
  match x with
  | (.error _, s) => s.connected = true
  | (.ok none, s) => s.connected = false
  | (.ok (some a), s) => s.connected = true ∧ P a s

section Ensures

variable {α β : Type} {P : α → Socket → Prop}

theorem ensures_some {a : α} {s : Socket} (hs : s.connected = true) (h : P a s) :
    Received.Ensures (.ok (some a), s) P :=
  ⟨hs, h⟩

theorem ensures_error (e : Fault) {s : Socket} (hs : s.connected = true) :
    Received.Ensures (.error e, s) P :=
  hs

theorem ensures_close (s : Socket) : Received.Ensures (.ok none, s.close) P := rfl

theorem Received.Ensures.bind {x : Received α} {f : α → Socket → Received β}
    {Q : β → Socket → Prop} (hx : x.Ensures P)
    (hf : ∀ a s, s.connected = true → P a s → (f a s).Ensures Q) : (x.bind f).Ensures Q := by
  obtain ⟨r, s⟩ := x
  cases r with
  | error e => exact hx
  | ok r =>
      cases r with
      | none => exact hx
      | some a => exact hf a s hx.1 hx.2

theorem Received.Ensures.mono {x : Received α} {Q : α → Socket → Prop} (hx : x.Ensures P)
    (h : ∀ a s, P a s → Q a s) : x.Ensures Q := by
  obtain ⟨r, s⟩ := x
  cases r with
  | error e => exact hx
  | ok r =>
      cases r with
      | none => exact hx
      | some a => exact ⟨hx.1, h a s hx.2⟩

end Ensures

/-! ## Reading and parsing -/

variable (buff : BuffSize)

section Parts

variable {s : Socket} (hs : s.connected = true)
include hs

theorem readMore_ensures (data : List UInt8) :
    (readMore buff data s).Ensures fun data' s' =>
      s'.bytes.length < s.bytes.length ∧
        data'.length + s'.bytes.length = data.length + s.bytes.length := by
  rw [readMore]
  rcases s.recv_cases (buff.size - data.length) with
    ⟨rt, got, t, hrecv, hle⟩ | ⟨-, k, hk, -, hle, hrecv⟩
  · rw [hrecv]
    dsimp only
    rw [if_pos hle]
    exact ensures_close t
  · rw [hrecv]
    dsimp only
    rw [if_neg (by omega)]
    apply ensures_some (s := s.skip k) hs
    rw [Socket.bytes_skip, List.length_drop, List.length_append, List.length_take_of_le hle]
    omega

/-- What `parse` goes on with is what `execute` left. -/
theorem parse_ensures (chunck : Bool) (parser : HttpResponseParser) (data : List UInt8) :
    (parse buff chunck parser data s).Ensures fun r s' =>
      s' = s ∧ r.1.hasError = false ∧ ∃ n, parser.execute data chunck = .ok (n, r) := by
  rw [parse]
  split
  · exact ensures_error _ hs
  · rename_i n p rest hexec
    split
    · exact ensures_close s
    · rename_i herror
      split
      · exact ensures_close s
      · exact ensures_some hs ⟨rfl, Bool.eq_false_iff.mpr herror, n, hexec⟩

/-- **A chunk head takes a byte or more**: its machine does not start where it
ends. -/
theorem parse_takes {parser : HttpResponseParser} {data : List UInt8} (hne : data ≠ []) :
    (parse buff true parser data s).Ensures fun r s' =>
      s' = s ∧ r.2.length ≤ data.length ∧
        (r.1.isFinished ≠ 0 → r.2.length < data.length) := by
  apply (parse_ensures buff hs true parser data).mono
  rintro ⟨p, rest⟩ s' ⟨hsocket, herror, n, hexec⟩
  obtain ⟨p', heq, hparser, -⟩ := execute_eq (p := parser) (s := httpClientParserInit)
    (q := .start) (if_pos rfl) rfl rfl hne
  obtain ⟨rfl, rfl, rfl⟩ : (runOn httpClientParserInit .start data).pos = n ∧ p' = p ∧
      data.drop (runOn httpClientParserInit .start data).pos = rest := by
    have hok := Except.ok.inj (heq.symm.trans hexec)
    exact ⟨(Prod.mk.inj hok).1, Prod.mk.inj (Prod.mk.inj hok).2⟩
  dsimp only
  rw [List.length_drop]
  refine ⟨hsocket, Nat.sub_le _ _, ?_⟩
  intro hfinished
  have hpos : 0 < (runOn httpClientParserInit .start data).pos := by
    cases data with
    | nil => exact absurd rfl hne
    | cons c cs =>
        rcases Machine.exec_cons_cases machine (act (c :: cs)) .start 0
          httpClientParserInit.reset c cs with
          ⟨-, hrun⟩ | ⟨q, as, -, -, hrun⟩ | ⟨q, as, -, -, hrun⟩
        · -- no transition is an error
          have hnone : p'.parser.cs = none := by
            rw [hparser, runOn, hrun]
            rfl
          rw [HttpResponseParser.hasError, HttpClientParser.hasError, hnone] at herror
          simp at herror
        · rw [runOn, hrun]
          exact Nat.succ_pos 0
        · rw [runOn, hrun]
          exact Machine.exec_le_pos machine _ q 1 _ cs
  have := List.length_pos_of_ne_nil hne
  omega

end Parts

/-! ## The loops -/

theorem recvHead_ensures {fuel : Nat} {parser : HttpResponseParser} {data : List UInt8}
    {s : Socket} (hs : s.connected = true) (hfuel : s.bytes.length < fuel) :
    (recvHead buff fuel parser data s).Ensures fun _ _ => True := by
  induction fuel generalizing parser data s with
  | zero => exact absurd hfuel (Nat.not_lt_zero _)
  | succ fuel ih =>
      rw [recvHead]
      apply (readMore_ensures buff hs data).bind
      rintro data₁ s₁ hs₁ ⟨hlt, -⟩
      apply (parse_ensures buff hs₁ false parser data₁).bind
      rintro r _ - ⟨rfl, -⟩
      dsimp only
      split
      · exact ensures_some hs₁ trivial
      · exact ih hs₁ (by omega)

/-- The loop over a chunk head takes a byte or more. -/
theorem recvChunkHead_ensures {fuel : Nat} {begins : Bool} {parser : HttpResponseParser}
    {data : List UInt8} {s : Socket} (hs : s.connected = true)
    (hfuel : s.bytes.length + (if begins then 1 else 0) < fuel) :
    (recvChunkHead buff fuel begins parser data s).Ensures fun r s' =>
      r.2.length + s'.bytes.length < data.length + s.bytes.length := by
  induction fuel generalizing begins parser data s with
  | zero => exact absurd hfuel (Nat.not_lt_zero _)
  | succ fuel ih =>
      rw [recvChunkHead]
      -- a turn that does not read is the first one
      have hread : (if ¬begins ∨ data.length = 0 then readMore buff data s
          else (.ok (some data), s)).Ensures fun data' s' => data' ≠ [] ∧
            data'.length + s'.bytes.length = data.length + s.bytes.length ∧
            s'.bytes.length < fuel := by
        split
        · apply (readMore_ensures buff hs data).mono
          rintro data' s' ⟨hlt, hsum⟩
          have hne : 0 < data'.length := by omega
          refine ⟨List.ne_nil_of_length_pos hne, hsum, ?_⟩
          split at hfuel <;> omega
        · rename_i hkeep
          obtain ⟨hbegins, hdata⟩ := not_or.mp hkeep
          rw [if_pos (not_not.mp hbegins)] at hfuel
          exact ensures_some hs ⟨fun h => hdata (by rw [h]; rfl), rfl, by omega⟩
      apply hread.bind
      rintro data₁ s₁ hs₁ ⟨hne, hsum, hlt⟩
      apply (parse_takes buff hs₁ hne).bind
      rintro ⟨p, rest⟩ _ - ⟨rfl, hle, htakes⟩
      dsimp only at hle htakes ⊢
      split
      · rename_i hfinished
        have := htakes hfinished
        apply ensures_some hs₁
        dsimp only
        omega
      · apply (ih hs₁ (by simpa using hlt)).mono
        intro r s' hr
        omega

theorem readLeft_ensures {fuel left : Nat} {body : List UInt8} {s : Socket}
    (hs : s.connected = true) :
    (readLeft buff fuel left body s).Ensures fun _ s' => s'.bytes.length ≤ s.bytes.length := by
  induction fuel generalizing left body s with
  | zero => exact ensures_some hs (Nat.le_refl _)
  | succ fuel ih =>
      rw [readLeft]
      split
      · exact ensures_some hs (Nat.le_refl _)
      · rcases s.recv_cases (if left > buff.size then buff.size else left) with
          ⟨rt, got, t, hrecv, hle⟩ | ⟨-, k, hk, -, hle, hrecv⟩
        · rw [hrecv]
          dsimp only
          rw [if_pos hle]
          exact ensures_close t
        · rw [hrecv]
          dsimp only
          rw [if_neg (by omega)]
          apply (ih (s := s.skip k) hs).mono
          intro _ s' hs'
          rw [Socket.bytes_skip, List.length_drop] at hs'
          omega

theorem recvChunkData_ensures (contentLen : Int) (body data : List UInt8) {s : Socket}
    (hs : s.connected = true) :
    (recvChunkData buff contentLen body data s).Ensures fun r s' =>
      r.2.length + s'.bytes.length ≤ data.length + s.bytes.length := by
  rw [recvChunkData]
  split
  · exact ensures_error _ hs
  · split
    · split
      · exact ensures_error _ hs
      · apply ensures_some hs
        dsimp only
        rw [List.length_drop]
        omega
    · apply (readLeft_ensures buff hs).bind
      intro body' s' hs' hle
      split
      · exact ensures_error _ hs'
      · apply ensures_some hs'
        dsimp only
        rw [List.length_nil]
        omega

theorem recvChunks_ensures {fuel : Nat} {parser : HttpResponseParser}
    {data body : List UInt8} {s : Socket} (hs : s.connected = true)
    (hfuel : data.length + s.bytes.length < fuel) :
    (recvChunks buff fuel parser data body s).Ensures fun _ _ => True := by
  induction fuel generalizing parser data body s with
  | zero => exact absurd hfuel (Nat.not_lt_zero _)
  | succ fuel ih =>
      rw [recvChunks]
      have hhead := @recvChunkHead_ensures buff (s.bytes.length + 2) true parser data s hs
        (by simp)
      apply hhead.bind
      rintro ⟨p, data₁⟩ s₁ hs₁ hlt
      dsimp only at hlt ⊢
      apply (recvChunkData_ensures buff p.parser.contentLen body data₁ hs₁).bind
      rintro ⟨body₂, data₂⟩ s₂ hs₂ hle
      dsimp only at hle ⊢
      split
      · exact ensures_some hs₂ trivial
      · exact ih hs₂ (by omega)

theorem recvLength_ensures (parser : HttpResponseParser) (data : List UInt8) {s : Socket}
    (hs : s.connected = true) : (recvLength parser data s).Ensures fun _ _ => True := by
  rw [recvLength]
  dsimp only
  split
  · split
    · split
      · exact ensures_close _
      · exact ensures_some ((s.readFixSize_connected _).trans hs) trivial
    · exact ensures_some hs trivial
  · exact ensures_some hs trivial

theorem recvResponse_ensures {s : Socket} (hs : s.connected = true) :
    (recvResponse buff s).Ensures fun _ _ => True := by
  rw [recvResponse]
  apply (recvHead_ensures buff hs (Nat.lt_succ_self _)).bind
  rintro ⟨parser, data⟩ s₁ hs₁ -
  dsimp only
  apply Received.Ensures.bind (P := fun _ _ => True)
  · split
    · exact recvChunks_ensures buff hs₁ (Nat.lt_succ_self _)
    · apply (recvLength_ensures parser data hs₁).bind
      rintro body s₂ hs₂ -
      exact ensures_some hs₂ trivial
  · rintro ⟨p, body⟩ s₂ hs₂ -
    exact ensures_some hs₂ trivial

/-- **A response that does not come** closes the connection, and nothing else
does. -/
theorem recvResponse_connected {s : Socket} (hs : s.connected = true) :
    (recvResponse buff s).2.connected = false ↔ (recvResponse buff s).1 = .ok none := by
  have hall := recvResponse_ensures buff hs
  revert hall
  obtain ⟨r, s'⟩ := recvResponse buff s
  intro hall
  cases r with
  | error e =>
      have hopen : s'.connected = true := hall
      simp [hopen]
  | ok r =>
      cases r with
      | none => exact iff_of_true hall rfl
      | some a =>
          have hopen : s'.connected = true := hall.1
          simp [hopen]

end Response

end Hps.Http
