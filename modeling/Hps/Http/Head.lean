import Hps.Http.Reading

/-!
# HTTP — a head in one call

`parseHead` is what one call of `HttpRequestParser::execute` makes of a byte
string that is a complete head. It reads every token as it stands
(`parseHead_reads`), and whatever follows in the buffer changes nothing
(`readsAll_unique`).
-/

namespace Hps.Http.Request

open Hps.Lib

/-- The request of a byte string that one call of `execute` on a new parser
accepts and reads to its end. -/
def parseHead (u : Uninit) (b : List UInt8) : Option HttpRequest :=
  match HttpRequestParser.execute (.new u) b b.length with
  | .error _ => none
  | .ok (n, p, _) =>
      if n = b.length ∧ p.hasError = false ∧ p.isFinished = 1 then some p.data
      else none

/-- The string goes on behind the token that ends at `e`. -/
def Follows (b : List UInt8) (e : Nat) (junk : List UInt8) : Prop :=
  b.drop (e + 1) <+: junk

/-- **A head accepted in one call has its tokens read as they stand.** -/
theorem parseHead_reads {u : Uninit} {b : List UInt8} {r : HttpRequest}
    (h : parseHead u b = some r) :
    b ≠ [] ∧ (∃ q, (scan u.uriRelaxed b).ending = .stopped q) ∧
    (scan u.uriRelaxed b).pos = b.length ∧
    ReadsAll (Follows b) b (fun _ => 0) {} (scan u.uriRelaxed b).calls
      (some r) := by
  have hb : b ≠ [] := by
    rintro rfl
    cases h
  have hpiece : Piece b 0 b := ⟨[], by simp⟩
  obtain ⟨n, s', res, hcs, hpos, -, hreads, hexec⟩ := execute_reads (Follows b)
    [] 0 (registers_init u) rfl hb hpiece (.inl rfl)
    (scan_wellFormed u.uriRelaxed)
    (fun e _ _ => (rfl : (fun _ => 0) e = 0)) (fun e _ => by simp [Follows]) {}
  simp only [List.append_nil, Nat.add_zero] at hexec
  have hnew : HttpRequestParser.new u = ⟨httpParserInit u, {}, 0⟩ := rfl
  simp only [parseHead, hnew] at h
  cases res with
  | none =>
      cases hx : HttpRequestParser.execute ⟨httpParserInit u, {}, 0⟩ b b.length with
      | error e => simp [hx] at h
      | ok x =>
          have herr := hexec x hx
          simp [hx, HttpRequestParser.hasError, herr] at h
  | some r' =>
      rw [show HttpRequestParser.execute ⟨httpParserInit u, {}, 0⟩ b b.length =
        .ok _ from hexec] at h
      simp only [Option.ite_none_right_eq_some, Option.some.injEq] at h
      obtain ⟨⟨hn, -, hfin⟩, rfl⟩ := h
      refine ⟨hb, ?_, by rw [scan]; omega, hreads⟩
      cases hrun : (scan u.uriRelaxed b).ending with
      | stopped q => exact ⟨q, rfl⟩
      | running q =>
          have hq := (scan_final rfl 0 {} b).1 hrun
          rw [scan] at hrun
          rw [hrun] at hcs
          simp [HttpRequestParser.isFinished, HttpParser.finish,
            HttpParser.hasError, HttpParser.isFinished, hcs, endState, hq] at hfin
      | failed =>
          rw [scan] at hrun
          rw [hrun] at hcs
          simp [HttpRequestParser.isFinished, HttpParser.finish,
            HttpParser.hasError, hcs, endState] at hfin

/-! ## The method of an accepted head -/

/-- The machine does not get past `M - S`. -/
theorem not_msearch {relaxed : Bool} {rest junk : List UInt8} {q : State}
    (hstop : (scan relaxed (ch 'M' :: ch ' ' :: rest)).ending = .stopped q)
    (hrest : rest <+: junk) : ¬text "- SEARCH" <+: junk := by
  intro hjunk
  have n1 : (machine relaxed).next .start (ch 'M') =
      some (.method 1, [.mark]) := rfl
  have n2 : (machine relaxed).next (.method 1) (ch ' ') =
      some (.uri, [.requestMethod]) := rfl
  have n3 : (machine relaxed).next .uri (ch '-') =
      some (.path (.chars .segmentNzNc), [.mark]) := by cases relaxed <;> rfl
  have n4 : (machine relaxed).next (.path (.chars .segmentNzNc)) (ch ' ') =
      some (.version 0, [.requestPath, .requestUri]) := rfl
  have n5 : (machine relaxed).next (.version 0) (ch 'S') = none := rfl
  rw [scan, Machine.exec_cons_step n1 rfl, Machine.exec_cons_step n2 rfl] at hstop
  simp only [Machine.after_ending] at hstop
  have hjunk' : [ch '-', ch ' ', ch 'S'] <+: junk :=
    List.IsPrefix.trans ⟨text "EARCH", rfl⟩ hjunk
  by_cases hlen : 3 ≤ rest.length
  · obtain ⟨more, rfl⟩ := List.prefix_of_prefix_length_le hjunk' hrest hlen
    simp only [List.cons_append, List.nil_append] at hstop
    rw [Machine.exec_cons_step n3 rfl, Machine.exec_cons_step n4 rfl,
      Machine.exec_cons_none n5] at hstop
    cases hstop
  · obtain ⟨more, hmore⟩ := List.prefix_of_prefix_length_le hrest hjunk'
      (by simp; omega)
    rcases rest with _ | ⟨c, _ | ⟨d, _ | ⟨x, rest⟩⟩⟩
    · cases hstop
    · obtain rfl : c = ch '-' := (List.cons.inj hmore).1
      rw [Machine.exec_cons_step n3 rfl] at hstop
      cases hstop
    · obtain rfl : c = ch '-' := (List.cons.inj hmore).1
      obtain rfl : d = ch ' ' := (List.cons.inj (List.cons.inj hmore).2).1
      rw [Machine.exec_cons_step n3 rfl, Machine.exec_cons_step n4 rfl] at hstop
      cases hstop
    · simp only [List.length_cons] at hlen
      omega

/-- **What follows the method of an accepted head does not decide it.** -/
theorem method_of_head {relaxed : Bool} {b junk : List UInt8} {q : State}
    {e : Nat} (hstop : (scan relaxed b).ending = .stopped q)
    (hall : (slice b 0 e).all methodChar = true) (he : b[e]? = some (ch ' '))
    (hjunk : Follows b e junk) :
    charsToHttpMethod (slice b 0 e ++ ch ' ' :: junk) =
      charsToHttpMethod (slice b 0 e) := by
  refine charsToHttpMethod_blank hall fun hm => ?_
  obtain ⟨hlt, hget⟩ := List.getElem?_eq_some_iff.mp he
  obtain rfl : e = 1 := by
    have := congrArg List.length hm
    rw [slice_length hlt.le] at this
    exact this
  have hb : b = ch 'M' :: ch ' ' :: b.drop 2 := by
    calc b = b.take 1 ++ b.drop 1 := (List.take_append_drop 1 b).symm
      _ = text "M" ++ b.drop 1 := by
          rw [← hm, slice, List.drop_zero]
      _ = ch 'M' :: ch ' ' :: b.drop 2 := by
          rw [List.drop_eq_getElem_cons hlt, hget]
          rfl
  rw [hb] at hstop
  exact not_msearch hstop hjunk

/-! ## What follows an accepted head -/

theorem reads_unique {relaxed : Bool} {b : List UInt8} {q : State} {t : Token}
    {r : HttpRequest} {res res' : Option HttpRequest}
    (hstop : (scan relaxed b).ending = .stopped q) (hwf : t.WellFormed b)
    (h : Reads (Follows b) b 0 r t res) (h' : Reads (Follows b) b 0 r t res') :
    res = res' := by
  cases t with
  | headerDone => exact Eq.trans h h'.symm
  | query start e =>
      obtain ⟨i, rfl, -⟩ := hwf
      exact ((h i rfl).1 (Nat.zero_le i)).trans ((h' i rfl).1 (Nat.zero_le i)).symm
  | field s ns ne vs e => exact Eq.trans h h'.symm
  | element cb s e =>
      cases cb with
      | requestMethod =>
          obtain ⟨rfl, hall, hb⟩ := hwf
          obtain ⟨junk, hjunk, rfl⟩ := h
          obtain ⟨junk', hjunk', rfl⟩ := h'
          rw [Nat.max_self, readMethod, readMethod, method_of_head hstop hall hb hjunk,
            method_of_head hstop hall hb hjunk']
      | requestUri => exact Eq.trans h h'.symm
      | fragment => exact Eq.trans h h'.symm
      | requestPath => exact Eq.trans h h'.symm
      | queryString => exact hwf.elim
      | httpVersion => exact Eq.trans h h'.symm
      | headerDone => exact Eq.trans h h'.symm

/-- **An accepted head is read alike** whatever lies behind it. -/
theorem readsAll_unique {relaxed : Bool} {b : List UInt8} {q : State}
    {ts : List Token} {r : HttpRequest} {res res' : Option HttpRequest}
    (hstop : (scan relaxed b).ending = .stopped q)
    (hwf : ∀ t ∈ ts, t.WellFormed b)
    (h : ReadsAll (Follows b) b (fun _ => 0) r ts res)
    (h' : ReadsAll (Follows b) b (fun _ => 0) r ts res') : res = res' := by
  induction ts generalizing r with
  | nil => exact Eq.trans h h'.symm
  | cons t ts ih =>
      have hone : ∀ {x y}, Reads (Follows b) b (t.start fun _ => 0) r t x →
          Reads (Follows b) b (t.start fun _ => 0) r t y → x = y := by
        intro x y hx hy
        rw [Token.start_zero] at hx hy
        exact reads_unique hstop (hwf t List.mem_cons_self) hx hy
      rcases h with ⟨h1, rfl⟩ | ⟨r₁, h1, h2⟩
      · rcases h' with ⟨-, rfl⟩ | ⟨r₁', h1', -⟩
        · rfl
        · cases hone h1 h1'
      · rcases h' with ⟨h1', -⟩ | ⟨r₁', h1', h2'⟩
        · cases hone h1 h1'
        · cases hone h1 h1'
          exact ih (fun u hu => hwf u (List.mem_cons_of_mem t hu)) h2 h2'

/-- **A call reads an accepted head off the front of its buffer**, and moves
what came with it to the front. -/
theorem execute_head {u : Uninit} {b : List UInt8} {r : HttpRequest}
    (h : parseHead u b = some r) (front mem : List UInt8) :
    ∃ s q data,
      HttpRequestParser.execute (.new u) (b ++ (front ++ mem))
        (b.length + front.length) = .ok (b.length, ⟨s, r, 0⟩, data) ∧
      s.cs = some q ∧ q.final = true ∧ data.take front.length = front := by
  obtain ⟨hne, ⟨q, hstop⟩, hpos, hone⟩ := parseHead_reads h
  have hpiece : Piece b 0 b := ⟨[], by simp⟩
  have hfollows : ∀ e, 0 ≤ e →
      Follows b e ((b ++ (front ++ mem)).drop (e - 0 + 1)) := fun e _ => by
    rw [Follows, Nat.sub_zero, List.drop_append]
    exact List.prefix_append _ _
  have hstop' := hstop
  rw [scan] at hstop'
  obtain ⟨n, s, res, hcs, hpos', -, hreads, hexec⟩ := execute_reads (Follows b)
    (front ++ mem) front.length (registers_init u) rfl hne hpiece
    (.inr fun q' hq => by rw [hstop'] at hq; cases hq)
    (scan_wellFormed u.uriRelaxed)
    (fun e _ _ => (rfl : (fun _ => 0) e = 0)) hfollows {}
  obtain rfl : n = b.length := by
    rw [scan] at hpos
    omega
  obtain rfl := readsAll_unique hstop (scan_wellFormed u.uriRelaxed) hreads hone
  rw [hstop'] at hcs
  refine ⟨s, q, _, hexec, hcs, (scan_final rfl 0 {} b).2 hstop, ?_⟩
  rw [List.take_left, List.drop_left, List.take_left]

end Hps.Http.Request
