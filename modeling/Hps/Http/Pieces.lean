import Hps.Http.Reading

/-!
# HTTP — heads that arrive in pieces

The loop of `recvRequest` on a socket whose first arrivals are the pieces of
a head, none of them larger than the buffer: every turn reads one piece, and
after the last the request is what its tokens give, each of them read from
the piece it ends in (`recvHead_reads`).
-/

namespace Hps.Http.Request

open Hps.Lib

/-! ## Receiving -/

theorem recv_whole {s : Socket} {a : Arrival} {as : List Arrival} {n : Nat}
    (hs : s.arrivals = a :: as) (hc : s.connected = true)
    (hn : a.bytes.length ≤ n) :
    s.recv n = ((a.bytes.length : Int), a.bytes, { s with arrivals := as }) := by
  have hpos := List.length_pos_of_ne_nil a.nonempty
  simp only [Socket.recv, hc, not_true_eq_false, if_false, hs,
    dif_neg (Nat.not_lt.mpr hn), show n ≠ 0 by omega]

/-! ## One turn of the loop -/

/-- Where the piece begins that the position `e` lies in. -/
def pieceStart : Nat → List (List UInt8) → Nat → Nat
  | k, [], _ => k
  | k, f :: fs, e =>
      if e < k + f.length then k else pieceStart (k + f.length) fs e

theorem pieceStart_le {k e : Nat} (fs : List (List UInt8)) (h : k ≤ e) :
    pieceStart k fs e ≤ e := by
  induction fs generalizing k with
  | nil => exact h
  | cons f fs ih =>
      simp only [pieceStart]
      split_ifs with he
      · exact h
      · exact ih (by omega)

/-- What the loop has to show for a request: the head of the message, with
all of the buffer read; or no head. -/
def Leaves (out : Except Thrown (Option Head) × Socket) (rest : Socket) :
    Option HttpRequest → Prop
  | some r => ∃ s data, out = (.ok (some ⟨⟨s, r, 0⟩, data, 0⟩), rest)
  | none => ∀ h, out.1 ≠ .ok (some h)

section Turn

variable {fuel : Nat} {p : HttpRequestParser} {data got : List UInt8}
  {sock sock' : Socket}

/-- A turn of the loop that begins with an empty buffer. -/
theorem recvHead_turn (hrecv : sock.recv buffSize = ((got.length : Int), got, sock'))
    (hgot : got ≠ []) :
    recvHead (fuel + 1) p data 0 sock =
      match p.execute (got ++ data.drop got.length) got.length with
      | .error e => (.error e, sock')
      | .ok (nparse, p, data) =>
          if p.hasError then (.ok none, sock'.close)
          else if got.length - nparse = buffSize then (.ok none, sock'.close)
          else if p.isFinished ≠ 0 then
            (.ok (some ⟨p, data, got.length - nparse⟩), sock')
          else recvHead fuel p data (got.length - nparse) sock' := by
  have hpos := List.length_pos_of_ne_nil hgot
  simp only [recvHead, Nat.sub_zero, hrecv, List.take_zero, List.nil_append,
    Nat.zero_add]
  exact if_neg (by omega)

/-- The turn fails if the callbacks did. -/
theorem recvHead_fails (hrecv : sock.recv buffSize = ((got.length : Int), got, sock'))
    (hgot : got ≠ [])
    (hex : ∀ x, p.execute (got ++ data.drop got.length) got.length = .ok x →
      x.2.1.error ≠ 0) (h : Head) :
    (recvHead (fuel + 1) p data 0 sock).1 ≠ .ok (some h) := by
  rw [recvHead_turn hrecv hgot]
  cases hx : p.execute (got ++ data.drop got.length) got.length with
  | error e => simp
  | ok x =>
      have herr : x.2.1.hasError = true := by
        simp [HttpRequestParser.hasError, hex x hx]
      simp only [herr, if_true]
      simp

variable {n : Nat} {s : HttpParser} {r : HttpRequest} {data' : List UInt8}
  {q : State}

/-- The turn ends the loop if the parser has finished. -/
theorem recvHead_finishes (fuel : Nat)
    (hrecv : sock.recv buffSize = ((got.length : Int), got, sock'))
    (hgot : got ≠ [])
    (hex : p.execute (got ++ data.drop got.length) got.length =
      .ok (n, ⟨s, r, 0⟩, data'))
    (hcs : s.cs = some q) (hq : q.final = true)
    (hn : got.length - n ≠ buffSize) :
    recvHead (fuel + 1) p data 0 sock =
      (.ok (some ⟨⟨s, r, 0⟩, data', got.length - n⟩), sock') := by
  rw [recvHead_turn hrecv hgot, hex]
  simp [HttpRequestParser.hasError, HttpRequestParser.isFinished,
    HttpParser.finish, HttpParser.hasError, HttpParser.isFinished, hcs, hq, hn]

/-- The loop goes on if the parser has read everything and not finished. -/
theorem recvHead_goes_on
    (hrecv : sock.recv buffSize = ((got.length : Int), got, sock'))
    (hgot : got ≠ [])
    (hex : p.execute (got ++ data.drop got.length) got.length =
      .ok (got.length, ⟨s, r, 0⟩, data'))
    (hcs : s.cs = some q) (hq : q.final = false) :
    recvHead (fuel + 1) p data 0 sock = recvHead fuel ⟨s, r, 0⟩ data' 0 sock' := by
  rw [recvHead_turn hrecv hgot, hex]
  simp [HttpRequestParser.hasError, HttpRequestParser.isFinished,
    HttpParser.finish, HttpParser.hasError, HttpParser.isFinished, hcs, hq,
    buffSize]

end Turn

/-! ## The loop -/

/-- The turn of the piece in which the head ends. -/
theorem recvHead_last {relaxed : Bool} {b f : List UInt8} {base : Nat → Nat} {k k' : Nat}
    {m : Marks} {s : HttpParser} {q q₁ : State} {data : List UInt8} {sock sock' : Socket}
    (fuel : Nat) (hregs : Registers relaxed k' k k m s) (hcs : s.cs = some q)
    (hq : q.final = false) (hf : f ≠ []) (hpiece : Piece b k f)
    (hwf : ∀ t ∈ ((machine relaxed).exec scanAct q k m f).calls, t.WellFormed b)
    (hbase : ∀ e, k ≤ e → e < k + f.length → base e = k)
    (hrun : ((machine relaxed).exec scanAct q k m f).ending = .stopped q₁)
    (hpos : ((machine relaxed).exec scanAct q k m f).pos = k + f.length)
    (hrecv : sock.recv buffSize = ((f.length : Int), f, sock')) (r : HttpRequest) :
    ∃ res,
      ReadsAll (fun _ _ => True) b base r ((machine relaxed).exec scanAct q k m f).calls res ∧
      Leaves (recvHead (fuel + 1) ⟨s, r, 0⟩ data 0 sock) sock' res := by
  obtain ⟨n, s', res, hcs', hpos', -, hreads, hexec⟩ := execute_reads (fun _ _ => True)
    (data.drop f.length) 0 hregs hcs hf hpiece (.inl rfl) hwf hbase (fun _ _ => trivial) r
  obtain rfl : n = f.length := by omega
  refine ⟨res, hreads, ?_⟩
  rw [hrun] at hcs'
  have hfin := (scan_final hq k m f).2 hrun
  cases res with
  | none => exact recvHead_fails hrecv hf hexec
  | some r' =>
      have hturn := recvHead_finishes fuel hrecv hf hexec hcs' hfin (by rw [Nat.sub_self]; decide)
      rw [Nat.sub_self] at hturn
      exact ⟨s', _, hturn⟩

/-- What lies ahead of the loop: from `k` on the message is the pieces `fs`,
and the run of the tables over them stops where it ends. -/
structure Ahead (relaxed : Bool) (b : List UInt8) (base : Nat → Nat) (fs : List Arrival)
    (q : State) (k : Nat) (m : Marks) : Prop where
  drop_eq : b.drop k = (fs.map Arrival.bytes).flatten
  le_length : k ≤ b.length
  fits : ∀ a ∈ fs, a.bytes.length ≤ buffSize
  stops : ∃ qf, ((machine relaxed).exec scanAct q k m (b.drop k)).ending = .stopped qf
  pos_eq : ((machine relaxed).exec scanAct q k m (b.drop k)).pos = b.length
  wellFormed : ∀ t ∈ ((machine relaxed).exec scanAct q k m (b.drop k)).calls, t.WellFormed b
  base_eq : ∀ e, k ≤ e → base e = pieceStart k (fs.map Arrival.bytes) e

namespace Ahead

variable {relaxed : Bool} {b : List UInt8} {base : Nat → Nat} {a : Arrival}
  {fs : List Arrival} {q q₁ : State} {k : Nat} {m : Marks}

/-- There is a piece ahead: a run over nothing does not stop. -/
theorem ne_nil (h : Ahead relaxed b base fs q k m) : fs ≠ [] := by
  rintro rfl
  obtain ⟨qf, hstops⟩ := h.stops
  rw [h.drop_eq] at hstops
  cases hstops

theorem drop_cons (h : Ahead relaxed b base (a :: fs) q k m) :
    b.drop k = a.bytes ++ (fs.map Arrival.bytes).flatten := by
  rw [h.drop_eq, List.map_cons, List.flatten_cons]

theorem length_eq (h : Ahead relaxed b base (a :: fs) q k m) :
    b.length = k + (a.bytes.length + ((fs.map Arrival.bytes).flatten).length) := by
  have hlen := congrArg List.length h.drop_cons
  rw [List.length_drop, List.length_append] at hlen
  have := h.le_length
  omega

theorem piece (h : Ahead relaxed b base (a :: fs) q k m) : Piece b k a.bytes :=
  ⟨_, h.drop_cons⟩

theorem base_first (h : Ahead relaxed b base (a :: fs) q k m) (e : Nat) (hk : k ≤ e)
    (he : e < k + a.bytes.length) : base e = k := by
  rw [h.base_eq e hk, List.map_cons, pieceStart, if_pos he]

theorem not_failed (h : Ahead relaxed b base (a :: fs) q k m) :
    ((machine relaxed).exec scanAct q k m a.bytes).ending ≠ .failed := by
  intro hrun
  obtain ⟨qf, hstops⟩ := h.stops
  rw [h.drop_cons, Machine.exec_append_of_ended _ (by simp [hrun]), hrun] at hstops
  cases hstops

/-- A piece on which the run stops is the last one. -/
theorem exec_last (h : Ahead relaxed b base (a :: fs) q k m)
    (hrun : ((machine relaxed).exec scanAct q k m a.bytes).ending = .stopped q₁) :
    fs = [] ∧ (machine relaxed).exec scanAct q k m (b.drop k) =
      (machine relaxed).exec scanAct q k m a.bytes := by
  have hexec : (machine relaxed).exec scanAct q k m (b.drop k) =
      (machine relaxed).exec scanAct q k m a.bytes := by
    rw [h.drop_cons]
    exact Machine.exec_append_of_ended _ (by simp [hrun])
  refine ⟨?_, hexec⟩
  have hpos := h.pos_eq
  rw [hexec] at hpos
  have hle := Machine.exec_pos_le (machine relaxed) scanAct q k m a.bytes
  have hlen := h.length_eq
  cases fs with
  | nil => rfl
  | cons a' fs =>
      have := List.length_pos_of_ne_nil a'.nonempty
      simp only [List.map_cons, List.flatten_cons, List.length_append] at hlen
      omega

/-- A run that goes on behind a piece goes on over the others. -/
theorem exec_next (h : Ahead relaxed b base (a :: fs) q k m)
    (hrun : ((machine relaxed).exec scanAct q k m a.bytes).ending = .running q₁) :
    (machine relaxed).exec scanAct q k m (b.drop k) =
      ((machine relaxed).exec scanAct q₁ (k + a.bytes.length)
        ((machine relaxed).exec scanAct q k m a.bytes).regs
        (b.drop (k + a.bytes.length))).after
        ((machine relaxed).exec scanAct q k m a.bytes).calls := by
  have hrest : b.drop (k + a.bytes.length) = (fs.map Arrival.bytes).flatten := by
    rw [← List.drop_drop, h.drop_cons, List.drop_left' rfl]
  rw [hrest, h.drop_cons]
  exact Machine.exec_append _ hrun

/-- Behind a piece on which the run goes on the other pieces are ahead. -/
theorem next (h : Ahead relaxed b base (a :: fs) q k m)
    (hrun : ((machine relaxed).exec scanAct q k m a.bytes).ending = .running q₁) :
    Ahead relaxed b base fs q₁ (k + a.bytes.length)
      ((machine relaxed).exec scanAct q k m a.bytes).regs := by
  have hexec := h.exec_next hrun
  have hlen := h.length_eq
  constructor
  · rw [← List.drop_drop, h.drop_cons, List.drop_left' rfl]
  · omega
  · exact fun a' ha' => h.fits a' (List.mem_cons_of_mem a ha')
  · obtain ⟨qf, hstops⟩ := h.stops
    rw [hexec] at hstops
    exact ⟨qf, hstops⟩
  · have hpos := h.pos_eq
    rw [hexec] at hpos
    exact hpos
  · intro t ht
    have hwf := h.wellFormed t
    rw [hexec] at hwf
    exact hwf (List.mem_append_right _ ht)
  · intro e he
    rw [h.base_eq e (by omega), List.map_cons, pieceStart, if_neg (by omega)]

theorem wellFormed_first (h : Ahead relaxed b base (a :: fs) q k m)
    (hrun : ((machine relaxed).exec scanAct q k m a.bytes).ending = .running q₁) (t : Token)
    (ht : t ∈ ((machine relaxed).exec scanAct q k m a.bytes).calls) : t.WellFormed b := by
  have hwf := h.wellFormed t
  rw [h.exec_next hrun] at hwf
  exact hwf (List.mem_append_left _ ht)

end Ahead

/-- **The loop reads the tokens of the head**, each from the piece it ends
in. -/
theorem recvHead_reads {relaxed : Bool} {b : List UInt8} {base : Nat → Nat}
    {rest : List Arrival} (fs : List Arrival) {k k' : Nat} {m : Marks} {s : HttpParser}
    {q : State} {r : HttpRequest} {data : List UInt8} {fuel : Nat} {sock : Socket}
    (hregs : Registers relaxed k' k k m s) (hcs : s.cs = some q) (hq : q.final = false)
    (hahead : Ahead relaxed b base fs q k m) (hfuel : fs.length ≤ fuel)
    (harr : sock.arrivals = fs ++ rest) (hconn : sock.connected = true) :
    ∃ res,
      ReadsAll (fun _ _ => True) b base r
        ((machine relaxed).exec scanAct q k m (b.drop k)).calls res ∧
      Leaves (recvHead fuel ⟨s, r, 0⟩ data 0 sock)
        { sock with arrivals := rest } res := by
  -- one turn takes one piece; what `Ahead` says of the others is the hypothesis
  induction fs generalizing k k' m s q r data fuel sock with
  | nil => exact absurd rfl hahead.ne_nil
  | cons a fs ih =>
      obtain ⟨fuel, rfl⟩ : ∃ n, fuel = n + 1 :=
        ⟨fuel - 1, by simp only [List.length_cons] at hfuel; omega⟩
      have hrecv := recv_whole harr hconn (hahead.fits a List.mem_cons_self)
      cases hrun : ((machine relaxed).exec scanAct q k m a.bytes).ending with
      | failed => exact absurd hrun hahead.not_failed
      | stopped q₁ =>
          -- the head ends here, and this is the last piece
          have hlen := hahead.length_eq
          obtain ⟨rfl, hexec⟩ := hahead.exec_last hrun
          have hpos := hahead.pos_eq
          have hwf := hahead.wellFormed
          rw [hexec] at hpos hwf ⊢
          exact recvHead_last fuel hregs hcs hq a.nonempty hahead.piece hwf
            hahead.base_first hrun (hpos.trans hlen) hrecv r
      | running q₁ =>
          have hpos₁ := Machine.exec_running hrun
          have hq₁ := (scan_final hq k m a.bytes).1 hrun
          obtain ⟨n, s', res, hcs', hpos', hregs', hreads, hexec⟩ := execute_reads
            (fun _ _ => True) (data.drop a.bytes.length) 0 hregs hcs a.nonempty
            hahead.piece (.inl rfl) (hahead.wellFormed_first hrun) hahead.base_first
            (fun _ _ => trivial) r
          obtain rfl : n = a.bytes.length := by omega
          rw [hrun] at hcs'
          rw [hpos₁] at hregs'
          rw [hahead.exec_next hrun]
          cases res with
          | none =>
              -- a token of this piece is an error, whatever the others bring
              exact ⟨none, hreads.append_none _, recvHead_fails hrecv a.nonempty hexec⟩
          | some r₁ =>
              rw [recvHead_goes_on hrecv a.nonempty hexec hcs' hq₁]
              have harr' : ({ sock with arrivals := fs ++ rest } : Socket).arrivals =
                  fs ++ rest := rfl
              obtain ⟨res, hreads', hleaves⟩ := ih hregs' hcs' hq₁ (hahead.next hrun)
                (Nat.le_of_succ_le_succ hfuel) harr' hconn
              exact ⟨res, hreads.append hreads', hleaves⟩

end Hps.Http.Request
