import Mathlib.Algebra.Ring.Int.Defs
import Mathlib.Algebra.Order.BigOperators.Group.List
import Hps.Http.Closing
import Hps.Pool.Ownership

/-!
# Pool — the reuse of connections

A request that fails while it is written leaves its connection open, and so
does an exception out of `recvResponse`: the release puts the connection
back, and `getConnection` returns it. `spoiled_not_reused`: as long as every
request is written to its end and its answer is read, or given up by closing
the socket, no spoiled connection is ever returned.
-/

namespace Hps.Pool

open Hps.Lib Hps.Http

/-! ## The condition -/

/-- The first writes, all of them positive, take `n` bytes. -/
def Written (sends : List Int) (n : Nat) : Prop :=
  ∃ k ≤ sends.length, (∀ len ∈ sends.take k, 0 < len) ∧ (n : Int) ≤ (sends.take k).sum

namespace Exchange

def data (x : Exchange) : List UInt8 := x.req.toString x.websocket

/-- The request is written to its end; its length is a positive `int`. -/
def Sent (x : Exchange) : Prop := Written x.sends x.data.length ∧ 0 < toInt32 x.data.length

/-- The socket once the peer has answered. -/
def asked (x : Exchange) (s : Socket) : Socket :=
  { s with arrivals := s.arrivals ++ x.answer, broken := x.broken }

/-- `recvResponse` does not throw, and reads all of the answer if it returns
a response. -/
def Answered (buff : Response.BuffSize) (x : Exchange) (s : Socket) : Prop :=
  match Response.recvResponse buff (x.asked s) with
  | (.error (.thrown _), _) => False
  | (.ok (some _), s) => s.arrivals = []
  | _ => True

end Exchange

/-- The release is reached: nothing ended the program. -/
def Exchanged.returns (r : Exchanged) : Bool :=
  match r.1 with
  | .ok _ => true
  | .error (.thrown _) => true
  | .error _ => false

variable (cfg : Config) (buff : Response.BuffSize)

/-- The request goes through, or its connection is deleted at once. -/
def HttpConnection.Settles (c : HttpConnection) (x : Exchange) (now : Nat) : Prop :=
  c.isConnected = false ∨ x.Sent ∧ x.Answered buff c.socket ∨
    cfg.maxRequest ≤ c.request + 1 ∨ now ≤ cfg.maxAliveTime

def Settles (s : State) : Act → Prop
  | .request id x now => ∀ c ∈ s.conn? id, c.Settles cfg buff x now
  | _ => True

/-- A connection that a request spoils is deleted by its release. -/
def KeptOut (s : State) : Act → Prop
  | .request id x now => ∀ c ∈ s.conn? id, (exchange buff x c).returns = true →
      (exchange buff x c).2.spoiled = true → ¬(s.release cfg id (exchange buff x c).2 now).Live id
  | _ => True

/-- No connection of the pool or of a caller is spoiled. -/
def State.Clean (s : State) : Prop := ∀ id, ∀ c ∈ s.conn? id, c.spoiled = false

/-! ## Writing -/

theorem written_zero (sends : List Int) : Written sends 0 :=
  ⟨0, Nat.zero_le _, nofun, Int.le_refl 0⟩

/-- The first write of a text takes a part of it. -/
theorem written_cons {len : Int} {sends : List Int} {n : Nat} (hn : 0 < n) :
    Written (len :: sends) n ↔ 0 < len ∧ Written sends (n - len.toNat) := by
  constructor
  · rintro ⟨k, hk, hpos, hsum⟩
    cases k with
    | zero =>
        simp only [List.take_zero, List.sum_nil] at hsum
        omega
    | succ k =>
        rw [List.take_succ_cons] at hpos hsum
        rw [List.sum_cons] at hsum
        obtain ⟨hlen, hrest⟩ := List.forall_mem_cons.mp hpos
        have hsum0 : 0 ≤ (sends.take k).sum := List.sum_nonneg fun l hl => (hrest l hl).le
        exact ⟨hlen, k, Nat.le_of_succ_le_succ hk, hrest, by omega⟩
  · rintro ⟨hlen, k, hk, hpos, hsum⟩
    refine ⟨k + 1, Nat.succ_le_succ hk, ?_, ?_⟩
    · rw [List.take_succ_cons]
      exact List.forall_mem_cons.mpr ⟨hlen, hpos⟩
    · rw [List.take_succ_cons, List.sum_cons]
      omega

/-- **The loop of `writeFixSize`** comes to the end of the text, or returns a
failed write. -/
theorem writeLoop_cases (sends : List Int) (n : Nat) :
    (writeLoop sends n = (none, 0) ∧ Written sends n) ∨
      ∃ len left, writeLoop sends n = (some len, left) ∧ len ≤ 0 ∧ ¬Written sends n := by
  induction sends generalizing n with
  | nil =>
      cases n with
      | zero => exact .inl ⟨rfl, written_zero []⟩
      | succ n =>
          refine .inr ⟨-1, n + 1, rfl, by omega, ?_⟩
          rintro ⟨k, -, -, hsum⟩
          rw [List.take_nil, List.sum_nil] at hsum
          omega
  | cons len sends ih =>
      cases n with
      | zero => exact .inl ⟨rfl, written_zero _⟩
      | succ n =>
          rw [writeLoop.eq_3 (n + 1) len sends (Nat.succ_ne_zero n),
            written_cons (Nat.succ_pos n)]
          by_cases hlen : len ≤ 0
          · rw [if_pos hlen]
            exact .inr ⟨len, n + 1, rfl, hlen, fun h => absurd h.1 (Int.not_lt.mpr hlen)⟩
          · rw [if_neg hlen]
            rcases ih (n + 1 - len.toNat) with ⟨hloop, hwritten⟩ | ⟨l, left, hloop, hl, hnot⟩
            · exact .inl ⟨hloop, Int.not_le.mp hlen, hwritten⟩
            · exact .inr ⟨l, left, hloop, hl, fun h => hnot h.2⟩

theorem sendRequest_eq (connected : Bool) (x : Exchange) :
    sendRequest connected x =
      ((writeLoop (if connected then x.sends else []) x.data.length).1.getD
        (toInt32 x.data.length),
       (writeLoop (if connected then x.sends else []) x.data.length).2) := by
  rw [sendRequest, Exchange.data]

/-- Over an open connection, `sendRequest` returns a positive number exactly
if it wrote everything. -/
theorem sendRequest_cases (x : Exchange) :
    (∃ rt, sendRequest true x = (rt, 0) ∧ 0 < rt ∧ x.Sent) ∨
      ∃ rt left, sendRequest true x = (rt, left) ∧ rt ≤ 0 ∧ ¬x.Sent := by
  rw [sendRequest_eq, if_pos rfl, Exchange.Sent]
  generalize x.data.length = n
  rcases writeLoop_cases x.sends n with ⟨hloop, hwritten⟩ | ⟨len, left, hloop, hlen, hnot⟩
  · rw [hloop, Option.getD_none]
    by_cases hpos : 0 < toInt32 n
    · exact .inl ⟨_, rfl, hpos, hwritten, hpos⟩
    · exact .inr ⟨_, 0, rfl, Int.not_lt.mp hpos, fun h => hpos h.2⟩
  · rw [hloop]
    exact .inr ⟨len, left, rfl, hlen, fun h => hnot h.1⟩

/-- Over a closed connection it returns no positive number. -/
theorem sendRequest_closed (x : Exchange) : (sendRequest false x).1 ≤ 0 := by
  rw [sendRequest_eq, if_neg Bool.false_ne_true]
  generalize x.data.length = n
  cases n with
  | zero => exact Int.le_refl 0
  | succ n => exact (by decide : (-1 : Int) ≤ 0)

/-! ## One request -/

variable {cfg : Config} {buff : Response.BuffSize} {s s' : State} {a : Act}

/-- A closed connection fails at once, and stays closed. -/
theorem exchange_closed (x : Exchange) {c : HttpConnection} (hc : c.isConnected = false) :
    (exchange buff x c).2.isConnected = false := by
  have hsend := sendRequest_closed x
  rw [exchange, hc]
  revert hsend
  obtain ⟨rt, left⟩ := sendRequest false x
  intro hsend
  dsimp only at hsend ⊢
  split
  · exact hc
  · rename_i hzero
    rw [if_pos (by omega)]
    exact hc

/-- **A request over an open connection** spoils it and leaves it open exactly
if it is not sent, or not answered. -/
theorem exchange_open (x : Exchange) {c : HttpConnection} (hc : c.isConnected = true)
    (hclean : c.spoiled = false) :
    ((exchange buff x c).returns = true → (exchange buff x c).2.spoiled = true →
      (exchange buff x c).2.isConnected = false) ↔ x.Sent ∧ x.Answered buff c.socket := by
  have hasked : (x.asked c.socket).connected = true := hc
  have hclosed := Response.recvResponse_connected buff hasked
  have hopen : c.socket.connected = true := hc
  rw [exchange, hc, Exchange.Answered, ← Exchange.asked]
  rcases sendRequest_cases x with ⟨rt, hsend, hrt, hsent⟩ | ⟨rt, left, hsend, hrt, hnot⟩
  · rw [hsend, and_iff_right hsent]
    dsimp only
    rw [if_neg (Int.ne_of_gt hrt), if_neg (Int.not_lt.mpr hrt.le)]
    revert hclosed
    obtain ⟨r, t⟩ := Response.recvResponse buff (x.asked c.socket)
    intro hclosed
    cases r with
    | error e =>
        have ht : t.connected ≠ false := fun h => by cases hclosed.mp h
        cases e with
        | thrown e => exact iff_of_false (fun h => ht (h rfl rfl)) not_false
        | assertion | outOfBounds | overflow =>
            exact iff_of_true (fun h => absurd h Bool.false_ne_true) trivial
    | ok r =>
        cases r with
        | none => exact iff_of_true (fun _ _ => hclosed.mpr rfl) trivial
        | some rsp =>
            have ht : t.connected ≠ false := fun h => by cases hclosed.mp h
            show (true = true → (c.spoiled || 0 != 0 || !t.arrivals.isEmpty) = true →
              t.connected = false) ↔ t.arrivals = []
            rw [hclean, ← List.isEmpty_iff]
            cases t.arrivals.isEmpty with
            | true => exact iff_of_true (fun _ h => by cases h) rfl
            | false => exact iff_of_false (fun h => ht (h rfl rfl)) Bool.false_ne_true
  · -- whatever was written, the connection stays open
    rw [hsend]
    refine iff_of_false ?_ fun h => hnot h.1
    dsimp only
    split
    · exact fun h => by cases hopen.symm.trans (h rfl rfl)
    · rw [if_pos (by omega)]
      exact fun h => by cases hopen.symm.trans (h rfl rfl)

/-- A request is no harm exactly if its connection is not put back spoiled. -/
theorem settles_iff {id : ConnId} (x : Exchange) {c : HttpConnection} {now : Nat}
    (hc : s.conn? id = some c) (hstamp : c.createTime = 0) (hclean : c.spoiled = false) :
    c.Settles cfg buff x now ↔ ((exchange buff x c).returns = true →
      (exchange buff x c).2.spoiled = true →
        ¬(s.release cfg id (exchange buff x c).2 now).Live id) := by
  have hlive : s.Live id := by
    rw [State.Live, hc]
    rfl
  obtain ⟨hrequest, hstamp', -⟩ := @exchange_kept buff x c
  rw [live_release hlive, hrequest, hstamp', hstamp, Nat.zero_add, HttpConnection.Settles]
  cases hopen : c.isConnected with
  | false =>
      refine iff_of_true (.inl rfl) ?_
      rintro - - ⟨hopen', -⟩
      rw [exchange_closed x hopen] at hopen'
      cases hopen'
  | true =>
      rw [← exchange_open x hopen hclean]
      generalize exchange buff x c = r
      constructor
      · rintro (h | h | h | h) hreturns hspoiled ⟨hopen', hage, hleft⟩
        · cases h
        · rw [h hreturns hspoiled] at hopen'
          cases hopen'
        · exact absurd hleft (Nat.not_lt.mpr h)
        · exact absurd hage (Nat.not_lt.mpr h)
      · intro h
        by_cases hage : now ≤ cfg.maxAliveTime
        · exact .inr (.inr (.inr hage))
        · by_cases hleft : cfg.maxRequest ≤ c.request + 1
          · exact .inr (.inr (.inl hleft))
          · refine .inr (.inl fun hreturns hspoiled => ?_)
            apply Bool.eq_false_iff.mpr
            intro hopen'
            exact h hreturns hspoiled ⟨hopen', Nat.not_le.mp hage, Nat.not_le.mp hleft⟩

/-! ## Whole runs -/

theorem request_returns {id : ConnId} {x : Exchange} {now : Nat} {c : HttpConnection}
    (hs : step cfg buff s (.request id x now) = some s') (hc : s.conn? id = some c) :
    (exchange buff x c).returns = true := by
  simp only [step, hc] at hs
  revert hs
  generalize exchange buff x c = r
  obtain ⟨r, c'⟩ := r
  intro hs
  cases r with
  | ok r => rfl
  | error e =>
      cases e with
      | thrown e => rfl
      | assertion | outOfBounds | overflow => simp at hs

theorem State.Clean.put {id : ConnId} {o : Option HttpConnection} (h : s.Clean)
    (ho : ∀ c ∈ o, c.spoiled = false) : (s.put id o).Clean := by
  intro n c hc
  by_cases hn : id = n
  · rw [State.conn?, State.put, List.getElem?_set, if_pos hn] at hc
    split at hc
    · exact ho c hc
    · cases hc
  · rw [State.conn?, State.put, List.getElem?_set_ne hn] at hc
    exact h n c hc

theorem State.Clean.delete (h : s.Clean) (ids : List ConnId) : (s.delete ids).Clean := by
  induction ids generalizing s with
  | nil => exact h
  | cons id ids ih => exact ih (h.put nofun)

theorem State.Clean.go {connects : Option Nat} {pc : Pc} (h : s.Clean)
    (hs : s.go cfg connects pc = some s') : s'.Clean := by
  cases pc with
  | scanning now | counting id | uncounting | pushing id =>
      cases hs
      exact h
  | dropping invalid ptr =>
      cases hs
      exact h.delete invalid
  | subtracting n ptr =>
      cases ptr with
      | some id =>
          cases hs
          exact h
      | none =>
          cases hs
          exact h
  | connecting =>
      cases connects with
      | none =>
          cases hs
          exact h
      | some now =>
          simp only [State.go] at hs
          split at hs
          · cases hs
          · cases hs
            intro n c hc
            have hmake : (s.make (.new now)).conn? n = some c := hc
            rw [conn?_make] at hmake
            split at hmake
            · rw [← Option.some.inj hmake]
              rfl
            · exact h n c hmake

theorem State.Clean.release {id : ConnId} {c : HttpConnection} {now : Nat} (h : s.Clean)
    (hlive : s.Live id) (hc : c.spoiled = true → ¬(s.release cfg id c now).Live id) :
    (s.release cfg id c now).Clean := by
  cases hspoiled : c.spoiled with
  | false =>
      rw [State.release]
      dsimp only
      split
      · refine h.put ?_
        intro d hd
        cases hd
      · refine h.put fun d hd => ?_
        rw [← Option.some.inj hd]
        exact hspoiled
  | true =>
      have hdead := hc hspoiled
      rw [State.release] at hdead ⊢
      dsimp only at hdead ⊢
      split at hdead
      · rename_i hdeleted
        rw [if_pos hdeleted]
        refine h.put ?_
        intro d hd
        cases hd
      · refine absurd ?_ hdead
        show ((s.put id _).conn? id).isSome = true
        rw [conn?_put hlive, if_pos rfl]
        rfl

/-- A connection that is let go of unspoiled, or deleted, leaves none behind
that is spoiled. -/
theorem State.Clean.step (h : s.Clean) (hkept : KeptOut cfg buff s a)
    (hs : step cfg buff s a = some s') : s'.Clean := by
  rcases step_cases hs with ⟨now, -, -, rfl⟩ | ⟨i, connects, pc, -, -, hgo⟩ |
    ⟨id, c, -, hc, rfl⟩ | ⟨id, c, c', now, hhow, -, -, hc, rfl⟩
  · exact h
  · exact State.Clean.go (s := { s with calls := s.calls.eraseIdx i }) h hgo
  · refine h.put fun d hd => ?_
    rw [← Option.some.inj hd]
    exact h id c hc
  · have hlive : s.Live id := by
      rw [State.Live, hc]
      rfl
    apply h.release hlive
    rcases hhow with ⟨-, rfl⟩ | ⟨x, rfl, hc'⟩
    · intro hspoiled
      cases (h id c' hc).symm.trans hspoiled
    · rw [hc']
      exact hkept c hc (request_returns hs hc)

theorem settles_keptOut (hi : Inv cfg s [] 0 0) (h : s.Clean) (a : Act) :
    Settles cfg buff s a ↔ KeptOut cfg buff s a := by
  cases a with
  | request id x now =>
      refine forall_congr' fun c => forall_congr' fun hc => ?_
      exact settles_iff x hc (hi.requests id c hc).1 (h id c hc)
  | getConnection now | go i connects | close id | release id now => exact Iff.rfl

/-- **No reuse of a spoiled connection.** If every request of the run is
written to its end and answered, the connection is closed, or it is deleted
for its age or its number of requests, no connection that was returned is
spoiled. And every other request has its spoiled connection put back. -/
theorem spoiled_not_reused (cfg : Config) (buff : Response.BuffSize) (acts : List Act) :
    (Meets (step cfg buff) (Settles cfg buff) {} acts →
      ∀ s, run (step cfg buff) {} acts = some s →
        ∀ id ∈ s.held, ∀ c ∈ s.conn? id, c.spoiled = false) ∧
    (Meets (step cfg buff) (Settles cfg buff) {} acts ↔
      Meets (step cfg buff) (KeptOut cfg buff) {} acts) := by
  have hstep : ∀ s a s', Inv cfg s [] 0 0 ∧ s.Clean → Settles cfg buff s a →
      step cfg buff s a = some s' → Inv cfg s' [] 0 0 ∧ s'.Clean := by
    intro s a s' h ha hs
    exact ⟨h.1.step hs, h.2.step ((settles_keptOut h.1 h.2 a).mp ha) hs⟩
  have hinit : Inv cfg {} [] 0 0 ∧ State.Clean {} :=
    ⟨inv_init cfg, fun _ _ hc => by simp [State.conn?] at hc⟩
  constructor
  · intro hok s hrun id _ c hc
    exact (run_invariant hstep hinit hok hrun).2 id c hc
  · exact Meets.congr hstep (fun _ a h => settles_keptOut h.1 h.2 a) hinit

/-- Ten bytes of a request are written, and the next write fails. -/
def halfSent : Exchange where
  req := {}
  websocket := false
  sends := [10, -1]
  answer := []
  broken := false

/-- The connection of the request is put back, and returned again. -/
def halfSentTwice : List Act :=
  [.getConnection 100000, .go 0 none, .go 0 none, .go 0 none, .go 0 (some 100000), .go 0 none,
   .request 0 halfSent 100001, .go 0 none, .getConnection 100002, .go 0 none, .go 0 none,
   .go 0 none]

theorem halfSent_reused :
    ∃ s, run (step ⟨1000, 5⟩ ⟨100, by decide, by decide⟩) {} halfSentTwice = some s ∧
      0 ∈ s.held ∧ ∃ c ∈ s.conn? 0, c.spoiled = true := by
  have hruns : (run (step ⟨1000, 5⟩ ⟨100, by decide, by decide⟩) {} halfSentTwice).map
      (fun s => (s.held, (s.conn? 0).map HttpConnection.spoiled)) = some ([0], some true) := by
    decide +kernel
  obtain ⟨s, hrun, hs⟩ := Option.map_eq_some_iff.mp hruns
  obtain ⟨hheld, hconn⟩ := Prod.mk.inj hs
  obtain ⟨c, hc, hspoiled⟩ := Option.map_eq_some_iff.mp hconn
  refine ⟨s, hrun, ?_, c, hc, hspoiled⟩
  rw [hheld]
  exact List.mem_singleton_self 0

end Hps.Pool
