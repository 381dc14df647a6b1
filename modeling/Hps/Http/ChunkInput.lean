import Hps.Http.ChunkLines
import Hps.Http.Receiving

/-!
# HTTP — what is left to read of chunks

What `recvResponse` has still to read is what its buffer holds and what the
socket will hand out (`Input`). `Input.Behind` says that bytes of it were
taken, and keeps book of where the reads end, however many reads it took.
-/

namespace Hps.Http.Response

open Hps.Lib

/-! ## Where reads end -/

/-- The positions at which pieces of these lengths end. -/
def ends : List Nat → List Nat
  | [] => []
  | n :: ns => n :: (ends ns).map (n + ·)

theorem mem_ends_cons {n q : Nat} {ns : List Nat} :
    q ∈ ends (n :: ns) ↔ q = n ∨ ∃ e ∈ ends ns, n + e = q := by
  simp [ends]

/-- No piece ends before the first one. -/
theorem le_of_mem_ends {n q : Nat} {ns : List Nat} (h : q ∈ ends (n :: ns)) : n ≤ q := by
  rcases mem_ends_cons.mp h with rfl | ⟨e, -, rfl⟩
  · exact Nat.le_refl q
  · exact Nat.le_add_right n e

/-- The lengths of the arrivals. -/
def lengths (as : List Arrival) : List Nat := as.map fun a => a.bytes.length

/-- The ends behind the first piece, counted from a place in it. -/
theorem ends_sub {k n q : Nat} (ns : List Nat) (hk : k ≤ n) :
    q ∈ ends ((n - k) :: ns) ↔ k + q ∈ ends (n :: ns) := by
  rw [mem_ends_cons, mem_ends_cons]
  constructor
  · rintro (rfl | ⟨e, he, rfl⟩)
    · exact .inl (by omega)
    · exact .inr ⟨e, he, by omega⟩
  · rintro (h | ⟨e, he, h⟩)
    · exact .inl (by omega)
    · exact .inr ⟨e, he, by omega⟩

theorem ends_skip {q : Nat} (hq : 0 < q) (m : Nat) (as : List Arrival) :
    q ∈ ends (lengths (skip m as)) ↔ m + q ∈ ends (lengths as) := by
  induction as generalizing m with
  | nil => simp [skip, lengths, ends]
  | cons a as ih =>
      rw [skip]
      split
      · rename_i hm
        have hlen : lengths (a.drop m hm :: as) = (a.bytes.length - m) :: lengths as := by
          simp [lengths, Arrival.drop]
        rw [hlen, ends_sub _ hm.le]
        rfl
      · rename_i hm
        have hcons : lengths (a :: as) = a.bytes.length :: lengths as := rfl
        rw [ih, hcons, mem_ends_cons]
        constructor
        · intro h
          exact .inr ⟨_, h, by omega⟩
        · rintro (h | ⟨e, he, h⟩)
          · omega
          · rwa [show m - a.bytes.length + q = e by omega]

/-! ## Inputs -/

/-- What is left to read; every read fits in the buffer. -/
structure Input (buff : BuffSize) where
  data : List UInt8
  socket : Socket
  connected : socket.connected = true
  data_le : data.length ≤ buff.size
  arrivals_le : ∀ a ∈ socket.arrivals, a.bytes.length ≤ buff.size

namespace Input

variable {buff : BuffSize} {i i₁ i₂ : Input buff}

def bytes (i : Input buff) : List UInt8 := i.data ++ i.socket.bytes

/-- Where a read ends, counted from the first byte that is left. -/
def ends (i : Input buff) : List Nat :=
  Response.ends (i.data.length :: lengths i.socket.arrivals)

/-- `i'` is what is left of `i` behind its first `k` bytes. -/
structure Behind (i : Input buff) (k : Nat) (i' : Input buff) : Prop where
  bytes_eq : i'.bytes = i.bytes.drop k
  mem_ends : ∀ q, 0 < q → (q ∈ i'.ends ↔ k + q ∈ i.ends)

theorem Behind.refl (i : Input buff) : i.Behind 0 i :=
  ⟨rfl, fun q _ => by rw [Nat.zero_add]⟩

theorem Behind.trans {k k' : Nat} (h : i.Behind k i₁) (h' : i₁.Behind k' i₂) :
    i.Behind (k + k') i₂ := by
  constructor
  · rw [h'.bytes_eq, h.bytes_eq, List.drop_drop]
  · intro q hq
    rw [h'.mem_ends q hq, h.mem_ends _ (by omega), Nat.add_assoc]

/-- Bytes of the buffer. -/
def drop (i : Input buff) (k : Nat) : Input buff where
  data := i.data.drop k
  socket := i.socket
  connected := i.connected
  data_le := by
    have := i.data_le
    rw [List.length_drop]
    omega
  arrivals_le := i.arrivals_le

theorem behind_drop {k : Nat} (hk : k ≤ i.data.length) : i.Behind k (i.drop k) := by
  constructor
  · rw [bytes, bytes, drop, List.drop_append_of_le_length hk]
  · intro q _
    rw [ends, ends, drop, List.length_drop]
    exact ends_sub _ hk

/-- The buffer that a turn begins with ends where a read does, and none ends
before. -/
theorem Behind.length_mem_ends (h : i.Behind 0 i₁) (hne : i₁.data ≠ []) :
    i₁.data.length ∈ i.ends := by
  have hpos := List.length_pos_of_ne_nil hne
  rw [← Nat.zero_add i₁.data.length, ← h.mem_ends _ hpos]
  exact List.mem_cons_self

theorem Behind.length_le_of_mem_ends (h : i.Behind 0 i₁) {q : Nat} (hq : q ∈ i.ends)
    (h0 : 0 < q) : i₁.data.length ≤ q := by
  rw [← Nat.zero_add q, ← h.mem_ends q h0] at hq
  exact le_of_mem_ends hq

theorem Behind.drop (h : i.Behind 0 i₁) {k : Nat} (hk : k ≤ i₁.data.length) :
    i.Behind k (i₁.drop k) := by
  have := h.trans (behind_drop hk)
  rwa [Nat.zero_add] at this

/-- What is left of arrivals is no longer than they were. -/
theorem skip_le {n m : Nat} {as : List Arrival} (h : ∀ a ∈ as, a.bytes.length ≤ n) :
    ∀ a ∈ skip m as, a.bytes.length ≤ n := by
  induction as generalizing m with
  | nil => simp [skip]
  | cons a as ih =>
      obtain ⟨ha, has⟩ := List.forall_mem_cons.mp h
      rw [skip]
      split
      · intro b hb
        rcases List.mem_cons.mp hb with rfl | hb
        · rw [Arrival.drop, List.length_drop]
          omega
        · exact has b hb
      · exact ih has

/-- All of the buffer, and bytes of the socket. -/
def skip (i : Input buff) (m : Nat) : Input buff where
  data := []
  socket := i.socket.skip m
  connected := i.connected
  data_le := Nat.zero_le _
  arrivals_le := skip_le i.arrivals_le

theorem behind_skip (i : Input buff) (m : Nat) :
    i.Behind (i.data.length + m) (i.skip m) := by
  constructor
  · rw [bytes, bytes, skip, List.nil_append, Socket.bytes_skip, ← List.drop_drop,
      List.drop_left]
  · intro q hq
    have hskip : q ∈ (i.skip m).ends ↔ m + q ∈ Response.ends (lengths i.socket.arrivals) := by
      rw [← ends_skip hq, ends, mem_ends_cons]
      constructor
      · rintro (h | ⟨e, he, rfl⟩)
        · exact absurd h hq.ne'
        · rwa [show (i.skip m).data.length + e = e from Nat.zero_add e]
      · exact fun h => .inr ⟨q, h, Nat.zero_add q⟩
    rw [hskip, ends, mem_ends_cons]
    constructor
    · exact fun h => .inr ⟨_, h, by omega⟩
    · rintro (h | ⟨e, he, h⟩)
      · omega
      · rwa [show m + q = e by omega]

variable (buff) in
/-- **A read into the empty buffer** brings an arrival. -/
theorem readMore_cons {s : Socket} {a : Arrival} {as : List Arrival}
    (hs : s.arrivals = a :: as) (hc : s.connected = true)
    (ha : a.bytes.length ≤ buff.size) :
    readMore buff [] s = (.ok (some a.bytes), { s with arrivals := as }) := by
  have hpos := List.length_pos_of_ne_nil a.nonempty
  have hskip : s.skip a.bytes.length = { s with arrivals := as } := by
    rw [Socket.skip, hs, Http.skip, dif_neg (Nat.lt_irrefl _), Nat.sub_self, skip_zero]
  have hrecv := Socket.recv_eq hs hc buff.pos
  rw [Nat.min_eq_right ha, List.take_of_length_le ha, hskip] at hrecv
  simp only [readMore, List.length_nil, Nat.sub_zero, hrecv]
  rw [if_neg (by omega), List.nil_append]

theorem readMore_eq (hdata : i.data = []) (hne : i.bytes ≠ []) :
    ∃ i' : Input buff, readMore buff i.data i.socket = (.ok (some i'.data), i'.socket) ∧
      i'.data ≠ [] ∧ i.Behind 0 i' ∧
      i'.socket.arrivals.length < i.socket.arrivals.length := by
  cases has : i.socket.arrivals with
  | nil =>
      rw [bytes, hdata, Socket.bytes_eq, has] at hne
      exact absurd rfl hne
  | cons a as =>
      have hle := i.arrivals_le
      rw [has] at hle
      obtain ⟨ha, has'⟩ := List.forall_mem_cons.mp hle
      refine ⟨⟨a.bytes, { i.socket with arrivals := as }, i.connected, ha, has'⟩, ?_,
        a.nonempty, ⟨?_, ?_⟩, Nat.lt_succ_self _⟩
      · rw [hdata, readMore_cons buff has i.connected ha]
      · rw [bytes, bytes, hdata, Socket.bytes_eq, Socket.bytes_eq, has, flat_cons]
        rfl
      · intro q hq
        have hends : i.ends = Response.ends (0 :: lengths (a :: as)) := by
          rw [ends, hdata, has]
          rfl
        rw [Nat.zero_add, hends, mem_ends_cons (n := 0)]
        constructor
        · exact fun h => .inr ⟨q, h, Nat.zero_add q⟩
        · rintro (h | ⟨e, he, h⟩)
          · exact absurd h hq.ne'
          · rwa [show q = e by omega]

end Input

end Hps.Http.Response
