import Mathlib.Data.List.TakeDrop
import Hps.Http.Session

/-!
# HTTP — receiving a number of bytes

What a socket still holds after `n` bytes were taken from it (`skip`), however
many reads took them: one `recv` (`recv_eq`), or the loop of `readFixSize`
(`readFixSize_eq`). `recvBody_eq` is the part of `recvRequest` behind the
head: the bytes of the body that came with the head, and those that are read.
-/

namespace Hps.Http

/-! ## Arrivals -/

@[ext] theorem Arrival.ext {a a' : Arrival} (h : a.bytes = a'.bytes) : a = a' := by
  cases a
  cases a'
  cases h
  rfl

/-- What is left of an arrival. -/
def Arrival.drop (a : Arrival) (n : Nat) (h : n < a.bytes.length) : Arrival where
  bytes := a.bytes.drop n
  nonempty := by simpa using h
  fits := by
    have := a.fits
    rw [List.length_drop]
    omega

/-- The arrivals behind the first `n` bytes. -/
def skip : Nat → List Arrival → List Arrival
  | _, [] => []
  | n, a :: as =>
      if h : n < a.bytes.length then a.drop n h :: as
      else skip (n - a.bytes.length) as

/-- The bytes of the arrivals. -/
def flat (as : List Arrival) : List UInt8 := (as.map Arrival.bytes).flatten

@[simp] theorem flat_nil : flat [] = [] := rfl

@[simp] theorem flat_cons (a : Arrival) (as : List Arrival) :
    flat (a :: as) = a.bytes ++ flat as := rfl

theorem length_le_flat (fs : List Arrival) : fs.length ≤ (flat fs).length := by
  induction fs with
  | nil => exact Nat.le_refl 0
  | cons a fs ih =>
      have := List.length_pos_of_ne_nil a.nonempty
      rw [flat_cons, List.length_append, List.length_cons]
      omega

theorem Socket.bytes_eq (s : Socket) : s.bytes = flat s.arrivals := rfl

@[simp] theorem skip_zero (as : List Arrival) : skip 0 as = as := by
  cases as with
  | nil => rfl
  | cons a as =>
      rw [skip, dif_pos (List.length_pos_of_ne_nil a.nonempty)]
      rfl

theorem skip_skip (m n : Nat) (as : List Arrival) :
    skip m (skip n as) = skip (n + m) as := by
  induction as generalizing n with
  | nil => rfl
  | cons a as ih =>
      by_cases hn : n < a.bytes.length
      · have hlen : (a.drop n hn).bytes.length = a.bytes.length - n := List.length_drop
        rw [skip.eq_2 n, dif_pos hn, skip, skip]
        by_cases hm : n + m < a.bytes.length
        · rw [dif_pos hm, dif_pos (by omega)]
          congr 1
          ext1
          exact List.drop_drop
        · rw [dif_neg hm, dif_neg (by omega), hlen]
          congr 1
          omega
      · rw [skip, skip, dif_neg hn, dif_neg (by omega), ih]
        congr 1
        omega

theorem flat_skip (n : Nat) (as : List Arrival) :
    flat (skip n as) = (flat as).drop n := by
  induction as generalizing n with
  | nil => simp [skip]
  | cons a as ih =>
      rw [skip, flat_cons, List.drop_append]
      split
      · rename_i h
        rw [flat_cons, Nat.sub_eq_zero_of_le h.le, List.drop_zero]
        rfl
      · rename_i h
        rw [ih, List.drop_eq_nil_of_le (Nat.le_of_not_lt h), List.nil_append]

/-! ## Reads -/

namespace Socket

variable {s : Socket}

/-- The socket behind its first `n` bytes. -/
def skip (s : Socket) (n : Nat) : Socket :=
  { s with arrivals := Http.skip n s.arrivals }

@[simp] theorem skip_connected (s : Socket) (n : Nat) :
    (s.skip n).connected = s.connected := rfl

@[simp] theorem skip_arrivals (s : Socket) (n : Nat) :
    (s.skip n).arrivals = Http.skip n s.arrivals := rfl

theorem skip_zero (s : Socket) : s.skip 0 = s := by
  rw [skip, Http.skip_zero]

theorem skip_skip (s : Socket) (m n : Nat) : (s.skip n).skip m = s.skip (n + m) := by
  rw [skip, skip_arrivals, Http.skip_skip]
  rfl

theorem bytes_skip (s : Socket) (n : Nat) : (s.skip n).bytes = s.bytes.drop n :=
  flat_skip n s.arrivals

/-- **One read** hands out the first bytes of the first arrival. -/
theorem recv_eq {a : Arrival} {as : List Arrival} {m : Nat}
    (hs : s.arrivals = a :: as) (hc : s.connected = true) (hm : 0 < m) :
    s.recv m = (((min m a.bytes.length : Nat) : Int), a.bytes.take m,
      s.skip (min m a.bytes.length)) := by
  have hm0 : m ≠ 0 := Nat.ne_of_gt hm
  simp only [recv, hc, not_true_eq_false, if_false, hm0, hs, skip]
  by_cases h : m < a.bytes.length
  · rw [dif_pos h, Nat.min_eq_left h.le, Http.skip, dif_pos h]
    rfl
  · rw [dif_neg h, Nat.min_eq_right (Nat.le_of_not_lt h), Http.skip,
      dif_neg (Nat.lt_irrefl _), Nat.sub_self, Http.skip_zero,
      List.take_of_length_le (Nat.le_of_not_lt h)]

/-- A read hands out some of the next bytes, if there are any. -/
theorem recv_some {m : Nat} (hc : s.connected = true) (hm : 0 < m) (hne : s.bytes ≠ []) :
    ∃ k : Nat, 0 < k ∧ k ≤ m ∧ k ≤ s.bytes.length ∧
      s.recv m = ((k : Int), s.bytes.take k, s.skip k) := by
  cases hs : s.arrivals with
  | nil =>
      rw [bytes_eq, hs] at hne
      exact absurd rfl hne
  | cons a as =>
      have ha := List.length_pos_of_ne_nil a.nonempty
      have hle : min m a.bytes.length ≤ a.bytes.length := Nat.min_le_right _ _
      refine ⟨min m a.bytes.length, by omega, Nat.min_le_left _ _, ?_, ?_⟩
      · rw [bytes_eq, hs, flat_cons, List.length_append]
        omega
      · rw [recv_eq hs hc hm, bytes_eq, hs, flat_cons,
          List.take_append_of_le_length hle, ← List.take_eq_take_min]

/-- What a read hands out are the next bytes. -/
theorem recv_pos {n : Nat} (h : 0 < (s.recv n).1) :
    s.connected = true ∧ ∃ k : Nat, 0 < k ∧ k ≤ n ∧ k ≤ s.bytes.length ∧
      s.recv n = ((k : Int), s.bytes.take k, s.skip k) := by
  cases hc : s.connected with
  | false => simp [recv, hc] at h
  | true =>
      rcases Nat.eq_zero_or_pos n with rfl | hn
      · simp [recv, hc] at h
      · refine ⟨rfl, recv_some hc hn ?_⟩
        intro hnil
        cases hs : s.arrivals with
        | nil =>
            have hn0 : n ≠ 0 := Nat.ne_of_gt hn
            simp only [recv, hc, hs, hn0, not_true_eq_false, if_false] at h
            split at h <;> omega
        | cons a as =>
            rw [bytes_eq, hs, flat_cons] at hnil
            exact a.nonempty (List.append_eq_nil_iff.mp hnil).1

/-- A read fails or ends the stream, or hands out the next bytes. -/
theorem recv_cases (s : Socket) (n : Nat) :
    (∃ rt got t, s.recv n = (rt, got, t) ∧ rt ≤ 0) ∨
      s.connected = true ∧ ∃ k : Nat, 0 < k ∧ k ≤ n ∧ k ≤ s.bytes.length ∧
        s.recv n = ((k : Int), s.bytes.take k, s.skip k) := by
  by_cases h : 0 < (s.recv n).1
  · exact .inr (recv_pos h)
  · exact .inl ⟨_, _, _, rfl, Int.not_lt.mp h⟩

/-- The loop of `readFixSize` reads what it was asked for, if it comes. -/
theorem readLoop_eq {fuel left : Nat} {got : List UInt8} (hc : s.connected = true)
    (hfuel : left ≤ fuel) (hleft : left ≤ s.bytes.length) :
    readLoop fuel s left got = (none, got ++ s.bytes.take left, s.skip left) := by
  induction fuel generalizing s left got with
  | zero =>
      obtain rfl := Nat.le_zero.mp hfuel
      rw [readLoop, skip_zero, List.take_zero, List.append_nil]
  | succ fuel ih =>
      by_cases h0 : left = 0
      · rw [readLoop, if_pos h0, h0, skip_zero, List.take_zero, List.append_nil]
      · have hne : s.bytes ≠ [] := List.ne_nil_of_length_pos (by omega)
        obtain ⟨k, hk, hkleft, hkbytes, hrecv⟩ := recv_some hc (Nat.pos_of_ne_zero h0) hne
        have hlen : (s.bytes.take k).length = k := List.length_take_of_le hkbytes
        have hrest : left - k ≤ (s.skip k).bytes.length := by
          rw [bytes_skip, List.length_drop]
          omega
        rw [readLoop, if_neg h0, hrecv]
        simp only [hlen]
        rw [if_neg (by omega), ih (s := s.skip k) hc (by omega) hrest, skip_skip,
          bytes_skip, List.append_assoc, ← List.take_add,
          show k + (left - k) = left by omega]

theorem readFixSize_eq {length : Nat} (hc : s.connected = true)
    (hlen : length ≤ s.bytes.length) :
    s.readFixSize length =
      (toInt32 length, s.bytes.take length, s.skip length) := by
  rw [readFixSize, readLoop_eq hc le_rfl hlen, List.nil_append]

end Socket

/-! ## Bodies -/

namespace Request

/-- The request with what `recvRequest` sets of the body `c`. -/
def withBody (r : HttpRequest) (c : List UInt8) : HttpRequest :=
  if c = [] then r else r.setBody c

/-- **The body** is what came with the head, and what is read behind it. What
is left to read has to be positive as an `int`. -/
theorem recvBody_eq {h : Head} {s : Socket} {front rest : List UInt8}
    (hlen : toInt64 h.parser.getContentLength = ((front ++ rest).length : Nat))
    (hfront : h.data.take front.length = front) (hoff : h.offset = front.length)
    (hs : s.connected = true) (hrest : rest <+: s.bytes)
    (hfit : rest = [] ∨ 0 < toInt32 rest.length) :
    recvBody h s =
      (some (withBody h.parser.data (front ++ rest)).init, s.skip rest.length) := by
  have hmin : min (((front ++ rest).length : Nat) : Int).toNat front.length =
      front.length := by
    rw [List.length_append]
    omega
  have hleft : (((front ++ rest).length : Nat) : Int) - (front.length : Nat) =
      (rest.length : Nat) := by
    rw [List.length_append]
    omega
  simp only [recvBody, hlen, hoff, hmin, hfront, hleft, withBody]
  by_cases hc : front ++ rest = []
  · obtain ⟨rfl, rfl⟩ := List.append_eq_nil_iff.mp hc
    simp [s.skip_zero]
  · have hpos := List.length_pos_of_ne_nil hc
    rw [if_pos (by omega), if_neg hc]
    rcases hfit with rfl | hfit
    · simp [s.skip_zero]
    · have hne : 0 < rest.length := by
        refine Nat.pos_of_ne_zero fun h0 => ?_
        rw [h0] at hfit
        exact absurd hfit (by decide)
      have hread := Socket.readFixSize_eq hs (hrest.length_le)
      rw [if_pos (by omega), Int.toNat_natCast, hread,
        ← List.prefix_iff_eq_take.mp hrest]
      exact if_neg (by omega)

end Request

end Hps.Http
