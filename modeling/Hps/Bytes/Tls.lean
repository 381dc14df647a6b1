import Hps.Bytes.Transfer
import Hps.Lib.Integers

/-!
# Bytes — vectored transfers over TLS

`SSLSocket::recv` and `send` of several buffers make one call of the library
for each buffer, and `SocketStream` moves the position of a `ByteArray` on by
what they return. A call that fails behind others hides what these moved:
`tls_accounted_iff` says for which results of the calls every byte is counted.
-/

namespace Hps.Bytes

open Hps.Lib
open Hps.Lib.Integers (toInt toInt_lt toInt_eq_self toInt_natCast_le)

/-! ## The functions -/

/-- What the `turn`-th call of the library does when it is asked for `num`
bytes. -/
structure Ssl where
  /-- `SSL_write`, which returns how many bytes it took. -/
  write : (turn : Nat) → (num : Int) → Int
  write_le : ∀ turn num, 0 < write turn num → write turn num ≤ num
  /-- `SSL_read`: the bytes, whose number it returns, or what it returns
  instead. -/
  read : (turn : Nat) → (num : Int) → Except Int (List UInt8)
  read_ok : ∀ {turn num bytes}, read turn num = .ok bytes → bytes ≠ [] ∧ bytes.length ≤ num
  read_error : ∀ {turn num rt}, read turn num = .error rt → rt ≤ 0

/-- What `SSL_read` returns. -/
def Ssl.readReturn (ssl : Ssl) (turn : Nat) (num : Int) : Int :=
  match ssl.read turn num with
  | .ok bytes => bytes.length
  | .error rt => rt

namespace SSLSocket

/-- `SSL_read(m_ssl.get(), iov_base, iov_len)` -/
def sslRead (ssl : Ssl) (v : IoVec) : Io Int := fun w =>
  match ssl.read w.turn (toInt v.len) with
  | .error rt => .ok rt { w with turn := w.turn + 1 }
  | .ok bytes =>
      .ok bytes.length { w with
        array := { w.array with nodes := v.copy w.array.nodes bytes }
        turn := w.turn + 1
        received := w.received ++ bytes }

/-- `SSL_write(m_ssl.get(), iov_base, iov_len)` -/
def sslWrite (ssl : Ssl) (v : IoVec) : Io Int := fun w =>
  let rt := ssl.write w.turn (toInt v.len)
  .ok rt { w with
    turn := w.turn + 1
    sent := w.sent ++ (v.bytes w.array.nodes).take rt.toNat }

/-- The loop over the buffers; `total` is an `int`. -/
def vectored (io : IoVec → Io Int) : List IoVec → Int → Io Int
  | [], total => pure total
  | v :: vs, total => do
      let tmp ← io v
      if tmp ≤ 0 then pure tmp
      else
        let total := toInt (total + tmp)
        if tmp ≠ toInt v.len then pure total else vectored io vs total

/-- `recv(iovec *, size_t)`; its `m_ssl` is `none` before the handshake. -/
def recv (session : Option Ssl) (buffers : List IoVec) : Io Int :=
  match session with
  | none => pure (-1)
  | some ssl => vectored (sslRead ssl) buffers 0

/-- `send(const iovec *, size_t)` -/
def send (session : Option Ssl) (buffers : List IoVec) : Io Int :=
  match session with
  | none => pure (-1)
  | some ssl => vectored (sslWrite ssl) buffers 0

end SSLSocket

namespace SocketStream

/-- `read(ByteArray::ptr, size_t)` of an `SSLSocket`. -/
def readTls (session : Option Ssl) (length : Nat) : Io Int := do
  let w ← get
  if w.connected then
    let (iovs, _) ← onArray (getWriteBuffers [] length)
    advance (SSLSocket.recv session iovs)
  else pure (-1)

/-- `write(ByteArray::ptr, size_t)` of an `SSLSocket`. -/
def writeTls (session : Option Ssl) (length : Nat) : Io Int := do
  let w ← get
  if w.connected then
    let (iovs, _) ← onArray (getReadBuffers [] length)
    advance (SSLSocket.send session iovs)
  else pure (-1)

end SocketStream

/-! ## The calls that are made -/

/-- What the calls return, up to the first that does not fill its buffer. -/
def made (ret : Nat → Int → Int) (turn : Nat) : List IoVec → List Int
  | [] => []
  | v :: vs =>
      let rt := ret turn (toInt v.len)
      rt :: if 0 < rt ∧ rt = toInt v.len then made ret (turn + 1) vs else []

/-- The calls of `SSL_read`. -/
def readsMade (session : Option Ssl) (turn : Nat) (buffers : List IoVec) : List Int :=
  session.elim [] fun ssl => made ssl.readReturn turn buffers

/-- The calls of `SSL_write`. -/
def writesMade (session : Option Ssl) (turn : Nat) (buffers : List IoVec) : List Int :=
  session.elim [] fun ssl => made ssl.write turn buffers

/-- How many bytes the calls move. -/
def moved (rts : List Int) : Nat := (rts.map Int.toNat).sum

/-- No call but the first fails, and an `int` can hold the number of bytes. -/
def Steady (rts : List Int) : Prop := (∀ rt ∈ rts.tail, 0 < rt) ∧ moved rts < 2 ^ 31

/-- The result tells how many bytes were moved. -/
def Accounted (n : Nat) (rt : Int) : Prop := (0 < n → rt = n) ∧ (rt ≤ 0 → n = 0)

/-- What a loop that adds up such results returns. -/
def addUp (total : Int) : List Int → Int
  | [] => total
  | rt :: rts => if rt ≤ 0 then rt else addUp (toInt (total + rt)) rts

theorem moved_cons (rt : Int) (rts : List Int) : moved (rt :: rts) = rt.toNat + moved rts := by
  rw [moved, List.map_cons, List.sum_cons, moved]

theorem moved_concat {rts : List Int} {rt : Int} (h : rt ≤ 0) : moved (rts ++ [rt]) = moved rts := by
  rw [moved, List.map_append, List.sum_append, List.map_singleton, List.sum_singleton,
    Int.toNat_of_nonpos h, Nat.add_zero, moved]

theorem addUp_pos {rts : List Int} (h : ∀ rt ∈ rts, 0 < rt) (n : Nat) :
    addUp (toInt n) rts = toInt (n + moved rts : Nat) := by
  induction rts generalizing n with
  | nil => rfl
  | cons rt rts ih =>
      obtain ⟨hrt, hrts⟩ := List.forall_mem_cons.mp h
      have hsum : toInt n + rt = toInt n + (rt.toNat : Int) := by omega
      rw [addUp, if_neg (by omega), hsum, Integers.toInt_toInt_add, ← Int.natCast_add, ih hrts,
        moved_cons, Nat.add_assoc]

theorem addUp_concat {rts : List Int} {rt : Int} (h : ∀ r ∈ rts, 0 < r) (hrt : rt ≤ 0)
    (total : Int) : addUp total (rts ++ [rt]) = rt := by
  induction rts generalizing total with
  | nil =>
      rw [List.nil_append, addUp, if_pos hrt]
  | cons r rts ih =>
      obtain ⟨hr, hrts⟩ := List.forall_mem_cons.mp h
      rw [List.cons_append, addUp, if_neg (by omega)]
      exact ih hrts _

/-- A call that fails is the last one. -/
theorem made_cases (ret : Nat → Int → Int) (turn : Nat) (vs : List IoVec) :
    ∃ rts : List Int, (∀ rt ∈ rts, 0 < rt) ∧
      (made ret turn vs = rts ∨ ∃ rt, rt ≤ 0 ∧ made ret turn vs = rts ++ [rt]) := by
  induction vs generalizing turn with
  | nil => exact ⟨[], nofun, .inl rfl⟩
  | cons v vs ih =>
      rw [made]
      by_cases hpos : 0 < ret turn (toInt v.len)
      · by_cases hfull : ret turn (toInt v.len) = toInt v.len
        · obtain ⟨rts, hrts, hmade⟩ := ih (turn + 1)
          refine ⟨ret turn (toInt v.len) :: rts, List.forall_mem_cons.mpr ⟨hpos, hrts⟩, ?_⟩
          rw [if_pos ⟨hpos, hfull⟩]
          rcases hmade with hmade | ⟨rt, hrt, hmade⟩
          · exact .inl (by rw [hmade])
          · exact .inr ⟨rt, hrt, by rw [hmade, List.cons_append]⟩
        · refine ⟨[ret turn (toInt v.len)], List.forall_mem_singleton.mpr hpos, .inl ?_⟩
          rw [if_neg fun h => hfull h.2]
      · refine ⟨[], nofun, .inr ⟨ret turn (toInt v.len), by omega, ?_⟩⟩
        rw [if_neg fun h => hpos h.1]
        rfl

/-- **Accounting**, for the results that the calls of one loop can have. -/
theorem accounted_iff (ret : Nat → Int → Int) (turn : Nat) (vs : List IoVec) :
    Accounted (moved (made ret turn vs)) (addUp 0 (made ret turn vs)) ↔
      Steady (made ret turn vs) := by
  obtain ⟨rts, hrts, hmade | ⟨rt, hrt, hmade⟩⟩ := made_cases ret turn vs
  · have hsum : addUp 0 rts = toInt (moved rts) := by
      have h := addUp_pos hrts 0
      rwa [Int.natCast_zero, toInt_eq_self (by decide) (by decide), Nat.zero_add] at h
    rw [hmade, hsum, Accounted, Steady]
    have hlt := toInt_lt (moved rts)
    constructor
    · rintro ⟨hall, -⟩
      refine ⟨fun rt h => hrts rt (List.mem_of_mem_tail h), ?_⟩
      by_contra hbig
      have := hall (by omega)
      omega
    · rintro ⟨-, hfits⟩
      rw [toInt_eq_self (by omega) (by omega)]
      exact ⟨fun _ => rfl, fun h => by omega⟩
  · rw [hmade, addUp_concat hrts hrt, moved_concat hrt, Accounted, Steady, moved_concat hrt]
    cases rts with
    | nil => exact ⟨fun _ => ⟨nofun, by decide⟩, fun _ => ⟨fun h => absurd h (by decide), fun _ => rfl⟩⟩
    | cons r rts =>
        obtain ⟨hr, -⟩ := List.forall_mem_cons.mp hrts
        have hpos : 0 < moved (r :: rts) := by
          rw [moved_cons]
          omega
        constructor
        · intro h
          have := h.1 hpos
          omega
        · intro h
          have := h.1 rt (List.mem_append_right rts List.mem_cons_self)
          omega

/-- The result is never more than what was moved. -/
theorem addUp_made_le (ret : Nat → Int → Int) (turn : Nat) (vs : List IoVec) :
    addUp 0 (made ret turn vs) ≤ moved (made ret turn vs) := by
  obtain ⟨rts, hrts, hmade | ⟨rt, hrt, hmade⟩⟩ := made_cases ret turn vs
  · have h := addUp_pos hrts 0
    rw [Int.natCast_zero, toInt_eq_self (by decide) (by decide), Nat.zero_add] at h
    rw [hmade, h]
    exact toInt_natCast_le
  · rw [hmade, addUp_concat hrts hrt]
    omega

/-- What is to be known of a result and of the number of bytes that were
moved by the calls. -/
structure Returned (calls : List Int) (n : Nat) (rt : Int) : Prop where
  accounted : Accounted n rt ↔ Steady calls
  advances : rt.toNat = n ↔ Steady calls
  le : rt ≤ n

theorem made_returned (ret : Nat → Int → Int) (turn : Nat) (vs : List IoVec) :
    Returned (made ret turn vs) (moved (made ret turn vs)) (addUp 0 (made ret turn vs)) := by
  have hle := addUp_made_le ret turn vs
  have hiff := accounted_iff ret turn vs
  refine ⟨hiff, ?_, hle⟩
  rw [← hiff, Accounted]
  omega

/-- Without a session nothing is called. -/
theorem none_returned : Returned [] 0 (-1) where
  accounted := by simp [Accounted, Steady, moved]
  advances := by simp [Steady, moved]
  le := by decide

theorem moved_made_le {ret : Nat → Int → Int} (hret : ∀ turn num, 0 < ret turn num → ret turn num ≤ num)
    (turn : Nat) (vs : List IoVec) : moved (made ret turn vs) ≤ totalLen vs := by
  induction vs generalizing turn with
  | nil => exact Nat.le_refl 0
  | cons v vs ih =>
      have hle := hret turn (toInt v.len)
      have hlen := @toInt_natCast_le v.len
      have hrest := ih (turn + 1)
      rw [made, moved_cons, totalLen_cons]
      split
      · omega
      · rw [show moved [] = 0 from rfl]
        omega

/-! ## The loop -/

/-- **The loop rule.** `Ok vs w` holds when the buffers `vs` are still to
come, and `count` is how many bytes were moved so far. -/
theorem vectored_made {io : IoVec → Io Int} {ret : Nat → Int → Int} {count : Wire → Nat}
    {Ok : List IoVec → Wire → Prop}
    (hturn : ∀ {v vs w}, Ok (v :: vs) w → ∃ w', io v w = .ok (ret w.turn (toInt v.len)) w' ∧
      w'.turn = w.turn + 1 ∧ count w' = count w + (ret w.turn (toInt v.len)).toNat ∧ Ok vs w')
    {vs : List IoVec} {w : Wire} (hok : Ok vs w) (total : Int) :
    ∃ w' vs', SSLSocket.vectored io vs total w = .ok (addUp total (made ret w.turn vs)) w' ∧
      count w' = count w + moved (made ret w.turn vs) ∧ Ok vs' w' := by
  induction vs generalizing w total with
  | nil => exact ⟨w, [], rfl, rfl, hok⟩
  | cons v vs ih =>
      obtain ⟨w₁, hio, hnext, hcount, hok₁⟩ := hturn hok
      rw [SSLSocket.vectored, io_bind_ok hio, made]
      dsimp only
      revert hcount
      generalize ret w.turn (toInt v.len) = rt
      intro hcount
      by_cases hfail : rt ≤ 0
      · refine ⟨w₁, vs, ?_, ?_, hok₁⟩
        · rw [if_pos hfail, addUp, if_pos hfail]
          rfl
        · rw [if_neg fun h => absurd hfail (Int.not_le.mpr h.1), hcount, moved_cons]
          rfl
      · have hpos : 0 < rt := Int.not_le.mp hfail
        rw [if_neg hfail, addUp, if_neg hfail, moved_cons]
        by_cases hfull : rt = toInt v.len
        · obtain ⟨w', vs', hloop, hcount', hok'⟩ := ih hok₁ (toInt (total + rt))
          rw [hnext] at hloop hcount'
          refine ⟨w', vs', ?_, ?_, hok'⟩
          · rw [if_neg (not_not_intro hfull), if_pos ⟨hpos, hfull⟩]
            exact hloop
          · rw [if_pos ⟨hpos, hfull⟩, hcount', hcount, Nat.add_assoc]
        · refine ⟨w₁, vs, ?_, ?_, hok₁⟩
          · rw [if_pos hfull, if_neg fun h => hfull h.2]
            rfl
          · rw [if_neg fun h => hfull h.2, hcount]
            rfl

/-! ## The two directions -/

theorem sslRead_turn (ssl : Ssl) (v : IoVec) (w : Wire) :
    ∃ w' bytes, SSLSocket.sslRead ssl v w =
        .ok (ssl.readReturn w.turn (toInt v.len)) w' ∧
      w'.turn = w.turn + 1 ∧ w'.received = w.received ++ bytes ∧
      bytes.length = (ssl.readReturn w.turn (toInt v.len)).toNat ∧ bytes.length ≤ v.len ∧
      w'.array = { w.array with nodes := fillBytes w.array.nodes [v] bytes } := by
  rw [SSLSocket.sslRead, Ssl.readReturn]
  cases hread : ssl.read w.turn (toInt v.len) with
  | error rt =>
      have hrt := ssl.read_error hread
      refine ⟨_, [], rfl, rfl, (List.append_nil _).symm, ?_, Nat.zero_le _, ?_⟩
      · rw [Int.toNat_of_nonpos hrt, List.length_nil]
      · have hcopy : (fun n : Node => splice n v.base []) = id := funext fun _ => splice_nil
        rw [fillBytes, fillBytes, IoVec.copy, List.take_nil, hcopy, List.modify_id]
  | ok bytes =>
      obtain ⟨-, hle⟩ := ssl.read_ok hread
      have hlen := @toInt_natCast_le v.len
      have hfit : bytes.length ≤ v.len := by omega
      refine ⟨_, bytes, rfl, rfl, rfl, (Int.toNat_natCast _).symm, hfit, ?_⟩
      rw [fillBytes, fillBytes, List.take_of_length_le hfit]

theorem sslWrite_turn (ssl : Ssl) {v : IoVec} {w : Wire} (hv : v.Within w.array.nodes) :
    ∃ w', SSLSocket.sslWrite ssl v w = .ok (ssl.write w.turn (toInt v.len)) w' ∧
      w'.turn = w.turn + 1 ∧
      w'.sent.length = w.sent.length + (ssl.write w.turn (toInt v.len)).toNat ∧
      w'.array = w.array := by
  refine ⟨_, rfl, rfl, ?_, rfl⟩
  have hle := ssl.write_le w.turn (toInt v.len)
  have hlen := @toInt_natCast_le v.len
  have hbytes : (v.bytes w.array.nodes).length = v.len := by
    have := hv.2
    rw [IoVec.bytes, List.length_take, List.length_drop]
    omega
  dsimp only
  rw [List.length_append, List.length_take, hbytes, Nat.min_eq_left (by omega)]

/-- The buffers of an array and what the loop keeps of it. -/
structure Filling (b : ByteArray) (vs : List IoVec) (w : Wire) : Prop where
  wf : Wf w.array
  position : w.array.position = b.position
  capacity : w.array.capacity = b.capacity
  consecutive : ∃ p, Consecutive w.array.baseSize p vs
  inside : ∀ v ∈ vs, v.node < w.array.nodes.length

theorem Filling.next {b : ByteArray} {v : IoVec} {vs : List IoVec} {w w' : Wire}
    {bytes : List UInt8} (h : Filling b (v :: vs) w)
    (harray : w'.array = { w.array with nodes := fillBytes w.array.nodes [v] bytes }) :
    Filling b vs w' := by
  obtain ⟨p, hbase, hfit, hrest⟩ := h.consecutive
  have hone : Consecutive w.array.baseSize p [v] := ⟨hbase, hfit, trivial⟩
  have hnode : ∀ u ∈ [v], u.node < w.array.nodes.length :=
    List.forall_mem_singleton.mpr (h.inside v List.mem_cons_self)
  refine ⟨?_, ?_, ?_, ?_, ?_⟩
  · rw [harray]
    exact h.wf.fill hone hnode bytes
  · rw [harray]
    exact h.position
  · rw [harray]
    exact h.capacity
  · rw [harray]
    exact ⟨p + v.len, hrest⟩
  · intro u hu
    rw [harray]
    dsimp only
    rw [fillBytes_length]
    exact h.inside u (List.mem_cons_of_mem v hu)

theorem recv_returned (session : Option Ssl) (buffers : List IoVec) (w : Wire) :
    ∃ rt w' n, SSLSocket.recv session buffers w = .ok rt w' ∧
      w'.received.length = w.received.length + n ∧
      Returned (readsMade session w.turn buffers) n rt ∧ n ≤ totalLen buffers ∧
      ∀ b, Filling b buffers w → ∃ vs, Filling b vs w' := by
  cases session with
  | none => exact ⟨-1, w, 0, rfl, rfl, none_returned, Nat.zero_le _, fun _ h => ⟨buffers, h⟩⟩
  | some ssl =>
      obtain ⟨w', vs', hloop, hcount, hfilling⟩ := @vectored_made (SSLSocket.sslRead ssl)
        ssl.readReturn (fun w => w.received.length)
        (fun vs w' => ∀ b, Filling b buffers w → Filling b vs w')
        (fun {v vs w₁} h => by
          obtain ⟨w', bytes, hread, hturn, hreceived, hlen, -, harray⟩ := sslRead_turn ssl v w₁
          exact ⟨w', hread, hturn, by rw [hreceived, List.length_append, hlen],
            fun b hb => (h b hb).next harray⟩)
        buffers w (fun _ h => h) 0
      have hret : ∀ turn num, 0 < ssl.readReturn turn num → ssl.readReturn turn num ≤ num := by
        intro turn num
        rw [Ssl.readReturn]
        cases hread : ssl.read turn num with
        | error rt =>
            have := ssl.read_error hread
            dsimp only
            omega
        | ok bytes => exact fun _ => (ssl.read_ok hread).2
      exact ⟨_, w', _, hloop, hcount, made_returned ssl.readReturn w.turn buffers,
        moved_made_le hret w.turn buffers, fun b hb => ⟨vs', hfilling b hb⟩⟩

theorem send_returned (session : Option Ssl) {buffers : List IoVec} {w : Wire}
    (hbuffers : ∀ v ∈ buffers, v.Within w.array.nodes) :
    ∃ rt w' n, SSLSocket.send session buffers w = .ok rt w' ∧
      w'.sent.length = w.sent.length + n ∧
      Returned (writesMade session w.turn buffers) n rt ∧ n ≤ totalLen buffers ∧
      w'.array = w.array := by
  cases session with
  | none => exact ⟨-1, w, 0, rfl, rfl, none_returned, Nat.zero_le _, rfl⟩
  | some ssl =>
      obtain ⟨w', -, hloop, hcount, harray, -⟩ := @vectored_made (SSLSocket.sslWrite ssl)
        ssl.write (fun w => w.sent.length)
        (fun vs w' => w'.array = w.array ∧ ∀ v ∈ vs, v.Within w.array.nodes)
        (fun {v vs w₁} h => by
          obtain ⟨harray, hall⟩ := h
          obtain ⟨w', hwrite, hturn, hsent, harray'⟩ :=
            sslWrite_turn ssl (w := w₁) (by rw [harray]; exact hall v List.mem_cons_self)
          exact ⟨w', hwrite, hturn, hsent, harray'.trans harray,
            fun u hu => hall u (List.mem_cons_of_mem v hu)⟩)
        buffers w ⟨rfl, hbuffers⟩ 0
      exact ⟨_, w', _, hloop, hcount, made_returned ssl.write w.turn buffers,
        moved_made_le ssl.write_le w.turn buffers, harray⟩

/-! ## The position -/

/-- The position is moved on by the result, if that is positive. -/
theorem advance_toNat {io : Io Int} {rt : Int} {w w' : Wire} (hio : io w = .ok rt w')
    (hw : Wf w'.array) (hroom : w'.array.position + rt.toNat ≤ w'.array.capacity) :
    ∃ w'', SocketStream.advance io w = .ok rt w'' ∧
      w''.array.position = w'.array.position + rt.toNat ∧ w''.sent = w'.sent ∧
      w''.received = w'.received := by
  by_cases hrt : rt ≤ 0
  · refine ⟨w', ?_, by rw [Int.toNat_of_nonpos hrt, Nat.add_zero], rfl, rfl⟩
    rw [SocketStream.advance, io_bind_ok hio, if_neg (by omega)]
    rfl
  · have hnat : ((rt.toNat : Nat) : Int) = rt := Int.toNat_of_nonneg (by omega)
    rw [← hnat] at hio
    have hadvance := advance_ok (by omega) hio (setPosition_eq hw hroom)
    rw [hnat] at hadvance
    exact ⟨_, hadvance, rfl, rfl, rfl⟩

theorem readTls_position (session : Option Ssl) (length : Nat) {w : Wire} (h : Wf w.array)
    (hconn : w.connected = true) :
    ∃ iovs, getWriteBuffers [] length w.array = .ok (iovs, length) (w.array.addCapacity length) ∧
      ∃ rt w' n, SocketStream.readTls session length w = .ok rt w' ∧
        w'.received.length = w.received.length + n ∧
        (w'.array.position = w.array.position + n ↔ Steady (readsMade session w.turn iovs)) := by
  obtain ⟨iovs, hiovs, hcons, htotal, hnode⟩ := getWriteBuffers_eq [] h length
  obtain ⟨hgrown, hroom, -⟩ := addCapacity_refines (n := length) h.refines
  have hpos := addCapacity_position w.array length
  obtain ⟨rt, w₁, n, hrecv, hreceived, hret, hle, hfilling⟩ :=
    recv_returned session iovs { w with array := w.array.addCapacity length }
  rw [← addCapacity_baseSize w.array length] at hcons
  obtain ⟨vs, hfilled⟩ := hfilling (w.array.addCapacity length)
    ⟨hgrown.wf, rfl, rfl, ⟨_, hcons⟩, hnode⟩
  have hpos₁ := hfilled.position
  have hcap₁ := hfilled.capacity
  have hrt := hret.le
  obtain ⟨w', hadvance, hposition, -, hreceived'⟩ :=
    advance_toNat hrecv hfilled.wf (by omega)
  have hget : (get : Io Wire) w = .ok w w := rfl
  refine ⟨iovs, hiovs, rt, w', n, ?_, by rw [hreceived', hreceived], ?_⟩
  · rw [SocketStream.readTls, io_bind_ok hget, if_pos hconn, io_bind_ok (onArray_ok hiovs)]
    exact hadvance
  · rw [hposition, hpos₁, hpos, Nat.add_left_cancel_iff]
    exact hret.advances

theorem writeTls_position (session : Option Ssl) (length : Nat) {w : Wire} (h : Wf w.array)
    (hconn : w.connected = true) :
    ∃ iovs s, getReadBuffers [] length w.array = .ok (iovs, s) w.array ∧
      ∃ rt w' n, SocketStream.writeTls session length w = .ok rt w' ∧
        w'.sent.length = w.sent.length + n ∧
        (w'.array.position = w.array.position + n ↔ Steady (writesMade session w.turn iovs)) := by
  obtain ⟨iovs, hiovs, hcons, htotal, hnode⟩ := getReadBuffers_eq [] h length
  obtain ⟨rt, w₁, n, hsend, hsent, hret, hle, harray⟩ :=
    send_returned session (hcons.within h.blocks hnode)
  have hsize := h.size_le
  have hplace := h.position_le
  have hrt := hret.le
  have hread : min length w.array.getReadSize ≤ w.array.size - w.array.position :=
    Nat.min_le_right _ _
  obtain ⟨w', hadvance, hposition, hsent', -⟩ :=
    advance_toNat hsend (by rw [harray]; exact h) (by rw [harray]; omega)
  have hget : (get : Io Wire) w = .ok w w := rfl
  refine ⟨iovs, _, hiovs, rt, w', n, ?_, by rw [hsent', hsent], ?_⟩
  · rw [SocketStream.writeTls, io_bind_ok hget, if_pos hconn, io_bind_ok (onArray_ok hiovs)]
    exact hadvance
  · rw [hposition, harray, Nat.add_left_cancel_iff]
    exact hret.advances

/-- **Every byte is counted** exactly if no call but the first fails and an
`int` can hold the number of bytes. The result then tells it, and the position
of an array is moved on by it; and otherwise neither. -/
theorem tls_accounted_iff (session : Option Ssl) :
    (∀ (buffers : List IoVec) (w : Wire), (∀ v ∈ buffers, v.Within w.array.nodes) →
      (∃ rt w' n, SSLSocket.recv session buffers w = .ok rt w' ∧
        w'.received.length = w.received.length + n ∧
        (Accounted n rt ↔ Steady (readsMade session w.turn buffers))) ∧
      (∃ rt w' n, SSLSocket.send session buffers w = .ok rt w' ∧
        w'.sent.length = w.sent.length + n ∧
        (Accounted n rt ↔ Steady (writesMade session w.turn buffers)))) ∧
    (∀ (length : Nat) (w : Wire), Reachable w.array → w.connected = true →
      (∃ iovs b, getWriteBuffers [] length w.array = .ok (iovs, length) b ∧
        ∃ rt w' n, SocketStream.readTls session length w = .ok rt w' ∧
          w'.received.length = w.received.length + n ∧
          (w'.array.position = w.array.position + n ↔ Steady (readsMade session w.turn iovs))) ∧
      (∃ iovs s, getReadBuffers [] length w.array = .ok (iovs, s) w.array ∧
        ∃ rt w' n, SocketStream.writeTls session length w = .ok rt w' ∧
          w'.sent.length = w.sent.length + n ∧
          (w'.array.position = w.array.position + n ↔
            Steady (writesMade session w.turn iovs)))) := by
  constructor
  · intro buffers w hbuffers
    obtain ⟨rt, w', n, hrecv, hreceived, hret, -⟩ := recv_returned session buffers w
    obtain ⟨rt', w'', n', hsend, hsent, hret', -⟩ := send_returned session hbuffers
    exact ⟨⟨rt, w', n, hrecv, hreceived, hret.accounted⟩,
      rt', w'', n', hsend, hsent, hret'.accounted⟩
  · intro length w hreach hconn
    obtain ⟨iovs, hiovs, hread⟩ := readTls_position session length hreach.wf hconn
    exact ⟨⟨iovs, _, hiovs, hread⟩, writeTls_position session length hreach.wf hconn⟩

/-- A session that moves two bytes at its first call, and then blocks. -/
def twoBytes : Ssl where
  write turn num := if turn = 0 ∧ 2 ≤ num then 2 else -1
  write_le := by
    intro turn num
    split <;> omega
  read turn num := if turn = 0 ∧ 2 ≤ num then .ok [1, 2] else .error (-1)
  read_ok := by
    intro turn num bytes h
    split at h
    · rename_i hn
      obtain rfl := Except.ok.inj h
      exact ⟨by decide, hn.2⟩
    · cases h
  read_error := by
    intro turn num rt h
    split at h
    · cases h
    · obtain rfl := Except.error.inj h
      decide

/-- An empty array of one block. -/
def twoBlock : ByteArray := .new (fun _ _ => 0) 2

theorem twoBytes_accounted :
    (∃ rt w' n, SSLSocket.recv (some twoBytes) [⟨0, 0, 2⟩] { array := twoBlock } = .ok rt w' ∧
      w'.received.length = 0 + n ∧ Accounted n rt) ∧
    ∃ rt w' n, SocketStream.readTls (some twoBytes) 2 { array := twoBlock } = .ok rt w' ∧
      w'.received.length = 0 + n ∧ w'.array.position = 0 + n := by
  have hwithin : ∀ v ∈ [(⟨0, 0, 2⟩ : IoVec)], v.Within twoBlock.nodes := by
    intro v hv
    rw [List.mem_singleton.mp hv]
    exact ⟨by decide, by decide⟩
  have hreach : Reachable twoBlock := ⟨fun _ _ => 0, 2, [], by decide, rfl⟩
  obtain ⟨hvectors, hstreams⟩ := tls_accounted_iff (some twoBytes)
  obtain ⟨⟨rt, w', n, hrecv, hreceived, hiff⟩, -⟩ := hvectors _ { array := twoBlock } hwithin
  obtain ⟨⟨iovs, b, hiovs, rt', w'', n', hread, hreceived', hiff'⟩, -⟩ :=
    hstreams 2 { array := twoBlock } hreach rfl
  have hwhole : getWriteBuffers [] 2 twoBlock = .ok ([⟨0, 0, 2⟩], 2) twoBlock := rfl
  obtain rfl : iovs = [⟨0, 0, 2⟩] :=
    congrArg Prod.fst (EStateM.Result.ok.inj (hiovs.symm.trans hwhole)).1
  refine ⟨⟨rt, w', n, hrecv, hreceived, hiff.mpr ?_⟩,
    rt', w'', n', hread, hreceived', hiff'.mpr ?_⟩
  · rw [Steady]
    decide +kernel
  · rw [Steady]
    decide +kernel

/-- Two buffers of two bytes: the first is filled, the second blocks. -/
theorem twoBytes_unaccounted : ¬∀ (session : Option Ssl) (buffers : List IoVec) (w w' : Wire)
    (rt : Int) (n : Nat), (∀ v ∈ buffers, 0 < v.len ∧ v.Within w.array.nodes) →
      SSLSocket.recv session buffers w = .ok rt w' →
      w'.received.length = w.received.length + n → Accounted n rt := by
  intro h
  have hbuffers : ∀ v ∈ [(⟨0, 0, 2⟩ : IoVec), ⟨1, 0, 2⟩],
      0 < v.len ∧ v.Within (twoBlock.addCapacity 4).nodes := by
    intro v hv
    rcases List.mem_pair.mp hv with rfl | rfl
    · exact ⟨by decide, by decide, by decide⟩
    · exact ⟨by decide, by decide, by decide⟩
  obtain ⟨rt, w', n, hrecv, hreceived, hret, -⟩ :=
    recv_returned (some twoBytes) [⟨0, 0, 2⟩, ⟨1, 0, 2⟩] { array := twoBlock.addCapacity 4 }
  have hsteady := hret.accounted.mp (h _ _ _ w' rt n hbuffers hrecv hreceived)
  revert hsteady
  rw [Steady]
  decide +kernel

end Hps.Bytes
