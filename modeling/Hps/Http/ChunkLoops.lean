import Hps.Http.ChunkInput

/-!
# HTTP — the chunk loops

What the loops of `recvResponse` make of an input that goes on with a size
line (`recvChunkHead_line`), with something else (`recvChunkHead_fails`), or
with the data of a chunk (`recvChunkData_eq`).
-/

namespace Hps.Http.Response

open Hps.Lib

variable {buff : BuffSize}

/-! ## The line -/

section Line

variable {p : HttpResponseParser}

/-- What a turn of the loop does with what it parsed. -/
def afterParse (buff : BuffSize) (fuel : Nat) (r : HttpResponseParser × List UInt8)
    (s : Socket) : Received (HttpResponseParser × List UInt8) :=
  if r.1.isFinished ≠ 0 then (.ok (some (r.1, r.2)), s)
  else recvChunkHead buff fuel false r.1 r.2 s

/-- A turn parses what is in the buffer, or an arrival. -/
theorem recvChunkHead_turn {i : Input buff} {begins : Bool} (fuel : Nat)
    (hb : begins = true ∨ i.data = []) (hne : i.bytes ≠ []) :
    ∃ i' : Input buff, i'.data ≠ [] ∧ i.Behind 0 i' ∧
      i'.socket.arrivals.length ≤ i.socket.arrivals.length ∧
      (i.data = [] → i'.socket.arrivals.length < i.socket.arrivals.length) ∧
      recvChunkHead buff (fuel + 1) begins p i.data i.socket =
        (parse buff true p i'.data i'.socket).bind (afterParse buff fuel) := by
  by_cases hd : i.data = []
  · obtain ⟨i', hread, hne', hbehind, hlt⟩ := Input.readMore_eq hd hne
    refine ⟨i', hne', hbehind, hlt.le, fun _ => hlt, ?_⟩
    rw [recvChunkHead, if_pos (.inr (by rw [hd]; rfl)), hread]
    rfl
  · refine ⟨i, hd, .refl i, Nat.le_refl _, fun h => absurd h hd, ?_⟩
    have hbegins : begins = true := hb.resolve_right hd
    rw [recvChunkHead, if_neg (by simp [hbegins, hd])]
    rfl

/-- What begins like no line ends the loop. -/
theorem recvChunkHead_fails {i : Input buff} {begins : Bool} {fuel : Nat} {c : UInt8}
    {rest : List UInt8} (hb : begins = true ∨ i.data = []) (hi : i.bytes = c :: rest)
    (hc : xdigit c = false) (hH : c ≠ ch 'H') :
    ∃ s, recvChunkHead buff fuel begins p i.data i.socket = (.ok none, s) := by
  cases fuel with
  | zero => exact ⟨_, rfl⟩
  | succ fuel =>
      obtain ⟨i', hne, hbehind, -, -, hturn⟩ :=
        @recvChunkHead_turn buff p i begins fuel hb (by rw [hi]; simp)
      cases hd : i'.data with
      | nil => exact absurd hd hne
      | cons d ds =>
          have hbytes := hbehind.bytes_eq
          rw [List.drop_zero, Input.bytes, hd, hi, List.cons_append] at hbytes
          obtain ⟨rfl, -⟩ := List.cons.inj hbytes
          rw [hturn, hd, parse_fails buff i'.socket ds hc hH]
          exact ⟨_, rfl⟩

/-- There are turns enough for all arrivals. -/
def Fuelled (i : Input buff) (begins : Bool) (fuel : Nat) : Prop :=
  (i.data = [] ∧ i.socket.arrivals.length < fuel) ∨
    (begins = true ∧ i.socket.arrivals.length + 1 < fuel)

/-- A line that is in the buffer as a whole. -/
theorem afterParse_line {i : Input buff} {ds rest : List UInt8} (fuel : Nat)
    (hp : p.error = 0) (hne : ds ≠ []) (hex : ∀ c ∈ ds, xdigit c = true)
    (hsize : hexValue ds < 2 ^ 31) (hi : i.bytes = ds ++ (crlf ++ rest))
    (hall : ds.length + 2 ≤ i.data.length) :
    ∃ p', (parse buff true p i.data i.socket).bind (afterParse buff fuel) =
        (.ok (some (p', (i.drop (ds.length + 2)).data)), (i.drop (ds.length + 2)).socket) ∧
      Kept p p' ∧ p'.parser.contentLen = hexValue ds ∧
      p'.parser.chunksDone = decide (hexValue ds = 0) := by
  have htake : i.data.take (ds.length + 2) = ds ++ crlf := by
    have := congrArg (List.take (ds.length + 2)) hi
    rw [Input.bytes, List.take_append_of_le_length hall, ← List.append_assoc] at this
    rw [this]
    exact List.take_left' (by simp [crlf])
  have hsplit : i.data = ds ++ crlf ++ i.data.drop (ds.length + 2) := by
    rw [← htake, List.take_append_drop]
  obtain ⟨p', hparse, hkept, hfin, hlen, hdone⟩ := parse_line buff i.socket
    (i.data.drop (ds.length + 2)) hp hne hex hsize (by rw [← hsplit]; exact i.data_le)
  rw [← hsplit] at hparse
  refine ⟨p', ?_, hkept, hlen, hdone⟩
  rw [hparse, Received.bind_some, afterParse, if_pos (by rw [hfin]; decide)]
  rfl

/-- The beginning of a line in the buffer is read and forgotten. -/
theorem afterParse_part {i : Input buff} {ds : List UInt8} (fuel : Nat)
    (hp : p.error = 0) (hne : ds ≠ []) (hex : ∀ c ∈ ds, xdigit c = true)
    (hdata : i.data = ds ∨ i.data = ds ++ [13]) :
    ∃ p', Kept p p' ∧ (parse buff true p i.data i.socket).bind (afterParse buff fuel) =
      recvChunkHead buff fuel false p' (i.drop i.data.length).data
        (i.drop i.data.length).socket := by
  have hempty : (i.drop i.data.length).data = [] := List.drop_length
  obtain ⟨p', hparse, hkept, hfin⟩ := parse_part buff i.socket hp hne hex hdata i.data_le
  refine ⟨p', hkept, ?_⟩
  rw [hparse, Received.bind_some, afterParse, hfin, if_neg (by decide), hempty]
  rfl

/-- A buffer that ends behind the digits leaves the end of the line, which
begins no line. -/
theorem exists_of_lineEnd {i : Input buff} {ds rest : List UInt8}
    (hi : i.bytes = ds ++ (crlf ++ rest)) (hge : ds.length ≤ i.data.length)
    (hlt : i.data.length < ds.length + 2) :
    (i.data = ds ∨ i.data = ds ++ [13]) ∧ ∃ c rest',
      (i.drop i.data.length).bytes = c :: rest' ∧ xdigit c = false ∧ c ≠ ch 'H' := by
  have hbehind := Input.behind_drop (Nat.le_refl i.data.length)
  have htake := congrArg (List.take i.data.length) hi
  rw [Input.bytes, List.take_append_of_le_length (Nat.le_refl _), List.take_length] at htake
  by_cases hlen : i.data.length = ds.length
  · rw [hlen, List.take_left] at htake
    refine ⟨.inl htake, 13, 10 :: rest, ?_, by decide, by decide⟩
    rw [hbehind.bytes_eq, hi, hlen, List.drop_left]
    rfl
  · have hlen' : i.data.length = (ds ++ [13]).length := by
      rw [List.length_append, List.length_singleton]
      omega
    have hsplit : ds ++ (crlf ++ rest) = (ds ++ [13]) ++ 10 :: rest := by
      simp [crlf]
    rw [hlen', hsplit, List.take_left] at htake
    refine ⟨.inr htake, 10, rest, ?_, by decide, by decide⟩
    rw [hbehind.bytes_eq, hi, hlen', hsplit, List.drop_left]

/-- What is read of the size line `ds` if the last read that ends in it ends
behind `m` digits: those are lost, and the number is that of the others. -/
structure ReadsFrom (i : Input buff) (p : HttpResponseParser) (ds : List UInt8) (m : Nat)
    (p' : HttpResponseParser) (i' : Input buff) : Prop where
  lt_length : m < ds.length
  mem_ends : m = 0 ∨ m ∈ i.ends
  last : ∀ q ∈ i.ends, q < ds.length + 2 → q ≤ m
  kept : Kept p p'
  contentLen : p'.parser.contentLen = hexValue (ds.drop m)
  chunksDone : p'.parser.chunksDone = decide (hexValue (ds.drop m) = 0)
  behind : i.Behind (ds.length + 2) i'

/-- A line that is there as a whole loses nothing. -/
theorem ReadsFrom.whole {i i₁ : Input buff} {ds : List UInt8} {p' : HttpResponseParser}
    (hbehind : i.Behind 0 i₁) (hne : ds ≠ []) (hall : ds.length + 2 ≤ i₁.data.length)
    (hkept : Kept p p') (hlen : p'.parser.contentLen = hexValue ds)
    (hdone : p'.parser.chunksDone = decide (hexValue ds = 0)) :
    ReadsFrom i p ds 0 p' (i₁.drop (ds.length + 2)) where
  lt_length := List.length_pos_of_ne_nil hne
  mem_ends := .inl rfl
  last := by
    intro q hq hlt
    by_contra h0
    have := hbehind.length_le_of_mem_ends hq (by omega)
    omega
  kept := hkept
  contentLen := by rw [List.drop_zero, hlen]
  chunksDone := by rw [List.drop_zero, hdone]
  behind := hbehind.drop hall

/-- A read that ends behind `k` of the digits loses them. -/
theorem ReadsFrom.behind_digits {i i₁ i' : Input buff} {ds : List UInt8} {k m : Nat}
    {p₁ p' : HttpResponseParser} (hbehind : i.Behind k i₁) (hmem : k ∈ i.ends)
    (hlt : k < ds.length) (hkept : Kept p p₁) (h : ReadsFrom i₁ p₁ (ds.drop k) m p' i') :
    ReadsFrom i p ds (k + m) p' i' := by
  have hlen : (ds.drop k).length = ds.length - k := List.length_drop
  have hm := h.lt_length
  constructor
  · omega
  · right
    rcases Nat.eq_zero_or_pos m with rfl | h0
    · exact hmem
    · exact (hbehind.mem_ends m h0).mp (h.mem_ends.resolve_left h0.ne')
  · intro q hq hq'
    by_cases hkq : k < q
    · have hends : q - k ∈ i₁.ends := by
        rw [hbehind.mem_ends _ (by omega)]
        rwa [show k + (q - k) = q by omega]
      have := h.last (q - k) hends (by omega)
      omega
    · omega
  · exact hkept.trans h.kept
  · rw [h.contentLen, List.drop_drop]
  · rw [h.chunksDone, List.drop_drop]
  · have := hbehind.trans h.behind
    rwa [show k + ((ds.drop k).length + 2) = ds.length + 2 by omega] at this

/-- A buffer that ends in the digits holds digits only, and the others are
left. -/
theorem digits_of_lt {i : Input buff} {ds rest : List UInt8}
    (hi : i.bytes = ds ++ (crlf ++ rest)) (hlt : i.data.length < ds.length) :
    i.data = ds.take i.data.length ∧
      (i.drop i.data.length).bytes = ds.drop i.data.length ++ (crlf ++ rest) := by
  constructor
  · have := congrArg (List.take i.data.length) hi
    rwa [Input.bytes, List.take_append_of_le_length (Nat.le_refl _), List.take_length,
      List.take_append_of_le_length hlt.le] at this
  · rw [(Input.behind_drop (Nat.le_refl _)).bytes_eq, hi,
      List.drop_append_of_le_length hlt.le]

/-- The turns left are enough for the arrivals behind the first. -/
theorem Fuelled.next {i i₁ : Input buff} {begins : Bool} {fuel : Nat}
    (h : Fuelled i begins (fuel + 1))
    (hle : i₁.socket.arrivals.length ≤ i.socket.arrivals.length)
    (hlt : i.data = [] → i₁.socket.arrivals.length < i.socket.arrivals.length) :
    Fuelled (i₁.drop i₁.data.length) false fuel := by
  refine .inl ⟨List.drop_length, ?_⟩
  show i₁.socket.arrivals.length < fuel
  rcases h with ⟨hd, h⟩ | ⟨-, h⟩
  · have := hlt hd
    omega
  · omega

/-- **The loop over a size line.** The parser forgets what was read before the
last read that ends in the line: nothing is left of it to parse if that read
ends behind the digits, and else the number is that of the digits behind it. -/
theorem recvChunkHead_line {i : Input buff} {begins : Bool} {fuel : Nat}
    {ds rest : List UInt8} (hfuel : Fuelled i begins fuel) (hp : p.error = 0)
    (hne : ds ≠ []) (hex : ∀ c ∈ ds, xdigit c = true) (hsize : hexValue ds < 2 ^ 31)
    (hi : i.bytes = ds ++ (crlf ++ rest)) :
    ((∃ q ∈ i.ends, ds.length ≤ q ∧ q < ds.length + 2) ∧
      ∃ s, recvChunkHead buff fuel begins p i.data i.socket = (.ok none, s)) ∨
    ∃ m p' i', ReadsFrom i p ds m p' i' ∧
      recvChunkHead buff fuel begins p i.data i.socket =
        (.ok (some (p', i'.data)), i'.socket) := by
  -- a turn that does not see the end of the line leaves the rest of the digits
  -- to the next, as a line of its own
  induction fuel generalizing i ds p begins with
  | zero => rcases hfuel with ⟨-, h⟩ | ⟨-, h⟩ <;> omega
  | succ fuel ih =>
      have hb : begins = true ∨ i.data = [] := hfuel.symm.imp And.left And.left
      obtain ⟨i₁, hne₁, hbehind, hle, hlt, hturn⟩ :=
        @recvChunkHead_turn buff p i begins fuel hb (by rw [hi]; simp [crlf])
      have hbytes : i₁.bytes = ds ++ (crlf ++ rest) := by
        rw [← hi, hbehind.bytes_eq, List.drop_zero]
      have hfirst := hbehind.length_mem_ends hne₁
      by_cases hall : ds.length + 2 ≤ i₁.data.length
      · -- the whole line is there
        obtain ⟨p', hparse, hkept, hlen, hdone⟩ :=
          afterParse_line fuel hp hne hex hsize hbytes hall
        exact .inr ⟨0, p', _, .whole hbehind hne hall hkept hlen hdone, hturn.trans hparse⟩
      by_cases hdigits : i₁.data.length < ds.length
      · -- some of the digits are lost, and the loop goes on
        obtain ⟨hdata, hbytes₂⟩ := digits_of_lt hbytes hdigits
        obtain ⟨p₁, hkept₁, hrun⟩ := afterParse_part fuel hp (hdata ▸ hne₁)
          (fun c hc => hex c (List.mem_of_mem_take hc)) (.inl hdata)
        have hbehind₂ := hbehind.drop (Nat.le_refl i₁.data.length)
        rcases ih (hfuel.next hle hlt) (hkept₁.1.trans hp) (by simpa using hdigits)
          (fun c hc => hex c (List.mem_of_mem_drop hc))
          ((hexValue_drop_le ds _).trans_lt hsize) hbytes₂ with
          ⟨⟨q, hq, hq1, hq2⟩, hnone⟩ | ⟨m, p', i', hreads, hsome⟩
        · left
          rw [List.length_drop] at hq1 hq2
          refine ⟨⟨_, (hbehind₂.mem_ends q (by omega)).mp hq, by omega, by omega⟩, ?_⟩
          rwa [hturn, hrun]
        · right
          refine ⟨_, p', i', hreads.behind_digits hbehind₂ hfirst hdigits hkept₁, ?_⟩
          rw [hturn, hrun, hsome]
      · -- the digits are lost, and the CR or the LF begins no line
        left
        obtain ⟨hdata, c, rest', hbytes₂, hc, hH⟩ :=
          exists_of_lineEnd hbytes (by omega) (by omega)
        obtain ⟨p₁, -, hrun⟩ := afterParse_part fuel hp hne hex hdata
        refine ⟨⟨_, hfirst, by omega, by omega⟩, ?_⟩
        rw [hturn, hrun]
        exact recvChunkHead_fails (.inr List.drop_length) hbytes₂ hc hH

end Line

/-! ## The data -/

/-- `while(left > 0)` reads what it was asked for, if it comes. -/
theorem readLeft_eq {fuel left : Nat} {body : List UInt8} {s : Socket}
    (hc : s.connected = true) (hfuel : left ≤ fuel) (hleft : left ≤ s.bytes.length) :
    readLeft buff fuel left body s =
      (.ok (some (body ++ s.bytes.take left)), s.skip left) := by
  induction fuel generalizing left body s with
  | zero =>
      obtain rfl := Nat.le_zero.mp hfuel
      rw [readLeft, Socket.skip_zero, List.take_zero, List.append_nil]
  | succ fuel ih =>
      by_cases h0 : left = 0
      · rw [readLeft, if_pos h0, h0, Socket.skip_zero, List.take_zero, List.append_nil]
      · have hbuff := buff.pos
        set m := if left > buff.size then buff.size else left with hm
        have hm0 : 0 < m := by
          rw [hm]
          split <;> omega
        have hmle : m ≤ left := by
          rw [hm]
          split <;> omega
        have hne : s.bytes ≠ [] := List.ne_nil_of_length_pos (by omega)
        obtain ⟨k, hk, hkm, hkbytes, hrecv⟩ := Socket.recv_some hc hm0 hne
        have hlen : (s.bytes.take k).length = k := List.length_take_of_le hkbytes
        have hrest : left - k ≤ (s.skip k).bytes.length := by
          rw [Socket.bytes_skip, List.length_drop]
          omega
        rw [readLeft, if_neg h0, ← hm, hrecv]
        simp only [hlen]
        rw [if_neg (by omega), ih (s := s.skip k) hc (by omega) hrest, Socket.skip_skip,
          Socket.bytes_skip, List.append_assoc, ← List.take_add,
          show k + (left - k) = left by omega]

/-- **The data of a chunk** and the two bytes behind it, wherever the reads
end. -/
theorem recvChunkData_eq {i : Input buff} (body : List UInt8) {data two rest : List UInt8}
    (hsize : data.length + 2 < 2 ^ 31) (htwo : two.length = 2)
    (hi : i.bytes = data ++ (two ++ rest)) :
    ∃ i' : Input buff, recvChunkData buff data.length body i.data i.socket =
        (.ok (some (body ++ data, i'.data)), i'.socket) ∧
      i.Behind (data.length + 2) i' := by
  have hover : ¬(2 ^ 31 ≤ (data.length : Int) + 2) := by omega
  by_cases hall : data.length + 2 ≤ i.data.length
  · -- all of it is in the buffer
    have htake : i.data.take data.length = data := by
      have := congrArg (List.take data.length) hi
      rwa [Input.bytes, List.take_append_of_le_length (by omega), List.take_left] at this
    refine ⟨i.drop (data.length + 2), ?_, Input.behind_drop hall⟩
    rw [recvChunkData, if_neg hover, if_pos (by omega), if_neg (by omega), Int.toNat_natCast,
      htake]
    rfl
  · -- the rest of it is read, and the line end cut off
    set left := data.length + 2 - i.data.length with hleft
    have htotal : i.data ++ i.socket.bytes.take left = data ++ two := by
      have hlen : (data ++ two).length = i.data.length + left := by
        rw [List.length_append, htwo]
        omega
      have := congrArg (List.take (i.data.length + left)) hi
      rwa [Input.bytes, List.take_length_add_append, ← List.append_assoc,
        List.take_left' hlen] at this
    have henough : left ≤ i.socket.bytes.length := by
      have := congrArg List.length hi
      simp only [Input.bytes, List.length_append, htwo] at this
      omega
    have hint : ((data.length : Int) - i.data.length + 2).toNat = left := by omega
    have hbehind := i.behind_skip left
    rw [show i.data.length + left = data.length + 2 by omega] at hbehind
    refine ⟨i.skip left, ?_, hbehind⟩
    rw [recvChunkData, if_neg hover, if_neg (by omega)]
    simp only [hint]
    rw [readLeft_eq i.connected (Nat.le_refl left) henough, Received.bind_some,
      List.append_assoc, htotal,
      if_neg (by simp only [List.length_append, htwo]; omega), ← List.append_assoc]
    have hcut : (body ++ data ++ two).take ((body ++ data ++ two).length - 2) =
        body ++ data := by
      rw [List.length_append, htwo, Nat.add_sub_cancel, List.take_left]
    rw [hcut]
    rfl

end Hps.Http.Response
