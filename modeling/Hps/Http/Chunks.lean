import Hps.Http.ChunkLoops

/-!
# HTTP — chunked bodies

Chunks as a peer sends them behind a head that announces them, the reads they
arrive in, and when `recvResponse` puts them together again: exactly if no
read ends inside a size line, behind a digit that counts
(`chunks_decoded_iff`).
-/

namespace Hps.Http.Response

open Hps.Lib
open Hps.Lib.Integers (forall_byte)

/-! ## Chunks -/

/-- The size of a chunk in hexadecimal digits, from 1 to `2^31 - 3`. -/
structure SizeLine where
  digits : List UInt8
  hex : ∀ c ∈ digits, xdigit c = true
  pos : 0 < hexValue digits
  fits : hexValue digits ≤ 2 ^ 31 - 3

def SizeLine.size (l : SizeLine) : Nat := hexValue l.digits

structure Chunk where
  line : SizeLine
  data : List UInt8
  length_data : data.length = line.size

def Chunk.bytes (c : Chunk) : List UInt8 :=
  c.line.digits ++ (crlf ++ (c.data ++ crlf))

/-- `0 CRLF CRLF` -/
def lastChunk : List UInt8 := [ch '0'] ++ (crlf ++ crlf)

/-- The chunks as they are sent. -/
def encode : List Chunk → List UInt8
  | [] => lastChunk
  | c :: cs => c.bytes ++ encode cs

/-- What they say. -/
def decoded (cs : List Chunk) : List UInt8 := cs.flatMap Chunk.data

/-! ## Reads -/

/-- The zeros that a number begins with, the last digit apart. -/
def leadingZeros (ds : List UInt8) : Nat :=
  min (ds.takeWhile (· == ch '0')).length (ds.length - 1)

/-- A read that ends at `q` ends inside the line, behind a digit that
counts. -/
def InLine (ds : List UInt8) (q : Nat) : Prop :=
  leadingZeros ds < q ∧ q < ds.length + 2

/-- The length of a chunk with its size line. -/
def SizeLine.chunkLength (l : SizeLine) : Nat := l.digits.length + 2 + (l.size + 2)

/-- A read that ends at `q` ends inside of one of the lines. -/
def CutsLine : List SizeLine → Nat → Prop
  | [], q => InLine [ch '0'] q
  | l :: ls, q => InLine l.digits q ∨ (l.chunkLength < q ∧ CutsLine ls (q - l.chunkLength))

/-- The length of the chunks as they are sent. -/
def encodedLength (ls : List SizeLine) : Nat :=
  (ls.map SizeLine.chunkLength).sum + lastChunk.length

/-- A head that announces chunks. -/
structure ChunkedHead extends Head where
  announced : toHead.Chunked

/-- How the bytes behind a head are split into reads: `first` of them come with
the head, which is not split itself. No read is larger than the buffer. -/
structure Split (buff : BuffSize) (head total : Nat) where
  first : Nat
  rest : List Nat
  first_le : head + first ≤ buff.size
  rest_pos : ∀ n ∈ rest, 0 < n
  rest_le : ∀ n ∈ rest, n ≤ buff.size
  sum_eq : first + rest.sum = total

/-- Where the reads end. -/
def Split.ends {buff : BuffSize} {head total : Nat} (r : Split buff head total) : List Nat :=
  Response.ends (r.first :: r.rest)

/-- The socket hands out the head and the chunks in these reads. -/
structure Delivers {buff : BuffSize} (h : ChunkedHead) (cs : List Chunk) {total : Nat}
    (r : Split buff h.bytes.length total) (s : Socket) : Prop where
  connected : s.connected = true
  bytes_eq : s.bytes = h.bytes ++ encode cs
  lengths_eq : lengths s.arrivals = (h.bytes.length + r.first) :: r.rest

/-- `recvResponse` returns a response with the chunks in its body. -/
def Decodes (buff : BuffSize) (cs : List Chunk) (s : Socket) : Prop :=
  ∃ r s', recvResponse buff s = (.ok (some r), s') ∧ r.body = decoded cs

/-! ## Digits -/

section Digits

variable {ds : List UInt8}

theorem leadingZeros_lt (hne : ds ≠ []) : leadingZeros ds < ds.length := by
  have := List.length_pos_of_ne_nil hne
  unfold leadingZeros
  omega

theorem digitValue_eq_zero {c : UInt8} :
    xdigit c = true → (digitValue c).getD 0 = 0 → c = ch '0' :=
  forall_byte
    (P := fun c => xdigit c = true → (digitValue c).getD 0 = 0 → c = ch '0')
    (by decide +kernel) c

theorem hexValue_cons (c : UInt8) (cs : List UInt8) :
    hexValue (c :: cs) = (digitValue c).getD 0 * 16 ^ cs.length + hexValue cs := by
  rw [show c :: cs = [c] ++ cs from rfl, hexValue_append]
  simp [hexValue]

theorem hexValue_eq_zero (hex : ∀ c ∈ ds, xdigit c = true) :
    hexValue ds = 0 ↔ ∀ c ∈ ds, (c == ch '0') = true := by
  induction ds with
  | nil => simp [hexValue]
  | cons c cs ih =>
      obtain ⟨hc, hcs⟩ := List.forall_mem_cons.mp hex
      rw [hexValue_cons, List.forall_mem_cons, ← ih hcs, Nat.add_eq_zero_iff,
        Nat.mul_eq_zero, beq_iff_eq]
      have hpow : 16 ^ cs.length ≠ 0 := pow_ne_zero _ (by decide)
      constructor
      · rintro ⟨h | h, hrest⟩
        · exact ⟨digitValue_eq_zero hc h, hrest⟩
        · exact absurd h hpow
      · rintro ⟨rfl, hrest⟩
        exact ⟨.inl rfl, hrest⟩

theorem le_takeWhile_iff {p : UInt8 → Bool} {m : Nat} (hm : m ≤ ds.length) :
    m ≤ (ds.takeWhile p).length ↔ ∀ c ∈ ds.take m, p c = true := by
  induction ds generalizing m with
  | nil =>
      obtain rfl := Nat.le_zero.mp hm
      simp
  | cons c cs ih =>
      cases m with
      | zero => simp
      | succ m =>
          rw [List.take_succ_cons, List.forall_mem_cons,
            ← ih (Nat.le_of_succ_le_succ hm), List.takeWhile_cons]
          split
          · rename_i hc
            simp [hc]
          · rename_i hc
            simp [hc]

/-- The zeros that a number begins with may be lost. -/
theorem hexValue_drop_zeros (hex : ∀ c ∈ ds, xdigit c = true) {m : Nat}
    (hm : m ≤ leadingZeros ds) : hexValue (ds.drop m) = hexValue ds := by
  have hle : m ≤ ds.length := by
    unfold leadingZeros at hm
    omega
  have hzeros : ∀ c ∈ ds.take m, (c == ch '0') = true :=
    (le_takeWhile_iff hle).mp (hm.trans (Nat.min_le_left _ _))
  have hzero : hexValue (ds.take m) = 0 :=
    (hexValue_eq_zero fun c hc => hex c (List.mem_of_mem_take hc)).mpr hzeros
  have h := hexValue_append (ds.take m) (ds.drop m)
  rw [List.take_append_drop, hzero] at h
  omega

/-- Without a digit that counts, a number is smaller by more than a digit. -/
theorem hexValue_drop_lt (hex : ∀ c ∈ ds, xdigit c = true) {m : Nat}
    (hm : leadingZeros ds < m) (hlt : m < ds.length) :
    hexValue (ds.drop m) + 16 ≤ hexValue ds := by
  have hpos : 0 < hexValue (ds.take m) := by
    by_contra h0
    have hzeros := (hexValue_eq_zero fun c hc => hex c (List.mem_of_mem_take hc)).mp
      (Nat.eq_zero_of_not_pos h0)
    have := (le_takeWhile_iff hlt.le).mpr hzeros
    unfold leadingZeros at hm
    omega
  have h := hexValue_append (ds.take m) (ds.drop m)
  rw [List.take_append_drop] at h
  have hpow : 16 ^ 1 ≤ 16 ^ (ds.drop m).length := by
    apply Nat.pow_le_pow_right (by decide)
    rw [List.length_drop]
    omega
  have hmul : 1 * 16 ^ 1 ≤ hexValue (ds.take m) * 16 ^ (ds.drop m).length :=
    Nat.mul_le_mul hpos hpow
  omega

end Digits

/-! ## One chunk -/

section Turn

variable {buff : BuffSize} {i : Input buff} {p : HttpResponseParser}

theorem fuelled (i : Input buff) : Fuelled i true (i.socket.bytes.length + 2) := by
  have := length_le_flat i.socket.arrivals
  rw [← Socket.bytes_eq] at this
  exact .inr ⟨rfl, by omega⟩

/-- The size line, if no read ends inside of it. -/
theorem line_whole {ds rest : List UInt8} (hp : p.error = 0) (hne : ds ≠ [])
    (hex : ∀ c ∈ ds, xdigit c = true) (hsize : hexValue ds < 2 ^ 31)
    (hi : i.bytes = ds ++ (crlf ++ rest)) (hcut : ∀ q ∈ i.ends, ¬InLine ds q) :
    ∃ p' i', recvChunkHead buff (i.socket.bytes.length + 2) true p i.data i.socket =
        (.ok (some (p', i'.data)), i'.socket) ∧ Kept p p' ∧
      p'.parser.contentLen = hexValue ds ∧
      p'.parser.chunksDone = decide (hexValue ds = 0) ∧
      i.Behind (ds.length + 2) i' := by
  rcases recvChunkHead_line (fuelled i) hp hne hex hsize hi with
    ⟨⟨q, hq, hq1, hq2⟩, -⟩ | ⟨m, p', i', hreads, hsome⟩
  · exact absurd ⟨(leadingZeros_lt hne).trans_le hq1, hq2⟩ (hcut q hq)
  · have hm : m ≤ leadingZeros ds := by
      rcases hreads.mem_ends with rfl | hmem
      · exact Nat.zero_le _
      · by_contra hm
        have := hreads.lt_length
        refine hcut m hmem ⟨Nat.lt_of_not_le hm, ?_⟩
        omega
    have hlen := hreads.contentLen
    have hdone := hreads.chunksDone
    rw [hexValue_drop_zeros hex hm] at hlen hdone
    exact ⟨p', i', hsome, hreads.kept, hlen, hdone, hreads.behind⟩

/-- The size line, if a read ends inside of it: an error, or a smaller number. -/
theorem line_cut {ds rest : List UInt8} (hp : p.error = 0) (hne : ds ≠ [])
    (hex : ∀ c ∈ ds, xdigit c = true) (hsize : hexValue ds < 2 ^ 31)
    (hi : i.bytes = ds ++ (crlf ++ rest)) (hcut : ∃ q ∈ i.ends, InLine ds q) :
    (∃ s, recvChunkHead buff (i.socket.bytes.length + 2) true p i.data i.socket =
      (.ok none, s)) ∨
    ∃ n p' i', n + 16 ≤ hexValue ds ∧
      recvChunkHead buff (i.socket.bytes.length + 2) true p i.data i.socket =
        (.ok (some (p', i'.data)), i'.socket) ∧ Kept p p' ∧
      p'.parser.contentLen = n ∧ p'.parser.chunksDone = decide (n = 0) ∧
      i.Behind (ds.length + 2) i' := by
  obtain ⟨q, hq, hq1, hq2⟩ := hcut
  rcases recvChunkHead_line (fuelled i) hp hne hex hsize hi with
    ⟨-, hnone⟩ | ⟨m, p', i', hreads, hsome⟩
  · exact .inl hnone
  · have hzeros : leadingZeros ds < m := hq1.trans_le (hreads.last q hq hq2)
    exact .inr ⟨_, p', i', hexValue_drop_lt hex hzeros hreads.lt_length, hsome, hreads.kept,
      hreads.contentLen, hreads.chunksDone, hreads.behind⟩

end Turn

/-! ## All chunks -/

theorem SizeLine.digits_ne (l : SizeLine) : l.digits ≠ [] := by
  intro h
  have := l.pos
  rw [h] at this
  exact absurd this (by decide)

theorem SizeLine.size_lt (l : SizeLine) : hexValue l.digits < 2 ^ 31 := by
  have := l.fits
  omega

theorem CutsLine.pos {ls : List SizeLine} {q : Nat} (h : CutsLine ls q) : 0 < q := by
  cases ls with
  | nil => exact Nat.zero_lt_of_lt h.1
  | cons l ls =>
      rcases h with h | h
      · exact Nat.zero_lt_of_lt h.1
      · exact Nat.zero_lt_of_lt h.1

/-- A read that ends inside a later line. -/
theorem cutsLine_add (l : SizeLine) {ls : List SizeLine} {q : Nat} (h : CutsLine ls q) :
    CutsLine (l :: ls) (l.chunkLength + q) := by
  have := h.pos
  right
  rw [Nat.add_sub_cancel_left]
  exact ⟨by omega, h⟩

section All

variable {buff : BuffSize} {i : Input buff} {p : HttpResponseParser}

theorem encode_cons (c : Chunk) (cs : List Chunk) :
    encode (c :: cs) = c.line.digits ++ (crlf ++ (c.data ++ (crlf ++ encode cs))) := by
  rw [encode, Chunk.bytes]
  simp only [List.append_assoc]

/-- A turn of the loop reads a line and the data behind it. -/
theorem recvChunks_step {p' : HttpResponseParser} {i₁ i₂ : Input buff} {n : Int}
    {body b : List UInt8} (fuel : Nat)
    (hline : recvChunkHead buff (i.socket.bytes.length + 2) true p i.data i.socket =
      (.ok (some (p', i₁.data)), i₁.socket))
    (hlen : p'.parser.contentLen = n)
    (hdata : recvChunkData buff n body i₁.data i₁.socket =
      (.ok (some (b, i₂.data)), i₂.socket)) :
    recvChunks buff (fuel + 1) p i.data body i.socket =
      if p'.parser.chunksDone then (.ok (some (p', b)), i₂.socket)
      else recvChunks buff fuel p' i₂.data b i₂.socket := by
  rw [recvChunks, hline, Received.bind_some]
  simp only [hlen]
  rw [hdata, Received.bind_some]

/-- A turn of the loop, if no read ends inside its line. -/
theorem recvChunks_turn {c : Chunk} {cs : List Chunk} (body : List UInt8) (fuel : Nat)
    (hi : i.bytes = encode (c :: cs)) (hcut : ∀ q ∈ i.ends, ¬InLine c.line.digits q)
    (hp : p.error = 0) :
    ∃ (p' : HttpResponseParser) (i' : Input buff),
      recvChunks buff (fuel + 1) p i.data body i.socket =
        recvChunks buff fuel p' i'.data (body ++ c.data) i'.socket ∧
      Kept p p' ∧ i'.bytes = encode cs ∧ i.Behind c.line.chunkLength i' := by
  have hbytes := hi.trans (encode_cons c cs)
  obtain ⟨p', i₁, hline, hkept, hlen, hdone, hbehind⟩ :=
    line_whole hp c.line.digits_ne c.line.hex c.line.size_lt hbytes hcut
  have hi₁ : i₁.bytes = c.data ++ (crlf ++ encode cs) := by
    rw [hbehind.bytes_eq, hbytes, ← List.append_assoc, List.drop_left' (by simp [crlf])]
  have hsize : c.data.length = hexValue c.line.digits := c.length_data
  have hlt := c.line.fits
  have hpos := c.line.pos
  obtain ⟨i', hdata, hbehind'⟩ := recvChunkData_eq body (by omega) rfl hi₁
  rw [← hsize] at hlen
  refine ⟨p', i', ?_, hkept, ?_, ?_⟩
  · rw [recvChunks_step fuel hline hlen hdata, hdone,
      if_neg (by simp only [decide_eq_true_eq]; omega)]
  · rw [hbehind'.bytes_eq, hi₁, ← List.append_assoc, List.drop_left' (by simp [crlf])]
  · have := hbehind.trans hbehind'
    rwa [c.length_data] at this

/-- **The chunks are put together** if no read ends inside a line. -/
theorem recvChunks_whole {cs : List Chunk} (body : List UInt8) {fuel : Nat}
    (hi : i.bytes = encode cs) (hcut : ∀ q ∈ i.ends, ¬CutsLine (cs.map Chunk.line) q)
    (hp : p.error = 0) (hfuel : cs.length < fuel) :
    ∃ p' s', recvChunks buff fuel p i.data body i.socket =
      (.ok (some (p', body ++ decoded cs)), s') ∧ p'.data = p.data := by
  obtain ⟨fuel, rfl⟩ := Nat.exists_eq_succ_of_ne_zero (Nat.ne_zero_of_lt hfuel)
  induction cs generalizing i p body fuel with
  | nil =>
      obtain ⟨p', i₁, hline, hkept, hlen, hdone, hbehind⟩ :=
        @line_whole buff i p [ch '0'] _ hp (by simp) (by decide +kernel) (by decide +kernel) hi hcut
      have hi₁ : i₁.bytes = [] ++ (crlf ++ []) := by
        rw [hbehind.bytes_eq, hi]
        rfl
      obtain ⟨i', hdata, -⟩ := recvChunkData_eq body (by decide) rfl hi₁
      refine ⟨p', i'.socket, ?_, hkept.2⟩
      rw [recvChunks_step fuel hline hlen hdata, hdone, if_pos (by decide)]
      rfl
  | cons c cs ih =>
      obtain ⟨p₁, i₁, hturn, hkept, hi₁, hbehind⟩ := recvChunks_turn body fuel hi
        (fun q hq h => hcut q hq (.inl h)) hp
      obtain ⟨fuel, rfl⟩ : ∃ n, fuel = n + 1 := ⟨fuel - 1, by
        rw [List.length_cons] at hfuel
        omega⟩
      have hcut₁ : ∀ q ∈ i₁.ends, ¬CutsLine (cs.map Chunk.line) q := by
        intro q hq h
        rw [hbehind.mem_ends q h.pos] at hq
        exact hcut _ hq (cutsLine_add c.line h)
      obtain ⟨p', s', hrest, hdata⟩ := ih (body ++ c.data) hi₁ hcut₁
        (hkept.1.trans hp) fuel (Nat.lt_of_succ_lt_succ hfuel)
      refine ⟨p', s', ?_, hdata.trans hkept.2⟩
      rw [hturn, hrest, decoded, decoded, List.flatMap_cons, List.append_assoc]

/-- A turn of the loop, if a read ends inside its line and the data begins no
line: what is left of the number is too small, and is followed by data. -/
theorem recvChunks_turn_cut {c : Chunk} {cs : List Chunk} (body : List UInt8) (fuel : Nat)
    (hstart : ∀ b ∈ c.data, xdigit b = false ∧ b ≠ ch 'H') (hi : i.bytes = encode (c :: cs))
    (hcut : ∃ q ∈ i.ends, InLine c.line.digits q) (hp : p.error = 0) :
    (∃ s', recvChunks buff (fuel + 1) p i.data body i.socket = (.ok none, s')) ∨
    ∃ p' s', recvChunks buff (fuel + 1) p i.data body i.socket =
      (.ok (some (p', body)), s') ∧ p'.data = p.data := by
  have hbytes := hi.trans (encode_cons c cs)
  rcases line_cut hp c.line.digits_ne c.line.hex c.line.size_lt hbytes hcut with
    ⟨s, hnone⟩ | ⟨n, p', i₁, hn, hline, hkept, hlen, hdone, hbehind⟩
  · left
    rw [recvChunks, hnone]
    exact ⟨_, rfl⟩
  · have hsize : c.data.length = hexValue c.line.digits := c.length_data
    have hlt := c.line.fits
    have htake : (c.data.take n).length = n := by
      rw [List.length_take]
      omega
    have htwo : ((c.data.drop n).take 2).length = 2 := by
      rw [List.length_take, List.length_drop]
      omega
    -- `n` bytes, the two that are taken for a line end, and the rest
    have hdata : c.data = c.data.take n ++ ((c.data.drop n).take 2 ++ c.data.drop (n + 2)) := by
      rw [← List.drop_drop, List.take_append_drop, List.take_append_drop]
    have hi₁ : i₁.bytes = c.data.take n ++ ((c.data.drop n).take 2 ++
        (c.data.drop (n + 2) ++ (crlf ++ encode cs))) := by
      rw [hbehind.bytes_eq, hbytes, ← List.append_assoc, List.drop_left' (by simp [crlf])]
      conv_lhs => rw [hdata]
      simp only [List.append_assoc]
    obtain ⟨i₂, hread, hbehind₂⟩ := recvChunkData_eq body (by omega) htwo hi₁
    rw [htake] at hread hbehind₂
    rw [recvChunks_step fuel hline hlen hread, hdone]
    by_cases h0 : n = 0
    · right
      refine ⟨p', i₂.socket, ?_, hkept.2⟩
      rw [if_pos (by simpa using h0), h0, List.take_zero, List.append_nil]
    · left
      rw [if_neg (by simpa using h0)]
      have hne : c.data.drop (n + 2) ≠ [] := by
        intro h
        have := List.drop_eq_nil_iff.mp h
        omega
      obtain ⟨b, bs, hbs⟩ := List.exists_cons_of_ne_nil hne
      have hmem : b ∈ c.data := List.mem_of_mem_drop (hbs ▸ List.mem_cons_self)
      have hi₂ : i₂.bytes = b :: (bs ++ (crlf ++ encode cs)) := by
        rw [hbehind₂.bytes_eq, hi₁, ← List.append_assoc, List.drop_left', hbs]
        · rfl
        · rw [List.length_append, htake, htwo]
      cases fuel with
      | zero => exact ⟨_, rfl⟩
      | succ fuel =>
          obtain ⟨s', hfails⟩ := @recvChunkHead_fails buff p' i₂ true
            (i₂.socket.bytes.length + 2) b _ (.inl rfl) hi₂ (hstart b hmem).1 (hstart b hmem).2
          rw [recvChunks, hfails]
          exact ⟨_, rfl⟩

/-- A read that ends inside a line, and data that begins no line: an error, or
a body that is too short. -/
theorem recvChunks_cut {cs : List Chunk} (body : List UInt8) (fuel : Nat)
    (hstart : ∀ c ∈ cs, ∀ b ∈ c.data, xdigit b = false ∧ b ≠ ch 'H')
    (hi : i.bytes = encode cs) (hcut : ∃ q ∈ i.ends, CutsLine (cs.map Chunk.line) q)
    (hp : p.error = 0) :
    (∃ s', recvChunks buff fuel p i.data body i.socket = (.ok none, s')) ∨
    ∃ p' b s', recvChunks buff fuel p i.data body i.socket = (.ok (some (p', b)), s') ∧
      p'.data = p.data ∧ b.length < (body ++ decoded cs).length := by
  induction cs generalizing i p body fuel with
  | nil =>
      cases fuel with
      | zero => exact .inl ⟨_, rfl⟩
      | succ fuel =>
          rcases @line_cut buff i p [ch '0'] _ hp (by simp) (by decide +kernel)
              (by decide +kernel) hi hcut with
            ⟨s, hnone⟩ | ⟨n, _, _, hn, -⟩
          · left
            rw [recvChunks, hnone]
            exact ⟨_, rfl⟩
          · have : hexValue [ch '0'] = 0 := rfl
            omega
  | cons c cs ih =>
      cases fuel with
      | zero => exact .inl ⟨_, rfl⟩
      | succ fuel =>
          by_cases hfirst : ∃ q ∈ i.ends, InLine c.line.digits q
          · rcases recvChunks_turn_cut body fuel (hstart c List.mem_cons_self) hi hfirst hp with
              hnone | ⟨p', s', hsome, hdata⟩
            · exact .inl hnone
            · refine .inr ⟨p', body, s', hsome, hdata, ?_⟩
              have hpos := c.line.pos
              have hsize : c.data.length = hexValue c.line.digits := c.length_data
              rw [decoded, List.flatMap_cons, List.length_append, List.length_append]
              omega
          · obtain ⟨p₁, i₁, hturn, hkept, hi₁, hbehind⟩ := recvChunks_turn body fuel hi
              (fun q hq h => hfirst ⟨q, hq, h⟩) hp
            have hcut₁ : ∃ q ∈ i₁.ends, CutsLine (cs.map Chunk.line) q := by
              obtain ⟨q, hq, h⟩ := hcut
              obtain ⟨hlt, h⟩ := h.resolve_left fun h => hfirst ⟨q, hq, h⟩
              refine ⟨_, (hbehind.mem_ends _ h.pos).mpr ?_, h⟩
              rwa [show c.line.chunkLength + (q - c.line.chunkLength) = q by omega]
            rw [hturn, decoded, List.flatMap_cons, ← List.append_assoc, ← hkept.2]
            exact ih _ fuel (fun d hd => hstart d (List.mem_cons_of_mem c hd)) hi₁ hcut₁
              (hkept.1.trans hp)

end All

/-! ## Responses -/

theorem length_encode (cs : List Chunk) :
    (encode cs).length = encodedLength (cs.map Chunk.line) := by
  induction cs with
  | nil => rfl
  | cons c cs ih =>
      have hbytes : c.bytes.length = c.line.chunkLength := by
        rw [Chunk.bytes, SizeLine.chunkLength, ← c.length_data]
        simp only [List.length_append, crlf, List.length_cons, List.length_nil]
        omega
      rw [encode, List.length_append, ih, hbytes, encodedLength, encodedLength,
        List.map_cons, List.map_cons, List.sum_cons, Nat.add_assoc]

theorem length_le_encode (cs : List Chunk) : cs.length ≤ (encode cs).length := by
  induction cs with
  | nil => exact Nat.zero_le _
  | cons c cs ih =>
      have := List.length_pos_of_ne_nil c.line.digits_ne
      rw [encode, Chunk.bytes, List.length_append, List.length_append, List.length_cons]
      omega

/-- The response with the body that was put together. -/
def bodied (p : HttpResponseParser) (body : List UInt8) : HttpResponse :=
  if body = [] then p.data else p.data.setBody body

theorem body_bodied {p : HttpResponseParser} (h : p.data.body = []) (body : List UInt8) :
    (bodied p body).body = body := by
  unfold bodied
  split
  · rename_i hb
    rw [hb, h]
  · rfl

def withBody (r : HttpResponseParser × List UInt8) (s : Socket) : Received HttpResponse :=
  (.ok (some (bodied r.1 r.2)), s)

section Responses

variable {buff : BuffSize} {h : ChunkedHead}

/-- Behind the head, `recvResponse` is the loop over the chunks. -/
theorem recvResponse_eq {cs : List Chunk} {total : Nat}
    {r : Split buff h.bytes.length total} {s : Socket} (hs : Delivers h cs r s) :
    ∃ (p : HttpResponseParser) (i : Input buff) (fuel : Nat),
      recvResponse buff s = (recvChunks buff fuel p i.data [] i.socket).bind withBody ∧
      p.error = 0 ∧ p.data.body = [] ∧ i.bytes = encode cs ∧ i.ends = r.ends ∧
      cs.length < fuel := by
  cases has : s.arrivals with
  | nil =>
      have := hs.lengths_eq
      rw [has] at this
      cases this
  | cons a as =>
      have hlengths := hs.lengths_eq
      rw [has] at hlengths
      obtain ⟨hlen, hrest⟩ : a.bytes.length = h.bytes.length + r.first ∧ lengths as = r.rest :=
        List.cons.inj hlengths
      have hall : a.bytes ++ flat as = h.bytes ++ encode cs := by
        rw [← hs.bytes_eq, Socket.bytes_eq, has, flat_cons]
      obtain ⟨front, hfront⟩ : ∃ front, a.bytes = h.bytes ++ front := by
        have hpre : h.bytes <+: a.bytes :=
          List.prefix_of_prefix_length_le ⟨_, hall.symm⟩ (List.prefix_append _ _) (by omega)
        obtain ⟨front, hfront⟩ := hpre
        exact ⟨front, hfront.symm⟩
      have hfirst : front.length = r.first := by
        rw [hfront, List.length_append] at hlen
        omega
      have hbytes : front ++ flat as = encode cs := by
        rw [hfront, List.append_assoc] at hall
        exact List.append_cancel_left hall
      have hhead : 0 < h.bytes.length := by
        rw [h.bytes_eq, List.length_append]
        exact Nat.succ_pos _
      have hfits := r.first_le
      have hle : ∀ b ∈ as, b.bytes.length ≤ buff.size := by
        intro b hb
        apply r.rest_le
        rw [← hrest]
        exact List.mem_map_of_mem hb
      obtain ⟨p, hexec, hcs, herror, hbody, hchunked⟩ := execute_head h.toHead front
      have hread := Input.readMore_cons buff has hs.connected (by omega)
      have hno : p.hasError = false := by
        rw [HttpResponseParser.hasError, herror, HttpClientParser.hasError, hcs]
        rfl
      have hfin : p.isFinished = 1 := by
        rw [HttpResponseParser.isFinished, HttpClientParser.finish, HttpClientParser.hasError,
          HttpClientParser.isFinished, hcs]
        rfl
      have hparse : parse buff false .new a.bytes { s with arrivals := as } =
          (.ok (some (p, front)), { s with arrivals := as }) := by
        rw [parse, hfront, hexec]
        simp only [hno, List.length_append, Nat.add_sub_cancel_left]
        rw [if_neg (by simp), if_neg (by omega)]
      refine ⟨p, ⟨front, { s with arrivals := as }, hs.connected, by omega, hle⟩,
        front.length + (flat as).length + 1, ?_, herror, hbody, hbytes, ?_, ?_⟩
      · rw [recvResponse, recvHead, hread, Received.bind_some, hparse, Received.bind_some]
        simp only [hfin]
        rw [if_pos (by decide), Received.bind_some]
        simp only [hchunked h.announced, if_true]
        rfl
      · show ends (front.length :: lengths as) = ends (r.first :: r.rest)
        rw [hfirst, hrest]
      · have := length_le_encode cs
        rw [← hbytes, List.length_append] at this
        omega

/-- Data that begins no line. -/
theorem exists_chunks (ls : List SizeLine) :
    ∃ cs : List Chunk, cs.map Chunk.line = ls ∧
      ∀ c ∈ cs, ∀ b ∈ c.data, xdigit b = false ∧ b ≠ ch 'H' := by
  refine ⟨ls.map fun l => ⟨l, List.replicate l.size (ch 'x'), List.length_replicate⟩, ?_, ?_⟩
  · rw [List.map_map]
    exact List.map_id ls
  · intro c hc b hb
    obtain ⟨l, -, rfl⟩ := List.mem_map.mp hc
    obtain rfl := List.eq_of_mem_replicate hb
    decide

theorem exists_arrivals {ns : List Nat} (hns : ∀ n ∈ ns, 0 < n ∧ n < 2 ^ 31)
    {b : List UInt8} (hb : ns.sum = b.length) :
    ∃ as, flat as = b ∧ lengths as = ns := by
  induction ns generalizing b with
  | nil => exact ⟨[], (List.eq_nil_of_length_eq_zero hb.symm).symm, rfl⟩
  | cons n ns ih =>
      obtain ⟨⟨hpos, hlt⟩, hrest⟩ := List.forall_mem_cons.mp hns
      rw [List.sum_cons] at hb
      have htake : (b.take n).length = n := by
        rw [List.length_take]
        omega
      obtain ⟨as, hflat, hlengths⟩ := @ih hrest (b.drop n) (by
        rw [List.length_drop]
        omega)
      refine ⟨⟨b.take n, List.ne_nil_of_length_pos (by omega), by omega⟩ :: as, ?_, ?_⟩
      · rw [flat_cons, hflat, List.take_append_drop]
      · show (b.take n).length :: lengths as = _
        rw [htake, hlengths]

/-- The reads are possible whatever the chunks say. -/
theorem exists_delivers (h : ChunkedHead) (cs : List Chunk)
    (r : Split buff h.bytes.length (encodedLength (cs.map Chunk.line))) :
    ∃ s, Delivers h cs r s := by
  have hhead : 0 < h.bytes.length := by
    rw [h.bytes_eq, List.length_append]
    exact Nat.succ_pos _
  have hfits := buff.fits
  obtain ⟨as, hflat, hlengths⟩ := @exists_arrivals ((h.bytes.length + r.first) :: r.rest) (by
    intro n hn
    rcases List.mem_cons.mp hn with rfl | hn
    · exact ⟨by omega, r.first_le.trans_lt hfits⟩
    · exact ⟨r.rest_pos n hn, (r.rest_le n hn).trans_lt hfits⟩) (h.bytes ++ encode cs) (by
    have := r.sum_eq
    rw [List.sum_cons, List.length_append, length_encode]
    omega)
  exact ⟨⟨as, false, true⟩, rfl, hflat, hlengths⟩

/-- **Chunks are put together exactly if no read ends inside a size line**,
behind a digit that counts: for sizes and reads of this kind whatever the
chunks say, and for others not whatever they say. -/
theorem chunks_decoded_iff (h : ChunkedHead) (ls : List SizeLine)
    (r : Split buff h.bytes.length (encodedLength ls)) :
    (∀ cs s, cs.map Chunk.line = ls → Delivers h cs r s → Decodes buff cs s) ↔
      ∀ q ∈ r.ends, ¬CutsLine ls q := by
  constructor
  · intro hall q hq hcut
    obtain ⟨cs, rfl, hstart⟩ := exists_chunks ls
    obtain ⟨s, hs⟩ := exists_delivers h cs r
    obtain ⟨resp, s', hrun, hbody⟩ := hall cs s rfl hs
    obtain ⟨p, i, fuel, heq, hp, hempty, hi, hends, -⟩ := recvResponse_eq hs
    rw [heq] at hrun
    rcases recvChunks_cut [] fuel hstart hi ⟨q, hends ▸ hq, hcut⟩ hp with
      ⟨s₁, hnone⟩ | ⟨p₁, b, s₁, hsome, hdata, hlt⟩
    · rw [hnone] at hrun
      cases hrun
    · rw [hsome, Received.bind_some, withBody] at hrun
      cases hrun
      replace hbody : b = decoded cs := by
        rw [← hbody]
        exact (body_bodied (by rw [hdata, hempty]) b).symm
      rw [hbody, List.nil_append] at hlt
      exact Nat.lt_irrefl _ hlt
  · rintro hcut cs s rfl hs
    obtain ⟨p, i, fuel, heq, hp, hempty, hi, hends, hfuel⟩ := recvResponse_eq hs
    obtain ⟨p', s', hrun, hdata⟩ := recvChunks_whole [] hi (hends ▸ hcut) hp hfuel
    refine ⟨bodied p' ([] ++ decoded cs), s', ?_, ?_⟩
    · rw [heq, hrun]
      rfl
    · rw [body_bodied (by rw [hdata, hempty]), List.nil_append]

end Responses

/-! ## A size line that is cut -/

/-- `GetHttpRequestBufferSize()` as it is configured. -/
def defaultBuff : BuffSize :=
  ⟨4 * 1024, BuffSize.configured_pos, BuffSize.configured_fits⟩

/-- `HTTP/1.1 200 OK` and `Transfer-Encoding: chunked` -/
def plainHead : ChunkedHead where
  version := text "HTTP/1.1"
  status := text "200"
  reason := text "OK"
  fields := [
    { name := text "Transfer-Encoding"
      blanks := text " "
      value := text "chunked"
      name_ne := by decide +kernel
      name_token := by decide +kernel
      blanks_ok := by decide +kernel
      value_ok := by decide +kernel
      value_start := by decide +kernel
      filled := fun h => absurd h (by decide +kernel) }]
  version_ok := .inl rfl
  status_ne := by decide +kernel
  status_digit := by decide +kernel
  reason_ok := by decide +kernel
  announced := ⟨_, List.mem_singleton_self _, by decide +kernel, by decide +kernel⟩

/-- One chunk of 16 bytes. -/
def sixteen : Chunk where
  line :=
    { digits := text "10"
      hex := by decide +kernel
      pos := by decide +kernel
      fits := by decide +kernel }
  data := text "0123456789abcdef"
  length_data := by decide +kernel

/-- The head, the first digit of the size, and the rest. -/
def cutSize : Split defaultBuff plainHead.bytes.length (encodedLength [sixteen.line]) where
  first := 0
  rest := [1, 26]
  first_le := by decide +kernel
  rest_pos := by decide
  rest_le := by decide
  sum_eq := by decide +kernel

def cutSizeSocket : Socket where
  arrivals := [
    ⟨plainHead.bytes, by decide +kernel, by decide +kernel⟩,
    ⟨text "1", by decide +kernel, by decide +kernel⟩,
    ⟨(encode [sixteen]).drop 1, by decide +kernel, by decide +kernel⟩]

/-- The second digit is read as the size of the last chunk. -/
theorem cutSize_lost : Delivers plainHead [sixteen] cutSize cutSizeSocket ∧
    ¬Decodes defaultBuff [sixteen] cutSizeSocket := by
  refine ⟨⟨rfl, by decide +kernel, by decide +kernel⟩, ?_⟩
  rintro ⟨r, s', hrun, hbody⟩
  have hempty : (match (recvResponse defaultBuff cutSizeSocket).1 with
      | .ok (some r) => r.body
      | .ok none | .error _ => []) = [] := by
    decide +kernel
  rw [hrun] at hempty
  rw [show r.body = [] from hempty] at hbody
  exact absurd hbody (by decide +kernel)

end Hps.Http.Response
