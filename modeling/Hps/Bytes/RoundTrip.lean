import Hps.Bytes.Varint

/-!
# Bytes — scalars written are scalars read

`Writes wr enc` says that `wr` copies the bytes `enc` into the array at the
cursor, and `Reads rd enc a` that `rd`, standing before the bytes `enc`,
takes exactly these and returns `a`, whatever comes after them and wherever
the blocks end. Both compose along `>>=`, so a list of values needs one
lemma for each encoding and nothing else.
-/

namespace Hps.Bytes

open Hps.Lib

variable {α β : Type} {e : Int} {enc enc' : List UInt8}

def Writes (e : Int) (wr : M Unit) (enc : List UInt8) : Prop :=
  ∀ (b : ByteArray) (f : Flat), Refines b f → b.endian = e →
    ∃ b', wr b = .ok () b' ∧ Refines b' (f.write enc) ∧ b'.endian = e

def Reads (e : Int) (rd : M α) (enc : List UInt8) (a : α) : Prop :=
  ∀ (b : ByteArray) (f : Flat), Refines b f → b.endian = e →
    enc <+: f.data.drop f.pos →
    ∃ b', rd b = .ok a b' ∧ Refines b' { f with pos := f.pos + enc.length } ∧
      b'.endian = e

/-! ## Composition -/

theorem Writes.pure : Writes e (pure ()) [] := by
  intro b f h he
  refine ⟨b, rfl, ?_, he⟩
  rw [Flat.write, splice_nil]
  exact h

theorem Writes.seq {wr wr' : M Unit} (h : Writes e wr enc) (h' : Writes e wr' enc') :
    Writes e (do wr; wr') (enc ++ enc') := by
  intro b f hb he
  obtain ⟨b₁, h₁, hr₁, he₁⟩ := h b f hb he
  obtain ⟨b₂, h₂, hr₂, he₂⟩ := h' b₁ _ hr₁ he₁
  refine ⟨b₂, by rw [bind_ok h₁, h₂], ?_, he₂⟩
  rw [← Flat.write_write hb.pos_le]
  exact hr₂

theorem Reads.pure (a : α) : Reads e (pure a : M α) [] a := by
  intro b f h he _
  exact ⟨b, rfl, h, he⟩

theorem Reads.bind {rd : M α} {k : α → M β} {a : α} {c : β} (h : Reads e rd enc a)
    (h' : Reads e (k a) enc' c) : Reads e (rd >>= k) (enc ++ enc') c := by
  intro b f hb he hpre
  obtain ⟨rest, hrest⟩ := hpre
  obtain ⟨b₁, h₁, hr₁, he₁⟩ :=
    h b f hb he ⟨enc' ++ rest, by rw [← hrest, List.append_assoc]⟩
  -- behind `enc` stand the bytes of `enc'`
  have hpre' : enc' <+: f.data.drop (f.pos + enc.length) := by
    rw [← List.drop_drop, ← hrest, List.append_assoc, List.drop_left]
    exact List.prefix_append enc' rest
  obtain ⟨b₂, h₂, hr₂, he₂⟩ := h' b₁ _ hr₁ he₁ hpre'
  refine ⟨b₂, by rw [bind_ok h₁, h₂], ?_, he₂⟩
  rw [List.length_append, ← Nat.add_assoc]
  exact hr₂

theorem Reads.map {rd : M α} {a : α} (h : Reads e rd enc a) (g : α → β) :
    Reads e (g <$> rd) enc (g a) := by
  intro b f hb he hpre
  obtain ⟨b', h', hr, he'⟩ := h b f hb he hpre
  refine ⟨b', ?_, hr, he'⟩
  simp [Functor.map, EStateM.map, h']

/-! ## Raw bytes -/

theorem writes_write (enc : List UInt8) : Writes e (write enc) enc := by
  intro b f h he
  obtain ⟨b', hw, hr, hend⟩ := write_refines h enc
  exact ⟨b', hw, hr, hend.trans he⟩

theorem reads_read (h : 0 < enc.length) : Reads e (read enc.length) enc enc := by
  intro b f hb he hpre
  have hlen := hpre.length_le
  rw [List.length_drop] at hlen
  rcases read_refines hb h with ⟨-, b', hr, href, hend⟩ | ⟨hgt, -⟩
  · refine ⟨b', ?_, href, hend.trans he⟩
    have htake : enc = (f.data.drop f.pos).take enc.length :=
      List.prefix_iff_eq_take.mp hpre
    rw [hr, ← htake]
  · omega

/-- Looking at the array's fields takes no bytes. -/
theorem Writes.get {wr : ByteArray → M Unit}
    (h : ∀ b : ByteArray, b.endian = e → Writes e (wr b) enc) :
    Writes e (get >>= wr) enc := by
  intro b f hb he
  exact h b he b f hb he

theorem Reads.get {rd : ByteArray → M α} {a : α}
    (h : ∀ b : ByteArray, b.endian = e → Reads e (rd b) enc a) :
    Reads e (get >>= rd) enc a := by
  intro b f hb he hpre
  exact h b he b f hb he hpre

/-! ## Fixed width -/

/-- The bytes of an `n`-byte integer under the byte order `e`. -/
def fixedBytes (e : Int) (n : Nat) (v : BitVec (8 * n)) : List UInt8 :=
  hostBytes n (if e ≠ byteOrder then byteswap n v else v)

theorem writes_fixed (n : Nat) (v : BitVec (8 * n)) :
    Writes e (writeFixed n v) (fixedBytes e n v) := by
  refine Writes.get fun b hb => ?_
  rw [hb]
  exact writes_write _

theorem reads_fixed (n : Nat) (hn : 0 < n) (v : BitVec (8 * n)) :
    Reads e (readFixed n) (fixedBytes e n v) v := by
  have hlen : (fixedBytes e n v).length = n := hostBytes_length n _
  have hread := @reads_read e (fixedBytes e n v) (by omega)
  rw [hlen] at hread
  rw [readFixed, ← List.append_nil (fixedBytes e n v)]
  refine hread.bind (Reads.get fun b hb => ?_)
  rw [hb, fixedBytes, ofHostBytes_hostBytes]
  by_cases he : e = byteOrder
  · rw [if_pos he, if_neg (not_not.mpr he)]
    exact Reads.pure v
  · rw [if_neg he, if_pos he, byteswap_byteswap]
    exact Reads.pure v

theorem writes_byte (v : BitVec 8) : Writes e (writeByte v) (hostBytes 1 v) :=
  writes_write _

theorem reads_byte (v : BitVec 8) : Reads e readByte (hostBytes 1 v) v := by
  have hread := @reads_read e (hostBytes 1 v) (by rw [hostBytes_length]; omega)
  rw [hostBytes_length] at hread
  rw [readByte, ← List.append_nil (hostBytes 1 v)]
  refine hread.bind ?_
  rw [ofHostBytes_hostBytes]
  exact Reads.pure v

/-! ## Varints -/

/-- The reader takes the bytes of the value and no more. -/
theorem reads_varint {w : Nat} (hw : 7 < w) (v : BitVec w) :
    Reads e (readVarint w 0 0) (varint v) v := by
  intro b f hb he hpre
  have hlen := length_varint_le hw (by omega : w ≤ 7 * ((w - 0 + 6) / 7)) v
  rw [varint_eq_encode hw] at hpre hlen ⊢
  obtain ⟨b', hr, href, hend⟩ := readVarint_some (r := 0) hb rfl
    (Base128.front_of_taken (.inl ⟨Base128.encode_code _, hlen⟩) hpre)
  refine ⟨b', ?_, href, hend.trans he⟩
  rw [hr, Base128.value_encode, BitVec.ofNat_toNat]
  simp

/-! ## Values of any of the types -/

/-- The pairs of a writer and its reader. -/
inductive Kind where
  | fint8 | fuint8 | fint16 | fuint16 | fint32 | fuint32 | fint64 | fuint64
  | int32 | uint32 | int64 | uint64
  | float | double
deriving DecidableEq, Repr

namespace Kind

/-- The width of the type. -/
def bits : Kind → Nat
  | fint8 | fuint8 => 8
  | fint16 | fuint16 => 16
  | fint32 | fuint32 | int32 | uint32 | float => 32
  | fint64 | fuint64 | int64 | uint64 | double => 64

def write : (k : Kind) → BitVec k.bits → M Unit
  | fint8, v => writeFint8 v
  | fuint8, v => writeFuint8 v
  | fint16, v => writeFint16 v
  | fuint16, v => writeFuint16 v
  | fint32, v => writeFint32 v
  | fuint32, v => writeFuint32 v
  | fint64, v => writeFint64 v
  | fuint64, v => writeFuint64 v
  | int32, v => writeInt32 v
  | uint32, v => writeUint32 v
  | int64, v => writeInt64 v
  | uint64, v => writeUint64 v
  | float, v => writeFloat v
  | double, v => writeDouble v

def read : (k : Kind) → M (BitVec k.bits)
  | fint8 => readFint8
  | fuint8 => readFuint8
  | fint16 => readFint16
  | fuint16 => readFuint16
  | fint32 => readFint32
  | fuint32 => readFuint32
  | fint64 => readFint64
  | fuint64 => readFuint64
  | int32 => readInt32
  | uint32 => readUint32
  | int64 => readInt64
  | uint64 => readUint64
  | float => readFloat
  | double => readDouble

end Kind

/-- A value, as a bit pattern of its type. -/
abbrev Scalar := (k : Kind) × BitVec k.bits

def writeAll : List Scalar → M Unit
  | [] => pure ()
  | ⟨k, v⟩ :: vs => do k.write v; writeAll vs

/-- The readers of these types, one after the other. -/
def readAll : List Kind → M (List Scalar)
  | [] => pure []
  | k :: ks => do
      let v ← k.read
      let vs ← readAll ks
      pure (⟨k, v⟩ :: vs)

theorem reads_zigzag {w : Nat} (hw : 7 < w) (v : BitVec w) :
    Reads e (decodeZigzag <$> readVarint w 0 0) (varint (encodeZigzag v)) v := by
  have h := (@reads_varint e w hw (encodeZigzag v)).map decodeZigzag
  rw [decodeZigzag_encodeZigzag (by omega)] at h
  exact h

/-- **One value**: there are bytes its writer appends and its reader takes. -/
theorem kind_encodes (e : Int) (k : Kind) (v : BitVec k.bits) :
    ∃ enc, Writes e (k.write v) enc ∧ Reads e k.read enc v := by
  cases k with
  | fint8 => exact ⟨_, writes_byte v, reads_byte v⟩
  | fuint8 => exact ⟨_, writes_byte v, reads_byte v⟩
  | fint16 => exact ⟨_, writes_fixed 2 v, reads_fixed 2 (by decide) v⟩
  | fuint16 => exact ⟨_, writes_fixed 2 v, reads_fixed 2 (by decide) v⟩
  | fint32 => exact ⟨_, writes_fixed 4 v, reads_fixed 4 (by decide) v⟩
  | fuint32 => exact ⟨_, writes_fixed 4 v, reads_fixed 4 (by decide) v⟩
  | fint64 => exact ⟨_, writes_fixed 8 v, reads_fixed 8 (by decide) v⟩
  | fuint64 => exact ⟨_, writes_fixed 8 v, reads_fixed 8 (by decide) v⟩
  | int32 => exact ⟨_, writes_write _, reads_zigzag (by decide) v⟩
  | uint32 => exact ⟨_, writes_write _, reads_varint (by decide) v⟩
  | int64 => exact ⟨_, writes_write _, reads_zigzag (by decide) v⟩
  | uint64 => exact ⟨_, writes_write _, reads_varint (by decide) v⟩
  | float => exact ⟨_, writes_fixed 4 v, reads_fixed 4 (by decide) v⟩
  | double => exact ⟨_, writes_fixed 8 v, reads_fixed 8 (by decide) v⟩

/-- **Any list of values**, by composition. -/
theorem scalars_encode (e : Int) (vs : List Scalar) :
    ∃ enc, Writes e (writeAll vs) enc ∧ Reads e (readAll (vs.map (·.1))) enc vs := by
  induction vs with
  | nil => exact ⟨[], Writes.pure, Reads.pure []⟩
  | cons s vs ih =>
      obtain ⟨k, v⟩ := s
      obtain ⟨enc, hw, hr⟩ := kind_encodes e k v
      obtain ⟨encs, hws, hrs⟩ := ih
      refine ⟨enc ++ encs, hw.seq hws, hr.bind ?_⟩
      rw [← List.append_nil encs]
      exact hrs.bind (Reads.pure _)

/-- **Heterogeneous round trip.** Whatever the block size, whatever values
are written with whichever writers, after `setPosition(0)` the matching
readers return exactly these values, nothing throws, and nothing is left to
read. -/
theorem scalars_roundTrip {base : Nat} (hbase : 1 ≤ base) (fresh : Nat → Nat → UInt8)
    (vs : List Scalar) :
    ∃ b, (do writeAll vs; setPosition 0; readAll (vs.map (·.1)) : M (List Scalar))
        (ByteArray.new fresh base) = .ok vs b ∧ b.getReadSize = 0 := by
  obtain ⟨enc, hw, hr⟩ := scalars_encode bigEndian vs
  obtain ⟨b₁, h₁, hr₁, he₁⟩ := hw _ _ (new_refines fresh hbase) rfl
  have hflat : Flat.write {} enc = { data := enc, pos := enc.length } := by
    simp [Flat.write, splice]
  rw [hflat] at hr₁
  obtain ⟨b₂, h₂, hr₂, he₂⟩ := setPosition_refines hr₁ (Nat.zero_le _)
  obtain ⟨b₃, h₃, hr₃, -⟩ := hr b₂ _ hr₂ (he₂.trans he₁) (List.prefix_refl enc)
  refine ⟨b₃, ?_, ?_⟩
  · rw [bind_ok h₁, bind_ok h₂]
    exact h₃
  · rw [ByteArray.getReadSize, ← hr₃.length_data, hr₃.pos]
    simp

/-- Extreme values, in one-byte blocks. -/
def extremes : List Scalar :=
  [⟨.int32, 0x80000000⟩, ⟨.uint64, 0xFFFFFFFFFFFFFFFF⟩, ⟨.fint16, 0x8000⟩,
   ⟨.int64, 0x8000000000000000⟩, ⟨.fuint8, 0x80⟩, ⟨.float, 0x7FC00001⟩]

theorem extremes_roundTrip :
    ∃ b, (do writeAll extremes; setPosition 0; readAll (extremes.map (·.1)) :
        M (List Scalar)) (ByteArray.new (fun _ _ => 0) 1) = .ok extremes b ∧
      b.getReadSize = 0 :=
  scalars_roundTrip (by decide) _ extremes

end Hps.Bytes
