import Hps.Bytes.Calls

/-!
# Bytes — the varint format

`writeUint32` and `writeUint64` against their readers, on any bytes: what is
written is the shortest code of the value and fits into `tmp`, and what is read
is the sum of the groups that are taken, cut to the width of the type.
-/

namespace Hps.Bytes

open Hps.Lib Base128

/-- The readable bytes. -/
def ByteArray.unread (b : ByteArray) : List UInt8 := b.content.drop b.position

/-- The format of the unsigned type of `w` bits whose writer has a `tmp` of `n`
bytes. -/
structure VarintFormat (w n : Nat) (wr : BitVec w → M Unit) (rd : M (BitVec w)) : Prop where
  /-- The index stays within `tmp`, whatever is in it at first. -/
  stored : ∀ (v : BitVec w) (tmp : List UInt8), tmp.length = n →
    ∃ tmp' i, collect tmp 0 v = some (tmp', i) ∧ wr v = write (tmp'.take i.toNat)
  emits : ∀ (v : BitVec w) (e : Int), Writes e (wr v) (varint v)
  length_le : ∀ v : BitVec w, (varint v).length ≤ n
  code : ∀ v : BitVec w, Code (varint v) ∧ value (varint v) = v.toNat
  shortest : ∀ (v : BitVec w) (bs : List UInt8), Code bs → value bs = v.toNat →
    bs = varint v ∨ (varint v).length < bs.length
  /-- No code of one value begins that of another. -/
  begins : ∀ v v' : BitVec w, varint v <+: varint v' → v = v'
  reads : ∀ (b : ByteArray) (bs : List UInt8), Reachable b → Taken n bs → bs <+: b.unread →
    ∃ b', rd b = .ok (.ofNat w (value bs)) b' ∧ b'.content = b.content ∧
      b'.position = b.position + bs.length
  /-- It throws exactly if all bytes that are left ask for more and are too few. -/
  throws : ∀ b : ByteArray, Reachable b →
    ((∃ what b', rd b = .error (.outOfRange what) b') ↔
      b.unread.length < n ∧ ∀ x ∈ b.unread, ¬x < 0x80)

section Format

variable {w n : Nat}

theorem stored_of (hw : 7 < w) (hn : w ≤ 7 * n) (hn' : n < 256) (v : BitVec w)
    {tmp : List UInt8} (htmp : tmp.length = n) :
    ∃ tmp' i, collect tmp 0 v = some (tmp', i) ∧
      write (varint v) = write (tmp'.take i.toNat) := by
  have hlen := length_varint_le hw hn v
  have hroom : (0 : UInt8).toNat + (varint v).length ≤ tmp.length := by
    change 0 + _ ≤ _
    omega
  obtain ⟨tmp', i, hcollect, -, htake⟩ := collect_eq v hroom (by omega)
  refine ⟨tmp', i, hcollect, ?_⟩
  rw [htake]
  rfl

theorem shortest_of (hw : 7 < w) {v : BitVec w} {bs : List UInt8} (hbs : Code bs)
    (hv : value bs = v.toNat) : bs = varint v ∨ (varint v).length < bs.length := by
  rw [varint_eq_encode hw, ← hv]
  exact hbs.eq_encode_or_longer

theorem begins_of (hw : 7 < w) {v v' : BitVec w} (h : varint v <+: varint v') : v = v' := by
  rw [varint_eq_encode hw, varint_eq_encode hw] at h
  have heq := (encode_code _).eq_of_front (encode_code _) h
  apply BitVec.eq_of_toNat_eq
  rw [← value_encode v.toNat, heq, value_encode]

theorem reads_of {b : ByteArray} {bs : List UInt8} (hn : (w + 6) / 7 = n) (h : Reachable b)
    (hbs : Taken n bs) (hdata : bs <+: b.unread) :
    ∃ b', readVarint w 0 0 b = .ok (.ofNat w (value bs)) b' ∧ b'.content = b.content ∧
      b'.position = b.position + bs.length := by
  obtain ⟨b', hr, href, -⟩ :=
    readVarint_some (i := 0) (r := 0) h.wf.refines hn (front_of_taken hbs hdata)
  refine ⟨b', ?_, href.data, href.pos⟩
  rw [hr]
  simp

theorem throws_of {b : ByteArray} (hn : (w + 6) / 7 = n) (h : Reachable b) :
    (∃ what b', readVarint w 0 0 b = .error (.outOfRange what) b') ↔
      b.unread.length < n ∧ ∀ x ∈ b.unread, ¬x < 0x80 := by
  rw [← front_eq_none_iff]
  constructor
  · rintro ⟨what, b', hthrow⟩
    by_contra hsome
    obtain ⟨bs, hbs⟩ := Option.ne_none_iff_exists'.mp hsome
    obtain ⟨b₁, hr, -⟩ := readVarint_some (i := 0) (r := 0) h.wf.refines hn hbs
    rw [hthrow] at hr
    cases hr
  · intro hnone
    obtain ⟨b', hr, -⟩ := readVarint_none (i := 0) (r := 0) h.wf.refines hn hnone
    exact ⟨_, b', hr⟩

theorem format_of (hw : 7 < w) (hn : (w + 6) / 7 = n) (hn' : n < 256) :
    VarintFormat w n (fun v => write (varint v)) (readVarint w 0 0) where
  stored v _ htmp := stored_of hw (by omega) hn' v htmp
  emits v _ := writes_write (varint v)
  length_le v := length_varint_le hw (by omega) v
  code v := by
    rw [varint_eq_encode hw]
    exact ⟨encode_code _, value_encode _⟩
  shortest _ _ hbs hv := shortest_of hw hbs hv
  begins _ _ h := begins_of hw h
  reads _ _ hb hbs hdata := reads_of hn hb hbs hdata
  throws _ hb := throws_of hn hb

end Format

/-- **The varint format** of `uint32_t` and of `uint64_t`. -/
theorem varint_format :
    VarintFormat 32 5 writeUint32 readUint32 ∧ VarintFormat 64 10 writeUint64 readUint64 :=
  ⟨format_of (by decide) (by decide) (by decide), format_of (by decide) (by decide) (by decide)⟩

end Hps.Bytes
