import Hps.Bytes.RoundTrip
import Hps.Bytes.Buffers

/-!
# Bytes — every call keeps the blocks, the cursor and the sizes in step

`Call` are the public operations, `step` the array after one of them,
whether it returned or threw; a call that dereferences `nullptr` has no
state after it. `Sound` is what is shown of each operation, and it passes
along `>>=`: an exception between a length and its string leaves an array
in shape.
-/

namespace Hps.Bytes

open Hps.Lib

/-! ## The calls -/

/-- The pairs of a string writer and its reader. -/
inductive StringKind where
  | f16 | f32 | f64 | vint
deriving DecidableEq, Repr

namespace StringKind

/-- The width of the length. -/
def bits : StringKind → Nat
  | f16 => 16
  | f32 => 32
  | f64 | vint => 64

def write : StringKind → List UInt8 → M Unit
  | f16 => writeStringF16
  | f32 => writeStringF32
  | f64 => writeStringF64
  | vint => writeStringVint

/-- The reader of the length. -/
def readLen : (k : StringKind) → M (BitVec k.bits)
  | f16 => readFuint16
  | f32 => readFuint32
  | f64 => readFuint64
  | vint => readUint64

def read : StringKind → M (List UInt8)
  | f16 => readStringF16
  | f32 => readStringF32
  | f64 => readStringF64
  | vint => readStringVint

theorem read_eq (k : StringKind) : k.read = readString k.readLen := by
  cases k <;> rfl

end StringKind

inductive Call where
  | setIsLittleEndian (val : Bool)
  | writeScalar (value : Scalar)
  | readScalar (kind : Kind)
  | writeString (kind : StringKind) (value : List UInt8)
  | writeStringWithoutLength (value : List UInt8)
  | readString (kind : StringKind)
  | write (buf : List UInt8)
  | read (size : Nat)
  | setPosition (v : Nat)
  | clear
  | toString
  | getReadBuffers (len : Nat)
  /-- The caller then leaves `filled` in the first bytes of the buffers. -/
  | getWriteBuffers (len : Nat) (filled : List UInt8)

/-- The call, without what it returns. -/
def Call.perform : Call → M Unit
  | .setIsLittleEndian val => Bytes.setIsLittleEndian val
  | .writeScalar value => value.1.write value.2
  | .readScalar kind => do let _ ← kind.read
  | .writeString kind value => kind.write value
  | .writeStringWithoutLength value => Bytes.writeStringWithoutLength value
  | .readString kind => do let _ ← kind.read
  | .write buf => Bytes.write buf
  | .read size => do let _ ← Bytes.read size
  | .setPosition v => Bytes.setPosition v
  | .clear => Bytes.clear
  | .toString => do let _ ← Bytes.toString
  | .getReadBuffers len => do let _ ← Bytes.getReadBuffers [] len
  | .getWriteBuffers len filled => do
      let (iovs, _) ← Bytes.getWriteBuffers [] len
      fill iovs filled

/-- The array after a call that returned or threw. -/
def step (b : ByteArray) (c : Call) : Option ByteArray :=
  match c.perform b with
  | .ok _ b' => some b'
  | .error (.outOfRange _) b' => some b'
  | .error .nullPointer _ => none

/-- The call reads zero bytes: `read` is asked for none, or the string has
the length zero. -/
def Call.ReadsNone (b : ByteArray) : Call → Prop
  | .read size => size = 0
  | .readString kind => ∃ b', kind.readLen b = .ok 0 b'
  | _ => False

/-! ## Soundness of an operation -/

/-- The array is in shape after a return and after an exception; `null` is
what a dereferenced `nullptr` would mean. -/
def Sound {α : Type} (null : Prop) : EStateM.Result Error ByteArray α → Prop
  | .ok _ b => Wf b
  | .error (.outOfRange _) b => Wf b
  | .error .nullPointer _ => null

section Sound

variable {α β : Type} {null : Prop} {b : ByteArray}

theorem Sound.bind {m : M α} {k : α → M β} (h : Sound null (m b))
    (hk : ∀ a b', m b = .ok a b' → Wf b' → Sound null (k a b')) :
    Sound null ((m >>= k) b) := by
  cases hm : m b with
  | ok a b' =>
      rw [bind_ok hm]
      rw [hm] at h
      exact hk a b' hm h
  | error e b' =>
      rw [bind_error hm]
      rw [hm] at h
      cases e <;> exact h

theorem Sound.map {m : M α} (h : Sound null (m b)) (g : α → β) :
    Sound null ((g <$> m) b) := by
  rw [map_eq_pure_bind]
  exact h.bind fun _ _ _ hw => hw

/-- What an operation returns does not matter. -/
theorem Sound.discard {m : M α} (h : Sound null (m b)) :
    Sound null ((do let _ ← m : M Unit) b) :=
  h.map fun _ => ()

theorem write_sound (h : Wf b) (buf : List UInt8) : Sound null (write buf b) := by
  obtain ⟨b', hb', hr, -⟩ := write_refines h.refines buf
  rw [hb']
  exact hr.wf

theorem read_sound (h : Wf b) {n : Nat} (hn : n = 0 → null) : Sound null (read n b) := by
  rcases Nat.eq_zero_or_pos n with hzero | hpos
  · have hnull := hn hzero
    rw [hzero, read, if_neg (Nat.not_lt_zero _), gather]
    cases hcur : b.nodes.drop b.cur with
    | nil => exact hnull
    | cons node nodes =>
        -- nothing is copied, and the cursor stays
        exact h
  · rcases read_refines h.refines hpos with ⟨-, b', hb', hr, -⟩ | ⟨-, herr⟩
    · rw [hb']
      exact hr.wf
    · rw [herr]
      exact h

theorem setPosition_eq (h : Wf b) {v : Nat} (hv : v ≤ b.capacity) :
    setPosition v b = .ok ()
      { b with position := v, size := max b.size v, cur := v / b.baseSize } := by
  have hcap := h.capacity
  have hmax : (if v > b.size then v else b.size) = max b.size v := by
    split <;> omega
  rw [setPosition, if_neg (by omega), hmax]
  dsimp only
  rw [seek_eq h.blocks h.base_pos h.root (by omega)]

theorem setPosition_sound (h : Wf b) (v : Nat) : Sound null (setPosition v b) := by
  by_cases hv : v ≤ b.capacity
  · have hsize := h.size_le
    rw [setPosition_eq h hv]
    exact ⟨h.base_pos, h.blocks, h.root, h.capacity, Nat.le_max_right _ _,
      by dsimp only; omega, rfl⟩
  · rw [setPosition, if_pos (by omega)]
    exact h

theorem clear_sound (h : Wf b) : Sound null (clear b) := by
  obtain ⟨b', hb', hr⟩ := clear_refines h.refines
  rw [hb']
  exact hr.wf

theorem toString_sound (h : Wf b) : Sound null (toString b) := by
  rw [toString_refines h.refines]
  exact h

theorem getReadBuffers_sound (h : Wf b) (buffers : List IoVec) (len : Nat) :
    Sound null (getReadBuffers buffers len b) := by
  obtain ⟨vs, hvs, -⟩ := getReadBuffers_eq buffers h len
  rw [hvs]
  exact h

theorem getWriteBuffers_sound (h : Wf b) (len : Nat) (filled : List UInt8) :
    Sound null (Call.perform (.getWriteBuffers len filled) b) := by
  obtain ⟨vs, hvs, hcons, -, hnode⟩ := getWriteBuffers_eq [] h len
  have hg := (addCapacity_refines (n := len) h.refines).1.wf
  rw [← addCapacity_baseSize b len] at hcons
  rw [Call.perform, bind_ok hvs]
  exact hg.fill hcons hnode filled

/-! ### Numbers and strings -/

theorem Writes.sound {wr : M Unit} {enc : List UInt8} (hw : Writes b.endian wr enc)
    (h : Wf b) : Sound null (wr b) := by
  obtain ⟨b', hb', hr, -⟩ := hw b _ h.refines rfl
  rw [hb']
  exact hr.wf

theorem readFixed_sound (h : Wf b) {n : Nat} (hn : 0 < n) : Sound null (readFixed n b) := by
  rw [readFixed]
  refine (read_sound h (by omega)).bind ?_
  intro bytes b₁ _ h₁
  show Sound null ((if b₁.endian = byteOrder then pure (ofHostBytes n bytes)
    else pure (byteswap n (ofHostBytes n bytes)) : M (BitVec (8 * n))) b₁)
  split <;> exact h₁

theorem readByte_sound (h : Wf b) : Sound null (readByte b) :=
  (read_sound h (by omega)).map _

theorem readVarint_sound (h : Wf b) (w i : Nat) (result : BitVec w) :
    Sound null (readVarint w i result b) := by
  induction i, result using readVarint.induct w generalizing b with
  | case1 i result hi ih =>
      rw [readVarint, if_pos hi]
      refine (readByte_sound h).bind ?_
      intro byte b₁ _ h₁
      by_cases hlast : byte < 0x80
      · rw [if_pos hlast]
        exact h₁
      · rw [if_neg hlast]
        exact ih byte h₁
  | case2 i result hi =>
      rw [readVarint, if_neg hi]
      exact h

theorem kind_write_sound (h : Wf b) (k : Kind) (v : BitVec k.bits) :
    Sound null (k.write v b) := by
  obtain ⟨enc, hw, -⟩ := kind_encodes b.endian k v
  exact hw.sound h

theorem kind_read_sound (h : Wf b) (k : Kind) : Sound null (k.read b) := by
  cases k with
  | fint8 => exact readByte_sound h
  | fuint8 => exact readByte_sound h
  | fint16 => exact readFixed_sound h (by omega)
  | fuint16 => exact readFixed_sound h (by omega)
  | fint32 => exact readFixed_sound h (by omega)
  | fuint32 => exact readFixed_sound h (by omega)
  | fint64 => exact readFixed_sound h (by omega)
  | fuint64 => exact readFixed_sound h (by omega)
  | int32 => exact (readVarint_sound h 32 0 0).map _
  | uint32 => exact readVarint_sound h 32 0 0
  | int64 => exact (readVarint_sound h 64 0 0).map _
  | uint64 => exact readVarint_sound h 64 0 0
  | float => exact readFixed_sound h (by omega)
  | double => exact readFixed_sound h (by omega)

theorem readLen_sound (h : Wf b) (k : StringKind) : Sound null (k.readLen b) := by
  cases k with
  | f16 => exact readFixed_sound h (by omega)
  | f32 => exact readFixed_sound h (by omega)
  | f64 => exact readFixed_sound h (by omega)
  | vint => exact readVarint_sound h 64 0 0

theorem writeString_sound (h : Wf b) (k : StringKind) (value : List UInt8) :
    Sound null (k.write value b) := by
  cases k with
  | f16 => exact ((writes_fixed 2 _).seq (writes_write value)).sound h
  | f32 => exact ((writes_fixed 4 _).seq (writes_write value)).sound h
  | f64 => exact ((writes_fixed 8 _).seq (writes_write value)).sound h
  | vint => exact ((writes_write _).seq (writes_write value)).sound h

/-- The exception may come after the length was read. -/
theorem readString_sound (h : Wf b) (k : StringKind)
    (hnone : (Call.readString k).ReadsNone b → null) : Sound null (k.read b) := by
  rw [k.read_eq]
  refine (readLen_sound h k).bind ?_
  intro len b₁ hlen h₁
  apply read_sound h₁
  intro hzero
  have hlen0 : len = 0 := BitVec.eq_of_toNat_eq (by rw [hzero]; rfl)
  rw [hlen0] at hlen
  exact hnone ⟨b₁, hlen⟩

end Sound

/-! ## Whole runs -/

variable {b b' : ByteArray} {c : Call}

/-- **One call**: the array is in shape after it, and `nullptr` is
dereferenced only where zero bytes are read. -/
theorem call_sound {null : Prop} (h : Wf b) (hnone : c.ReadsNone b → null) :
    Sound null (c.perform b) := by
  cases c with
  | setIsLittleEndian val =>
      exact ⟨h.base_pos, h.blocks, h.root, h.capacity, h.position_le, h.size_le, h.cur⟩
  | writeScalar value => exact kind_write_sound h value.1 value.2
  | readScalar kind => exact (kind_read_sound h kind).discard
  | writeString kind value => exact writeString_sound h kind value
  | writeStringWithoutLength value => exact write_sound h value
  | readString kind => exact (readString_sound h kind hnone).discard
  | write buf => exact write_sound h buf
  | read size => exact (read_sound h hnone).discard
  | setPosition v => exact setPosition_sound h v
  | clear => exact clear_sound h
  | toString => exact (toString_sound h).discard
  | getReadBuffers len => exact (getReadBuffers_sound h [] len).discard
  | getWriteBuffers len filled => exact getWriteBuffers_sound h len filled

theorem step_wf (h : Wf b) (hs : step b c = some b') : Wf b' := by
  have hsound : Sound True (c.perform b) := call_sound h fun _ => trivial
  rw [step] at hs
  split at hs
  · rename_i hr
    rw [hr] at hsound
    cases hs
    exact hsound
  · rename_i hr
    rw [hr] at hsound
    cases hs
    exact hsound
  · cases hs

theorem step_isSome (h : Wf b) (hc : ¬c.ReadsNone b) : (step b c).isSome := by
  have hsound : Sound False (c.perform b) := call_sound h hc
  rw [step]
  split
  · rfl
  · rfl
  · rename_i hr
    rw [hr] at hsound
    exact hsound.elim

/-- The states that the calls lead to. -/
def Reachable (b : ByteArray) : Prop :=
  ∃ (fresh : Nat → Nat → UInt8) (base : Nat) (calls : List Call),
    1 ≤ base ∧ run step (.new fresh base) calls = some b

theorem wf_of_run {base : Nat} {fresh : Nat → Nat → UInt8} {calls : List Call}
    (hbase : 1 ≤ base) (hrun : run step (.new fresh base) calls = some b) : Wf b :=
  run_invariant' (fun _ _ _ => step_wf) (new_refines fresh hbase).wf hrun

theorem Reachable.wf (h : Reachable b) : Wf b := by
  obtain ⟨fresh, base, calls, hbase, hrun⟩ := h
  exact wf_of_run hbase hrun

/-- `m_cur` is null at the end of the last block, and nowhere else. -/
theorem Wf.cur_null_iff (h : Wf b) : b.nodes[b.cur]? = none ↔ b.position = b.capacity := by
  have hle := Nat.le_trans h.position_le h.size_le
  rw [List.getElem?_eq_none_iff, h.cur, Nat.le_div_iff_mul_le h.base_pos, ← h.capacity]
  omega

/-- **The representation invariant.** Whatever is called in whatever order,
and whether the calls return or throw: all blocks have one size, the
capacity counts them, the position is within the size and the size within
the capacity, and `m_cur` is the block of the position. No call but a read
of zero bytes dereferences `nullptr`. -/
theorem representation_kept {base : Nat} (hbase : 1 ≤ base) (fresh : Nat → Nat → UInt8)
    {calls : List Call} {b : ByteArray} (hrun : run step (.new fresh base) calls = some b) :
    (∀ n ∈ b.nodes, n.length = b.baseSize) ∧
      b.capacity = b.baseSize * b.nodes.length ∧
      b.position ≤ b.size ∧ b.size ≤ b.capacity ∧
      b.cur = b.position / b.baseSize ∧
      (b.nodes[b.cur]? = none ↔ b.position = b.capacity) ∧
      ∀ c : Call, ¬c.ReadsNone b → (step b c).isSome := by
  have h := wf_of_run hbase hrun
  have hcap : b.capacity = b.baseSize * b.nodes.length := by
    rw [h.capacity, Nat.mul_comm]
  refine ⟨h.blocks, hcap, h.position_le, h.size_le, h.cur, h.cur_null_iff, ?_⟩
  intro c hc
  exact step_isSome h hc

/-- A string whose length was read and whose bytes are missing, in blocks of
two bytes; then buffers that are partly filled. -/
def brokenString : List Call :=
  [.writeScalar ⟨.fuint16, 5⟩, .write [1], .setPosition 0, .readString .f16,
   .getWriteBuffers 4 [7, 8, 9], .setPosition 5, .setPosition 9]

theorem brokenString_kept :
    ∃ b, run step (.new (fun _ _ => 0) 2) brokenString = some b ∧
      b.capacity = b.baseSize * b.nodes.length ∧ b.cur = b.position / b.baseSize := by
  have hruns : (run step (.new (fun _ _ => 0) 2) brokenString).isSome := by decide +kernel
  obtain ⟨b, hrun⟩ := Option.isSome_iff_exists.mp hruns
  obtain ⟨-, hcap, -, -, hcur, -⟩ := representation_kept (by decide) _ hrun
  exact ⟨b, hrun, hcap, hcur⟩

end Hps.Bytes
