import Hps.Bytes.Calls

/-!
# Bytes — the byte order setting

`m_endian` is an `int8_t`, so that neither of the two settings is the 1234
it is compared with: the writers swap under both. `Honoured` is what a
setting is for, and it holds for the setting that asks for the swap.
-/

namespace Hps.Bytes

open Hps.Lib

/-! ## Bytes in an order -/

/-- The bytes of `x`, the least significant first. -/
def leastFirst (n : Nat) (x : BitVec (8 * n)) : List UInt8 :=
  (List.range n).map fun i => UInt8.ofNat (x.toNat / 256 ^ i)

/-- The bytes of `x` in the order that was set. -/
def orderedBytes (little : Bool) (n : Nat) (x : BitVec (8 * n)) : List UInt8 :=
  if little then leastFirst n x else (leastFirst n x).reverse

theorem hostBytes_eq (n : Nat) (x : BitVec (8 * n)) : hostBytes n x = leastFirst n x := by
  refine List.map_congr_left ?_
  intro i _
  apply UInt8.toNat_inj.mp
  simp [BitVec.toNat_setWidth, BitVec.toNat_ushiftRight, Nat.shiftRight_eq_div_pow, Nat.pow_mul]

theorem hostBytes_byteswap (n : Nat) (x : BitVec (8 * n)) :
    hostBytes n (byteswap n x) = (hostBytes n x).reverse :=
  hostBytes_ofHostBytes (by rw [List.length_reverse, hostBytes_length])

theorem fixedBytes_of_ne {e : Int} (he : e ≠ byteOrder) (n : Nat) (x : BitVec (8 * n)) :
    fixedBytes e n x = orderedBytes false n x := by
  rw [fixedBytes, if_pos he, hostBytes_byteswap, hostBytes_eq]
  rfl

/-! ## What keeps the settings -/

/-- The byte order and the block size are the same. -/
structure SameSettings (b b' : ByteArray) : Prop where
  endian : b'.endian = b.endian
  baseSize : b'.baseSize = b.baseSize

theorem SameSettings.refl (b : ByteArray) : SameSettings b b := ⟨rfl, rfl⟩

theorem SameSettings.trans {b b' b'' : ByteArray} (h : SameSettings b b')
    (h' : SameSettings b' b'') : SameSettings b b'' :=
  ⟨h'.endian.trans h.endian, h'.baseSize.trans h.baseSize⟩

theorem addCapacity_settings (b : ByteArray) (n : Nat) : SameSettings b (b.addCapacity n) := by
  rw [ByteArray.addCapacity]
  split_ifs <;> exact ⟨rfl, rfl⟩

/-- The action changes neither, also where it throws. -/
def KeepsSettings {α : Type} (m : M α) : Prop :=
  ∀ b, SameSettings b (outcome (m b)).2

section KeepsSettings

variable {α β : Type}

theorem KeepsSettings.bind {m : M α} {k : α → M β} (h : KeepsSettings m)
    (hk : ∀ a, KeepsSettings (k a)) : KeepsSettings (m >>= k) := by
  intro b
  have hb := h b
  cases hm : m b with
  | ok a b₁ =>
      rw [hm] at hb
      rw [bind_ok hm]
      exact hb.trans (hk a b₁)
  | error e b₁ =>
      rw [hm] at hb
      rw [bind_error hm]
      exact hb

theorem KeepsSettings.of_ok {m : M α} (h : KeepsSettings m) {a : α} {b b' : ByteArray}
    (hm : m b = .ok a b') : SameSettings b b' := by
  have hb := h b
  rw [hm] at hb
  exact hb

theorem KeepsSettings.pure (a : α) : KeepsSettings (pure a : M α) := .refl

theorem KeepsSettings.map {m : M α} (h : KeepsSettings m) (g : α → β) : KeepsSettings (g <$> m) := by
  rw [map_eq_pure_bind]
  exact h.bind fun _ => .pure _

theorem KeepsSettings.get {k : ByteArray → M α} (h : ∀ b, KeepsSettings (k b)) :
    KeepsSettings (get >>= k) :=
  fun b => h b b

theorem keeps_write (buf : List UInt8) : KeepsSettings (write buf) := by
  intro b
  have hgrow := addCapacity_settings b buf.length
  rw [write]
  split
  · exact .refl b
  · dsimp only
    split
    · exact hgrow
    · exact ⟨hgrow.endian, hgrow.baseSize⟩

theorem keeps_read (size : Nat) : KeepsSettings (read size) := by
  intro b
  rw [read]
  split
  · exact .refl b
  · split <;> exact ⟨rfl, rfl⟩

theorem keeps_setPosition (v : Nat) : KeepsSettings (setPosition v) := by
  intro b
  rw [setPosition]
  split
  · exact .refl b
  · dsimp only
    split <;> exact ⟨rfl, rfl⟩

theorem keeps_toString : KeepsSettings toString := by
  intro b
  rw [toString, readAt]
  split_ifs
  · exact .refl b
  · exact .refl b
  · split <;> exact .refl b

theorem keeps_getReadBuffers (buffers : List IoVec) (len : Nat) :
    KeepsSettings (getReadBuffers buffers len) := by
  intro b
  rw [getReadBuffers]
  generalize (if len > b.getReadSize then b.getReadSize else len) = n
  split
  · exact .refl b
  · split <;> exact .refl b

theorem keeps_getWriteBuffers (buffers : List IoVec) (len : Nat) :
    KeepsSettings (getWriteBuffers buffers len) := by
  intro b
  rw [getWriteBuffers]
  split
  · exact .refl b
  · dsimp only
    split <;> exact addCapacity_settings b len

theorem keeps_writeFixed (n : Nat) (x : BitVec (8 * n)) : KeepsSettings (writeFixed n x) :=
  .get fun _ => keeps_write _

theorem keeps_readFixed (n : Nat) : KeepsSettings (readFixed n) := by
  refine (keeps_read n).bind fun bytes => .get fun b => ?_
  dsimp only
  split
  · exact .pure _
  · exact .pure _

theorem keeps_readByte : KeepsSettings readByte := (keeps_read 1).map _

theorem keeps_readVarint (w i : Nat) (result : BitVec w) :
    KeepsSettings (readVarint w i result) := by
  induction i, result using readVarint.induct w with
  | case1 i result hi ih =>
      rw [readVarint, if_pos hi]
      refine keeps_readByte.bind fun byte => ?_
      by_cases hlast : byte < 0x80
      · rw [if_pos hlast]
        exact .pure _
      · rw [if_neg hlast]
        exact ih byte
  | case2 i result hi =>
      rw [readVarint, if_neg hi]
      exact .pure _

theorem keeps_kind_write (k : Kind) (v : BitVec k.bits) : KeepsSettings (k.write v) := by
  cases k with
  | fint16 | fuint16 => exact keeps_writeFixed 2 v
  | fint32 | fuint32 | float => exact keeps_writeFixed 4 v
  | fint64 | fuint64 | double => exact keeps_writeFixed 8 v
  | fint8 | fuint8 => exact keeps_write (hostBytes 1 v)
  | int32 | int64 => exact keeps_write (varint (encodeZigzag v))
  | uint32 | uint64 => exact keeps_write (varint v)

theorem keeps_kind_read (k : Kind) : KeepsSettings k.read := by
  cases k with
  | fint8 | fuint8 => exact keeps_readByte
  | fint16 | fuint16 => exact keeps_readFixed 2
  | fint32 | fuint32 | float => exact keeps_readFixed 4
  | fint64 | fuint64 | double => exact keeps_readFixed 8
  | int32 => exact (keeps_readVarint 32 0 0).map _
  | uint32 => exact keeps_readVarint 32 0 0
  | int64 => exact (keeps_readVarint 64 0 0).map _
  | uint64 => exact keeps_readVarint 64 0 0

theorem keeps_readLen (k : StringKind) : KeepsSettings k.readLen := by
  cases k with
  | f16 => exact keeps_readFixed 2
  | f32 => exact keeps_readFixed 4
  | f64 => exact keeps_readFixed 8
  | vint => exact keeps_readVarint 64 0 0

theorem keeps_writeString (k : StringKind) (value : List UInt8) :
    KeepsSettings (k.write value) := by
  cases k with
  | f16 => exact (keeps_writeFixed 2 _).bind fun _ => keeps_write value
  | f32 => exact (keeps_writeFixed 4 _).bind fun _ => keeps_write value
  | f64 => exact (keeps_writeFixed 8 _).bind fun _ => keeps_write value
  | vint => exact (keeps_write _).bind fun _ => keeps_write value

/-- Every call but `setIsLittleEndian` keeps the settings. -/
theorem keeps_perform {c : Call} (hc : ∀ val, c ≠ .setIsLittleEndian val) :
    KeepsSettings c.perform := by
  cases c with
  | setIsLittleEndian val => exact absurd rfl (hc val)
  | writeScalar value => exact keeps_kind_write value.1 value.2
  | readScalar kind => exact (keeps_kind_read kind).map _
  | writeString kind value => exact keeps_writeString kind value
  | writeStringWithoutLength value => exact keeps_write value
  | readString kind =>
      refine KeepsSettings.map ?_ _
      rw [kind.read_eq]
      exact (keeps_readLen kind).bind fun len => keeps_read len.toNat
  | write buf => exact keeps_write buf
  | read size => exact (keeps_read size).map _
  | setPosition v => exact keeps_setPosition v
  | clear => exact fun _ => ⟨rfl, rfl⟩
  | toString => exact keeps_toString.map _
  | getReadBuffers len => exact (keeps_getReadBuffers [] len).map _
  | getWriteBuffers len filled =>
      exact (keeps_getWriteBuffers [] len).bind fun _ _ => ⟨rfl, rfl⟩

end KeepsSettings

/-! ## What a setting is for -/

/-- The action copies the bytes into the array at the cursor. -/
def Copies (b : ByteArray) (wr : M Unit) (bytes : List UInt8) : Prop :=
  ∃ b', wr b = .ok () b' ∧ b'.flat = b.flat.write bytes

/-- The setting `little` is honoured: it reads back, and the writers of fixed
width put the bytes in its order. -/
structure Honoured (b : ByteArray) (little : Bool) : Prop where
  flag : isLittleEndian b = little
  fint16 : ∀ x, Copies b (writeFint16 x) (orderedBytes little 2 x)
  fuint16 : ∀ x, Copies b (writeFuint16 x) (orderedBytes little 2 x)
  fint32 : ∀ x, Copies b (writeFint32 x) (orderedBytes little 4 x)
  fuint32 : ∀ x, Copies b (writeFuint32 x) (orderedBytes little 4 x)
  fint64 : ∀ x, Copies b (writeFint64 x) (orderedBytes little 8 x)
  fuint64 : ∀ x, Copies b (writeFuint64 x) (orderedBytes little 8 x)

/-- Whenever a run has set a byte order and not changed it since, the setting
is honoured. -/
def OrderHonoured (b : ByteArray) (calls : List Call) : Prop :=
  ∀ (before after rest : List Call) (little : Bool) (b' : ByteArray),
    calls = before ++ .setIsLittleEndian little :: after ++ rest →
    (∀ val, .setIsLittleEndian val ∉ after) →
    run step b (before ++ .setIsLittleEndian little :: after) = some b' →
    Honoured b' little

variable {b b' : ByteArray} {c : Call}

theorem step_settings (hc : ∀ val, c ≠ .setIsLittleEndian val) (hs : step b c = some b') :
    SameSettings b b' := by
  have hkept := keeps_perform hc b
  rw [step] at hs
  split at hs
  · rename_i hr
    rw [hr] at hkept
    cases hs
    exact hkept
  · rename_i hr
    rw [hr] at hkept
    cases hs
    exact hkept
  · cases hs

theorem run_settings {calls : List Call} (hcalls : ∀ val, .setIsLittleEndian val ∉ calls)
    (hrun : run step b calls = some b') : SameSettings b b' := by
  induction calls generalizing b with
  | nil =>
      cases hrun
      exact .refl _
  | cons c calls ih =>
      obtain ⟨b₁, hs, hr⟩ := Option.bind_eq_some_iff.mp hrun
      have hc : ∀ val, c ≠ .setIsLittleEndian val := by
        rintro val rfl
        exact hcalls val List.mem_cons_self
      have hrest : ∀ val, .setIsLittleEndian val ∉ calls :=
        fun val hval => hcalls val (List.mem_cons_of_mem c hval)
      exact (step_settings hc hs).trans (ih hrest hr)

/-- What `setIsLittleEndian` leaves in `m_endian`. -/
def settingOf (little : Bool) : Int := if little then Int.bmod 1234 256 else bigEndian

theorem settingOf_ne (little : Bool) : settingOf little ≠ byteOrder := by
  cases little <;> decide

/-- After a setting `m_endian` is what it left there. -/
theorem endian_of_run {before after : List Call} {little : Bool}
    (hafter : ∀ val, .setIsLittleEndian val ∉ after)
    (hrun : run step b (before ++ .setIsLittleEndian little :: after) = some b') :
    b'.endian = settingOf little := by
  rw [run_append] at hrun
  obtain ⟨b₁, -, hrest⟩ := Option.bind_eq_some_iff.mp hrun
  obtain ⟨b₂, hs, hr⟩ := Option.bind_eq_some_iff.mp hrest
  have hset : b₂.endian = settingOf little := by
    cases hs
    rfl
  exact (run_settings hafter hr).endian.trans hset

/-- **Both settings swap**: the most significant byte comes first. -/
theorem copies_mostFirst (h : Wf b) {little : Bool} (he : b.endian = settingOf little)
    (n : Nat) (x : BitVec (8 * n)) : Copies b (writeFixed n x) (orderedBytes false n x) := by
  obtain ⟨b', hb', hr, -⟩ := writes_fixed n x b _ h.refines he
  rw [fixedBytes_of_ne (settingOf_ne little)] at hr
  exact ⟨b', hb', hr.flat_eq⟩

/-- A setting is honoured exactly if it is the one for the network order. -/
theorem honoured_iff (h : Wf b) {little : Bool} (he : b.endian = settingOf little) :
    Honoured b little ↔ little = false := by
  have hflag : isLittleEndian b = false := by
    rw [isLittleEndian, he]
    cases little <;> rfl
  constructor
  · intro hh
    rw [← hh.flag, hflag]
  · rintro rfl
    have hcopies := fun n x => copies_mostFirst h he n x
    exact ⟨hflag, hcopies 2, hcopies 2, hcopies 4, hcopies 4, hcopies 8, hcopies 8⟩

/-- **The byte order setting.** In a run, settings are honoured from the call
on exactly if none of them asks for the little-endian order. -/
theorem orderHonoured_iff {base : Nat} (hbase : 1 ≤ base) (fresh : Nat → Nat → UInt8)
    {calls : List Call} (hrun : run step (.new fresh base) calls = some b) :
    OrderHonoured (.new fresh base) calls ↔
      ∀ little, .setIsLittleEndian little ∈ calls → little = false := by
  constructor
  · intro h little hmem
    obtain ⟨before, rest, hcalls⟩ := List.append_of_mem hmem
    have hsplit : calls = before ++ .setIsLittleEndian little :: [] ++ rest := by
      rw [hcalls, List.append_assoc]
      rfl
    rw [hsplit, run_append] at hrun
    obtain ⟨b', hb', -⟩ := Option.bind_eq_some_iff.mp hrun
    -- the setting itself, with nothing behind it
    have hnone : ∀ val, Call.setIsLittleEndian val ∉ [] := fun _ => List.not_mem_nil
    have hh := h before [] rest little b' hsplit hnone hb'
    exact (honoured_iff (wf_of_run hbase hb') (endian_of_run hnone hb')).mp hh
  · intro h before after rest little b' hsplit hafter hb'
    have hlittle := h little (by rw [hsplit]; simp)
    exact (honoured_iff (wf_of_run hbase hb') (endian_of_run hafter hb')).mpr hlittle

/-- Values written under the order of the network. -/
theorem networkOrder_honoured :
    OrderHonoured (.new (fun _ _ => 0) 4) [.setIsLittleEndian false, .writeScalar ⟨.fint32, 1⟩] := by
  have hruns : (run step (.new (fun _ _ => 0) 4)
      [.setIsLittleEndian false, .writeScalar ⟨.fint32, 1⟩]).isSome := by decide +kernel
  obtain ⟨b, hrun⟩ := Option.isSome_iff_exists.mp hruns
  refine (orderHonoured_iff (by decide) _ hrun).mpr ?_
  intro little hmem
  simpa using hmem

/-- `setIsLittleEndian(true)` on a new array does not read back. -/
theorem littleEndian_not_honoured :
    ¬OrderHonoured (.new (fun _ _ => 0) 4) [.setIsLittleEndian true] := by
  intro h
  have hh := h [] [] [] true _ rfl (fun _ => List.not_mem_nil) rfl
  exact absurd hh.flag (by decide)

end Hps.Bytes
