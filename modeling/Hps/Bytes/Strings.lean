import Hps.Bytes.ByteOrder
import Hps.Bytes.Positioned

/-!
# Bytes — strings written are strings read

A string goes behind its length, which has the width its writer is named
after. Where the lengths fit, the readers take back what was written. A
string of no bytes is read with a `read` of none, which has to be made
before the end of the last block.
-/

namespace Hps.Bytes

open Hps.Lib

/-! ## Strings of any of the kinds -/

/-- A string, and the pair of functions it goes through. -/
abbrev Text := StringKind × List UInt8

def writeStrings : List Text → M Unit
  | [] => pure ()
  | (kind, value) :: texts => do kind.write value; writeStrings texts

/-- The readers of these kinds, one after the other. -/
def readStrings : List StringKind → M (List (List UInt8))
  | [] => pure []
  | kind :: kinds => do
      let value ← kind.read
      let values ← readStrings kinds
      pure (value :: values)

/-- The strings written to a new array, and read from its beginning. -/
def stringsThrough (texts : List Text) : M (List (List UInt8)) := do
  writeStrings texts
  setPosition 0
  readStrings (texts.map (·.1))

namespace StringKind

/-- How many bytes the length takes. -/
def lenSize : StringKind → Nat → Nat
  | f16, _ => 2
  | f32, _ => 4
  | f64, _ => 8
  | vint, n => (varint (BitVec.ofNat 64 n)).length

/-- The bytes of the length under the byte order `e`. -/
def lenBytes (e : Int) : StringKind → Nat → List UInt8
  | f16, n => fixedBytes e 2 (.ofNat 16 n)
  | f32, n => fixedBytes e 4 (.ofNat 32 n)
  | f64, n => fixedBytes e 8 (.ofNat 64 n)
  | vint, n => varint (.ofNat 64 n)

end StringKind

/-- How many bytes the strings take with their lengths. -/
def encodedLength (texts : List Text) : Nat :=
  (texts.map fun text => text.1.lenSize text.2.length + text.2.length).sum

/-- The bytes of the strings. -/
def encoded (e : Int) (texts : List Text) : List UInt8 :=
  texts.flatMap fun text => text.1.lenBytes e text.2.length ++ text.2

/-! ## The bytes -/

section Encoding

variable {e : Int} {kind : StringKind} {n : Nat} {text : Text} {texts : List Text}

theorem lenBytes_length (e : Int) (kind : StringKind) (n : Nat) :
    (kind.lenBytes e n).length = kind.lenSize n := by
  cases kind with
  | f16 => exact hostBytes_length 2 _
  | f32 => exact hostBytes_length 4 _
  | f64 => exact hostBytes_length 8 _
  | vint => rfl

theorem varint_length_pos {w : Nat} (v : BitVec w) : 0 < (varint v).length := by
  rw [varint]
  split
  · simp
  · simp

theorem lenSize_pos (kind : StringKind) (n : Nat) : 0 < kind.lenSize n := by
  cases kind with
  | vint => exact varint_length_pos _
  | _ => simp [StringKind.lenSize]

theorem encoded_cons (e : Int) (text : Text) (texts : List Text) :
    encoded e (text :: texts) =
      text.1.lenBytes e text.2.length ++ (text.2 ++ encoded e texts) := by
  rw [encoded, List.flatMap_cons, List.append_assoc]
  rfl

theorem encoded_length (e : Int) (texts : List Text) :
    (encoded e texts).length = encodedLength texts := by
  induction texts with
  | nil => rfl
  | cons text texts ih =>
      rw [encoded_cons, List.length_append, List.length_append, lenBytes_length, ih]
      simp [encodedLength, Nat.add_assoc]

theorem writes_string (kind : StringKind) (value : List UInt8) :
    Writes e (kind.write value) (kind.lenBytes e value.length ++ value) := by
  cases kind with
  | f16 => exact (writes_fixed 2 _).seq (writes_write value)
  | f32 => exact (writes_fixed 4 _).seq (writes_write value)
  | f64 => exact (writes_fixed 8 _).seq (writes_write value)
  | vint => exact (writes_write _).seq (writes_write value)

theorem writes_strings (e : Int) (texts : List Text) :
    Writes e (writeStrings texts) (encoded e texts) := by
  induction texts with
  | nil => exact Writes.pure
  | cons text texts ih =>
      rw [encoded_cons, ← List.append_assoc]
      exact (writes_string text.1 text.2).seq ih

theorem reads_readLen (kind : StringKind) (n : Nat) :
    Reads e kind.readLen (kind.lenBytes e n) (.ofNat kind.bits n) := by
  cases kind with
  | f16 => exact reads_fixed 2 (by decide) _
  | f32 => exact reads_fixed 4 (by decide) _
  | f64 => exact reads_fixed 8 (by decide) _
  | vint => exact reads_varint (by decide) _

end Encoding

/-! ## Reading them back -/

section Reading

variable {b : ByteArray} {f : Flat} {e : Int}

/-- A read of no bytes, before the end of the last block. -/
theorem read_zero (h : Wf b) (hcap : b.position ≠ b.capacity) : read 0 b = .ok [] b := by
  rw [read, if_neg (Nat.not_lt_zero _), gather_zero h hcap]
  rfl

theorem read_value (h : Refines b f) {value : List UInt8} (hpre : value <+: f.data.drop f.pos)
    (hempty : value = [] → b.position ≠ b.capacity) :
    ∃ b', read value.length b = .ok value b' ∧
      Refines b' { f with pos := f.pos + value.length } ∧ b'.endian = b.endian := by
  rcases Nat.eq_zero_or_pos value.length with hzero | hpositive
  · have hnil : value = [] := List.length_eq_zero_iff.mp hzero
    subst hnil
    exact ⟨b, read_zero h.wf (hempty rfl), h, rfl⟩
  · exact reads_read hpositive b f h rfl hpre

/-- The string of one reader, whose length fits. -/
theorem readString_value (h : Refines b f) (kind : StringKind) {value rest : List UInt8}
    (hdata : f.data.drop f.pos = kind.lenBytes b.endian value.length ++ (value ++ rest))
    (hfit : value.length < 2 ^ kind.bits)
    (hempty : value = [] → rest = [] → ¬b.baseSize ∣ f.data.length) :
    ∃ b', kind.read b = .ok value b' ∧
      Refines b' { f with pos := f.pos + (kind.lenBytes b.endian value.length ++ value).length } ∧
      SameSettings b b' := by
  obtain ⟨b₁, hlen, hr₁, he₁⟩ := reads_readLen kind value.length b f h rfl ⟨_, hdata.symm⟩
  have hsame₁ := (keeps_readLen kind).of_ok hlen
  have hdata₁ : f.data.drop (f.pos + (kind.lenBytes b.endian value.length).length) =
      value ++ rest := by
    rw [← List.drop_drop, hdata, List.drop_left]
  -- at the end of the blocks the data would be as long as they are
  have hempty₁ : value = [] → b₁.position ≠ b₁.capacity := by
    intro hvalue hcap
    have hw := hr₁.wf
    have hsize := hr₁.length_data
    have hle := hw.size_le
    have hposle := hw.position_le
    have hfilled : f.data.length = b₁.capacity := by
      dsimp only at hsize
      omega
    refine hempty hvalue ?_ ?_
    · have hlength := congrArg List.length hdata₁
      have hpos := hr₁.pos
      have hzero : value.length = 0 := List.length_eq_zero_iff.mpr hvalue
      dsimp only at hpos
      rw [List.length_drop, List.length_append] at hlength
      exact List.length_eq_zero_iff.mp (by omega)
    · rw [hfilled, hw.capacity, hsame₁.baseSize]
      exact Nat.dvd_mul_left _ _
  obtain ⟨b₂, hread, hr₂, -⟩ :=
    read_value hr₁ (hdata₁ ▸ List.prefix_append value rest) hempty₁
  have hsame₂ := (keeps_read value.length).of_ok hread
  have hnat : (BitVec.ofNat kind.bits value.length).toNat = value.length :=
    Nat.mod_eq_of_lt hfit
  refine ⟨b₂, ?_, ?_, hsame₁.trans hsame₂⟩
  · rw [kind.read_eq, readString, bind_ok hlen, hnat, hread]
  · rw [List.length_append, ← Nat.add_assoc]
    exact hr₂

/-- **Any list of strings**, by induction. -/
theorem readStrings_eq {texts : List Text} (h : Refines b f)
    (hdata : f.data.drop f.pos = encoded b.endian texts)
    (hfit : ∀ text ∈ texts, text.2.length < 2 ^ text.1.bits)
    (hlast : ∀ text, texts.getLast? = some text → text.2 = [] → ¬b.baseSize ∣ f.data.length) :
    ∃ b', readStrings (texts.map (·.1)) b = .ok (texts.map (·.2)) b' ∧
      Refines b' { f with pos := f.data.length } := by
  induction texts generalizing b f with
  | nil =>
      have hend : f.pos = f.data.length := by
        have hle := h.pos_le
        have hlength := congrArg List.length hdata
        rw [List.length_drop] at hlength
        exact Nat.le_antisymm hle (Nat.le_of_sub_eq_zero hlength)
      exact ⟨b, rfl, hend ▸ h⟩
  | cons text texts ih =>
      rw [encoded_cons] at hdata
      -- a length takes bytes: only behind the last string there are none
      have hempty : text.2 = [] → encoded b.endian texts = [] → ¬b.baseSize ∣ f.data.length := by
        intro hvalue hrest
        cases texts with
        | nil => exact hlast text rfl hvalue
        | cons next texts =>
            rw [encoded_cons] at hrest
            have hzero := congrArg List.length (List.append_eq_nil_iff.mp hrest).1
            rw [lenBytes_length] at hzero
            exact absurd (lenSize_pos next.1 next.2.length) (by
              rw [hzero]
              exact Nat.lt_irrefl 0)
      obtain ⟨b₁, hread, hr₁, hsame⟩ := readString_value h text.1 hdata
        (hfit text List.mem_cons_self) hempty
      have hdata₁ : f.data.drop (f.pos +
          (text.1.lenBytes b.endian text.2.length ++ text.2).length) =
            encoded b₁.endian texts := by
        rw [← List.drop_drop, hdata, ← List.append_assoc, List.drop_left, hsame.endian]
      obtain ⟨b₂, hreads, hr₂⟩ := ih hr₁ hdata₁
        (fun t ht => hfit t (List.mem_cons_of_mem text ht)) (by
          intro t ht hnil
          rw [hsame.baseSize]
          refine hlast t ?_ hnil
          rw [List.getLast?_cons, ht]
          rfl)
      refine ⟨b₂, ?_, hr₂⟩
      rw [List.map_cons, readStrings, bind_ok hread, bind_ok hreads]
      rfl

theorem keeps_writeStrings (texts : List Text) : KeepsSettings (writeStrings texts) := by
  induction texts with
  | nil => exact .pure ()
  | cons text texts ih => exact (keeps_writeString text.1 text.2).bind fun _ => ih

theorem Flat.write_empty (bytes : List UInt8) :
    Flat.write {} bytes = { data := bytes, pos := bytes.length } := by
  simp [Flat.write, splice]

/-- **Length-prefixed strings.** Whatever the block size, strings whose
lengths fit come back as they were written and nothing is left to read,
unless the last one is empty and ends with the last block. -/
theorem strings_roundTrip {base : Nat} (hbase : 1 ≤ base) (fresh : Nat → Nat → UInt8)
    {texts : List Text} (hfit : ∀ text ∈ texts, text.2.length < 2 ^ text.1.bits)
    (hlast : ∀ text, texts.getLast? = some text → text.2 = [] →
      ¬base ∣ encodedLength texts) :
    ∃ b, stringsThrough texts (.new fresh base) = .ok (texts.map (·.2)) b ∧
      b.getReadSize = 0 := by
  obtain ⟨b₁, h₁, hr₁, he₁⟩ := writes_strings bigEndian texts _ _ (new_refines fresh hbase) rfl
  rw [Flat.write_empty] at hr₁
  obtain ⟨b₂, h₂, hr₂, he₂⟩ := setPosition_refines hr₁ (Nat.zero_le _)
  have hsame := ((keeps_writeStrings texts).of_ok h₁).trans ((keeps_setPosition 0).of_ok h₂)
  have hbase₂ : b₂.baseSize = base := hsame.baseSize
  have hlast₂ : ∀ text, texts.getLast? = some text → text.2 = [] →
      ¬b₂.baseSize ∣ (encoded bigEndian texts).length := by
    rw [hbase₂, encoded_length]
    exact hlast
  obtain ⟨b₃, h₃, hr₃⟩ := readStrings_eq hr₂ (by rw [he₂.trans he₁]; rfl) hfit hlast₂
  refine ⟨b₃, ?_, ?_⟩
  · rw [stringsThrough, bind_ok h₁, bind_ok h₂]
    exact h₃
  · rw [ByteArray.getReadSize, ← hr₃.length_data, hr₃.pos]
    simp

/-- Empty strings and full ones, in blocks of five bytes. -/
def mixedTexts : List Text :=
  [(.f16, []), (.vint, [1, 2, 3]), (.f64, []), (.f32, [9]), (.f16, [])]

theorem mixedTexts_roundTrip :
    ∃ b, stringsThrough mixedTexts (.new (fun _ _ => 0) 5) = .ok (mixedTexts.map (·.2)) b ∧
      b.getReadSize = 0 := by
  refine strings_roundTrip (by decide) _ (by decide) ?_
  have hlength : ¬5 ∣ encodedLength mixedTexts := by decide +kernel
  exact fun _ _ _ => hlength

theorem eq_nil_of_read_zero {value : List UInt8} {b' : ByteArray}
    (h : read 0 b = .ok value b') : value = [] := by
  rw [read, if_neg (Nat.not_lt_zero _), gather] at h
  cases hcur : b.nodes.drop b.cur with
  | nil =>
      rw [hcur] at h
      cases h
  | cons node nodes =>
      rw [hcur] at h
      cases h
      rfl

/-- The length of 65536 bytes does not fit into 16 bits: none are read. -/
theorem longString_lost :
    ¬∃ b, stringsThrough [(.f16, List.replicate 65536 0)] (.new (fun _ _ => 0) 4096) =
        .ok [List.replicate 65536 0] b ∧ b.getReadSize = 0 := by
  generalize hvalue : (List.replicate 65536 0 : List UInt8) = value
  have hlength : value.length = 65536 := by rw [← hvalue, List.length_replicate]
  rintro ⟨b, hthrough, -⟩
  obtain ⟨b₁, h₁, hr₁, he₁⟩ := writes_strings bigEndian [(.f16, value)] _ _
    (new_refines (fun _ _ => 0) (by decide : 0 < 4096)) rfl
  obtain ⟨b₂, h₂, hr₂, he₂⟩ := setPosition_refines hr₁ (Nat.zero_le _)
  rw [Flat.write_empty] at hr₂
  have hpre : StringKind.f16.lenBytes bigEndian value.length <+:
      encoded bigEndian [(.f16, value)] := by
    rw [encoded_cons]
    exact List.prefix_append _ _
  obtain ⟨b₃, h₃, -, -⟩ :=
    reads_readLen .f16 value.length b₂ _ hr₂ (he₂.trans he₁) hpre
  -- 65536 is 0 in 16 bits
  have hzero : (BitVec.ofNat StringKind.f16.bits value.length).toNat = 0 := by
    rw [hlength]
    rfl
  have hread : StringKind.f16.read b₂ = read 0 b₃ := by
    rw [StringKind.read_eq, readString, bind_ok h₃, hzero]
  rw [stringsThrough, bind_ok h₁, bind_ok h₂, List.map_cons, readStrings] at hthrough
  cases hresult : read 0 b₃ with
  | error e b₄ =>
      rw [bind_error (hread.trans hresult)] at hthrough
      cases hthrough
  | ok bytes b₄ =>
      rw [bind_ok (hread.trans hresult)] at hthrough
      cases hthrough
      rw [eq_nil_of_read_zero hresult] at hlength
      exact absurd hlength (by decide)

end Reading

end Hps.Bytes
