import Hps.Bytes.Positioned
import Hps.Bytes.File

/-!
# Bytes — where the current block is null

All public operations, those of `Call` and the ones with a position or a
file. `DerefsNull` says that an operation evaluates `m_cur->size` or
`m_cur->ptr` while `m_cur` is `nullptr`, and `Guarded` when it does not.
-/

namespace Hps.Bytes

open Hps.Lib

/-! ## The operations -/

def hexDigit (n : Nat) : UInt8 := .ofNat (if n < 10 then 0x30 + n else 0x57 + n)

/-- A line of `toHexString` has 32 bytes. -/
def toHexString : M (List UInt8) := do
  let str ← Bytes.toString
  pure (str.zipIdx.flatMap fun (x, i) =>
    (if i > 0 ∧ i % 32 = 0 then [0x0a] else []) ++
      [hexDigit (x.toNat / 16), hexDigit (x.toNat % 16), 0x20])

/-- The getters are left out: they look at no block. -/
inductive Operation where
  | call (c : Call)
  | readAt (size position : Nat)
  | getReadBuffersAt (len position : Nat)
  | toHexString
  | writeToFile (opened : Bool)
  | readFromFile (file : Option (List UInt8))

/-- Turns that are enough for any file. -/
def turnsFor (file : Option (List UInt8)) : Nat := (file.getD []).length + 1

/-- The array after an action that returned or threw. -/
def resume {α : Type} : EStateM.Result Error ByteArray α → Option ByteArray
  | .ok _ b => some b
  | .error (.outOfRange _) b => some b
  | .error .nullPointer _ => none

namespace Operation

/-- The array after the operation, if it comes to an end. -/
def step (b : ByteArray) : Operation → Option ByteArray
  | call c => Bytes.step b c
  | readAt size position => resume (Bytes.readAt size position b)
  | getReadBuffersAt len position => resume (Bytes.getReadBuffersAt [] len position b)
  | toHexString => resume (Bytes.toHexString b)
  | writeToFile opened => (Bytes.writeToFile opened b).toOption.map fun _ => b
  | readFromFile file => resume (Bytes.readFromFile (turnsFor file) file b)

/-- The operation evaluates `m_cur->size` or `m_cur->ptr`, or the same of the
`cur` that starts as `m_cur`, while `m_cur` is null. The buffers at a position
are found from `m_root` on. -/
def DerefsNull (b : ByteArray) : Operation → Prop
  | call c => ∃ b', c.perform b = .error .nullPointer b'
  | readAt size position => size ≤ sizeFrom b position ∧ b.nodes[b.cur]? = none
  | getReadBuffersAt _ _ => False
  | toHexString => ∃ b', Bytes.toHexString b = .error .nullPointer b'
  | writeToFile opened => opened = true ∧ b.getReadSize > 0 ∧ b.nodes[b.cur]? = none
  | readFromFile file =>
      ∃ b', Bytes.readFromFile (turnsFor file) file b = .error .nullPointer b'

/-- The reads of no bytes and the reads at a position are made before the end
of the last block; of a string that is where its length ends. -/
def Guarded (b : ByteArray) : Operation → Prop
  | call (.read size) => size ≠ 0 ∨ b.position ≠ b.capacity
  | call (.readString kind) =>
      ∀ b', kind.readLen b = .ok 0 b' → b'.position ≠ b'.capacity
  | readAt size position => size > sizeFrom b position ∨ b.position ≠ b.capacity
  | _ => True

instance (b : ByteArray) : (op : Operation) → Decidable (op.Guarded b)
  | call c =>
      match c with
      | .read size => inferInstanceAs (Decidable (size ≠ 0 ∨ b.position ≠ b.capacity))
      | .readString kind =>
          match hlen : kind.readLen b with
          | .ok len b₁ => decidable_of_iff (len = 0 → b₁.position ≠ b₁.capacity) <| by
              constructor
              · intro h b' hok
                rw [hlen] at hok
                cases hok
                exact h rfl
              · rintro h rfl
                exact h b₁ hlen
          | .error _ _ => isTrue fun b' hok => by rw [hlen] at hok; cases hok
      | .setIsLittleEndian _ | .writeScalar _ | .readScalar _ | .writeString _ _
      | .writeStringWithoutLength _ | .write _ | .setPosition _ | .clear | .toString
      | .getReadBuffers _ | .getWriteBuffers _ _ => isTrue trivial
  | readAt size position =>
      inferInstanceAs (Decidable (size > sizeFrom b position ∨ b.position ≠ b.capacity))
  | getReadBuffersAt _ _ | toHexString | writeToFile _ | readFromFile _ => isTrue trivial

end Operation

/-! ## One operation -/

section Step

variable {α : Type} {b b' : ByteArray}

theorem Sound.resume_wf {null : Prop} {r : EStateM.Result Error ByteArray α}
    (h : Sound null r) (hr : resume r = some b') : Wf b' := by
  cases r with
  | ok a b₁ =>
      cases hr
      exact h
  | error e b₁ =>
      cases e with
      | outOfRange what =>
          cases hr
          exact h
      | nullPointer => cases hr

theorem Sound.not_null {r : EStateM.Result Error ByteArray α} (h : Sound False r) :
    r ≠ .error .nullPointer b' := by
  rintro rfl
  exact h

theorem readFromFile_sound {null : Prop} (h : Wf b) (file : Option (List UInt8)) :
    Sound null (readFromFile (turnsFor file) file b) := by
  cases file with
  | none => exact h
  | some contents =>
      obtain ⟨b', hloop, hr⟩ := fileLoop_refines contents h.refines h.base_pos
        (Nat.lt_succ_self _)
      have hread : readFromFile (turnsFor (some contents)) (some contents) b =
          .ok (some true) b' := hloop
      rw [hread]
      exact hr.wf

theorem toHexString_sound {null : Prop} (h : Wf b) : Sound null (toHexString b) :=
  (toString_sound h).bind fun _ _ _ hw => hw

/-- What looks at the array and returns leaves it as it is. -/
theorem readAt_resume {size position : Nat} (hr : resume (readAt size position b) = some b') :
    b' = b := by
  rw [readAt] at hr
  split at hr
  · cases hr
    rfl
  · split at hr
    · cases hr
    · cases hr
      rfl

theorem getReadBuffersAt_resume {len position : Nat}
    (hr : resume (getReadBuffersAt [] len position b) = some b') : b' = b := by
  rw [getReadBuffersAt] at hr
  generalize (if len > b.getReadSize then b.getReadSize else len) = n at hr
  dsimp only at hr
  split at hr
  · cases hr
    rfl
  · split at hr
    · cases hr
    · cases hr
      rfl

/-- **Every operation** keeps the array in shape. -/
theorem Operation.step_wf {op : Operation} (h : Wf b) (hs : op.step b = some b') : Wf b' := by
  cases op with
  | call c => exact Bytes.step_wf h hs
  | readAt size position => exact readAt_resume hs ▸ h
  | getReadBuffersAt len position => exact getReadBuffersAt_resume hs ▸ h
  | toHexString =>
      have hsound : Sound True (Bytes.toHexString b) := toHexString_sound h
      exact hsound.resume_wf hs
  | writeToFile opened =>
      obtain ⟨_, -, hb⟩ := Option.map_eq_some_iff.mp hs
      exact hb ▸ h
  | readFromFile file =>
      have hsound : Sound True (Bytes.readFromFile (turnsFor file) file b) :=
        readFromFile_sound h file
      exact hsound.resume_wf hs

theorem read_null_iff (h : Wf b) (size : Nat) :
    (∃ b', read size b = .error .nullPointer b') ↔ size = 0 ∧ b.position = b.capacity := by
  constructor
  · rintro ⟨b', hnull⟩
    have hzero : size = 0 := by
      by_contra hne
      exact (read_sound h fun h0 => hne h0).not_null hnull
    refine ⟨hzero, ?_⟩
    by_contra hcap
    rw [hzero, read, if_neg (Nat.not_lt_zero _), gather_zero h hcap] at hnull
    cases hnull
  · rintro ⟨rfl, hcap⟩
    exact ⟨b, by rw [read, if_neg (Nat.not_lt_zero _), gather_at_capacity h hcap]⟩

theorem readString_null_iff (h : Wf b) (kind : StringKind) :
    (∃ b', kind.read b = .error .nullPointer b') ↔
      ∃ b', kind.readLen b = .ok 0 b' ∧ b'.position = b'.capacity := by
  rw [kind.read_eq, readString]
  have hsound : Sound False (kind.readLen b) := readLen_sound h kind
  cases hlen : kind.readLen b with
  | error e b₁ =>
      rw [bind_error hlen]
      rw [hlen] at hsound
      cases e with
      | outOfRange what => simp
      | nullPointer => exact hsound.elim
  | ok len b₁ =>
      rw [hlen] at hsound
      -- behind the length, the string is read like any bytes
      have hzero : len.toNat = 0 ↔ len = 0 := by
        rw [← BitVec.toNat_inj]
        rfl
      rw [bind_ok hlen, read_null_iff hsound, hzero]
      constructor
      · rintro ⟨rfl, hcap⟩
        exact ⟨b₁, rfl, hcap⟩
      · rintro ⟨b', hok, hcap⟩
        cases hok
        exact ⟨rfl, hcap⟩

theorem discard_null_iff {m : M α} :
    (∃ b', (do let _ ← m : M Unit) b = .error .nullPointer b') ↔
      ∃ b', m b = .error .nullPointer b' := by
  have hmap : (do let _ ← m : M Unit) = (fun _ => ()) <$> m := rfl
  rw [hmap, map_eq_pure_bind]
  cases hm : m b with
  | ok a b₁ =>
      rw [bind_ok hm]
      simp [pure, EStateM.pure]
  | error e b₁ =>
      rw [bind_error hm]
      simp

theorem call_not_null (h : Wf b) {c : Call} (hc : ¬c.ReadsNone b) :
    c.perform b ≠ .error .nullPointer b' :=
  (call_sound h hc).not_null

/-- **One operation** dereferences null exactly where it is not guarded. -/
theorem Operation.not_derefsNull_iff (h : Wf b) (op : Operation) :
    ¬op.DerefsNull b ↔ op.Guarded b := by
  cases op with
  | call c =>
      cases c with
      | read size =>
          have hnull : (call (.read size)).DerefsNull b ↔ size = 0 ∧ b.position = b.capacity :=
            discard_null_iff.trans (read_null_iff h size)
          rw [hnull, Guarded]
          omega
      | readString kind =>
          have hnull : (call (.readString kind)).DerefsNull b ↔
              ∃ b', kind.readLen b = .ok 0 b' ∧ b'.position = b'.capacity :=
            discard_null_iff.trans (readString_null_iff h kind)
          rw [hnull, Guarded]
          simp
      | _ =>
          refine iff_of_true ?_ trivial
          rintro ⟨b', hnull⟩
          refine call_not_null h ?_ hnull
          intro hnone
          exact hnone
  | readAt size position =>
      rw [DerefsNull, Guarded, h.cur_null_iff]
      omega
  | getReadBuffersAt len position => simp [DerefsNull, Guarded]
  | toHexString =>
      refine iff_of_true ?_ trivial
      rintro ⟨b', hnull⟩
      exact (toHexString_sound h).not_null hnull
  | writeToFile opened =>
      refine iff_of_true ?_ trivial
      -- there is something left to dump, so `m_cur` is a block
      rintro ⟨-, hread, hcur⟩
      have hcap := h.cur_null_iff.mp hcur
      have := h.size_le
      rw [ByteArray.getReadSize] at hread
      omega
  | readFromFile file =>
      refine iff_of_true ?_ trivial
      rintro ⟨b', hnull⟩
      exact (readFromFile_sound h file).not_null hnull

end Step

/-! ## Whole runs -/

/-- No operation of the run dereferences null. -/
def NeverNull (b : ByteArray) (ops : List Operation) : Prop :=
  Meets Operation.step (fun b op => ¬op.DerefsNull b) b ops

/-- **Null dereferences.** A run makes none exactly if every operation of it
is made where it is guarded. -/
theorem neverNull_iff {base : Nat} (hbase : 1 ≤ base) (fresh : Nat → Nat → UInt8)
    (ops : List Operation) :
    NeverNull (.new fresh base) ops ↔
      Meets Operation.step (fun b op => op.Guarded b) (.new fresh base) ops := by
  have hstep : ∀ b (op : Operation) b', Wf b → ¬op.DerefsNull b → op.step b = some b' → Wf b' :=
    fun _ _ _ h _ => Operation.step_wf h
  have hone : ∀ b (op : Operation), Wf b → (¬op.DerefsNull b ↔ op.Guarded b) :=
    fun _ op h => Operation.not_derefsNull_iff h op
  exact Meets.congr hstep hone (new_refines fresh hbase).wf

/-- A string of no bytes that is not the last of its block, and reads of no
bytes within a block. -/
def emptyReads : List Operation :=
  [.call (.writeString .f16 []), .call (.write [7]), .call (.setPosition 0),
   .call (.readString .f16), .readAt 0 3, .call (.read 0)]

theorem emptyReads_neverNull : NeverNull (.new (fun _ _ => 0) 4) emptyReads := by
  refine (neverNull_iff (by decide) _ emptyReads).mpr ?_
  decide +kernel

/-- A read of no bytes from a block that is full. -/
theorem fullBlock_derefsNull :
    ¬NeverNull (.new (fun _ _ => 0) 1) [.call (.write [7]), .call (.read 0)] := by
  intro h
  have hruns : (Operation.step (.new (fun _ _ => 0) 1) (.call (.write [7]))).map
      (fun b => (b.position, b.capacity)) = some (1, 1) := by
    decide +kernel
  obtain ⟨b, hs, hb⟩ := Option.map_eq_some_iff.mp hruns
  simp only [Prod.mk.injEq] at hb
  have hwf := Operation.step_wf (new_refines (fun _ _ => 0) Nat.one_pos).wf hs
  refine (h.2 b hs).1 (discard_null_iff.mpr ((read_null_iff hwf 0).mpr ⟨rfl, ?_⟩))
  rw [hb.1, hb.2]

end Hps.Bytes
