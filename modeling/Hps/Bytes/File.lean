import Hps.Bytes.Gather

/-!
# Bytes — to a file and back

`writeToFile` and `readFromFile` on files that are lists of bytes. The loop
of `writeToFile` takes its length from the whole block or from what is left,
less the offset in the block: a whole block is right for every offset, less
than one only for the offset 0.
-/

namespace Hps.Bytes

open Hps.Lib

/-! ## The functions -/

/-- What goes wrong in `ofs.write(cur->ptr + diff, len)`. -/
inductive FileFault where
  | nullPointer
  | negativeLength
  | outsideBlock
deriving DecidableEq, Repr

/-- The loop of `writeToFile` over the blocks from `cur` on: what is written.
The sizes are `int64_t`, and `diff` is an `int`. -/
def dumpLoop (base : Nat) : List Node → (readSize pos : Int) → Except FileFault (List UInt8)
  | [], readSize, _ => if readSize > 0 then .error .nullPointer else .ok []
  | cur :: next, readSize, pos =>
      if readSize > 0 then
        let diff := Int.bmod (pos % base) (2 ^ 32)
        let len := (if readSize > base then (base : Int) else readSize) - diff
        if len < 0 then .error .negativeLength
        else if diff < 0 ∨ diff + len > cur.length then .error .outsideBlock
        else (dumpLoop base next (readSize - len) (pos + len)).map
          ((cur.drop diff.toNat).take len.toNat ++ ·)
      else .ok []

/-- `writeToFile`: what is in the file afterwards, if it could be opened. -/
def writeToFile (opened : Bool) (b : ByteArray) : Except FileFault (Option (List UInt8)) :=
  if opened then
    (dumpLoop b.baseSize (b.nodes.drop b.cur) b.getReadSize b.position).map some
  else .ok none

/-- The loop of `readFromFile` before the rest of a file, `none` if it does
not end within `fuel` turns. `eof` is set by a read that gets less than it
asked for. -/
def fileLoop (base : Nat) : (fuel : Nat) → (rest : List UInt8) → M (Option Bool)
  | 0, _ => pure none
  | fuel + 1, rest => do
      write (rest.take base)
      if rest.length < base then pure (some true) else fileLoop base fuel (rest.drop base)

/-- `readFromFile` of a file that could be opened, or not. -/
def readFromFile (fuel : Nat) (file : Option (List UInt8)) : M (Option Bool) :=
  match file with
  | none => pure (some false)
  | some contents => do
      let b ← get
      fileLoop b.baseSize fuel contents

/-! ## The loop that writes -/

variable {B : Nat} {ns : List Node} {pos : Int} {r d : Nat}

theorem bmod_offset_small (hd : d < 2 ^ 31) : Int.bmod (d : Int) (2 ^ 32) = d := by
  rw [Int.bmod_eq_of_le] <;> omega

theorem bmod_offset_large (hd : 2 ^ 31 ≤ d) (hd' : d < 2 ^ 32) :
    Int.bmod (d : Int) (2 ^ 32) < 0 := by
  rw [Int.bmod_def]
  split <;> omega

theorem dumpLoop_zero : dumpLoop B ns 0 pos = .ok [] := by
  cases ns <;> rfl

/-- One turn, where the offset fits. -/
theorem dumpLoop_cons {cur : Node} {next : List Node} (hr : 0 < r) (hpos : pos % B = d)
    (hd : d < 2 ^ 31) {n : Nat} (hn : d + n = min r B) (hcur : min r B ≤ cur.length) :
    dumpLoop B (cur :: next) r pos =
      (dumpLoop B next ((r - n : Nat) : Int) (pos + n)).map
        ((cur.drop d).take n ++ ·) := by
  have hmin : (if (r : Int) > B then (B : Int) else r) - d = n := by
    split <;> omega
  rw [dumpLoop, if_pos (by omega), hpos, bmod_offset_small hd]
  dsimp only
  rw [hmin, if_neg (by omega), if_neg (by omega), Int.toNat_natCast, Int.toNat_natCast,
    show (r : Int) - n = ((r - n : Nat) : Int) by omega]

/-- From the beginning of a block on. -/
theorem dumpLoop_aligned (h : Blocks B ns) (hpos : pos % B = 0) (hr : r ≤ ns.length * B) :
    dumpLoop B ns r pos = .ok (ns.flatten.take r) := by
  induction ns generalizing r pos with
  | nil =>
      rw [List.length_nil, Nat.zero_mul] at hr
      rw [Nat.le_zero.mp hr]
      rfl
  | cons cur next ih =>
      have hcur : cur.length = B := h cur List.mem_cons_self
      rw [List.length_cons, Nat.succ_mul] at hr
      rcases Nat.eq_zero_or_pos r with rfl | hpositive
      · exact dumpLoop_zero
      · rw [dumpLoop_cons hpositive (d := 0) hpos (by omega) (Nat.zero_add _) (by omega)]
        -- all of the block, or as much as is left
        by_cases hmore : r > B
        · have hnext : (pos + (min r B : Nat)) % B = 0 := by
            rw [Nat.min_eq_right (by omega), Int.add_emod_right]
            exact hpos
          rw [ih h.tail hnext (by omega)]
          simp [Except.map, List.take_append, hcur, Nat.min_eq_right (by omega : B ≤ r),
            List.take_of_length_le (by omega : cur.length ≤ r),
            List.take_of_length_le (by omega : cur.length ≤ B)]
        · rw [Nat.min_eq_left (by omega), Nat.sub_self]
          simp [Except.map, dumpLoop_zero, List.take_append_of_le_length (by omega : r ≤ cur.length)]

/-- From within a block on, if a block or more is left. -/
theorem dumpLoop_whole (h : Blocks B ns) (hpos : pos % B = d) (hd : d < 2 ^ 31) (hdB : d < B)
    (hB : B ≤ r) (hr : d + r ≤ ns.length * B) :
    dumpLoop B ns r pos = .ok ((ns.flatten.drop d).take r) := by
  cases ns with
  | nil =>
      rw [List.length_nil] at hr
      omega
  | cons cur next =>
      have hcur : cur.length = B := h cur List.mem_cons_self
      rw [List.length_cons, Nat.succ_mul] at hr
      have hnext : (pos + (B - d : Nat)) % B = 0 := by
        have hsplit : pos + (B - d : Nat) = pos - pos % B + B := by omega
        rw [hsplit, Int.add_emod_right]
        exact Int.emod_eq_zero_of_dvd (Int.dvd_self_sub_emod)
      -- the first block goes from the offset to its end
      have hblock : (cur.drop d).length = B - d := by rw [List.length_drop, hcur]
      have hfirst : (cur.drop d).take (B - d) = cur.drop d :=
        List.take_of_length_le (Nat.le_of_eq hblock)
      have hall : (cur.drop d).take r = cur.drop d := List.take_of_length_le (by omega)
      rw [dumpLoop_cons (by omega) hpos hd (n := B - d) (by omega) (by omega),
        dumpLoop_aligned h.tail hnext (by omega), List.flatten_cons,
        List.drop_append_of_le_length (by omega), List.take_append, hblock, hall, hfirst]
      rfl

/-- An offset that is no `int` is a negative one. -/
theorem dumpLoop_outside (hr : 0 < r) (hpos : pos % B = d) (hd : 2 ^ 31 ≤ d)
    (hd' : d < 2 ^ 32) : ∃ e, dumpLoop B ns r pos = .error e := by
  cases ns with
  | nil => exact ⟨_, by rw [dumpLoop, if_pos (by omega)]⟩
  | cons cur next =>
      have hdiff := bmod_offset_large hd hd'
      have hlen : ¬((if (r : Int) > B then (B : Int) else r) - Int.bmod d (2 ^ 32) < 0) := by
        split <;> omega
      refine ⟨.outsideBlock, ?_⟩
      rw [dumpLoop, if_pos (by omega), hpos]
      dsimp only
      rw [if_neg hlen, if_pos (.inl hdiff)]

/-- With less than a block left, an offset never leads to the end: the loop
leaves each block with the offset and what is left exchanged. -/
theorem dumpLoop_stuck (h : Blocks B ns) (hB : B ≤ 2 ^ 32) (hr : 0 < r) (hrB : r < B)
    (hpos : pos % B = d) (hd : 0 < d) : ∃ e, dumpLoop B ns r pos = .error e := by
  induction ns generalizing r d pos with
  | nil => exact ⟨_, by rw [dumpLoop, if_pos (by omega)]⟩
  | cons cur next ih =>
      have hcur : cur.length = B := h cur List.mem_cons_self
      have hdB : d < B := by
        have := Int.emod_lt_of_pos pos (by omega : (0 : Int) < B)
        omega
      by_cases hsmall : d < 2 ^ 31
      · by_cases hneg : r < d
        · have hleft : (if (r : Int) > B then (B : Int) else r) = r := if_neg (by omega)
          -- `len` is what is left, less the offset
          refine ⟨.negativeLength, ?_⟩
          rw [dumpLoop, if_pos (by omega), hpos, bmod_offset_small hsmall]
          dsimp only
          rw [hleft, if_pos (by omega)]
        -- the offset in the next block is what was left in this one
        · have hnext : (pos + (r - d : Nat)) % B = r := by
            have hsplit : pos + (r - d : Nat) = pos - pos % B + r := by omega
            rw [hsplit, Int.add_emod, Int.emod_eq_zero_of_dvd (Int.dvd_self_sub_emod),
              Int.zero_add, Int.emod_emod_of_dvd _ (Int.dvd_refl _)]
            exact Int.emod_eq_of_lt (by omega) (by omega)
          rw [dumpLoop_cons hr hpos hsmall (n := r - d) (by omega) (by omega)]
          obtain ⟨e, he⟩ := ih h.tail (r := r - (r - d)) (by omega) (by omega) hnext hr
          exact ⟨e, by rw [he]; rfl⟩
      · exact dumpLoop_outside hr hpos (by omega) (by omega)

/-! ## The loop that reads -/

section Reload

variable {b : ByteArray} {f : Flat}

/-- However the file is cut, what is written is the file. -/
theorem fileLoop_refines {base fuel : Nat} (rest : List UInt8) (h : Refines b f)
    (hbase : 1 ≤ base) (hfuel : rest.length < fuel) :
    ∃ b', fileLoop base fuel rest b = .ok (some true) b' ∧ Refines b' (f.write rest) := by
  induction fuel generalizing rest b f with
  | zero => exact absurd hfuel (Nat.not_lt_zero _)
  | succ fuel ih =>
      obtain ⟨b₁, hw, hr, -⟩ := write_refines h (rest.take base)
      rw [fileLoop, bind_ok hw]
      -- a read that gets less than a block is the last one
      by_cases heof : rest.length < base
      · rw [if_pos heof]
        rw [List.take_of_length_le (by omega)] at hr
        exact ⟨b₁, rfl, hr⟩
      · obtain ⟨b₂, hloop, hr₂⟩ := ih (rest.drop base) hr (by rw [List.length_drop]; omega)
        rw [Flat.write_write h.pos_le, List.take_append_drop] at hr₂
        exact ⟨b₂, by rw [if_neg heof, hloop], hr₂⟩

/-- A new array that reads a file, set back to its beginning, shows it. -/
theorem reload_eq {base : Nat} (hbase : 1 ≤ base) (fresh : Nat → Nat → UInt8)
    (contents : List UInt8) :
    ∃ b₁ b₂, readFromFile (contents.length + 1) (some contents) (.new fresh base) =
        .ok (some true) b₁ ∧
      setPosition 0 b₁ = .ok () b₂ ∧ toString b₂ = .ok contents b₂ := by
  obtain ⟨b₁, hloop, hr₁⟩ := fileLoop_refines contents (new_refines fresh hbase)
    hbase (Nat.lt_succ_self _)
  obtain ⟨b₂, hset, hr₂, -⟩ := setPosition_refines hr₁ (Nat.zero_le _)
  refine ⟨b₁, b₂, hloop, hset, ?_⟩
  rw [toString_refines hr₂]
  simp [Flat.toString, Flat.write, splice]

end Reload

/-! ## There and back -/

/-- The dump is what `toString` returns, and whatever block size the second
array has, reading the file ends and gives it back. -/
def RoundTripsFile (b : ByteArray) : Prop :=
  ∃ text, toString b = .ok text b ∧ writeToFile true b = .ok (some text) ∧
    ∀ (base : Nat) (fresh : Nat → Nat → UInt8), 1 ≤ base →
      ∃ fuel b₁ b₂, readFromFile fuel (some text) (.new fresh base) = .ok (some true) b₁ ∧
        setPosition 0 b₁ = .ok () b₂ ∧ toString b₂ = .ok text b₂

/-- Nothing is left, or the cursor is at the beginning of a block, or a block
or more is left and its offset is an `int`. -/
def DumpsWhole (b : ByteArray) : Prop :=
  b.getReadSize = 0 ∨ b.position % b.baseSize = 0 ∨
    b.baseSize ≤ b.getReadSize ∧ b.position % b.baseSize < 2 ^ 31

section RoundTrip

variable {b : ByteArray}

theorem writeToFile_eq (h : Wf b) (hdump : DumpsWhole b) :
    writeToFile true b = .ok (some b.flat.toString) := by
  have hread : b.getReadSize = b.size - b.position := rfl
  have hroom := h.room (n := b.getReadSize) (by
    have := h.size_le
    have := h.position_le
    omega)
  have hpos : (b.position : Int) % b.baseSize = (b.position % b.baseSize : Nat) := by omega
  have htext : b.flat.toString =
      ((b.nodes.drop b.cur).flatten.drop (b.position % b.baseSize)).take b.getReadSize := by
    rw [h.drop_position, Flat.toString, ByteArray.flat, ByteArray.content, List.drop_take, hread]
  rw [writeToFile, if_pos rfl, htext]
  rcases hdump with hzero | haligned | ⟨hwhole, hsmall⟩
  · rw [hzero]
    simp [Except.map, dumpLoop_zero]
  · rw [haligned] at hroom hpos ⊢
    rw [dumpLoop_aligned (h.blocks.drop b.cur) hpos (by omega), List.drop_zero]
    rfl
  · rw [dumpLoop_whole (h.blocks.drop b.cur) hpos hsmall h.mod_lt hwhole hroom]
    rfl

/-- With blocks of up to four gigabytes nothing else is dumped. -/
theorem dumpsWhole_of_ok (h : Wf b) (hbase : b.baseSize ≤ 2 ^ 32) {file : Option (List UInt8)}
    (hfile : writeToFile true b = .ok file) : DumpsWhole b := by
  by_contra hnot
  simp only [DumpsWhole, not_or] at hnot
  obtain ⟨hread, hoffset, hwhole⟩ := hnot
  have hpos : (b.position : Int) % b.baseSize = (b.position % b.baseSize : Nat) := by omega
  have hmod := h.mod_lt
  have hstuck : ∃ e, dumpLoop b.baseSize (b.nodes.drop b.cur) b.getReadSize b.position =
      .error e := by
    by_cases hless : b.getReadSize < b.baseSize
    · exact dumpLoop_stuck (h.blocks.drop b.cur) hbase (by omega) hless hpos (by omega)
    · exact dumpLoop_outside (Nat.pos_of_ne_zero hread) hpos
        (Nat.le_of_not_lt fun hsmall => hwhole ⟨Nat.le_of_not_lt hless, hsmall⟩) (by omega)
  obtain ⟨e, he⟩ := hstuck
  rw [writeToFile, if_pos rfl, he] at hfile
  cases hfile

/-- **Through a file and back.** -/
theorem roundTripsFile_iff (h : Reachable b) :
    (DumpsWhole b → RoundTripsFile b) ∧
      (b.baseSize ≤ 2 ^ 32 → RoundTripsFile b → DumpsWhole b) := by
  have hw := h.wf
  constructor
  · intro hdump
    refine ⟨b.flat.toString, toString_refines hw.refines, writeToFile_eq hw hdump, ?_⟩
    intro base fresh hbase
    exact ⟨_, reload_eq hbase fresh _⟩
  · rintro hbase ⟨text, -, hfile, -⟩
    exact dumpsWhole_of_ok hw hbase hfile

/-- From the middle of the first block of three. -/
theorem middle_roundTripsFile :
    ∃ b, run step (.new (fun _ _ => 0) 2) [.write [1, 2, 3, 4, 5], .setPosition 1] = some b ∧
      RoundTripsFile b := by
  have hruns : (run step (.new (fun _ _ => 0) 2) [.write [1, 2, 3, 4, 5], .setPosition 1]).map
      (fun b => (b.getReadSize, b.position, b.baseSize)) = some (4, 1, 2) := by
    decide +kernel
  obtain ⟨b, hrun, hb⟩ := Option.map_eq_some_iff.mp hruns
  simp only [Prod.mk.injEq] at hb
  obtain ⟨hread, hpos, hbase⟩ := hb
  refine ⟨b, hrun, (roundTripsFile_iff ⟨_, _, _, by decide, hrun⟩).1 (.inr (.inr ?_))⟩
  rw [hread, hpos, hbase]
  decide

/-- Two bytes of one block, from the second on: the length of the write is
zero, and so it stays until the blocks end. -/
theorem secondByte_not_roundTripsFile : ∃ b, Reachable b ∧ ¬RoundTripsFile b := by
  have hruns : (run step (.new (fun _ _ => 0) 4) [.write [1, 2], .setPosition 1]).map
      (fun b => (writeToFile true b).toOption) = some none := by
    decide +kernel
  obtain ⟨b, hrun, hb⟩ := Option.map_eq_some_iff.mp hruns
  refine ⟨b, ⟨_, _, _, by decide, hrun⟩, ?_⟩
  rintro ⟨text, -, hfile, -⟩
  rw [hfile] at hb
  cases hb

end RoundTrip

end Hps.Bytes
