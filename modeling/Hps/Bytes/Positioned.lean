import Hps.Bytes.Gather

/-!
# Bytes — access at a position

The overloads with a position. `read` at a position starts in the block of
the cursor, not in the block of the position; `getReadBuffers` at a position
finds the block, and cuts the length down to what is left behind the cursor.
For both, when the result is the stored bytes at the position.
-/

namespace Hps.Bytes

open Hps.Lib

/-! ## The functions -/

/-- `getReadBuffers(buffers, len, position)` -/
def getReadBuffersAt (buffers : List IoVec) (len position : Nat) : M (List IoVec × Nat) :=
  fun b =>
    let len := if len > b.getReadSize then b.getReadSize else len
    if len = 0 then .ok (buffers, 0) b
    else
      let count := position / b.baseSize
      match buffersLoop (position % b.baseSize) len count (b.nodes.drop count) with
      | none => .error .nullPointer b
      | some iovs => .ok (buffers ++ iovs, len) b

/-! ## The loops where the blocks end too early -/

variable {B : Nat} {ns : List Node}

theorem readLoop_eq_none {npos size : Nat} (h : Blocks B ns) (hpos : npos < B)
    (hlen : npos + size > ns.length * B) (hsize : 0 < size) :
    readLoop npos size ns = none := by
  induction ns generalizing npos size with
  | nil => rfl
  | cons cur next ih =>
      have hcur : cur.length = B := h cur List.mem_cons_self
      rw [List.length_cons, Nat.succ_mul] at hlen
      rw [readLoop, hcur, if_neg (by omega),
        ih h.tail (by omega) (by omega) (by omega), Option.map_none]

/-! ## Reading at a position -/

/-- Where the read at the position begins: at its place within a block, in
the block of the cursor. -/
def readStart (b : ByteArray) (position : Nat) : Nat :=
  b.position / b.baseSize * b.baseSize + position % b.baseSize

/-- The read at the position is right: it throws exactly if the data does not
reach as far, else it returns the stored bytes; the array stays. -/
def ReadsStored (b : ByteArray) (size position : Nat) : Prop :=
  ((∃ what, readAt size position b = .error (.outOfRange what) b) ↔ size > b.size - position) ∧
    (size ≤ b.size - position →
      readAt size position b = .ok ((b.content.drop position).take size) b)

/-- It throws, or `m_cur` is not null and nothing is read, or the position is
in the block of the cursor, or what is found there is the same. -/
def StartsRight (b : ByteArray) (size position : Nat) : Prop :=
  size > b.size - position ∨
    b.position ≠ b.capacity ∧
      (size = 0 ∨ position / b.baseSize = b.position / b.baseSize ∨
        readStart b position + size ≤ b.capacity ∧
          (b.nodes.flatten.drop (readStart b position)).take size =
            (b.content.drop position).take size)

section Read

variable {b : ByteArray} {size position : Nat}

theorem content_slice (hsize : size ≤ b.size - position) :
    (b.content.drop position).take size = (b.nodes.flatten.drop position).take size := by
  rw [ByteArray.content, List.drop_take, List.take_take, Nat.min_eq_left hsize]

theorem readAt_throws (hpos : position ≤ b.size) (hsize : size > b.size - position) :
    readAt size position b = .error (.outOfRange "not enough len") b := by
  rw [readAt, sizeFrom, if_pos hpos, if_pos hsize]

theorem readAt_of_le (hpos : position ≤ b.size) (hsize : size ≤ b.size - position) :
    readAt size position b =
      match gather b size position with
      | none => .error .nullPointer b
      | some (bytes, _) => .ok bytes b := by
  have hfits : ¬size > sizeFrom b position := by
    rw [sizeFrom, if_pos hpos]
    omega
  exact if_neg hfits

theorem drop_cur_eq_nil_iff (h : Wf b) : b.nodes.drop b.cur = [] ↔ b.position = b.capacity := by
  rw [← h.cur_null_iff, List.drop_eq_nil_iff, List.getElem?_eq_none_iff]

/-- At the end of the last block `m_cur` is null, whatever is to be read. -/
theorem gather_at_capacity (h : Wf b) (hcap : b.position = b.capacity) :
    gather b size position = none := by
  rw [gather, (drop_cur_eq_nil_iff h).mpr hcap]

theorem gather_zero (h : Wf b) (hcap : b.position ≠ b.capacity) :
    gather b 0 position = some ([], 0) := by
  rw [gather]
  split
  · rename_i hnil
    exact absurd ((drop_cur_eq_nil_iff h).mp hnil) hcap
  · rfl

/-- The bytes from the place in the cursor's block on, as far as the blocks
reach. -/
theorem gather_at (h : Wf b) (hcap : b.position ≠ b.capacity) (hsize : 0 < size) :
    (gather b size position).map Prod.fst =
      if readStart b position + size ≤ b.capacity then
        some ((b.nodes.flatten.drop (readStart b position)).take size)
      else none := by
  have hmod : position % b.baseSize < b.baseSize := Nat.mod_lt _ h.base_pos
  have hblocks := h.blocks.drop b.cur
  have hcapacity : b.capacity =
      b.cur * b.baseSize + (b.nodes.drop b.cur).length * b.baseSize := by
    have := h.cur_le
    rw [List.length_drop, ← Nat.add_mul, h.capacity]
    congr 1
    omega
  have hstart : readStart b position = b.cur * b.baseSize + position % b.baseSize := by
    rw [readStart, h.cur]
  rw [gather, hstart]
  split
  · rename_i hnil
    exact absurd ((drop_cur_eq_nil_iff h).mp hnil) hcap
  · rw [if_neg (by omega)]
    by_cases hfit : b.cur * b.baseSize + position % b.baseSize + size ≤ b.capacity
    · rw [readLoop_eq hblocks hmod (by omega) hsize, if_pos hfit, Option.map_some,
        ← List.drop_drop, h.blocks.drop_flatten]
    · rw [readLoop_eq_none hblocks hmod (by omega) hsize, if_neg hfit, Option.map_none]

/-- In the block of the cursor the read begins where it should. -/
theorem readStart_of_block (h : position / b.baseSize = b.position / b.baseSize) :
    readStart b position = position := by
  rw [readStart, ← h, Nat.mul_comm]
  exact Nat.div_add_mod position b.baseSize

/-- **Reading at a position** is right exactly if it starts right. -/
theorem readsStored_iff (h : Reachable b) (hpos : position ≤ b.size) :
    ReadsStored b size position ↔ StartsRight b size position := by
  have hw := h.wf
  by_cases hsize : size > b.size - position
  -- it throws, as it should
  · have hthrow := readAt_throws hpos hsize
    refine iff_of_true ⟨iff_of_true ⟨_, hthrow⟩ hsize, ?_⟩ (.inl hsize)
    intro hle
    exact absurd hsize (Nat.not_lt.mpr hle)
  · have hle : size ≤ b.size - position := Nat.le_of_not_lt hsize
    have hcases : ReadsStored b size position ↔
        (gather b size position).map Prod.fst = some ((b.content.drop position).take size) := by
      rw [ReadsStored, readAt_of_le hpos hle]
      cases gather b size position <;> simp [hle]
    rw [hcases, StartsRight, or_iff_right hsize]
    by_cases hcap : b.position = b.capacity
    -- `m_cur` is null, also where nothing is to be read
    · rw [gather_at_capacity hw hcap]
      simp [hcap]
    · rw [and_iff_right hcap]
      rcases Nat.eq_zero_or_pos size with hzero | hpositive
      · rw [hzero, gather_zero hw hcap]
        simp
      · rw [gather_at hw hcap hpositive, or_iff_right (by omega)]
        -- in the block of the cursor the bytes are the right ones anyway
        have hblock : position / b.baseSize = b.position / b.baseSize →
            readStart b position + size ≤ b.capacity ∧
              (b.nodes.flatten.drop (readStart b position)).take size =
                (b.content.drop position).take size := by
          intro hb
          have := hw.size_le
          rw [readStart_of_block hb, content_slice hle]
          exact ⟨by omega, rfl⟩
        rw [or_iff_right_of_imp hblock]
        by_cases hfit : readStart b position + size ≤ b.capacity
        · simp [hfit]
        · simp [hfit]

/-- A read within the block that holds the cursor. -/
theorem sameBlock_readsStored :
    ∃ b, run step (.new (fun _ _ => 0) 2) [.write [1, 2, 3, 4, 5], .setPosition 3] = some b ∧
      ReadsStored b 2 2 := by
  have hruns : (run step (.new (fun _ _ => 0) 2) [.write [1, 2, 3, 4, 5], .setPosition 3]).map
      (fun b => (b.size, b.position, b.capacity, b.baseSize)) = some (5, 3, 6, 2) := by
    decide +kernel
  obtain ⟨b, hrun, hb⟩ := Option.map_eq_some_iff.mp hruns
  simp only [Prod.mk.injEq] at hb
  obtain ⟨hsize, hpos, hcap, hbase⟩ := hb
  refine ⟨b, hrun, (readsStored_iff ⟨_, _, _, by decide, hrun⟩ (by omega)).mpr (.inr ⟨?_, ?_⟩)⟩
  · rw [hpos, hcap]
    decide
  · right
    left
    rw [hpos, hbase]

/-- Behind five bytes in blocks of two, the read of the first byte returns
the fifth. -/
theorem firstByte_not_readsStored :
    ∃ b, Reachable b ∧ 0 ≤ b.size ∧ ¬ReadsStored b 1 0 := by
  have hruns : (run step (.new (fun _ _ => 0) 2) [.write [1, 2, 3, 4, 5]]).map
      (fun b => ((outcome (readAt 1 0 b)).1.toOption, (b.content.drop 0).take 1, b.size)) =
        some (some [5], [1], 5) := by
    decide +kernel
  obtain ⟨b, hrun, hb⟩ := Option.map_eq_some_iff.mp hruns
  simp only [Prod.mk.injEq] at hb
  obtain ⟨hread, hstored, hsize⟩ := hb
  refine ⟨b, ⟨_, _, _, by decide, hrun⟩, Nat.zero_le _, ?_⟩
  intro h
  rw [h.2 (by omega), hstored] at hread
  simp [outcome, Except.toOption] at hread

end Read

/-! ## Buffers at a position -/

/-- The buffers at a position are right: they hold the stored bytes from
there on, as far as asked for and stored; the array stays. -/
def GathersStored (b : ByteArray) (len position : Nat) : Prop :=
  ∀ buffers : List IoVec, ∃ iovs,
    getReadBuffersAt buffers len position b =
        .ok (buffers ++ iovs, min len (b.size - position)) b ∧
      totalLen iovs = min len (b.size - position) ∧
      gatherBytes b.nodes iovs =
        (b.content.drop position).take (min len (b.size - position)) ∧
      ∀ v ∈ iovs, v.Within b.nodes

section Gather

variable {b : ByteArray} {len position : Nat} (buffers : List IoVec)

theorem clip_eq_min (len : Nat) (b : ByteArray) :
    (if len > b.getReadSize then b.getReadSize else len) = min len (b.size - b.position) := by
  rw [ByteArray.getReadSize]
  split <;> omega

/-- Whatever is returned, its length is cut down to what is left behind the
cursor. -/
theorem getReadBuffersAt_length {iovs : List IoVec} {n : Nat} {b' : ByteArray}
    (h : getReadBuffersAt buffers len position b = .ok (iovs, n) b') :
    n = min len (b.size - b.position) := by
  rw [getReadBuffersAt, clip_eq_min] at h
  dsimp only at h
  split at h
  · rename_i hzero
    cases h
    exact hzero.symm
  · split at h
    · cases h
    · cases h
      rfl

/-- As long as the stretch lies in the blocks, the buffers cover it. -/
theorem getReadBuffersAt_eq (h : Wf b) (len position : Nat)
    (hfit : position + min len (b.size - b.position) ≤ b.capacity) :
    ∃ vs, getReadBuffersAt buffers len position b =
        .ok (buffers ++ vs, min len (b.size - b.position)) b ∧
      Consecutive b.baseSize position vs ∧ totalLen vs = min len (b.size - b.position) ∧
      ∀ v ∈ vs, v.node < b.nodes.length := by
  rw [getReadBuffersAt, clip_eq_min]
  generalize min len (b.size - b.position) = n at hfit ⊢
  dsimp only
  by_cases hn : n = 0
  · refine ⟨[], ?_, trivial, hn.symm, ?_⟩
    · rw [if_pos hn, hn, List.append_nil]
    · intro v hv
      cases hv
  · have hdiv := Nat.div_add_mod position b.baseSize
    have hcap := h.capacity
    have hmod : position % b.baseSize < b.baseSize := Nat.mod_lt _ h.base_pos
    have hcount : position / b.baseSize ≤ b.nodes.length := by
      refine Nat.div_le_of_le_mul ?_
      rw [Nat.mul_comm]
      omega
    -- the blocks from the first one on have room for the stretch
    have hroom : position % b.baseSize + n ≤
        (b.nodes.drop (position / b.baseSize)).length * b.baseSize := by
      have hsplit : b.nodes.length * b.baseSize = position / b.baseSize * b.baseSize +
          (b.nodes.drop (position / b.baseSize)).length * b.baseSize := by
        rw [List.length_drop, ← Nat.add_mul]
        congr 1
        omega
      rw [Nat.mul_comm b.baseSize] at hdiv
      omega
    obtain ⟨vs, hloop, hcons, htotal, hnode⟩ :=
      buffersLoop_eq (i := position / b.baseSize) (h.blocks.drop _) hmod hroom (by omega)
    have hpos : position / b.baseSize * b.baseSize + position % b.baseSize = position := by
      rw [Nat.mul_comm]
      exact hdiv
    rw [hpos] at hcons
    refine ⟨vs, ?_, hcons, htotal, ?_⟩
    · rw [if_neg hn, hloop]
    · intro v hv
      have := hnode v hv
      rw [List.length_drop] at this
      omega

/-- **Buffers at a position** are right exactly if the length is cut down
where it is cut down behind the cursor. -/
theorem gathersStored_iff (h : Reachable b) (hpos : position ≤ b.size) :
    GathersStored b len position ↔ min len (b.size - b.position) = min len (b.size - position) := by
  have hw := h.wf
  constructor
  · intro hg
    obtain ⟨iovs, hiovs, -⟩ := hg []
    exact (getReadBuffersAt_length [] hiovs).symm
  · intro hmin buffers
    have hsize := hw.size_le
    obtain ⟨vs, hvs, hcons, htotal, hnode⟩ :=
      getReadBuffersAt_eq buffers hw len position (by rw [hmin]; omega)
    rw [hmin] at hvs htotal
    refine ⟨vs, hvs, htotal, ?_, hcons.within hw.blocks hnode⟩
    rw [hcons.gatherBytes hw.blocks hnode, htotal, content_slice (Nat.min_le_right _ _)]

/-- Two bytes before the cursor, across two blocks. -/
theorem shortLength_gathersStored :
    ∃ b, run step (.new (fun _ _ => 0) 2) [.write [1, 2, 3, 4, 5], .setPosition 3] = some b ∧
      GathersStored b 2 1 := by
  have hruns : (run step (.new (fun _ _ => 0) 2) [.write [1, 2, 3, 4, 5], .setPosition 3]).map
      (fun b => (b.size, b.position)) = some (5, 3) := by
    decide +kernel
  obtain ⟨b, hrun, hb⟩ := Option.map_eq_some_iff.mp hruns
  simp only [Prod.mk.injEq] at hb
  obtain ⟨hsize, hpos⟩ := hb
  refine ⟨b, hrun, (gathersStored_iff ⟨_, _, _, by decide, hrun⟩ (by omega)).mpr ?_⟩
  rw [hsize, hpos]
  decide

/-- All that was written, asked for from behind it: nothing is left behind
the cursor, and nothing is returned. -/
theorem written_not_gathersStored :
    ∃ b, Reachable b ∧ 0 ≤ b.size ∧ ¬GathersStored b 5 0 := by
  have hruns : (run step (.new (fun _ _ => 0) 2) [.write [1, 2, 3, 4, 5]]).map
      (fun b => (b.size, b.position)) = some (5, 5) := by
    decide +kernel
  obtain ⟨b, hrun, hb⟩ := Option.map_eq_some_iff.mp hruns
  simp only [Prod.mk.injEq] at hb
  obtain ⟨hsize, hpos⟩ := hb
  refine ⟨b, ⟨_, _, _, by decide, hrun⟩, Nat.zero_le _, ?_⟩
  intro h
  obtain ⟨iovs, hiovs, -⟩ := h []
  have hlength := getReadBuffersAt_length [] hiovs
  rw [hsize, hpos] at hlength
  exact absurd hlength (by decide)

end Gather

end Hps.Bytes
