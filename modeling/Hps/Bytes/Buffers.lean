import Mathlib.Algebra.Ring.Nat
import Hps.Bytes.Refine

/-!
# Bytes — buffers into the blocks

`getReadBuffers` and `getWriteBuffers` hand out `iovec`s that point into the
blocks. `Consecutive` says that such buffers lie end to end behind one
position; what is read through them, and what a caller leaves in them, are
then the bytes of the blocks from that position on.
-/

namespace Hps.Bytes

open Hps.Lib

/-! ## The functions -/

/-- A `struct iovec`: `iov_base` is `base` bytes behind the beginning of the
block with the index `node`. -/
structure IoVec where
  node : Nat
  base : Nat
  len : Nat
deriving DecidableEq, Repr

/-- The loop behind the buffers; `i` is the index of the first block. -/
def buffersLoop (npos len i : Nat) : List Node → Option (List IoVec)
  | [] => none
  | cur :: next =>
      let ncap := cur.length - npos
      if ncap ≥ len then some [⟨i, npos, len⟩]
      else (buffersLoop 0 (len - ncap) (i + 1) next).map (⟨i, npos, ncap⟩ :: ·)

/-- `getReadBuffers(buffers, len)`: the vector after it, and the length. -/
def getReadBuffers (buffers : List IoVec) (len : Nat) : M (List IoVec × Nat) := fun b =>
  let len := if len > b.getReadSize then b.getReadSize else len
  if len = 0 then .ok (buffers, 0) b
  else
    match buffersLoop (b.position % b.baseSize) len b.cur (b.nodes.drop b.cur) with
    | none => .error .nullPointer b
    | some iovs => .ok (buffers ++ iovs, len) b

/-- `getWriteBuffers(buffers, len)` -/
def getWriteBuffers (buffers : List IoVec) (len : Nat) : M (List IoVec × Nat) := fun b =>
  if len = 0 then .ok (buffers, 0) b
  else
    let b := b.addCapacity len
    match buffersLoop (b.position % b.baseSize) len b.cur (b.nodes.drop b.cur) with
    | none => .error .nullPointer b
    | some iovs => .ok (buffers ++ iovs, len) b

/-! ## Memory -/

/-- The bytes a buffer points to. -/
def IoVec.bytes (ns : List Node) (v : IoVec) : List UInt8 :=
  ((ns.getD v.node []).drop v.base).take v.len

/-- The blocks after `d` was copied to where the buffer points. -/
def IoVec.copy (ns : List Node) (v : IoVec) (d : List UInt8) : List Node :=
  ns.modify v.node fun n => splice n v.base d

/-- The bytes of several buffers. -/
def gatherBytes (ns : List Node) (vs : List IoVec) : List UInt8 :=
  (vs.map (IoVec.bytes ns)).flatten

/-- The blocks after the buffers were filled with `d`, as far as they go. -/
def fillBytes (ns : List Node) : List IoVec → List UInt8 → List Node
  | [], _ => ns
  | v :: vs, d => fillBytes (v.copy ns (d.take v.len)) vs (d.drop v.len)

/-- A caller puts `d` into the first bytes of its buffers. -/
def fill (vs : List IoVec) (d : List UInt8) : M Unit := fun b =>
  .ok () { b with nodes := fillBytes b.nodes vs d }

theorem fill_eq (vs : List IoVec) (d : List UInt8) (b : ByteArray) :
    fill vs d b = .ok () { b with nodes := fillBytes b.nodes vs d } := rfl

/-- No byte belongs to both. -/
def IoVec.Disjoint (v w : IoVec) : Prop :=
  v.node ≠ w.node ∨ v.base + v.len ≤ w.base ∨ w.base + w.len ≤ v.base

def totalLen (vs : List IoVec) : Nat := (vs.map IoVec.len).sum

/-! ## Buffers that lie end to end -/

/-- The buffers lie end to end in blocks of `B` bytes, from position `p` on. -/
def Consecutive (B : Nat) : Nat → List IoVec → Prop
  | _, [] => True
  | p, v :: vs => v.node * B + v.base = p ∧ v.base + v.len ≤ B ∧ Consecutive B (p + v.len) vs

variable {B p : Nat} {ns : List Node} {vs : List IoVec} {v : IoVec}

theorem totalLen_cons : totalLen (v :: vs) = v.len + totalLen vs := by
  rw [totalLen, List.map_cons, List.sum_cons, totalLen]

/-- **The loop behind the buffers** covers the stretch asked for. -/
theorem buffersLoop_eq {npos len i : Nat} (h : Blocks B ns) (hpos : npos < B)
    (hlen : npos + len ≤ ns.length * B) (hpositive : 0 < len) :
    ∃ vs, buffersLoop npos len i ns = some vs ∧ Consecutive B (i * B + npos) vs ∧
      totalLen vs = len ∧ ∀ v ∈ vs, v.node < i + ns.length := by
  induction ns generalizing npos len i with
  | nil =>
      rw [List.length_nil] at hlen
      omega
  | cons cur next ih =>
      have hcur : cur.length = B := h cur List.mem_cons_self
      rw [List.length_cons, Nat.succ_mul] at hlen
      by_cases hfit : B - npos ≥ len
      · refine ⟨[⟨i, npos, len⟩], ?_, ?_, ?_, ?_⟩
        · rw [buffersLoop, hcur, if_pos hfit]
        · exact ⟨rfl, by dsimp only; omega, trivial⟩
        · simp [totalLen]
        · intro v hv
          rw [List.mem_singleton.mp hv, List.length_cons]
          dsimp only
          omega
      · obtain ⟨vs, hloop, hcons, htotal, hnode⟩ :=
          @ih 0 (len - (B - npos)) (i + 1) h.tail (by omega) (by omega) (by omega)
        refine ⟨⟨i, npos, B - npos⟩ :: vs, ?_, ?_, ?_, ?_⟩
        · rw [buffersLoop, hcur, if_neg hfit, hloop, Option.map_some]
        · refine ⟨rfl, by dsimp only; omega, ?_⟩
          have hend : i * B + npos + (B - npos) = (i + 1) * B + 0 := by
            rw [Nat.succ_mul]
            omega
          rw [hend]
          exact hcons
        · rw [totalLen_cons, htotal]
          show B - npos + (len - (B - npos)) = len
          omega
        · intro v hv
          rw [List.length_cons]
          rcases List.mem_cons.mp hv with rfl | hv
          · dsimp only
            omega
          · have := hnode v hv
            omega

/-- A block is a stretch of the concatenation. -/
theorem Blocks.getD_eq (h : Blocks B ns) {k : Nat} (hk : k < ns.length) :
    ns.getD k [] = (ns.flatten.drop (k * B)).take B := by
  have hblock : ns[k].length = B := h _ (List.getElem_mem hk)
  rw [h.drop_flatten, List.drop_eq_getElem_cons hk, List.flatten_cons,
    List.take_append_of_le_length (by omega), List.take_of_length_le (by omega),
    List.getD_eq_getElem?_getD, List.getElem?_eq_getElem hk, Option.getD_some]

theorem IoVec.bytes_eq (h : Blocks B ns) (hnode : v.node < ns.length)
    (hfit : v.base + v.len ≤ B) :
    v.bytes ns = (ns.flatten.drop (v.node * B + v.base)).take v.len := by
  rw [IoVec.bytes, h.getD_eq hnode, List.drop_take, List.take_take, List.drop_drop,
    Nat.min_eq_left (by omega)]

theorem gatherBytes_cons : gatherBytes ns (v :: vs) = v.bytes ns ++ gatherBytes ns vs := rfl

/-- **Reading through the buffers** reads the blocks. -/
theorem Consecutive.gatherBytes (h : Consecutive B p vs) (hns : Blocks B ns)
    (hnode : ∀ v ∈ vs, v.node < ns.length) :
    gatherBytes ns vs = (ns.flatten.drop p).take (totalLen vs) := by
  induction vs generalizing p with
  | nil => simp [Bytes.gatherBytes, totalLen]
  | cons v vs ih =>
      obtain ⟨hp, hfit, hrest⟩ := h
      have htail := ih hrest fun w hw => hnode w (List.mem_cons_of_mem v hw)
      rw [gatherBytes_cons, IoVec.bytes_eq hns (hnode v List.mem_cons_self) hfit, hp, htail,
        totalLen_cons, List.take_add, List.drop_drop]

/-- A copy into one block is a copy into the concatenation. -/
theorem Blocks.modify {k i : Nat} {d : List UInt8} (h : Blocks B ns) (hk : k < ns.length)
    (hfit : i + d.length ≤ B) :
    (ns.modify k fun n => splice n i d).flatten = splice ns.flatten (k * B + i) d ∧
      Blocks B (ns.modify k fun n => splice n i d) := by
  induction ns generalizing k with
  | nil => cases hk
  | cons cur next ih =>
      have hcur : cur.length = B := h cur List.mem_cons_self
      cases k with
      | zero =>
          rw [List.modify_zero_cons, List.flatten_cons, List.flatten_cons, Nat.zero_mul,
            Nat.zero_add, splice_append_left (by omega)]
          refine ⟨rfl, ?_⟩
          intro n hn
          rcases List.mem_cons.mp hn with rfl | hn
          · rw [length_splice (by omega)]
            omega
          · exact h.tail n hn
      | succ k =>
          obtain ⟨hflat, hblocks⟩ := ih h.tail (Nat.lt_of_succ_lt_succ hk)
          rw [List.modify_succ_cons, List.flatten_cons, List.flatten_cons, hflat,
            splice_append_right (by rw [hcur, Nat.succ_mul]; omega), hcur]
          refine ⟨?_, ?_⟩
          · congr 2
            rw [Nat.succ_mul]
            omega
          · intro n hn
            rcases List.mem_cons.mp hn with rfl | hn
            · exact hcur
            · exact hblocks n hn

theorem fillBytes_length (ns : List Node) (vs : List IoVec) (d : List UInt8) :
    (fillBytes ns vs d).length = ns.length := by
  induction vs generalizing ns d with
  | nil => rfl
  | cons v vs ih => rw [fillBytes, ih, IoVec.copy, List.length_modify]

/-- **Filling the buffers** writes into the blocks and keeps their sizes. -/
theorem Consecutive.fillBytes {d : List UInt8} (h : Consecutive B p vs) (hns : Blocks B ns)
    (hnode : ∀ v ∈ vs, v.node < ns.length) :
    Blocks B (fillBytes ns vs d) ∧
      (d.length ≤ totalLen vs → (fillBytes ns vs d).flatten = splice ns.flatten p d) := by
  induction vs generalizing p ns d with
  | nil =>
      refine ⟨hns, ?_⟩
      intro hd
      have hnil : d = [] := List.length_eq_zero_iff.mp (Nat.le_zero.mp hd)
      rw [hnil, splice_nil]
      rfl
  | cons v vs ih =>
      obtain ⟨hbase, hfit, hrest⟩ := h
      have hv := hnode v List.mem_cons_self
      obtain ⟨hflat, hblocks⟩ := hns.modify (i := v.base) (d := d.take v.len) hv
        (by rw [List.length_take]; omega)
      have hnode' : ∀ w ∈ vs, w.node < (v.copy ns (d.take v.len)).length := by
        intro w hw
        rw [IoVec.copy, List.length_modify]
        exact hnode w (List.mem_cons_of_mem v hw)
      obtain ⟨hkept, hrestFlat⟩ := ih (d := d.drop v.len) hrest hblocks hnode'
      refine ⟨hkept, ?_⟩
      intro hd
      rw [totalLen_cons] at hd
      have hp : p ≤ ns.flatten.length := by
        have hle : (v.node + 1) * B ≤ ns.length * B := Nat.mul_le_mul_right B hv
        rw [Nat.succ_mul] at hle
        rw [hns.length_flatten]
        omega
      rw [Bytes.fillBytes, IoVec.copy,
        hrestFlat (by rw [List.length_drop]; omega), hflat, hbase, splice_take_drop hp]

theorem Consecutive.behind {w : IoVec} (h : Consecutive B p vs) (hw : w ∈ vs) :
    p ≤ w.node * B + w.base := by
  induction vs generalizing p with
  | nil => cases hw
  | cons v vs ih =>
      obtain ⟨hp, -, hrest⟩ := h
      rcases List.mem_cons.mp hw with rfl | hw
      · exact Nat.le_of_eq hp.symm
      · have := ih hrest hw
        omega

/-- Buffers that lie end to end do not overlap. -/
theorem Consecutive.disjoint (h : Consecutive B p vs) : vs.Pairwise IoVec.Disjoint := by
  induction vs generalizing p with
  | nil => exact List.Pairwise.nil
  | cons v vs ih =>
      obtain ⟨hp, hfit, hrest⟩ := h
      apply List.Pairwise.cons _ (ih hrest)
      intro w hw
      have hbehind := hrest.behind hw
      by_cases hnode : v.node = w.node
      · right
        left
        rw [← hnode] at hbehind
        omega
      · exact .inl hnode

/-! ## The buffers of an array -/

namespace ByteArray

/-- The bytes `[0, m_size)`. -/
def content (b : ByteArray) : List UInt8 := b.nodes.flatten.take b.size

/-- The vector an array in shape stands for. -/
def flat (b : ByteArray) : Flat := { data := b.content, pos := b.position }

end ByteArray

theorem Wf.refines {b : ByteArray} (h : Wf b) : Refines b b.flat :=
  ⟨h, rfl, rfl⟩

theorem Refines.flat_eq {b : ByteArray} {f : Flat} (h : Refines b f) : b.flat = f := by
  rw [ByteArray.flat, ByteArray.content, h.data, h.pos]

@[simp] theorem addCapacity_baseSize (b : ByteArray) (n : Nat) :
    (b.addCapacity n).baseSize = b.baseSize := by
  rw [ByteArray.addCapacity]
  split_ifs <;> rfl

@[simp] theorem addCapacity_position (b : ByteArray) (n : Nat) :
    (b.addCapacity n).position = b.position := by
  rw [ByteArray.addCapacity]
  split_ifs <;> rfl

@[simp] theorem addCapacity_size (b : ByteArray) (n : Nat) :
    (b.addCapacity n).size = b.size := by
  rw [ByteArray.addCapacity]
  split_ifs <;> rfl

section Array

variable {b : ByteArray} (buffers : List IoVec) {n : Nat}

/-- From the cursor on, as far as the blocks reach. -/
theorem Wf.buffersLoop (h : Wf b) (hn : 0 < n) (hroom : b.position + n ≤ b.capacity) :
    ∃ vs, buffersLoop (b.position % b.baseSize) n b.cur (b.nodes.drop b.cur) = some vs ∧
      Consecutive b.baseSize b.position vs ∧ totalLen vs = n ∧
      ∀ v ∈ vs, v.node < b.nodes.length := by
  obtain ⟨vs, hloop, hcons, htotal, hnode⟩ :=
    buffersLoop_eq (i := b.cur) (h.blocks.drop b.cur) h.mod_lt (h.room hroom) hn
  rw [h.position_eq] at hcons
  refine ⟨vs, hloop, hcons, htotal, ?_⟩
  intro v hv
  have := hnode v hv
  rw [List.length_drop] at this
  have := h.cur_le
  omega

theorem getReadBuffers_eq (h : Wf b) (len : Nat) :
    ∃ vs, getReadBuffers buffers len b = .ok (buffers ++ vs, min len b.getReadSize) b ∧
      Consecutive b.baseSize b.position vs ∧ totalLen vs = min len b.getReadSize ∧
      ∀ v ∈ vs, v.node < b.nodes.length := by
  have hmin : (if len > b.getReadSize then b.getReadSize else len) = min len b.getReadSize := by
    split <;> omega
  rw [getReadBuffers, hmin]
  by_cases hn : min len b.getReadSize = 0
  · refine ⟨[], ?_, trivial, hn.symm, ?_⟩
    · rw [if_pos hn, List.append_nil, hn]
    · intro v hv
      cases hv
  · have hsize := h.size_le
    have hpos := h.position_le
    have hread : min len b.getReadSize ≤ b.size - b.position := Nat.min_le_right _ _
    obtain ⟨vs, hloop, hrest⟩ := h.buffersLoop (n := min len b.getReadSize) (by omega) (by omega)
    refine ⟨vs, ?_, hrest⟩
    rw [if_neg hn, hloop]

theorem getWriteBuffers_eq (h : Wf b) (len : Nat) :
    ∃ vs, getWriteBuffers buffers len b = .ok (buffers ++ vs, len) (b.addCapacity len) ∧
      Consecutive b.baseSize b.position vs ∧ totalLen vs = len ∧
      ∀ v ∈ vs, v.node < (b.addCapacity len).nodes.length := by
  rw [getWriteBuffers]
  by_cases hlen : len = 0
  · refine ⟨[], ?_, trivial, hlen.symm, ?_⟩
    · rw [if_pos hlen, hlen, List.append_nil, ByteArray.addCapacity, if_pos rfl]
    · intro v hv
      cases hv
  · obtain ⟨hgrown, hroom, -⟩ := addCapacity_refines (n := len) h.refines
    obtain ⟨vs, hloop, hcons, hrest⟩ := hgrown.wf.buffersLoop (by omega) hroom
    rw [addCapacity_baseSize, addCapacity_position] at hcons
    refine ⟨vs, ?_, hcons, hrest⟩
    rw [if_neg hlen]
    dsimp only
    rw [hloop]

/-- The buffers may be filled with anything. -/
theorem Wf.fill {p : Nat} {vs : List IoVec} (h : Wf b) (hcons : Consecutive b.baseSize p vs)
    (hnode : ∀ v ∈ vs, v.node < b.nodes.length) (d : List UInt8) :
    Wf { b with nodes := fillBytes b.nodes vs d } where
  base_pos := h.base_pos
  blocks := (hcons.fillBytes h.blocks hnode).1
  root := by
    rw [fillBytes_length]
    exact h.root
  capacity := by
    rw [fillBytes_length]
    exact h.capacity
  position_le := h.position_le
  size_le := h.size_le
  cur := h.cur

end Array

end Hps.Bytes
