import Hps.Bytes.Blocks

/-!
# Bytes — a `ByteArray` is a flat vector with a cursor

`Wf` ties the block list, the cached block and the capacity to the position.
`Flat` is the vector the array stands for, and `Refines` the simulation
between the two: whatever the block size, they cannot be told apart.
-/

namespace Hps.Bytes

open Hps.Lib

/-- The blocks, the cached block and the sizes are in step. `m_cur` is
`nullptr` exactly when the position is the capacity. -/
structure Wf (b : ByteArray) : Prop where
  base_pos : 0 < b.baseSize
  blocks : Blocks b.baseSize b.nodes
  root : 0 < b.nodes.length
  capacity : b.capacity = b.nodes.length * b.baseSize
  position_le : b.position ≤ b.size
  size_le : b.size ≤ b.capacity
  cur : b.cur = b.position / b.baseSize

/-! ## The flat vector -/

/-- A contiguous byte vector with a cursor into it. -/
structure Flat where
  data : List UInt8 := []
  pos : Nat := 0

namespace Flat

/-- Overwrite from the cursor on, extending the end. -/
def write (f : Flat) (buf : List UInt8) : Flat :=
  { data := splice f.data f.pos buf, pos := f.pos + buf.length }

/-- Copy and advance. -/
def read (f : Flat) (n : Nat) : Except Error (List UInt8) × Flat :=
  if n > f.data.length - f.pos then (.error (.outOfRange "not enough len"), f)
  else (.ok ((f.data.drop f.pos).take n), { f with pos := f.pos + n })

def toString (f : Flat) : List UInt8 := f.data.drop f.pos

end Flat

/-- Two writes, one after the other. -/
theorem Flat.write_write {f : Flat} (h : f.pos ≤ f.data.length) (d d' : List UInt8) :
    (f.write d).write d' = f.write (d ++ d') := by
  simp only [Flat.write, splice_splice h, List.length_append, Nat.add_assoc]

/-- The array holds the vector, and its cursor is the vector's. -/
structure Refines (b : ByteArray) (f : Flat) : Prop where
  wf : Wf b
  data : b.nodes.flatten.take b.size = f.data
  pos : b.position = f.pos

variable {b : ByteArray} {f : Flat}

theorem Wf.length_flatten (h : Wf b) : b.nodes.flatten.length = b.capacity := by
  rw [h.blocks.length_flatten, h.capacity]

theorem Refines.length_data (h : Refines b f) : f.data.length = b.size := by
  rw [← h.data, List.length_take, h.wf.length_flatten]
  exact Nat.min_eq_left h.wf.size_le

theorem Refines.pos_le (h : Refines b f) : f.pos ≤ f.data.length := by
  rw [h.length_data, ← h.pos]
  exact h.wf.position_le

theorem Wf.position_eq (h : Wf b) :
    b.cur * b.baseSize + b.position % b.baseSize = b.position := by
  rw [h.cur, Nat.mul_comm]
  exact Nat.div_add_mod b.position b.baseSize

theorem Wf.mod_lt (h : Wf b) : b.position % b.baseSize < b.baseSize :=
  Nat.mod_lt _ h.base_pos

/-- The block after `n` more bytes from the cursor. -/
theorem Wf.cur_add (h : Wf b) (n : Nat) :
    b.cur + (b.position % b.baseSize + n) / b.baseSize = (b.position + n) / b.baseSize := by
  have hpos : b.position + n =
      b.position % b.baseSize + n + b.cur * b.baseSize := by
    have := h.position_eq
    omega
  rw [hpos, Nat.add_mul_div_right _ _ h.base_pos, Nat.add_comm]

theorem new_refines (fresh : Nat → Nat → UInt8) {base : Nat} (hb : 0 < base) :
    Refines (ByteArray.new fresh base) {} where
  wf := {
    base_pos := hb
    blocks := by
      intro n hn
      rw [ByteArray.new, List.mem_singleton] at hn
      rw [hn, ByteArray.newNode, List.length_map, List.length_range]
      rfl
    root := Nat.zero_lt_one
    capacity := (Nat.one_mul base).symm
    position_le := Nat.le_refl 0
    size_le := Nat.zero_le base
    cur := (Nat.zero_div base).symm }
  data := rfl
  pos := rfl

/-! ## Growing -/

/-- `addCapacity` makes room behind the cursor and changes nothing else. -/
theorem addCapacity_refines (h : Refines b f) {n : Nat} :
    Refines (b.addCapacity n) f ∧
      (b.addCapacity n).position + n ≤ (b.addCapacity n).capacity ∧
      (b.addCapacity n).endian = b.endian := by
  have hle : b.position ≤ b.capacity :=
    Nat.le_trans h.wf.position_le h.wf.size_le
  rw [ByteArray.addCapacity]
  split
  · rename_i hn
    exact ⟨h, by omega, rfl⟩
  · split
    · rename_i hroom
      rw [ByteArray.getCapacity] at hroom
      exact ⟨h, by omega, rfl⟩
    · rename_i hroom
      rw [ByteArray.getCapacity] at hroom ⊢
      dsimp only
      generalize hcount : (n - (b.capacity - b.position) + b.baseSize - 1) / b.baseSize = count
      have hbase := h.wf.base_pos
      -- the exact ceiling: `count` blocks are enough
      have henough : n - (b.capacity - b.position) ≤ count * b.baseSize := by
        have hdiv := Nat.div_add_mod
          (n - (b.capacity - b.position) + b.baseSize - 1) b.baseSize
        have hmod := Nat.mod_lt
          (n - (b.capacity - b.position) + b.baseSize - 1) hbase
        rw [hcount, Nat.mul_comm] at hdiv
        omega
      have hnew : Blocks b.baseSize ((List.range count).map fun i =>
          ByteArray.newNode b.fresh b.baseSize (b.allocated + i)) := by
        intro node hnode
        obtain ⟨i, -, rfl⟩ := List.mem_map.mp hnode
        rw [ByteArray.newNode, List.length_map, List.length_range]
      have hsize := h.wf.size_le
      have hflat := h.wf.length_flatten
      refine ⟨⟨⟨hbase, h.wf.blocks.append hnew, ?_, ?_, h.wf.position_le, ?_, ?_⟩, ?_,
        h.pos⟩, ?_, rfl⟩
      · rw [List.length_append]
        exact Nat.add_pos_left h.wf.root _
      · rw [List.length_append, List.length_map, List.length_range, Nat.add_mul,
          h.wf.capacity]
      · dsimp only
        omega
      · dsimp only
        split
        · -- at the end of the array `m_cur` was null
          have hpos : b.position = b.nodes.length * b.baseSize := by
            rw [← h.wf.capacity]
            omega
          rw [hpos, Nat.mul_div_cancel _ hbase]
        · exact h.wf.cur
      · rw [List.flatten_append,
          List.take_append_of_le_length (by rw [hflat]; exact hsize)]
        exact h.data
      · omega

/-! ## The operations -/

theorem Wf.cur_le (h : Wf b) : b.cur ≤ b.nodes.length := by
  rw [h.cur]
  refine Nat.div_le_of_le_mul ?_
  rw [Nat.mul_comm, ← h.capacity]
  exact Nat.le_trans h.position_le h.size_le

/-- From the cursor to the end of the blocks. -/
theorem Wf.room (h : Wf b) {n : Nat} (hn : b.position + n ≤ b.capacity) :
    b.position % b.baseSize + n ≤ (b.nodes.drop b.cur).length * b.baseSize := by
  have hpos := h.position_eq
  have hcap := h.capacity
  have hsplit : b.nodes.length * b.baseSize =
      b.cur * b.baseSize + (b.nodes.drop b.cur).length * b.baseSize := by
    rw [List.length_drop, ← Nat.add_mul]
    congr 1
    have := h.cur_le
    omega
  omega

theorem Wf.length_before (h : Wf b) :
    (b.nodes.take b.cur).flatten.length = b.cur * b.baseSize := by
  rw [(h.blocks.take b.cur).length_flatten, List.length_take, Nat.min_eq_left h.cur_le]

/-- The bytes from the cursor on lie in the blocks from `m_cur` on. -/
theorem Wf.drop_position (h : Wf b) :
    (b.nodes.drop b.cur).flatten.drop (b.position % b.baseSize) =
      b.nodes.flatten.drop b.position := by
  rw [← h.blocks.drop_flatten, List.drop_drop, h.position_eq]

/-- **`write`** never fails and writes into the vector. -/
theorem write_refines (h : Refines b f) (buf : List UInt8) :
    ∃ b', write buf b = .ok () b' ∧ Refines b' (f.write buf) ∧
      b'.endian = b.endian := by
  by_cases hbuf : buf.length = 0
  · refine ⟨b, by rw [write, if_pos hbuf], ?_, rfl⟩
    rw [List.length_eq_zero_iff] at hbuf
    rw [hbuf, Flat.write, splice_nil]
    exact h
  · obtain ⟨hg, hroom, hend⟩ := @addCapacity_refines b f h buf.length
    rw [write, if_neg hbuf]
    revert hg hroom hend
    generalize b.addCapacity buf.length = g
    intro hg hroom hend
    have hw := hg.wf
    obtain ⟨ns, hloop, hflat, hlen, hblocks⟩ :=
      writeLoop_eq (hw.blocks.drop g.cur) hw.mod_lt (hw.room hroom) (Nat.pos_of_ne_zero hbuf)
    have hmax : (if g.position + buf.length > g.size then g.position + buf.length
        else g.size) = max g.size (g.position + buf.length) := by
      split <;> omega
    have hlength : (g.nodes.take g.cur ++ ns).length = g.nodes.length := by
      rw [List.length_append, hlen, List.length_take, List.length_drop]
      have := hw.cur_le
      omega
    have hsize := hw.size_le
    dsimp only
    rw [hloop]
    refine ⟨_, rfl, ⟨⟨hw.base_pos, (hw.blocks.take _).append hblocks, ?_, ?_, ?_, ?_, ?_⟩,
      ?_, ?_⟩, hend⟩
    · rw [hlength]
      exact hw.root
    · rw [hlength]
      exact hw.capacity
    · dsimp only
      omega
    · dsimp only
      omega
    · exact hw.cur_add buf.length
    · have hcopy : (g.nodes.take g.cur ++ ns).flatten =
          splice g.nodes.flatten g.position buf := by
        have hbefore := hw.length_before
        have hpos := hw.position_eq
        rw [List.flatten_append, hflat,
          show g.nodes.flatten = (g.nodes.take g.cur).flatten ++ (g.nodes.drop g.cur).flatten
            from by rw [← List.flatten_append, List.take_append_drop],
          splice_append_right (by omega), hbefore,
          show g.position - g.cur * g.baseSize = g.position % g.baseSize from by omega]
      dsimp only
      rw [hmax, hcopy, take_splice hw.position_le (by rw [hw.length_flatten]; exact hsize),
        hg.data, hg.pos]
      rfl
    · dsimp only
      rw [hg.pos]
      rfl

theorem gather_eq (h : Refines b f) {n : Nat} (hn : 0 < n)
    (hle : n ≤ f.data.length - f.pos) :
    gather b n b.position =
      some ((f.data.drop f.pos).take n, (b.position % b.baseSize + n) / b.baseSize) := by
  have hw := h.wf
  have hlen := h.length_data
  have hpos := h.pos
  have hsize := hw.size_le
  have hroom := @Wf.room b hw n (by omega)
  have hne : b.nodes.drop b.cur ≠ [] := by
    intro hnil
    rw [hnil, List.length_nil] at hroom
    omega
  rw [gather]
  split
  · rename_i hnil
    exact absurd hnil hne
  · rw [if_neg (by omega), readLoop_eq (hw.blocks.drop b.cur) hw.mod_lt hroom hn,
      hw.drop_position, ← h.data, ← hpos, List.drop_take, List.take_take,
      Nat.min_eq_left (by omega)]

/-- **`read`** of at least one byte copies from the vector and advances, or
throws and changes nothing. -/
theorem read_refines (h : Refines b f) {n : Nat} (hn : 0 < n) :
    (n ≤ f.data.length - f.pos ∧ ∃ b', read n b = .ok ((f.data.drop f.pos).take n) b' ∧
      Refines b' { f with pos := f.pos + n } ∧ b'.endian = b.endian) ∨
    (n > f.data.length - f.pos ∧
      read n b = .error (.outOfRange "not enough len") b) := by
  have hw := h.wf
  have hlen := h.length_data
  have hpos := h.pos
  rw [read, ByteArray.getReadSize]
  by_cases hle : n ≤ f.data.length - f.pos
  · left
    rw [if_neg (by omega), gather_eq h hn hle]
    refine ⟨hle, _, rfl, ⟨⟨hw.base_pos, hw.blocks, hw.root, hw.capacity, ?_, hw.size_le,
      hw.cur_add n⟩, h.data, ?_⟩, rfl⟩
    · dsimp only
      omega
    · dsimp only
      omega
  · right
    exact ⟨by omega, if_pos (by omega)⟩

theorem setPosition_refines (h : Refines b f) {v : Nat} (hv : v ≤ f.data.length) :
    ∃ b', setPosition v b = .ok () b' ∧ Refines b' { f with pos := v } ∧
      b'.endian = b.endian := by
  have hw := h.wf
  have hlen := h.length_data
  have hsize := hw.size_le
  have hcap := hw.capacity
  have hseek := seek_eq hw.blocks hw.base_pos hw.root (by omega : v ≤ _)
  have hkeep : (if v > b.size then v else b.size) = b.size := if_neg (by omega)
  rw [setPosition, if_neg (by omega)]
  dsimp only
  rw [hseek]
  refine ⟨_, rfl, ⟨⟨hw.base_pos, hw.blocks, hw.root, hw.capacity, ?_, ?_, rfl⟩, ?_, rfl⟩, rfl⟩
  · dsimp only
    omega
  · dsimp only
    omega
  · dsimp only
    rw [hkeep]
    exact h.data

theorem clear_refines (h : Refines b f) : ∃ b', clear b = .ok () b' ∧ Refines b' {} := by
  have hw := h.wf
  have hroot := hw.root
  refine ⟨_, rfl, ⟨⟨hw.base_pos, hw.blocks.take 1, ?_, ?_, Nat.le_refl 0, Nat.zero_le _,
    (Nat.zero_div _).symm⟩, rfl, rfl⟩⟩
  · rw [List.length_take]
    omega
  · rw [List.length_take, Nat.min_eq_left hroot, Nat.one_mul]

theorem toString_refines (h : Refines b f) : toString b = .ok f.toString b := by
  have hlen := h.length_data
  have hpos := h.pos
  have hle := h.wf.position_le
  rw [toString, ByteArray.getReadSize, Flat.toString]
  split
  · rw [List.drop_of_length_le (by omega)]
  · rw [readAt, sizeFrom, if_pos hle, if_neg (by omega),
      gather_eq h (by omega) (by omega)]
    dsimp only
    rw [List.take_of_length_le (by rw [List.length_drop]; omega)]

/-! ## What a caller can see -/

inductive Op where
  | write (data : List UInt8)
  | read (n : Nat)
  | setPosition (v : Nat)
  | clear
deriving DecidableEq, Repr

/-- The calls; those that return nothing return no bytes. -/
def exec : Op → M (List UInt8)
  | .write data => (fun _ => []) <$> write data
  | .read n => read n
  | .setPosition v => (fun _ => []) <$> setPosition v
  | .clear => (fun _ => []) <$> clear

/-- What a call returned or threw, and the array after it. -/
def outcome {α : Type} : EStateM.Result Error ByteArray α → Except Error α × ByteArray
  | .ok a b => (.ok a, b)
  | .error e b => (.error e, b)

/-- What can be seen after a call. -/
structure Obs where
  result : Except Error (List UInt8)
  position : Nat
  size : Nat
  toString : Except Error (List UInt8)

def trace (b : ByteArray) : List Op → List Obs
  | [] => []
  | op :: ops =>
      let (result, b) := outcome (exec op b)
      { result, position := b.position, size := b.size,
        toString := (outcome (toString b)).1 } :: trace b ops

/-- The calls on the vector. -/
def Flat.exec (f : Flat) : Op → Except Error (List UInt8) × Flat
  | .write data => (.ok [], f.write data)
  | .read n => f.read n
  | .setPosition v => (.ok [], { f with pos := v })
  | .clear => (.ok [], {})

def Flat.trace (f : Flat) : List Op → List Obs
  | [] => []
  | op :: ops =>
      let (result, f) := f.exec op
      { result, position := f.pos, size := f.data.length,
        toString := .ok f.toString } :: Flat.trace f ops

/-- No empty reads, and no position past the data. -/
def Allowed (b : ByteArray) : Op → Prop
  | .read n => 1 ≤ n
  | .setPosition v => v ≤ b.size
  | _ => True

instance (b : ByteArray) : (op : Op) → Decidable (Allowed b op)
  | .read n => inferInstanceAs (Decidable (1 ≤ n))
  | .setPosition v => inferInstanceAs (Decidable (v ≤ b.size))
  | .write _ => isTrue trivial
  | .clear => isTrue trivial

/-- The array after a call, as a step. -/
def next (b : ByteArray) (op : Op) : Option ByteArray :=
  some (outcome (exec op b)).2

/-- **One call**: the array and the vector return or throw the same, and
stay in step. -/
theorem exec_refines (h : Refines b f) {op : Op} (hop : Allowed b op) :
    ∃ b', outcome (exec op b) = ((f.exec op).1, b') ∧ Refines b' (f.exec op).2 := by
  cases op with
  | write data =>
      obtain ⟨b', hb', hr, -⟩ := write_refines h data
      refine ⟨b', ?_, hr⟩
      simp [exec, Functor.map, EStateM.map, hb', outcome, Flat.exec]
  | read n =>
      rw [exec, Flat.exec, Flat.read]
      rcases read_refines h hop with ⟨hle, b', hb', hr, -⟩ | ⟨hgt, herr⟩
      · rw [hb', if_neg (by omega)]
        exact ⟨b', rfl, hr⟩
      · rw [herr, if_pos hgt]
        exact ⟨b, rfl, h⟩
  | setPosition v =>
      have hv : v ≤ f.data.length := by
        rw [h.length_data]
        exact hop
      obtain ⟨b', hb', hr, -⟩ := setPosition_refines h hv
      refine ⟨b', ?_, hr⟩
      simp [exec, Functor.map, EStateM.map, hb', outcome, Flat.exec]
  | clear =>
      obtain ⟨b', hb', hr⟩ := clear_refines h
      refine ⟨b', ?_, hr⟩
      simp [exec, Functor.map, EStateM.map, hb', outcome, Flat.exec]

/-- Two arrays that stand for one vector allow the same calls. -/
theorem Refines.allowed {b₁ b₂ : ByteArray} (h₁ : Refines b₁ f) (h₂ : Refines b₂ f)
    {op : Op} (hop : Allowed b₁ op) : Allowed b₂ op := by
  have hsize : b₂.size = b₁.size := by
    rw [← h₁.length_data, ← h₂.length_data]
  cases op with
  | setPosition v =>
      rw [Allowed, hsize]
      exact hop
  | _ => exact hop

/-- **Whole sequences of calls**: any array that stands for the vector
shows what the vector shows. -/
theorem trace_eq {b₁ b₂ : ByteArray} (h₁ : Refines b₁ f) (h₂ : Refines b₂ f)
    {ops : List Op} (hops : Meets next Allowed b₁ ops) : trace b₂ ops = f.trace ops := by
  induction ops generalizing b₁ b₂ f with
  | nil => rfl
  | cons op ops ih =>
      obtain ⟨hop, hrest⟩ := hops
      obtain ⟨b₁', he₁, hr₁⟩ := exec_refines h₁ hop
      obtain ⟨b₂', he₂, hr₂⟩ := exec_refines h₂ (h₁.allowed h₂ hop)
      have hnext : next b₁ op = some b₁' := by rw [next, he₁]
      rw [trace, he₂, Flat.trace]
      dsimp only
      rw [toString_refines hr₂, ih hr₁ hr₂ (hrest b₁' hnext), hr₂.pos, hr₂.length_data]
      rfl

/-- **A `ByteArray` is a flat byte vector with a cursor.** For every block
size and every sequence of calls, what each call returns or throws, the
position, the size and the remaining data after it are those of one
contiguous vector; so two arrays with different block sizes cannot be told
apart. -/
theorem byteArray_is_flat {base base' : Nat} (hbase : 1 ≤ base) (hbase' : 1 ≤ base')
    (fresh fresh' : Nat → Nat → UInt8) {ops : List Op}
    (hops : Meets next Allowed (ByteArray.new fresh base) ops) :
    trace (ByteArray.new fresh base) ops = Flat.trace {} ops ∧
      trace (ByteArray.new fresh' base') ops = trace (ByteArray.new fresh base) ops := by
  have h := new_refines fresh hbase
  have h' := new_refines fresh' hbase'
  rw [trace_eq h h hops, trace_eq h h' hops]
  exact ⟨rfl, rfl⟩

/-- Writes that end on a block boundary, overwrite and extend, a read that
throws, and a read across blocks. -/
def boundaryOps : List Op :=
  [.write [1, 2, 3, 4], .read 1, .setPosition 1, .write [9, 8, 7, 6], .setPosition 0,
   .read 5, .clear]

theorem boundaryOps_flat :
    trace (ByteArray.new (fun _ _ => 0) 2) boundaryOps = Flat.trace {} boundaryOps ∧
      trace (ByteArray.new (fun _ _ => 255) 3) boundaryOps =
        trace (ByteArray.new (fun _ _ => 0) 2) boundaryOps :=
  byteArray_is_flat (by decide) (by decide) _ _ (by decide)

end Hps.Bytes
