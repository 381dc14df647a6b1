import Hps.Bytes.Calls

/-!
# Bytes — access through buffers is access by copying

What `getReadBuffers` points to is what `toString` returns, and a caller that
fills the buffers of `getWriteBuffers` and moves the position on has called
`write`.
-/

namespace Hps.Bytes

open Hps.Lib

variable {b : ByteArray} {f : Flat}

/-- The buffer lies in a block. -/
def IoVec.Within (ns : List Node) (v : IoVec) : Prop :=
  v.node < ns.length ∧ v.base + v.len ≤ (ns.getD v.node []).length

theorem Consecutive.within {B p : Nat} {ns : List Node} {vs : List IoVec}
    (h : Consecutive B p vs) (hns : Blocks B ns) (hnode : ∀ v ∈ vs, v.node < ns.length) :
    ∀ v ∈ vs, v.Within ns := by
  induction vs generalizing p with
  | nil =>
      intro v hv
      cases hv
  | cons w vs ih =>
      obtain ⟨-, hfit, hrest⟩ := h
      intro v hv
      rcases List.mem_cons.mp hv with rfl | hv
      · have hk := hnode v List.mem_cons_self
        have hblock : (ns.getD v.node []).length = B := by
          rw [List.getD_eq_getElem?_getD, List.getElem?_eq_getElem hk, Option.getD_some]
          exact hns _ (List.getElem_mem hk)
        exact ⟨hk, by omega⟩
      · exact ih hrest (fun u hu => hnode u (List.mem_cons_of_mem w hu)) v hv

/-- **Gathering**: the buffers point to what is left to read. -/
theorem gather_refines (h : Refines b f) (buffers : List IoVec) (len : Nat) :
    ∃ iovs, getReadBuffers buffers len b = .ok (buffers ++ iovs, min len b.getReadSize) b ∧
      gatherBytes b.nodes iovs = f.toString.take (min len b.getReadSize) := by
  obtain ⟨iovs, hiovs, hcons, htotal, hnode⟩ := getReadBuffers_eq buffers h.wf len
  refine ⟨iovs, hiovs, ?_⟩
  have hread : min len b.getReadSize ≤ b.size - b.position := Nat.min_le_right _ _
  rw [hcons.gatherBytes h.wf.blocks hnode, htotal, Flat.toString, ← h.data, ← h.pos,
    List.drop_take, List.take_take, Nat.min_eq_left hread]

/-- **Scattering**: the buffers, filled with `d`, and the position behind
`d` make a `write`. -/
theorem scatter_refines (h : Refines b f) (buffers : List IoVec) {len : Nat} {d : List UInt8}
    (hd : d.length ≤ len) :
    ∃ iovs b₁ b₂, getWriteBuffers buffers len b = .ok (buffers ++ iovs, len) b₁ ∧
      iovs.Pairwise IoVec.Disjoint ∧ totalLen iovs = len ∧ (∀ v ∈ iovs, v.Within b₁.nodes) ∧
      b₁.position = b.position ∧
      setPosition (b₁.position + d.length) { b₁ with nodes := fillBytes b₁.nodes iovs d } =
        .ok () b₂ ∧
      Refines b₂ (f.write d) := by
  obtain ⟨iovs, hiovs, hcons, htotal, hnode⟩ := getWriteBuffers_eq buffers h.wf len
  obtain ⟨hg, hroom, -⟩ := addCapacity_refines (n := len) h
  have hpos := addCapacity_position b len
  rw [← addCapacity_baseSize b len, ← hpos] at hcons
  revert hiovs hcons hnode hg hroom hpos
  generalize b.addCapacity len = g
  intro hiovs hcons hnode hg hroom hpos
  have hw := hg.wf
  have hfilled := hw.fill hcons hnode d
  have hend : g.position + d.length ≤ g.capacity := by omega
  have hcopy := (hcons.fillBytes (d := d) hw.blocks hnode).2 (by omega)
  refine ⟨iovs, g, _, hiovs, hcons.disjoint, htotal, hcons.within hw.blocks hnode, hpos,
    setPosition_eq hfilled hend, ⟨?_, ?_, ?_⟩⟩
  · have hsize := hw.size_le
    exact ⟨hw.base_pos, hfilled.blocks, hfilled.root, hfilled.capacity,
      Nat.le_max_right _ _, by dsimp only; omega, rfl⟩
  · show (fillBytes g.nodes iovs d).flatten.take (max g.size (g.position + d.length)) = _
    rw [hcopy, take_splice hw.position_le (by rw [hw.length_flatten]; exact hw.size_le),
      hg.data, hg.pos]
    rfl
  · show g.position + d.length = _
    rw [hg.pos]
    rfl

/-- **Access through buffers.** In every state and for every length, the
buffers of `getReadBuffers` point to the first bytes of `toString` and the
array stays as it is; and whoever fills the first bytes of the buffers of
`getWriteBuffers` with `d` and sets the position behind them has the array
that `write` of `d` leaves: position, size and content. -/
theorem buffers_agree (h : Reachable b) (buffers : List IoVec) (len : Nat) :
    (∃ iovs s, getReadBuffers buffers len b =
          .ok (buffers ++ iovs, min len b.getReadSize) b ∧
        toString b = .ok s b ∧
        gatherBytes b.nodes iovs = s.take (min len b.getReadSize)) ∧
      ∀ d : List UInt8, d.length ≤ len →
        ∃ iovs b₁ b₂ b₃, getWriteBuffers buffers len b = .ok (buffers ++ iovs, len) b₁ ∧
          iovs.Pairwise IoVec.Disjoint ∧ totalLen iovs = len ∧
          (∀ v ∈ iovs, v.Within b₁.nodes) ∧
          (do fill iovs d; setPosition (b₁.position + d.length) : M Unit) b₁ = .ok () b₂ ∧
          write d b = .ok () b₃ ∧
          b₂.position = b₃.position ∧ b₂.size = b₃.size ∧ b₂.content = b₃.content := by
  have href := h.wf.refines
  constructor
  · obtain ⟨iovs, hiovs, hbytes⟩ := gather_refines href buffers len
    exact ⟨iovs, _, hiovs, toString_refines href, hbytes⟩
  · intro d hd
    obtain ⟨iovs, b₁, b₂, hiovs, hdisjoint, htotal, hwithin, -, hset, hr₂⟩ :=
      scatter_refines href buffers hd
    obtain ⟨b₃, hwrite, hr₃, -⟩ := write_refines href d
    refine ⟨iovs, b₁, b₂, b₃, hiovs, hdisjoint, htotal, hwithin, ?_, hwrite, ?_, ?_, ?_⟩
    · rw [bind_ok (fill_eq iovs d b₁)]
      exact hset
    · rw [hr₂.pos, hr₃.pos]
    · rw [← hr₂.length_data, ← hr₃.length_data]
    · rw [ByteArray.content, ByteArray.content, hr₂.data, hr₃.data]

/-- A reader that gets three bytes into four, across blocks of two. -/
theorem partialFill_agrees :
    ∃ iovs b₁ b₂ b₃,
      getWriteBuffers [] 4 (.new (fun _ _ => 0) 2) = .ok ([] ++ iovs, 4) b₁ ∧
      (do fill iovs [7, 8, 9]; setPosition (b₁.position + 3) : M Unit) b₁ = .ok () b₂ ∧
      write [7, 8, 9] (.new (fun _ _ => 0) 2) = .ok () b₃ ∧ b₂.content = b₃.content := by
  have hreach : Reachable (.new (fun _ _ => 0) 2) := ⟨fun _ _ => 0, 2, [], by decide, rfl⟩
  obtain ⟨iovs, b₁, b₂, b₃, hiovs, -, -, -, hfill, hwrite, -, -, hcontent⟩ :=
    (buffers_agree hreach [] 4).2 [7, 8, 9] (by decide)
  exact ⟨iovs, b₁, b₂, b₃, hiovs, hfill, hwrite, hcontent⟩

end Hps.Bytes
