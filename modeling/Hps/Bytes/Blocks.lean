import Hps.Bytes.Model

/-!
# Bytes — the loops over the blocks

As long as every block has the same size, the loops of `write` and `read`
are one copy into or out of the concatenation of the blocks, and the search
of `setPosition` is a division.
-/

namespace Hps.Bytes

open Hps.Lib

/-! ## Blocks of one size -/

/-- Every block holds `B` bytes. -/
def Blocks (B : Nat) (ns : List Node) : Prop := ∀ n ∈ ns, n.length = B

variable {B : Nat} {ns ms : List Node}

theorem Blocks.tail {n : Node} (h : Blocks B (n :: ns)) : Blocks B ns :=
  fun m hm => h m (List.mem_cons_of_mem n hm)

theorem Blocks.append (h : Blocks B ns) (h' : Blocks B ms) : Blocks B (ns ++ ms) := by
  intro n hn
  rcases List.mem_append.mp hn with hn | hn
  · exact h n hn
  · exact h' n hn

theorem Blocks.length_flatten (h : Blocks B ns) : ns.flatten.length = ns.length * B := by
  induction ns with
  | nil => simp
  | cons n ns ih =>
      rw [List.flatten_cons, List.length_append, ih h.tail, h n List.mem_cons_self,
        List.length_cons, Nat.succ_mul]
      omega

theorem Blocks.drop_flatten (h : Blocks B ns) (k : Nat) :
    ns.flatten.drop (k * B) = (ns.drop k).flatten := by
  induction ns generalizing k with
  | nil => simp
  | cons n ns ih =>
      cases k with
      | zero => simp
      | succ k =>
          have hn : n.length = B := h n List.mem_cons_self
          rw [List.flatten_cons, List.drop_append, hn, Nat.succ_mul,
            List.drop_of_length_le (by omega), Nat.add_sub_cancel, List.nil_append,
            List.drop_succ_cons]
          exact ih h.tail k

theorem Blocks.drop (h : Blocks B ns) (k : Nat) : Blocks B (ns.drop k) :=
  fun n hn => h n (List.mem_of_mem_drop hn)

theorem Blocks.take (h : Blocks B ns) (k : Nat) : Blocks B (ns.take k) :=
  fun n hn => h n (List.mem_of_mem_take hn)

/-! ## The loops over the blocks -/

/-- **The loop of `write`** copies the buffer over the concatenation of the
blocks, and moves on by the blocks it has filled. -/
theorem writeLoop_eq {npos : Nat} {buf : List UInt8} (h : Blocks B ns)
    (hpos : npos < B) (hlen : npos + buf.length ≤ ns.length * B)
    (hbuf : 0 < buf.length) :
    ∃ ns', writeLoop npos buf ns = some (ns', (npos + buf.length) / B) ∧
      ns'.flatten = splice ns.flatten npos buf ∧ ns'.length = ns.length ∧
      Blocks B ns' := by
  induction ns generalizing npos buf with
  | nil =>
      rw [List.length_nil] at hlen
      omega
  | cons cur next ih =>
      have hcur : cur.length = B := h cur List.mem_cons_self
      rw [List.length_cons, Nat.succ_mul] at hlen
      have hblock : ∀ d : List UInt8, npos + d.length ≤ B →
          (splice cur npos d).length = B := by
        intro d hd
        rw [length_splice (by omega)]
        omega
      by_cases hfit : B - npos ≥ buf.length
      · refine ⟨splice cur npos buf :: next, ?_, ?_, rfl, ?_⟩
        · rw [writeLoop, hcur, if_pos hfit]
          by_cases hfull : B = npos + buf.length
          · rw [if_pos hfull, ← hfull, Nat.div_self (by omega)]
          · rw [if_neg hfull, Nat.div_eq_of_lt (by omega)]
        · rw [List.flatten_cons, List.flatten_cons, splice_append_left (by omega)]
        · intro n hn
          rcases List.mem_cons.mp hn with rfl | hn
          · exact hblock buf (by omega)
          · exact h.tail n hn
      · -- the block takes `B - npos` bytes, the rest starts the next block
        have hrest : (buf.drop (B - npos)).length = buf.length - (B - npos) :=
          List.length_drop
        obtain ⟨ns', hloop, hflat, hsame, hblocks⟩ :=
          @ih 0 (buf.drop (B - npos)) h.tail (by omega) (by omega) (by omega)
        refine ⟨splice cur npos (buf.take (B - npos)) :: ns', ?_, ?_, ?_, ?_⟩
        · rw [writeLoop, hcur, if_neg hfit, hloop, Option.map_some, hrest,
            show npos + buf.length = 0 + (buf.length - (B - npos)) + B from by omega,
            Nat.add_div_right _ (by omega)]
        · rw [List.flatten_cons, List.flatten_cons, hflat,
            splice_append_across (by omega) (by omega), hcur]
        · rw [List.length_cons, List.length_cons, hsame]
        · intro n hn
          rcases List.mem_cons.mp hn with rfl | hn
          · exact hblock _ (by rw [List.length_take]; omega)
          · exact hblocks n hn

/-- **The loop of `read`** copies out of the concatenation of the blocks. -/
theorem readLoop_eq {npos size : Nat} (h : Blocks B ns) (hpos : npos < B)
    (hlen : npos + size ≤ ns.length * B) (hsize : 0 < size) :
    readLoop npos size ns =
      some ((ns.flatten.drop npos).take size, (npos + size) / B) := by
  induction ns generalizing npos size with
  | nil =>
      rw [List.length_nil] at hlen
      omega
  | cons cur next ih =>
      have hcur : cur.length = B := h cur List.mem_cons_self
      rw [List.length_cons, Nat.succ_mul] at hlen
      have hdrop : (cur ++ next.flatten).drop npos = cur.drop npos ++ next.flatten :=
        List.drop_append_of_le_length (by omega)
      have hrest : (cur.drop npos).length = B - npos := by
        rw [List.length_drop, hcur]
      by_cases hfit : B - npos ≥ size
      · rw [readLoop, hcur, if_pos hfit, List.flatten_cons, hdrop,
          List.take_append_of_le_length (by omega)]
        by_cases hfull : B = npos + size
        · rw [if_pos hfull, ← hfull, Nat.div_self (by omega)]
        · rw [if_neg hfull, Nat.div_eq_of_lt (by omega)]
      · rw [readLoop, hcur, if_neg hfit,
          ih h.tail (by omega : 0 < B) (by omega) (by omega), Option.map_some,
          List.flatten_cons, hdrop, List.take_append, hrest, List.drop_zero,
          List.take_of_length_le (by omega : (cur.drop npos).length ≤ B - npos),
          List.take_of_length_le (by omega : (cur.drop npos).length ≤ size),
          show npos + size = 0 + (size - (B - npos)) + B from by omega,
          Nat.add_div_right _ (by omega)]

theorem seek_eq {v : Nat} (h : Blocks B ns) (hB : 0 < B) (hns : 0 < ns.length)
    (hv : v ≤ ns.length * B) : seek v ns = some (v / B) := by
  induction ns generalizing v with
  | nil => cases hns
  | cons cur next ih =>
      have hcur : cur.length = B := h cur List.mem_cons_self
      rw [List.length_cons, Nat.succ_mul] at hv
      rw [seek, hcur]
      by_cases hgt : v > B
      · have hnext : 0 < next.length := by
          rcases Nat.eq_zero_or_pos next.length with h0 | h0
          · rw [h0] at hv
            omega
          · exact h0
        rw [if_pos hgt, ih h.tail hnext (by omega), Option.map_some,
          ← Nat.add_div_right _ hB, Nat.sub_add_cancel (by omega)]
      · rw [if_neg hgt]
        by_cases heq : v = B
        · rw [if_pos heq, heq, Nat.div_self hB]
        · rw [if_neg heq, Nat.div_eq_of_lt (by omega)]

end Hps.Bytes
