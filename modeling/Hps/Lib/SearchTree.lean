import Mathlib.Data.Tree.Basic
import Hps.Lib.OrderedSet

/-!
# Ordered sets as search trees

What a `std::set` keeps behind the list of its elements is a search tree,
and `find` is a descent in it: at each node it goes to one side and never
comes back. On a tree whose nodes are in order it finds what a search of the
whole list would find, whatever the shape of the tree (`find_eq`); a tree
whose keys have been changed in place may hide an element from it.
-/

namespace Hps.Lib.SearchTree

open OrderedSet

variable {α : Type} (r : α → α → Prop)

/-- The elements as an iterator meets them. -/
def inorder : BinaryTree α → List α
  | .nil => []
  | .node v l t => inorder l ++ v :: inorder t

section Operations

variable [DecidableRel r]

/-- The descent of `lower_bound(x)`: the last node on the way down that is
not below `x`, which is `y` at the start. -/
def lowerBound (x : α) : BinaryTree α → Option α → Option α
  | .nil, y => y
  | .node v l t, y =>
      if r v x then lowerBound x t y else lowerBound x l (some v)

/-- `find(x)`; `none` is `end()`. -/
def find (x : α) (t : BinaryTree α) : Option α :=
  (lowerBound r x t none).filter fun y => !decide (r x y)

end Operations

variable {r} {x : α}

/-- The descent ends at the first element that is not below `x`. -/
theorem lowerBound_eq [DecidableRel r] [IsTrans α r] {t : BinaryTree α}
    (h : Ordered r (inorder t)) (y : Option α) :
    lowerBound r x t y = ((inorder t).find? fun z => !decide (r z x)).or y := by
  induction t generalizing y with
  | nil => rfl
  | node v l t ihl iht =>
      obtain ⟨hl, hvt, hcross⟩ := List.pairwise_append.mp h
      obtain ⟨-, ht⟩ := List.pairwise_cons.mp hvt
      rw [lowerBound, inorder, List.find?_append, List.find?_cons]
      by_cases hv : r v x
      · -- everything to the left of `v` is below `x` with it
        have hleft : (inorder l).find? (fun z => !decide (r z x)) = none := by
          rw [List.find?_eq_none]
          intro z hz
          simpa using trans_of r (hcross z hz v List.mem_cons_self) hv
        rw [if_pos hv, iht ht, hleft]
        simp [hv]
      · rw [if_neg hv, ihl hl]
        simp [hv]

/-- **A search tree finds every element**, and nothing else. -/
theorem find_eq [DecidableRel r] [IsStrictTotalOrder α r] [DecidableEq α]
    {t : BinaryTree α} (h : Ordered r (inorder t)) (x : α) :
    find r x t = if x ∈ inorder t then some x else none := by
  rw [find, lowerBound_eq h, Option.or_none]
  cases hf : (inorder t).find? fun z => !decide (r z x) with
  | none =>
      have hx : x ∉ inorder t := by
        intro hx
        have := List.find?_eq_none.mp hf x hx
        simp [irrefl_of r x] at this
      rw [if_neg hx, Option.filter_none]
  | some y =>
      obtain ⟨hy, as, bs, hsplit, has⟩ := List.find?_eq_some_iff_append.mp hf
      by_cases hxy : x = y
      · subst hxy
        have hx : x ∈ inorder t := by simp [hsplit]
        simp [hx, irrefl_of r x]
      · -- `y` is above `x`, and all that stands before `y` is below it
        have hyx : ¬ r y x := by simpa using hy
        have hlt : r x y := by
          by_contra hc
          exact hxy (eq_of_not_lt hc hyx)
        have hx : x ∉ inorder t := by
          rw [hsplit, List.mem_append, List.mem_cons]
          rw [hsplit] at h
          rintro (hx | rfl | hx)
          · have := has x hx
            simp [irrefl_of r x] at this
          · exact hxy rfl
          · have hbs := (List.pairwise_append.mp h).2.1
            exact hyx ((List.pairwise_cons.mp hbs).1 x hx)
        simp [hx, hlt]

end Hps.Lib.SearchTree
