import Mathlib.Algebra.BigOperators.Group.Finset.Piecewise
import Mathlib.Data.Fintype.Basic

/-!
# Counting the members of a family

`countWhere p f` is the number of indices at which the family `f` meets `p`.
A counter that is meant to be such a number changes with one member at a
time: `countWhere_update`.
-/

namespace Hps.Lib

variable {ι α : Type} [Fintype ι]

def countWhere (p : α → Bool) (f : ι → α) : Nat :=
  (Finset.univ.filter fun i => p (f i) = true).card

theorem countWhere_pos_iff {p : α → Bool} {f : ι → α} :
    0 < countWhere p f ↔ ∃ i, p (f i) = true := by
  rw [countWhere, Finset.card_pos]
  constructor
  · rintro ⟨i, hi⟩
    exact ⟨i, (Finset.mem_filter.mp hi).2⟩
  · rintro ⟨i, hi⟩
    exact ⟨i, Finset.mem_filter.mpr ⟨Finset.mem_univ i, hi⟩⟩

theorem countWhere_eq_zero_iff {p : α → Bool} {f : ι → α} :
    countWhere p f = 0 ↔ ∀ i, p (f i) = false := by
  rw [← not_iff_not, ← ne_eq, ← Nat.pos_iff_ne_zero, countWhere_pos_iff]
  simp

variable [DecidableEq ι]

/-- **Changing one member** changes the count by that member's share. -/
theorem countWhere_update (p : α → Bool) (f : ι → α) (i : ι) (x : α) :
    countWhere p (Function.update f i x) + (p (f i)).toNat =
      countWhere p f + (p x).toNat := by
  have hsum : ∀ g : ι → α, countWhere p g =
      (p (g i)).toNat + ∑ j ∈ Finset.univ.erase i, (p (g j)).toNat := by
    intro g
    rw [countWhere, Finset.card_filter,
      Finset.add_sum_erase Finset.univ (fun j => (p (g j)).toNat) (Finset.mem_univ i)]
    apply Finset.sum_congr rfl
    intro j _
    cases p (g j) <;> rfl
  have hrest : ∑ j ∈ Finset.univ.erase i, (p (Function.update f i x j)).toNat =
      ∑ j ∈ Finset.univ.erase i, (p (f j)).toNat := by
    apply Finset.sum_congr rfl
    intro j hj
    rw [Function.update_of_ne (Finset.ne_of_mem_erase hj)]
  rw [hsum (Function.update f i x), hsum f, hrest, Function.update_self]
  omega

/-- A member that is changed within `p`, or outside of it. -/
theorem countWhere_update_eq {p : α → Bool} {f : ι → α} {i : ι} {x : α}
    (h : p x = p (f i)) : countWhere p (Function.update f i x) = countWhere p f := by
  have := countWhere_update p f i x
  rw [h] at this
  omega

end Hps.Lib
