import Mathlib.Computability.RegularExpressions
import Hps.Lib.Machine

/-!
# Words of regular expressions

A machine may keep in its state what is still to come of an expression, and
go from there to the derivative by what it reads.

* `mem_deriv`, `mem_derivs` — what is still to come;
* `Over` — the symbols of which the words are made; `Heads` — those with which
  they begin;
* `cut_star` — a word of a repetition, cut at a symbol that only stands alone;
* `Machine.Runs.fold` — a machine that folds what it reads into its state.
-/

namespace Hps.Lib

open RegularExpression

variable {α : Type}

/-! ## Derivatives -/

section Derivatives

variable [DecidableEq α] {r : RegularExpression α}

theorem mem_deriv {a : α} {w : List α} :
    w ∈ (r.deriv a).matches' ↔ a :: w ∈ r.matches' := by
  rw [← rmatch_iff_matches', ← rmatch_iff_matches', rmatch]

theorem matchEpsilon_iff : r.matchEpsilon = true ↔ [] ∈ r.matches' := by
  rw [← rmatch_iff_matches', rmatch]

/-- What is still to come behind a word. -/
def derivs (r : RegularExpression α) (w : List α) : RegularExpression α := w.foldl deriv r

theorem mem_derivs {w v : List α} : v ∈ (derivs r w).matches' ↔ w ++ v ∈ r.matches' := by
  induction w generalizing r with
  | nil => exact Iff.rfl
  | cons a w ih => exact (ih (r := r.deriv a)).trans mem_deriv

theorem matchEpsilon_derivs {w : List α} (h : w ∈ r.matches') :
    (derivs r w).matchEpsilon = true := by
  rw [matchEpsilon_iff, mem_derivs, List.append_nil]
  exact h

end Derivatives

/-! ## Symbols -/

/-- Every word is made of symbols that `P` holds of. -/
def Over (P : α → Prop) (r : RegularExpression α) : Prop :=
  ∀ w ∈ r.matches', ∀ a ∈ w, P a

section Over

variable {P Q : α → Prop} {r s : RegularExpression α}

theorem Over.imp (h : Over P r) (hPQ : ∀ a, P a → Q a) : Over Q r :=
  fun w hw a ha => hPQ a (h w hw a ha)

theorem over_one : Over P (1 : RegularExpression α) := by
  intro w hw a ha
  rw [Set.mem_singleton_iff.mp hw] at ha
  cases ha

theorem over_char {a : α} (h : P a) : Over P (char a) := by
  intro w hw b hb
  rw [Set.mem_singleton_iff.mp hw] at hb
  rw [List.mem_singleton.mp hb]
  exact h

theorem Over.add (hr : Over P r) (hs : Over P s) : Over P (r + s) := by
  rintro w (hw | hw)
  · exact hr w hw
  · exact hs w hw

theorem Over.mul (hr : Over P r) (hs : Over P s) : Over P (r * s) := by
  intro w hw a ha
  obtain ⟨u, hu, v, hv, rfl⟩ := Language.mem_mul.mp hw
  rcases List.mem_append.mp ha with ha | ha
  · exact hr u hu a ha
  · exact hs v hv a ha

theorem Over.star (hr : Over P r) : Over P (star r) := by
  intro w hw a ha
  obtain ⟨ws, rfl, hws⟩ := Language.mem_kstar.mp hw
  obtain ⟨u, hu, ha⟩ := List.mem_flatten.mp ha
  exact hr u (hws u hu) a ha

end Over

/-- A repetition of single symbols. -/
theorem mem_star_of_forall {r : RegularExpression α} {w : List α}
    (h : ∀ a ∈ w, [a] ∈ r.matches') : w ∈ (star r).matches' := by
  refine Language.mem_kstar.mpr ⟨w.map fun a => [a], ?_, fun u hu => ?_⟩
  · exact (List.flatMap_singleton' w).symm
  · obtain ⟨a, ha, rfl⟩ := List.mem_map.mp hu
    exact h a ha

/-- Every word but the empty one begins with a symbol that `P` holds of. -/
def Heads (P : α → Prop) (r : RegularExpression α) : Prop :=
  ∀ a w, a :: w ∈ r.matches' → P a

section Heads

variable {P : α → Prop} {r s : RegularExpression α}

theorem Over.heads (h : Over P r) : Heads P r :=
  fun a _ hw => h _ hw a List.mem_cons_self

theorem Heads.add (hr : Heads P r) (hs : Heads P s) : Heads P (r + s) := by
  rintro a w (hw | hw)
  · exact hr a w hw
  · exact hs a w hw

theorem Heads.mul (hr : Heads P r) (hs : Heads P s) : Heads P (r * s) := by
  intro a w hw
  obtain ⟨u, hu, v, hv, huv⟩ := Language.mem_mul.mp hw
  cases u with
  | nil =>
      rw [List.nil_append] at huv
      exact hs a w (huv ▸ hv)
  | cons b u =>
      obtain ⟨rfl, -⟩ := List.cons.inj huv
      exact hr b u hu

/-- The second part does not matter if the first one is never empty. -/
theorem Heads.mul_left (hr : Heads P r) (hne : [] ∉ r.matches') : Heads P (r * s) := by
  intro a w hw
  obtain ⟨u, hu, v, -, huv⟩ := Language.mem_mul.mp hw
  cases u with
  | nil => exact absurd hu hne
  | cons b u =>
      obtain ⟨rfl, -⟩ := List.cons.inj huv
      exact hr b u hu

theorem Heads.star (hr : Heads P r) : Heads P (star r) := by
  intro a w hw
  obtain ⟨ws, hflat, hws⟩ := Language.mem_kstar.mp hw
  clear hw
  induction ws with
  | nil => cases hflat
  | cons u ws ih =>
      obtain ⟨hu, hrest⟩ := List.forall_mem_cons.mp hws
      cases u with
      | nil => exact ih hflat hrest
      | cons b u =>
          obtain ⟨rfl, -⟩ := List.cons.inj hflat
          exact hr a u hu

end Heads

/-- **A repetition is cut** at the first symbol that only stands alone in it. -/
theorem cut_star {r : RegularExpression α} {a : α} (hr : Over (· ≠ a) r) {w v : List α}
    (h : w ++ a :: v ∈ (star (r + char a)).matches') (hw : a ∉ w) :
    w ∈ (star r).matches' ∧ v ∈ (star (r + char a)).matches' := by
  obtain ⟨ws, hflat, hws⟩ := Language.mem_kstar.mp h
  clear h
  induction ws generalizing w with
  | nil => simp at hflat
  | cons u ws ih =>
      obtain ⟨hu, hrest⟩ := List.forall_mem_cons.mp hws
      rw [List.flatten_cons] at hflat
      rcases hu with hu | hu
      · -- the first part lies before the symbol
        have hau : a ∉ u := fun ha => hr u hu a ha rfl
        obtain ⟨w', rfl⟩ : u <+: w := by
          refine List.prefix_of_prefix_length_le ⟨_, hflat.symm⟩ ⟨_, rfl⟩ ?_
          by_contra hlt
          have hpre : w ++ [a] <+: u := by
            have hleft : w ++ [a] <+: w ++ a :: v := ⟨v, by simp⟩
            refine List.prefix_of_prefix_length_le hleft ⟨_, hflat.symm⟩ ?_
            rw [List.length_append, List.length_singleton]
            omega
          exact hau (hpre.subset (List.mem_append_right w List.mem_cons_self))
        rw [List.append_assoc, List.append_cancel_left_eq] at hflat
        obtain ⟨hw', hv⟩ := ih (fun ha => hw (List.mem_append_right u ha)) hflat hrest
        refine ⟨?_, hv⟩
        obtain ⟨us, rfl, hus⟩ := Language.mem_kstar.mp hw'
        exact Language.mem_kstar.mpr ⟨u :: us, rfl, List.forall_mem_cons.mpr ⟨hu, hus⟩⟩
      · obtain rfl : u = [a] := Set.mem_singleton_iff.mp hu
        cases w with
        | nil =>
            obtain ⟨-, rfl⟩ := List.cons.inj hflat
            exact ⟨Language.nil_mem_kstar _, Language.join_mem_kstar hrest⟩
        | cons b w =>
            obtain ⟨rfl, -⟩ := List.cons.inj hflat
            exact absurd List.mem_cons_self hw

/-! ## Machines -/

variable {Q β A R C ι : Type} {M : Machine Q β A} {act : A → Nat → R → R × List C}

/-- **A machine that folds** what it reads into its state, as long as it may. -/
theorem Machine.Runs.fold (k : ι → Q) (f : ι → β → ι) (May : ι → List β → Prop)
    (hstep : ∀ i c cs, May i (c :: cs) → M.next (k i) c = some (k (f i c), []) ∧ May (f i c) cs)
    {i : ι} {xs : List β} (h : May i xs) (p : Nat) (s : R) :
    Machine.Runs M act (k i) p s xs (k (xs.foldl f i)) s [] := by
  induction xs generalizing i p with
  | nil => exact Machine.Runs.nil
  | cons c cs ih =>
      obtain ⟨hnext, hrest⟩ := hstep i c cs h
      exact (Machine.Runs.step hnext rfl p s).append (ih hrest (p + 1))

end Hps.Lib
