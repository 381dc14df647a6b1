import Mathlib.Logic.Function.Basic
import Hps.Lib.Run

/-!
# Places that hold one thing

A family of places, each of which is free or holds one value. A value is put
into a free place, and the value that a place holds is taken out of it. What a
run puts into a place is what it takes out, in this order, with what the place
holds at the end (`puts_eq`).
-/

namespace Hps.Lib

variable {κ α : Type}

inductive Move (κ α : Type) where
  | put (k : κ) (v : α)
  | take (k : κ) (v : α)
  deriving DecidableEq, Repr

namespace Move

variable [DecidableEq κ] [DecidableEq α]

/-- One move, if the place is free or holds the value that is taken. -/
def step (s : κ → Option α) : Move κ α → Option (κ → Option α)
  | put k v => if s k = none then some (Function.update s k (some v)) else none
  | take k v => if s k = some v then some (Function.update s k none) else none

/-- What is put into the place, by one move. -/
def put? (k : κ) : Move κ α → Option α
  | put k' v => if k' = k then some v else none
  | take _ _ => none

def take? (k : κ) : Move κ α → Option α
  | put _ _ => none
  | take k' v => if k' = k then some v else none

variable {s t : κ → Option α} {ms : List (Move κ α)} {k : κ}

theorem step_put {v : α} (h : s k = none) :
    step s (put k v) = some (Function.update s k (some v)) := if_pos h

theorem step_take {v : α} (h : s k = some v) :
    step s (take k v) = some (Function.update s k none) := if_pos h

/-- One move at any place, as this place sees it. -/
theorem step_eq {m : Move κ α} (h : step s m = some t) (k : κ) :
    (s k).toList ++ (put? k m).toList = (take? k m).toList ++ (t k).toList := by
  cases m with
  | put k' v =>
      obtain ⟨hfree, ht⟩ := Option.ite_none_right_eq_some.mp h
      obtain rfl := Option.some.inj ht
      by_cases hk : k' = k
      · subst hk
        simp [put?, take?, hfree]
      · simp [put?, take?, hk, Function.update_of_ne (Ne.symm hk)]
  | take k' v =>
      obtain ⟨hheld, ht⟩ := Option.ite_none_right_eq_some.mp h
      obtain rfl := Option.some.inj ht
      by_cases hk : k' = k
      · subst hk
        simp [put?, take?, hheld]
      · simp [put?, take?, hk, Function.update_of_ne (Ne.symm hk)]

/-- **What is put into a place is taken out of it once**, in this order, or is
held at the end. -/
theorem puts_eq (h : run step s ms = some t) (k : κ) :
    (s k).toList ++ ms.filterMap (put? k) = ms.filterMap (take? k) ++ (t k).toList := by
  induction ms generalizing s with
  | nil =>
      obtain rfl := Option.some.inj h
      simp
  | cons m ms ih =>
      obtain ⟨u, hm, hrest⟩ := Option.bind_eq_some_iff.mp h
      have hput : (m :: ms).filterMap (put? k) = (put? k m).toList ++ ms.filterMap (put? k) := by
        rw [List.filterMap_cons]
        cases put? k m <;> rfl
      have htake : (m :: ms).filterMap (take? k) =
          (take? k m).toList ++ ms.filterMap (take? k) := by
        rw [List.filterMap_cons]
        cases take? k m <;> rfl
      calc (s k).toList ++ (m :: ms).filterMap (put? k)
          = ((s k).toList ++ (put? k m).toList) ++ ms.filterMap (put? k) := by
            rw [hput, List.append_assoc]
        _ = (take? k m).toList ++ ((u k).toList ++ ms.filterMap (put? k)) := by
            rw [step_eq hm k, List.append_assoc]
        _ = (m :: ms).filterMap (take? k) ++ (t k).toList := by
            rw [ih hrest, htake, List.append_assoc]

end Move

end Hps.Lib
