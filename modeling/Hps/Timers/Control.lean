import Hps.Lib.SearchTree
import Hps.Timers.Reachable

/-!
# Timers — what the control calls find and what they return

A timer that can still fire has its callback, and the callback is gone from
the moment the timer leaves the set for good. `timers_coherent` says that the
two go together in every state, so that the search of `cancel`, `refresh`
and `reset` meets the timer; `controlTruthful_iff` says when the result of
these calls is the truth about the timer: `reset` looks at the period before
it looks at the callback.
-/

namespace Hps.Timers

open Hps.Lib OrderedSet

namespace TimerManager

variable {m m' : TimerManager} {t : Addr}

/-! ## The callback and the set -/

/-- No timer of the set has lost its callback, and no other has one. -/
theorem cb_iff_mem (hi : m.Inv) (hc : m.HasCallbacks) (t : Addr) :
    (m.heap t).cb.isSome ↔ t ∈ m.timers :=
  ⟨hi.pending t, hc t⟩

/-- A descent in the tree behind the set meets every timer in it. -/
theorem Sorted.find_tree (h : m.Sorted) {tree : BinaryTree Addr}
    (htree : SearchTree.inorder tree = m.timers) (ht : t ∈ m.timers) :
    SearchTree.find (Before m.heap) t tree = some t := by
  rw [SearchTree.find_eq (by rw [htree]; exact h), htree, if_pos ht]

/-- **The callback and the set go together.** In every state that calls of
the manager and of its timers lead to, the set is ordered by deadline and
address and has no timer twice, and the timers in it are those that have
their callback. Whatever search tree the set is kept in, the descent for a
timer with a callback meets it, also behind the `m_cb = nullptr` of `cancel`;
so `cancel` never erases `end()`. -/
theorem timers_coherent {t₀ : UInt64} {ops : List Op}
    (hok : Meets step AddsCallback (init t₀) ops)
    (hr : run step (init t₀) ops = some m) :
    m.timers.Pairwise (fun a b => (m.heap a).next < (m.heap b).next ∨
        ((m.heap a).next = (m.heap b).next ∧ a < b)) ∧
      m.timers.Nodup ∧
      (∀ t, (m.heap t).cb.isSome ↔ t ∈ m.timers) ∧
      (∀ t (tree : BinaryTree Addr), SearchTree.inorder tree = m.timers →
        (m.heap t).cb.isSome →
          SearchTree.find (Before m.heap) t tree = some t ∧
          SearchTree.find (Before (m.put t { m.heap t with cb := none }).heap) t tree =
            some t) ∧
      (∀ t, (m.heap t).cb.isSome → m.find t = some t) ∧
      ∀ t, (m.cancel t).isSome := by
  have hinv := inv_of_run hr
  have hmem := cb_iff_mem hinv (hasCallbacks_of_run hok hr)
  refine ⟨?_, Ordered.nodup hinv.sorted, hmem, ?_, ?_, ?_⟩
  · refine List.Pairwise.imp ?_ hinv.sorted
    intro a b hab
    rw [UInt64.lt_iff_toNat_lt]
    exact before_iff.mp hab
  · intro t tree htree hcb
    have ht : t ∈ m.timers := (hmem t).mp hcb
    exact ⟨hinv.sorted.find_tree htree ht,
      (hinv.sorted.put_cb none).find_tree (m := m.put t { m.heap t with cb := none }) htree ht⟩
  · intro t hcb
    rw [find_eq, if_pos ((hmem t).mp hcb)]
  · intro t
    rw [cancel_eq]
    split
    · rename_i hcb
      rw [if_pos ((hmem t).mp hcb)]
      rfl
    · rfl

/-- One timer is cancelled, another refreshed and fired. -/
def mixedRun : List Op :=
  [.addTimer 1 10 (some 70) false 100, .addTimer 2 5 (some 71) true 100, .cancel 1,
   .refresh 2 103, .listExpiredCb 110 9]

theorem mixedRun_coherent : ∃ m : TimerManager, run step (init 100) mixedRun = some m ∧
    (∀ t, (m.heap t).cb.isSome ↔ t ∈ m.timers) ∧ ∀ t, (m.cancel t).isSome := by
  have hr : run step (init 100) mixedRun = some _ := rfl
  obtain ⟨-, -, hmem, -, -, hcancel⟩ := timers_coherent (by decide) hr
  exact ⟨_, hr, hmem, hcancel⟩

/-! ## What the control calls return -/

/-- A call through a `Timer::ptr`, with the clock reading it makes. -/
inductive Control where
  | cancel
  | refresh (now : UInt64)
  | reset (ms : UInt64) (fromNow : Bool) (now : UInt64)
deriving DecidableEq, Repr

/-- The manager behind the call, and what the call returns. -/
def control (m : TimerManager) (t : Addr) : Control → Option (TimerManager × Bool)
  | .cancel => m.cancel t
  | .refresh now => some (m.refresh t now)
  | .reset ms fromNow now => some (m.reset t ms fromNow now)

/-- What a `reset` that returns true has to leave. -/
def Rearmed (m : TimerManager) (t : Addr) (m' : TimerManager) : Control → Prop
  | .cancel | .refresh _ => True
  | .reset ms fromNow now => t ∈ m'.timers ∧ (m'.heap t).ms = ms ∧
      (m'.heap t).next = m.resetStart t fromNow now + ms

/-- The call returns true exactly for a timer in the set, and does nothing
where it returns false. -/
def Truthful (m : TimerManager) (t : Addr) (c : Control) : Prop :=
  ∃ m' r, m.control t c = some (m', r) ∧ (r = true ↔ t ∈ m.timers) ∧
    (r = false → m' = m) ∧ (r = true → Rearmed m t m' c)

/-- Where `reset` returns before it takes the lock. -/
def ResetsNothing (m : TimerManager) (t : Addr) : Control → Prop
  | .cancel | .refresh _ => False
  | .reset ms fromNow _ => ms = (m.heap t).ms ∧ fromNow = false

instance (m : TimerManager) (t : Addr) : (c : Control) → Decidable (ResetsNothing m t c)
  | .cancel | .refresh _ => isFalse id
  | .reset _ _ _ => inferInstanceAs (Decidable (_ ∧ _))

/-- A `reset` that returns at once is made on a timer in the set; for any
other call no timer in the set is without its callback. -/
def Answerable (m : TimerManager) (t : Addr) (c : Control) : Prop :=
  if ResetsNothing m t c then t ∈ m.timers
  else t ∈ m.timers → (m.heap t).cb.isSome

instance (m : TimerManager) (t : Addr) (c : Control) : Decidable (Answerable m t c) :=
  inferInstanceAs (Decidable (ite _ _ _))

theorem truthful_iff {c : Control} {r : Bool} (h : m.control t c = some (m', r)) :
    Truthful m t c ↔ (r = true ↔ t ∈ m.timers) ∧ (r = false → m' = m) ∧
      (r = true → Rearmed m t m' c) := by
  constructor
  · rintro ⟨m₁, r₁, h₁, hr⟩
    rw [h] at h₁
    cases h₁
    exact hr
  · exact fun hr => ⟨m', r, h, hr⟩

/-- A call that returns false at once is truthful for a timer outside the
set. -/
theorem truthful_refused {c : Control} (h : m.control t c = some (m, false)) :
    Truthful m t c ↔ t ∉ m.timers := by
  rw [truthful_iff h]
  simp

/-- A call that finds its timer is truthful. -/
theorem truthful_found {c : Control} (h : m.control t c = some (m', true))
    (ht : t ∈ m.timers) : Truthful m t c ↔ Rearmed m t m' c := by
  rw [truthful_iff h]
  simp [ht]

/-- What `Answerable` comes to where the call looks at the callback. -/
theorem answerable_iff {c : Control} (hc : ¬ResetsNothing m t c) :
    Answerable m t c ↔ (t ∈ m.timers → (m.heap t).cb.isSome) := by
  rw [Answerable, if_neg hc]

/-- The calls that look at the callback, where it is gone. -/
theorem truthful_of_empty {c : Control} (hc : ¬ResetsNothing m t c)
    (hcb : ¬(m.heap t).cb.isSome) : Truthful m t c ↔ Answerable m t c := by
  have hp : ¬m.Pending t := fun hp => hcb hp.1
  have hrefused : m.control t c = some (m, false) := by
    cases c with
    | cancel => rw [control, cancel_eq, if_neg hcb]
    | refresh now => rw [control, refresh_eq, if_neg hp]
    | reset ms fromNow now =>
        have hne : ¬(ms = (m.heap t).ms ∧ fromNow = false) := hc
        rw [control, reset_eq, if_neg hne, if_neg hp]
  rw [truthful_refused hrefused, answerable_iff hc]
  exact ⟨fun ht h => absurd h ht, fun h ht => hcb (h ht)⟩

/-- The calls that look at the callback, where it is there: they find the
timer. -/
theorem truthful_of_pending {c : Control} (hc : ¬ResetsNothing m t c)
    (hp : m.Pending t) : Truthful m t c := by
  cases c with
  | cancel =>
      have h : m.control t .cancel =
          some ((m.put t { m.heap t with cb := none }).erase t, true) := by
        rw [control, cancel_eq, if_pos hp.1, if_pos hp.2]
      exact (truthful_found h hp.2).mpr trivial
  | refresh now =>
      have h : m.control t (.refresh now) = some (((m.erase t).put t
          { m.heap t with next := now + (m.heap t).ms }).insert t, true) := by
        rw [control, refresh_eq, if_pos hp]
      exact (truthful_found h hp.2).mpr trivial
  | reset ms fromNow now =>
      have hne : ¬(ms = (m.heap t).ms ∧ fromNow = false) := hc
      have h : m.control t (.reset ms fromNow now) = some (((m.erase t).put t
          { m.heap t with
            ms := ms, next := m.resetStart t fromNow now + ms }).addTimerLocked t, true) := by
        rw [control, reset_eq, if_neg hne, if_pos hp]
      refine (truthful_found h hp.2).mpr ⟨?_, ?_, ?_⟩
      · rw [mem_addTimerLocked]
        exact .inl rfl
      · rw [addTimerLocked_heap, put_heap_self]
      · rw [addTimerLocked_heap, put_heap_self]

/-- A `reset` that returns at once says true, whatever has become of the
timer. -/
theorem truthful_of_resetsNothing {c : Control} (hc : ResetsNothing m t c) :
    Truthful m t c ↔ Answerable m t c := by
  rw [Answerable, if_pos hc]
  cases c with
  | cancel => exact hc.elim
  | refresh now => exact hc.elim
  | reset ms fromNow now =>
      obtain ⟨hms, hfrom⟩ := hc
      have h : m.control t (.reset ms fromNow now) = some (m, true) := by
        rw [control, reset_eq, if_pos ⟨hms, hfrom⟩]
      rw [truthful_iff h]
      constructor
      · exact fun hr => hr.1.mp rfl
      · -- nothing has been written, which is what the call had to write
        intro ht
        refine ⟨by simp [ht], nofun, fun _ => ⟨ht, hms.symm, ?_⟩⟩
        rw [resetStart, hfrom, if_neg Bool.false_ne_true, hms, UInt64.sub_add_cancel]

/-- **The results are the truth, but for a `reset` that changes nothing.** In
every reachable state and for every timer, a `cancel`, `refresh` or `reset`
returns true exactly for a timer in the set, leaves everything as it was when
it returns false, and after a true `reset` the timer has its new period and
deadline, if and only if the call is not a `reset` to the same period, not
from now, on a timer outside the set, nor a call on a timer that was added
with an empty callback. -/
theorem controlTruthful_iff {t₀ : UInt64} {ops : List Op}
    (hr : run step (init t₀) ops = some m) (t : Addr) (c : Control) :
    Truthful m t c ↔ Answerable m t c := by
  have hinv := inv_of_run hr
  by_cases hc : ResetsNothing m t c
  · exact truthful_of_resetsNothing hc
  · by_cases hcb : (m.heap t).cb.isSome
    · have hp : m.Pending t := ⟨hcb, hinv.pending t hcb⟩
      rw [answerable_iff hc]
      exact ⟨fun _ _ => hcb, fun _ => truthful_of_pending hc hp⟩
    · exact truthful_of_empty hc hcb

/-- Timers added with a callback answer every call but that `reset`. -/
theorem answerable_of_callbacks {t₀ : UInt64} {ops : List Op}
    (hok : Meets step AddsCallback (init t₀) ops)
    (hr : run step (init t₀) ops = some m) (t : Addr) {c : Control}
    (hc : ¬ResetsNothing m t c) : Answerable m t c := by
  rw [answerable_iff hc]
  exact hasCallbacks_of_run hok hr t

theorem pendingReset_truthful : ∃ m : TimerManager, run step (init 100) mixedRun = some m ∧
    Truthful m 2 (.reset 5 false 120) := by
  have hr : run step (init 100) mixedRun = some _ := rfl
  exact ⟨_, hr, (controlTruthful_iff hr 2 (.reset 5 false 120)).mpr (by decide)⟩

/-- A cancelled timer is reset to the period it had. -/
theorem cancelledReset_not_truthful :
    ∃ m : TimerManager, run step (init 100) mixedRun = some m ∧
      ¬Truthful m 1 (.reset 10 false 120) := by
  have hr : run step (init 100) mixedRun = some _ := rfl
  refine ⟨_, hr, fun h => ?_⟩
  have ht := ((truthful_iff rfl).mp h).1.mp rfl
  exact absurd ht (by decide)

end TimerManager

end Hps.Timers
