import Hps.Timers.Expiry

/-!
# Timers — every reachable state

Whatever the order of the calls and whatever the clock reads, the set stays
sorted by the deadlines its timers have now, and a timer that has not been
cancelled or fired for the last time is in it. From a state like that
`listExpiredCb` is exact.
-/

namespace Hps.Timers

open Hps.Lib OrderedSet

namespace TimerManager

variable {m m' : TimerManager} {now : UInt64} {t : Addr}

/-! ## The invariant -/

/-- What every call keeps: the set is sorted by the deadlines the timers
have now, and a timer that still has its callback is in it. The second is
what makes `m_timers.erase(it)` in `cancel` safe. -/
structure Inv (m : TimerManager) : Prop where
  sorted : m.Sorted
  pending : ∀ t, (m.heap t).cb.isSome → t ∈ m.timers

theorem Inv.of_eq (h : m.Inv) (hh : m'.heap = m.heap)
    (ht : m'.timers = m.timers) : m'.Inv :=
  ⟨h.sorted.of_eq hh ht, by rw [hh, ht]; exact h.pending⟩

/-- Putting one timer back under a new deadline. -/
theorem Inv.insert_put (h : m.Inv) (v : Timer) :
    (((m.erase t).put t v).insert t).Inv := by
  refine ⟨(h.sorted.put_erase v).insert, ?_⟩
  intro u hu
  rw [mem_insert, put_timers, mem_erase h.sorted]
  by_cases hut : u = t
  · exact .inl hut
  · rw [insert_heap, put_heap_ne v hut, erase_heap] at hu
    exact .inr ⟨hut, h.pending u hu⟩

theorem Inv.addTimer (h : m.Inv) (ht : t ∉ m.timers) (v : Timer) :
    ((m.put t v).addTimerLocked t).Inv := by
  refine ⟨(h.sorted.put ht v).addTimerLocked, ?_⟩
  intro u hu
  rw [mem_addTimerLocked]
  by_cases hut : u = t
  · exact .inl hut
  · rw [addTimerLocked_heap, put_heap_ne v hut] at hu
    exact .inr (h.pending u hu)

theorem Inv.cancel (h : m.Inv) :
    ((m.put t { m.heap t with cb := none }).erase t).Inv := by
  have hput : (m.put t { m.heap t with cb := none }).Sorted := h.sorted.put_cb none
  refine ⟨hput.erase, ?_⟩
  intro u hu
  rw [mem_erase hput, put_timers]
  by_cases hut : u = t
  · rw [hut, erase_heap, put_heap_self] at hu
    simp at hu
  · rw [erase_heap, put_heap_ne _ hut] at hu
    exact ⟨hut, h.pending u hu⟩

theorem Inv.fired (h : m.Inv) (hf : Fired now (m.expired now) (m.withoutExpired now) m') :
    m'.Inv := by
  refine ⟨hf.sorted, ?_⟩
  intro u hu
  rw [hf.mem, mem_withoutExpired]
  by_cases hE : u ∈ m.expired now
  · rw [hf.heap_in u hE, Timer.fire] at hu
    split at hu
    · rename_i hr
      exact .inr ⟨hE, hr⟩
    · simp at hu
  · rw [hf.heap_out u hE] at hu
    exact .inl ⟨h.pending u hu, hE⟩

theorem Inv.step (h : m.Inv) {op : Op} (hs : step m op = some m') : m'.Inv := by
  cases effect_of_step hs with
  | none => exact h
  | add ms cb recurring now hfresh => exact h.addTimer hfresh _
  | cancel => exact h.cancel
  | refresh now => exact h.insert_put _
  | reset now => exact (h.insert_put _).of_eq rfl rfl
  | listExpiredCb now hp => exact h.fired (listExpiredCb_fired now [] h.sorted hp).1
  | getNextTimer now => exact h.of_eq rfl rfl

theorem init_inv (t₀ : UInt64) : (init t₀).Inv :=
  ⟨List.Pairwise.nil, by simp [init]⟩

theorem inv_of_run {t₀ : UInt64} {ops : List Op}
    (hr : run step (init t₀) ops = some m) : m.Inv :=
  run_invariant' (fun _ _ _ h hs => h.step hs) (init_inv t₀) hr

/-- `cancel` never erases `end()`. -/
theorem cancel_defined {t₀ : UInt64} {ops : List Op}
    (hr : run step (init t₀) ops = some m) (t : Addr) : (m.cancel t).isSome := by
  rw [cancel_eq]
  split
  · rename_i hcb
    rw [if_pos ((inv_of_run hr).pending t hcb)]
    rfl
  · rfl

/-! ## What holds of each timer in the set -/

/-- `P` holds of every timer in the set. -/
def Each (P : Timer → Prop) (m : TimerManager) : Prop :=
  ∀ t ∈ m.timers, P (m.heap t)

section Each

variable {P Q : Timer → Prop}

theorem Each.imp (h : m.Each P) (hPQ : ∀ v, P v → Q v) : m.Each Q :=
  fun t ht => hPQ _ (h t ht)

theorem Each.erase (h : m.Each P) : (m.erase t).Each P :=
  fun u hu => h u (List.mem_of_mem_erase hu)

theorem Each.insert_put (h : m.Each P) {v : Timer} (hv : P v) :
    ((m.put t v).insert t).Each P := by
  intro u hu
  rw [mem_insert, put_timers] at hu
  rw [insert_heap]
  by_cases hut : u = t
  · rw [hut, put_heap_self]
    exact hv
  · rw [put_heap_ne v hut]
    exact h u (hu.resolve_left hut)

theorem Each.addTimer (h : m.Each P) {v : Timer} (hv : P v) :
    ((m.put t v).addTimerLocked t).Each P :=
  h.insert_put hv

theorem Each.put_erase (h : m.Each P) (hs : m.Sorted) (v : Timer) :
    ((m.put t v).erase t).Each P := by
  intro u hu
  have hne : u ≠ t := by
    rintro rfl
    exact (Ordered.nodup hs).not_mem_erase hu
  rw [erase_heap, put_heap_ne _ hne]
  exact h u (List.mem_of_mem_erase hu)

theorem Each.fired (h : m.Each P)
    (hf : Fired now (m.expired now) (m.withoutExpired now) m')
    (hrearm : ∀ t ∈ m.expired now, (m.heap t).recurring = true →
      P ((m.heap t).fire now)) : m'.Each P := by
  intro u hu
  rcases (hf.mem u).mp hu with hu | ⟨hE, hr⟩
  · obtain ⟨hmem, hE⟩ := mem_withoutExpired.mp hu
    rw [hf.heap_out u hE]
    exact h u hmem
  · rw [hf.heap_in u hE]
    exact hrearm u hE hr

end Each

/-! ## Timers added with a callback -/

/-- The callback a new timer gets is not empty. -/
def AddsCallback (_ : TimerManager) : Op → Prop
  | .addTimer _ _ cb _ _ => cb.isSome
  | _ => True

instance (m : TimerManager) : (op : Op) → Decidable (AddsCallback m op)
  | .addTimer _ _ cb _ _ => inferInstanceAs (Decidable (cb.isSome = true))
  | .cancel _ | .refresh _ _ | .reset _ _ _ _ | .listExpiredCb _ _
  | .getNextTimer _ => isTrue trivial

/-- No timer of the set has lost its callback. -/
def HasCallbacks (m : TimerManager) : Prop := m.Each (·.cb.isSome)

theorem HasCallbacks.step (h : m.HasCallbacks) (hi : m.Inv) {op : Op}
    (hok : AddsCallback m op) (hs : step m op = some m') : m'.HasCallbacks := by
  cases effect_of_step hs with
  | none => exact h
  | add ms cb recurring now => exact Each.addTimer h hok
  | cancel => exact Each.put_erase h hi.sorted _
  | refresh now hp => exact Each.insert_put (Each.erase h) hp.1
  | reset now hne hp => exact Each.addTimer (Each.erase h) hp.1
  | listExpiredCb now hp =>
      refine Each.fired h (listExpiredCb_fired now [] hi.sorted hp).1 ?_
      intro t ht hr
      rw [Timer.fire, if_pos hr]
      exact h t (mem_expired.mp ht).1
  | getNextTimer => exact h

theorem hasCallbacks_of_run {t₀ : UInt64} {ops : List Op}
    (hok : Meets step AddsCallback (init t₀) ops)
    (hr : run step (init t₀) ops = some m) : m.HasCallbacks := by
  have hstep : ∀ (m : TimerManager) (op : Op) (m' : TimerManager),
      (m.Inv ∧ m.HasCallbacks) → AddsCallback m op → step m op = some m' →
        m'.Inv ∧ m'.HasCallbacks :=
    fun _ _ _ h hok hs => ⟨h.1.step hs, h.2.step h.1 hok hs⟩
  have hinit : (init t₀).Inv ∧ (init t₀).HasCallbacks :=
    ⟨init_inv t₀, by simp [HasCallbacks, Each, init]⟩
  exact (run_invariant hstep hinit hok hr).2

/-! ## Expiry -/

/-- **Expiry is exact.** In every reachable state and for every clock
reading, `listExpiredCb` appends the callbacks of exactly the timers that
are due (of all timers, when the clock is found to have rolled over), each
once and in the order of their deadlines; the set keeps the others as they
are, gets the recurring ones back at `now + m_ms`, and loses the one-shot
ones together with their callbacks. -/
theorem listExpiredCb_exact {t₀ : UInt64} {ops : List Op}
    (hok : Meets step AddsCallback (init t₀) ops)
    (hr : run step (init t₀) ops = some m) (now : UInt64) {probe : Addr}
    (hp : probe ∉ m.timers) (cbs : List (Option Callback)) :
    ∃ E : List Addr,
      (∀ t, t ∈ E ↔ t ∈ m.timers ∧
        ((m.detectClockRollover now).2 = true ∨ (m.heap t).next ≤ now)) ∧
      E.Nodup ∧ E.Pairwise (fun a b => (m.heap a).next ≤ (m.heap b).next) ∧
      (m.listExpiredCb now probe cbs).2 = cbs ++ E.map (fun t => (m.heap t).cb) ∧
      (∀ t ∈ E, (m.heap t).cb.isSome) ∧
      (m.listExpiredCb now probe cbs).1.Sorted ∧
      (∀ t, t ∈ (m.listExpiredCb now probe cbs).1.timers ↔
        (t ∈ m.timers ∧ t ∉ E) ∨ (t ∈ E ∧ (m.heap t).recurring = true)) ∧
      (∀ t ∈ m.timers, t ∉ E →
        (m.listExpiredCb now probe cbs).1.heap t = m.heap t) ∧
      (∀ t ∈ E, (m.heap t).recurring = true →
        (m.listExpiredCb now probe cbs).1.heap t =
          { m.heap t with next := now + (m.heap t).ms }) ∧
      (∀ t ∈ E, (m.heap t).recurring = false →
        t ∉ (m.listExpiredCb now probe cbs).1.timers ∧
          ((m.listExpiredCb now probe cbs).1.heap t).cb = none) := by
  have hsorted := (inv_of_run hr).sorted
  have hcallbacks := hasCallbacks_of_run hok hr
  obtain ⟨hf, hcbs⟩ := listExpiredCb_fired now cbs hsorted hp
  have hmem : ∀ t, t ∈ (m.listExpiredCb now probe cbs).1.timers ↔
      (t ∈ m.timers ∧ t ∉ m.expired now) ∨
        (t ∈ m.expired now ∧ (m.heap t).recurring = true) := by
    intro t
    rw [hf.mem, mem_withoutExpired]
    rfl
  refine ⟨m.expired now, fun t => mem_expired, (Ordered.nodup hsorted).filter _, ?_,
    hcbs, fun t ht => hcallbacks t (mem_expired.mp ht).1, hf.sorted, hmem,
    fun t _ ht => hf.heap_out t ht, ?_, ?_⟩
  · exact List.Pairwise.imp Before.next_le (List.Pairwise.filter _ hsorted)
  · intro t ht hr
    rw [hf.heap_in t ht, Timer.fire]
    exact if_pos hr
  · intro t ht hr
    constructor
    · rw [hmem]
      simp [ht, hr]
    · rw [hf.heap_in t ht, Timer.fire, if_neg]
      simpa [withoutExpired] using hr

/-- Two timers with one deadline, on either side of the address `4` of the
probe, and a third one that is not due. -/
def tieRun : List Op :=
  [.addTimer 5 10 (some 70) true 100, .addTimer 3 10 (some 71) false 100,
   .addTimer 1 20 (some 72) false 100]

theorem tieRun_expires :
    ∃ (m : TimerManager) (E : List Addr), run step (init 100) tieRun = some m ∧
      (m.listExpiredCb 110 4 []).2 = [] ++ E.map (fun t => (m.heap t).cb) ∧
      (∀ t, t ∈ E ↔ t ∈ m.timers ∧
        ((m.detectClockRollover 110).2 = true ∨ (m.heap t).next ≤ 110)) := by
  have hr : run step (init 100) tieRun = some _ := rfl
  obtain ⟨E, hE, _, _, hcbs, _⟩ :=
    listExpiredCb_exact (by decide) hr 110 (show 4 ∉ _ by decide) []
  exact ⟨_, E, hr, hcbs, hE⟩

end TimerManager

end Hps.Timers
