import Hps.Timers.Operations

/-!
# Timers — what `listExpiredCb` takes out of the set

`listExpiredCb` cuts the set with `lower_bound` of a probe timer, whose
address decides arbitrarily among the deadlines that equal `now`, scans over
the rest of these, and then rewrites the deadline the set is keyed by.
`cut_eq` says the cut is at `m_next <= now` whatever the address of the
probe; `foldl_expire` is the run of the loop over what was cut off; and
`listExpiredCb_fired` puts them together for the whole call.
-/

namespace Hps.Timers

open Hps.Lib OrderedSet

/-- What the loop of `listExpiredCb` leaves of an expired timer. -/
def Timer.fire (now : UInt64) (v : Timer) : Timer :=
  if v.recurring then { v with next := now + v.ms } else { v with cb := none }

namespace TimerManager

variable {m m' : TimerManager} {now : UInt64} {t : Addr} {E : List Addr}
  {cbs : List (Option Callback)}

/-- Whether a call at `now` has to take the timer: on a rollover every one
counts as expired. -/
def due (m : TimerManager) (now : UInt64) (t : Addr) : Bool :=
  (m.detectClockRollover now).2 || decide ((m.heap t).next ≤ now)

/-- The timers a call at `now` has to take. -/
def expired (m : TimerManager) (now : UInt64) : List Addr :=
  m.timers.filter (m.due now)

/-! ## The cut -/

theorem before_probe {probe : Nat} {t : Nat} (ht : t ≠ probe) :
    Before (Function.update m.heap probe { next := now }) t probe ↔
      (m.heap t).next.toNat < now.toNat ∨ ((m.heap t).next = now ∧ t < probe) := by
  rw [before_iff]
  simp [ht]

/-- **The cut is at `now`**: `lower_bound` and the scan behind it split the
set into what is due and what is not, whatever the probe's address. -/
theorem cut_eq (h : m.Sorted) {probe : Nat} (hp : probe ∉ m.timers)
    (rollover : Bool) :
    m.cut now probe rollover =
      (m.timers.filter fun t => rollover || decide ((m.heap t).next ≤ now),
       m.timers.filter fun t => !(rollover || decide ((m.heap t).next ≤ now))) := by
  cases rollover with
  | true => simp [cut, List.span_eq_takeWhile_dropWhile]
  | false =>
      -- `p` is where `lower_bound` stops, `q` where the scan does
      let p : Addr → Bool := fun t =>
        decide (Before (Function.update m.heap probe { next := now }) t probe)
      let q : Addr → Bool := fun t => (m.heap t).next == now
      have hne : ∀ t ∈ m.timers, t ≠ probe := fun t ht e => hp (e ▸ ht)
      have hlower : ∀ a ∈ m.timers, ∀ b ∈ m.timers, Before m.heap a b →
          p b → p a := by
        intro a ha b hb hab hpb
        simp only [p, decide_eq_true_eq] at hpb ⊢
        rw [before_probe (hne _ hb)] at hpb
        rw [before_probe (hne _ ha)]
        rw [before_iff] at hab
        rw [← UInt64.toNat_inj] at hpb hab ⊢
        omega
      have hpq : ∀ t ∈ m.timers,
          (p t || q t) = decide ((m.heap t).next ≤ now) := by
        intro t ht
        rw [Bool.eq_iff_iff]
        simp only [p, q, Bool.or_eq_true, decide_eq_true_eq, beq_iff_eq,
          before_probe (hne t ht), UInt64.le_iff_toNat_le, ← UInt64.toNat_inj]
        omega
      have hdue : ∀ a ∈ m.timers, ∀ b ∈ m.timers, Before m.heap a b →
          decide ((m.heap b).next ≤ now) → decide ((m.heap a).next ≤ now) := by
        intro a _ b _ hab hb
        have hle := hab.next_le
        simp only [decide_eq_true_eq, UInt64.le_iff_toNat_le] at hb hle ⊢
        omega
      obtain ⟨hs1, hs2⟩ := takeWhile_scan (q := q) h hlower
      obtain ⟨hc1, hc2⟩ := span_congr hpq
      obtain ⟨hf1, hf2⟩ := span_of_lower h hdue
      simp only [cut, lowerBound, List.span_eq_takeWhile_dropWhile,
        Bool.false_or, Bool.false_eq_true, if_false]
      rw [show m.timers.takeWhile _ ++ _ = _ from hs1,
        show (m.timers.dropWhile _).dropWhile _ = _ from hs2, hc1, hc2, hf1, hf2]

/-! ## The loop over the expired timers -/

/-- What taking the timers `E` out of the set and running the loop over them
comes to. -/
structure Fired (now : UInt64) (E : List Addr) (m m' : TimerManager) : Prop where
  sorted : m'.Sorted
  mem : ∀ t, t ∈ m'.timers ↔ t ∈ m.timers ∨ (t ∈ E ∧ (m.heap t).recurring)
  heap_in : ∀ t ∈ E, m'.heap t = (m.heap t).fire now
  heap_out : ∀ t, t ∉ E → m'.heap t = m.heap t
  tickled : m'.tickled = m.tickled
  insertedAtFront : m'.insertedAtFront = m.insertedAtFront
  previouseTime : m'.previouseTime = m.previouseTime

theorem Fired.nil (h : m.Sorted) : Fired now [] m m :=
  ⟨h, by simp, by simp, by simp, rfl, rfl, rfl⟩

/-- One round of the loop. -/
theorem expire_fired (now : UInt64) (cbs : List (Option Callback))
    (h : m.Sorted) (ht : t ∉ m.timers) :
    Fired now [t] m (expire now (m, cbs) t).1 ∧
      (expire now (m, cbs) t).2 = cbs ++ [(m.heap t).cb] := by
  by_cases hr : (m.heap t).recurring = true
  · rw [expire]
    rw [if_pos hr]
    refine ⟨?_, rfl⟩
    refine ⟨(h.put ht _).insert, ?_, ?_, ?_, rfl, rfl, rfl⟩
    · intro u
      rw [mem_insert, put_timers, List.mem_singleton]
      constructor
      · rintro (rfl | hu)
        · exact .inr ⟨rfl, hr⟩
        · exact .inl hu
      · rintro (hu | ⟨rfl, -⟩)
        · exact .inr hu
        · exact .inl rfl
    · intro u hu
      rw [List.mem_singleton.mp hu, insert_heap, put_heap_self, Timer.fire,
        if_pos hr]
    · intro u hu
      rw [insert_heap, put_heap_ne _ (by simpa using hu)]
  · rw [expire]
    rw [if_neg hr]
    refine ⟨?_, rfl⟩
    refine ⟨h.put ht _, ?_, ?_, ?_, rfl, rfl, rfl⟩
    · intro u
      rw [put_timers, List.mem_singleton]
      constructor
      · exact .inl
      · rintro (hu | ⟨rfl, hu⟩)
        · exact hu
        · exact absurd hu hr
    · intro u hu
      rw [List.mem_singleton.mp hu, put_heap_self, Timer.fire, if_neg hr]
    · intro u hu
      rw [put_heap_ne _ (by simpa using hu)]

/-- Firing `t` first and the rest after it is firing them all. -/
theorem Fired.cons {m₁ m₂ : TimerManager} (htE : t ∉ E)
    (h1 : Fired now [t] m m₁) (h2 : Fired now E m₁ m₂) :
    Fired now (t :: E) m m₂ := by
  have hE : ∀ u ∈ E, m₁.heap u = m.heap u := fun u hu =>
    h1.heap_out u (by rw [List.mem_singleton]; rintro rfl; exact htE hu)
  refine ⟨h2.sorted, ?_, ?_, ?_, h2.tickled.trans h1.tickled,
    h2.insertedAtFront.trans h1.insertedAtFront,
    h2.previouseTime.trans h1.previouseTime⟩
  · intro u
    rw [h2.mem, h1.mem, List.mem_singleton, List.mem_cons]
    by_cases hu : u ∈ E
    · rw [hE u hu]
      have hut : u ≠ t := fun e => htE (e ▸ hu)
      simp [hu, hut]
    · simp [hu]
  · intro u hu
    rcases List.mem_cons.mp hu with rfl | hu
    · rw [h2.heap_out u htE, h1.heap_in u (by simp)]
    · rw [h2.heap_in u hu, hE u hu]
  · intro u hu
    rw [List.mem_cons, not_or] at hu
    rw [h2.heap_out u hu.2, h1.heap_out u (by simpa using hu.1)]

/-- **The loop**: every timer of `expired` is fired, and their callbacks are
appended in its order. -/
theorem foldl_expire (now : UInt64) (cbs : List (Option Callback))
    (h : m.Sorted) (hE : E.Nodup) (hout : ∀ t ∈ E, t ∉ m.timers) :
    Fired now E m (E.foldl (expire now) (m, cbs)).1 ∧
      (E.foldl (expire now) (m, cbs)).2 = cbs ++ E.map fun t => (m.heap t).cb := by
  -- the round for the first timer may put it back into the set, which is why
  -- the rest of `E` must not contain it
  induction E generalizing m cbs with
  | nil => exact ⟨Fired.nil h, by simp⟩
  | cons t E ih =>
      obtain ⟨htE, hE⟩ := List.nodup_cons.mp hE
      have ht : t ∉ m.timers := hout t List.mem_cons_self
      obtain ⟨hfirst, hcb⟩ := expire_fired now cbs h ht
      have hstill : ∀ u ∈ E, u ∉ (expire now (m, cbs) t).1.timers := by
        intro u hu hmem
        rcases (hfirst.mem u).mp hmem with hmem | ⟨hut, -⟩
        · exact hout u (List.mem_cons_of_mem t hu) hmem
        · exact htE (List.mem_singleton.mp hut ▸ hu)
      obtain ⟨hrest, hcbs⟩ := ih (expire now (m, cbs) t).2 hfirst.sorted hE hstill
      rw [List.foldl_cons]
      refine ⟨hfirst.cons htE hrest, ?_⟩
      rw [show expire now (m, cbs) t =
        ((expire now (m, cbs) t).1, (expire now (m, cbs) t).2) from rfl, hcbs, hcb,
        List.map_cons, List.append_assoc, List.singleton_append]
      congr 2
      refine List.map_congr_left fun u hu => ?_
      rw [hfirst.heap_out u (by rw [List.mem_singleton]; rintro rfl; exact htE hu)]

/-! ## The whole call -/

theorem mem_expired : t ∈ m.expired now ↔
    t ∈ m.timers ∧ ((m.detectClockRollover now).2 = true ∨ (m.heap t).next ≤ now) := by
  simp [expired, due]

/-- The state before the loop: the expired timers are out of the set, and
the clock reading is noted unless the set was empty. -/
def withoutExpired (m : TimerManager) (now : UInt64) : TimerManager :=
  { m with
    timers := m.timers.filter fun t => !m.due now t
    previouseTime := if m.timers.isEmpty then m.previouseTime else now }

theorem mem_withoutExpired : t ∈ (m.withoutExpired now).timers ↔
    t ∈ m.timers ∧ t ∉ m.expired now := by
  by_cases hd : m.due now t <;> simp [withoutExpired, expired, hd]

theorem Sorted.withoutExpired (h : m.Sorted) : (m.withoutExpired now).Sorted :=
  List.Pairwise.filter _ h

/-- If the first timer is not due and the clock did not roll over, nothing
is. -/
theorem expired_eq_nil {first : Addr} {tail : List Addr} (h : m.Sorted)
    (hm : m.timers = first :: tail) (hroll : (m.detectClockRollover now).2 = false)
    (hfirst : now < (m.heap first).next) : m.expired now = [] := by
  rw [expired, List.filter_eq_nil_iff]
  intro t ht
  have hle := h.head_le hm ht
  rw [UInt64.lt_iff_toNat_lt] at hfirst
  simp only [UInt64.le_iff_toNat_le] at hle
  simp only [due, hroll, Bool.false_or, decide_eq_true_eq, UInt64.le_iff_toNat_le]
  omega

/-- **`listExpiredCb` fires what is due, all of it and once.** -/
theorem listExpiredCb_fired (now : UInt64) (cbs : List (Option Callback))
    (h : m.Sorted) {probe : Addr} (hp : probe ∉ m.timers) :
    Fired now (m.expired now) (m.withoutExpired now)
        (m.listExpiredCb now probe cbs).1 ∧
      (m.listExpiredCb now probe cbs).2 =
        cbs ++ (m.expired now).map fun t => (m.heap t).cb := by
  cases hm : m.timers with
  | nil =>
      have hnone : m.expired now = [] := by simp [expired, hm]
      have hsame : m.withoutExpired now = m := by
        cases m
        simp_all [withoutExpired]
      rw [hnone, hsame, listExpiredCb, hm]
      exact ⟨Fired.nil h, by simp⟩
  | cons first tail =>
      have hprev : (if m.timers.isEmpty then m.previouseTime else now) = now := by
        simp [hm]
      by_cases hearly : (m.detectClockRollover now).2 = false ∧
          now < (m.heap first).next
      · -- the early return: nothing is due
        have hnone := expired_eq_nil h hm hearly.1 hearly.2
        have hstate : (m.detectClockRollover now).1 = m.withoutExpired now := by
          have hkeep : ∀ t ∈ m.timers, (!m.due now t) = true := by
            simpa [expired] using hnone
          rw [withoutExpired, List.filter_eq_self.mpr hkeep, hprev]
          rfl
        have hcall : m.listExpiredCb now probe cbs = (m.withoutExpired now, cbs) := by
          rw [listExpiredCb, hm]
          dsimp only
          rw [if_pos (by simpa [hearly.1] using hearly.2), hstate]
        rw [hcall, hnone]
        exact ⟨Fired.nil h.withoutExpired, by simp⟩
      · have hcall : m.listExpiredCb now probe cbs =
            (m.expired now).foldl (expire now) (m.withoutExpired now, cbs) := by
          rw [listExpiredCb, hm]
          dsimp only
          rw [if_neg (by simpa using hearly),
            @cut_eq (m.detectClockRollover now).1 now (h.of_eq rfl rfl) probe hp,
            withoutExpired, hprev]
          rfl
        rw [hcall]
        refine foldl_expire now cbs h.withoutExpired ?_ ?_
        · exact (Ordered.nodup h).filter _
        · intro t ht hmem
          exact (mem_withoutExpired.mp hmem).2 ht

end TimerManager

end Hps.Timers
