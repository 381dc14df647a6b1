import Hps.IOManager.Model

/-!
# IOManager — what a critical section can do

Every section under a context's mutex has one of three outcomes: nothing
changes, the process ends, or the context gets new bits and the slots, the
kernel registration and the counter follow them (`Effect`). Stating this
once (`runOp_effect`, `dispatch_effect`) is what keeps the invariants of
the later modules from unfolding the five operations again.
-/

namespace Hps.IOManager

/-! ## Slots -/

/-- The slot of a registered event: a scheduler and exactly one of fiber
and callback. -/
def EventContext.Armed (x : EventContext) : Prop :=
  x.scheduler.isSome ∧ (x.fiber.isSome ↔ ¬ x.cb.isSome)

/-- Each slot is armed if its bit is set and completely empty if not. -/
def FdContext.SlotsOk (c : FdContext) : Prop :=
  ∀ e, (e ∈ c.events → (c.getContext e).Armed) ∧
    (e ∉ c.events → c.getContext e = {})

/-- The context once the event `e` has been taken out of it. -/
def FdContext.disarm (c : FdContext) (e : Event) : FdContext :=
  { c with events := c.events.erase e }.putContext {} e

/-- The context once the event `e` has been put into it. -/
def FdContext.arm (c : FdContext) (e : Event) (x : EventContext) : FdContext :=
  { c with events := insert e c.events }.putContext x e

@[simp] theorem putContext_events (c : FdContext) (x : EventContext) (e : Event) :
    (c.putContext x e).events = c.events := by cases e <;> rfl

@[simp] theorem putContext_fd (c : FdContext) (x : EventContext) (e : Event) :
    (c.putContext x e).fd = c.fd := by cases e <;> rfl

@[simp] theorem getContext_events (c : FdContext) (es : Events) (e : Event) :
    ({ c with events := es } : FdContext).getContext e = c.getContext e := by
  cases e <;> rfl

theorem getContext_putContext (c : FdContext) (x : EventContext) (e e' : Event) :
    (c.putContext x e).getContext e' = if e' = e then x else c.getContext e' := by
  cases e <;> cases e' <;> simp [FdContext.putContext, FdContext.getContext]

@[simp] theorem putContext_putContext (c : FdContext) (x y : EventContext) (e : Event) :
    (c.putContext x e).putContext y e = c.putContext y e := by cases e <;> rfl

@[simp] theorem disarm_events (c : FdContext) (e : Event) :
    (c.disarm e).events = c.events.erase e := by simp [FdContext.disarm]

@[simp] theorem disarm_fd (c : FdContext) (e : Event) : (c.disarm e).fd = c.fd := by
  simp [FdContext.disarm]

@[simp] theorem arm_events (c : FdContext) (e : Event) (x : EventContext) :
    (c.arm e x).events = insert e c.events := by simp [FdContext.arm]

@[simp] theorem arm_fd (c : FdContext) (e : Event) (x : EventContext) :
    (c.arm e x).fd = c.fd := by simp [FdContext.arm]

theorem slotsOk_new (fd : Nat) : FdContext.SlotsOk { fd := fd } := by
  intro e
  cases e <;> simp [FdContext.getContext]

theorem FdContext.SlotsOk.disarm {c : FdContext} (h : c.SlotsOk) (e : Event) :
    (c.disarm e).SlotsOk := by
  intro e'
  rw [FdContext.disarm, getContext_putContext]
  by_cases he : e' = e
  · simp [he]
  · simpa [he] using h e'

theorem FdContext.SlotsOk.arm {c : FdContext} (h : c.SlotsOk) (e : Event)
    {x : EventContext} (hx : x.Armed) : (c.arm e x).SlotsOk := by
  intro e'
  rw [FdContext.arm, getContext_putContext]
  by_cases he : e' = e
  · simp [he, hx]
  · simpa [he] using h e'

/-! ## The kernel side -/

/-- The registration that stands for a set of bits: none for no bits. -/
def register (events : Events) (p : Ptr) : Option (Events × Ptr) :=
  if events = ∅ then none else some (events, p)

theorem epollCtl_left {k k' : Nat → Option (Events × Ptr)} {ok : Bool} {fd : Nat}
    {left : Events} {p : Ptr}
    (h : epollCtl k ok (modOrDel left) fd left p = some k') :
    k' = Function.update k fd (register left p) := by
  unfold epollCtl modOrDel at h
  by_cases hl : left = ∅
  · cases ok <;> cases hk : k fd <;> simp_all [register]
  · cases ok <;> cases hk : k fd <;> simp_all [register]

theorem epollCtl_add {k k' : Nat → Option (Events × Ptr)} {ok : Bool} {fd : Nat}
    {old mask : Events} {p : Ptr} (hm : mask ≠ ∅)
    (h : epollCtl k ok (if old = ∅ then .add else .mod) fd mask p = some k') :
    k' = Function.update k fd (register mask p) := by
  unfold epollCtl at h
  by_cases hl : old = ∅
  · cases ok <;> cases hk : k fd <;> simp_all [register]
  · cases ok <;> cases hk : k fd <;> simp_all [register]

theorem epollCtl_del {k k' : Nat → Option (Events × Ptr)} {ok : Bool} {fd : Nat}
    {p : Ptr} (h : epollCtl k ok .del fd ∅ p = some k') :
    k' = Function.update k fd (register ∅ p) := by
  have h' : epollCtl k ok (modOrDel ∅) fd ∅ p = some k' := by simpa [modOrDel] using h
  exact epollCtl_left h'

/-! ## Triggers -/

/-- A registered event is taken out of its slot and handed over, whichever
of fiber and callback it holds. -/
theorem triggerEvent_armed (s : State) (p : Ptr) {c : FdContext} (h : c.SlotsOk)
    {e : Event} (he : e ∈ c.events) :
    ∃ task, s.triggerEvent p c e
      = .ok ({ s.setCtx p (c.disarm e) with tasks := s.tasks ++ [task] }, c.disarm e) := by
  obtain ⟨hs, hx⟩ := (h e).1 he
  obtain ⟨sch, hsch⟩ := Option.isSome_iff_exists.mp hs
  unfold State.triggerEvent
  rw [if_pos he]
  cases hcb : (c.getContext e).cb with
  | some f =>
      have hf : (c.getContext e).fiber = none := by simpa [hcb] using hx
      exact ⟨⟨sch, .cb f⟩, by simp [hsch, hcb, hf, FdContext.disarm]⟩
  | none =>
      have hf : (c.getContext e).fiber.isSome := by simpa [hcb] using hx
      obtain ⟨f, hf⟩ := Option.isSome_iff_exists.mp hf
      exact ⟨⟨sch, .fiber f⟩, by simp [hsch, hcb, hf, FdContext.disarm]⟩

theorem triggerEvent_unregistered (s : State) (p : Ptr) {c : FdContext}
    {e : Event} (he : e ∉ c.events) :
    s.triggerEvent p c e = .error .assertion := by
  unfold State.triggerEvent
  rw [if_neg he]

theorem decrement_succ {n : Nat} (h : 0 < n) : decrement n = n - 1 := by
  unfold decrement
  rw [if_neg (by omega)]

/-- `s` with the context at `p` replaced and the counter and the task list
set: what a trigger does to the state. -/
def State.turn (s : State) (p : Ptr) (c' : FdContext) (pending : Nat)
    (tasks : List Task) : State :=
  { s with contexts := s.contexts.set p c', pendingEventCount := pending, tasks := tasks }

/-- From context `c` at `p` in state `s`, triggers led to `r`: the context
is still that fd's, its slots are in order, and the counter went down by
the number of events taken out. -/
def Turned (s : State) (p : Ptr) (c : FdContext) (r : State × FdContext) : Prop :=
  ∃ n ts, r.1 = s.turn p r.2 n ts ∧ r.2.fd = c.fd ∧ r.2.SlotsOk ∧
    n + c.events.card = s.pendingEventCount + r.2.events.card

theorem Turned.refl {s : State} {p : Ptr} {c : FdContext}
    (hc : s.contexts[p]? = some c) (h : c.SlotsOk) : Turned s p c (s, c) := by
  refine ⟨s.pendingEventCount, s.tasks, ?_, rfl, h, rfl⟩
  obtain ⟨hlt, hget⟩ := List.getElem?_eq_some_iff.mp hc
  simp only [State.turn, ← hget, List.set_getElem_self]

/-- One guarded trigger, of an event that is registered if the guard
holds. -/
theorem triggerIf_turned {s s₁ : State} {p : Ptr} {c c₁ : FdContext}
    (h : Turned s p c (s₁, c₁)) (hp : c.events.card ≤ s.pendingEventCount)
    {e : Event} {b : Bool} (hb : b = true → e ∈ c₁.events) :
    ∃ r, State.triggerIf b e p (.ok (s₁, c₁)) = .ok r ∧ Turned s p c r ∧
      r.2.events = (if b then c₁.events.erase e else c₁.events) := by
  cases b with
  | false => exact ⟨(s₁, c₁), rfl, h, rfl⟩
  | true =>
      have he := hb rfl
      obtain ⟨n, ts, hs, hfd, hok, hn⟩ := h
      simp only at hs hfd hok hn
      obtain ⟨task, ht⟩ := triggerEvent_armed s₁ p hok he
      have hcard : (c₁.events.erase e).card = c₁.events.card - 1 :=
        Finset.card_erase_of_mem he
      have hpos : 0 < c₁.events.card := Finset.card_pos.mpr ⟨e, he⟩
      have hn1 : s₁.pendingEventCount = n := by rw [hs]; rfl
      refine ⟨_, by simp [State.triggerIf, ht]; rfl, ⟨n - 1, s₁.tasks ++ [task], ?_, ?_, ?_, ?_⟩,
        by simp⟩
      · simp [hs, State.turn, State.setCtx, decrement_succ (show 0 < n by omega)]
      · simp [hfd]
      · exact hok.disarm e
      · simp only [disarm_events]
        omega

/-! ## The outcomes of a critical section -/

/-- What a section on context `c` at `p`, for `fd`, can make of `s`. -/
inductive Effect (s : State) (fd : Nat) (p : Ptr) (c : FdContext) : State → Prop where
  | same : Effect s fd p c s
  | ended {f : Fault} : Effect s fd p c (s.fail f)
  | changed {c' : FdContext} {n : Nat} {ts : List Task} :
      c'.fd = c.fd → c'.SlotsOk →
      n + c.events.card = s.pendingEventCount + c'.events.card →
      Effect s fd p c { s.turn p c' n ts with
        interest := Function.update s.interest fd (register c'.events p) }

/-- Triggers after a successful `epoll_ctl` that registered what they
leave are a `changed` outcome. -/
theorem Effect.of_turned {s s' : State} {fd : Nat} {p : Ptr} {c c' : FdContext}
    {k : Nat → Option (Events × Ptr)}
    (hk : k = Function.update s.interest fd (register c'.events p))
    (h : Turned { s with interest := k } p c (s', c')) : Effect s fd p c s' := by
  obtain ⟨n, ts, hs, hfd, hok, hn⟩ := h
  simp only at hs hfd hok hn
  subst hs
  subst hk
  exact .changed hfd hok hn

theorem addEvent_effect (s : State) (ok : Bool) (fd : Nat) {p : Ptr} {c : FdContext}
    (h : c.SlotsOk) (e : Event) (cb : Option Nat) (caller : Caller) :
    Effect s fd p c (s.addEvent ok fd p c e cb caller) := by
  unfold State.addEvent
  by_cases he : e ∈ c.events
  · rw [if_pos he]
    exact .ended
  · rw [if_neg he]
    dsimp only
    split
    · exact .same
    · rename_i k hk
      have hempty : ({ c with events := insert e c.events } : FdContext).getContext e = {} := by
        rw [getContext_events]
        exact (h e).2 he
      rw [hempty, if_neg (by simp)]
      have hk' := epollCtl_add (Finset.insert_ne_empty e c.events) hk
      have hcard : (insert e c.events).card = c.events.card + 1 :=
        Finset.card_insert_of_notMem he
      -- whichever of callback and fiber is stored, the slot is armed
      have hfin : ∀ x : EventContext, x.Armed →
          Effect s fd p c
            (({ s.setCtx p { c with events := insert e c.events } with
                interest := k, pendingEventCount := s.pendingEventCount + 1 } : State).setCtx p
              (({ c with events := insert e c.events } : FdContext).putContext x e)) := by
        intro x hx
        have hch := @Effect.changed s fd p c (c.arm e x) (s.pendingEventCount + 1) s.tasks
          (by simp) (h.arm e hx) (by rw [arm_events]; omega)
        rw [arm_events, ← hk'] at hch
        simpa [State.turn, State.setCtx, FdContext.arm] using hch
      cases cb with
      | some f => exact hfin _ (by simp [EventContext.Armed])
      | none => exact hfin _ (by simp [EventContext.Armed])

theorem delEvent_effect (s : State) (ok : Bool) (fd : Nat) {p : Ptr} {c : FdContext}
    (h : c.SlotsOk) (hp : c.events.card ≤ s.pendingEventCount) (e : Event) :
    Effect s fd p c (s.delEvent ok fd p c e) := by
  unfold State.delEvent
  by_cases he : e ∈ c.events
  · rw [if_pos he]
    dsimp only
    split
    · exact .same
    · rename_i k hk
      have hcard : (c.events.erase e).card = c.events.card - 1 := Finset.card_erase_of_mem he
      have hpos : 0 < c.events.card := Finset.card_pos.mpr ⟨e, he⟩
      have hch := @Effect.changed s fd p c (c.disarm e) (s.pendingEventCount - 1) s.tasks
        (by simp) (h.disarm e) (by rw [disarm_events]; omega)
      rw [disarm_events, ← epollCtl_left hk] at hch
      rw [decrement_succ (by omega)]
      simpa [State.turn, State.setCtx, FdContext.disarm, EventContext.reset] using hch
  · rw [if_neg he]
    exact .same

theorem cancelEvent_effect (s : State) (ok : Bool) (fd : Nat) {p : Ptr} {c : FdContext}
    (hc : s.contexts[p]? = some c) (h : c.SlotsOk)
    (hp : c.events.card ≤ s.pendingEventCount) (e : Event) :
    Effect s fd p c (s.cancelEvent ok fd p c e) := by
  unfold State.cancelEvent
  by_cases he : e ∈ c.events
  · rw [if_pos he]
    dsimp only
    split
    · exact .same
    · rename_i k hk
      have h0 : Turned { s with interest := k } p c ({ s with interest := k }, c) :=
        Turned.refl hc h
      obtain ⟨⟨s', c'⟩, hr, ht, hev⟩ := triggerIf_turned h0 hp (b := true) (fun _ => he)
      rw [hr]
      have hc' : c'.events = c.events.erase e := hev
      exact .of_turned (by rw [hc']; exact epollCtl_left hk) ht
  · rw [if_neg he]
    exact .same

theorem cancelAll_effect (s : State) (ok : Bool) (fd : Nat) {p : Ptr} {c : FdContext}
    (hc : s.contexts[p]? = some c) (h : c.SlotsOk)
    (hp : c.events.card ≤ s.pendingEventCount) :
    Effect s fd p c (s.cancelAll ok fd p c) := by
  unfold State.cancelAll
  by_cases he : c.events = ∅
  · rw [if_pos he]
    exact .same
  · rw [if_neg he]
    split
    · exact .same
    · rename_i k hk
      have h0 : Turned { s with interest := k } p c ({ s with interest := k }, c) :=
        Turned.refl hc h
      obtain ⟨⟨s₁, c₁⟩, hr1, ht1, hev1⟩ :=
        triggerIf_turned h0 hp (e := .read) (b := decide (Event.read ∈ c.events)) (by simp)
      rw [hr1]
      dsimp only
      obtain ⟨⟨s₂, c₂⟩, hr2, ht2, hev2⟩ :=
        triggerIf_turned ht1 hp (e := .write) (b := decide (Event.write ∈ c₁.events)) (by simp)
      rw [hr2]
      dsimp only at hev1 hev2 ⊢
      have hnone : c₂.events = ∅ := by
        ext e
        rw [hev2, hev1]
        cases e <;> split <;> split <;> simp_all
      rw [if_pos hnone]
      exact .of_turned (by rw [hnone]; exact epollCtl_del hk) ht2

theorem runOp_effect {s : State} {p : Ptr} {c : FdContext}
    (hc : s.contexts[p]? = some c) (h : c.SlotsOk)
    (hp : c.events.card ≤ s.pendingEventCount) (ok : Bool) (fd : Nat) (op : Op) :
    Effect s fd p c (s.runOp ok fd p c op) := by
  cases op with
  | addEvent e cb caller => exact addEvent_effect s ok fd h e cb caller
  | delEvent e => exact delEvent_effect s ok fd h hp e
  | cancelEvent e => exact cancelEvent_effect s ok fd hc h hp e
  | cancelAll => exact cancelAll_effect s ok fd hc h hp

/-! ## The dispatcher -/

/-- A report no event of which is registered any more is skipped. -/
theorem dispatch_skip (s : State) (ok : Bool) (p : Ptr) {c : FdContext} {r : Report}
    (h : c.events ∩ r.realEvents c.events = ∅) : s.dispatch ok p c r = s := by
  unfold State.dispatch
  simp only [if_pos h]

/-- The `epoll_ctl` call the dispatcher makes before its triggers. -/
def State.dispatchCtl (s : State) (ok : Bool) (p : Ptr) (c : FdContext) (r : Report) :
    Option (Nat → Option (Events × Ptr)) :=
  epollCtl s.interest ok (modOrDel (c.events \ r.realEvents c.events)) c.fd
    (c.events \ r.realEvents c.events) p

theorem dispatch_refused {s : State} {ok : Bool} {p : Ptr} {c : FdContext} {r : Report}
    (h : s.dispatchCtl ok p c r = none) : s.dispatch ok p c r = s := by
  unfold State.dispatch
  unfold State.dispatchCtl at h
  dsimp only
  rw [h]
  split <;> rfl

/-- A report every event of which is still registered: exactly these
events are taken out. -/
theorem dispatch_fresh {s : State} {ok : Bool} {p : Ptr} {c : FdContext} {r : Report}
    (hc : s.contexts[p]? = some c) (h : c.SlotsOk)
    (hp : c.events.card ≤ s.pendingEventCount)
    {k : Nat → Option (Events × Ptr)} (hk : s.dispatchCtl ok p c r = some k)
    (hne : c.events ∩ r.realEvents c.events ≠ ∅) (hsub : r.realEvents c.events ⊆ c.events) :
    ∃ s' c', s.dispatch ok p c r = s' ∧
      c'.events = c.events \ r.realEvents c.events ∧
      k = Function.update s.interest c.fd (register c'.events p) ∧
      Turned { s with interest := k } p c (s', c') := by
  have h0 : Turned { s with interest := k } p c ({ s with interest := k }, c) :=
    Turned.refl hc h
  obtain ⟨⟨s₁, c₁⟩, hr1, ht1, hev1⟩ :=
    triggerIf_turned h0 hp (e := .read) (b := decide (Event.read ∈ r.realEvents c.events))
      (fun hb => hsub (by simpa using hb))
  obtain ⟨⟨s₂, c₂⟩, hr2, ht2, hev2⟩ :=
    triggerIf_turned ht1 hp (e := .write) (b := decide (Event.write ∈ r.realEvents c.events))
      (fun hb => by
        have hw : Event.write ∈ c.events := hsub (by simpa using hb)
        dsimp only at hev1
        rw [hev1]
        split <;> simp [hw])
  have hleft : c₂.events = c.events \ r.realEvents c.events := by
    dsimp only at hev1 hev2
    ext e
    rw [hev2, hev1]
    cases e <;> split <;> split <;> simp_all
  refine ⟨s₂, c₂, ?_, hleft, ?_, ht2⟩
  · unfold State.dispatch
    unfold State.dispatchCtl at hk
    dsimp only
    rw [if_neg hne, hk]
    dsimp only
    rw [hr1, hr2]
    rfl
  · rw [hleft]
    exact epollCtl_left hk

/-- A report some but not all of whose events are registered: the second
check the source does not make is the assertion of `triggerEvent`. -/
theorem dispatch_stale {s : State} {ok : Bool} {p : Ptr} {c : FdContext} {r : Report}
    (hc : s.contexts[p]? = some c) (h : c.SlotsOk)
    (hp : c.events.card ≤ s.pendingEventCount)
    {k : Nat → Option (Events × Ptr)} (hk : s.dispatchCtl ok p c r = some k)
    (hne : c.events ∩ r.realEvents c.events ≠ ∅)
    (hsub : ¬ r.realEvents c.events ⊆ c.events) :
    s.dispatch ok p c r = s.fail .assertion := by
  unfold State.dispatch
  unfold State.dispatchCtl at hk
  dsimp only
  rw [if_neg hne, hk]
  dsimp only
  by_cases hread : Event.read ∈ r.realEvents c.events ∧ Event.read ∉ c.events
  · -- `READ` is stale: the first trigger asserts
    obtain ⟨h1, h2⟩ := hread
    simp [State.triggerIf, h1, triggerEvent_unregistered _ p h2, State.settle]
  · -- `READ` is in order, so `WRITE` is the stale one
    have hr : Event.read ∈ r.realEvents c.events → Event.read ∈ c.events := by
      intro h1
      by_contra h2
      exact hread ⟨h1, h2⟩
    obtain ⟨e, he1, he2⟩ := Finset.not_subset.mp hsub
    have hw : Event.write ∈ r.realEvents c.events ∧ Event.write ∉ c.events := by
      cases e with
      | read => exact absurd (hr he1) he2
      | write => exact ⟨he1, he2⟩
    have h0 : Turned { s with interest := k } p c ({ s with interest := k }, c) :=
      Turned.refl hc h
    obtain ⟨⟨s₁, c₁⟩, hr1, ht1, hev1⟩ :=
      triggerIf_turned h0 hp (e := .read) (b := decide (Event.read ∈ r.realEvents c.events))
        (fun hb => hr (by simpa using hb))
    have hw1 : Event.write ∉ c₁.events := by
      dsimp only at hev1
      rw [hev1]
      split <;> simp [hw.2]
    rw [hr1]
    simp [State.triggerIf, hw.1, triggerEvent_unregistered _ p hw1, State.settle]

theorem dispatch_effect {s : State} {p : Ptr} {c : FdContext}
    (hc : s.contexts[p]? = some c) (h : c.SlotsOk)
    (hp : c.events.card ≤ s.pendingEventCount) (ok : Bool) (r : Report) :
    Effect s c.fd p c (s.dispatch ok p c r) := by
  by_cases hskip : c.events ∩ r.realEvents c.events = ∅
  · rw [dispatch_skip s ok p hskip]
    exact .same
  · cases hk : s.dispatchCtl ok p c r with
    | none =>
        rw [dispatch_refused hk]
        exact .same
    | some k =>
        by_cases hsub : r.realEvents c.events ⊆ c.events
        · obtain ⟨s', c', hs', -, hk', ht⟩ := dispatch_fresh hc h hp hk hskip hsub
          rw [hs']
          exact .of_turned hk' ht
        · rw [dispatch_stale hc h hp hk hskip hsub]
          exact .ended

end Hps.IOManager
