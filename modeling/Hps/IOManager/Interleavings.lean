import Hps.IOManager.Table

/-!
# IOManager — the guarantees over interleavings

Three results about every interleaving of `addEvent`, `delEvent`,
`cancelEvent`, `cancelAll` and the dispatcher:

* `keepsContexts_iff` — the table keeps its contexts exactly in the runs
  whose resizes do not shrink it;
* `bookkeeping_of_grows` — in those runs counter, bits, slots and kernel
  registration agree in every state, and a failed `epoll_ctl` changes none
  of them;
* `dispatch_clean_iff` — a dispatch passes the assertion of `triggerEvent`
  exactly when its report is not partly stale.

Each comes with the interleaving that breaks the unconditional statement.
-/

namespace Hps.IOManager

open Hps.Lib

set_option maxRecDepth 10000

/-! ## The table -/

/-- Along the run the table never shrinks, a stored pointer never changes,
and the pointer in `epoll`'s `data.ptr` is the one a later call finds. -/
def KeepsContexts (acts : List Act) : Prop :=
  Related step TableKept init acts ∧
  ∀ (pre post : List Act) (s : State) (fd : Nat) (mask : Events) (p : Ptr),
    acts = pre ++ post → run step init pre = some s → s.interest fd = some (mask, p) →
    s.fdContexts[fd]? = some (some p)

/-- **The table keeps its contexts exactly if no resize shrinks it.** -/
theorem keepsContexts_iff (acts : List Act) (h : (run step init acts).isSome) :
    KeepsContexts acts ↔ Meets step GrowsTable init acts := by
  obtain ⟨s, hr⟩ := Option.isSome_iff_exists.mp h
  have hiff : Related step TableKept init acts ↔ Meets step GrowsTable init acts :=
    meets_iff_related TableKept.refl (fun h h' => h.trans h')
      (fun _ _ _ hc hs => step_consistent hc hs) (fun _ _ _ hc hs => step_kept_iff hc hs)
      consistent_init hr
  constructor
  · intro hk
    exact hiff.mp hk.1
  · intro hg
    refine ⟨hiff.mpr hg, ?_⟩
    intro pre post s₁ fd mask p hacts hpre hp
    subst hacts
    exact (run_anchored (hg.append hpre).1 hpre).2.registered fd mask p hp

/-- One thread registers fd 48 and then fd 32 for reading. -/
def growThenUse : List Act :=
  [.call 0 48 (.addEvent .read none ⟨0, 0⟩), .grow 0, .enter 0 true,
   .call 0 32 (.addEvent .read none ⟨0, 0⟩), .enter 0 true]

theorem growThenUse_kept : KeepsContexts growThenUse :=
  (keepsContexts_iff growThenUse (by decide)).mpr (by decide)

/-- Two threads find fd 48 and fd 32 out of range of the initial table of
32; the one with the smaller fd resizes last. -/
def shrinkingRace : List Act :=
  [.call 0 48 (.addEvent .read none ⟨0, 0⟩), .call 1 32 (.addEvent .read none ⟨0, 1⟩),
   .grow 0, .enter 0 true, .grow 1, .enter 1 true]

theorem shrinkingRace_loses :
    ¬ ∀ acts : List Act, (run step init acts).isSome → KeepsContexts acts := by
  intro h
  have hk := (h shrinkingRace (by decide)).1
  obtain ⟨s₁, h1⟩ := Option.isSome_iff_exists.mp
    (show (run step init (shrinkingRace.take 4)).isSome by decide)
  obtain ⟨s₂, h2⟩ := Option.isSome_iff_exists.mp
    (show (run step init (shrinkingRace.take 4 ++ (shrinkingRace.drop 4).take 1)).isSome by decide)
  have h12 := h2
  rw [run_append, h1] at h12
  have hsize := (hk (shrinkingRace.take 4) ((shrinkingRace.drop 4).take 1)
    (shrinkingRace.drop 5) s₁ s₂ (by decide) h1 h12).size
  -- 72 entries before the second resize, 48 after it
  have hl1 : s₁.fdContexts.length = 72 := by
    have : (run step init (shrinkingRace.take 4)).map (·.fdContexts.length) = some 72 := by decide
    simpa [h1] using this
  have hl2 : s₂.fdContexts.length = 48 := by
    have : (run step init (shrinkingRace.take 4 ++ (shrinkingRace.drop 4).take 1)).map
        (·.fdContexts.length) = some 48 := by decide
    simpa [h2] using this
  omega

/-! ## The bookkeeping -/

/-- The bits of the context the table holds for `fd`, as an interest mask:
no registration for no bits, or for no context. -/
def State.mask (s : State) (fd : Nat) : Option Events :=
  match s.fdContexts[fd]? with
  | some (some p) =>
      match s.contexts[p]? with
      | some c => if c.events = ∅ then none else some c.events
      | none => none
  | _ => none

structure Bookkeeping (s : State) : Prop where
  /-- The counter is the number of bits set. -/
  pending : s.pendingEventCount = (s.contexts.map (fun c => c.events.card)).sum
  /-- A slot is armed if its bit is set and completely empty if not. -/
  slots : ∀ c ∈ s.contexts, c.SlotsOk
  /-- The kernel's interest mask of an fd is the bits of its context. -/
  kernel : ∀ fd, (s.interest fd).map Prod.fst = s.mask fd

/-- The table, the contexts, the kernel and the counter are the same. -/
structure Unchanged (s s' : State) : Prop where
  fdContexts : s'.fdContexts = s.fdContexts
  contexts : s'.contexts = s.contexts
  interest : s'.interest = s.interest
  pending : s'.pendingEventCount = s.pendingEventCount

@[simp] theorem epollCtl_false (k : Nat → Option (Events × Ptr)) (op : CtlOp) (fd : Nat)
    (mask : Events) (p : Ptr) : epollCtl k false op fd mask p = none := rfl

/-- An operation whose `epoll_ctl` fails returns, or asserts before it. -/
theorem runOp_failed (s : State) (fd : Nat) (p : Ptr) (c : FdContext) (op : Op) :
    Unchanged s (s.runOp false fd p c op) := by
  have hsame : Unchanged s s := ⟨rfl, rfl, rfl, rfl⟩
  cases op with
  | addEvent e cb caller =>
      simp only [State.runOp, State.addEvent, epollCtl_false]
      split
      · exact ⟨rfl, rfl, rfl, rfl⟩
      · exact hsame
  | delEvent e =>
      simp only [State.runOp, State.delEvent, epollCtl_false]
      split <;> exact hsame
  | cancelEvent e =>
      simp only [State.runOp, State.cancelEvent, epollCtl_false]
      split <;> exact hsame
  | cancelAll =>
      simp only [State.runOp, State.cancelAll, epollCtl_false]
      split <;> exact hsame

theorem enter_failed {s s' : State} {t : Nat} (hs : step s (.enter t false) = some s') :
    Unchanged s s' := by
  obtain ⟨-, hstep⟩ := step_inv hs
  cases hstep with
  | @critical fd op p c _ _ ht hc =>
      obtain ⟨h1, h2, h3, h4⟩ := runOp_failed s _ _ _ _
      exact ⟨h1, h2, h3, h4⟩
  | dispatch ht hc =>
      rw [dispatch_refused (by simp [State.dispatchCtl])]
      exact ⟨rfl, rfl, rfl, rfl⟩

theorem Anchored.mask {s : State} (h : Anchored s) (hc : Consistent s) (fd : Nat) :
    (s.interest fd).map Prod.fst = s.mask fd := by
  unfold State.mask
  cases hp : s.fdContexts[fd]? with
  | none =>
      cases hk : s.interest fd with
      | none => rfl
      | some mp =>
          have := h.registered fd mp.1 mp.2 hk
          rw [hp] at this
          cases this
  | some q =>
      obtain ⟨p, rfl⟩ := Option.isSome_iff_exists.mp (hc.filled q (List.mem_of_getElem? hp))
      obtain ⟨c, hget, -⟩ := hc.own fd p hp
      rw [h.kernel fd p c hp hget]
      simp only [hget, register]
      split <;> rfl

/-- **In a run that never shrinks the table the bookkeeping agrees in every
state**, and an operation whose `epoll_ctl` fails leaves it alone. -/
theorem bookkeeping_of_grows (acts : List Act) (s : State)
    (hr : run step init acts = some s) (hg : Meets step GrowsTable init acts) :
    Bookkeeping s ∧ ∀ t s', step s (.enter t false) = some s' → Unchanged s s' := by
  obtain ⟨hc, ha⟩ := run_anchored hg hr
  refine ⟨⟨hc.pending, hc.slots, ha.mask hc⟩, ?_⟩
  intro t s' hs
  exact enter_failed hs

/-- A run in which one thread adds and cancels events on two fds. -/
def addAndCancel : List Act :=
  [.call 0 5 (.addEvent .read (some 1) ⟨0, 0⟩), .enter 0 true,
   .call 0 40 (.addEvent .write none ⟨0, 0⟩), .grow 0, .enter 0 true,
   .call 0 5 (.cancelEvent .read), .enter 0 true]

theorem addAndCancel_bookkeeping :
    ∃ s, run step init addAndCancel = some s ∧ Bookkeeping s := by
  obtain ⟨s, hr⟩ := Option.isSome_iff_exists.mp
    (show (run step init addAndCancel).isSome by decide)
  exact ⟨s, hr, (bookkeeping_of_grows addAndCancel s hr (by decide)).1⟩

/-- The race, and then another `addEvent` on the fd whose context was lost:
the table grows a new context for it, while the kernel still knows fd 48
by the old one. -/
def shrinkingRaceThenAdd : List Act :=
  shrinkingRace ++ [.call 0 48 (.addEvent .write none ⟨0, 0⟩), .grow 0, .enter 0 true]

theorem shrinkingRace_breaks_bookkeeping :
    ¬ ∀ (acts : List Act) (s : State), run step init acts = some s → s.fault = none →
        Bookkeeping s := by
  intro h
  obtain ⟨s, hr⟩ := Option.isSome_iff_exists.mp
    (show (run step init shrinkingRaceThenAdd).isSome by decide)
  have hread : (run step init shrinkingRaceThenAdd).map
      (fun s => (s.fault, (s.interest 48).map Prod.fst, s.mask 48))
      = some (none, some {.read}, none) := by decide
  simp only [hr, Option.map_some, Option.some.injEq, Prod.mk.injEq] at hread
  obtain ⟨hf, hk, hm⟩ := hread
  have := (h shrinkingRaceThenAdd s hr hf).kernel 48
  rw [hk, hm] at this
  cases this

/-! ## The dispatcher -/

/-- The report is not partly stale when the worker locks the context: none
of its events is registered any more (it is skipped), or all of them still
are, or the `epoll_ctl` before the triggers fails. -/
def ReportInOrder (s : State) (ok : Bool) (p : Ptr) (c : FdContext) (r : Report) : Prop :=
  c.events ∩ r.realEvents c.events = ∅ ∨ r.reported ⊆ c.events ∨
    s.dispatchCtl ok p c r = none

/-- The dispatch ran through, and the counter went down by the number of
events that were registered and are not any more. -/
def DispatchClean (s s' : State) (p : Ptr) (c : FdContext) : Prop :=
  s'.fault = none ∧ ∃ c', s'.contexts[p]? = some c' ∧ c'.events ⊆ c.events ∧
    s'.pendingEventCount + (c.events \ c'.events).card = s.pendingEventCount

theorem realEvents_subset_iff (r : Report) (es : Events) :
    r.realEvents es ⊆ es ↔ r.reported ⊆ es := by
  unfold Report.realEvents
  rw [Finset.union_subset_iff]
  constructor
  · intro h; exact h.1
  · intro h
    refine ⟨h, ?_⟩
    split <;> simp

theorem dispatchClean_refl {s : State} {p : Ptr} {c : FdContext} (hf : s.fault = none)
    (hc : s.contexts[p]? = some c) : DispatchClean s s p c :=
  ⟨hf, c, hc, subset_refl _, by simp⟩

/-- The outcome of one dispatch, in a consistent state. -/
theorem dispatch_clean_of_consistent {s : State} (h : Consistent s) (hf : s.fault = none)
    {p : Ptr} {c : FdContext} (hc : s.contexts[p]? = some c) (ok : Bool) (r : Report) :
    DispatchClean s (s.dispatch ok p c r) p c ↔ ReportInOrder s ok p c r := by
  have hslots := h.slots c (List.mem_of_getElem? hc)
  have hcard := h.card_le hc
  by_cases hskip : c.events ∩ r.realEvents c.events = ∅
  · rw [dispatch_skip s ok p hskip]
    exact ⟨fun _ => .inl hskip, fun _ => dispatchClean_refl hf hc⟩
  · cases hk : s.dispatchCtl ok p c r with
    | none =>
        rw [dispatch_refused hk]
        exact ⟨fun _ => .inr (.inr hk), fun _ => dispatchClean_refl hf hc⟩
    | some k =>
        by_cases hsub : r.realEvents c.events ⊆ c.events
        · obtain ⟨s', c', hs', hev, -, n, ts, hturn, -, -, hn⟩ :=
            dispatch_fresh hc hslots hcard hk hskip hsub
          rw [hs']
          refine ⟨fun _ => .inr (.inl ((realEvents_subset_iff r _).mp hsub)), fun _ => ?_⟩
          have hle : c'.events ⊆ c.events := by rw [hev]; exact Finset.sdiff_subset
          dsimp only at hturn hn
          subst hturn
          refine ⟨hf, c', ?_, hle, ?_⟩
          · exact List.getElem?_set_self (List.getElem?_eq_some_iff.mp hc).1
          · show n + (c.events \ c'.events).card = s.pendingEventCount
            have := Finset.card_le_card hle
            rw [Finset.card_sdiff_of_subset hle]
            omega
        · rw [dispatch_stale hc hslots hcard hk hskip hsub]
          constructor
          · intro hclean
            cases hclean.1
          · rintro (h1 | h1 | h1)
            · exact absurd h1 hskip
            · exact absurd ((realEvents_subset_iff r _).mpr h1) hsub
            · rw [hk] at h1
              cases h1

/-- **A dispatch never trips `triggerEvent`'s assertion exactly if its
report is in order**: in every state any interleaving reaches, whatever
happened to the fd between `epoll_wait` and the lock. -/
theorem dispatch_clean_iff (acts : List Act) (s s' : State) (t : Nat) (ok : Bool) (p : Ptr)
    (r : Report) (rest : List (Ptr × Report)) (c : FdContext)
    (hr : run step init acts = some s) (ht : s.threads t = .idle ((p, r) :: rest))
    (hc : s.contexts[p]? = some c) (hs : step s (.enter t ok) = some s') :
    DispatchClean s s' p c ↔ ReportInOrder s ok p c r := by
  obtain ⟨hf, hstep⟩ := step_inv hs
  cases hstep with
  | critical ht' =>
      rw [ht] at ht'
      cases ht'
  | dispatch ht' hc' =>
      rw [ht] at ht'
      cases ht'
      rw [hc] at hc'
      cases hc'
      exact dispatch_clean_of_consistent (run_consistent hr) hf hc ok r

/-- fd 5 is registered for reading and writing and reported ready for
both to thread 1. -/
def freshReport : List Act :=
  [.call 0 5 (.addEvent .read (some 1) ⟨0, 0⟩), .enter 0 true,
   .call 0 5 (.addEvent .write (some 2) ⟨0, 0⟩), .enter 0 true,
   .wait 1 [(5, { epollin := true, epollout := true })]]

theorem freshReport_clean :
    ∃ s s' c, run step init freshReport = some s ∧ step s (.enter 1 true) = some s' ∧
      DispatchClean s s' 5 c := by
  obtain ⟨s, hr⟩ := Option.isSome_iff_exists.mp
    (show (run step init freshReport).isSome by decide)
  have hall : (run step init freshReport).map
      (fun s => (s.threads 1, (s.contexts[5]?).map FdContext.events, (step s (.enter 1 true)).isSome))
      = some (.idle [(5, { epollin := true, epollout := true })],
          some {.read, .write}, true) := by decide
  simp only [hr, Option.map_some, Option.some.injEq, Prod.mk.injEq,
    Option.map_eq_some_iff] at hall
  obtain ⟨ht, ⟨c, hc, hev⟩, hs⟩ := hall
  obtain ⟨s', hs'⟩ := Option.isSome_iff_exists.mp hs
  refine ⟨s, s', c, hr, hs', ?_⟩
  exact (dispatch_clean_iff freshReport s s' 1 true 5 _ [] c hr ht hc hs').mpr
    (.inr (.inl (by rw [hev]; decide)))

/-- The same report, but before thread 1 gets to it thread 0 deletes the
write event. -/
def staleReport : List Act := freshReport ++ [.call 0 5 (.delEvent .write), .enter 0 true]

theorem staleReport_asserts :
    ¬ ∀ (acts : List Act) (s s' : State) (t : Nat) (ok : Bool) (p : Ptr) (r : Report)
        (rest : List (Ptr × Report)), run step init acts = some s →
        s.threads t = .idle ((p, r) :: rest) → step s (.enter t ok) = some s' →
        s'.fault ≠ some .assertion := by
  intro h
  obtain ⟨s, hr⟩ := Option.isSome_iff_exists.mp
    (show (run step init staleReport).isSome by decide)
  have ht : (run step init staleReport).map (fun s => s.threads 1)
      = some (.idle [(5, { epollin := true, epollout := true })]) := by decide
  have hf : ((run step init staleReport).bind (step · (.enter 1 true))).map State.fault
      = some (some .assertion) := by decide
  simp only [hr, Option.map_some, Option.some.injEq] at ht
  simp only [hr, Option.bind_some] at hf
  obtain ⟨s', hs', hfault⟩ := Option.map_eq_some_iff.mp hf
  exact h staleReport s s' 1 true _ _ _ hr ht hs' hfault

end Hps.IOManager
