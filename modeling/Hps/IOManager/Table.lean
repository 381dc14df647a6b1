import Hps.IOManager.Invariant

/-!
# IOManager — growing runs

`addEvent` checks the table size under the read lock and grows the table
under a write lock of its own, without checking again. If another thread
grew the table further in between, `contextResize(fd * 1.5)` SHRINKS it,
and the contexts past the new end are lost. `GrowsTable` is the condition
that this does not happen; it is exactly the condition under which the
table keeps its contexts, and under it the table, the kernel registration
and the program points of all threads agree (`Anchored`).
-/

namespace Hps.IOManager

open Hps.Lib

/-- The resize this step makes, if it makes one, is not below the size the
table has by then. -/
def GrowsTable (s : State) : Act → Prop
  | .grow t =>
      match s.threads t with
      | .grow fd _ => s.fdContexts.length ≤ growTarget fd
      | _ => True
  | _ => True

instance (s : State) (a : Act) : Decidable (GrowsTable s a) :=
  match a with
  | .grow t =>
      match h : s.threads t with
      | .grow fd _ => decidable_of_iff (s.fdContexts.length ≤ growTarget fd)
          (by simp [GrowsTable, h])
      | .ready => isTrue (by simp [GrowsTable, h])
      | .locked .. => isTrue (by simp [GrowsTable, h])
      | .idle _ => isTrue (by simp [GrowsTable, h])
  | .call .. => isTrue trivial
  | .enter .. => isTrue trivial
  | .wait .. => isTrue trivial

/-- From `s` to `s'` the table did not get smaller and no stored pointer
changed. -/
structure TableKept (s s' : State) : Prop where
  size : s.fdContexts.length ≤ s'.fdContexts.length
  pointer : ∀ (fd : Nat) (p : Ptr), s.fdContexts[fd]? = some (some p) → s'.fdContexts[fd]? = some (some p)

theorem TableKept.refl (s : State) : TableKept s s := ⟨Nat.le_refl _, fun _ _ h => h⟩

theorem TableKept.trans {s t u : State} (h : TableKept s t) (h' : TableKept t u) :
    TableKept s u :=
  ⟨Nat.le_trans h.size h'.size, fun fd p hp => h'.pointer fd p (h.pointer fd p hp)⟩

theorem TableKept.of_eq {s s' : State} (h : s'.fdContexts = s.fdContexts) : TableKept s s' :=
  ⟨by rw [h], fun fd p hp => by rw [h]; exact hp⟩

@[simp] theorem hold_fdContexts (s : State) (t fd : Nat) (op : Op) :
    (s.hold t fd op).fdContexts = s.fdContexts := by
  unfold State.hold
  split <;> rfl

@[simp] theorem hold_contexts (s : State) (t fd : Nat) (op : Op) :
    (s.hold t fd op).contexts = s.contexts := by
  unfold State.hold
  split <;> rfl

@[simp] theorem hold_interest (s : State) (t fd : Nat) (op : Op) :
    (s.hold t fd op).interest = s.interest := by
  unfold State.hold
  split <;> rfl

/-- A resize keeps the table exactly when it does not shrink it. -/
theorem contextResize_kept_iff {s : State} (h : Consistent s) (size : Nat) :
    TableKept s (s.contextResize size) ↔ s.fdContexts.length ≤ size := by
  rw [contextResize_eq h.filled size]
  constructor
  · intro hk
    have hlen := hk.size
    simp only [List.length_append, List.length_take, List.length_map, List.length_range'] at hlen
    omega
  · intro hle
    rw [List.take_of_length_le hle]
    refine ⟨by simp, ?_⟩
    intro fd p hp
    show (s.fdContexts ++ _)[fd]? = _
    rw [List.getElem?_append_left (List.getElem?_eq_some_iff.mp hp).1]
    exact hp

/-! ## The table under each kind of step -/

theorem Effect.fdContexts {s s' : State} {fd : Nat} {p : Ptr} {c : FdContext}
    (h : Effect s fd p c s') : s'.fdContexts = s.fdContexts := by
  cases h <;> rfl

theorem Effect.threads {s s' : State} {fd : Nat} {p : Ptr} {c : FdContext}
    (h : Effect s fd p c s') : s'.threads = s.threads := by
  cases h <;> rfl

/-- **One step keeps the table exactly when it does not shrink it.** -/
theorem step_kept_iff {s s' : State} {a : Act} (h : Consistent s)
    (hs : step s a = some s') : TableKept s s' ↔ GrowsTable s a := by
  obtain ⟨-, hstep⟩ := step_inv hs
  -- only the grow step touches the table
  have same : s'.fdContexts = s.fdContexts → (∀ t, a ≠ .grow t) →
      (TableKept s s' ↔ GrowsTable s a) := by
    intro heq ha
    refine ⟨fun _ => ?_, fun _ => .of_eq heq⟩
    cases a with
    | grow t => exact absurd rfl (ha t)
    | _ => trivial
  cases hstep with
  | found => exact same (by simp) (by simp)
  | outOfRange => exact same rfl (by simp)
  | refused => exact same rfl (by simp)
  | @grow t fd op ht =>
      have hsize := contextResize_kept_iff h (growTarget fd)
      have hheld : TableKept s ((s.contextResize (growTarget fd)).hold t fd op) ↔
          TableKept s (s.contextResize (growTarget fd)) := by
        constructor
        · intro hk; exact hk.trans (.of_eq (by simp))
        · intro hk; exact hk.trans (.of_eq (by simp))
      rw [hheld, hsize]
      simp only [GrowsTable, ht]
  | @critical t ok fd op p c ht hc => exact same (h.runOp hc ok fd op).fdContexts (by simp)
  | @dispatch t ok p r rest c ht hc => exact same (h.dispatch hc ok r).fdContexts (by simp)
  | wait => exact same rfl (by simp)

/-! ## Growing runs -/

/-- The table, the kernel and the threads agree on the context of an fd. -/
structure Anchored (s : State) : Prop where
  /-- What `epoll` has in `data.ptr` is the context in the table. -/
  registered : ∀ (fd : Nat) (mask : Events) (p : Ptr), s.interest fd = some (mask, p) →
    s.fdContexts[fd]? = some (some p)
  locked : ∀ (t fd : Nat) (op : Op) (p : Ptr), s.threads t = .locked fd op p →
    s.fdContexts[fd]? = some (some p)
  idle : ∀ (t : Nat) (xs : List (Ptr × Report)), s.threads t = .idle xs →
    ∀ x ∈ xs, ∃ fd : Nat, s.fdContexts[fd]? = some (some x.1)
  /-- The kernel's mask is the context's bits. -/
  kernel : ∀ (fd : Nat) (p : Ptr) (c : FdContext), s.fdContexts[fd]? = some (some p) →
    s.contexts[p]? = some c → s.interest fd = register c.events p

theorem setPc_self (s : State) (t : Nat) (pc : Pc) : (s.setPc t pc).threads t = pc :=
  Function.update_self ..

theorem setPc_other (s : State) {t t' : Nat} (h : t' ≠ t) (pc : Pc) :
    (s.setPc t pc).threads t' = s.threads t' :=
  Function.update_of_ne h ..

/-- A thread's new program point has to be in order by itself. -/
theorem Anchored.setPc {s : State} (h : Anchored s) {t : Nat} {pc : Pc}
    (hl : ∀ (fd : Nat) (op : Op) (p : Ptr), pc = .locked fd op p → s.fdContexts[fd]? = some (some p))
    (hi : ∀ xs, pc = .idle xs → ∀ x ∈ xs, ∃ fd : Nat, s.fdContexts[fd]? = some (some x.1)) :
    Anchored (s.setPc t pc) := by
  refine ⟨h.registered, ?_, ?_, h.kernel⟩
  · intro t' fd op p ht'
    by_cases htt : t' = t
    · subst htt
      rw [setPc_self] at ht'
      exact hl fd op p ht'
    · rw [setPc_other s htt] at ht'
      exact h.locked t' fd op p ht'
  · intro t' xs ht'
    by_cases htt : t' = t
    · subst htt
      rw [setPc_self] at ht'
      exact hi xs ht'
    · rw [setPc_other s htt] at ht'
      exact h.idle t' xs ht'

theorem Anchored.fail {s : State} (h : Anchored s) (f : Fault) : Anchored (s.fail f) :=
  ⟨h.registered, h.locked, h.idle, h.kernel⟩

theorem Anchored.hold {s : State} (h : Anchored s) (t fd : Nat) (op : Op) :
    Anchored (s.hold t fd op) := by
  unfold State.hold
  split
  · rename_i p hp
    exact h.setPc (by rintro _ _ _ ⟨⟩; exact hp) (by simp)
  · exact h.fail _

theorem Anchored.contextResize {s : State} (h : Anchored s) (hc : Consistent s) {size : Nat}
    (hle : s.fdContexts.length ≤ size) : Anchored (s.contextResize size) := by
  have hkept := (contextResize_kept_iff hc size).mpr hle
  have heq := contextResize_eq hc.filled size
  rw [List.take_of_length_le hle] at heq
  refine ⟨?_, ?_, ?_, ?_⟩
  · intro fd mask p hp
    exact hkept.pointer fd p (h.registered fd mask p hp)
  · intro t fd op p hp
    exact hkept.pointer fd p (h.locked t fd op p hp)
  · intro t xs hxs x hx
    obtain ⟨fd, hfd⟩ := h.idle t xs hxs x hx
    exact ⟨fd, hkept.pointer fd x.1 hfd⟩
  · intro fd p c hp hget
    show s.interest fd = register c.events p
    obtain ⟨c', hc', hfd'⟩ := (hc.contextResize size).own fd p hp
    rw [hget] at hc'
    cases hc'
    by_cases hlt : fd < s.fdContexts.length
    · -- an old entry: its context is where it was
      rw [heq] at hp
      dsimp only at hp
      rw [List.getElem?_append_left hlt] at hp
      obtain ⟨d, hd, -⟩ := hc.own fd p hp
      rw [heq] at hget
      dsimp only at hget
      rw [List.getElem?_append_left (List.getElem?_eq_some_iff.mp hd).1] at hget
      exact h.kernel fd p c hp hget
    · -- a new entry: a context with no bits, for an fd the kernel does not know
      have hnew : c.events = ∅ := by
        have hp' := hp
        rw [heq] at hp' hget
        dsimp only at hp' hget
        rw [List.getElem?_append_right (Nat.le_of_not_lt hlt), List.getElem?_map] at hp'
        obtain ⟨q, hq, hqp⟩ := Option.map_eq_some_iff.mp hp'
        cases hqp
        obtain ⟨hi, hq⟩ := List.getElem?_eq_some_iff.mp hq
        simp only [List.getElem_range', Nat.one_mul] at hq
        rw [List.getElem?_append_right (by omega), List.getElem?_map] at hget
        obtain ⟨x, -, rfl⟩ := Option.map_eq_some_iff.mp hget
        rfl
      rw [hnew]
      cases hk : s.interest fd with
      | none => rfl
      | some mp =>
          have := h.registered fd mp.1 mp.2 hk
          exact absurd (List.getElem?_eq_some_iff.mp this).1 hlt

/-- A section on the context the table holds for its fd. -/
theorem Anchored.effect {s s' : State} (h : Anchored s) (hc : Consistent s) {fd : Nat}
    {p : Ptr} {c : FdContext} (hp : s.fdContexts[fd]? = some (some p))
    (hget : s.contexts[p]? = some c) (he : Effect s fd p c s') : Anchored s' := by
  cases he with
  | same => exact h
  | ended => exact h.fail _
  | @changed c' n ts hfd hok hn =>
      refine ⟨?_, h.locked, h.idle, ?_⟩
      · intro fd' mask q hq
        by_cases hff : fd' = fd
        · subst hff
          simp only [Function.update_self, register] at hq
          split at hq
          · cases hq
          · cases hq
            exact hp
        · simp only [Function.update_of_ne hff] at hq
          exact h.registered fd' mask q hq
      · intro fd' q d hq hd
        have hq' : s.fdContexts[fd']? = some (some q) := hq
        by_cases hff : fd' = fd
        · subst hff
          rw [hp] at hq'
          cases hq'
          have hd' : (s.contexts.set p c')[p]? = some d := hd
          rw [List.getElem?_set_self (List.getElem?_eq_some_iff.mp hget).1] at hd'
          cases hd'
          simp only [Function.update_self]
        · -- another fd has another context
          have hne : p ≠ q := by
            rintro rfl
            obtain ⟨x, hx, hxfd⟩ := hc.own fd p hp
            obtain ⟨y, hy, hyfd⟩ := hc.own fd' p hq'
            rw [hx] at hy
            cases hy
            exact hff (hyfd.symm.trans hxfd)
          have hd' : (s.contexts.set p c')[q]? = some d := hd
          rw [List.getElem?_set_ne hne] at hd'
          simp only [Function.update_of_ne hff]
          exact h.kernel fd' q d hq' hd'

/-- Every report `epoll_wait` hands over carries a registered pointer. -/
theorem mapM_reportOf {s : State} :
    ∀ {events : List (Nat × Report)} {xs : List (Ptr × Report)},
    events.mapM s.reportOf = some xs →
    ∀ x ∈ xs, ∃ fd mask, s.interest fd = some (mask, x.1) ∧ x.2.reported ⊆ mask := by
  intro events
  induction events with
  | nil =>
      intro xs h x hx
      simp only [List.mapM_nil] at h
      cases h
      cases hx
  | cons e events ih =>
      intro xs h x hx
      simp only [List.mapM_cons, Option.bind_eq_bind, Option.bind_eq_some_iff] at h
      obtain ⟨y, hy, ys, hys, hxs⟩ := h
      cases hxs
      rcases List.mem_cons.mp hx with rfl | hx
      · unfold State.reportOf at hy
        split at hy
        · rename_i mask p hk
          split at hy
          · rename_i hsub
            cases hy
            exact ⟨e.1, mask, hk, hsub⟩
          · cases hy
        · cases hy
      · exact ih hys x hx

theorem anchored_init : Anchored init := by
  have h0 : Anchored ({} : State) := by
    constructor <;> simp
  have hc0 : Consistent ({} : State) := by
    constructor <;> simp
  exact h0.contextResize hc0 (by simp)

theorem step_anchored {s s' : State} {a : Act} (h : Consistent s ∧ Anchored s)
    (hg : GrowsTable s a) (hs : step s a = some s') : Consistent s' ∧ Anchored s' := by
  refine ⟨step_consistent h.1 hs, ?_⟩
  obtain ⟨hc, ha⟩ := h
  obtain ⟨-, hstep⟩ := step_inv hs
  cases hstep with
  | found => exact ha.hold ..
  | outOfRange => exact ha.setPc (by simp) (by simp)
  | refused => exact ha
  | @grow t fd op ht =>
      have hle : s.fdContexts.length ≤ growTarget fd := by simpa only [GrowsTable, ht] using hg
      exact (ha.contextResize hc hle).hold ..
  | @critical t ok fd op p c ht hget =>
      exact (ha.effect hc (ha.locked t fd op p ht) hget (hc.runOp hget ok fd op)).setPc
        (by simp) (by simp)
  | @dispatch t ok p r rest c ht hget =>
      obtain ⟨fd, hfd⟩ := ha.idle t _ ht (p, r) (by simp)
      obtain ⟨d, hd, hdfd⟩ := hc.own fd p hfd
      rw [hget] at hd
      cases hd
      subst hdfd
      have heff := hc.dispatch hget ok r
      refine (ha.effect hc hfd hget heff).setPc ?_ ?_
      · intro fd op q hq
        split at hq <;> cases hq
      · intro xs hxs x hx
        rw [heff.fdContexts]
        split at hxs
        · cases hxs
        · cases hxs
          exact ha.idle t _ ht x (List.mem_cons_of_mem _ hx)
  | @wait t events xs ht hm =>
      refine ha.setPc (by simp) ?_
      rintro _ ⟨⟩ x hx
      obtain ⟨fd, mask, hk, -⟩ := mapM_reportOf hm x hx
      exact ⟨fd, ha.registered fd mask x.1 hk⟩

theorem run_anchored {acts : List Act} {s : State}
    (hg : Meets step GrowsTable init acts) (hr : run step init acts = some s) :
    Consistent s ∧ Anchored s :=
  run_invariant (fun _ _ _ h hg hs => step_anchored h hg hs)
    ⟨consistent_init, anchored_init⟩ hg hr

end Hps.IOManager
