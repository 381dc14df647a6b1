import Mathlib.Algebra.Ring.Nat
import Mathlib.Algebra.Order.BigOperators.Group.List
import Mathlib.Algebra.Order.Group.Nat
import Hps.IOManager.Sections

/-!
# IOManager — what holds in every run

`Consistent` is kept by every step of every interleaving, also by one that
shrinks the table: no entry of the table is null, an entry points at the
context of its own fd, every slot agrees with its bit, and the counter is
the number of bits set over all contexts. `Step` is the inversion of the
step function the proofs use.
-/

namespace Hps.IOManager

open Hps.Lib

/-! ## Inversion of the step function -/

/-- The transitions, one constructor for each path through `step`. -/
inductive Step (s : State) : Act → State → Prop where
  | found {t fd : Nat} {op : Op} : s.threads t = .ready → fd < s.fdContexts.length →
      Step s (.call t fd op) (s.hold t fd op)
  | outOfRange {t fd : Nat} {op : Op} : s.threads t = .ready →
      s.fdContexts.length ≤ fd → op.isAdd →
      Step s (.call t fd op) (s.setPc t (.grow fd op))
  | refused {t fd : Nat} {op : Op} : s.threads t = .ready → s.fdContexts.length ≤ fd →
      Step s (.call t fd op) s
  | grow {t fd : Nat} {op : Op} : s.threads t = .grow fd op →
      Step s (.grow t) ((s.contextResize (growTarget fd)).hold t fd op)
  | critical {t : Nat} {ok : Bool} {fd : Nat} {op : Op} {p : Ptr} {c : FdContext} :
      s.threads t = .locked fd op p → s.contexts[p]? = some c →
      Step s (.enter t ok) ((s.runOp ok fd p c op).setPc t .ready)
  | dispatch {t : Nat} {ok : Bool} {p : Ptr} {r : Report} {rest : List (Ptr × Report)}
      {c : FdContext} :
      s.threads t = .idle ((p, r) :: rest) → s.contexts[p]? = some c →
      Step s (.enter t ok)
        ((s.dispatch ok p c r).setPc t (if rest = [] then .ready else .idle rest))
  | wait {t : Nat} {events : List (Nat × Report)} {xs : List (Ptr × Report)} :
      s.threads t = .ready → events.mapM s.reportOf = some xs →
      Step s (.wait t events) (s.setPc t (.idle xs))

theorem step_inv {s s' : State} {a : Act} (h : step s a = some s') :
    s.fault = none ∧ Step s a s' := by
  unfold step at h
  cases hf : s.fault with
  | some f => simp [hf] at h
  | none =>
      refine ⟨rfl, ?_⟩
      rw [hf] at h
      cases a with
      | call t fd op =>
          cases ht : s.threads t with
          | ready =>
              by_cases hlt : fd < s.fdContexts.length
              · simp only [Option.isSome_none, Bool.false_eq_true, if_false, ht, if_pos hlt,
                  Option.some.injEq] at h
                exact h ▸ .found ht hlt
              · by_cases ha : op.isAdd
                · simp only [Option.isSome_none, Bool.false_eq_true, if_false, ht, if_neg hlt,
                    if_pos ha, Option.some.injEq] at h
                  exact h ▸ .outOfRange ht (Nat.le_of_not_lt hlt) ha
                · simp only [Option.isSome_none, Bool.false_eq_true, if_false, ht, if_neg hlt,
                    if_neg ha, Option.some.injEq] at h
                  exact h ▸ .refused ht (Nat.le_of_not_lt hlt)
          | _ => simp [ht] at h
      | grow t =>
          cases ht : s.threads t with
          | grow fd op =>
              simp only [Option.isSome_none, Bool.false_eq_true, if_false, ht,
                Option.some.injEq] at h
              exact h ▸ .grow ht
          | _ => simp [ht] at h
      | enter t ok =>
          cases ht : s.threads t with
          | locked fd op p =>
              cases hc : s.contexts[p]? with
              | none => simp [ht, hc] at h
              | some c =>
                  simp only [Option.isSome_none, Bool.false_eq_true, if_false, ht, hc,
                    Option.some.injEq] at h
                  exact h ▸ .critical ht hc
          | idle xs =>
              cases xs with
              | nil => simp [ht] at h
              | cons x rest =>
                  obtain ⟨p, r⟩ := x
                  cases hc : s.contexts[p]? with
                  | none => simp [ht, hc] at h
                  | some c =>
                      simp only [Option.isSome_none, Bool.false_eq_true, if_false, ht, hc,
                        Option.some.injEq] at h
                      exact h ▸ .dispatch ht hc
          | _ => simp [ht] at h
      | wait t events =>
          cases ht : s.threads t with
          | ready =>
              cases hm : events.mapM s.reportOf with
              | none => simp [ht, hm] at h
              | some xs =>
                  cases xs with
                  | nil => simp [ht, hm] at h
                  | cons x xs =>
                      simp only [Option.isSome_none, Bool.false_eq_true, if_false, ht, hm,
                        Option.some.injEq] at h
                      exact h ▸ .wait ht hm
          | _ => simp [ht] at h

/-! ## Growing the table -/

/-- The filling loop keeps the entries that are there. -/
theorem fillNull_append (l₁ l₂ : List (Option Ptr)) (h : ∀ x ∈ l₁, x.isSome) :
    ∀ (i : Nat) (cs : List FdContext),
    fillNull i (l₁ ++ l₂) cs
      = (l₁ ++ (fillNull (i + l₁.length) l₂ cs).1, (fillNull (i + l₁.length) l₂ cs).2) := by
  induction l₁ with
  | nil => intro i cs; rfl
  | cons x l₁ ih =>
      intro i cs
      obtain ⟨p, rfl⟩ := Option.isSome_iff_exists.mp (h x (by simp))
      simp only [List.cons_append, fillNull, ih (fun y hy => h y (by simp [hy])),
        List.length_cons]
      rw [show i + 1 + l₁.length = i + (l₁.length + 1) from by omega]

/-- On null entries it allocates one context for each fd, in order. -/
theorem fillNull_replicate : ∀ (n i : Nat) (cs : List FdContext),
    fillNull i (List.replicate n none) cs
      = ((List.range' cs.length n).map some,
         cs ++ (List.range' i n).map (fun fd => ({ fd := fd } : FdContext))) := by
  intro n
  induction n with
  | zero => intro i cs; simp [fillNull]
  | succ n ih =>
      intro i cs
      simp only [List.replicate_succ, fillNull, ih, List.range'_succ, List.map_cons,
        List.length_append, List.length_singleton, List.append_assoc, List.singleton_append]

/-- **`contextResize` on a filled table**: the first entries stay, the new
ones point at new contexts for their own fds. -/
theorem contextResize_eq {s : State} (h : ∀ x ∈ s.fdContexts, x.isSome) (size : Nat) :
    s.contextResize size = { s with
      fdContexts := s.fdContexts.take size
        ++ (List.range' s.contexts.length (size - s.fdContexts.length)).map some,
      contexts := s.contexts
        ++ (List.range' (s.fdContexts.take size).length (size - s.fdContexts.length)).map
            (fun fd => ({ fd := fd } : FdContext)) } := by
  have hk : ∀ x ∈ s.fdContexts.take size, x.isSome := fun x hx => h x (List.mem_of_mem_take hx)
  unfold State.contextResize resize
  simp only [fillNull_append _ _ hk, Nat.zero_add, fillNull_replicate]

/-! ## The invariant of every run -/

structure Consistent (s : State) : Prop where
  /-- No entry of the table is null. -/
  filled : ∀ x ∈ s.fdContexts, x.isSome
  /-- An entry points at the context of its own fd. -/
  own : ∀ fd p, s.fdContexts[fd]? = some (some p) → ∃ c : FdContext, s.contexts[p]? = some c ∧ c.fd = fd
  /-- Every slot agrees with its bit. -/
  slots : ∀ c ∈ s.contexts, c.SlotsOk
  /-- The counter is the number of bits set. -/
  pending : s.pendingEventCount = (s.contexts.map (fun c => c.events.card)).sum

theorem Consistent.card_le {s : State} (h : Consistent s) {p : Ptr} {c : FdContext}
    (hc : s.contexts[p]? = some c) : c.events.card ≤ s.pendingEventCount := by
  rw [h.pending]
  exact List.single_le_sum (by simp) _
    (List.mem_map.mpr ⟨c, List.mem_of_getElem? hc, rfl⟩)

/-- Only the table, the contexts and the counter matter. -/
theorem Consistent.congr {s s' : State} (h : Consistent s) (h1 : s'.fdContexts = s.fdContexts)
    (h2 : s'.contexts = s.contexts) (h3 : s'.pendingEventCount = s.pendingEventCount) :
    Consistent s' :=
  ⟨h1 ▸ h.filled, h1 ▸ h2 ▸ h.own, h2 ▸ h.slots, h3 ▸ h2 ▸ h.pending⟩

theorem Consistent.contextResize {s : State} (h : Consistent s) (size : Nat) :
    Consistent (s.contextResize size) := by
  rw [contextResize_eq h.filled size]
  constructor
  · intro x hx
    rcases List.mem_append.mp hx with hx | hx
    · exact h.filled x (List.mem_of_mem_take hx)
    · obtain ⟨p, -, rfl⟩ := List.mem_map.mp hx
      rfl
  · intro fd p hp
    dsimp only at hp ⊢
    by_cases hlt : fd < (s.fdContexts.take size).length
    · rw [List.getElem?_append_left hlt, List.getElem?_take] at hp
      split at hp
      · obtain ⟨c, hc, hfd⟩ := h.own fd p hp
        refine ⟨c, ?_, hfd⟩
        rw [List.getElem?_append_left (List.getElem?_eq_some_iff.mp hc).1]
        exact hc
      · cases hp
    · have hge : (s.fdContexts.take size).length ≤ fd := Nat.le_of_not_lt hlt
      rw [List.getElem?_append_right hge, List.getElem?_map] at hp
      cases hr : (List.range' s.contexts.length (size - s.fdContexts.length))[
          fd - (s.fdContexts.take size).length]? with
      | none =>
          rw [hr] at hp
          cases hp
      | some q =>
          rw [hr] at hp
          simp only [Option.map_some, Option.some.injEq] at hp
          subst hp
          rw [List.getElem?_eq_some_iff] at hr
          obtain ⟨hi, hq⟩ := hr
          simp only [List.length_range'] at hi
          simp only [List.getElem_range', Nat.one_mul] at hq
          refine ⟨{ fd := fd }, ?_, rfl⟩
          rw [← hq, List.getElem?_append_right (by omega), Nat.add_sub_cancel_left,
            List.getElem?_map, List.getElem?_range' hi]
          simp only [Nat.one_mul, Option.map_some, Option.some.injEq]
          congr 1
          omega
  · intro c hc
    rcases List.mem_append.mp hc with hc | hc
    · exact h.slots c hc
    · obtain ⟨fd, -, rfl⟩ := List.mem_map.mp hc
      exact slotsOk_new fd
  · dsimp only
    rw [h.pending, List.map_append, List.sum_append, List.map_map]
    simp [Function.comp_def]

/-- Replacing one entry moves the sum by the difference. -/
theorem sum_map_set {β : Type} (f : β → Nat) :
    ∀ (l : List β) (i : Nat) (x y : β), l[i]? = some x →
    ((l.set i y).map f).sum + f x = (l.map f).sum + f y := by
  intro l
  induction l with
  | nil => intro i x y h; simp at h
  | cons a l ih =>
      intro i x y h
      cases i with
      | zero =>
          simp only [List.getElem?_cons_zero, Option.some.injEq] at h
          subst h
          simp only [List.set_cons_zero, List.map_cons, List.sum_cons]
          omega
      | succ i =>
          simp only [List.getElem?_cons_succ] at h
          have := ih i x y h
          simp only [List.set_cons_succ, List.map_cons, List.sum_cons]
          omega

theorem Consistent.effect {s s' : State} (h : Consistent s) {fd : Nat} {p : Ptr} {c : FdContext}
    (hc : s.contexts[p]? = some c) (he : Effect s fd p c s') : Consistent s' := by
  cases he with
  | same => exact h
  | ended => exact h.congr rfl rfl rfl
  | @changed c' n ts hfd hok hn =>
      have hlt : p < s.contexts.length := (List.getElem?_eq_some_iff.mp hc).1
      constructor
      · exact h.filled
      · intro fd' q hq
        obtain ⟨d, hd, hdfd⟩ := h.own fd' q hq
        show ∃ x, (s.contexts.set p c')[q]? = some x ∧ x.fd = fd'
        by_cases hpq : p = q
        · subst hpq
          rw [hc] at hd
          cases hd
          exact ⟨c', List.getElem?_set_self hlt, by rw [hfd, hdfd]⟩
        · exact ⟨d, by rw [List.getElem?_set_ne hpq]; exact hd, hdfd⟩
      · intro d hd
        rcases List.mem_or_eq_of_mem_set hd with hd | rfl
        · exact h.slots d hd
        · exact hok
      · show n = ((s.contexts.set p c').map (fun c => c.events.card)).sum
        have hsum := sum_map_set (fun c : FdContext => c.events.card) s.contexts p c c' hc
        rw [← h.pending] at hsum
        omega

/-- The outcome of a section, from the invariant. -/
theorem Consistent.runOp {s : State} (h : Consistent s) {p : Ptr} {c : FdContext}
    (hc : s.contexts[p]? = some c) (ok : Bool) (fd : Nat) (op : Op) :
    Effect s fd p c (s.runOp ok fd p c op) :=
  runOp_effect hc (h.slots c (List.mem_of_getElem? hc)) (h.card_le hc) ok fd op

theorem Consistent.dispatch {s : State} (h : Consistent s) {p : Ptr} {c : FdContext}
    (hc : s.contexts[p]? = some c) (ok : Bool) (r : Report) :
    Effect s c.fd p c (s.dispatch ok p c r) :=
  dispatch_effect hc (h.slots c (List.mem_of_getElem? hc)) (h.card_le hc) ok r

theorem consistent_init : Consistent init := by
  have h0 : Consistent ({} : State) := by
    constructor <;> simp
  exact h0.contextResize 32

theorem hold_consistent {s : State} (h : Consistent s) (t fd : Nat) (op : Op) :
    Consistent (s.hold t fd op) := by
  unfold State.hold
  split <;> exact h.congr rfl rfl rfl

theorem step_consistent {s s' : State} {a : Act} (h : Consistent s)
    (hs : step s a = some s') : Consistent s' := by
  obtain ⟨-, hstep⟩ := step_inv hs
  cases hstep with
  | found => exact hold_consistent h ..
  | outOfRange => exact h.congr rfl rfl rfl
  | refused => exact h
  | grow => exact hold_consistent (h.contextResize _) ..
  | @critical t ok fd op p c ht hc =>
      exact (h.effect hc (h.runOp hc ok fd op)).congr rfl rfl rfl
  | @dispatch t ok p r rest c ht hc =>
      exact (h.effect hc (h.dispatch hc ok r)).congr rfl rfl rfl
  | wait => exact h.congr rfl rfl rfl

/-- **Every run is consistent**, whatever the interleaving. -/
theorem run_consistent {acts : List Act} {s : State} (hr : run step init acts = some s) :
    Consistent s :=
  run_invariant' (fun _ _ _ h hs => step_consistent h hs) consistent_init hr

end Hps.IOManager
