import Hps.Hook.Model

/-!
# Hook — `get(fd, true)` by several threads

`FdManager::get` is two critical sections: a lookup under the read lock and,
if that finds nothing, a creation under the write lock that does not look
again. Here the entries of `m_datas` are pointers, so that two contexts of
one descriptor can be told apart. `contexts_shared_iff`: the calls return one
context exactly if every creation finds the entry still empty.
-/

namespace Hps.Hook

open Hps.Lib

/-- An `FdCtx::ptr`: an index into the contexts created so far. -/
abbrev Ptr := Nat

abbrev Thread := Nat

/-- The manager and the contexts it has pointers to. -/
structure Shared where
  kernel : Kernel
  /-- `m_datas` -/
  datas : List (Option Ptr)
  large : 64 ≤ datas.length
  heap : List FdCtx
  /-- The threads between the two sections of `get(fd, true)`. -/
  creating : Thread → Bool
  /-- What the calls have returned. -/
  returned : List Ptr

namespace Shared

/-- `m_datas[fd]`, a null pointer out of range. -/
def entry (s : Shared) (fd : Nat) : Option Ptr := s.datas[fd]?.join

/-- The first section of `get(fd, auto_create)`: what it returns, or `none`
if it goes on to the second. -/
def lookup (s : Shared) (fd : Nat) (autoCreate : Bool) : Option (Option Ptr) :=
  if s.datas.length ≤ fd then
    if autoCreate = false then some none else none
  else if (s.entry fd).isSome ∨ autoCreate = false then some (s.entry fd)
  else none

/-- The second section. -/
def create (s : Shared) (fd : Nat) : Shared where
  kernel := s.kernel.initSocket fd
  datas := (growTo fd s.datas).set fd (some s.heap.length)
  large := by
    rw [List.length_set]
    exact Nat.le_trans s.large (length_growTo s.large).2
  heap := s.heap ++ [.new s.kernel fd]
  creating := s.creating
  returned := s.returned ++ [s.heap.length]

/-- The object behind a pointer is changed. -/
def modify (s : Shared) (p : Ptr) (f : FdCtx → FdCtx) : Shared :=
  { s with heap := s.heap.modify p f }

end Shared

/-- What can be set through a pointer. -/
inductive Setting where
  | timeout (type : TimeoutOf) (v : UInt64)
  | userNonblock (v : Bool)
  deriving DecidableEq

namespace Setting

/-- `setTimeout` and `setUserNonblock` -/
def apply : Setting → FdCtx → FdCtx
  | timeout type v, c => c.setTimeout type v
  | userNonblock v, c => { c with userNonblock := v }

/-- The context has the setting. -/
def Of : Setting → FdCtx → Prop
  | timeout .recv v, c => c.recvTimeout = v
  | timeout .send v, c => c.sendTimeout = v
  | userNonblock v, c => c.userNonblock = v

/-- Both set the same member. -/
def Same : Setting → Setting → Prop
  | timeout t _, timeout t' _ => t = t'
  | userNonblock _, userNonblock _ => True
  | _, _ => False

end Setting

/-- The sections of the calls for one descriptor, and what is done through the
pointers they return. -/
inductive Act where
  /-- `get(fd, true)` up to the unlock -/
  | lookup (t : Thread)
  /-- the rest of it -/
  | create (t : Thread)
  /-- `get(fd)` -/
  | find (t : Thread)
  | set (p : Ptr) (x : Setting)
  deriving DecidableEq

namespace Shared

/-- One section, or one setting through a pointer that was returned. -/
def step (fd : Nat) (s : Shared) : Act → Option Shared
  | .lookup t =>
      if s.creating t then none
      else
        match s.lookup fd true with
        | some p => some { s with returned := s.returned ++ p.toList }
        | none => some { s with creating := Function.update s.creating t true }
  | .create t =>
      if s.creating t then
        some { s.create fd with creating := Function.update s.creating t false }
      else none
  | .find t =>
      if s.creating t then none
      else
        match s.lookup fd false with
        | some p => some { s with returned := s.returned ++ p.toList }
        | none => none
  | .set p x =>
      if p ∈ s.returned then some (s.modify p x.apply) else none

/-! ## The property -/

/-- Whatever was returned is what is stored. -/
def OneContext (fd : Nat) (s : Shared) : Prop := ∀ p ∈ s.returned, s.entry fd = some p

/-- A `get(fd)` now returns a context with the setting. -/
def Sees (fd : Nat) (s : Shared) (x : Setting) : Prop :=
  ∃ p c, s.entry fd = some p ∧ s.heap[p]? = some c ∧ x.Of c

/-- In every state of the run the returned context is the stored one, and a
setting is seen from when it is made until another takes its place. -/
def ContextsShared (fd : Nat) (s : Shared) (acts : List Act) : Prop :=
  (∀ pre s', pre <+: acts → run (step fd) s pre = some s' → s'.OneContext fd) ∧
  ∀ pre p x mid s', pre ++ .set p x :: mid <+: acts →
    run (step fd) s (pre ++ .set p x :: mid) = some s' →
    (∀ q y, .set q y ∈ mid → ¬x.Same y) → s'.Sees fd x

/-- A creation finds the entry still empty. -/
def Alone (fd : Nat) (s : Shared) : Act → Prop
  | .create _ => s.entry fd = none
  | _ => True

instance (fd : Nat) (s : Shared) : (a : Act) → Decidable (Alone fd s a)
  | .create _ => inferInstanceAs (Decidable (s.entry fd = none))
  | .lookup _ => isTrue trivial
  | .find _ => isTrue trivial
  | .set _ _ => isTrue trivial

/-- No call has begun, and the entry, if there is one, is a context. -/
structure Quiet (fd : Nat) (s : Shared) : Prop where
  idle : ∀ t, s.creating t = false
  fresh : s.returned = []
  valid : ∀ p, s.entry fd = some p → p < s.heap.length

/-! ## One section -/

variable {fd : Nat} {s s' : Shared} {a : Act}

theorem entry_create (s : Shared) (fd : Nat) :
    (s.create fd).entry fd = some s.heap.length := by
  have hfd : fd < (growTo fd s.datas).length := (length_growTo s.large).1
  rw [entry, create, List.getElem?_set, if_pos rfl, if_pos hfd]
  rfl

theorem lookup_some {auto : Bool} {p : Option Ptr} (h : s.lookup fd auto = some p) :
    p = s.entry fd := by
  rw [lookup] at h
  split at h
  · rename_i hout
    have hnone : s.entry fd = none := by
      rw [entry, List.getElem?_eq_none hout]
      rfl
    split at h
    · rw [← Option.some.inj h, hnone]
    · cases h
  · split at h
    · exact (Option.some.inj h).symm
    · cases h

theorem lookup_none {auto : Bool} (h : s.lookup fd auto = none) : s.entry fd = none := by
  rw [lookup] at h
  split at h
  · rename_i hout
    rw [entry, List.getElem?_eq_none hout]
    rfl
  · split at h
    · cases h
    · rename_i hempty
      exact Option.not_isSome_iff_eq_none.mp fun hsome => hempty (.inl hsome)

/-- What a section can do: return the entry, go on to the creation, create,
or change the object. -/
theorem step_cases (h : step fd s a = some s') :
    s' = { s with returned := s.returned ++ (s.entry fd).toList } ∧
        (∀ t, a ≠ .create t) ∧ (∀ p x, a ≠ .set p x) ∨
    (∃ t, a = .lookup t ∧ s.entry fd = none ∧
      s' = { s with creating := Function.update s.creating t true }) ∨
    (∃ t, a = .create t ∧ s.creating t = true ∧
      s' = { s.create fd with creating := Function.update s.creating t false }) ∨
    ∃ p x, a = .set p x ∧ p ∈ s.returned ∧ s' = s.modify p x.apply := by
  cases a with
  | lookup t =>
      simp only [step] at h
      split at h
      · cases h
      · split at h
        · rename_i p hp
          left
          rw [← lookup_some hp]
          exact ⟨(Option.some.inj h).symm, nofun, nofun⟩
        · rename_i hp
          exact .inr (.inl ⟨t, rfl, lookup_none hp, (Option.some.inj h).symm⟩)
  | create t =>
      simp only [step] at h
      split at h
      · rename_i ht
        exact .inr (.inr (.inl ⟨t, rfl, ht, (Option.some.inj h).symm⟩))
      · cases h
  | find t =>
      simp only [step] at h
      split at h
      · cases h
      · split at h
        · rename_i p hp
          left
          rw [← lookup_some hp]
          exact ⟨(Option.some.inj h).symm, nofun, nofun⟩
        · cases h
  | set p x =>
      simp only [step] at h
      split at h
      · rename_i hp
        exact .inr (.inr (.inr ⟨p, x, rfl, hp, (Option.some.inj h).symm⟩))
      · cases h

/-- In every run, alone or not: the entry is a context, and while a call is
between its sections, one that has been returned. -/
structure Inv (fd : Nat) (s : Shared) : Prop where
  valid : ∀ p, s.entry fd = some p → p < s.heap.length
  claimed : ∀ t p, s.creating t = true → s.entry fd = some p → p ∈ s.returned

theorem Quiet.inv (h : Quiet fd s) : Inv fd s where
  valid := h.valid
  claimed := by
    intro t p ht
    rw [h.idle t] at ht
    cases ht

theorem Inv.step (hi : Inv fd s) (h : step fd s a = some s') : Inv fd s' := by
  rcases step_cases h with ⟨rfl, -, -⟩ | ⟨t, -, hnone, rfl⟩ | ⟨t, -, -, rfl⟩ | ⟨p, x, -, -, rfl⟩
  · exact ⟨hi.valid, fun t p ht hp => List.mem_append_left _ (hi.claimed t p ht hp)⟩
  · have hentry : ∀ p, s.entry fd ≠ some p := by
      intro p hp
      rw [hnone] at hp
      cases hp
    exact ⟨hi.valid, fun _ p _ hp => absurd hp (hentry p)⟩
  · have hentry := entry_create s fd
    refine ⟨?_, ?_⟩
    · intro p hp
      have hp' : p = s.heap.length := (Option.some.inj (hentry.symm.trans hp)).symm
      rw [hp', create, List.length_append]
      exact Nat.lt_add_one _
    · intro _ p _ hp
      have hp' : p = s.heap.length := (Option.some.inj (hentry.symm.trans hp)).symm
      rw [hp', create]
      exact List.mem_append_right _ (List.mem_singleton.mpr rfl)
  · refine ⟨?_, hi.claimed⟩
    intro q hq
    rw [modify, List.length_modify]
    exact hi.valid q hq

theorem OneContext.step (ho : OneContext fd s) (ha : Alone fd s a)
    (h : step fd s a = some s') : OneContext fd s' := by
  rcases step_cases h with ⟨rfl, -, -⟩ | ⟨t, -, -, rfl⟩ | ⟨t, rfl, -, rfl⟩ | ⟨p, x, -, -, rfl⟩
  · intro p hp
    rcases List.mem_append.mp hp with hp | hp
    · exact ho p hp
    · exact Option.mem_toList.mp hp
  · exact ho
  · -- nothing was returned while the entry was empty
    have hnone : s.returned = [] := by
      apply List.eq_nil_iff_forall_not_mem.mpr
      intro p hp
      have hsome := ho p hp
      have hempty : s.entry fd = none := ha
      rw [hempty] at hsome
      cases hsome
    intro p hp
    rw [create, hnone, List.nil_append, List.mem_singleton] at hp
    rw [hp]
    exact entry_create s fd
  · exact ho

/-- A creation over an entry gives the descriptor a second context. -/
theorem not_oneContext (hi : Inv fd s) (ha : ¬Alone fd s a) (h : Shared.step fd s a = some s') :
    ¬OneContext fd s' := by
  cases a with
  | create t =>
      obtain ⟨p, hp⟩ := Option.ne_none_iff_exists'.mp ha
      rcases step_cases h with ⟨-, hne, -⟩ | ⟨_, he, -⟩ | ⟨t', -, ht, rfl⟩ | ⟨_, _, he, -⟩
      · exact absurd rfl (hne t)
      · cases he
      · intro ho
        have hmem : p ∈ (s.create fd).returned := List.mem_append_left _ (hi.claimed t' p ht hp)
        have hsame : some s.heap.length = some p := (entry_create s fd).symm.trans (ho p hmem)
        exact absurd (Option.some.inj hsame).symm (Nat.ne_of_lt (hi.valid p hp))
      · cases he
  | _ => exact absurd trivial ha

/-! ## Settings -/

/-- The setting is in the context that every call returns. -/
def Holds (fd : Nat) (p : Ptr) (x : Setting) (s : Shared) : Prop :=
  OneContext fd s ∧ s.entry fd = some p ∧ ∃ c, s.heap[p]? = some c ∧ x.Of c

end Shared

theorem Setting.apply_of (x : Setting) (c : FdCtx) : x.Of (x.apply c) := by
  cases x with
  | timeout type v => cases type <;> rfl
  | userNonblock v => rfl

/-- A setting of another member leaves this one. -/
theorem Setting.Of.apply {x y : Setting} {c : FdCtx} (h : x.Of c) (hne : ¬x.Same y) :
    x.Of (y.apply c) := by
  cases x with
  | timeout t v =>
      cases y with
      | timeout t' v' =>
          cases t <;> cases t' <;> first | exact h | exact absurd rfl hne
      | userNonblock v' => cases t <;> exact h
  | userNonblock v =>
      cases y with
      | timeout t' v' => cases t' <;> exact h
      | userNonblock v' => exact absurd trivial hne

namespace Shared

variable {fd : Nat} {s s' : Shared} {a : Act} {p : Ptr} {x : Setting}

theorem Holds.of_set (hi : Inv fd s) (ho : OneContext fd s)
    (h : step fd s (.set p x) = some s') : Holds fd p x s' := by
  rcases step_cases h with ⟨-, -, hne⟩ | ⟨_, he, -⟩ | ⟨_, he, -⟩ | ⟨q, y, he, hq, rfl⟩
  · exact absurd rfl (hne p x)
  · cases he
  · cases he
  · cases he
    have hentry := ho p hq
    obtain ⟨c, hc⟩ : ∃ c, s.heap[p]? = some c :=
      ⟨_, List.getElem?_eq_getElem (hi.valid p hentry)⟩
    refine ⟨ho, hentry, x.apply c, ?_, x.apply_of c⟩
    rw [modify, List.getElem?_modify_eq, hc]
    rfl

theorem Holds.step (hh : Holds fd p x s) (ha : Alone fd s a)
    (hset : ∀ q y, a = .set q y → ¬x.Same y) (h : step fd s a = some s') :
    Holds fd p x s' := by
  obtain ⟨ho, hentry, c, hc, hx⟩ := hh
  refine ⟨ho.step ha h, ?_⟩
  rcases step_cases h with ⟨rfl, -, -⟩ | ⟨t, -, -, rfl⟩ | ⟨t, rfl, -, -⟩ | ⟨q, y, rfl, hq, rfl⟩
  · exact ⟨hentry, c, hc, hx⟩
  · exact ⟨hentry, c, hc, hx⟩
  · have hempty : s.entry fd = none := ha
    rw [hempty] at hentry
    cases hentry
  · -- the pointer is the one all calls have returned
    have hqp : q = p := Option.some.inj ((ho q hq).symm.trans hentry)
    refine ⟨hentry, y.apply c, ?_, hx.apply (hset q y rfl)⟩
    rw [hqp, modify, List.getElem?_modify_eq, hc]
    rfl

/-! ## Whole runs -/

theorem meets_of_oneContext {acts : List Act} (hi : Inv fd s)
    (hrun : run (step fd) s acts = some s')
    (h : ∀ pre t, pre <+: acts → run (step fd) s pre = some t → OneContext fd t) :
    Meets (step fd) (Alone fd) s acts := by
  induction acts generalizing s with
  | nil => trivial
  | cons a acts ih =>
      obtain ⟨s₁, h₁, h₂⟩ := Option.bind_eq_some_iff.mp hrun
      refine ⟨?_, ?_⟩
      · by_contra ha
        exact not_oneContext hi ha h₁ (h [a] s₁ ⟨acts, rfl⟩ (by rw [run_cons, h₁]; rfl))
      · intro t ht
        rw [h₁] at ht
        cases ht
        refine ih (hi.step h₁) h₂ ?_
        intro pre t hpre ht
        refine h (a :: pre) t (List.cons_prefix_cons.mpr ⟨rfl, hpre⟩) ?_
        rw [run_cons, h₁]
        exact ht

/-- What holds of both is kept by the sections that are allowed. -/
theorem oneContext_run {acts : List Act} (hi : Inv fd s) (ho : OneContext fd s)
    (hok : Meets (step fd) (Alone fd) s acts) (hrun : run (step fd) s acts = some s') :
    Inv fd s' ∧ OneContext fd s' :=
  ⟨run_invariant' (fun _ _ _ hi h => hi.step h) hi hrun,
    run_invariant (fun _ _ _ ho ha h => ho.step ha h) ho hok hrun⟩

theorem holds_run {acts : List Act} (hh : Holds fd p x s)
    (hok : Meets (step fd) (Alone fd) s acts) (hset : ∀ q y, .set q y ∈ acts → ¬x.Same y)
    (hrun : run (step fd) s acts = some s') : Holds fd p x s' := by
  have hok' := hok.and_forall (P := fun a => ∀ q y, a = .set q y → ¬x.Same y) (by
    intro a ha q y haq
    rw [haq] at ha
    exact hset q y ha)
  exact run_invariant (fun _ _ _ hh ha h => hh.step ha.1 ha.2 h) hh hok' hrun

/-- **One context per descriptor.** The calls all return the stored context,
and a setting made through it is seen by every later call, exactly if every
creation finds the entry still empty. -/
theorem contexts_shared_iff {acts : List Act} {s s' : Shared} (hs : Quiet fd s)
    (hrun : run (step fd) s acts = some s') :
    ContextsShared fd s acts ↔ Meets (step fd) (Alone fd) s acts := by
  have ho : OneContext fd s := by
    intro p hp
    rw [hs.fresh] at hp
    cases hp
  constructor
  · intro h
    exact meets_of_oneContext hs.inv hrun h.1
  · intro hok
    refine ⟨?_, ?_⟩
    · intro pre t hpre ht
      obtain ⟨post, rfl⟩ := hpre
      exact (oneContext_run hs.inv ho (hok.append ht).1 ht).2
    · intro pre p x mid t hpre ht hset
      obtain ⟨post, rfl⟩ := hpre
      have hok₁ := (hok.append ht).1
      rw [run_append] at ht
      obtain ⟨s₁, h₁, h₂⟩ := Option.bind_eq_some_iff.mp ht
      obtain ⟨s₂, h₃, h₄⟩ := Option.bind_eq_some_iff.mp h₂
      obtain ⟨hokPre, -, hokMid⟩ := hok₁.append h₁
      obtain ⟨hi₁, ho₁⟩ := oneContext_run hs.inv ho hokPre h₁
      obtain ⟨-, hentry, c, hc, hx⟩ :=
        holds_run (Holds.of_set hi₁ ho₁ h₃) (hokMid s₂ h₃) hset h₄
      exact ⟨p, c, hentry, hc, hx⟩

/-- A manager with nothing in it. -/
def start : Shared where
  kernel := {}
  datas := List.replicate 64 none
  large := Nat.le_of_eq List.length_replicate.symm
  heap := []
  creating := fun _ => false
  returned := []

theorem start_quiet (fd : Nat) : Quiet fd start where
  idle := fun _ => rfl
  fresh := rfl
  valid := by
    intro p hp
    have hnone : start.entry fd = none := by
      rw [entry, start, List.getElem?_replicate]
      split <;> rfl
    rw [hnone] at hp
    cases hp

/-- Two threads, one after the other. -/
def oneByOne : List Act :=
  [.lookup 1, .create 1, .set 0 (.timeout .recv 5000), .lookup 2, .find 1]

theorem oneByOne_shared : ContextsShared 7 start oneByOne := by
  have hruns : (run (step 7) start oneByOne).isSome := by decide +kernel
  obtain ⟨s, hrun⟩ := Option.isSome_iff_exists.mp hruns
  exact (contexts_shared_iff (start_quiet 7) hrun).mpr (by decide +kernel)

/-- Two threads that both find nothing: the second context replaces the
first, and the timeout set through the first is lost. -/
def bothCreate : List Act :=
  [.lookup 1, .lookup 2, .create 1, .set 0 (.timeout .recv 5000), .create 2, .find 1]

theorem bothCreate_loses :
    (run (step 7) start bothCreate).isSome ∧ ¬ContextsShared 7 start bothCreate := by
  have hruns : (run (step 7) start bothCreate).map
      (fun s => (s.entry 7, s.heap.map FdCtx.recvTimeout)) =
        some (some 1, [5000, noTimeout]) := by decide +kernel
  obtain ⟨s, hrun, hend⟩ := Option.map_eq_some_iff.mp hruns
  obtain ⟨hentry, hheap⟩ := Prod.mk.inj hend
  refine ⟨by rw [hrun]; rfl, ?_⟩
  rintro ⟨-, hseen⟩
  have hnone : ∀ q y, .set q y ∈ [Act.create 2, .find 1] →
      ¬(Setting.timeout .recv 5000).Same y := by
    intro q y hmem
    simp at hmem
  obtain ⟨p, c, hp, hc, hx⟩ :=
    hseen [.lookup 1, .lookup 2, .create 1] 0 (.timeout .recv 5000) [.create 2, .find 1] s
      (List.prefix_refl _) hrun hnone
  obtain rfl : 1 = p := Option.some.inj (hentry.symm.trans hp)
  have htimeout : (s.heap.map FdCtx.recvTimeout)[1]? = some c.recvTimeout := by
    rw [List.getElem?_map, hc]
    rfl
  have hx' : c.recvTimeout = 5000 := hx
  rw [hheap, hx'] at htimeout
  exact absurd htimeout (by decide)

end Shared

end Hps.Hook
