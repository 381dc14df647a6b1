import Hps.Hook.Nonblock

/-!
# Hook — contexts and the files they are of

A context outlives its file when the file is closed by a thread whose hook is
not enabled, and `get(fd, true)` returns it to whoever opens the next file
with that number. `contexts_current_iff`: the contexts are those of the open
files exactly if that does not happen.
-/

namespace Hps.Hook

open Hps.Lib

/-! ## What the calls leave -/

/-- The number a call opens. -/
def Call.opens : Call → Option Nat
  | .socket _ _ fd => fd
  | .accept _ fd => fd
  | .close _ _ => none

def Call.hooked : Call → Bool
  | .socket hook _ _ => hook
  | .accept hook _ => hook
  | .close hook _ => hook

/-- The numbers with a context: a hooked `socket` and every `accept` create
one, a hooked `close` deletes it. -/
def Call.holds (held : Nat → Bool) : Call → Nat → Bool
  | .socket true _ (some fd) => fun n => n = fd || held n
  | .accept _ (some fd) => fun n => n = fd || held n
  | .close true fd => fun n => n ≠ fd && held n
  | _ => held

/-- Every number with a context is closed by a hooked `close` before it is
opened again. -/
def Dropped (held : Nat → Bool) : List Call → Prop
  | [] => True
  | c :: cs =>
      (∀ fd ∈ c.opens, held fd = false) ∧ Dropped (c.holds held) cs

instance decidableDropped : ∀ (held : Nat → Bool) (cs : List Call),
    Decidable (Dropped held cs)
  | _, [] => isTrue trivial
  | held, c :: cs =>
      have : Decidable (Dropped (c.holds held) cs) := decidableDropped _ cs
      inferInstanceAs (Decidable (_ ∧ _))

/-! ## The property -/

/-- The context of an open file was created after the file was opened. -/
def Current (s : State) : Prop :=
  ∀ fd f c, s.file fd = some f → s.ctx fd = some c → f.serial < c.created

/-- The context is that of a new file: no timeouts, blocking for the user
and non-blocking in the kernel. -/
def Fresh (s : State) (fd : Nat) : Prop :=
  ∃ c f, s.ctx fd = some c ∧ s.file fd = some f ∧ c.recvTimeout = noTimeout ∧
    c.sendTimeout = noTimeout ∧ c.userNonblock = false ∧ f.nonblock = true

/-- A hooked call that opens a file leaves a fresh context. -/
def Call.LeavesFresh (c : Call) (s : State) : Prop :=
  ∀ fd ∈ c.opens, c.hooked = true → Fresh s fd

/-- The contexts are those of the open files in every state of the run, and
fresh behind every hooked call that opens one. -/
def ContextsCurrent (cs : List Call) : Prop :=
  ∀ pre s, pre <+: cs → run step {} pre = some s →
    Current s ∧ ∀ c, pre.getLast? = some c → c.LeavesFresh s

/-! ## One call -/

section Step

variable {s s' : State} {c : Call} {fd : Nat} {held : Nat → Bool}

/-- What a call can do. -/
theorem step_cases (h : step s c = some s') :
    (∃ fl fd, c = .socket false fl (some fd) ∧ s' = s.openSocket fd fl) ∨
    (∃ fl fd, (c = .socket true fl (some fd) ∨ ∃ hook, c = .accept hook (some fd)) ∧
      s' = (s.openSocket fd fl).getAutoCreate fd) ∨
    (∃ hook fd, c = .close hook fd ∧ s'.kernel = s.kernel.close fd ∧
      ∀ n, s'.ctx n = if hook = true ∧ n = fd then none else s.ctx n) ∨
    (c.opens = none ∧ (∀ held, c.holds held = held) ∧ s' = s) := by
  cases c with
  | socket hook fl fd =>
      cases fd with
      | none =>
          cases h
          cases hook <;> exact .inr (.inr (.inr ⟨rfl, fun _ => rfl, rfl⟩))
      | some fd =>
          simp only [step] at h
          split at h
          · cases h
          · cases hook
            · cases h
              exact .inl ⟨fl, fd, rfl, rfl⟩
            · cases h
              exact .inr (.inl ⟨fl, fd, .inl rfl, rfl⟩)
  | accept hook fd =>
      cases fd with
      | none =>
          cases h
          exact .inr (.inr (.inr ⟨rfl, fun _ => rfl, rfl⟩))
      | some fd =>
          simp only [step] at h
          split at h
          · cases h
          · cases h
            exact .inr (.inl ⟨0, fd, .inr ⟨hook, rfl⟩, rfl⟩)
  | close hook fd =>
      cases h
      refine .inr (.inr (.inl ⟨hook, fd, rfl, ?_, ?_⟩))
      · cases hook
        · rfl
        · simp only [if_true]
          split <;> rfl
      · intro n
        cases hook
        · rw [if_neg (by simp)]
          rfl
        · simp only [if_true, true_and]
          split
          · exact FdManager.get_del s.fdMgr fd n
          · rename_i hnone
            split
            · rename_i hn
              subst hn
              exact Option.not_isSome_iff_eq_none.mp hnone
            · rfl

theorem file_openSocket (fl : Flags) (n : Nat) :
    (s.openSocket fd fl).file n =
      if n = fd then some ⟨s.kernel.opened, true, fl⟩ else s.file n := rfl

theorem opened_openSocket (fl : Flags) :
    (s.openSocket fd fl).kernel.opened = s.kernel.opened + 1 := rfl

theorem ctx_getAutoCreate (n : Nat) :
    (s.getAutoCreate fd).ctx n =
      if n = fd ∧ s.ctx fd = none then some (.new s.kernel fd) else s.ctx n := by
  rw [State.getAutoCreate]
  cases hc : s.ctx fd with
  | some c => simp
  | none =>
      have := FdManager.get_store s.fdMgr fd (some (.new s.kernel fd)) n
      simpa [State.ctx] using this

theorem initSocket_opened {k : Kernel} : (k.initSocket fd).opened = k.opened := by
  rw [Kernel.initSocket]
  split
  · rfl
  · split
    · rw [Kernel.setfl]
      split <;> rfl
    · rfl

theorem initSocket_serial {k : Kernel} (n : Nat) :
    ((k.initSocket fd).files n).map File.serial = (k.files n).map File.serial := by
  rw [Kernel.initSocket]
  cases hf : k.files fd with
  | none => rfl
  | some f =>
      simp only
      split
      · simp only [Kernel.setfl, hf, Kernel.files_put]
        split
        · rename_i hn
          rw [hn, hf]
          rfl
        · rfl
      · rfl

theorem opened_getAutoCreate : (s.getAutoCreate fd).kernel.opened = s.kernel.opened := by
  rw [State.getAutoCreate]
  split
  · rfl
  · exact initSocket_opened

theorem serial_getAutoCreate (n : Nat) :
    ((s.getAutoCreate fd).file n).map File.serial = (s.file n).map File.serial := by
  rw [State.getAutoCreate]
  split
  · rfl
  · exact initSocket_serial n

/-- What the calls so far say of the state: which numbers have a context,
and that no file or context is younger than the last open. -/
structure Holds (held : Nat → Bool) (s : State) : Prop where
  ctx : ∀ fd, (s.ctx fd).isSome = held fd
  file : ∀ fd n, (s.file fd).map File.serial = some n → n < s.kernel.opened
  created : ∀ fd c, s.ctx fd = some c → c.created ≤ s.kernel.opened

theorem holds_openSocket (h : Holds held s) (fl : Flags) :
    Holds held (s.openSocket fd fl) where
  ctx := h.ctx
  file n i hi := by
    rw [file_openSocket] at hi
    rw [opened_openSocket]
    split at hi
    · cases hi
      exact Nat.lt_succ_self _
    · exact Nat.lt_trans (h.file n i hi) (Nat.lt_succ_self _)
  created n c hc := Nat.le_trans (h.created n c hc) (Nat.le_succ _)

theorem holds_getAutoCreate (h : Holds held s) :
    Holds (fun n => n = fd || held n) (s.getAutoCreate fd) where
  ctx n := by
    rw [ctx_getAutoCreate]
    by_cases hn : n = fd
    · subst hn
      by_cases hc : s.ctx n = none
      · simp [hc]
      · simpa [hc] using Option.isSome_iff_ne_none.mpr hc
    · simpa [hn] using h.ctx n
  file n i hi := by
    rw [serial_getAutoCreate] at hi
    rw [opened_getAutoCreate]
    exact h.file n i hi
  created n c hc := by
    rw [ctx_getAutoCreate] at hc
    rw [opened_getAutoCreate]
    split at hc
    · cases hc
      exact Nat.le_refl _
    · exact h.created n c hc

theorem step_holds (h : Holds held s) (hs : step s c = some s') :
    Holds (c.holds held) s' := by
  rcases step_cases hs with ⟨fl, fd, rfl, rfl⟩ | ⟨fl, fd, hc, rfl⟩ |
    ⟨hook, fd, rfl, hk, hctx⟩ | ⟨-, hh, rfl⟩
  · exact holds_openSocket h fl
  · have : Holds (fun n => n = fd || held n) ((s.openSocket fd fl).getAutoCreate fd) :=
      holds_getAutoCreate (holds_openSocket h fl)
    rcases hc with rfl | ⟨hook, rfl⟩ <;> exact this
  · constructor
    · intro n
      rw [hctx n]
      cases hook
      · simpa [Call.holds] using h.ctx n
      · by_cases hn : n = fd
        · simp [Call.holds, hn]
        · simpa [Call.holds, hn] using h.ctx n
    · intro n i hi
      rw [State.file, hk, Kernel.close, Kernel.files_put] at hi
      rw [hk]
      split at hi
      · cases hi
      · exact h.file n i hi
    · intro n c hc
      rw [hctx n] at hc
      rw [hk]
      split at hc
      · cases hc
      · exact h.created n c hc
  · rw [hh held]
    exact h

/-- A file that is opened over a context is younger than the context. -/
theorem not_current_of_held (h : Holds held s) (hs : step s c = some s')
    (hfd : fd ∈ c.opens) (hheld : held fd = true) : ¬Current s' := by
  intro hcur
  obtain ⟨x, hx⟩ := Option.isSome_iff_exists.mp ((h.ctx fd).trans hheld)
  have hold := h.created fd x hx
  rcases step_cases hs with ⟨fl, n, rfl, rfl⟩ | ⟨fl, n, hc, rfl⟩ |
    ⟨hook, n, rfl, -, -⟩ | ⟨hopen, -, -⟩
  · cases hfd
    have := hcur fd _ x (if_pos rfl) hx
    exact absurd this (Nat.not_lt.mpr hold)
  · obtain rfl : n = fd := by
      rcases hc with rfl | ⟨hook, rfl⟩ <;> cases hfd <;> rfl
    have hsome : (s.openSocket n fl).ctx n = some x := hx
    have hsame : (s.openSocket n fl).getAutoCreate n = s.openSocket n fl := by
      rw [State.getAutoCreate, hsome]
      rfl
    rw [hsame] at hcur
    have := hcur n _ x (if_pos rfl) hx
    exact absurd this (Nat.not_lt.mpr hold)
  · cases hfd
  · rw [hopen] at hfd
    cases hfd

/-- **A number without a context may be opened**: the contexts stay current,
and a hooked call leaves a fresh one. -/
theorem step_current (h : Holds held s) (hcur : Current s)
    (hs : step s c = some s') (hfree : ∀ fd ∈ c.opens, held fd = false) :
    Current s' ∧ c.LeavesFresh s' := by
  have hnone : ∀ fd ∈ c.opens, s.ctx fd = none := by
    intro fd hfd
    have := (h.ctx fd).trans (hfree fd hfd)
    simpa using this
  have hopened : ∀ fl fd, s.ctx fd = none → Current (s.openSocket fd fl) := by
    intro fl fd hn n f x hf hx
    rw [file_openSocket] at hf
    split at hf
    · rename_i hnfd
      subst hnfd
      rw [show s.ctx n = some x from hx] at hn
      cases hn
    · exact hcur n f x hf hx
  rcases step_cases hs with ⟨fl, fd, rfl, rfl⟩ | ⟨fl, fd, hc, rfl⟩ |
    ⟨hook, fd, rfl, hk, hctx⟩ | ⟨hopen, -, rfl⟩
  · exact ⟨hopened fl fd (hnone fd rfl), fun _ _ hh => by cases hh⟩
  · have hopens : c.opens = some fd := by rcases hc with rfl | ⟨hook, rfl⟩ <;> rfl
    have hn := hnone fd hopens
    obtain ⟨hnew, f', hf', hserial, -, hnb⟩ := getAutoCreate_new
      (s := s.openSocket fd fl) hn (if_pos rfl) rfl
    constructor
    · intro n f x hf hx
      by_cases hnfd : n = fd
      · subst hnfd
        rw [hf'] at hf
        rw [hnew] at hx
        cases hf
        cases hx
        rw [hserial]
        exact Nat.lt_succ_self _
      · have hfn : (((s.openSocket fd fl).getAutoCreate fd).file n).map File.serial =
            ((s.openSocket fd fl).file n).map File.serial := serial_getAutoCreate n
        rw [hf, Option.map_some] at hfn
        obtain ⟨g, hg, hgs⟩ := Option.map_eq_some_iff.mp hfn.symm
        rw [ctx_getAutoCreate, if_neg (by simp [hnfd])] at hx
        rw [← hgs]
        exact hopened fl fd hn n g x hg hx
    · intro n hn' _
      rw [hopens] at hn'
      cases hn'
      exact ⟨_, f', hnew, hf', rfl, rfl, rfl, hnb⟩
  · refine ⟨?_, fun _ hn _ => by cases hn⟩
    intro n f x hf hx
    rw [State.file, hk, Kernel.close, Kernel.files_put] at hf
    rw [hctx n] at hx
    split at hf
    · cases hf
    · split at hx
      · cases hx
      · exact hcur n f x hf hx
  · exact ⟨hcur, fun _ hn _ => by rw [hopen] at hn; cases hn⟩

end Step

/-! ## Runs -/

theorem current_iff {s : State} {held : Nat → Bool} {cs : List Call}
    (hinv : Holds held s) (hcur : Current s) (hrun : (run step s cs).isSome) :
    (∀ pre s', pre <+: cs → run step s pre = some s' →
      Current s' ∧ ∀ c, pre.getLast? = some c → c.LeavesFresh s') ↔
    Dropped held cs := by
  induction cs generalizing s held with
  | nil =>
      refine ⟨fun _ => trivial, fun _ pre s' hpre hs => ?_⟩
      obtain rfl := List.prefix_nil.mp hpre
      cases hs
      exact ⟨hcur, by simp⟩
  | cons c cs ih =>
      obtain ⟨s', hs'⟩ := Option.isSome_iff_exists.mp hrun
      obtain ⟨s₁, h1, h2⟩ := Option.bind_eq_some_iff.mp hs'
      have hinv₁ := step_holds hinv h1
      have hrun₁ : (run step s₁ cs).isSome := Option.isSome_iff_exists.mpr ⟨s', h2⟩
      have hone : run step s [c] = some s₁ := by simp [h1]
      constructor
      · intro hall
        have hc := hall [c] s₁ ⟨cs, rfl⟩ hone
        refine ⟨fun fd hfd => ?_, ?_⟩
        · by_contra hne
          exact not_current_of_held hinv h1 hfd (by simpa using hne) hc.1
        · refine (ih hinv₁ hc.1 hrun₁).mp fun pre t hpre ht => ?_
          have hct := hall (c :: pre) t (List.cons_prefix_cons.mpr ⟨rfl, hpre⟩)
            (by simp [h1, ht])
          refine ⟨hct.1, fun c' hc' => hct.2 c' ?_⟩
          rw [List.getLast?_cons, hc']
          rfl
      · rintro ⟨hfree, hdrop⟩ pre t hpre ht
        obtain ⟨hcur₁, hfresh⟩ := step_current hinv hcur h1 hfree
        cases pre with
        | nil =>
            cases ht
            exact ⟨hcur, by simp⟩
        | cons c' pre =>
            obtain ⟨rfl, hpre'⟩ := List.cons_prefix_cons.mp hpre
            have ht' : run step s₁ pre = some t := by simpa [h1] using ht
            obtain ⟨h3, h4⟩ := (ih hinv₁ hcur₁ hrun₁).mpr hdrop pre t hpre' ht'
            refine ⟨h3, fun x hx => ?_⟩
            cases pre with
            | nil =>
                cases hx
                cases ht'
                exact hfresh
            | cons d pre => exact h4 x (by simpa [List.getLast?_cons] using hx)

/-- **The contexts are those of the open files exactly if every number with
a context is closed by a hooked `close` before it is opened again.** -/
theorem contexts_current_iff (cs : List Call) (h : (run step {} cs).isSome) :
    ContextsCurrent cs ↔ Dropped (fun _ => false) cs := by
  have hnone : ∀ fd, ({} : State).ctx fd = none := by
    intro fd
    show (List.replicate 64 none)[fd]?.join = none
    rw [List.getElem?_replicate]
    split <;> rfl
  refine current_iff ⟨?_, ?_, ?_⟩ ?_ h
  · intro fd
    rw [hnone fd]
    rfl
  · intro fd n hn
    cases hn
  · intro fd c hc
    rw [hnone fd] at hc
    cases hc
  · intro fd f c hf
    cases hf

/-- A listening thread accepts 5, closes it and accepts it again. -/
def acceptTwice : List Call :=
  [.socket true 0 (some 4), .accept true (some 5), .close true 5,
   .accept true (some 5)]

theorem acceptTwice_current : ContextsCurrent acceptTwice :=
  (contexts_current_iff acceptTwice (by decide)).mpr (by decide)

/-- The same, but 5 is closed by a thread whose hook is not enabled: the
second `accept` is given the first one's context, and leaves the new socket
blocking. -/
theorem unhooked_close_keeps_context :
    ¬∀ cs : List Call, (run step {} cs).isSome → ContextsCurrent cs := by
  intro h
  have hcur := h [.accept true (some 5), .close false 5, .accept true (some 5)]
    (by decide)
  obtain ⟨s, hs⟩ := Option.isSome_iff_exists.mp (show (run step {}
    [.accept true (some 5), .close false 5, .accept true (some 5)]).isSome by decide)
  obtain ⟨-, hfresh⟩ := hcur _ s (List.prefix_refl _) hs
  obtain ⟨c, f, -, hf, -, -, -, hnb⟩ := hfresh _ rfl 5 rfl rfl
  have hoff : (run step {} [.accept true (some 5), .close false 5,
      .accept true (some 5)]).map (fun s => (s.file 5).map File.nonblock) =
      some (some false) := by decide
  rw [hs, Option.map_some, hf, Option.map_some, hnb] at hoff
  cases hoff

end Hps.Hook
