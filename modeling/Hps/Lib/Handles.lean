import Mathlib.Data.Set.Basic
import Mathlib.Logic.Function.Basic
import Hps.Lib.Run

/-!
# Programs that own handles

A program makes calls of a kernel, which opens handles for it, closes them and
works on them. `Safe` says of a program that owns some handles that each of its
calls is about a handle it owns, whatever other programs do to theirs between
its calls. Programs are put together by `Safe.bind` and `Safe.frame`. If each of
a family of programs is safe with handles of its own, then in every
interleaving each call is about a handle of its caller alone, and the handles
that are open are those that are owned (`run_shares`).
-/

namespace Hps.Lib

/-! ## Programs -/

/-- A program that makes calls, and goes on with their answers. -/
inductive Prog (κ : Type) (ρ : κ → Type) (α : Type) where
  | ret (a : α)
  | call (c : κ) (k : ρ c → Prog κ ρ α)

namespace Prog

variable {κ : Type} {ρ : κ → Type} {α β : Type}

def bind : Prog κ ρ α → (α → Prog κ ρ β) → Prog κ ρ β
  | ret a, f => f a
  | call c k, f => call c fun r => (k r).bind f

instance : Monad (Prog κ ρ) where
  pure := ret
  bind := bind

/-- The program of one call. -/
def send (c : κ) : Prog κ ρ (ρ c) := call c ret

@[simp] theorem pure_eq (a : α) : (pure a : Prog κ ρ α) = ret a := rfl

@[simp] theorem ret_bind (a : α) (f : α → Prog κ ρ β) : ret a >>= f = f a := rfl

@[simp] theorem send_bind (c : κ) (f : ρ c → Prog κ ρ β) : send c >>= f = call c f := rfl

end Prog

/-! ## The kernel -/

/-- What calls do: the answers they can get in a state, and what they open and
close. `target` is the handle a call is about, and `view` what the kernel has of
a handle. -/
structure Kernel (κ : Type) (ρ : κ → Type) (σ η ν : Type) where
  answer : σ → (c : κ) → ρ c → Option σ
  Open : σ → η → Prop
  view : σ → η → ν
  target : κ → Option η
  closes : κ → Prop
  opens : (c : κ) → ρ c → Option η

namespace Kernel

variable {κ : Type} {ρ : κ → Type} {σ η ν α β ι : Type}

/-- A call opens a handle that is not open, closes the one it is about, and
leaves alone what the kernel has of the others. `Inv` holds of every state. -/
structure Lawful (K : Kernel κ ρ σ η ν) (Inv : σ → Prop) : Prop where
  inv : ∀ {s c r s'}, Inv s → K.answer s c r = some s' → Inv s'
  open_iff : ∀ {s c r s'} h, K.answer s c r = some s' →
    (K.Open s' h ↔ K.Open s h ∧ ¬(K.closes c ∧ K.target c = some h) ∨ K.opens c r = some h)
  fresh : ∀ {s c r s' h}, K.answer s c r = some s' → K.opens c r = some h → ¬K.Open s h
  view_eq : ∀ {s c r s' h}, K.answer s c r = some s' → K.Open s h → K.target c ≠ some h →
    K.view s' h = K.view s h

variable (K : Kernel κ ρ σ η ν) (Inv : σ → Prop)

/-- What is owned behind a call. -/
def after (own : Set η) (c : κ) (r : ρ c) : Set η :=
  {h | h ∈ own ∧ ¬(K.closes c ∧ K.target c = some h) ∨ K.opens c r = some h}

/-- What a program can rely on while others make their calls. -/
def Rely (own : Set η) (s s' : σ) : Prop :=
  Inv s' ∧ ∀ h ∈ own, K.Open s' h ∧ K.view s' h = K.view s h

/-- Every call of the program is about a handle it owns then, and what it ends
with and what it owns at the end are as wanted. -/
def Safe (post : α → Set η → Prop) : Prog κ ρ α → Set η → σ → Prop
  | .ret a, own, _ => post a own
  | .call c k, own, s =>
      (∀ h, K.target c = some h → h ∈ own) ∧
        ∀ s₁, K.Rely Inv own s s₁ → ∀ r s₂, K.answer s₁ c r = some s₂ →
          Safe post (k r) (K.after own c r) s₂

variable {K Inv} {post : α → Set η → Prop} {own : Set η} {s s' : σ}

theorem Rely.trans {s'' : σ} (h : K.Rely Inv own s s') (h' : K.Rely Inv own s' s'') :
    K.Rely Inv own s s'' :=
  ⟨h'.1, fun x hx => ⟨(h'.2 x hx).1, (h'.2 x hx).2.trans (h.2 x hx).2⟩⟩

theorem Rely.mono {own' : Set η} (h : K.Rely Inv own s s') (hsub : own' ⊆ own) :
    K.Rely Inv own' s s' :=
  ⟨h.1, fun x hx => h.2 x (hsub hx)⟩

/-- A program stays safe while others make their calls. -/
theorem Safe.rely {p : Prog κ ρ α} (h : K.Safe Inv post p own s) (hr : K.Rely Inv own s s') :
    K.Safe Inv post p own s' := by
  cases p with
  | ret a => exact h
  | call c k => exact ⟨h.1, fun s₁ h₁ => h.2 s₁ (hr.trans h₁)⟩

/-- One program behind another. -/
theorem Safe.bind {post' : β → Set η → Prop} {p : Prog κ ρ α} {f : α → Prog κ ρ β}
    (h : K.Safe Inv post p own s)
    (hf : ∀ a own' s', post a own' → K.Safe Inv post' (f a) own' s') :
    K.Safe Inv post' (p >>= f) own s := by
  induction p generalizing own s with
  | ret a => exact hf a own s h
  | call c k ih =>
      refine ⟨h.1, fun s₁ h₁ r s₂ h₂ => ?_⟩
      exact ih r (h.2 s₁ h₁ r s₂ h₂)

theorem Safe.mono {post' : α → Set η → Prop} {p : Prog κ ρ α} (h : K.Safe Inv post p own s)
    (hpost : ∀ a own', post a own' → post' a own') : K.Safe Inv post' p own s := by
  induction p generalizing own s with
  | ret a => exact hpost a own h
  | call c k ih =>
      refine ⟨h.1, fun s₁ h₁ r s₂ h₂ => ?_⟩
      exact ih r (h.2 s₁ h₁ r s₂ h₂)

/-- **The frame rule**: a program that owns more does not touch it. -/
theorem Safe.frame {F : Set η} (hK : K.Lawful Inv) {p : Prog κ ρ α}
    (h : K.Safe Inv post p own s) (hdisj : ∀ x ∈ F, x ∉ own) :
    K.Safe Inv (fun a own' => ∃ o, post a o ∧ own' = o ∪ F ∧ ∀ x ∈ F, x ∉ o) p (own ∪ F) s := by
  induction p generalizing own s with
  | ret a => exact ⟨own, h, rfl, hdisj⟩
  | call c k ih =>
      refine ⟨fun x hx => Or.inl (h.1 x hx), fun s₁ h₁ r s₂ h₂ => ?_⟩
      have hnew : ∀ x ∈ F, K.opens c r ≠ some x := by
        intro x hx hopens
        exact hK.fresh h₂ hopens (h₁.2 x (Or.inr hx)).1
      have hafter : K.after (own ∪ F) c r = K.after own c r ∪ F := by
        ext x
        simp only [after, Set.mem_union, Set.mem_ofPred_eq]
        constructor
        · rintro (⟨hown | hF, hnot⟩ | hopens)
          · exact Or.inl (Or.inl ⟨hown, hnot⟩)
          · exact Or.inr hF
          · exact Or.inl (Or.inr hopens)
        · rintro ((⟨hown, hnot⟩ | hopens) | hF)
          · exact Or.inl ⟨Or.inl hown, hnot⟩
          · exact Or.inr hopens
          · exact Or.inl ⟨Or.inr hF, fun hc => hdisj x hF (h.1 x hc.2)⟩
      rw [hafter]
      refine ih r (h.2 s₁ (h₁.mono Set.subset_union_left) r s₂ h₂) ?_
      rintro x hx (⟨hown, -⟩ | hopens)
      · exact hdisj x hx hown
      · exact hnew x hx hopens

/-! ## Programs side by side -/

variable {μ : Type} [DecidableEq ι]

/-- A kernel, and the programs that run over it. -/
structure System (κ : Type) (ρ : κ → Type) (σ ι α : Type) where
  kernel : σ
  progs : ι → Prog κ ρ α

/-- A program that has ended goes on with another one, or one that makes a call
gets an answer. -/
inductive Act (κ : Type) (ρ : κ → Type) (ι μ : Type) where
  | start (i : ι) (m : μ)
  | answer (i : ι) (r : ∀ c, ρ c)

variable (K) in
/-- One action; `next` is the program that follows on what one has ended with. -/
def step (next : μ → α → Option (Prog κ ρ α)) (S : System κ ρ σ ι α) :
    Act κ ρ ι μ → Option (System κ ρ σ ι α)
  | .start i m =>
      match S.progs i with
      | .ret a => (next m a).map fun p => { S with progs := Function.update S.progs i p }
      | .call _ _ => none
  | .answer i r =>
      match S.progs i with
      | .ret _ => none
      | .call c k => (K.answer S.kernel c (r c)).map fun s =>
          { kernel := s, progs := Function.update S.progs i (k (r c)) }

variable (K Inv) in
/-- The programs are safe, each with handles of its own, and these are the
handles that are open. -/
structure Shares (post : α → Set η → Prop) (own : ι → Set η) (S : System κ ρ σ ι α) :
    Prop where
  safe : ∀ i, K.Safe Inv post (S.progs i) (own i) S.kernel
  apart : ∀ i j h, h ∈ own i → h ∈ own j → i = j
  open_iff : ∀ h, K.Open S.kernel h ↔ ∃ i, h ∈ own i
  inv : Inv S.kernel

variable {next : μ → α → Option (Prog κ ρ α)} {S S' : System κ ρ σ ι α} {owns : ι → Set η}

/-- **One call**: its caller owns what `after` says, the others what they did. -/
theorem Shares.answer (hK : K.Lawful Inv) (h : K.Shares Inv post owns S) {i : ι} {c : κ}
    {k : ρ c → Prog κ ρ α} (hi : S.progs i = .call c k) {r : ρ c} {s : σ}
    (hs : K.answer S.kernel c r = some s) :
    K.Shares Inv post (Function.update owns i (K.after (owns i) c r))
      { kernel := s, progs := Function.update S.progs i (k r) } := by
  have hsafe := h.safe i
  rw [hi] at hsafe
  have hrefl : ∀ j, K.Rely Inv (owns j) S.kernel S.kernel :=
    fun j => ⟨h.inv, fun x hx => ⟨(h.open_iff x).mpr ⟨j, hx⟩, rfl⟩⟩
  have hother : ∀ {j x}, j ≠ i → x ∈ owns j → K.target c ≠ some x ∧ K.opens c r ≠ some x := by
    intro j x hj hx
    refine ⟨fun ht => hj (h.apart j i x hx (hsafe.1 x ht)), fun ho => ?_⟩
    exact hK.fresh hs ho ((h.open_iff x).mpr ⟨j, hx⟩)
  have hopen : ∀ {j x}, j ≠ i → x ∈ owns j → K.Open s x := by
    intro j x hj hx
    refine (hK.open_iff x hs).mpr (Or.inl ⟨(h.open_iff x).mpr ⟨j, hx⟩, fun hc => ?_⟩)
    exact (hother hj hx).1 hc.2
  constructor
  · intro j
    by_cases hj : j = i
    · subst hj
      dsimp only
      rw [Function.update_self, Function.update_self]
      exact hsafe.2 S.kernel (hrefl j) r s hs
    · dsimp only
      rw [Function.update_of_ne hj, Function.update_of_ne hj]
      refine (h.safe j).rely ⟨hK.inv h.inv hs, fun x hx => ⟨hopen hj hx, ?_⟩⟩
      exact hK.view_eq hs ((h.open_iff x).mpr ⟨j, hx⟩) (hother hj hx).1
  · -- what `i` owns now is not owned by others
    have hi' : ∀ {j x}, j ≠ i → x ∈ K.after (owns i) c r → x ∉ owns j := by
      rintro j x hj (⟨hx, -⟩ | ho) hxj
      · exact hj (h.apart j i x hxj hx)
      · exact (hother hj hxj).2 ho
    intro j j' x hx hx'
    by_cases hj : j = i <;> by_cases hj' : j' = i
    · rw [hj, hj']
    · subst hj
      rw [Function.update_self] at hx
      rw [Function.update_of_ne hj'] at hx'
      exact absurd hx' (hi' hj' hx)
    · subst hj'
      rw [Function.update_self] at hx'
      rw [Function.update_of_ne hj] at hx
      exact absurd hx (hi' hj hx')
    · rw [Function.update_of_ne hj] at hx
      rw [Function.update_of_ne hj'] at hx'
      exact h.apart j j' x hx hx'
  · intro x
    rw [hK.open_iff x hs]
    constructor
    · rintro (⟨hx, hnot⟩ | ho)
      · obtain ⟨j, hj⟩ := (h.open_iff x).mp hx
        refine ⟨j, ?_⟩
        by_cases hji : j = i
        · subst hji
          rw [Function.update_self]
          exact Or.inl ⟨hj, hnot⟩
        · rwa [Function.update_of_ne hji]
      · exact ⟨i, by rw [Function.update_self]; exact Or.inr ho⟩
    · rintro ⟨j, hj⟩
      by_cases hji : j = i
      · subst hji
        rw [Function.update_self] at hj
        obtain ⟨hx, hnot⟩ | ho := hj
        · exact Or.inl ⟨(h.open_iff x).mpr ⟨j, hx⟩, hnot⟩
        · exact Or.inr ho
      · rw [Function.update_of_ne hji] at hj
        exact (hK.open_iff x hs).mp (hopen hji hj)
  · exact hK.inv h.inv hs

/-- **One action** of a family whose programs go on as they may. -/
theorem Shares.step (hK : K.Lawful Inv) (h : K.Shares Inv post owns S) {a : Act κ ρ ι μ}
    (hnext : ∀ {i m b p}, a = .start i m → S.progs i = .ret b → next m b = some p →
      post b (owns i) → K.Safe Inv post p (owns i) S.kernel)
    (hs : K.step next S a = some S') : ∃ owns', K.Shares Inv post owns' S' := by
  cases a with
  | start i m =>
      simp only [Kernel.step] at hs
      split at hs
      · rename_i b hb
        obtain ⟨p, hp, rfl⟩ := Option.map_eq_some_iff.mp hs
        refine ⟨owns, ?_, h.apart, h.open_iff, h.inv⟩
        intro j
        by_cases hj : j = i
        · subst hj
          dsimp only
          rw [Function.update_self]
          have hpost := h.safe j
          rw [hb] at hpost
          exact hnext rfl hb hp hpost
        · dsimp only
          rw [Function.update_of_ne hj]
          exact h.safe j
      · cases hs
  | answer i r =>
      simp only [Kernel.step] at hs
      split at hs
      · cases hs
      · rename_i c k hc
        obtain ⟨s, hans, rfl⟩ := Option.map_eq_some_iff.mp hs
        exact ⟨_, h.answer hK hc hans⟩

/-- **The rule for interleavings.** If what follows on an end is safe with what
was owned there, then in every state of a run the open handles are shared out
among the programs. `ok` is what is asked of the starts. -/
theorem run_shares (hK : K.Lawful Inv) {ok : System κ ρ σ ι α → Act κ ρ ι μ → Prop}
    (hnext : ∀ {S : System κ ρ σ ι α} {i m a p own}, S.progs i = .ret a → ok S (.start i m) →
      next m a = some p → post a own → K.Safe Inv post p own S.kernel)
    {as : List (Act κ ρ ι μ)} (h : K.Shares Inv post owns S)
    (hok : Meets (K.step next) ok S as) (hr : run (K.step next) S as = some S') :
    ∃ owns', K.Shares Inv post owns' S' := by
  have hstep : ∀ S a S', (∃ owns, K.Shares Inv post owns S) → ok S a →
      K.step next S a = some S' → ∃ owns, K.Shares Inv post owns S' := by
    rintro S a S' ⟨owns, h⟩ hoka hs
    refine h.step hK ?_ hs
    rintro i m b p rfl hb hp hpost
    exact hnext hb hoka hp hpost
  exact run_invariant hstep ⟨owns, h⟩ hok hr

end Kernel

end Hps.Lib
