import Mathlib.Data.List.Basic

/-!
# Runs of a partial step function

A system is a step function `step : σ → α → Option σ`: `none` says the
action is not enabled. `run` folds it over a list of actions, and `Meets`
says that every action of a run was taken in a state where a side
condition `ok` allows it. The rules below are the two inductions every
whole-run statement needs:

* `run_invariant` — what every allowed step keeps, every allowed run keeps;
* `always_iff_meets` — if `ok` is what a step needs to lead to a state that is
  as wanted, then all states of a run are as wanted exactly when the run meets
  `ok`;
* `meets_iff_related` — a preorder that one step respects exactly when `ok`
  holds relates any two states of a run exactly when the run meets `ok`.

What the steps give out is a list along the run (`outputs`), and what it has to
do with the states before and behind it is shown step by step (`run_outputs`).
-/

namespace Hps.Lib

variable {σ α : Type} {step : σ → α → Option σ} {ok : σ → α → Prop}

/-- The state after the actions, if every one of them is enabled. -/
def run (step : σ → α → Option σ) : σ → List α → Option σ
  | s, [] => some s
  | s, a :: as => (step s a).bind (run step · as)

/-- Every action of the run is taken in a state where `ok` allows it. -/
def Meets (step : σ → α → Option σ) (ok : σ → α → Prop) : σ → List α → Prop
  | _, [] => True
  | s, a :: as => ok s a ∧ ∀ s', step s a = some s' → Meets step ok s' as

instance decidableMeets [∀ s a, Decidable (ok s a)] :
    ∀ (s : σ) (as : List α), Decidable (Meets step ok s as)
  | _, [] => isTrue trivial
  | s, a :: as =>
      match hs : step s a with
      | none => decidable_of_iff (ok s a)
          ⟨fun h => ⟨h, fun s' h' => by rw [hs] at h'; cases h'⟩, fun h => h.1⟩
      | some s₁ =>
          have : Decidable (Meets step ok s₁ as) := decidableMeets s₁ as
          decidable_of_iff (ok s a ∧ Meets step ok s₁ as)
            ⟨fun h => ⟨h.1, fun s' h' => by rw [hs] at h'; cases h'; exact h.2⟩,
             fun h => ⟨h.1, h.2 s₁ hs⟩⟩

@[simp] theorem run_nil (s : σ) : run step s [] = some s := rfl

@[simp] theorem run_cons (s : σ) (a : α) (as : List α) :
    run step s (a :: as) = (step s a).bind (run step · as) := rfl

theorem run_append (s : σ) (as bs : List α) :
    run step s (as ++ bs) = (run step s as).bind (run step · bs) := by
  induction as generalizing s with
  | nil => rfl
  | cons a as ih =>
      cases hs : step s a with
      | none => simp [hs]
      | some s' => simp [hs, ih]

theorem Meets.append {s m : σ} {as bs : List α}
    (h : Meets step ok s (as ++ bs)) (hm : run step s as = some m) :
    Meets step ok s as ∧ Meets step ok m bs := by
  induction as generalizing s with
  | nil =>
      cases hm
      exact ⟨trivial, h⟩
  | cons a as ih =>
      obtain ⟨s₁, hs, hr⟩ := Option.bind_eq_some_iff.mp hm
      obtain ⟨ha, hrest⟩ := h
      obtain ⟨h1, h2⟩ := ih (hrest s₁ hs) hr
      refine ⟨⟨ha, ?_⟩, h2⟩
      intro s' hs'
      rw [hs] at hs'
      cases hs'
      exact h1

/-- A condition on the actions alone joins the side condition. -/
theorem Meets.and_forall {P : α → Prop} {s : σ} {as : List α}
    (h : Meets step ok s as) (hP : ∀ a ∈ as, P a) :
    Meets step (fun s a => ok s a ∧ P a) s as := by
  induction as generalizing s with
  | nil => trivial
  | cons a as ih =>
      refine ⟨⟨h.1, hP a List.mem_cons_self⟩, ?_⟩
      intro s' hs
      exact ih (h.2 s' hs) fun b hb => hP b (List.mem_cons_of_mem a hb)

/-- Side conditions that agree wherever an invariant holds, which they may
help to keep. -/
theorem Meets.congr {ok' : σ → α → Prop} {Inv : σ → Prop}
    (hstep : ∀ s a s', Inv s → ok s a → step s a = some s' → Inv s')
    (hok : ∀ s a, Inv s → (ok s a ↔ ok' s a)) {s : σ} {as : List α} (hs : Inv s) :
    Meets step ok s as ↔ Meets step ok' s as := by
  induction as generalizing s with
  | nil => exact Iff.rfl
  | cons a as ih =>
      refine (and_congr_right fun ha => ?_).trans (and_congr_left' (hok s a hs))
      refine forall_congr' fun s' => forall_congr' fun h => ?_
      exact ih (hstep s a s' hs ha h)

/-- **The invariant rule**: what every allowed step keeps, every allowed
run keeps. -/
theorem run_invariant {Inv : σ → Prop}
    (hstep : ∀ s a s', Inv s → ok s a → step s a = some s' → Inv s')
    {s s' : σ} {as : List α} (hs : Inv s) (hok : Meets step ok s as)
    (hr : run step s as = some s') : Inv s' := by
  induction as generalizing s with
  | nil =>
      cases hr
      exact hs
  | cons a as ih =>
      obtain ⟨s₁, h1, h2⟩ := Option.bind_eq_some_iff.mp hr
      exact ih (hstep s a s₁ hs hok.1 h1) (hok.2 s₁ h1) h2

/-- The invariant rule with no side condition. -/
theorem run_invariant' {Inv : σ → Prop}
    (hstep : ∀ s a s', Inv s → step s a = some s' → Inv s')
    {s s' : σ} {as : List α} (hs : Inv s)
    (hr : run step s as = some s') : Inv s' := by
  induction as generalizing s with
  | nil =>
      cases hr
      exact hs
  | cons a as ih =>
      obtain ⟨s₁, h1, h2⟩ := Option.bind_eq_some_iff.mp hr
      exact ih (hstep s a s₁ hs h1) h2

/-- The invariant rule with the actions that were taken. -/
theorem run_history {Inv : List α → σ → Prop}
    (hstep : ∀ bs s a s', Inv bs s → step s a = some s' → Inv (bs ++ [a]) s')
    {bs : List α} {s s' : σ} {as : List α} (hs : Inv bs s) (hr : run step s as = some s') :
    Inv (bs ++ as) s' := by
  induction as generalizing bs s with
  | nil =>
      cases hr
      rwa [List.append_nil]
  | cons a as ih =>
      obtain ⟨s₁, h1, h2⟩ := Option.bind_eq_some_iff.mp hr
      have hrest := ih (hstep bs s a s₁ hs h1) h2
      rwa [List.append_assoc, List.singleton_append] at hrest

/-- A side condition that follows from another one wherever an invariant holds,
which that one keeps. -/
theorem Meets.imp {ok' : σ → α → Prop} {Inv : σ → Prop}
    (hstep : ∀ s a s', Inv s → ok s a → step s a = some s' → Inv s')
    (hok : ∀ s a, Inv s → ok s a → ok' s a) {s : σ} {as : List α} (hs : Inv s)
    (h : Meets step ok s as) : Meets step ok' s as := by
  induction as generalizing s with
  | nil => trivial
  | cons a as ih =>
      refine ⟨hok s a hs h.1, fun s' hs' => ?_⟩
      exact ih (hstep s a s' hs h.1 hs') (h.2 s' hs')

/-- `P` holds in every state of the run. -/
def Always (step : σ → α → Option σ) (P : σ → Prop) (s : σ) (as : List α) : Prop :=
  ∀ (pre post : List α) (s' : σ), as = pre ++ post → run step s pre = some s' → P s'

theorem Always.tail {P : σ → Prop} {s s₁ : σ} {a : α} {as : List α}
    (h : Always step P s (a :: as)) (hs : step s a = some s₁) : Always step P s₁ as := by
  intro pre post s' has hr
  refine h (a :: pre) post s' (by rw [has, List.cons_append]) ?_
  rw [run_cons, hs]
  exact hr

/-- **The exactness rule for states**: if `ok` keeps the invariant, and is
needed for a step to lead to a state with `P`, then the states of a run all
have `P` exactly when the run meets `ok`. -/
theorem always_iff_meets {P Inv : σ → Prop}
    (hinv : ∀ s a s', Inv s → ok s a → step s a = some s' → Inv s')
    (hP : ∀ s, Inv s → P s)
    (hok : ∀ s a, Inv s → (∀ s', step s a = some s' → P s') → ok s a)
    {s : σ} {as : List α} (hs : Inv s) :
    Always step P s as ↔ Meets step ok s as := by
  constructor
  · intro h
    induction as generalizing s with
    | nil => trivial
    | cons a as ih =>
        have ha : ok s a := hok s a hs fun s' hs' =>
          h [a] as s' rfl (by rw [run_cons, hs']; rfl)
        exact ⟨ha, fun s' hs' => ih (hinv s a s' hs ha hs') (h.tail hs')⟩
  · intro h pre post s' has hr
    rw [has] at h
    exact hP s' (run_invariant hinv hs (h.append hr).1 hr)

/-- `R` relates any earlier state of the run to any later one. -/
def Related (step : σ → α → Option σ) (R : σ → σ → Prop) (s : σ)
    (as : List α) : Prop :=
  ∀ (pre mid post : List α) (s₁ s₂ : σ), as = pre ++ mid ++ post →
    run step s pre = some s₁ → run step s₁ mid = some s₂ → R s₁ s₂

theorem related_of_meets {R : σ → σ → Prop} {Inv : σ → Prop}
    (hrefl : ∀ s, R s s) (htrans : ∀ {s t u}, R s t → R t u → R s u)
    (hinv : ∀ s a s', Inv s → step s a = some s' → Inv s')
    (hstep : ∀ s a s', Inv s → ok s a → step s a = some s' → R s s')
    {s : σ} {as : List α} (hs : Inv s) (hok : Meets step ok s as) :
    Related step R s as := by
  intro pre mid post s₁ s₂ has h1 h2
  subst has
  have h12 : run step s (pre ++ mid) = some s₂ := by
    rw [run_append, h1]
    exact h2
  have hmid := ((hok.append h12).1.append h1).2
  have hs1 : Inv s₁ := run_invariant' hinv hs h1
  clear h1 h12 hok
  -- the step relation chains along `mid`
  induction mid generalizing s₁ with
  | nil =>
      cases h2
      exact hrefl _
  | cons a mid ih =>
      obtain ⟨t, ht, htr⟩ := Option.bind_eq_some_iff.mp h2
      exact htrans (hstep s₁ a t hs1 hmid.1 ht)
        (ih t htr (hmid.2 t ht) (hinv s₁ a t hs1 ht))

/-- **The exactness rule**: if one step respects the preorder `R` exactly
when `ok` allows it, then `R` holds between any two states of a run exactly
when the run meets `ok`. -/
theorem meets_iff_related {R : σ → σ → Prop} {Inv : σ → Prop}
    (hrefl : ∀ s, R s s) (htrans : ∀ {s t u}, R s t → R t u → R s u)
    (hinv : ∀ s a s', Inv s → step s a = some s' → Inv s')
    (hstep : ∀ s a s', Inv s → step s a = some s' → (R s s' ↔ ok s a))
    {s s' : σ} {as : List α} (hs : Inv s) (hr : run step s as = some s') :
    Related step R s as ↔ Meets step ok s as := by
  constructor
  · intro hrel
    induction as generalizing s with
    | nil => trivial
    | cons a as ih =>
        obtain ⟨t, ht, htr⟩ := Option.bind_eq_some_iff.mp hr
        have hfirst : R s t :=
          hrel [] [a] as s t rfl rfl (by simp [ht])
        refine ⟨(hstep s a t hs ht).mp hfirst, ?_⟩
        intro t' ht'
        rw [ht] at ht'
        cases ht'
        refine ih (hinv s a t hs ht) htr ?_
        intro pre mid post s₁ s₂ has h1 h2
        exact hrel (a :: pre) mid post s₁ s₂ (by simp [has])
          (by simp [ht, h1]) h2
  · intro hok
    exact related_of_meets hrefl htrans hinv
      (fun s a s' hi ho h => (hstep s a s' hi h).mpr ho) hs hok

/-! ## What a run gives out -/

section Outputs

variable {β : Type} {out : σ → α → List β}

/-- What the steps of the run give out, in order. -/
def outputs (step : σ → α → Option σ) (out : σ → α → List β) : σ → List α → List β
  | _, [] => []
  | s, a :: as =>
      out s a ++ match step s a with
        | some s' => outputs step out s' as
        | none => []

theorem outputs_cons {s s' : σ} {a : α} (h : step s a = some s') (as : List α) :
    outputs step out s (a :: as) = out s a ++ outputs step out s' as := by
  rw [outputs, h]

/-- **The rule for what is given out**: a relation between two states and what
lies between them, which has nothing between a state and itself and joins up, and
which every step keeps to, is kept to by every run. -/
theorem run_outputs {R : σ → List β → σ → Prop} {Inv : σ → Prop} (hrefl : ∀ s, R s [] s)
    (htrans : ∀ {s t u bs cs}, R s bs t → R t cs u → R s (bs ++ cs) u)
    (hinv : ∀ s a s', Inv s → step s a = some s' → Inv s')
    (hstep : ∀ s a s', Inv s → step s a = some s' → R s (out s a) s')
    {s s' : σ} {as : List α} (hs : Inv s) (hr : run step s as = some s') :
    R s (outputs step out s as) s' := by
  induction as generalizing s with
  | nil =>
      cases hr
      exact hrefl _
  | cons a as ih =>
      obtain ⟨s₁, h1, h2⟩ := Option.bind_eq_some_iff.mp hr
      rw [outputs_cons h1]
      exact htrans (hstep s a s₁ hs h1) (ih (hinv s a s₁ hs h1) h2)

end Outputs

end Hps.Lib
