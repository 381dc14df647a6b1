import Mathlib.Data.List.Forall2

/-!
# Machines that act on their input

A deterministic machine reads one symbol at a time. A transition names the
next state and the actions to run; no transition is an error; an action may
stop the machine behind the symbol it was taken on. What the actions do is
left to an interpretation `act`, which runs one of them at a position, on
registers of its own, and collects what it calls out.

* `exec_append` — an input is read in two pieces as it is read in one;
* `Runs.append` — runs that use their input up, one behind the other;
* `exec_sim` — two interpretations of the same machine run in step;
* `exec_invariant` — what every transition keeps, every run keeps;
* `exec_ordered` — the order in which a machine makes its calls.
-/

namespace Hps.Lib

/-- A transition function, and the actions that stop the machine. -/
structure Machine (Q β A : Type) where
  next : Q → β → Option (Q × List A)
  stops : A → Bool

/-- How a run ended: the input was used up, an action stopped the machine,
or a symbol had no transition. -/
inductive Ending (Q : Type) where
  | running (q : Q)
  | stopped (q : Q)
  | failed
  deriving DecidableEq

/-- What is left of a run: how it ended, the position it reached (that of
the offending symbol after an error), the registers and the calls. -/
structure Outcome (Q R C : Type) where
  ending : Ending Q
  pos : Nat
  regs : R
  calls : List C

variable {Q β A R R' C C' : Type}

/-- The calls made before a run belong to it. -/
def Outcome.after (cs : List C) (o : Outcome Q R C) : Outcome Q R C :=
  { o with calls := cs ++ o.calls }

/-- The actions of one transition, in order. -/
def acts (act : A → Nat → R → R × List C) (p : Nat) : List A → R → R × List C
  | [], r => (r, [])
  | a :: as, r =>
      ((acts act p as (act a p r).1).1,
        (act a p r).2 ++ (acts act p as (act a p r).1).2)

namespace Machine

variable (M : Machine Q β A) (act : A → Nat → R → R × List C)

/-- The run over an input, from a state, a position and the registers. -/
def exec : Q → Nat → R → List β → Outcome Q R C
  | q, p, r, [] => ⟨.running q, p, r, []⟩
  | q, p, r, c :: cs =>
      match M.next q c with
      | none => ⟨.failed, p, r, []⟩
      | some (q', as) =>
          let (r', out) := acts act p as r
          if as.any M.stops then ⟨.stopped q', p + 1, r', out⟩
          else (exec q' (p + 1) r' cs).after out

variable {M act}

@[simp] theorem exec_nil (q : Q) (p : Nat) (r : R) :
    M.exec act q p r [] = ⟨.running q, p, r, []⟩ := rfl

theorem exec_cons_none {q : Q} {c : β} (h : M.next q c = none) (p : Nat)
    (r : R) (cs : List β) : M.exec act q p r (c :: cs) = ⟨.failed, p, r, []⟩ := by
  simp [exec, h]

theorem exec_cons_stop {q q' : Q} {c : β} {as : List A}
    (h : M.next q c = some (q', as)) (hs : as.any M.stops = true) (p : Nat)
    (r : R) (cs : List β) :
    M.exec act q p r (c :: cs) =
      ⟨.stopped q', p + 1, (acts act p as r).1, (acts act p as r).2⟩ := by
  simp only [exec, h, hs, if_true]

theorem exec_cons_step {q q' : Q} {c : β} {as : List A}
    (h : M.next q c = some (q', as)) (hs : as.any M.stops = false) (p : Nat)
    (r : R) (cs : List β) :
    M.exec act q p r (c :: cs) =
      (M.exec act q' (p + 1) (acts act p as r).1 cs).after
        (acts act p as r).2 := by
  simp only [exec, h, hs]
  rfl

@[simp] theorem after_ending (cs : List C) (o : Outcome Q R C) :
    (o.after cs).ending = o.ending := rfl

@[simp] theorem after_pos (cs : List C) (o : Outcome Q R C) :
    (o.after cs).pos = o.pos := rfl

@[simp] theorem after_regs (cs : List C) (o : Outcome Q R C) :
    (o.after cs).regs = o.regs := rfl

@[simp] theorem after_calls (cs : List C) (o : Outcome Q R C) :
    (o.after cs).calls = cs ++ o.calls := rfl

theorem after_after (cs ds : List C) (o : Outcome Q R C) :
    (o.after ds).after cs = o.after (cs ++ ds) := by
  simp [Outcome.after]

variable (M act) in
/-- A run goes through the first symbol by one of three rules. -/
theorem exec_cons_cases (q : Q) (p : Nat) (r : R) (c : β) (cs : List β) :
    (M.next q c = none ∧
      M.exec act q p r (c :: cs) = ⟨.failed, p, r, []⟩) ∨
    (∃ q' as, M.next q c = some (q', as) ∧ as.any M.stops = true ∧
      M.exec act q p r (c :: cs) =
        ⟨.stopped q', p + 1, (acts act p as r).1, (acts act p as r).2⟩) ∨
    (∃ q' as, M.next q c = some (q', as) ∧ as.any M.stops = false ∧
      M.exec act q p r (c :: cs) =
        (M.exec act q' (p + 1) (acts act p as r).1 cs).after
          (acts act p as r).2) := by
  cases h : M.next q c with
  | none => exact .inl ⟨rfl, exec_cons_none h p r cs⟩
  | some t =>
      obtain ⟨q', as⟩ := t
      cases hs : as.any M.stops with
      | true => exact .inr (.inl ⟨q', as, rfl, hs, exec_cons_stop h hs p r cs⟩)
      | false => exact .inr (.inr ⟨q', as, rfl, hs, exec_cons_step h hs p r cs⟩)

/-- A run that is still going has read all its input. -/
theorem exec_running {q q' : Q} {p : Nat} {r : R} {cs : List β}
    (h : (M.exec act q p r cs).ending = .running q') :
    (M.exec act q p r cs).pos = p + cs.length := by
  induction cs generalizing q p r with
  | nil => rfl
  | cons c cs ih =>
      rcases exec_cons_cases M act q p r c cs with
        ⟨_, he⟩ | ⟨_, _, _, _, he⟩ | ⟨q₁, as, _, _, he⟩
      · simp [he] at h
      · simp [he] at h
      · rw [he] at h ⊢
        simp only [after_ending] at h
        simp only [after_pos, ih h, List.length_cons]
        omega

variable (M act) in
/-- The position never leaves the input. -/
theorem exec_pos_le (q : Q) (p : Nat) (r : R) (cs : List β) :
    (M.exec act q p r cs).pos ≤ p + cs.length := by
  induction cs generalizing q p r with
  | nil => simp
  | cons c cs ih =>
      rcases exec_cons_cases M act q p r c cs with
        ⟨_, he⟩ | ⟨_, _, _, _, he⟩ | ⟨q₁, as, _, _, he⟩
      · simp [he]
      · simp only [he, List.length_cons]
        omega
      · have := ih q₁ (p + 1) (acts act p as r).1
        rw [he]
        simp only [after_pos, List.length_cons]
        omega

variable (M act) in
theorem exec_le_pos (q : Q) (p : Nat) (r : R) (cs : List β) :
    p ≤ (M.exec act q p r cs).pos := by
  induction cs generalizing q p r with
  | nil => simp
  | cons c cs ih =>
      rcases exec_cons_cases M act q p r c cs with
        ⟨_, he⟩ | ⟨_, _, _, _, he⟩ | ⟨q₁, as, _, _, he⟩
      · simp [he]
      · simp [he]
      · have := ih q₁ (p + 1) (acts act p as r).1
        rw [he]
        simp only [after_pos]
        omega

/-! ## Reading in pieces -/

/-- **An input is read in two pieces as it is read in one.** -/
theorem exec_append {q q' : Q} {p : Nat} {r : R} {xs : List β} (ys : List β)
    (h : (M.exec act q p r xs).ending = .running q') :
    M.exec act q p r (xs ++ ys) =
      (M.exec act q' (p + xs.length) (M.exec act q p r xs).regs ys).after
        (M.exec act q p r xs).calls := by
  induction xs generalizing q p r with
  | nil =>
      obtain rfl : q = q' := by simpa using h
      simp [Outcome.after]
  | cons c cs ih =>
      rcases exec_cons_cases M act q p r c cs with
        ⟨_, he⟩ | ⟨_, _, _, _, he⟩ | ⟨q₁, as, hn, hs, he⟩
      · simp [he] at h
      · simp [he] at h
      · rw [he] at h ⊢
        simp only [after_ending] at h
        rw [List.cons_append, exec_cons_step hn hs, ih h, after_after]
        simp only [after_regs, after_calls, List.length_cons]
        rw [show p + 1 + cs.length = p + (cs.length + 1) by omega]

/-- What lies behind the end of a run does not matter to it. -/
theorem exec_append_of_ended {q : Q} {p : Nat} {r : R} {xs : List β}
    (ys : List β) (h : ∀ q', (M.exec act q p r xs).ending ≠ .running q') :
    M.exec act q p r (xs ++ ys) = M.exec act q p r xs := by
  induction xs generalizing q p r with
  | nil => exact absurd rfl (h q)
  | cons c cs ih =>
      rcases exec_cons_cases M act q p r c cs with
        ⟨hn, he⟩ | ⟨q₁, as, hn, hs, he⟩ | ⟨q₁, as, hn, hs, he⟩
      · rw [he, List.cons_append, exec_cons_none hn]
      · rw [he, List.cons_append, exec_cons_stop hn hs]
      · rw [he] at h ⊢
        rw [List.cons_append, exec_cons_step hn hs]
        rw [ih fun q' hq => h q' (by simpa using hq)]

/-! ## Runs that go on -/

variable (M act) in
/-- The run uses its input up, with these registers and calls at the end. -/
def Runs (q : Q) (p : Nat) (r : R) (xs : List β) (q' : Q) (r' : R)
    (out : List C) : Prop :=
  M.exec act q p r xs = ⟨.running q', p + xs.length, r', out⟩

section Runs

variable {q q₁ q₂ : Q} {p : Nat} {r r₁ r₂ : R} {xs ys : List β}
  {out₁ out₂ : List C}

theorem Runs.nil : Runs M act q p r [] q r [] := rfl

/-- What comes behind a run that goes on. -/
theorem Runs.exec_append (h : Runs M act q p r xs q₁ r₁ out₁) (ys : List β) :
    M.exec act q p r (xs ++ ys) =
      (M.exec act q₁ (p + xs.length) r₁ ys).after out₁ := by
  rw [Machine.exec_append ys (by rw [h]), h]

theorem Runs.append (h : Runs M act q p r xs q₁ r₁ out₁)
    (h' : Runs M act q₁ (p + xs.length) r₁ ys q₂ r₂ out₂) :
    Runs M act q p r (xs ++ ys) q₂ r₂ (out₁ ++ out₂) := by
  rw [Runs, h.exec_append, h', Outcome.after, List.length_append, Nat.add_assoc]

theorem Runs.step {c : β} {as : List A} (h : M.next q c = some (q₁, as))
    (hs : as.any M.stops = false) (p : Nat) (r : R) :
    Runs M act q p r [c] q₁ (acts act p as r).1 (acts act p as r).2 := by
  rw [Runs, exec_cons_step h hs, exec_nil, Outcome.after, List.append_nil]
  rfl

end Runs

/-! ## Two interpretations -/

/-- A relation between the registers of two interpretations, the second with
positions counted from `k`. `mid` is what holds of it between the actions of
one transition. -/
structure Simulation (M : Machine Q β A) (act : A → Nat → R → R × List C)
    (act' : A → Nat → R' → R' × List C') (k : Nat)
    (rel mid : Nat → R → R' → Prop) (call : C → C' → Prop) : Prop where
  enter : ∀ {p r r'}, rel p r r' → mid p r r'
  leave : ∀ {p r r'}, mid p r r' → rel (p + 1) r r'
  act : ∀ (a : A) {p r r'}, mid (k + p) r r' →
    mid (k + p) (act a (k + p) r).1 (act' a p r').1 ∧
      List.Forall₂ call (act a (k + p) r).2 (act' a p r').2

variable {act' : A → Nat → R' → R' × List C'} {k : Nat}
  {rel mid : Nat → R → R' → Prop} {call : C → C' → Prop}

theorem Simulation.acts (hsim : Simulation M act act' k rel mid call)
    (as : List A) {p : Nat} {r : R} {r' : R'} (h : mid (k + p) r r') :
    mid (k + p) (acts act (k + p) as r).1 (acts act' p as r').1 ∧
      List.Forall₂ call (Lib.acts act (k + p) as r).2
        (Lib.acts act' p as r').2 := by
  induction as generalizing r r' with
  | nil => exact ⟨h, .nil⟩
  | cons a as ih =>
      obtain ⟨h1, c1⟩ := hsim.act a h
      obtain ⟨h2, c2⟩ := ih h1
      exact ⟨h2, List.rel_append c1 c2⟩

/-- **Two interpretations of a machine run in step**: the runs end alike, at
the same place, with related registers and related calls. -/
theorem exec_sim (hsim : Simulation M act act' k rel mid call) {q : Q}
    {p : Nat} {r : R} {r' : R'} (h : rel (k + p) r r') (cs : List β) :
    (M.exec act q (k + p) r cs).ending = (M.exec act' q p r' cs).ending ∧
    (M.exec act q (k + p) r cs).pos = k + (M.exec act' q p r' cs).pos ∧
    rel (M.exec act q (k + p) r cs).pos (M.exec act q (k + p) r cs).regs
      (M.exec act' q p r' cs).regs ∧
    List.Forall₂ call (M.exec act q (k + p) r cs).calls
      (M.exec act' q p r' cs).calls := by
  induction cs generalizing q p r r' with
  | nil => exact ⟨rfl, rfl, h, .nil⟩
  | cons c cs ih =>
      cases hn : M.next q c with
      | none =>
          rw [exec_cons_none hn, exec_cons_none hn]
          exact ⟨rfl, rfl, h, .nil⟩
      | some t =>
          obtain ⟨q₁, as⟩ := t
          obtain ⟨h1, c1⟩ := hsim.acts as (hsim.enter h)
          cases hs : as.any M.stops with
          | true =>
              rw [exec_cons_stop hn hs, exec_cons_stop hn hs]
              exact ⟨rfl, Nat.add_assoc k p 1, hsim.leave h1, c1⟩
          | false =>
              rw [exec_cons_step hn hs, exec_cons_step hn hs]
              have h2 : rel (k + (p + 1)) (Lib.acts act (k + p) as r).1
                  (Lib.acts act' p as r').1 := hsim.leave h1
              obtain ⟨e, ep, er, ec⟩ := ih (q := q₁) h2
              exact ⟨e, ep, er, List.rel_append c1 ec⟩

/-! ## What holds of the calls of a run -/

/-- What is true of the calls of every action is true of those of a run. -/
theorem exec_calls {P : Nat → C → Prop}
    (hact : ∀ a p r, ∀ x ∈ (act a p r).2, P p x) (q : Q) (p : Nat) (r : R)
    (cs : List β) :
    ∀ x ∈ (M.exec act q p r cs).calls, ∃ i, p ≤ i ∧ i < p + cs.length ∧ P i x := by
  have hacts : ∀ as p r, ∀ x ∈ (acts act p as r).2, P p x := by
    intro as
    induction as with
    | nil => simp [acts]
    | cons a as ih =>
        intro p r x hx
        rcases List.mem_append.mp hx with hx | hx
        · exact hact a p r x hx
        · exact ih p _ x hx
  induction cs generalizing q p r with
  | nil => simp
  | cons c cs ih =>
      intro x hx
      rcases exec_cons_cases M act q p r c cs with
        ⟨_, he⟩ | ⟨q₁, as, _, _, he⟩ | ⟨q₁, as, _, _, he⟩
      · simp [he] at hx
      · rw [he] at hx
        exact ⟨p, Nat.le_refl p, by simp, hacts as p r x hx⟩
      · rw [he] at hx
        rcases List.mem_append.mp hx with hx | hx
        · exact ⟨p, Nat.le_refl p, by simp, hacts as p r x hx⟩
        · obtain ⟨i, h1, h2, h3⟩ := ih q₁ (p + 1) _ x hx
          refine ⟨i, by omega, ?_, h3⟩
          rw [List.length_cons]
          omega

/-- What every transition keeps of the registers holds where a run ends. -/
theorem exec_kept {Inv : Nat → R → Prop}
    (hstep : ∀ {q c q' as p r}, Inv p r → M.next q c = some (q', as) →
      Inv (p + 1) (acts act p as r).1)
    {p : Nat} {r : R} (h : Inv p r) (q : Q) (cs : List β) :
    Inv (M.exec act q p r cs).pos (M.exec act q p r cs).regs := by
  induction cs generalizing q p r with
  | nil => exact h
  | cons c cs ih =>
      rcases exec_cons_cases M act q p r c cs with
        ⟨_, he⟩ | ⟨q₁, as, hn, _, he⟩ | ⟨q₁, as, hn, _, he⟩
      · rw [he]
        exact h
      · rw [he]
        exact hstep h hn
      · rw [he]
        exact ih (hstep h hn) q₁

/-- **The invariant rule**: what every transition over the input keeps holds
all along a run, and with it what is true of the calls of a transition. -/
theorem exec_invariant {input : List β} (Inv : Q → Nat → R → Prop)
    {P : C → Prop}
    (hstep : ∀ {q c q' as p r}, Inv q p r → input[p]? = some c →
      M.next q c = some (q', as) →
      Inv q' (p + 1) (acts act p as r).1 ∧ ∀ x ∈ (acts act p as r).2, P x)
    {q : Q} {p : Nat} {r : R} (h : Inv q p r) {cs : List β}
    (hcs : input.drop p = cs) :
    ∀ x ∈ (M.exec act q p r cs).calls, P x := by
  induction cs generalizing q p r with
  | nil => simp
  | cons c cs ih =>
      have hc : input[p]? = some c := by
        rw [← List.head?_drop, hcs]
        rfl
      have hrest : input.drop (p + 1) = cs := by
        rw [← List.tail_drop, hcs]
        rfl
      intro x hx
      rcases exec_cons_cases M act q p r c cs with
        ⟨_, he⟩ | ⟨q₁, as, hn, _, he⟩ | ⟨q₁, as, hn, _, he⟩
      · simp [he] at hx
      · rw [he] at hx
        exact (hstep h hc hn).2 x hx
      · rw [he] at hx
        rcases List.mem_append.mp hx with hx | hx
        · exact (hstep h hc hn).2 x hx
        · exact ih (hstep h hc hn).1 hrest x hx

/-- **The order rule**: if `may q x` says which calls are still to come from
`q`, and every call of a transition stands `before` those that may follow,
the calls of a run are in order. -/
theorem exec_ordered (may : Q → C → Prop) {before : C → C → Prop}
    (hstep : ∀ {q c q' as p r}, M.next q c = some (q', as) →
      (∀ x ∈ (acts act p as r).2, may q x ∧ ∀ y, may q' y → before x y) ∧
        (acts act p as r).2.Pairwise before ∧ ∀ y, may q' y → may q y)
    (q : Q) (p : Nat) (r : R) (cs : List β) :
    (∀ x ∈ (M.exec act q p r cs).calls, may q x) ∧
      (M.exec act q p r cs).calls.Pairwise before := by
  induction cs generalizing q p r with
  | nil => simp
  | cons c cs ih =>
      rcases exec_cons_cases M act q p r c cs with
        ⟨_, he⟩ | ⟨q₁, as, hn, _, he⟩ | ⟨q₁, as, hn, _, he⟩
      · simp [he]
      · obtain ⟨hout, hpw, -⟩ := hstep (p := p) (r := r) hn
        rw [he]
        exact ⟨fun x hx => (hout x hx).1, hpw⟩
      · obtain ⟨hout, hpw, hmay⟩ := hstep (p := p) (r := r) hn
        obtain ⟨h1, h2⟩ := ih q₁ (p + 1) (acts act p as r).1
        rw [he]
        refine ⟨?_, List.pairwise_append.mpr ⟨hpw, h2, ?_⟩⟩
        · intro x hx
          rcases List.mem_append.mp hx with hx | hx
          · exact (hout x hx).1
          · exact hmay x (h1 x hx)
        · intro x hx y hy
          exact (hout x hx).2 y (h1 y hy)

end Machine

end Hps.Lib
