import Hps.Scheduler.Model

/-!
# Scheduler — workers and the fibers they hold

The part of the scheduler that decides who runs a fiber: for every worker
where it stands to a fiber, and the states of the fibers. A fiber that is `EXEC`
is not taken; a worker that is `calling`, or `off`, is at a fiber that need not
be `EXEC`. `View.Step` lets nobody come to a fiber while another worker is at
one of these places, and then one worker at a time is at a fiber
(`View.Inv.step`).
-/

namespace Hps.Scheduler

variable {n : Nat}

/-- Where a worker stands to a fiber. -/
inductive Role where
  | away
  /-- It has taken a task of the fiber. -/
  | taken (f : Nat)
  /-- It is about to call the fiber. -/
  | calling (f : Nat)
  /-- The fiber is `EXEC`, or has yielded and is about to be put on `HOLD`. -/
  | on (f : Nat)
  /-- The fiber has set its state, or has switched back. -/
  | off (f : Nat)
  deriving DecidableEq

namespace Role

def fiber? : Role → Option Nat
  | .away => none
  | .taken f | .calling f | .on f | .off f => some f

/-- The worker is at the fiber, outside of the time in which it is `EXEC`. -/
def loose? : Role → Option Nat
  | .away | .on _ => none
  | .taken f | .calling f | .off f => some f

/-- The fiber that nobody else may come to. A task of a fiber that has ended
is dropped. -/
def holds? (fibers : Nat → FiberState) : Role → Option Nat
  | .away => none
  | .taken f => if (fibers f).dead then none else some f
  | .calling f | .on f | .off f => some f

/-- What the state of the fiber is there. -/
def Fits (fibers : Nat → FiberState) : Role → Prop
  | .away | .taken _ => True
  | .calling f => (fibers f).dead = false
  | .on f => fibers f = .EXEC
  | .off f => fibers f ≠ .INIT ∧ fibers f ≠ .HOLD

theorem fiber?_of_holds? {fibers : Nat → FiberState} {r : Role} {f : Nat}
    (h : r.holds? fibers = some f) : r.fiber? = some f := by
  cases r with
  | taken g =>
      rw [holds?] at h
      split at h
      · cases h
      · exact h
  | _ => exact h

theorem holds?_of_fiber? {fibers : Nat → FiberState} {r : Role} {f : Nat}
    (hf : (fibers f).dead = false) (h : r.fiber? = some f) :
    r.holds? fibers = some f := by
  cases r with
  | taken g =>
      cases h
      rw [holds?, hf]
      rfl
  | _ => exact h

/-- Not loose at a fiber is away from it, or on it. -/
theorem on_of_fiber? {r : Role} {f : Nat} (h : r.fiber? = some f)
    (hl : r.loose? ≠ some f) : r = .on f := by
  cases r with
  | on g =>
      cases h
      rfl
  | away => cases h
  | _ => exact absurd h hl

theorem holds?_congr {fibers fibers' : Nat → FiberState} {r : Role}
    (h : ∀ f, r.fiber? = some f → fibers' f = fibers f) :
    r.holds? fibers' = r.holds? fibers := by
  cases r with
  | taken f => rw [holds?, holds?, h f rfl]
  | _ => rfl

theorem fits_congr {fibers fibers' : Nat → FiberState} {r : Role}
    (h : ∀ f, r.fiber? = some f → fibers' f = fibers f) (hr : r.Fits fibers) :
    r.Fits fibers' := by
  cases r with
  | away => trivial
  | taken => trivial
  | calling f => exact (congrArg FiberState.dead (h f rfl)).trans hr
  | on f => exact (h f rfl).trans hr
  | off f => rwa [Fits, h f rfl]

end Role

structure View (n : Nat) where
  role : Fin n → Role
  fibers : Nat → FiberState

namespace View

/-- No other worker is loose at the fiber. -/
def Free (a : View n) (w : Fin n) (f : Nat) : Prop :=
  ∀ v, v ≠ w → (a.role v).loose? ≠ some f

instance (a : View n) (w : Fin n) (f : Nat) : Decidable (a.Free w f) :=
  inferInstanceAs (Decidable (∀ v, v ≠ w → (a.role v).loose? ≠ some f))

def setRole (a : View n) (w : Fin n) (r : Role) : View n :=
  { a with role := Function.update a.role w r }

def setFiber (a : View n) (f : Nat) (x : FiberState) : View n :=
  { a with fibers := Function.update a.fibers f x }

/-- The steps of workers towards fibers. -/
inductive Step (a : View n) : View n → Prop
  | stays : Step a a
  | takes {w : Fin n} {f : Nat} (hexec : a.fibers f ≠ .EXEC)
      (hfree : (a.fibers f).dead = false → a.Free w f) :
      Step a (a.setRole w (.taken f))
  | drops {w : Fin n} : Step a (a.setRole w .away)
  | selects {w : Fin n} {f : Nat} (hw : a.role w = .taken f)
      (hdead : (a.fibers f).dead = false) : Step a (a.setRole w (.calling f))
  /-- The worker's own fiber is reset for a callback. -/
  | resets {w : Fin n} {f : Nat}
      (hdead : (a.fibers f).dead = true ∨ a.fibers f = .INIT) (hfree : a.Free w f) :
      Step a ((a.setFiber f .INIT).setRole w (.calling f))
  | makes {w : Fin n} {f : Nat} (hnew : ∀ v, (a.role v).fiber? ≠ some f) :
      Step a ((a.setFiber f .INIT).setRole w (.calling f))
  | calls {w : Fin n} {f : Nat} (hw : a.role w = .calling f) :
      Step a ((a.setFiber f .EXEC).setRole w (.on f))
  | sets {w : Fin n} {f : Nat} {x : FiberState} (hw : a.role w = .on f)
      (hx : x ≠ .INIT ∧ x ≠ .HOLD) : Step a ((a.setFiber f x).setRole w (.off f))
  | yields {w : Fin n} {f : Nat} (hw : a.role w = .on f) :
      Step a (a.setRole w (.off f))
  | settles {w : Fin n} {f : Nat} (hw : a.role w = .off f)
      (hready : a.fibers f ≠ .READY) (hdead : (a.fibers f).dead = false) :
      Step a (a.setRole w (.on f))
  | holds {w : Fin n} {f : Nat} (hw : a.role w = .on f) :
      Step a ((a.setFiber f .HOLD).setRole w .away)
  /-- The worker's own fiber is reset behind a callback. -/
  | clears {w : Fin n} {f : Nat} (hw : a.role w = .off f) (hfree : a.Free w f) :
      Step a ((a.setFiber f .INIT).setRole w .away)

/-- **One worker at a time is at a fiber**, and finds it in its state. -/
structure Inv (a : View n) : Prop where
  one : ∀ v w f, (a.role v).holds? a.fibers = some f →
    (a.role w).holds? a.fibers = some f → v = w
  fits : ∀ w, (a.role w).Fits a.fibers

variable {a b : View n} {w : Fin n} {f : Nat}

/-- Who holds a fiber that has not ended is alone with it. -/
theorem Inv.alone (hi : a.Inv) (hw : (a.role w).holds? a.fibers = some f)
    (hdead : (a.fibers f).dead = false) (v : Fin n) (hv : v ≠ w) :
    (a.role v).fiber? ≠ some f := by
  intro h
  exact hv (hi.one v w f (Role.holds?_of_fiber? hdead h) hw)

/-- Nobody is at a fiber that is not `EXEC` and at which nobody is loose. -/
theorem Inv.alone_of_free (hi : a.Inv) (hexec : a.fibers f ≠ .EXEC)
    (hfree : a.Free w f) (v : Fin n) (hv : v ≠ w) : (a.role v).fiber? ≠ some f := by
  intro h
  have hon := Role.on_of_fiber? h (hfree v hv)
  have hfit := hi.fits v
  rw [hon] at hfit
  exact hexec hfit

theorem Inv.setRole (hi : a.Inv) {r : Role} (hr : r.Fits a.fibers)
    (hone : ∀ f, r.holds? a.fibers = some f →
      ∀ v, v ≠ w → (a.role v).holds? a.fibers ≠ some f) : (a.setRole w r).Inv where
  one := by
    intro u v f hu hv
    simp only [View.setRole] at hu hv
    by_cases hu' : u = w <;> by_cases hv' : v = w
    · rw [hu', hv']
    · subst hu'
      rw [Function.update_self] at hu
      rw [Function.update_of_ne hv'] at hv
      exact absurd hv (hone f hu v hv')
    · subst hv'
      rw [Function.update_self] at hv
      rw [Function.update_of_ne hu'] at hu
      exact absurd hu (hone f hv u hu')
    · rw [Function.update_of_ne hu'] at hu
      rw [Function.update_of_ne hv'] at hv
      exact hi.one u v f hu hv
  fits := (Function.forall_update_iff a.role fun _ r => r.Fits a.fibers).mpr
    ⟨hr, fun v _ => hi.fits v⟩

/-- A fiber at which no other worker is can be written. -/
theorem Inv.write (hi : a.Inv) {x : FiberState} {r : Role}
    (halone : ∀ v, v ≠ w → (a.role v).fiber? ≠ some f)
    (hr : r.Fits (Function.update a.fibers f x))
    (hf : r.fiber? = none ∨ r.fiber? = some f) :
    ((a.setFiber f x).setRole w r).Inv := by
  have hsame : ∀ v, v ≠ w → ∀ g, (a.role v).fiber? = some g →
      Function.update a.fibers f x g = a.fibers g := by
    intro v hv g hg
    apply Function.update_of_ne
    intro hgf
    exact halone v hv (hgf ▸ hg)
  constructor
  · intro u v g hu hv
    simp only [View.setRole, View.setFiber] at hu hv
    by_cases hu' : u = w <;> by_cases hv' : v = w
    · rw [hu', hv']
    · subst hu'
      rw [Function.update_self] at hu
      rw [Function.update_of_ne hv'] at hv
      have hg := Role.fiber?_of_holds? hv
      rcases hf with hf | hf
      · rw [Role.fiber?_of_holds? hu] at hf
        cases hf
      · rw [Role.fiber?_of_holds? hu] at hf
        exact absurd (hf ▸ hg) (halone v hv')
    · subst hv'
      rw [Function.update_self] at hv
      rw [Function.update_of_ne hu'] at hu
      have hg := Role.fiber?_of_holds? hu
      rcases hf with hf | hf
      · rw [Role.fiber?_of_holds? hv] at hf
        cases hf
      · rw [Role.fiber?_of_holds? hv] at hf
        exact absurd (hf ▸ hg) (halone u hu')
    · rw [Function.update_of_ne hu', Role.holds?_congr (hsame u hu')] at hu
      rw [Function.update_of_ne hv', Role.holds?_congr (hsame v hv')] at hv
      exact hi.one u v g hu hv
  · intro v
    simp only [View.setRole, View.setFiber]
    by_cases hv : v = w
    · subst hv
      rw [Function.update_self]
      exact hr
    · rw [Function.update_of_ne hv]
      exact Role.fits_congr (hsame v hv) (hi.fits v)

theorem Inv.step (hi : a.Inv) (h : Step a b) : b.Inv := by
  cases h with
  | stays => exact hi
  | @takes w f hexec hfree =>
      refine hi.setRole trivial ?_
      intro g hg v hv hvg
      have hgf := Role.fiber?_of_holds? hg
      cases hgf
      have hdead : (a.fibers f).dead = false := by
        rw [Role.holds?] at hg
        split at hg
        · cases hg
        · rename_i h
          simpa using h
      exact hi.alone_of_free hexec (hfree hdead) v hv (Role.fiber?_of_holds? hvg)
  | drops => exact hi.setRole trivial fun g hg => by cases hg
  | @selects w f hw hdead =>
      have hold : (a.role w).holds? a.fibers = some f := by
        rw [hw]
        exact Role.holds?_of_fiber? hdead rfl
      refine hi.setRole hdead ?_
      intro g hg v hv hvg
      cases hg
      exact hv (hi.one v w f hvg hold)
  | @resets w f hdead hfree =>
      have hexec : a.fibers f ≠ .EXEC := by
        intro h
        simp [h, FiberState.dead] at hdead
      refine hi.write (hi.alone_of_free hexec hfree) ?_ (.inr rfl)
      rw [Role.Fits, Function.update_self]
      rfl
  | makes hnew =>
      refine hi.write (fun v _ => hnew v) ?_ (.inr rfl)
      rw [Role.Fits, Function.update_self]
      rfl
  | @calls w f hw =>
      have hdead : (a.fibers f).dead = false := by
        have := hi.fits w
        rwa [hw] at this
      refine hi.write (hi.alone (by rw [hw]; rfl) hdead) ?_ (.inr rfl)
      rw [Role.Fits, Function.update_self]
  | @sets w f x hw hx =>
      have hexec : a.fibers f = .EXEC := by
        have := hi.fits w
        rwa [hw] at this
      refine hi.write (hi.alone (by rw [hw]; rfl) (by rw [hexec]; rfl)) ?_ (.inr rfl)
      rw [Role.Fits, Function.update_self]
      exact hx
  | @yields w f hw =>
      have hexec : a.fibers f = .EXEC := by
        have := hi.fits w
        rwa [hw] at this
      refine hi.setRole ?_ ?_
      · rw [Role.Fits, hexec]
        decide
      · intro g hg v hv hvg
        cases hg
        exact hv (hi.one v w f hvg (by rw [hw]; rfl))
  | @settles w f hw hready hdead =>
      have hfit := hi.fits w
      rw [hw] at hfit
      refine hi.setRole ?_ ?_
      · rw [Role.Fits]
        cases hx : a.fibers f <;> simp_all [Role.Fits, FiberState.dead]
      · intro g hg v hv hvg
        cases hg
        exact hv (hi.one v w f hvg (by rw [hw]; rfl))
  | @holds w f hw =>
      have hexec : a.fibers f = .EXEC := by
        have := hi.fits w
        rwa [hw] at this
      exact hi.write (hi.alone (by rw [hw]; rfl) (by rw [hexec]; rfl)) trivial (.inl rfl)
  | @clears w f hw hfree =>
      refine hi.write ?_ trivial (.inl rfl)
      intro v hv h
      have hon := Role.on_of_fiber? h (hfree v hv)
      exact hv (hi.one v w f (by rw [hon]; rfl) (by rw [hw]; rfl))

end View

end Hps.Scheduler
