import Hps.Config.Yaml
import Hps.Lib.OrderedMap
import Hps.Lib.Run
import Mathlib.Logic.Function.Basic
import Mathlib.Order.Nat
import Mathlib.Order.RelClasses

/-!
# Config — listeners

The variables of one type, with the callbacks that are told of their changes.
`addListener` numbers the callbacks of all of them with one counter. A callback
may throw: `setValue` then leaves the value as it was, though the callbacks
before it, and the one that threw, have been told of the new one
(`follow_iff`).
-/

namespace Hps.Config.Listeners

open Hps.Lib
open Hps.Log (Text)

/-- What a conversion or a callback throws: a `std::exception`, or anything
else. -/
inductive Thrown where
  | exception
  | other
  deriving DecidableEq, Repr

/-- A call `i.second(m_val, v)` of a callback of the variable `var`. -/
structure Call (α : Type) where
  var : Nat
  key : Nat
  oldValue : α
  newValue : α

/-- A `ConfigVar<T>`; `κ` is the type of the callbacks. -/
structure ConfigVar (α κ : Type) where
  val : α
  cbs : List (Nat × κ)

/-- The variables of a type, and what the callbacks were called with. The last
three are not kept by the program. -/
structure State (α κ : Type) where
  vars : Nat → ConfigVar α κ
  funId : Nat
  calls : List (Call α)
  /-- The changes of each variable: the value that it had, and its new one. -/
  changes : Nat → List (α × α)
  /-- The value of the variable when the callback of the key was added. -/
  added : Nat → α
  /-- How many changes it had then. -/
  since : Nat → Nat

inductive Op (α κ : Type)
  | addListener (var : Nat) (cb : κ)
  | delListener (var key : Nat)
  | clearListener (var : Nat)
  | setValue (var : Nat) (v : α)
  | fromString (var : Nat) (val : Text)

section Model

variable {α κ : Type} [BEq α] (fromStr : Text → Except Thrown α)
  (throws : κ → α → α → Option Thrown)

/-- The loop over `m_cbs`: the calls, and what the last of them threw. -/
def notify (var : Nat) (old v : α) : List (Nat × κ) → List (Call α) × Option Thrown
  | [] => ([], none)
  | i :: cbs =>
      match throws i.2 old v with
      | some e => ([⟨var, i.1, old, v⟩], some e)
      | none =>
          let (calls, e) := notify var old v cbs
          (⟨var, i.1, old, v⟩ :: calls, e)

namespace State

variable (s : State α κ)

/-- The registry with another value or other callbacks of a variable. -/
def put (var : Nat) (x : ConfigVar α κ) : State α κ :=
  { s with vars := Function.update s.vars var x }

def addListener (var : Nat) (cb : κ) : State α κ :=
  let funId := s.funId + 1
  let x := s.vars var
  { s.put var { x with cbs := OrderedMap.set (· < ·) funId cb x.cbs } with
    funId
    added := Function.update s.added funId x.val
    since := Function.update s.since funId (s.changes var).length }

def delListener (var key : Nat) : State α κ :=
  let x := s.vars var
  s.put var { x with cbs := x.cbs.filter fun i => i.1 != key }

def clearListener (var : Nat) : State α κ := s.put var { s.vars var with cbs := [] }

/-- `m_val = v` -/
def change (var : Nat) (v : α) : State α κ :=
  let x := s.vars var
  { s.put var { x with val := v } with
    changes := Function.update s.changes var (s.changes var ++ [(x.val, v)]) }

/-- `setValue(v)`: the state behind it, and what it throws. -/
def setValue (var : Nat) (v : α) : State α κ × Option Thrown :=
  let x := s.vars var
  if v == x.val then (s, none)
  else
    let (calls, e) := notify throws var x.val v x.cbs
    let s := { s with calls := s.calls ++ calls }
    match e with
    | some e => (s, some e)
    | none => (s.change var v, none)

/-- `fromString(val)`, which returns `false` if it returns. -/
def fromString (var : Nat) (val : Text) : State α κ × Except Thrown Bool :=
  match fromStr val with
  | .error .exception => (s, .ok false)
  | .error .other => (s, .error .other)
  | .ok v =>
      match s.setValue throws var v with
      | (s, some .other) => (s, .error .other)
      | (s, _) => (s, .ok false)

end State

/-- The variables with their default values. -/
def initial (dflt : Nat → α) (added : α) : State α κ where
  vars var := ⟨dflt var, []⟩
  funId := 0
  calls := []
  changes _ := []
  added _ := added
  since _ := 0

def step (s : State α κ) : Op α κ → Option (State α κ)
  | .addListener var cb => some (s.addListener var cb)
  | .delListener var key => some (s.delListener var key)
  | .clearListener var => some (s.clearListener var)
  | .setValue var v => some (s.setValue throws var v).1
  | .fromString var val => some (s.fromString fromStr throws var val).1

/-! ## What a listener knows -/

/-- The changes lead from one value to the other, each from where the one before
it led. -/
def Chain : α → List (α × α) → α → Prop
  | a, [], b => a = b
  | a, x :: xs, b => x.1 = a ∧ Chain x.2 xs b

/-- What the callback of a key was told. -/
def heard (key : Nat) (calls : List (Call α)) : List (α × α) :=
  (calls.filter fun c => c.key = key).map fun c => (c.oldValue, c.newValue)

/-- The callback was told of the changes of its variable since it was added, in
their order and each once. They lead from the value of then to that of now. -/
structure Knows (s : State α κ) (var key : Nat) : Prop where
  told : heard key s.calls = (s.changes var).drop (s.since key)
  chain : Chain (s.added key) (heard key s.calls) (s.vars var).val

/-- Every callback was told of all changes since it was added. -/
def Followed (s : State α κ) : Prop := ∀ var, ∀ i ∈ (s.vars var).cbs, Knows s var i.1

/-- No callback throws at the change, if it is one. -/
def Told (s : State α κ) (var : Nat) (v : α) : Prop :=
  (v == (s.vars var).val) = true ∨ ∀ i ∈ (s.vars var).cbs, throws i.2 (s.vars var).val v = none

/-- The operation sets no value at which a callback throws. -/
def Quiet (s : State α κ) : Op α κ → Prop
  | .setValue var v => Told throws s var v
  | .fromString var val => ∀ v, fromStr val = .ok v → Told throws s var v
  | _ => True

end Model

/-! ## Chains -/

section Chains

variable {α κ : Type} {a b : α} {xs : List (α × α)} {x : α × α}

theorem chain_concat : Chain a (xs ++ [x]) b ↔ Chain a xs x.1 ∧ x.2 = b := by
  induction xs generalizing a with
  | nil => simp [Chain, eq_comm]
  | cons y xs ih => simp [Chain, ih, and_assoc]

theorem heard_append (key : Nat) (cs ds : List (Call α)) :
    heard key (cs ++ ds) = heard key cs ++ heard key ds := by
  simp [heard]

theorem heard_eq_nil {key : Nat} {cs : List (Call α)} (h : ∀ c ∈ cs, c.key ≠ key) :
    heard key cs = [] := by
  rw [heard, List.filter_eq_nil_iff.mpr (by simpa using h), List.map_nil]

/-- Every callback that is called is called once. -/
theorem heard_calls (var : Nat) (old v : α) {m : List (Nat × κ)}
    (hm : OrderedMap.Ordered (· < ·) m) {i : Nat × κ} (hi : i ∈ m) :
    heard i.1 (m.map fun j => (⟨var, j.1, old, v⟩ : Call α)) = [(old, v)] := by
  induction m with
  | nil => cases hi
  | cons j m ih =>
      obtain ⟨hj, hm⟩ := List.pairwise_cons.mp hm
      have hsplit : heard i.1 ((j :: m).map fun j => (⟨var, j.1, old, v⟩ : Call α)) =
          heard i.1 [⟨var, j.1, old, v⟩] ++
            heard i.1 (m.map fun j => (⟨var, j.1, old, v⟩ : Call α)) := by
        rw [List.map_cons, ← List.singleton_append, heard_append]
      rw [hsplit]
      rcases List.mem_cons.mp hi with rfl | hi
      · have hrest : heard i.1 (m.map fun j => (⟨var, j.1, old, v⟩ : Call α)) = [] := by
          apply heard_eq_nil
          intro c hc
          obtain ⟨k, hk, rfl⟩ := List.mem_map.mp hc
          exact Nat.ne_of_gt (hj k hk)
        rw [hrest]
        simp [heard]
      · have hfirst : heard i.1 [(⟨var, j.1, old, v⟩ : Call α)] = [] := by
          apply heard_eq_nil
          intro c hc
          obtain rfl := List.mem_singleton.mp hc
          exact Nat.ne_of_lt (hj i hi)
        rw [hfirst, ih hm hi]
        rfl

end Chains

/-! ## Calls -/

section Notify

variable {α κ : Type} {throws : κ → α → α → Option Thrown} {var : Nat} {old v : α}
  {m : List (Nat × κ)}

theorem notify_quiet (h : ∀ i ∈ m, throws i.2 old v = none) :
    notify throws var old v m = (m.map fun i => ⟨var, i.1, old, v⟩, none) := by
  induction m with
  | nil => rfl
  | cons i m ih =>
      obtain ⟨hi, hm⟩ := List.forall_mem_cons.mp h
      simp [notify, hi, ih hm]

/-- The calls end with the callback that threw. -/
theorem notify_thrown (var : Nat) (h : ¬∀ i ∈ m, throws i.2 old v = none) :
    ∃ pre i post e, m = pre ++ i :: post ∧
      notify throws var old v m =
        ((pre ++ [i]).map fun i => ⟨var, i.1, old, v⟩, some e) := by
  induction m with
  | nil => exact absurd (List.forall_mem_nil _) h
  | cons i m ih =>
      cases hi : throws i.2 old v with
      | some e => exact ⟨[], i, m, e, rfl, by simp [notify, hi]⟩
      | none =>
          have hm : ¬∀ i ∈ m, throws i.2 old v = none := fun hm =>
            h (List.forall_mem_cons.mpr ⟨hi, hm⟩)
          obtain ⟨pre, j, post, e, rfl, hcalls⟩ := ih hm
          exact ⟨i :: pre, j, post, e, rfl, by simp [notify, hi, hcalls]⟩

end Notify

/-! ## Runs -/

section Runs

variable {α κ : Type}

/-- The keys are those that were handed out, each of them once. -/
structure Keyed (s : State α κ) : Prop where
  ordered : ∀ var, OrderedMap.Ordered (· < ·) (s.vars var).cbs
  le : ∀ var, ∀ i ∈ (s.vars var).cbs, i.1 ≤ s.funId
  apart : ∀ var var', ∀ i ∈ (s.vars var).cbs, ∀ j ∈ (s.vars var').cbs, i.1 = j.1 → var = var'
  called : ∀ c ∈ s.calls, c.key ≤ s.funId
  since : ∀ var, ∀ i ∈ (s.vars var).cbs, s.since i.1 ≤ (s.changes var).length

/-- What the listeners know and their keys. -/
structure Inv (s : State α κ) : Prop extends Keyed s where
  followed : Followed s

section Put

variable (s : State α κ) {var var' : Nat} (x : ConfigVar α κ)

theorem put_self : (s.put var x).vars var = x := by
  simp only [State.put, Function.update_self]

theorem put_other (h : var' ≠ var) : (s.put var x).vars var' = s.vars var' := by
  simp only [State.put, Function.update_of_ne h]

end Put

/-- The callbacks of one variable are some of those that were there, and it has
the value that it had. -/
theorem Inv.put {s : State α κ} (h : Inv s) {var : Nat} {x : ConfigVar α κ}
    (hval : x.val = (s.vars var).val) (hsub : x.cbs.Sublist (s.vars var).cbs) :
    Inv (s.put var x) := by
  have hmem : ∀ var', ∀ i ∈ ((s.put var x).vars var').cbs, i ∈ (s.vars var').cbs := by
    intro var' i hi
    by_cases hv : var' = var
    · subst hv
      rw [put_self] at hi
      exact hsub.subset hi
    · rwa [put_other s x hv] at hi
  have hkept : ∀ var', ((s.put var x).vars var').val = (s.vars var').val := by
    intro var'
    by_cases hv : var' = var
    · subst hv
      rw [put_self, hval]
    · rw [put_other s x hv]
  exact {
    ordered := by
      intro var'
      by_cases hv : var' = var
      · subst hv
        rw [put_self]
        exact (h.ordered var').sublist hsub
      · rw [put_other s x hv]
        exact h.ordered var'
    le := fun var' i hi => h.le var' i (hmem var' i hi)
    apart := fun v₁ v₂ i hi j hj => h.apart v₁ v₂ i (hmem v₁ i hi) j (hmem v₂ j hj)
    called := h.called
    since := fun var' i hi => h.since var' i (hmem var' i hi)
    followed := by
      intro var' i hi
      obtain ⟨htold, hchain⟩ := h.followed var' i (hmem var' i hi)
      refine ⟨htold, ?_⟩
      rw [hkept]
      exact hchain }

section Adding

variable (s : State α κ) (var : Nat) (cb : κ)

/-- The new callback, with the new key. -/
def State.newest : Nat × κ := (s.funId + 1, cb)

variable {s}

theorem addListener_self (h : Keyed s) : (s.addListener var cb).vars var =
    { s.vars var with cbs := (s.vars var).cbs ++ [s.newest cb] } := by
  have hlast : OrderedMap.set (· < ·) (s.funId + 1) cb (s.vars var).cbs =
      (s.vars var).cbs ++ [(s.funId + 1, cb)] :=
    OrderedMap.set_last fun i hi => Nat.lt_succ_of_le (h.le var i hi)
  simp only [State.addListener, State.newest, State.put, Function.update_self, hlast]

theorem addListener_other {var' : Nat} (hv : var' ≠ var) :
    (s.addListener var cb).vars var' = s.vars var' := by
  simp only [State.addListener, State.put, Function.update_of_ne hv]

theorem mem_addListener (h : Keyed s) {var' : Nat} {i : Nat × κ}
    (hi : i ∈ ((s.addListener var cb).vars var').cbs) :
    i ∈ (s.vars var').cbs ∨ var' = var ∧ i = s.newest cb := by
  by_cases hv : var' = var
  · subst hv
    rw [addListener_self var' cb h] at hi
    rcases List.mem_append.mp hi with hi | hi
    · exact .inl hi
    · exact .inr ⟨rfl, List.mem_singleton.mp hi⟩
  · rw [addListener_other var cb hv] at hi
    exact .inl hi

theorem addListener_val (h : Keyed s) (var' : Nat) :
    ((s.addListener var cb).vars var').val = (s.vars var').val := by
  by_cases hv : var' = var
  · subst hv
    rw [addListener_self var' cb h]
  · rw [addListener_other var cb hv]

theorem Keyed.addListener (h : Keyed s) : Keyed (s.addListener var cb) where
  ordered := by
    intro var'
    by_cases hv : var' = var
    · subst hv
      rw [addListener_self var' cb h]
      refine List.pairwise_append.mpr ⟨h.ordered var', List.pairwise_singleton _ _, ?_⟩
      intro i hi j hj
      rw [List.mem_singleton.mp hj]
      exact Nat.lt_succ_of_le (h.le var' i hi)
    · rw [addListener_other var cb hv]
      exact h.ordered var'
  le := by
    intro var' i hi
    rcases mem_addListener var cb h hi with hi | ⟨-, rfl⟩
    · exact Nat.le_succ_of_le (h.le var' i hi)
    · exact Nat.le_refl _
  apart := by
    intro v₁ v₂ i hi j hj hij
    rcases mem_addListener var cb h hi with hold | ⟨hv₁, hnew⟩ <;>
      rcases mem_addListener var cb h hj with hold' | ⟨hv₂, hnew'⟩
    · exact h.apart v₁ v₂ i hold j hold' hij
    · have hle := h.le v₁ i hold
      rw [hij, hnew'] at hle
      exact absurd hle (Nat.not_succ_le_self _)
    · have hle := h.le v₂ j hold'
      rw [← hij, hnew] at hle
      exact absurd hle (Nat.not_succ_le_self _)
    · rw [hv₁, hv₂]
  called c hc := Nat.le_succ_of_le (h.called c hc)
  since := by
    intro var' i hi
    show Function.update s.since (s.funId + 1) (s.changes var).length i.1 ≤ _
    rcases mem_addListener var cb h hi with hi | ⟨rfl, rfl⟩
    · rw [Function.update_of_ne (Nat.ne_of_lt (Nat.lt_succ_of_le (h.le var' i hi)))]
      exact h.since var' i hi
    · rw [State.newest, Function.update_self]
      exact Nat.le_refl _

theorem Inv.addListener (h : Inv s) : Inv (s.addListener var cb) where
  toKeyed := h.toKeyed.addListener var cb
  followed := by
    intro var' i hi
    rcases mem_addListener var cb h.toKeyed hi with hi | ⟨rfl, rfl⟩
    · have hne : i.1 ≠ s.funId + 1 := Nat.ne_of_lt (Nat.lt_succ_of_le (h.le var' i hi))
      obtain ⟨htold, hchain⟩ := h.followed var' i hi
      refine ⟨?_, ?_⟩
      · show _ = (s.changes var').drop (Function.update s.since (s.funId + 1) _ i.1)
        rw [Function.update_of_ne hne]
        exact htold
      · rw [addListener_val var cb h.toKeyed]
        show Chain (Function.update s.added (s.funId + 1) _ i.1) _ _
        rw [Function.update_of_ne hne]
        exact hchain
    · -- nothing was told yet to the new one
      have hnil : heard (s.funId + 1) (s.addListener var' cb).calls = [] :=
        heard_eq_nil fun c hc => Nat.ne_of_lt (Nat.lt_succ_of_le (h.called c hc))
      refine ⟨?_, ?_⟩
      · rw [State.newest, hnil]
        show [] = (s.changes var').drop (Function.update s.since (s.funId + 1) _ (s.funId + 1))
        rw [Function.update_self, List.drop_length]
      · rw [addListener_val var' cb h.toKeyed, State.newest, hnil]
        exact Function.update_self (s.funId + 1) (s.vars var').val s.added

end Adding

/-! ### Changes -/

section Changing

variable {s : State α κ} {var : Nat} {v : α}

/-- A change that is told to all callbacks of the variable. -/
def State.changed (s : State α κ) (var : Nat) (v : α) : State α κ :=
  { s.change var v with
    calls := s.calls ++ (s.vars var).cbs.map fun i => ⟨var, i.1, (s.vars var).val, v⟩ }

theorem changed_self (s : State α κ) (var : Nat) (v : α) :
    (s.changed var v).vars var = { s.vars var with val := v } := put_self ..

theorem changed_other {var' : Nat} (hv : var' ≠ var) :
    (s.changed var v).vars var' = s.vars var' := put_other _ _ hv

theorem changed_cbs (s : State α κ) (var : Nat) (v : α) (var' : Nat) :
    ((s.changed var v).vars var').cbs = (s.vars var').cbs := by
  by_cases hv : var' = var
  · subst hv
    rw [changed_self]
  · rw [changed_other hv]

theorem changes_self (s : State α κ) (var : Nat) (v : α) :
    (s.changed var v).changes var = s.changes var ++ [((s.vars var).val, v)] :=
  Function.update_self ..

theorem changes_other {var' : Nat} (hv : var' ≠ var) :
    (s.changed var v).changes var' = s.changes var' := Function.update_of_ne hv ..

theorem Keyed.changed (h : Keyed s) (var : Nat) (v : α) : Keyed (s.changed var v) where
  ordered var' := by
    rw [changed_cbs]
    exact h.ordered var'
  le var' i hi := by
    rw [changed_cbs] at hi
    exact h.le var' i hi
  apart v₁ v₂ i hi j hj := by
    rw [changed_cbs] at hi hj
    exact h.apart v₁ v₂ i hi j hj
  called c hc := by
    rcases List.mem_append.mp hc with hc | hc
    · exact h.called c hc
    · obtain ⟨i, hi, rfl⟩ := List.mem_map.mp hc
      exact h.le var i hi
  since var' i hi := by
    rw [changed_cbs] at hi
    have hle := h.since var' i hi
    by_cases hv : var' = var
    · subst hv
      rw [changes_self, List.length_append]
      exact Nat.le_add_right_of_le hle
    · rw [changes_other hv]
      exact hle

/-- The callbacks of the variable are told of the change. -/
theorem knows_changed (h : Inv s) {i : Nat × κ} (hi : i ∈ (s.vars var).cbs) :
    Knows (s.changed var v) var i.1 := by
  obtain ⟨htold, hchain⟩ := h.followed var i hi
  have hheard : heard i.1 (s.changed var v).calls =
      heard i.1 s.calls ++ [((s.vars var).val, v)] := by
    rw [State.changed, heard_append, heard_calls var _ v (h.ordered var) hi]
  refine ⟨?_, ?_⟩
  · rw [hheard, changes_self, htold]
    exact (List.drop_append_of_le_length (h.since var i hi)).symm
  · rw [hheard, chain_concat, changed_self]
    exact ⟨hchain, rfl⟩

/-- Those of others are not. -/
theorem knows_changed_other (h : Inv s) {var' : Nat} (hv : var' ≠ var) {i : Nat × κ}
    (hi : i ∈ (s.vars var').cbs) : Knows (s.changed var v) var' i.1 := by
  obtain ⟨htold, hchain⟩ := h.followed var' i hi
  have hheard : heard i.1 (s.changed var v).calls = heard i.1 s.calls := by
    have hnil : heard i.1 ((s.vars var).cbs.map fun j =>
        (⟨var, j.1, (s.vars var).val, v⟩ : Call α)) = [] := by
      apply heard_eq_nil
      intro c hc hkey
      obtain ⟨j, hj, rfl⟩ := List.mem_map.mp hc
      exact hv (h.apart var' var i hi j hj hkey.symm)
    rw [State.changed, heard_append, hnil, List.append_nil]
  refine ⟨?_, ?_⟩
  · rw [hheard, changes_other hv]
    exact htold
  · rw [hheard, changed_other hv]
    exact hchain

theorem Inv.changed (h : Inv s) (var : Nat) (v : α) : Inv (s.changed var v) where
  toKeyed := h.toKeyed.changed var v
  followed := by
    intro var' i hi
    rw [changed_cbs] at hi
    by_cases hv : var' = var
    · subst hv
      exact knows_changed h hi
    · exact knows_changed_other h hv hi

variable [BEq α] {throws : κ → α → α → Option Thrown}

/-- A change at which no callback throws is told to all of the variable. -/
theorem Inv.setValue (h : Inv s) (ht : Told throws s var v) :
    Inv (s.setValue throws var v).1 := by
  rw [State.setValue]
  by_cases heq : (v == (s.vars var).val) = true
  · rw [if_pos heq]
    exact h
  · rw [if_neg heq, notify_quiet (ht.resolve_left heq)]
    exact h.changed var v

/-- **One that a callback throws at** leaves a callback that was told of what
has not happened. -/
theorem told_of_followed (h : Inv s) (hf : Followed (s.setValue throws var v).1) :
    Told throws s var v := by
  by_cases heq : (v == (s.vars var).val) = true
  · exact .inl heq
  · refine .inr ?_
    by_contra hquiet
    obtain ⟨pre, i, post, e, hcbs, hcalls⟩ := notify_thrown var hquiet
    have hi : i ∈ (s.vars var).cbs := by
      rw [hcbs]
      simp
    have hordered : OrderedMap.Ordered (· < ·) (pre ++ [i]) := by
      have hall := h.ordered var
      rw [hcbs, List.append_cons] at hall
      exact (List.pairwise_append.mp hall).1
    have hheard := heard_calls var (s.vars var).val v hordered (i := i) (by simp)
    rw [State.setValue, if_neg heq, hcalls] at hf
    have htold := (hf var i hi).told
    dsimp only at htold
    rw [heard_append, hheard, (h.followed var i hi).told] at htold
    simp at htold

end Changing

theorem inv_initial (dflt : Nat → α) (added : α) : Inv (initial dflt added : State α κ) := by
  refine ⟨⟨fun var => List.Pairwise.nil, ?_, ?_, ?_, ?_⟩, ?_⟩
  · intro var i hi
    cases hi
  · intro var var' i hi
    cases hi
  · intro c hc
    cases hc
  · intro var i hi
    cases hi
  · intro var i hi
    cases hi

variable [BEq α] {fromStr : Text → Except Thrown α} {throws : κ → α → α → Option Thrown}

theorem fromString_fst (s : State α κ) (var : Nat) (val : Text) :
    (s.fromString fromStr throws var val).1 =
      match fromStr val with
      | .ok v => (s.setValue throws var v).1
      | .error _ => s := by
  rw [State.fromString]
  cases fromStr val with
  | error e => cases e <;> rfl
  | ok v =>
      dsimp only
      rcases s.setValue throws var v with ⟨t, e⟩
      cases e with
      | none => rfl
      | some e => cases e <;> rfl

variable (fromStr throws) in
/-- **What the callbacks know.** In a run over variables with their default
values every callback has been told of every change since it was added, once
and in their order, and of nothing else, in all states exactly if no callback
throws at a change. -/
theorem follow_iff (dflt : Nat → α) (added : α) (ops : List (Op α κ)) :
    Always (step fromStr throws) Followed (initial dflt added) ops ↔
      Meets (step fromStr throws) (Quiet fromStr throws) (initial dflt added) ops := by
  refine always_iff_meets ?_ (fun s (hs : Inv s) => hs.followed) ?_ (inv_initial dflt added)
  · intro s op s' hs hq hstep
    cases op with
    | addListener var cb =>
        cases hstep
        exact hs.addListener var cb
    | delListener var key =>
        cases hstep
        exact hs.put rfl List.filter_sublist
    | clearListener var =>
        cases hstep
        exact hs.put rfl (List.nil_sublist _)
    | setValue var v =>
        cases hstep
        exact hs.setValue hq
    | fromString var val =>
        cases hstep
        rw [fromString_fst]
        split
        · rename_i v hv
          exact hs.setValue (hq v hv)
        · -- the conversion threw, and `fromString` returns without a change
          exact hs
  · intro s op hs hf
    cases op with
    | addListener var cb => trivial
    | delListener var key => trivial
    | clearListener var => trivial
    | setValue var v => exact told_of_followed hs (hf _ rfl)
    | fromString var val =>
        intro v hv
        have hfollowed := hf _ rfl
        rw [fromString_fst, hv] at hfollowed
        exact told_of_followed hs hfollowed

end Runs

end Hps.Config.Listeners
