import Hps.IOManager.Invariant
import Hps.Lib.Slots

/-!
# IOManager — what becomes of a registered continuation

`addEvent` registers a callback, or the fiber that is to go on, with the
scheduler of the caller. `idle`, `cancelEvent` and `cancelAll` hand it to that
scheduler, and `delEvent` drops it. An `FdContext` is a place for one
continuation of each event, and every section under its mutex is a run of moves
at these places: what was added is handed over or dropped once, or still held
(`continuations_once`).
-/

namespace Hps.IOManager

open Hps.Lib

/-! ## What happens to continuations -/

/-- What `triggerEvent` hands over of a slot. -/
def EventContext.task (x : EventContext) : Option Task :=
  x.scheduler.bind fun sch =>
    match x.cb with
    | some f => some ⟨sch, .cb f⟩
    | none => x.fiber.map fun f => ⟨sch, .fiber f⟩

def FdContext.task (c : FdContext) (e : Event) : Option Task := (c.getContext e).task

/-- What an `addEvent` registers. -/
def continuation (cb : Option Nat) (caller : Caller) : Task where
  scheduler := caller.scheduler
  continuation :=
    match cb with
    | some f => .cb f
    | none => .fiber caller.fiber

/-- A slot of a context. -/
abbrev Place := Ptr × Event

inductive Happening where
  | added (k : Place) (t : Task)
  | dropped (k : Place) (t : Task)
  | handed (k : Place) (t : Task)
  deriving DecidableEq, Repr

namespace Happening

def move : Happening → Move Place Task
  | added k t => .put k t
  | dropped k t | handed k t => .take k t

/-- What is handed over. -/
def task? : Happening → Option Task
  | handed _ t => some t
  | _ => none

/-- The continuation that is added at this place. -/
def addedAt (k : Place) : Happening → Option Task
  | added k' t => if k' = k then some t else none
  | _ => none

/-- The continuation that leaves this place. -/
def releasedAt (k : Place) : Happening → Option Task
  | dropped k' t | handed k' t => if k' = k then some t else none
  | _ => none

end Happening

/-- The trigger of an event that is registered. -/
def handedIf (b : Bool) (p : Ptr) (c : FdContext) (e : Event) : List Happening :=
  if b then (c.task e).toList.map (.handed (p, e)) else []

/-- The triggers of these events, `READ` first. -/
def handedAll (es : Events) (p : Ptr) (c : FdContext) : List Happening :=
  handedIf (.read ∈ es) p c .read ++ handedIf (.write ∈ es) p c .write

/-- What a call does under the context's mutex, if its `epoll_ctl` succeeds. -/
def Op.happenings (s : State) (ok : Bool) (fd : Nat) (p : Ptr) (c : FdContext) :
    Op → List Happening
  | .addEvent e cb caller =>
      let op : CtlOp := if c.events = ∅ then .add else .mod
      if e ∉ c.events ∧ (epollCtl s.interest ok op fd (insert e c.events) p).isSome then
        [.added (p, e) (continuation cb caller)]
      else []
  | .delEvent e =>
      let left := c.events.erase e
      if e ∈ c.events ∧ (epollCtl s.interest ok (modOrDel left) fd left p).isSome then
        (c.task e).toList.map (.dropped (p, e))
      else []
  | .cancelEvent e =>
      let left := c.events.erase e
      if e ∈ c.events ∧ (epollCtl s.interest ok (modOrDel left) fd left p).isSome then
        handedIf true p c e
      else []
  | .cancelAll =>
      if c.events ≠ ∅ ∧ (epollCtl s.interest ok .del fd ∅ p).isSome then
        handedAll c.events p c
      else []

/-- What the dispatch of a report does, if the process goes on behind it. -/
def Report.happenings (s : State) (ok : Bool) (p : Ptr) (c : FdContext) (r : Report) :
    List Happening :=
  let real := r.realEvents c.events
  if c.events ∩ real ≠ ∅ ∧ (s.dispatchCtl ok p c r).isSome ∧ real ⊆ c.events then
    handedAll real p c
  else []

def happenings (s : State) : Act → List Happening
  | .enter t ok =>
      match s.threads t with
      | .locked fd op p =>
          match s.contexts[p]? with
          | some c => op.happenings s ok fd p c
          | none => []
      | .idle ((p, r) :: _) =>
          match s.contexts[p]? with
          | some c => r.happenings s ok p c
          | none => []
      | _ => []
  | _ => []

/-- All that happens in a run. -/
abbrev happened : State → List Act → List Happening := outputs step happenings

/-! ## The contexts as places -/

/-- What each place holds. -/
def State.held (s : State) (k : Place) : Option Task :=
  s.contexts[k.1]?.bind fun c => c.task k.2

theorem task_arm (c : FdContext) (e e' : Event) (x : EventContext) :
    (c.arm e x).task e' = if e' = e then x.task else c.task e' := by
  rw [FdContext.task, FdContext.arm, getContext_putContext, getContext_events]
  split <;> rfl

theorem task_disarm (c : FdContext) (e e' : Event) :
    (c.disarm e).task e' = if e' = e then none else c.task e' := by
  rw [FdContext.task, FdContext.disarm, getContext_putContext, getContext_events]
  split <;> rfl

/-- A registered event has a continuation. -/
theorem FdContext.SlotsOk.exists_task {c : FdContext} (h : c.SlotsOk) {e : Event}
    (he : e ∈ c.events) : ∃ t, c.task e = some t := by
  obtain ⟨hsch, hx⟩ := (h e).1 he
  obtain ⟨sch, hsch⟩ := Option.isSome_iff_exists.mp hsch
  rw [FdContext.task, EventContext.task, hsch, Option.bind_some]
  cases hcb : (c.getContext e).cb with
  | some f => exact ⟨_, rfl⟩
  | none =>
      have hf : (c.getContext e).fiber.isSome := by simpa [hcb] using hx
      obtain ⟨f, hf⟩ := Option.isSome_iff_exists.mp hf
      exact ⟨⟨sch, .fiber f⟩, by rw [hf]; rfl⟩

theorem FdContext.SlotsOk.task_none {c : FdContext} (h : c.SlotsOk) {e : Event}
    (he : e ∉ c.events) : c.task e = none := by
  rw [FdContext.task, (h e).2 he]
  rfl

section Held

variable {s s' : State} {p : Ptr} {c c' : FdContext}

theorem held_eq (hc : s.contexts[p]? = some c) (e : Event) : s.held (p, e) = c.task e := by
  rw [State.held, hc]
  rfl

/-- Only the contexts matter. -/
theorem held_congr (h : s'.contexts = s.contexts) : s'.held = s.held := by
  funext k
  rw [State.held, h, State.held]

/-- One slot of one context changes. -/
theorem held_set (hc : s.contexts[p]? = some c) (h : s'.contexts = s.contexts.set p c')
    {e : Event} {x : Option Task} (htask : ∀ e', c'.task e' = if e' = e then x else c.task e') :
    s'.held = Function.update s.held (p, e) x := by
  have hlt : p < s.contexts.length := (List.getElem?_eq_some_iff.mp hc).1
  funext ⟨q, e'⟩
  rw [State.held, h]
  by_cases hq : p = q
  · subst hq
    rw [List.getElem?_set_self hlt, Option.bind_some, htask]
    split
    · rename_i he
      obtain rfl : e' = e := he
      rw [Function.update_self]
    · rename_i he
      rw [Function.update_of_ne (by simp [he]), held_eq hc]
  · rw [List.getElem?_set_ne hq, Function.update_of_ne (by simp [Ne.symm hq])]
    rfl

end Held

/-! ## The sections -/

/-- From `s` to `s'`, this is what happens to the continuations. -/
def Does (s : State) (hs : List Happening) (s' : State) : Prop :=
  run Move.step s.held (hs.map Happening.move) = some s'.held ∧
    s'.tasks = s.tasks ++ hs.filterMap Happening.task?

theorem Does.refl (s : State) : Does s [] s := ⟨rfl, (List.append_nil _).symm⟩

theorem Does.congr {s s' t t' : State} {hs : List Happening} (h : Does s hs s')
    (hc : t.contexts = s.contexts) (ht : t.tasks = s.tasks) (hc' : t'.contexts = s'.contexts)
    (ht' : t'.tasks = s'.tasks) : Does t hs t' := by
  rw [Does, held_congr hc, held_congr hc', ht, ht']
  exact h

theorem Does.trans {s t u : State} {hs hs' : List Happening} (h : Does s hs t)
    (h' : Does t hs' u) : Does s (hs ++ hs') u := by
  refine ⟨?_, ?_⟩
  · rw [List.map_append, run_append, h.1]
    exact h'.1
  · rw [h'.2, h.2, List.filterMap_append, List.append_assoc]

section Sections

variable {s : State} {p : Ptr} {c : FdContext}

/-- An event is added at a place that is free. -/
theorem does_arm (hc : s.contexts[p]? = some c) {e : Event} (he : c.task e = none)
    {x : EventContext} {t : Task} (ht : x.task = some t) {s' : State}
    (hs' : s'.contexts = s.contexts.set p (c.arm e x)) (htasks : s'.tasks = s.tasks) :
    Does s [.added (p, e) t] s' := by
  refine ⟨?_, by simp [htasks, Happening.task?]⟩
  have hheld := held_set hc hs' (fun e' => task_arm c e e' x)
  rw [ht] at hheld
  rw [List.map_singleton, run_cons, Happening.move,
    Move.step_put ((held_eq hc e).trans he), Option.bind_some, run_nil, hheld]

/-- What a slot holds leaves it. -/
theorem held_disarm (hc : s.contexts[p]? = some c) {e : Event} {t : Task}
    (ht : c.task e = some t) {s' : State}
    (hs' : s'.contexts = s.contexts.set p (c.disarm e)) :
    run Move.step s.held [.take (p, e) t] = some s'.held := by
  rw [run_cons, Move.step_take ((held_eq hc e).trans ht), Option.bind_some, run_nil,
    held_set hc hs' (task_disarm c e)]

/-- **One trigger** hands over what the slot holds. -/
theorem triggerEvent_task (h : c.SlotsOk) {e : Event} (he : e ∈ c.events) {t : Task}
    (ht : c.task e = some t) :
    s.triggerEvent p c e
      = .ok ({ s.setCtx p (c.disarm e) with tasks := s.tasks ++ [t] }, c.disarm e) := by
  obtain ⟨hsch, hx⟩ := (h e).1 he
  obtain ⟨sch, hsch⟩ := Option.isSome_iff_exists.mp hsch
  rw [FdContext.task, EventContext.task, hsch, Option.bind_some] at ht
  rw [State.triggerEvent, if_pos he]
  cases hcb : (c.getContext e).cb with
  | some f =>
      have hf : (c.getContext e).fiber = none := by simpa [hcb] using hx
      rw [hcb] at ht
      obtain rfl := Option.some.inj ht
      simp [hsch, hcb, hf, FdContext.disarm]
  | none =>
      rw [hcb] at ht
      obtain ⟨f, hf, rfl⟩ := Option.map_eq_some_iff.mp ht
      simp [hsch, hcb, hf, FdContext.disarm]

/-- One guarded trigger, of an event that is registered if the guard holds. -/
theorem triggerIf_does {s₁ : State} {c₁ : FdContext} {hs : List Happening} (h : Does s hs s₁)
    (hc : s₁.contexts[p]? = some c₁) (hok : c₁.SlotsOk) {e : Event} {b : Bool}
    (hb : b = true → e ∈ c₁.events) (hsame : c₁.task e = c.task e) :
    ∃ r, State.triggerIf b e p (.ok (s₁, c₁)) = .ok r ∧ Does s (hs ++ handedIf b p c e) r.1 ∧
      r.1.contexts[p]? = some r.2 ∧ r.2.SlotsOk ∧
      r.2.events = (if b then c₁.events.erase e else c₁.events) ∧
      ∀ e', e' ≠ e → r.2.task e' = c₁.task e' := by
  cases b with
  | false =>
      refine ⟨(s₁, c₁), rfl, ?_, hc, hok, rfl, fun _ _ => rfl⟩
      simpa [handedIf] using h
  | true =>
      obtain ⟨t, ht⟩ := hok.exists_task (hb rfl)
      have hlt : p < s₁.contexts.length := (List.getElem?_eq_some_iff.mp hc).1
      have hhanded : handedIf true p c e = [.handed (p, e) t] := by
        rw [handedIf, ← hsame, ht]
        rfl
      refine ⟨({ s₁.setCtx p (c₁.disarm e) with
          tasks := s₁.tasks ++ [t]
          pendingEventCount := decrement s₁.pendingEventCount }, c₁.disarm e), ?_, ?_,
        List.getElem?_set_self hlt, hok.disarm e, disarm_events c₁ e, ?_⟩
      · rw [State.triggerIf, triggerEvent_task hok (hb rfl) ht]
        rfl
      · rw [hhanded]
        refine h.trans ⟨?_, rfl⟩
        exact held_disarm hc ht rfl
      · intro e' he'
        rw [task_disarm, if_neg he']

/-- The triggers of `READ` and `WRITE`, of events that are registered. -/
theorem triggers_does {es : Events} (hc : s.contexts[p]? = some c) (hok : c.SlotsOk)
    (hes : es ⊆ c.events) :
    ∃ r r', State.triggerIf (.read ∈ es) .read p (.ok (s, c)) = .ok r ∧
      r.2.events = (if .read ∈ es then c.events.erase .read else c.events) ∧
      State.triggerIf (.write ∈ es) .write p (.ok r) = .ok r' ∧
      r'.2.events = (if .write ∈ es then r.2.events.erase .write else r.2.events) ∧
      Does s (handedAll es p c) r'.1 := by
  obtain ⟨r, hr, hdoes, hcr, hokr, hev, hother⟩ :=
    triggerIf_does (e := .read) (b := decide (Event.read ∈ es)) (Does.refl s) hc hok
      (fun hb => hes (of_decide_eq_true hb)) rfl
  have hw : decide (Event.write ∈ es) = true → Event.write ∈ r.2.events := by
    intro hb
    have hmem : Event.write ∈ c.events := hes (of_decide_eq_true hb)
    rw [hev]
    split
    · exact Finset.mem_erase.mpr ⟨by decide, hmem⟩
    · exact hmem
  obtain ⟨r', hr', hdoes', -, -, hev', -⟩ :=
    triggerIf_does hdoes hcr hokr hw (hother .write (by decide))
  refine ⟨r, r', hr, ?_, hr', ?_, hdoes'⟩
  · simpa using hev
  · simpa using hev'

/-- The events are all taken out: what the assertion of `cancelAll` looks at. -/
theorem erase_all {es es₁ es₂ : Events}
    (h₁ : es₁ = if .read ∈ es then es.erase .read else es)
    (h₂ : es₂ = if .write ∈ es then es₁.erase .write else es₁) : es₂ = ∅ := by
  ext e
  rw [h₂, h₁]
  cases e <;> split <;> split <;> simp_all

theorem addEvent_does (hc : s.contexts[p]? = some c) (hok : c.SlotsOk) (ok : Bool) (fd : Nat)
    (e : Event) (cb : Option Nat) (caller : Caller) :
    Does s (Op.happenings s ok fd p c (.addEvent e cb caller))
      (s.addEvent ok fd p c e cb caller) := by
  rw [State.addEvent, Op.happenings]
  by_cases he : e ∈ c.events
  · rw [if_pos he, if_neg (fun h => h.1 he)]
    exact (Does.refl s).congr rfl rfl rfl rfl
  · rw [if_neg he]
    dsimp only
    cases hk : epollCtl s.interest ok (if c.events = ∅ then .add else .mod) fd
        (insert e c.events) p with
    | none =>
        rw [if_neg (fun h => absurd h.2 (by simp))]
        exact .refl s
    | some k =>
        rw [if_pos ⟨he, rfl⟩]
        dsimp only
        rw [getContext_events, (hok e).2 he, if_neg (by simp)]
        refine does_arm hc (hok.task_none he) (x := match cb with
          | some f => { scheduler := some caller.scheduler, cb := some f }
          | none => { scheduler := some caller.scheduler, fiber := some caller.fiber }) ?_ ?_ rfl
        · cases cb <;> rfl
        · cases cb <;> simp [State.setCtx, FdContext.arm]

theorem delEvent_does (hc : s.contexts[p]? = some c) (hok : c.SlotsOk) (ok : Bool) (fd : Nat)
    (e : Event) : Does s (Op.happenings s ok fd p c (.delEvent e)) (s.delEvent ok fd p c e) := by
  rw [State.delEvent, Op.happenings]
  by_cases he : e ∈ c.events
  · rw [if_pos he]
    dsimp only
    cases hk : epollCtl s.interest ok (modOrDel (c.events.erase e)) fd (c.events.erase e) p with
    | none =>
        rw [if_neg (fun h => absurd h.2 (by simp))]
        exact .refl s
    | some k =>
        obtain ⟨t, ht⟩ := hok.exists_task he
        rw [if_pos ⟨he, rfl⟩, ht]
        exact ⟨held_disarm hc ht rfl, (List.append_nil _).symm⟩
  · rw [if_neg he, if_neg (fun h => he h.1)]
    exact .refl s

theorem cancelEvent_does (hc : s.contexts[p]? = some c) (hok : c.SlotsOk) (ok : Bool) (fd : Nat)
    (e : Event) :
    Does s (Op.happenings s ok fd p c (.cancelEvent e)) (s.cancelEvent ok fd p c e) := by
  rw [State.cancelEvent, Op.happenings]
  by_cases he : e ∈ c.events
  · rw [if_pos he]
    dsimp only
    cases hk : epollCtl s.interest ok (modOrDel (c.events.erase e)) fd (c.events.erase e) p with
    | none =>
        rw [if_neg (fun h => absurd h.2 (by simp))]
        exact .refl s
    | some k =>
        have h0 : Does s [] { s with interest := k } := (Does.refl s).congr rfl rfl rfl rfl
        obtain ⟨r, hr, hdoes, -⟩ :=
          triggerIf_does (b := true) h0 hc hok (fun _ => he) rfl
        rw [if_pos ⟨he, rfl⟩]
        dsimp only
        rw [hr]
        exact hdoes
  · rw [if_neg he, if_neg (fun h => he h.1)]
    exact .refl s

theorem cancelAll_does (hc : s.contexts[p]? = some c) (hok : c.SlotsOk) (ok : Bool) (fd : Nat) :
    Does s (Op.happenings s ok fd p c .cancelAll) (s.cancelAll ok fd p c) := by
  rw [State.cancelAll, Op.happenings]
  by_cases he : c.events = ∅
  · rw [if_pos he, if_neg (fun h => h.1 he)]
    exact .refl s
  · rw [if_neg he]
    cases hk : epollCtl s.interest ok .del fd ∅ p with
    | none =>
        rw [if_neg (fun h => absurd h.2 (by simp))]
        exact .refl s
    | some k =>
        have hc' : ({ s with interest := k } : State).contexts[p]? = some c := hc
        obtain ⟨r, r', hr, hev, hr', hev', hdoes⟩ := triggers_does hc' hok subset_rfl
        have hw : decide (Event.write ∈ r.2.events) = decide (Event.write ∈ c.events) := by
          rw [hev]
          split <;> simp
        rw [if_pos ⟨he, rfl⟩]
        dsimp only
        rw [hr]
        dsimp only
        rw [hw, hr']
        dsimp only
        rw [if_pos (erase_all hev hev')]
        exact hdoes

theorem runOp_does (hc : s.contexts[p]? = some c) (hok : c.SlotsOk) (ok : Bool) (fd : Nat)
    (op : Op) : Does s (op.happenings s ok fd p c) (s.runOp ok fd p c op) := by
  cases op with
  | addEvent e cb caller => exact addEvent_does hc hok ok fd e cb caller
  | delEvent e => exact delEvent_does hc hok ok fd e
  | cancelEvent e => exact cancelEvent_does hc hok ok fd e
  | cancelAll => exact cancelAll_does hc hok ok fd

theorem dispatch_does (hc : s.contexts[p]? = some c) (hok : c.SlotsOk)
    (hp : c.events.card ≤ s.pendingEventCount) (ok : Bool) (r : Report) :
    Does s (r.happenings s ok p c) (s.dispatch ok p c r) := by
  rw [Report.happenings]
  by_cases hskip : c.events ∩ r.realEvents c.events = ∅
  · rw [dispatch_skip s ok p hskip, if_neg (fun h => h.1 hskip)]
    exact .refl s
  · cases hk : s.dispatchCtl ok p c r with
    | none =>
        rw [dispatch_refused hk, if_neg (fun h => absurd h.2.1 (by simp))]
        exact .refl s
    | some k =>
        by_cases hsub : r.realEvents c.events ⊆ c.events
        · have hc' : ({ s with interest := k } : State).contexts[p]? = some c := hc
          obtain ⟨r₁, r₂, hr, -, hr', -, hdoes⟩ := triggers_does hc' hok hsub
          rw [if_pos ⟨hskip, rfl, hsub⟩, State.dispatch]
          rw [State.dispatchCtl] at hk
          dsimp only
          rw [if_neg hskip, hk]
          dsimp only
          rw [hr, hr']
          exact hdoes
        · rw [dispatch_stale hc hok hp hk hskip hsub, if_neg (fun h => hsub h.2.2)]
          exact (Does.refl s).congr rfl rfl rfl rfl

end Sections

/-! ## Runs -/

/-- A new context holds nothing. -/
theorem held_resize {s : State} (h : Consistent s) (size : Nat) :
    (s.contextResize size).held = s.held := by
  funext k
  rw [contextResize_eq h.filled size, State.held, State.held]
  by_cases hlt : k.1 < s.contexts.length
  · rw [List.getElem?_append_left hlt]
  · rw [List.getElem?_append_right (Nat.le_of_not_lt hlt),
      List.getElem?_eq_none (Nat.le_of_not_lt hlt), List.getElem?_map]
    cases (List.range' (s.fdContexts.take size).length (size - s.fdContexts.length))[
        k.1 - s.contexts.length]? with
    | none => rfl
    | some fd => cases k.2 <;> rfl

theorem hold_same (s : State) (t fd : Nat) (op : Op) :
    (s.hold t fd op).contexts = s.contexts ∧ (s.hold t fd op).tasks = s.tasks := by
  rw [State.hold]
  split <;> exact ⟨rfl, rfl⟩

/-- A section does what `happenings` tells, and nothing else does anything. -/
theorem step_does {s s' : State} {a : Act} (h : Consistent s) (hs : step s a = some s') :
    Does s (happenings s a) s' := by
  obtain ⟨-, hstep⟩ := step_inv hs
  cases hstep with
  | found =>
      obtain ⟨hcontexts, htasks⟩ := hold_same ..
      exact (Does.refl s).congr rfl rfl hcontexts htasks
  | outOfRange => exact (Does.refl s).congr rfl rfl rfl rfl
  | refused => exact .refl s
  | @grow t fd op ht =>
      obtain ⟨hcontexts, htasks⟩ := hold_same (s.contextResize (growTarget fd)) t fd op
      refine ⟨?_, ?_⟩
      · rw [held_congr hcontexts, held_resize h]
        rfl
      · rw [htasks, contextResize_eq h.filled]
        exact (List.append_nil _).symm
  | @critical t ok fd op p c ht hc =>
      rw [happenings, ht]
      dsimp only
      rw [hc]
      exact (runOp_does hc (h.slots c (List.mem_of_getElem? hc)) ok fd op).congr rfl rfl rfl rfl
  | @dispatch t ok p r rest c ht hc =>
      rw [happenings, ht]
      dsimp only
      rw [hc]
      exact (dispatch_does hc (h.slots c (List.mem_of_getElem? hc)) (h.card_le hc) ok r).congr
        rfl rfl rfl rfl
  | wait => exact (Does.refl s).congr rfl rfl rfl rfl

theorem held_init (k : Place) : init.held k = none := by
  have hempty : ({} : State).held = fun _ => none := rfl
  have hconsistent : Consistent ({} : State) := by
    constructor <;> simp
  rw [init, held_resize hconsistent, hempty]

theorem addedAt_eq (k : Place) (hs : List Happening) :
    hs.filterMap (Happening.addedAt k) = (hs.map Happening.move).filterMap (Move.put? k) := by
  rw [List.filterMap_map]
  refine congrArg (hs.filterMap ·) (funext fun x => ?_)
  cases x <;> rfl

theorem releasedAt_eq (k : Place) (hs : List Happening) :
    hs.filterMap (Happening.releasedAt k) = (hs.map Happening.move).filterMap (Move.take? k) := by
  rw [List.filterMap_map]
  refine congrArg (hs.filterMap ·) (funext fun x => ?_)
  cases x <;> rfl

/-- **No continuation is lost, and none is resumed twice.** Whatever the
interleaving, and whichever `epoll_ctl` fails, what was added for an event of a
context left it once, in this order, handed over or dropped, but for the last
one, which is held as long as the event's bit is set; and the schedulers have
been handed what left the contexts, and nothing else. -/
theorem continuations_once {as : List Act} {s : State} (h : run step init as = some s) :
    (∀ k, (happened init as).filterMap (Happening.addedAt k) =
      (happened init as).filterMap (Happening.releasedAt k) ++ (s.held k).toList) ∧
    (∀ p c e, s.contexts[p]? = some c → ((s.held (p, e)).isSome ↔ e ∈ c.events)) ∧
    s.tasks = (happened init as).filterMap Happening.task? := by
  obtain ⟨hmoves, htasks⟩ := run_outputs Does.refl Does.trans
    (fun _ _ _ hi hs => step_consistent hi hs) (fun _ _ _ hi hs => step_does hi hs)
    consistent_init h
  refine ⟨fun k => ?_, fun p c e hc => ?_, htasks⟩
  · have hput := Move.puts_eq hmoves k
    rw [held_init, Option.toList_none, List.nil_append, ← addedAt_eq, ← releasedAt_eq] at hput
    exact hput
  · have hslots := (run_consistent h).slots c (List.mem_of_getElem? hc)
    rw [held_eq hc]
    constructor
    · intro hsome
      by_contra he
      rw [hslots.task_none he] at hsome
      cases hsome
    · intro he
      obtain ⟨t, ht⟩ := hslots.exists_task he
      rw [ht]
      rfl

/-- A fiber waits for `READ` and a callback for `WRITE` of the descriptor 5; the
callback is cancelled, and then there is something to read. -/
def readAndCancel : List Act :=
  [.call 0 5 (.addEvent .read none ⟨1, 7⟩), .enter 0 true,
    .call 0 5 (.addEvent .write (some 9) ⟨1, 7⟩), .enter 0 true,
    .wait 1 [(5, { epollin := true })], .call 0 5 (.cancelEvent .write), .enter 0 true,
    .enter 1 true]

theorem readAndCancel_once : ∃ s, run step init readAndCancel = some s ∧
    s.tasks = [⟨1, .cb 9⟩, ⟨1, .fiber 7⟩] ∧ s.held (5, .read) = none ∧ s.held (5, .write) = none := by
  have hhappened : happened init readAndCancel =
      [.added (5, .read) ⟨1, .fiber 7⟩, .added (5, .write) ⟨1, .cb 9⟩,
        .handed (5, .write) ⟨1, .cb 9⟩, .handed (5, .read) ⟨1, .fiber 7⟩] := by decide
  obtain ⟨s, hs⟩ : ∃ s, run step init readAndCancel = some s :=
    Option.isSome_iff_exists.mp (by decide)
  obtain ⟨hplaces, -, htasks⟩ := continuations_once hs
  rw [hhappened] at hplaces htasks
  refine ⟨s, hs, htasks, ?_, ?_⟩
  · have hread : [Task.mk 1 (.fiber 7)] = [⟨1, .fiber 7⟩] ++ (s.held (5, .read)).toList :=
      hplaces (5, .read)
    simpa using hread
  · have hwrite : [Task.mk 1 (.cb 9)] = [⟨1, .cb 9⟩] ++ (s.held (5, .write)).toList :=
      hplaces (5, .write)
    simpa using hwrite

end Hps.IOManager
