import Mathlib.Logic.Function.Basic
import Hps.Lib.Run
import Hps.Log.Model

/-!
# Log — formatters that appenders inherit

An appender keeps a copy of the pointer to its logger's formatter, and may be
attached to another logger later, or to two at once. `addAppender` renews the
copy only where it is null, `Logger::setFormatter` only in the appenders of its
own logger, and a null `LogAppender::setFormatter` not at all. `inherited_iff`
says for which runs every copy is right.
-/

namespace Hps.Log.Sharing

open Hps.Lib

/-! ## Objects behind pointers -/

/-- A `LogFormatter::ptr` that is not null: where the object is, and the object,
which never changes. -/
structure FormatterPtr where
  address : Nat
  formatter : LogFormatter
  deriving DecidableEq

/-- A `LogAppender`; `formatter` is `none` for the null pointer. -/
structure Appender where
  kind : AppenderKind
  level : Level := .DEBUG
  hasFormatter : Bool := false
  formatter : Option FormatterPtr := none

/-- A `Logger` over the pointers to appenders. -/
structure Logger (A : Type) where
  level : Level := .DEBUG
  formatter : FormatterPtr
  appenders : List A := []

/-- The loggers and the appenders there are, each behind its pointer. -/
structure State (L A : Type) where
  logger : L → Logger A
  appender : A → Appender

variable {L A : Type}

/-- The objects as they are constructed. -/
def State.new (address : L → Nat) (kind : A → AppenderKind) : State L A where
  logger l := { formatter := ⟨address l, .new defaultPattern⟩ }
  appender a := { kind := kind a }

namespace State

variable [DecidableEq L] [DecidableEq A]

def setLogger (s : State L A) (l : L) (x : Logger A) : State L A :=
  { s with logger := Function.update s.logger l x }

def setAppender (s : State L A) (a : A) (x : Appender) : State L A :=
  { s with appender := Function.update s.appender a x }

/-- `Logger::addAppender` -/
def addAppender (s : State L A) (l : L) (a : A) : State L A :=
  let s :=
    if (s.appender a).formatter.isNone then
      s.setAppender a { s.appender a with formatter := some (s.logger l).formatter }
    else s
  s.setLogger l { s.logger l with appenders := (s.logger l).appenders ++ [a] }

/-- `Logger::delAppender`, which erases one entry. -/
def delAppender (s : State L A) (l : L) (a : A) : State L A :=
  s.setLogger l { s.logger l with appenders := (s.logger l).appenders.erase a }

/-- `Logger::clearAppenders` -/
def clearAppenders (s : State L A) (l : L) : State L A :=
  s.setLogger l { s.logger l with appenders := [] }

/-- One turn of the loop of `Logger::setFormatter`. -/
def inherit (val : FormatterPtr) (s : State L A) (a : A) : State L A :=
  if (s.appender a).hasFormatter then s
  else s.setAppender a { s.appender a with formatter := some val }

/-- `Logger::setFormatter(LogFormatter::ptr)` -/
def setFormatterPtr (s : State L A) (l : L) (val : FormatterPtr) : State L A :=
  let s := s.setLogger l { s.logger l with formatter := val }
  (s.logger l).appenders.foldl (inherit val) s

/-- `Logger::setFormatter(const std::string &)`; `address` is where the new
formatter is. -/
def setFormatter (s : State L A) (l : L) (val : Text) (address : Nat) : State L A :=
  if (LogFormatter.new val).error then s else s.setFormatterPtr l ⟨address, .new val⟩

/-- `LogAppender::setFormatter` -/
def setAppenderFormatter (s : State L A) (a : A) (val : Option FormatterPtr) : State L A :=
  s.setAppender a { s.appender a with formatter := val, hasFormatter := val.isSome }

/-- The loop of `Logger::log` over the appenders: the formatters they use, and
`none` where one is null. -/
def log (s : State L A) (l : L) (level : Level) : Option (List FormatterPtr) :=
  if level.value ≥ (s.logger l).level.value then
    ((s.logger l).appenders.filter fun a => level.value ≥ (s.appender a).level.value).mapM
      fun a => (s.appender a).formatter
  else some []

end State

inductive Call (L A : Type) where
  | addAppender (l : L) (a : A)
  | delAppender (l : L) (a : A)
  | clearAppenders (l : L)
  | setFormatter (l : L) (val : Text) (address : Nat)
  | setFormatterPtr (l : L) (val : FormatterPtr)
  | setAppenderFormatter (a : A) (val : Option FormatterPtr)

def Call.apply [DecidableEq L] [DecidableEq A] (s : State L A) : Call L A → State L A
  | addAppender l a => s.addAppender l a
  | delAppender l a => s.delAppender l a
  | clearAppenders l => s.clearAppenders l
  | setFormatter l val address => s.setFormatter l val address
  | setFormatterPtr l val => s.setFormatterPtr l val
  | setAppenderFormatter a val => s.setAppenderFormatter a val

def step [DecidableEq L] [DecidableEq A] (s : State L A) (c : Call L A) : Option (State L A) :=
  some (c.apply s)

/-! ## The property -/

namespace State

/-- Every attached appender has a formatter, and the logger's if it has none of
its own. -/
def Inherits (s : State L A) : Prop :=
  ∀ l, ∀ a ∈ (s.logger l).appenders,
    (s.appender a).formatter ≠ none ∧
      ((s.appender a).hasFormatter = false →
        (s.appender a).formatter = some (s.logger l).formatter)

/-- The appenders of `l` that have no formatter of their own are attached to no
other logger, or only to those with the formatter `val`. -/
def Alone (s : State L A) (l : L) (val : FormatterPtr) : Prop :=
  ∀ a ∈ (s.logger l).appenders, (s.appender a).hasFormatter = false →
    ∀ l', a ∈ (s.logger l').appenders → l' = l ∨ (s.logger l').formatter = val

end State

/-- What is attached has a formatter of its own, or none, or the one of the new
logger; a logger gets a new formatter where no other one shares an appender that
inherits it; and a formatter is taken away from an appender that is attached
nowhere. -/
def Call.Keeps (s : State L A) : Call L A → Prop
  | addAppender l a =>
      (s.appender a).hasFormatter = true ∨ (s.appender a).formatter = none ∨
        (s.appender a).formatter = some (s.logger l).formatter
  | setFormatter l val address =>
      (LogFormatter.new val).error = true ∨ s.Alone l ⟨address, .new val⟩
  | setFormatterPtr l val => s.Alone l val
  | setAppenderFormatter a val => val ≠ none ∨ ∀ l, a ∉ (s.logger l).appenders
  | _ => True

/-! ## What the calls do -/

section Objects

variable {s : State L A}

@[simp] theorem setLogger_self [DecidableEq L] (l : L) (x : Logger A) :
    (s.setLogger l x).logger l = x := by
  simp [State.setLogger]

@[simp] theorem setLogger_other [DecidableEq L] {l l' : L} (h : l' ≠ l) (x : Logger A) :
    (s.setLogger l x).logger l' = s.logger l' := by
  simp [State.setLogger, h]

@[simp] theorem setLogger_appender [DecidableEq L] (l : L) (x : Logger A) :
    (s.setLogger l x).appender = s.appender := rfl

@[simp] theorem setAppender_self [DecidableEq A] (a : A) (x : Appender) :
    (s.setAppender a x).appender a = x := by
  simp [State.setAppender]

@[simp] theorem setAppender_other [DecidableEq A] {a a' : A} (h : a' ≠ a) (x : Appender) :
    (s.setAppender a x).appender a' = s.appender a' := by
  simp [State.setAppender, h]

@[simp] theorem setAppender_logger [DecidableEq A] (a : A) (x : Appender) :
    (s.setAppender a x).logger = s.logger := rfl

theorem inherits_new (address : L → Nat) (kind : A → AppenderKind) :
    (State.new address kind).Inherits := fun _ _ ha => nomatch ha

/-- The loop changes no logger, and gives the formatter to those in the list that
have none of their own. -/
theorem foldl_inherit [DecidableEq A] (val : FormatterPtr) (as : List A) (s : State L A) :
    (as.foldl (State.inherit val) s).logger = s.logger ∧
      ∀ a, (as.foldl (State.inherit val) s).appender a =
        if a ∈ as ∧ (s.appender a).hasFormatter = false then
          { s.appender a with formatter := some val }
        else s.appender a := by
  induction as generalizing s with
  | nil => simp
  | cons x as ih =>
      obtain ⟨hlogger, happender⟩ := ih (State.inherit val s x)
      rw [List.foldl_cons]
      cases hx : (s.appender x).hasFormatter with
      | true =>
          have hskip : State.inherit val s x = s := if_pos hx
          rw [hskip] at hlogger happender ⊢
          refine ⟨hlogger, fun a => ?_⟩
          rw [happender a]
          by_cases hax : a = x
          · simp [hax, hx]
          · simp [hax]
      | false =>
          have hset : State.inherit val s x =
              s.setAppender x { s.appender x with formatter := some val } :=
            if_neg (by simp [hx])
          rw [hset] at hlogger happender ⊢
          refine ⟨hlogger, fun a => ?_⟩
          rw [happender a]
          by_cases hax : a = x
          · subst hax
            simp [hx]
          · simp [hax]

end Objects

section Effects

variable [DecidableEq L] [DecidableEq A] {s : State L A} {l : L} {a : A} {val : FormatterPtr}

namespace State

/-- The logger of an `addAppender`, and the others. -/
theorem addAppender_logger (s : State L A) (l : L) (a : A) :
    ((s.addAppender l a).logger l =
        { s.logger l with appenders := (s.logger l).appenders ++ [a] }) ∧
      ∀ l', l' ≠ l → (s.addAppender l a).logger l' = s.logger l' := by
  rw [addAppender]
  split
  · exact ⟨by simp, fun l' h => by simp [h]⟩
  · exact ⟨by simp, fun l' h => by simp [h]⟩

theorem addAppender_null (h : (s.appender a).formatter = none) :
    (s.addAppender l a).appender a =
        { s.appender a with formatter := some (s.logger l).formatter } ∧
      ∀ a', a' ≠ a → (s.addAppender l a).appender a' = s.appender a' := by
  rw [addAppender, if_pos (by rw [h]; rfl)]
  exact ⟨by simp, fun a' ha => by simp [ha]⟩

theorem addAppender_set (h : (s.appender a).formatter ≠ none) :
    (s.addAppender l a).appender = s.appender := by
  rw [addAppender, if_neg (by simpa using h)]
  rfl

theorem setFormatterPtr_logger (s : State L A) (l : L) (val : FormatterPtr) :
    (s.setFormatterPtr l val).logger l = { s.logger l with formatter := val } ∧
      ∀ l', l' ≠ l → (s.setFormatterPtr l val).logger l' = s.logger l' := by
  rw [setFormatterPtr, (foldl_inherit _ _ _).1]
  exact ⟨setLogger_self l _, fun l' h => setLogger_other h _⟩

theorem setFormatterPtr_appender (s : State L A) (l : L) (val : FormatterPtr) (a : A) :
    (s.setFormatterPtr l val).appender a =
      if a ∈ (s.logger l).appenders ∧ (s.appender a).hasFormatter = false then
        { s.appender a with formatter := some val }
      else s.appender a := by
  rw [setFormatterPtr, (foldl_inherit _ _ _).2]
  simp

end State

end Effects

/-! ## One call -/

namespace State

theorem inherits_setAppenderFormatter_iff [DecidableEq A] {s : State L A} (h : s.Inherits)
    (a : A) (val : Option FormatterPtr) :
    (s.setAppenderFormatter a val).Inherits ↔
      val ≠ none ∨ ∀ l, a ∉ (s.logger l).appenders := by
  constructor
  · intro hafter
    by_contra hnot
    obtain ⟨hnull, hattached⟩ := not_or.mp hnot
    obtain ⟨l, hl⟩ := not_forall_not.mp hattached
    have hnew := (hafter l a hl).1
    rw [setAppenderFormatter, setAppender_self] at hnew
    exact hnull hnew
  · intro hkeeps l x hx
    have hold := h l x hx
    rw [setAppenderFormatter, setAppender_logger]
    by_cases hxa : x = a
    · subst hxa
      rw [setAppender_self]
      rcases hkeeps with hsome | hdetached
      · refine ⟨hsome, fun hown => ?_⟩
        exact absurd (Option.isSome_eq_false_iff.mp hown) (by simpa using hsome)
      · exact absurd hx (hdetached l)
    · rw [setAppender_other hxa]
      exact hold

/-- A logger that loses appenders. -/
theorem Inherits.detach [DecidableEq L] {s : State L A} (h : s.Inherits) {l : L} {as : List A}
    (hsub : ∀ a ∈ as, a ∈ (s.logger l).appenders) :
    (s.setLogger l { s.logger l with appenders := as }).Inherits := by
  intro l' x hx
  rw [setLogger_appender]
  by_cases hl : l' = l
  · subst hl
    rw [setLogger_self] at hx ⊢
    exact h l' x (hsub x hx)
  · rw [setLogger_other hl] at hx ⊢
    exact h l' x hx

end State

section Step

variable [DecidableEq L] [DecidableEq A] {s : State L A}

namespace State

theorem inherits_addAppender_iff (h : s.Inherits) (l : L) (a : A) :
    (s.addAppender l a).Inherits ↔ (Call.addAppender l a).Keeps s := by
  obtain ⟨hself, hother⟩ := addAppender_logger s l a
  constructor
  · intro hafter
    have hnew := (hafter l a (by rw [hself]; simp)).2
    rw [hself] at hnew
    by_cases hnull : (s.appender a).formatter = none
    · exact .inr (.inl hnull)
    · rw [addAppender_set hnull] at hnew
      cases hown : (s.appender a).hasFormatter with
      | true => exact .inl hown
      | false => exact .inr (.inr (hnew hown))
  · intro hkeeps l' x hx
    -- who was attached before, and the new entry
    have hcases : x ∈ (s.logger l').appenders ∨ l' = l ∧ x = a := by
      by_cases hl : l' = l
      · subst hl
        rw [hself] at hx
        simpa using hx
      · rw [hother l' hl] at hx
        exact .inl hx
    have hformatter : ((s.addAppender l a).logger l').formatter = (s.logger l').formatter := by
      by_cases hl : l' = l
      · rw [hl, hself]
      · rw [hother l' hl]
    rw [hformatter]
    by_cases hnull : (s.appender a).formatter = none
    · obtain ⟨hset, hrest⟩ := addAppender_null (l := l) hnull
      rcases hcases with hold | ⟨rfl, rfl⟩
      · -- an appender without a formatter was attached nowhere
        have hne : x ≠ a := by
          rintro rfl
          exact (h l' x hold).1 hnull
        rw [hrest x hne]
        exact h l' x hold
      · rw [hset]
        exact ⟨Option.some_ne_none _, fun _ => rfl⟩
    · rw [addAppender_set hnull]
      rcases hcases with hold | ⟨rfl, rfl⟩
      · exact h l' x hold
      · refine ⟨hnull, fun hown => ?_⟩
        rcases hkeeps with hkeeps | hkeeps | hkeeps
        · rw [hown] at hkeeps
          cases hkeeps
        · exact absurd hkeeps hnull
        · exact hkeeps

theorem inherits_setFormatterPtr_iff (h : s.Inherits) (l : L) (val : FormatterPtr) :
    (s.setFormatterPtr l val).Inherits ↔ s.Alone l val := by
  obtain ⟨hself, hother⟩ := setFormatterPtr_logger s l val
  have happenders : ∀ l', ((s.setFormatterPtr l val).logger l').appenders =
      (s.logger l').appenders := by
    intro l'
    by_cases hl : l' = l
    · rw [hl, hself]
    · rw [hother l' hl]
  constructor
  · intro hafter a ha hown l' ha'
    -- the loop gives the new formatter to `a`, but the logger `l'` keeps its own
    by_contra hne
    obtain ⟨hl, hval⟩ := not_or.mp hne
    have hnew := (hafter l' a (by rw [happenders]; exact ha')).2
    rw [setFormatterPtr_appender, if_pos ⟨ha, hown⟩, hother l' hl] at hnew
    exact hval (Option.some.inj (hnew hown)).symm
  · intro halone l' a ha
    rw [happenders] at ha
    rw [setFormatterPtr_appender]
    by_cases hgets : a ∈ (s.logger l).appenders ∧ (s.appender a).hasFormatter = false
    · rw [if_pos hgets]
      refine ⟨Option.some_ne_none val, fun _ => ?_⟩
      rcases halone a hgets.1 hgets.2 l' ha with rfl | hval
      · rw [hself]
      · by_cases hl : l' = l
        · rw [hl, hself]
        · rw [hother l' hl, hval]
    · rw [if_neg hgets]
      refine ⟨(h l' a ha).1, fun hown => ?_⟩
      by_cases hl : l' = l
      · exact absurd ⟨hl ▸ ha, hown⟩ hgets
      · rw [hother l' hl]
        exact (h l' a ha).2 hown

end State

/-- **One call** leaves every attached appender with the right formatter exactly
if it is one of those that keep it. -/
theorem inherits_apply_iff (h : s.Inherits) (c : Call L A) :
    (c.apply s).Inherits ↔ c.Keeps s := by
  cases c with
  | addAppender l a => exact State.inherits_addAppender_iff h l a
  | delAppender l a =>
      exact iff_of_true (h.detach fun _ hx => List.mem_of_mem_erase hx) trivial
  | clearAppenders l => exact iff_of_true (h.detach fun _ hx => nomatch hx) trivial
  | setFormatter l val address =>
      show (s.setFormatter l val address).Inherits ↔ _ ∨ _
      rw [State.setFormatter]
      split
      · rename_i herror
        exact iff_of_true h (.inl herror)
      · rename_i hvalid
        rw [State.inherits_setFormatterPtr_iff h, or_iff_right hvalid]
  | setFormatterPtr l val => exact State.inherits_setFormatterPtr_iff h l val
  | setAppenderFormatter a val => exact State.inherits_setAppenderFormatter_iff h a val

end Step

/-! ## Runs -/

section Runs

variable [DecidableEq L] [DecidableEq A]

/-- **Inherited formatters.** In all states of a run every attached appender has
a formatter, and its logger's if it has none of its own, exactly if every call
of the run keeps it. -/
theorem inherited_iff (address : L → Nat) (kind : A → AppenderKind) (calls : List (Call L A)) :
    Always step State.Inherits (.new address kind) calls ↔
      Meets step (fun s c => c.Keeps s) (.new address kind) calls := by
  refine always_iff_meets ?_ (fun _ (h : State.Inherits _) => h) ?_ (inherits_new address kind)
  · intro s c s' h hkeeps hs
    cases hs
    exact (inherits_apply_iff h c).mpr hkeeps
  · intro s c h hafter
    exact (inherits_apply_iff h c).mp (hafter _ rfl)

end Runs

/-- An appender that is attached loses the formatter of its own, and the next line
of the log dereferences null. -/
theorem takenAway_null :
    ¬Always step State.Inherits (.new (fun l : Nat => l) fun _ : Nat => .stdout)
      [.addAppender 0 0, .setAppenderFormatter 0 none] := by
  intro h
  have hlast := h _ [] _ (List.append_nil _).symm rfl
  exact (hlast 0 0 (by decide)).1 rfl

/-- An appender that has inherited from one logger is attached to another one. -/
theorem movedOver_stale :
    ¬Always step State.Inherits (.new (fun l : Nat => l) fun _ : Nat => .stdout)
      [.addAppender 0 0, .delAppender 0 0, .addAppender 1 0] := by
  intro h
  have hlast := h _ [] _ (List.append_nil _).symm rfl
  have haddress := congrArg (Option.map FormatterPtr.address) ((hlast 1 0 (by decide)).2 rfl)
  revert haddress
  decide

/-! ## What follows -/

/-- The loop of `log` finds no null pointer. -/
theorem log_isSome {s : State L A} (h : s.Inherits) (l : L) (level : Level) :
    (s.log l level).isSome := by
  have hall : ∀ as : List A, (∀ a ∈ as, a ∈ (s.logger l).appenders) →
      (as.mapM fun a => (s.appender a).formatter).isSome := by
    intro as
    induction as with
    | nil => exact fun _ => rfl
    | cons a as ih =>
        intro has
        obtain ⟨f, hf⟩ := Option.ne_none_iff_exists'.mp (h l a (has a List.mem_cons_self)).1
        obtain ⟨fs, hfs⟩ := Option.isSome_iff_exists.mp
          (ih fun x hx => has x (List.mem_cons_of_mem a hx))
        rw [List.mapM_cons, hf, hfs]
        rfl
  rw [State.log]
  split
  · exact hall _ fun a ha => List.mem_of_mem_filter ha
  · rfl

/-! ## Loggers as values

A logger with its appenders is a `Log.Logger`, which knows nothing of pointers.
As long as every call keeps what is inherited, the calls on the logger make of
it what they make of the value, and the calls on others make nothing of it
(`view_run`).
-/

/-- The appender as its logger knows it. -/
def Appender.value (a : Appender) : LogAppender where
  kind := a.kind
  level := a.level
  hasFormatter := a.hasFormatter
  formatter := a.formatter.map FormatterPtr.formatter

/-- A logger with its appenders. -/
def State.view (s : State L A) (l : L) : Log.Logger where
  level := (s.logger l).level
  formatter := (s.logger l).formatter.formatter
  appenders := (s.logger l).appenders.map fun a => (s.appender a).value

/-- The logger is seen as before, if it and its appenders are. -/
theorem view_congr {s s' : State L A} {l : L} (hl : s'.logger l = s.logger l)
    (ha : ∀ a ∈ (s.logger l).appenders, s'.appender a = s.appender a) :
    s'.view l = s.view l := by
  have happenders : (s.logger l).appenders.map (fun a => (s'.appender a).value) =
      (s.logger l).appenders.map fun a => (s.appender a).value :=
    List.map_congr_left fun a hmem => by rw [ha a hmem]
  rw [State.view, hl, happenders, State.view]

section View

variable [DecidableEq L]

theorem view_clearAppenders (s : State L A) (l : L) :
    (s.clearAppenders l).view l = (s.view l).clearAppenders := by
  simp [State.view, State.clearAppenders, Log.Logger.clearAppenders]

variable [DecidableEq A]

theorem view_setFormatterPtr (s : State L A) (l : L) (val : FormatterPtr) :
    (s.setFormatterPtr l val).view l = (s.view l).setFormatterPtr val.formatter := by
  rw [State.view, (State.setFormatterPtr_logger s l val).1, Log.Logger.setFormatterPtr]
  simp only [State.view, List.map_map, Log.Logger.mk.injEq, true_and]
  refine List.map_congr_left fun a ha => ?_
  rw [State.setFormatterPtr_appender]
  cases hown : (s.appender a).hasFormatter with
  | true => simp [Appender.value, hown]
  | false => simp [Appender.value, ha, hown]

theorem view_setFormatter (s : State L A) (l : L) (val : Text) (address : Nat) :
    (s.setFormatter l val address).view l = (s.view l).setFormatter val := by
  rw [State.setFormatter, Log.Logger.setFormatter]
  split
  · rfl
  · exact view_setFormatterPtr s l _

/-- Whatever is attached keeps its formatter. -/
theorem view_addAppender {s : State L A} (h : s.Inherits) (l : L) (a : A) :
    (s.addAppender l a).view l = (s.view l).addAppender (s.appender a).value := by
  rw [State.view, (State.addAppender_logger s l a).1, Log.Logger.addAppender]
  by_cases hnull : (s.appender a).formatter = none
  · obtain ⟨hset, hrest⟩ := State.addAppender_null (l := l) hnull
    have hold : ∀ x ∈ (s.logger l).appenders,
        (s.addAppender l a).appender x = s.appender x := by
      intro x hx
      refine hrest x ?_
      rintro rfl
      exact (h l x hx).1 hnull
    simp only [State.view, List.map_append, List.map_cons, List.map_nil, hset]
    rw [List.map_congr_left fun x hx => congrArg Appender.value (hold x hx)]
    simp [Appender.value, hnull]
  · have hset := State.addAppender_set (l := l) hnull
    simp [State.view, Appender.value, hset, hnull]

/-- What attaches to another logger is null, or stays as it is. -/
theorem view_addAppender_other {s : State L A} (h : s.Inherits) {l l' : L} (hl : l ≠ l') (a : A) :
    (s.addAppender l' a).view l = s.view l := by
  refine view_congr ((State.addAppender_logger s l' a).2 l hl) fun x hx => ?_
  by_cases hnull : (s.appender a).formatter = none
  · refine (State.addAppender_null hnull).2 x ?_
    rintro rfl
    exact (h l x hx).1 hnull
  · rw [State.addAppender_set hnull]

theorem view_setFormatterPtr_other {s : State L A} (h : s.Inherits) {l l' : L} (hl : l ≠ l')
    {val : FormatterPtr} (halone : s.Alone l' val) :
    (s.setFormatterPtr l' val).view l = s.view l := by
  refine view_congr ((State.setFormatterPtr_logger s l' val).2 l hl) fun x hx => ?_
  rw [State.setFormatterPtr_appender]
  split
  · -- an appender of both loggers has this formatter already
    rename_i hboth
    have hval := (halone x hboth.1 hboth.2 l hx).resolve_left hl
    rw [← hval, ← (h l x hx).2 hboth.2]
  · rfl

end View

/-- What a call makes of a logger, seen with its appenders. -/
def Call.seen [DecidableEq L] (s : State L A) (l : L) (x : Log.Logger) : Call L A → Log.Logger
  | addAppender l' a => if l' = l then x.addAppender (s.appender a).value else x
  | clearAppenders l' => if l' = l then x.clearAppenders else x
  | setFormatter l' val _ => if l' = l then x.setFormatter val else x
  | setFormatterPtr l' val => if l' = l then x.setFormatterPtr val.formatter else x
  | _ => x

/-- The call erases no appender of the logger, and changes none itself. -/
def Call.Whole (s : State L A) (l : L) : Call L A → Prop
  | delAppender l' _ => l' ≠ l
  | setAppenderFormatter a _ => a ∉ (s.logger l).appenders
  | _ => True

section Seen

variable [DecidableEq L] [DecidableEq A] {s : State L A} {l : L}

/-- **One call** on the pointers and on the value. -/
theorem view_apply (h : s.Inherits) {c : Call L A} (hkeeps : c.Keeps s) (hwhole : c.Whole s l) :
    (c.apply s).view l = c.seen s l (s.view l) := by
  cases c with
  | addAppender l' a =>
      by_cases hl : l' = l
      · subst hl
        exact (view_addAppender h l' a).trans (if_pos rfl).symm
      · exact (view_addAppender_other h (Ne.symm hl) a).trans (if_neg hl).symm
  | delAppender l' a => exact view_congr (setLogger_other (Ne.symm hwhole) _) fun _ _ => rfl
  | clearAppenders l' =>
      by_cases hl : l' = l
      · subst hl
        exact (view_clearAppenders s l').trans (if_pos rfl).symm
      · exact (view_congr (setLogger_other (Ne.symm hl) _) fun _ _ => rfl).trans (if_neg hl).symm
  | setFormatter l' val address =>
      by_cases hl : l' = l
      · subst hl
        exact (view_setFormatter s l' val address).trans (if_pos rfl).symm
      · refine Eq.trans ?_ (if_neg hl).symm
        show (s.setFormatter l' val address).view l = s.view l
        rw [State.setFormatter]
        split
        · rfl
        · rename_i hvalid
          exact view_setFormatterPtr_other h (Ne.symm hl) (hkeeps.resolve_left hvalid)
  | setFormatterPtr l' val =>
      by_cases hl : l' = l
      · subst hl
        exact (view_setFormatterPtr s l' val).trans (if_pos rfl).symm
      · exact (view_setFormatterPtr_other h (Ne.symm hl) hkeeps).trans (if_neg hl).symm
  | setAppenderFormatter a val =>
      refine view_congr rfl fun x hx => setAppender_other ?_ _
      rintro rfl
      exact hwhole hx

/-- What the calls of a run make of the logger. -/
def seenAll (l : L) : State L A → Log.Logger → List (Call L A) → Log.Logger
  | _, x, [] => x
  | s, x, c :: calls => seenAll l (c.apply s) (c.seen s l x) calls

/-- **The pointers refine the values**: in a run that keeps what is inherited a
logger is, with its appenders, what the calls on it make of its value. -/
theorem view_run {calls : List (Call L A)} {s' : State L A} (h : s.Inherits)
    (hok : Meets step (fun s c => c.Keeps s ∧ c.Whole s l) s calls)
    (hr : run step s calls = some s') : s'.view l = seenAll l s (s.view l) calls := by
  induction calls generalizing s with
  | nil =>
      cases hr
      rfl
  | cons c calls ih =>
      obtain ⟨⟨hkeeps, hwhole⟩, hrest⟩ := hok
      rw [seenAll, ← view_apply h hkeeps hwhole]
      exact ih ((inherits_apply_iff h c).mpr hkeeps) (hrest _ rfl) hr

end Seen

end Hps.Log.Sharing
