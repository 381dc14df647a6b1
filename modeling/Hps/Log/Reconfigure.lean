import Hps.Log.Model

/-!
# Log — configuration

`g_log_defines` and its listener. A new value is compared with the old one,
first as a whole and then logger by logger, and only what differs is applied.
The comparison does not look at the appenders, and a formatter that is left
out is not taken back: `reconfigured_iff` says for which pairs of values the
loggers come out as a fresh configuration makes them.
-/

namespace Hps.Log

/-! ## Definitions -/

/-- `type` of `LogAppenderDefine`, 1 or 2. -/
inductive AppenderType where
  | file
  | stdout
  deriving DecidableEq, Repr

structure LogAppenderDefine where
  type : AppenderType
  level : Level := .UNKNOW
  formatter : Text := []
  file : Text := []
  deriving DecidableEq

structure LogDefine where
  name : Text
  level : Level := .UNKNOW
  formatter : Text := []
  appenders : List LogAppenderDefine := []
  deriving DecidableEq

/-- `operator==`, which compares the appenders of the left side with
themselves. -/
def LogDefine.eq (d oth : LogDefine) : Bool :=
  d.name = oth.name && d.level = oth.level && d.formatter = oth.formatter &&
    d.appenders = d.appenders

/-- `std::set<LogDefine>`: in the order of the names, no name twice. -/
structure LogDefines where
  list : List LogDefine
  sorted : list.Pairwise fun d oth => d.name < oth.name

namespace LogDefines

def empty : LogDefines := ⟨[], .nil⟩

/-- `find`, by the name. -/
def find (s : LogDefines) (d : LogDefine) : Option LogDefine :=
  s.list.find? fun x => x.name = d.name

/-- `operator==` of the set. -/
def eq (s oth : LogDefines) : Bool :=
  s.list.length = oth.list.length &&
    (s.list.zip oth.list).all fun x => x.1.eq x.2

end LogDefines

/-! ## The listener -/

section Listener

-- `daemon`: `EnvMgr` has the option `d`
variable (daemon : Bool)

/-- The appender a definition makes, if any. -/
def makeAppender (a : LogAppenderDefine) : Option LogAppender :=
  match a.type with
  | .file => some { kind := .file a.file }
  | .stdout => if daemon then none else some { kind := .stdout }

/-- The loop over the appenders of a definition. -/
def addAppenders (l : Logger) (as : List LogAppenderDefine) : Logger :=
  as.foldl (fun l a =>
    match makeAppender daemon a with
    | none => l
    | some ap =>
        let ap := ap.setLevel a.level
        let ap :=
          if a.formatter = [] then ap
          else
            let fmt := LogFormatter.new a.formatter
            if fmt.error then ap else ap.setFormatter (some fmt)
        l.addAppender ap) l

/-- What the listener does to the logger of a definition. -/
def configure (l : Logger) (d : LogDefine) : Logger :=
  let l := l.setLevel d.level
  let l := if d.formatter = [] then l else l.setFormatter d.formatter
  addAppenders daemon l.clearAppenders d.appenders

/-- One turn of the loop over the new value. -/
def applyDefine (old : LogDefines) (ls : Loggers) (d : LogDefine) : Loggers :=
  match old.find d with
  | none => ls.put d.name (configure daemon (ls.getLogger d.name) d)
  | some x =>
      if d.eq x then ls
      else ls.put d.name (configure daemon (ls.getLogger d.name) d)

/-- One turn of the loop over the old value. -/
def removeDefine (new : LogDefines) (ls : Loggers) (d : LogDefine) : Loggers :=
  match new.find d with
  | some _ => ls
  | none =>
      ls.put d.name (((ls.getLogger d.name).setLevel .UNKNOW).clearAppenders)

def listener (old new : LogDefines) (ls : Loggers) : Loggers :=
  old.list.foldl (removeDefine new) (new.list.foldl (applyDefine daemon old) ls)

/-- The value of `g_log_defines` and the loggers. -/
structure State where
  value : LogDefines := .empty
  loggers : Loggers := .new

/-- `g_log_defines->setValue(v)` -/
def State.setValue (s : State) (v : LogDefines) : State :=
  if v.eq s.value then s
  else { value := v, loggers := listener daemon s.value v s.loggers }

end Listener

/-! ## What a configuration shows -/

/-- Type, file, level and formatter of an appender. -/
structure AppenderView where
  kind : AppenderKind
  level : Level
  pattern : Option Text
  deriving DecidableEq

def LogAppender.view (a : LogAppender) : AppenderView :=
  ⟨a.kind, a.level, a.formatter.map LogFormatter.pattern⟩

structure LoggerView where
  level : Level
  pattern : Text
  appenders : List AppenderView
  deriving DecidableEq

def Logger.view (l : Logger) : LoggerView :=
  ⟨l.level, l.formatter.pattern, l.appenders.map LogAppender.view⟩

/-- The patterns of the definition that are not left out have no error. -/
def LogDefine.Valid (d : LogDefine) : Prop :=
  (d.formatter ≠ [] → (LogFormatter.new d.formatter).error = false) ∧
  ∀ a ∈ d.appenders, a.formatter ≠ [] → (LogFormatter.new a.formatter).error = false

def LogDefines.Valid (s : LogDefines) : Prop := ∀ d ∈ s.list, d.Valid

/-- A pattern, or another where it is left out. -/
def orElse (pattern other : Text) : Text := if pattern = [] then other else pattern

/-- What a definition of an appender asks for, in a logger with the pattern. -/
def asked (daemon : Bool) (pattern : Text) (a : LogAppenderDefine) :
    Option AppenderView :=
  (makeAppender daemon a).map fun ap =>
    ⟨ap.kind, a.level, some (orElse a.formatter pattern)⟩

/-- What a definition asks for, of a logger that has the pattern. -/
def LogDefine.asks (daemon : Bool) (pattern : Text) (d : LogDefine) : LoggerView where
  level := d.level
  pattern := orElse d.formatter pattern
  appenders := d.appenders.filterMap (asked daemon (orElse d.formatter pattern))

@[simp] theorem pattern_new (p : Text) : (LogFormatter.new p).pattern = p := rfl

section Configure

variable {daemon : Bool}

/-- The loop over the appenders adds what they ask for. -/
theorem addAppenders_view {as : List LogAppenderDefine} (l : Logger)
    (h : ∀ a ∈ as, a.formatter ≠ [] → (LogFormatter.new a.formatter).error = false) :
    (addAppenders daemon l as).view =
      { l.view with
        appenders := l.view.appenders ++
          as.filterMap (asked daemon l.formatter.pattern) } := by
  induction as generalizing l with
  | nil => simp [addAppenders, Logger.view]
  | cons a as ih =>
      have hrest := fun x hx => h x (List.mem_cons_of_mem a hx)
      cases hm : makeAppender daemon a with
      | none =>
          have hask : asked daemon l.formatter.pattern a = none := by
            rw [asked, hm]
            rfl
          rw [List.filterMap_cons_none hask, ← ih l hrest]
          simp only [addAppenders, List.foldl_cons, hm]
      | some ap =>
          obtain ⟨hnone, -⟩ : ap.formatter = none ∧ ap.hasFormatter = false := by
            unfold makeAppender at hm
            split at hm
            · cases hm
              exact ⟨rfl, rfl⟩
            · split at hm
              · cases hm
              · cases hm
                exact ⟨rfl, rfl⟩
          have hask : asked daemon l.formatter.pattern a =
              some ⟨ap.kind, a.level, some (orElse a.formatter l.formatter.pattern)⟩ := by
            rw [asked, hm]
            rfl
          rw [List.filterMap_cons_some hask]
          by_cases hf : a.formatter = []
          · have hstep : addAppenders daemon l (a :: as) =
                addAppenders daemon (l.addAppender (ap.setLevel a.level)) as := by
              simp only [addAppenders, List.foldl_cons, hm, hf, if_true]
            rw [hstep, ih _ hrest]
            simp [Logger.view, Logger.addAppender, LogAppender.setLevel, hnone,
              LogAppender.view, orElse, hf]
          · have hstep : addAppenders daemon l (a :: as) =
                addAppenders daemon (l.addAppender ((ap.setLevel a.level).setFormatter
                  (some (.new a.formatter)))) as := by
              simp only [addAppenders, List.foldl_cons, hm, hf, if_false,
                h a List.mem_cons_self hf, Bool.false_eq_true]
            rw [hstep, ih _ hrest]
            simp [Logger.view, Logger.addAppender, LogAppender.setLevel,
              LogAppender.setFormatter, LogAppender.view, orElse, hf]

/-- **A configured logger shows what its definition asks for**, with the
pattern it had where the definition leaves it out. -/
theorem configure_view (l : Logger) {d : LogDefine} (h : d.Valid) :
    (configure daemon l d).view = d.asks daemon l.formatter.pattern := by
  simp only [configure]
  by_cases hf : d.formatter = []
  · rw [if_pos hf, addAppenders_view _ h.2]
    simp [LogDefine.asks, orElse, hf, Logger.view, Logger.clearAppenders,
      Logger.setLevel]
  · rw [if_neg hf, addAppenders_view _ h.2]
    simp [LogDefine.asks, orElse, hf, Logger.view, Logger.clearAppenders,
      Logger.setFormatter, Logger.setFormatterPtr, Logger.setLevel, h.1 hf]

end Configure

/-! ## The loops over the definitions -/

section Loops

variable {daemon : Bool} {old new s : LogDefines} {ls : Loggers} {d x : LogDefine}

theorem LogDefines.names_ne (s : LogDefines) :
    s.list.Pairwise fun d oth => d.name ≠ oth.name := by
  refine s.sorted.imp fun {a b} h hn => ?_
  exact List.lt_irrefl b.name (hn ▸ h)

theorem LogDefines.eq_of_name (hd : d ∈ s.list) (hx : x ∈ s.list)
    (h : x.name = d.name) : x = d := by
  have hp := s.names_ne
  generalize s.list = l at hd hx hp
  induction hp with
  | nil => cases hd
  | cons hne _ ih =>
      rcases List.mem_cons.mp hd with rfl | hd'
      · rcases List.mem_cons.mp hx with rfl | hx'
        · rfl
        · exact absurd h.symm (hne x hx')
      · rcases List.mem_cons.mp hx with rfl | hx'
        · exact absurd h (hne d hd')
        · exact ih hd' hx'

theorem find_eq_none (h : ∀ x ∈ s.list, x.name ≠ d.name) : s.find d = none := by
  rw [LogDefines.find, List.find?_eq_none]
  intro x hx
  simpa using h x hx

theorem find_eq_some (hx : x ∈ s.list) (h : x.name = d.name) : s.find d = some x := by
  cases hf : s.find d with
  | none =>
      have := List.find?_eq_none.mp hf x hx
      exact absurd h (by simpa using this)
  | some y =>
      have hy := List.mem_of_find?_eq_some hf
      have hyn : y.name = d.name := by simpa using List.find?_some hf
      rw [s.eq_of_name hx hy (hyn.trans h.symm)]

theorem applyDefine_other {n : Text} (h : d.name ≠ n) :
    applyDefine daemon old ls d n = ls n := by
  have hput : ∀ l, ls.put d.name l n = ls n := fun l => if_neg (Ne.symm h)
  cases hf : old.find d with
  | none => simp only [applyDefine, hf, hput]
  | some x =>
      simp only [applyDefine, hf]
      split
      · rfl
      · exact hput _

/-- A logger whose definition is new or differs is configured. -/
theorem applyDefine_self :
    applyDefine daemon old ls d d.name =
      if (old.find d).any d.eq then ls d.name
      else some (configure daemon (ls.getLogger d.name) d) := by
  have hput : ∀ l, ls.put d.name l d.name = some l := fun l => if_pos rfl
  cases hf : old.find d with
  | none => simp only [applyDefine, hf, hput, Option.any_none, Bool.false_eq_true,
      if_false]
  | some x =>
      simp only [applyDefine, hf, Option.any_some]
      split
      · rfl
      · exact hput _

theorem removeDefine_named {n : Text} (h : ∃ x ∈ new.list, x.name = n) :
    removeDefine new ls d n = ls n := by
  obtain ⟨x, hx, rfl⟩ := h
  cases hf : new.find d with
  | some y => simp only [removeDefine, hf]
  | none =>
      simp only [removeDefine, hf]
      by_cases hn : x.name = d.name
      · rw [find_eq_some hx hn] at hf
        cases hf
      · exact if_neg hn

theorem foldl_applyDefine_other {l : List LogDefine} {n : Text}
    (h : ∀ x ∈ l, x.name ≠ n) :
    l.foldl (applyDefine daemon old) ls n = ls n := by
  induction l generalizing ls with
  | nil => rfl
  | cons x l ih =>
      rw [List.foldl_cons, ih fun y hy => h y (List.mem_cons_of_mem x hy)]
      exact applyDefine_other (h x List.mem_cons_self)

theorem foldl_applyDefine {l : List LogDefine} (hp : l.Pairwise (·.name ≠ ·.name))
    (hd : d ∈ l) :
    l.foldl (applyDefine daemon old) ls d.name =
      applyDefine daemon old ls d d.name := by
  induction hp generalizing ls with
  | nil => cases hd
  | @cons x l hne _ ih =>
      rw [List.foldl_cons]
      rcases List.mem_cons.mp hd with rfl | hd'
      · exact foldl_applyDefine_other fun y hy => (hne y hy).symm
      · have hsame : applyDefine daemon old ls x d.name = ls d.name :=
          applyDefine_other (hne d hd')
        rw [ih hd', applyDefine_self, applyDefine_self, hsame, Loggers.getLogger,
          hsame]
        rfl

/-- The listener on a logger of the new value. -/
theorem listener_named (hd : d ∈ new.list) :
    listener daemon old new ls d.name = applyDefine daemon old ls d d.name := by
  have hremove : ∀ (l : List LogDefine) (ls : Loggers),
      l.foldl (removeDefine new) ls d.name = ls d.name := by
    intro l
    induction l with
    | nil => exact fun _ => rfl
    | cons x l ih =>
        intro ls
        rw [List.foldl_cons, ih]
        exact removeDefine_named ⟨d, hd, rfl⟩
  rw [listener, hremove]
  exact foldl_applyDefine new.names_ne hd

end Loops

/-! ## Configuring twice -/

section Twice

variable {daemon : Bool} {old new s : LogDefines} {d x : LogDefine}

/-- The pattern of a logger that has not been configured is the default. -/
theorem new_getLogger_pattern (n : Text) :
    (Loggers.new.getLogger n).formatter.pattern = defaultPattern := by
  unfold Loggers.getLogger Loggers.new
  split_ifs <;> rfl

theorem eq_names (h : new.eq old = true) (hd : d ∈ new.list) :
    ∃ x ∈ old.list, x.name = d.name ∧ d.eq x = true := by
  rw [LogDefines.eq, Bool.and_eq_true, decide_eq_true_iff, List.all_eq_true] at h
  obtain ⟨hlen, hall⟩ := h
  obtain ⟨i, hi, rfl⟩ := List.getElem_of_mem hd
  have hio : i < old.list.length := hlen ▸ hi
  have hzip : (new.list[i], old.list[i]) ∈ new.list.zip old.list := by
    rw [← List.getElem_zip (h := by rw [List.length_zip]; omega)]
    exact List.getElem_mem _
  have heq := hall _ hzip
  refine ⟨old.list[i], List.getElem_mem hio, ?_, heq⟩
  simp only [LogDefine.eq, Bool.and_eq_true, decide_eq_true_eq] at heq
  exact heq.1.1.1.symm

theorem setValue_differs {c : State} (h : ¬s.eq c.value = true) :
    (c.setValue daemon s).loggers = listener daemon c.value s c.loggers := by
  rw [State.setValue, if_neg h]

theorem setValue_same {c : State} (h : s.eq c.value = true) :
    c.setValue daemon s = c := if_pos h

/-- **A first configuration** gives every logger what its definition asks
for. -/
theorem setValue_new (hs : s.Valid) (hd : d ∈ s.list) :
    ((State.setValue daemon {} s).loggers.getLogger d.name).view =
      d.asks daemon defaultPattern := by
  have hne : ¬s.eq (State.value {}) = true := by
    intro h
    obtain ⟨x, hx, -⟩ := eq_names h hd
    cases hx
  rw [setValue_differs hne, Loggers.getLogger, listener_named hd,
    applyDefine_self, find_eq_none (by rintro x ⟨⟩)]
  simp only [Option.any_none, Bool.false_eq_true, if_false, Option.getD_some]
  rw [configure_view _ (hs d hd), new_getLogger_pattern]

theorem setValue_new_value : (State.setValue daemon {} s).value.list = s.list := by
  by_cases h : s.eq (State.value {}) = true
  · have hlen : s.list.length = 0 := by
      rw [LogDefines.eq, Bool.and_eq_true, decide_eq_true_iff] at h
      exact h.1
    rw [setValue_same h, List.eq_nil_of_length_eq_zero hlen]
    rfl
  · rw [State.setValue, if_neg h]

/-- A logger without a definition has the default pattern. -/
theorem setValue_new_other (h : ∀ x ∈ s.list, x.name ≠ d.name) :
    ((State.setValue daemon {} s).loggers.getLogger d.name).formatter.pattern =
      defaultPattern := by
  by_cases heq : s.eq (State.value {}) = true
  · rw [setValue_same heq]
    exact new_getLogger_pattern _
  · have hlist : listener daemon (State.value {}) s (State.loggers {}) d.name =
        Loggers.new d.name := foldl_applyDefine_other h
    rw [setValue_differs heq, Loggers.getLogger, hlist]
    exact new_getLogger_pattern _

/-- The new value on the loggers of the old one: a logger whose definition
compares equal stays as it is, any other is configured. -/
theorem setValue_twice (hd : d ∈ new.list) :
    ((State.setValue daemon {} old).setValue daemon new).loggers.getLogger d.name =
      if (old.find d).any d.eq then
        (State.setValue daemon {} old).loggers.getLogger d.name
      else configure daemon
        ((State.setValue daemon {} old).loggers.getLogger d.name) d := by
  have hfind : (State.setValue daemon {} old).value.find d = old.find d := by
    rw [LogDefines.find, LogDefines.find, setValue_new_value]
  by_cases h : new.eq (State.setValue daemon {} old).value = true
  · obtain ⟨x, hx, hn, heq⟩ := eq_names h hd
    rw [setValue_same h, ← hfind, find_eq_some hx hn, Option.any_some, if_pos heq]
  · rw [setValue_differs h, Loggers.getLogger, listener_named hd, applyDefine_self,
      hfind]
    split_ifs <;> rfl

end Twice

/-! ## The result -/

/-- Every logger of the new value shows what it shows when the new value is
the first. -/
def Reconfigures (daemon : Bool) (old new : LogDefines) : Prop :=
  ∀ d ∈ new.list,
    (((State.setValue daemon {} old).setValue daemon new).loggers.getLogger
        d.name).view =
      ((State.setValue daemon {} new).loggers.getLogger d.name).view

/-- The change from the definition `x` to `d` is noticed and applied: with
the same level and formatter the appenders are the same, and otherwise a
formatter that is left out was so before, or was the default. -/
def Noticed (daemon : Bool) (x d : LogDefine) : Prop :=
  if x.level = d.level ∧ x.formatter = d.formatter then
    x.appenders.filterMap (asked daemon (orElse d.formatter defaultPattern)) =
      d.appenders.filterMap (asked daemon (orElse d.formatter defaultPattern))
  else d.formatter = [] → x.formatter = [] ∨ x.formatter = defaultPattern

instance (daemon : Bool) (x d : LogDefine) : Decidable (Noticed daemon x d) :=
  inferInstanceAs (Decidable (
    if x.level = d.level ∧ x.formatter = d.formatter then
      x.appenders.filterMap (asked daemon (orElse d.formatter defaultPattern)) =
        d.appenders.filterMap (asked daemon (orElse d.formatter defaultPattern))
    else d.formatter = [] → x.formatter = [] ∨ x.formatter = defaultPattern))

theorem asks_inj {daemon : Bool} {p q : Text} {d : LogDefine} :
    d.asks daemon p = d.asks daemon q ↔ orElse d.formatter p = orElse d.formatter q := by
  constructor
  · exact fun h => congrArg LoggerView.pattern h
  · intro h
    rw [LogDefine.asks, LogDefine.asks, h]

theorem asks_eq_iff {daemon : Bool} {p : Text} {x d : LogDefine}
    (hl : x.level = d.level) (hf : x.formatter = d.formatter) :
    x.asks daemon p = d.asks daemon p ↔
      x.appenders.filterMap (asked daemon (orElse d.formatter p)) =
        d.appenders.filterMap (asked daemon (orElse d.formatter p)) := by
  simp only [LogDefine.asks, hl, hf, LoggerView.mk.injEq, true_and]

theorem orElse_orElse {f g p : Text} :
    orElse f (orElse g p) = orElse f p ↔ (f = [] → g = [] ∨ g = p) := by
  unfold orElse
  by_cases hf : f = []
  · by_cases hg : g = []
    · simp only [hf, hg, if_true, true_or, imp_self]
    · simp only [hf, hg, if_true, if_false, false_or, true_imp_iff]
  · simp only [hf, if_false, false_imp_iff]

theorem noticed_iff {daemon : Bool} {old new : LogDefines} {x d : LogDefine}
    (hold : old.Valid) (hnew : new.Valid) (hd : d ∈ new.list) (hx : x ∈ old.list)
    (hn : x.name = d.name) :
    (((State.setValue daemon {} old).setValue daemon new).loggers.getLogger
        d.name).view = d.asks daemon defaultPattern ↔ Noticed daemon x d := by
  have hview : ((State.setValue daemon {} old).loggers.getLogger x.name).view =
      x.asks daemon defaultPattern := setValue_new hold hx
  rw [hn] at hview
  have heq : d.eq x = true ↔ x.level = d.level ∧ x.formatter = d.formatter := by
    simp only [LogDefine.eq, hn, decide_true, Bool.true_and, Bool.and_true,
      Bool.and_eq_true, decide_eq_true_eq]
    exact ⟨fun h => ⟨h.1.symm, h.2.symm⟩, fun h => ⟨h.1.symm, h.2.symm⟩⟩
  rw [setValue_twice hd, find_eq_some hx hn, Option.any_some, Noticed]
  by_cases h : x.level = d.level ∧ x.formatter = d.formatter
  · rw [if_pos (heq.mpr h), if_pos h, hview]
    exact asks_eq_iff h.1 h.2
  · have hpat := congrArg LoggerView.pattern hview
    rw [if_neg (mt heq.mp h), if_neg h, configure_view _ (hnew d hd),
      show (((State.setValue daemon {} old).loggers.getLogger
        d.name).formatter.pattern) = orElse x.formatter defaultPattern from hpat,
      asks_inj]
    exact orElse_orElse

/-- **A new value leaves the loggers as a first one would exactly if every
change of a definition is noticed.** -/
theorem reconfigured_iff (daemon : Bool) {old new : LogDefines}
    (hold : old.Valid) (hnew : new.Valid) :
    Reconfigures daemon old new ↔
      ∀ d ∈ new.list, ∀ x ∈ old.list, x.name = d.name → Noticed daemon x d := by
  constructor
  · intro h d hd x hx hn
    rw [← noticed_iff hold hnew hd hx hn, h d hd]
    exact setValue_new hnew hd
  · intro h d hd
    rw [setValue_new hnew hd]
    by_cases hx : ∃ x ∈ old.list, x.name = d.name
    · obtain ⟨x, hx, hn⟩ := hx
      exact (noticed_iff hold hnew hd hx hn).mpr (h d hd x hx hn)
    · have hnone : ∀ x ∈ old.list, x.name ≠ d.name := fun x hxo hn => hx ⟨x, hxo, hn⟩
      rw [setValue_twice hd, find_eq_none hnone, Option.any_none,
        if_neg Bool.false_ne_true, configure_view _ (hnew d hd),
        setValue_new_other hnone]

/-- One logger, with the appenders. -/
def oneLogger (level : Level) (appenders : List LogAppenderDefine) : LogDefines :=
  ⟨[{ name := text "system", level, appenders }], List.pairwise_singleton _ _⟩

theorem oneLogger_valid (level : Level) {appenders : List LogAppenderDefine}
    (h : ∀ a ∈ appenders, a.formatter = []) : (oneLogger level appenders).Valid := by
  intro d hd
  obtain rfl := List.mem_singleton.mp hd
  exact ⟨fun hne => absurd rfl hne, fun a ha hne => absurd (h a ha) hne⟩

/-- A logger that is given a file and another level. -/
theorem file_added_reconfigures :
    Reconfigures false (oneLogger .INFO [{ type := .stdout }])
      (oneLogger .WARN [{ type := .stdout }, { type := .file, file := text "a.log" }]) := by
  refine (reconfigured_iff false (oneLogger_valid _ (by decide))
    (oneLogger_valid _ (by decide))).mpr ?_
  intro d hd x hx _
  obtain rfl := List.mem_singleton.mp hd
  obtain rfl := List.mem_singleton.mp hx
  decide

/-- A logger that is given a file and keeps its level. -/
theorem file_added_unnoticed : ¬∀ (daemon : Bool) (old new : LogDefines),
    old.Valid → new.Valid → Reconfigures daemon old new := by
  intro h
  have hr := h false (oneLogger .INFO [{ type := .stdout }])
    (oneLogger .INFO [{ type := .stdout }, { type := .file, file := text "a.log" }])
    (oneLogger_valid _ (by decide)) (oneLogger_valid _ (by decide)) _ List.mem_cons_self
  revert hr
  decide

end Hps.Log
