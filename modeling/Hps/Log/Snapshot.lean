import Hps.Config.RoundTrip
import Hps.Lib.OrderedSet
import Hps.Log.Define

/-!
# Log — the loggers as YAML

`LoggerManager::toYamlString` writes the loggers as they are, in the form in
which the configuration `logs` is read. Read by another process it gives every
logger its level and its pattern; of the appenders it gives those of the
standard output, and these without their levels (`restored_iff`).
-/

namespace Hps.Log

open Hps.YAML Hps.Lib

/-! ## The writers -/

/-- The node of `StdoutLogAppender::toYamlString` and of that of
`FileLogAppender`. -/
def LogAppender.toNode (a : LogAppender) : Node :=
  let node := match a.kind with
    | .stdout => Node.assign (text "level") (.scalar a.level.toString)
        (Node.assign (text "type") (.scalar (text "StdoutLogAppender")) [])
    | .file filename =>
        let node := Node.assign (text "file") (.scalar filename)
          (Node.assign (text "type") (.scalar (text "FiledoutLogAppender")) [])
        if a.level ≠ .UNKNOW then
          Node.assign (text "level") (.scalar a.level.toString) node else node
  match a.hasFormatter, a.formatter with
  | true, some f => .map (Node.assign (text "formatter") (.scalar f.pattern) node)
  | _, _ => .map node

section Writers

variable (yaml : YamlNodes)

def LogAppender.toYamlString (a : LogAppender) : Text := yaml.emit a.toNode

/-- The node of a logger, before its appenders. -/
def Logger.headPairs (l : Logger) (name : Text) : List (Node × Node) :=
  let node := Node.assign (text "name") (.scalar name) []
  let node := if l.level ≠ .UNKNOW then
    Node.assign (text "level") (.scalar l.level.toString) node else node
  Node.assign (text "formatter") (.scalar l.formatter.pattern) node

/-- `none` is an exception of `YAML::Load`. -/
def Logger.toYamlString (l : Logger) (name : Text) : Option Text := do
  let node ← l.appenders.foldlM (fun node i => do
    let n ← yaml.load (i.toYamlString yaml)
    pure (pushBack (text "appenders") n node)) (l.headPairs name)
  pure (yaml.emit (.map node))

/-- The loggers, with their names in the order of `m_loggers`. -/
structure LoggerManager where
  loggers : Loggers
  names : List Text
  sorted : names.Pairwise (· < ·)
  mem_names : ∀ n, n ∈ names ↔ (loggers n).isSome
  root : text "root" ∈ names

/-- A node to which nothing is pushed is a null. -/
def sequenceOf : List Node → Node
  | [] => .null
  | nodes => .sequence nodes

def LoggerManager.toYamlString (m : LoggerManager) : Option Text := do
  let nodes ← m.names.foldlM (fun nodes i => do
    let t ← (m.loggers.getLogger i).toYamlString yaml i
    let n ← yaml.load t
    pure (nodes ++ [n])) []
  pure (yaml.emit (sequenceOf nodes))

end Writers

/-! ## The reader -/

/-- `operator<` -/
def ByName (d oth : LogDefine) : Prop := d.name < oth.name

instance : DecidableRel ByName := fun d oth => inferInstanceAs (Decidable (d.name < oth.name))

instance : IsStrictOrder LogDefine ByName where
  irrefl d := List.lt_irrefl d.name
  trans _ _ _ := List.lt_trans

def LogDefines.insert (s : LogDefines) (d : LogDefine) : LogDefines :=
  ⟨OrderedSet.insert ByName d s.list, OrderedSet.insert_ordered s.sorted⟩

/-- `LexicalCast<std::string, std::set<LogDefine>>` -/
def LogDefines.ofText (yaml : YamlNodes) (v : Text) : Except ReadError LogDefines :=
  match yaml.load v with
  | none => throw .parser
  | some node => (List.range node.size).foldlM (fun vec i => do
      let x ← LogDefine.ofText yaml (yaml.emitAt node i)
      pure (vec.insert x)) .empty

/-! ## What is read of a logger -/

/-- The pattern of an appender's own formatter. -/
def LogAppender.ownPattern (a : LogAppender) : Text :=
  if a.hasFormatter then (a.formatter.map LogFormatter.pattern).getD [] else []

/-- The reader does not know the type that is written for a file. -/
def LogAppender.defined (a : LogAppender) : Option LogAppenderDefine :=
  match a.kind with
  | .stdout => some { type := .stdout, formatter := a.ownPattern }
  | .file _ => none

def Logger.defined (l : Logger) (name : Text) : LogDefine where
  name := name
  level := l.level
  formatter := l.formatter.pattern
  appenders := l.appenders.filterMap LogAppender.defined

/-- The node of a logger. -/
def Logger.toNode (l : Logger) (name : Text) : Node :=
  .map ((l.appenders.map LogAppender.toNode).foldl
    (fun node a => pushBack (text "appenders") a node) (l.headPairs name))

section Loading

variable (yaml : YamlNodes)

theorem snapshot_type (a : LogAppender) : child a.toNode (text "type") = .ok (some (.scalar
    (match a.kind with
      | .file _ => text "FiledoutLogAppender"
      | .stdout => text "StdoutLogAppender"))) := by
  obtain ⟨kind, level, hasFormatter, formatter⟩ := a
  rw [LogAppender.toNode]
  cases kind <;> cases hasFormatter <;> cases formatter <;>
    refine congrArg Except.ok ?_ <;>
    simp (disch := decide) [valueOf_ite, valueOf_assign_ne]

theorem snapshot_formatter (a : LogAppender) :
    stringOr yaml a.toNode (text "formatter") = .ok a.ownPattern := by
  obtain ⟨kind, level, hasFormatter, formatter⟩ := a
  have hvalue : child (LogAppender.toNode ⟨kind, level, hasFormatter, formatter⟩)
      (text "formatter") = .ok (match hasFormatter, formatter with
        | true, some f => some (.scalar f.pattern)
        | _, _ => none) := by
    rw [LogAppender.toNode]
    cases kind <;> cases hasFormatter <;> cases formatter <;>
      refine congrArg Except.ok ?_ <;>
      simp (disch := decide) [valueOf_ite, valueOf_assign_ne]
  rw [stringOr, hvalue]
  cases hasFormatter <;> cases formatter <;> rfl

/-- An appender that writes to a file is passed over. -/
theorem appenderOf_snapshot (a : LogAppender) :
    appenderOf yaml a.toNode = .ok a.defined := by
  have hformatter := snapshot_formatter yaml a
  rw [appenderOf, snapshot_type, LogAppender.defined]
  cases a.kind with
  | file filename =>
      have hfile : ¬text "FiledoutLogAppender" = text "FileLogAppender" := by decide
      have hstdout : ¬text "FiledoutLogAppender" = text "StdoutLogAppender" := by decide
      simp only [bind, Except.bind, pure, Except.pure, asString, if_neg hfile, if_neg hstdout]
  | stdout =>
      have hother : ¬text "StdoutLogAppender" = text "FileLogAppender" := by decide
      simp only [bind, Except.bind, pure, Except.pure, asString, if_neg hother, if_true,
        hformatter]

/-- The loop over the nodes of appenders. -/
theorem appendersOf_snapshot (as : List LogAppender) :
    appendersOf yaml (.sequence (as.map LogAppender.toNode)) =
      .ok (as.filterMap LogAppender.defined) := by
  have hindices : ∀ m ≤ as.length, (List.range m).foldlM (fun appenders x => do
      let lad ← appenderOf yaml (elementAt yaml (.sequence (as.map LogAppender.toNode)) x)
      pure (appenders ++ lad.toList)) [] =
        .ok ((as.take m).filterMap LogAppender.defined) := by
    intro m hm
    induction m with
    | zero => rfl
    | succ m ih =>
        have hnode : elementAt yaml (.sequence (as.map LogAppender.toNode)) m =
            as[m].toNode := by
          rw [elementAt, List.getElem?_map, List.getElem?_eq_getElem (by omega)]
          rfl
        have hone : [as[m]].filterMap LogAppender.defined = as[m].defined.toList := by
          rw [List.filterMap_cons]
          cases as[m].defined <;> rfl
        rw [List.range_succ, List.foldlM_append, ih (by omega),
          List.take_succ_eq_append_getElem hm, List.filterMap_append, hone]
        simp only [bind, Except.bind, List.foldlM_cons, List.foldlM_nil, hnode,
          appenderOf_snapshot]
        rfl
  have hall := hindices as.length le_rfl
  rw [List.take_length] at hall
  rw [appendersOf, Node.size, List.length_map]
  exact hall

/-! The fields of a logger. -/

variable (l : Logger) (name : Text)

/-- The fields before the appenders. -/
theorem snapshot_field {key : Text} (hkey : key ≠ text "appenders") :
    child (l.toNode name) key = .ok (valueOf key (l.headPairs name)) :=
  congrArg Except.ok (valueOf_pushed_ne hkey _)

theorem snapshot_name : child (l.toNode name) (text "name") = .ok (some (.scalar name)) := by
  rw [snapshot_field l name (by decide), Logger.headPairs]
  refine congrArg Except.ok ?_
  simp (disch := decide) [valueOf_ite, valueOf_assign_ne]

theorem snapshot_level : ∃ s, stringOr yaml (l.toNode name) (text "level") = .ok s ∧
    Level.fromString s = l.level := by
  have hvalue : child (l.toNode name) (text "level") =
      .ok (if l.level = .UNKNOW then none else some (.scalar l.level.toString)) := by
    rw [snapshot_field l name (by decide), Logger.headPairs]
    refine congrArg Except.ok ?_
    simp (disch := decide) [valueOf_ite, valueOf_assign_ne]
  rw [stringOr, hvalue]
  by_cases h : l.level = .UNKNOW
  · rw [if_pos h, h]
    exact ⟨[], rfl, rfl⟩
  · rw [if_neg h]
    exact ⟨l.level.toString, rfl, l.level.fromString_toString⟩

theorem snapshot_pattern :
    stringOr yaml (l.toNode name) (text "formatter") = .ok l.formatter.pattern := by
  have hvalue : child (l.toNode name) (text "formatter") =
      .ok (some (.scalar l.formatter.pattern)) := by
    rw [snapshot_field l name (by decide), Logger.headPairs]
    exact congrArg Except.ok (valueOf_assign ..)
  rw [stringOr, hvalue]
  rfl

theorem snapshot_appenders : child (l.toNode name) (text "appenders") =
    .ok (if l.appenders = [] then none
      else some (.sequence (l.appenders.map LogAppender.toNode))) := by
  have hnone : valueOf (text "appenders") (l.headPairs name) = none := by
    rw [Logger.headPairs]
    simp (disch := decide) [valueOf_ite, valueOf_assign_ne]
  have hpushed := valueOf_pushed hnone (l.appenders.map LogAppender.toNode)
  simp only [List.map_eq_nil_iff] at hpushed
  exact congrArg Except.ok hpushed

/-- A logger is read as what is left of it. -/
theorem ofNode_snapshot : LogDefine.ofNode yaml (l.toNode name) = .ok (l.defined name) := by
  obtain ⟨s, hs, hlevel⟩ := snapshot_level yaml l name
  have happenders := appendersOf_snapshot yaml l.appenders
  rw [LogDefine.ofNode, snapshot_name, hs, snapshot_pattern, snapshot_appenders,
    Logger.defined]
  by_cases h : l.appenders = []
  · rw [if_pos h, ← hlevel, h]
    rfl
  · rw [if_neg h, ← hlevel]
    simp only [bind, Except.bind, pure, Except.pure, asString, happenders]

end Loading

/-! ## What is read of the loggers -/

section Reading

variable {yaml : YamlNodes} {m : LoggerManager}

/-- What is written is loaded as the nodes that it was written from. -/
structure LoggerManager.Loads (yaml : YamlNodes) (m : LoggerManager) : Prop where
  appender : ∀ n ∈ m.names, ∀ a ∈ (m.loggers.getLogger n).appenders,
    yaml.load (yaml.emit a.toNode) = some a.toNode
  logger : ∀ n ∈ m.names, yaml.load (yaml.emit ((m.loggers.getLogger n).toNode n)) =
    some ((m.loggers.getLogger n).toNode n)
  all : yaml.load (yaml.emit (.sequence (m.names.map fun n => (m.loggers.getLogger n).toNode n))) =
    some (.sequence (m.names.map fun n => (m.loggers.getLogger n).toNode n))

theorem toYamlString_eq {l : Logger} (name : Text)
    (h : ∀ a ∈ l.appenders, yaml.load (yaml.emit a.toNode) = some a.toNode) :
    l.toYamlString yaml name = some (yaml.emit (l.toNode name)) := by
  have hloop : l.appenders.foldlM (fun node i => do
      let n ← yaml.load (i.toYamlString yaml)
      pure (pushBack (text "appenders") n node)) (l.headPairs name) =
        some ((l.appenders.map LogAppender.toNode).foldl
          (fun node a => pushBack (text "appenders") a node) (l.headPairs name)) := by
    apply Config.foldlM_map_some
    intro a ha node
    rw [LogAppender.toYamlString, h a ha]
    rfl
  rw [Logger.toYamlString, hloop]
  rfl

theorem dump_eq (h : m.Loads yaml) : m.toYamlString yaml =
    some (yaml.emit (.sequence (m.names.map fun n => (m.loggers.getLogger n).toNode n))) := by
  have hloop : m.names.foldlM (fun nodes i => do
      let t ← (m.loggers.getLogger i).toYamlString yaml i
      let n ← yaml.load t
      pure (nodes ++ [n])) [] =
        some ((m.names.map fun n => (m.loggers.getLogger n).toNode n).foldl
          (fun nodes n => nodes ++ [n]) []) := by
    apply Config.foldlM_map_some
    intro n hn nodes
    rw [toYamlString_eq n (h.appender n hn), Option.bind_eq_bind, Option.bind_some, h.logger n hn]
    rfl
  have hne : sequenceOf (m.names.map fun n => (m.loggers.getLogger n).toNode n) =
      .sequence (m.names.map fun n => (m.loggers.getLogger n).toNode n) := by
    cases hnames : m.names with
    | nil => exact absurd (hnames ▸ m.root) List.not_mem_nil
    | cons n names => rfl
  rw [LoggerManager.toYamlString, hloop, Container.foldl_concat, List.nil_append]
  exact congrArg some (congrArg yaml.emit hne)

/-- The definitions that are read, which come in their order. -/
def LoggerManager.defined (m : LoggerManager) : LogDefines where
  list := m.names.map fun n => (m.loggers.getLogger n).defined n
  sorted := List.pairwise_map.mpr m.sorted

/-- A loop that inserts in the order of the set. -/
theorem foldl_insert {s : LogDefines} {ds : List LogDefine}
    (h : (s.list ++ ds).Pairwise ByName) :
    (ds.foldl LogDefines.insert s).list = s.list ++ ds := by
  induction ds generalizing s with
  | nil => exact (List.append_nil _).symm
  | cons d ds ih =>
      have hlast : (s.insert d).list = s.list ++ [d] := by
        refine OrderedSet.insert_last fun x hx => ?_
        exact (List.pairwise_append.mp h).2.2 x hx d List.mem_cons_self
      rw [List.foldl_cons, ih, hlast, List.append_assoc, List.singleton_append]
      rw [hlast, List.append_assoc, List.singleton_append]
      exact h

theorem ofText_dump (h : m.Loads yaml) :
    LogDefines.ofText yaml
        (yaml.emit (.sequence (m.names.map fun n => (m.loggers.getLogger n).toNode n))) =
      .ok m.defined := by
  let step (vec : LogDefines) (t : Text) : Except ReadError LogDefines := do
    let x ← LogDefine.ofText yaml t
    pure (vec.insert x)
  set nodes := m.names.map fun n => (m.loggers.getLogger n).toNode n with hnodes
  have hindices : (List.range nodes.length).foldlM
      (fun vec i => step vec (yaml.emitAt (.sequence nodes) i)) .empty =
        m.names.foldlM (fun vec n =>
          step vec (yaml.emit ((m.loggers.getLogger n).toNode n))) .empty := by
    rw [← List.foldlM_map (g := step), Config.map_emitAt, hnodes, List.map_map, List.foldlM_map]
    rfl
  have hloop : ∀ (names : List Text) (vec : LogDefines), names ⊆ m.names →
      names.foldlM (fun vec n => step vec (yaml.emit ((m.loggers.getLogger n).toNode n))) vec =
        .ok ((names.map fun n => (m.loggers.getLogger n).defined n).foldl LogDefines.insert vec) := by
    intro names
    induction names with
    | nil => exact fun _ _ => rfl
    | cons n names ih =>
        intro vec hsub
        obtain ⟨hn, hnames⟩ := List.cons_subset.mp hsub
        have hone : LogDefine.ofText yaml (yaml.emit ((m.loggers.getLogger n).toNode n)) =
            .ok ((m.loggers.getLogger n).defined n) := by
          rw [LogDefine.ofText, h.logger n hn]
          exact ofNode_snapshot yaml _ n
        have hturn : step vec (yaml.emit ((m.loggers.getLogger n).toNode n)) =
            .ok (vec.insert ((m.loggers.getLogger n).defined n)) := by
          show (do let x ← LogDefine.ofText yaml _; pure (vec.insert x)) = _
          rw [hone]
          rfl
        rw [List.foldlM_cons, hturn]
        exact ih _ hnames
  rw [LogDefines.ofText, h.all]
  show (List.range nodes.length).foldlM
    (fun vec i => step vec (yaml.emitAt (.sequence nodes) i)) .empty = _
  rw [hindices, hloop m.names .empty (List.Subset.refl _)]
  have hsorted : (LogDefines.empty.list ++ m.defined.list).Pairwise ByName := m.defined.sorted
  have hlist := foldl_insert hsorted
  generalize hs : (m.defined.list.foldl LogDefines.insert .empty) = s at hlist
  obtain ⟨list, sorted⟩ := s
  obtain rfl : list = m.defined.list := hlist
  exact congrArg Except.ok hs

end Reading

/-! ## What comes back -/

/-- Another process makes the logger as it is: none of its appenders writes to
a file or has a level, and they have the patterns that are written. -/
def Logger.Restorable (daemon : Bool) (l : Logger) : Prop :=
  l.formatter.pattern ≠ [] ∧ ∀ a ∈ l.appenders, a.kind = .stdout ∧ daemon = false ∧
    a.level = .UNKNOW ∧
    a.formatter.map LogFormatter.pattern = some (orElse a.ownPattern l.formatter.pattern)

section Restoring

variable {daemon : Bool} {l : Logger} {p : Text}

theorem asked_defined (a : LogAppender) : (a.defined.bind (asked daemon p)) = some a.view ↔
    a.kind = .stdout ∧ daemon = false ∧ a.level = .UNKNOW ∧
      a.formatter.map LogFormatter.pattern = some (orElse a.ownPattern p) := by
  obtain ⟨kind, level, hasFormatter, formatter⟩ := a
  cases kind with
  | file filename => simp [LogAppender.defined]
  | stdout =>
      cases daemon with
      | true => simp [LogAppender.defined, asked, makeAppender]
      | false =>
          simp [LogAppender.defined, asked, makeAppender, LogAppender.view, eq_comm]

theorem orElse_default : orElse p defaultPattern = p ↔ p ≠ [] := by
  rw [orElse]
  split
  · rename_i hp
    rw [hp]
    decide
  · rename_i hp
    exact ⟨fun _ => hp, fun _ => rfl⟩

/-- What the definition that is read asks for is what the logger shows. -/
theorem asks_defined (name : Text) :
    (l.defined name).asks daemon defaultPattern = l.view ↔ l.Restorable daemon := by
  have happenders : ∀ p, (l.defined name).appenders.filterMap (asked daemon p) =
      l.appenders.map LogAppender.view ↔
        ∀ a ∈ l.appenders, a.kind = .stdout ∧ daemon = false ∧ a.level = .UNKNOW ∧
          a.formatter.map LogFormatter.pattern = some (orElse a.ownPattern p) := by
    intro p
    show (l.appenders.filterMap LogAppender.defined).filterMap _ = _ ↔ _
    rw [List.filterMap_filterMap, List.filterMap_eq_map_iff_forall_eq_some]
    exact forall₂_congr fun a _ => asked_defined a
  have hpattern : orElse (l.defined name).formatter defaultPattern = l.formatter.pattern ↔
      l.formatter.pattern ≠ [] := orElse_default
  rw [LogDefine.asks, Logger.view, LoggerView.mk.injEq, Logger.Restorable]
  constructor
  · rintro ⟨-, hp, ha⟩
    rw [hp, happenders] at ha
    exact ⟨hpattern.mp hp, ha⟩
  · rintro ⟨hp, ha⟩
    rw [hpattern.mpr hp, happenders]
    exact ⟨rfl, rfl, ha⟩

/-- **The loggers by their own YAML.** What `toYamlString` writes of the loggers
can be read as the value of `logs`, and in another process it makes all loggers
as they are exactly if none of their appenders writes to a file or has a level,
each has the pattern that is written for it, and no logger's pattern is empty. -/
theorem restored_iff (yaml : YamlNodes) (daemon : Bool) {m : LoggerManager}
    (hload : m.Loads yaml) (hvalid : ∀ n ∈ m.names, ((m.loggers.getLogger n).defined n).Valid) :
    ∃ t s, m.toYamlString yaml = some t ∧ LogDefines.ofText yaml t = .ok s ∧
      ((∀ n ∈ m.names, ((State.setValue daemon {} s).loggers.getLogger n).view =
          (m.loggers.getLogger n).view) ↔
        ∀ n ∈ m.names, (m.loggers.getLogger n).Restorable daemon) := by
  refine ⟨_, m.defined, dump_eq hload, ofText_dump hload, ?_⟩
  have hall : m.defined.Valid := by
    intro d hd
    obtain ⟨n, hn, rfl⟩ := List.mem_map.mp hd
    exact hvalid n hn
  refine forall₂_congr fun n hn => ?_
  have hd : (m.loggers.getLogger n).defined n ∈ m.defined.list :=
    List.mem_map.mpr ⟨n, hn, rfl⟩
  have hview : ((State.setValue daemon {} m.defined).loggers.getLogger n).view =
      ((m.loggers.getLogger n).defined n).asks daemon defaultPattern := setValue_new hall hd
  rw [hview]
  exact asks_defined n

end Restoring

/-- Two loggers, whose appenders take every level. -/
def twoLoggers : LoggerManager where
  loggers := Loggers.put (Loggers.put (fun _ => none) (text "root")
      (Logger.addAppender {} (LogAppender.setLevel { kind := .stdout } .UNKNOW)))
    (text "system") (Logger.addAppender (Logger.setLevel {} .ERROR)
      ((LogAppender.setLevel { kind := .stdout } .UNKNOW).setFormatter (some (.new (text "%m")))))
  names := [text "root", text "system"]
  sorted := by decide
  mem_names n := by
    simp only [Loggers.put, List.mem_cons, List.not_mem_nil, or_false]
    split_ifs <;> simp_all
  root := List.mem_cons_self

theorem twoLoggers_restored : ∃ t s, twoLoggers.toYamlString plainNodes = some t ∧
    LogDefines.ofText plainNodes t = .ok s ∧
      ∀ n ∈ twoLoggers.names, ((State.setValue false {} s).loggers.getLogger n).view =
        (twoLoggers.loggers.getLogger n).view := by
  have hload : twoLoggers.Loads plainNodes :=
    ⟨fun _ _ _ _ => plainNodes_load _, fun _ _ => plainNodes_load _, plainNodes_load _⟩
  have hvalid : ∀ n ∈ twoLoggers.names, ((twoLoggers.loggers.getLogger n).defined n).Valid := by
    simp only [twoLoggers, List.forall_mem_cons]
    exact ⟨⟨by decide, by decide⟩, ⟨by decide, by decide⟩, List.forall_mem_nil _⟩
  have hrestorable : ∀ n ∈ twoLoggers.names,
      (twoLoggers.loggers.getLogger n).Restorable false := by
    simp only [twoLoggers, List.forall_mem_cons]
    exact ⟨⟨by decide, by decide⟩, ⟨by decide, by decide⟩, List.forall_mem_nil _⟩
  obtain ⟨t, s, ht, hs, hiff⟩ := restored_iff plainNodes false hload hvalid
  exact ⟨t, s, ht, hs, hiff.mpr hrestorable⟩

end Hps.Log
