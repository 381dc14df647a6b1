import Hps.Config.LexicalCast
import Hps.Config.PlainYaml
import Hps.Log.Reconfigure

/-!
# Log — definitions as YAML

`LexicalCast` between a `LogDefine` and its YAML text. The writer puts the
level of an appender into the text and the reader never asks for it, so that a
definition comes back without it (`fromText_toText`).
-/

namespace Hps.Log

open Hps.YAML

/-! ## Levels -/

/-- The macro lines of `FromString`, in their order. -/
def levelNames : List (Text × Level) :=
  [(text "debug", .DEBUG), (text "info", .INFO), (text "warn", .WARN), (text "error", .ERROR),
   (text "fatal", .FATAL), (text "DEBUG", .DEBUG), (text "INFO", .INFO), (text "WARN", .WARN),
   (text "ERROR", .ERROR), (text "FATAL", .FATAL)]

/-- `LogLevel::FromString` -/
def Level.fromString (str : Text) : Level := (levelNames.lookup str).getD .UNKNOW

theorem Level.fromString_toString (l : Level) : Level.fromString l.toString = l := by
  cases l <;> decide

/-! ## Nodes -/

/-- What the reader throws. -/
inductive ReadError where
  /-- `YAML::Load` -/
  | parser
  /-- `std::logic_error` -/
  | logic (what : Text)
  /-- a key of a scalar -/
  | subscript
  /-- `as` of a node of another kind -/
  | conversion
  deriving DecidableEq

/-- What else a reader sees of yaml-cpp. -/
structure YamlNodes extends YamlCpp where
  /-- What `as<std::string>()` makes of a null, if it does not throw. -/
  nullText : Option Text
  /-- `node[i]` of a map. -/
  keyed : List (Node × Node) → Nat → Option Node

/-- The value of a key of a map. -/
def valueOf (key : Text) : List (Node × Node) → Option Node
  | [] => none
  | (.scalar k, v) :: pairs => if k = key then some v else valueOf key pairs
  | _ :: pairs => valueOf key pairs

/-- `node[key]`; `none` is a node that is not defined. -/
def child (node : Node) (key : Text) : Except ReadError (Option Node) :=
  match node with
  | .scalar _ => throw .subscript
  | .map pairs => pure (valueOf key pairs)
  | _ => pure none

/-- `n["appenders"].push_back(na)` -/
def pushBack (key : Text) (value : Node) (pairs : List (Node × Node)) : List (Node × Node) :=
  match valueOf key pairs with
  | some (.sequence nodes) => Node.assign key (.sequence (nodes ++ [value])) pairs
  | _ => Node.assign key (.sequence [value]) pairs

/-! ## The writer -/

/-- `na` -/
def LogAppenderDefine.toNode (a : LogAppenderDefine) : Node :=
  let na := match a.type with
    | .file => Node.assign (text "file") (.scalar a.file)
        (Node.assign (text "type") (.scalar (text "FileLogAppender")) [])
    | .stdout => Node.assign (text "type") (.scalar (text "StdoutLogAppender")) []
  let na := if a.level ≠ .UNKNOW then
    Node.assign (text "level") (.scalar a.level.toString) na else na
  let na := if a.formatter ≠ [] then
    Node.assign (text "formatter") (.scalar a.formatter) na else na
  .map na

/-- `n`, before the appenders. -/
def LogDefine.headPairs (i : LogDefine) : List (Node × Node) :=
  let n := Node.assign (text "name") (.scalar i.name) []
  let n := if i.level ≠ .UNKNOW then
    Node.assign (text "level") (.scalar i.level.toString) n else n
  if i.formatter ≠ [] then Node.assign (text "formatter") (.scalar i.formatter) n else n

def LogDefine.toNode (i : LogDefine) : Node :=
  .map (i.appenders.foldl (fun n a => pushBack (text "appenders") a.toNode n) i.headPairs)

/-- `LexicalCast<LogDefine, std::string>` -/
def LogDefine.toText (yaml : YamlNodes) (i : LogDefine) : Text := yaml.emit i.toNode

/-! ## The reader -/

section Reader

variable (yaml : YamlNodes)

/-- `as<std::string>()` -/
def asString : Node → Except ReadError Text
  | .scalar s => pure s
  | .null => match yaml.nullText with
    | some s => pure s
    | none => throw .conversion
  | _ => throw .conversion

/-- `node[key].IsDefined() ? node[key].as<std::string>() : ""` -/
def stringOr (node : Node) (key : Text) : Except ReadError Text := do
  match ← child node key with
  | some v => asString yaml v
  | none => pure []

/-- A turn of the loop; `none` is a `continue`. -/
def appenderOf (a : Node) : Except ReadError (Option LogAppenderDefine) := do
  match ← child a (text "type") with
  | none => pure none
  | some t =>
      let type ← asString yaml t
      if type = text "FileLogAppender" then
        match ← child a (text "file") with
        | none => pure none
        | some f =>
            let file ← asString yaml f
            let formatter ← stringOr yaml a (text "formatter")
            pure (some { type := .file, file := file, formatter := formatter })
      else if type = text "StdoutLogAppender" then
        let formatter ← stringOr yaml a (text "formatter")
        pure (some { type := .stdout, formatter := formatter })
      else pure none

/-- `node[x]` in the loop. What is not defined has no keys. -/
def elementAt (node : Node) (x : Nat) : Node :=
  match node with
  | .sequence nodes => nodes[x]?.getD .null
  | .map pairs => (yaml.keyed pairs x).getD .null
  | _ => .null

/-- The loop over `n["appenders"]`. -/
def appendersOf (node : Node) : Except ReadError (List LogAppenderDefine) :=
  (List.range node.size).foldlM (fun appenders x => do
    let lad ← appenderOf yaml (elementAt yaml node x)
    pure (appenders ++ lad.toList)) []

def LogDefine.ofNode (n : Node) : Except ReadError LogDefine := do
  match ← child n (text "name") with
  | none => throw (.logic (text "log config name is null"))
  | some nameNode =>
      let name ← asString yaml nameNode
      let level ← stringOr yaml n (text "level")
      let formatter ← stringOr yaml n (text "formatter")
      let appenders ← match ← child n (text "appenders") with
        | some node => appendersOf yaml node
        | none => pure []
      pure ⟨name, Level.fromString level, formatter, appenders⟩

/-- `LexicalCast<std::string, LogDefine>` -/
def LogDefine.ofText (v : Text) : Except ReadError LogDefine :=
  match yaml.load v with
  | none => throw .parser
  | some n => LogDefine.ofNode yaml n

end Reader

/-! ## Keys -/

section Keys

variable {key k : Text} {v : Node} {pairs : List (Node × Node)}

@[simp] theorem valueOf_nil (key : Text) : valueOf key [] = none := rfl

@[simp] theorem valueOf_assign (key : Text) (v : Node) (pairs : List (Node × Node)) :
    valueOf key (Node.assign key v pairs) = some v := by
  fun_induction Node.assign key v pairs with
  | case1 => simp [valueOf]
  | case2 w pairs => simp [valueOf]
  | case3 k w pairs hk ih => rw [valueOf, if_neg hk, ih]
  | case4 pair pairs hpair ih =>
      rw [valueOf, ih]
      exact hpair

theorem valueOf_assign_ne (h : key ≠ k) (v : Node) (pairs : List (Node × Node)) :
    valueOf key (Node.assign k v pairs) = valueOf key pairs := by
  fun_induction Node.assign k v pairs with
  | case1 => simp [valueOf, h.symm]
  | case2 w pairs => rw [valueOf, valueOf, if_neg h.symm, if_neg h.symm]
  | case3 l w pairs hl ih => rw [valueOf, valueOf, ih]
  | case4 pair pairs hpair ih => rw [valueOf, valueOf, ih] <;> exact hpair

theorem valueOf_pushBack_ne (h : key ≠ k) (v : Node) (pairs : List (Node × Node)) :
    valueOf key (pushBack k v pairs) = valueOf key pairs := by
  rw [pushBack]
  split <;> exact valueOf_assign_ne h _ _

/-- A loop that pushes nodes leaves the other keys alone. -/
theorem valueOf_pushed_ne (h : key ≠ k) (nodes : List Node) :
    valueOf key (nodes.foldl (fun n a => pushBack k a n) pairs) = valueOf key pairs := by
  induction nodes generalizing pairs with
  | nil => rfl
  | cons a nodes ih => rw [List.foldl_cons, ih, valueOf_pushBack_ne h]

theorem valueOf_pushed_some {done : List Node} (h : valueOf key pairs = some (.sequence done))
    (nodes : List Node) : valueOf key (nodes.foldl (fun n a => pushBack key a n) pairs) =
      some (.sequence (done ++ nodes)) := by
  induction nodes generalizing pairs done with
  | nil => rw [List.foldl_nil, List.append_nil, h]
  | cons a nodes ih =>
      have hpush : valueOf key (pushBack key a pairs) = some (.sequence (done ++ [a])) := by
        rw [pushBack, h, valueOf_assign]
      rw [List.foldl_cons, ih hpush, List.append_assoc, List.singleton_append]

/-- The pushed nodes are a sequence, if there are any. -/
theorem valueOf_pushed (h : valueOf key pairs = none) (nodes : List Node) :
    valueOf key (nodes.foldl (fun n a => pushBack key a n) pairs) =
      if nodes = [] then none else some (.sequence nodes) := by
  cases nodes with
  | nil => exact h
  | cons a nodes =>
      have hpush : valueOf key (pushBack key a pairs) = some (.sequence [a]) := by
        rw [pushBack, h, valueOf_assign]
      rw [List.foldl_cons, valueOf_pushed_some hpush, if_neg (List.cons_ne_nil a nodes),
        List.singleton_append]

end Keys

/-! ## What comes back -/

/-- What is left of an appender. -/
def LogAppenderDefine.kept (a : LogAppenderDefine) : LogAppenderDefine :=
  { a with level := .UNKNOW, file := if a.type = .file then a.file else [] }

section Nodes

variable (yaml : YamlNodes) (a : LogAppenderDefine) (i : LogDefine)

theorem valueOf_ite (key : Text) (c : Prop) [Decidable c] (n n' : List (Node × Node)) :
    valueOf key (if c then n else n') = if c then valueOf key n else valueOf key n' :=
  apply_ite (valueOf key) c n n'

theorem appender_type : child a.toNode (text "type") = .ok (some (.scalar
    (match a.type with
      | .file => text "FileLogAppender"
      | .stdout => text "StdoutLogAppender"))) := by
  rw [LogAppenderDefine.toNode]
  refine congrArg Except.ok ?_
  cases a.type <;> simp (disch := decide) [valueOf_ite, valueOf_assign_ne]

theorem appender_file (h : a.type = .file) :
    child a.toNode (text "file") = .ok (some (.scalar a.file)) := by
  rw [LogAppenderDefine.toNode, h]
  refine congrArg Except.ok ?_
  simp (disch := decide) [valueOf_ite, valueOf_assign_ne]

/-- An optional field, as the reader asks for it. -/
theorem stringOr_of {node : Node} {key s : Text}
    (h : child node key = .ok (if s = [] then none else some (.scalar s))) :
    stringOr yaml node key = .ok s := by
  rw [stringOr, h]
  by_cases hs : s = []
  · rw [if_pos hs, hs]
    rfl
  · rw [if_neg hs]
    rfl

theorem appender_formatter :
    stringOr yaml a.toNode (text "formatter") = .ok a.formatter := by
  apply stringOr_of
  rw [LogAppenderDefine.toNode]
  refine congrArg Except.ok ?_
  cases a.type <;> simp (disch := decide) [valueOf_ite, valueOf_assign_ne]

/-- An appender comes back without its level. -/
theorem appenderOf_toNode : appenderOf yaml a.toNode = .ok (some a.kept) := by
  have hformatter := appender_formatter yaml a
  rw [appenderOf, appender_type]
  cases h : a.type with
  | file =>
      have hkept : a.kept = { type := .file, file := a.file, formatter := a.formatter } := by
        rw [LogAppenderDefine.kept, h, if_pos rfl]
      simp only [bind, Except.bind, pure, Except.pure, asString, if_true, appender_file a h,
        hformatter, hkept]
  | stdout =>
      have hkept : a.kept = { type := .stdout, formatter := a.formatter } := by
        rw [LogAppenderDefine.kept, h, if_neg (by decide)]
      have hother : ¬text "StdoutLogAppender" = text "FileLogAppender" := by decide
      simp only [bind, Except.bind, pure, Except.pure, asString, if_true, if_neg hother,
        hformatter, hkept]

/-- The loop reads the appenders in their order. -/
theorem appendersOf_toNode (as : List LogAppenderDefine) :
    appendersOf yaml (.sequence (as.map LogAppenderDefine.toNode)) =
      .ok (as.map LogAppenderDefine.kept) := by
  have hindices : ∀ m ≤ as.length, (List.range m).foldlM (fun appenders x => do
      let lad ← appenderOf yaml (elementAt yaml (.sequence (as.map LogAppenderDefine.toNode)) x)
      pure (appenders ++ lad.toList)) [] = .ok ((as.take m).map LogAppenderDefine.kept) := by
    intro m hm
    induction m with
    | zero => rfl
    | succ m ih =>
        have hnode : elementAt yaml (.sequence (as.map LogAppenderDefine.toNode)) m =
            as[m].toNode := by
          rw [elementAt, List.getElem?_map, List.getElem?_eq_getElem (by omega)]
          rfl
        rw [List.range_succ, List.foldlM_append, ih (by omega), List.take_succ_eq_append_getElem hm,
          List.map_append, List.map_singleton]
        simp only [bind, Except.bind, List.foldlM_cons, List.foldlM_nil, hnode, appenderOf_toNode]
        rfl
  have hall := hindices as.length le_rfl
  rw [List.take_length] at hall
  rw [appendersOf, Node.size, List.length_map]
  exact hall

/-! The fields of a definition. -/

theorem foldl_pushBack (as : List LogAppenderDefine) (n : List (Node × Node)) :
    as.foldl (fun n a => pushBack (text "appenders") a.toNode n) n =
      (as.map LogAppenderDefine.toNode).foldl (fun n a => pushBack (text "appenders") a n) n := by
  rw [List.foldl_map]

/-- The fields before the appenders. -/
theorem define_field {key : Text} (hkey : key ≠ text "appenders") :
    child i.toNode key = .ok (valueOf key i.headPairs) := by
  rw [LogDefine.toNode, foldl_pushBack]
  exact congrArg Except.ok (valueOf_pushed_ne hkey _)

theorem define_name : child i.toNode (text "name") = .ok (some (.scalar i.name)) := by
  rw [define_field i (by decide), LogDefine.headPairs]
  refine congrArg Except.ok ?_
  simp (disch := decide) [valueOf_ite, valueOf_assign_ne]

/-- The level is left out if it is `UNKNOW`. -/
theorem define_level : ∃ s, stringOr yaml i.toNode (text "level") = .ok s ∧
    Level.fromString s = i.level := by
  have hvalue : child i.toNode (text "level") =
      .ok (if i.level = .UNKNOW then none else some (.scalar i.level.toString)) := by
    rw [define_field i (by decide), LogDefine.headPairs]
    refine congrArg Except.ok ?_
    simp (disch := decide) [valueOf_ite, valueOf_assign_ne]
  rw [stringOr, hvalue]
  by_cases h : i.level = .UNKNOW
  · rw [if_pos h, h]
    exact ⟨[], rfl, rfl⟩
  · rw [if_neg h]
    exact ⟨i.level.toString, rfl, i.level.fromString_toString⟩

theorem define_formatter : stringOr yaml i.toNode (text "formatter") = .ok i.formatter := by
  apply stringOr_of
  rw [define_field i (by decide), LogDefine.headPairs]
  refine congrArg Except.ok ?_
  simp (disch := decide) [valueOf_ite, valueOf_assign_ne]

theorem define_appenders : child i.toNode (text "appenders") =
    .ok (if i.appenders = [] then none
      else some (.sequence (i.appenders.map LogAppenderDefine.toNode))) := by
  have hnone : valueOf (text "appenders") i.headPairs = none := by
    rw [LogDefine.headPairs]
    simp (disch := decide) [valueOf_ite, valueOf_assign_ne]
  have hpushed := valueOf_pushed hnone (i.appenders.map LogAppenderDefine.toNode)
  simp only [List.map_eq_nil_iff] at hpushed
  rw [LogDefine.toNode, foldl_pushBack]
  exact congrArg Except.ok hpushed

/-- A definition comes back without the levels of its appenders. -/
theorem ofNode_toNode : LogDefine.ofNode yaml i.toNode =
    .ok { i with appenders := i.appenders.map LogAppenderDefine.kept } := by
  obtain ⟨s, hs, hlevel⟩ := define_level yaml i
  have happenders := appendersOf_toNode yaml i.appenders
  rw [LogDefine.ofNode, define_name, hs, define_formatter, define_appenders]
  by_cases h : i.appenders = []
  · rw [if_pos h, ← hlevel, h]
    rfl
  · rw [if_neg h, ← hlevel]
    simp only [bind, Except.bind, pure, Except.pure, asString, happenders]

end Nodes

/-! ## The round trip -/

section RoundTrip

variable {yaml : YamlNodes} {d : LogDefine}

/-- What a definition is after it was written and read. -/
theorem ofText_toText (hload : yaml.load (yaml.emit d.toNode) = some d.toNode) :
    LogDefine.ofText yaml (d.toText yaml) =
      .ok { d with appenders := d.appenders.map LogAppenderDefine.kept } := by
  rw [LogDefine.ofText, LogDefine.toText, hload]
  exact ofNode_toNode yaml d

theorem kept_eq_iff {a : LogAppenderDefine} :
    a.kept = a ↔ a.level = .UNKNOW ∧ (a.type = .stdout → a.file = []) := by
  obtain ⟨type, level, formatter, file⟩ := a
  cases type <;> simp [LogAppenderDefine.kept, eq_comm]

/-- **Definitions in YAML**: a definition that is written and read is the same
exactly if none of its appenders has a level, and none that writes to the
standard output has a file. -/
theorem logDefine_roundTrip_iff (yaml : YamlNodes) (d : LogDefine)
    (hload : yaml.load (yaml.emit d.toNode) = some d.toNode) :
    LogDefine.ofText yaml (d.toText yaml) = .ok d ↔
      ∀ a ∈ d.appenders, a.level = .UNKNOW ∧ (a.type = .stdout → a.file = []) := by
  have hmap : d.appenders.map LogAppenderDefine.kept = d.appenders ↔
      ∀ a ∈ d.appenders, a.kept = a := by
    have hid := @List.map_inj_left _ _ d.appenders LogAppenderDefine.kept id
    rwa [List.map_id] at hid
  rw [ofText_toText hload]
  constructor
  · intro h
    have happenders : d.appenders.map LogAppenderDefine.kept = d.appenders :=
      congrArg LogDefine.appenders (Except.ok.inj h)
    exact fun a ha => kept_eq_iff.mp (hmap.mp happenders a ha)
  · intro h
    have happenders := hmap.mpr fun a ha => kept_eq_iff.mpr (h a ha)
    rw [happenders]

end RoundTrip

/-- The small YAML; it gives a null no text, and a map no index. -/
def plainNodes : YamlNodes := { Plain.yaml with nullText := none, keyed := fun _ _ => none }

theorem plainNodes_load (node : Node) : plainNodes.load (plainNodes.emit node) = some node :=
  Plain.load_emit node

/-- A logger that writes its errors to a file. -/
def errorsToFile : LogDefine where
  name := text "system"
  level := .ERROR
  appenders := [{ type := .file, file := text "e.txt", formatter := text "%m" }]

theorem errorsToFile_roundTrip :
    LogDefine.ofText plainNodes (errorsToFile.toText plainNodes) = .ok errorsToFile :=
  (logDefine_roundTrip_iff plainNodes errorsToFile (plainNodes_load _)).mpr (by decide)

/-- The level of an appender is lost. -/
theorem appenderLevel_lost : ¬∀ (yaml : YamlNodes) (d : LogDefine), d.name ≠ [] →
    yaml.load (yaml.emit d.toNode) = some d.toNode →
      LogDefine.ofText yaml (d.toText yaml) = .ok d := by
  intro hall
  have h := hall plainNodes ⟨text "root", .DEBUG, [], [{ type := .stdout, level := .ERROR }]⟩
    (by decide) (plainNodes_load _)
  rw [ofText_toText (plainNodes_load _)] at h
  have happenders := congrArg LogDefine.appenders (Except.ok.inj h)
  revert happenders
  decide

end Hps.Log
