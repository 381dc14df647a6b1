import Hps.Config.Yaml
import Hps.Http.Message
import Mathlib.Logic.Function.Basic

/-!
# Config — variables and their loading

`ConfigVar`, and `Config::LoadFromYaml` over the registry. The calls of
listeners are recorded in their order: a listener does nothing else that the
registry could see.
-/

namespace Hps.Config

open Hps.YAML
open Hps.Log (Text text)
open Hps.Http (tolower)

/-! ## Variables -/

/-- `ConfigVar<T, FromStr>`. A listener is known by its key in `m_cbs`. -/
structure ConfigVar (α : Type) where
  /-- `FromStr()`; `none` is an exception. -/
  fromStr : Text → Option α
  val : α
  /-- The keys of the `std::map`, in their order. -/
  cbs : List UInt64
  sorted : cbs.Pairwise (· < ·)

/-- The call `i.second(m_val, v)` of the listener with that key. -/
structure Call (α : Type) where
  key : UInt64
  oldValue : α
  newValue : α

namespace ConfigVar

variable {α : Type} [BEq α]

def setValue (var : ConfigVar α) (v : α) : ConfigVar α × List (Call α) :=
  if v == var.val then (var, [])
  else ({ var with val := v }, var.cbs.map fun i => ⟨i, var.val, v⟩)

/-- `fromString`, which returns `false` always. -/
def fromString (var : ConfigVar α) (val : Text) : ConfigVar α × List (Call α) :=
  match var.fromStr val with
  | some v => var.setValue v
  | none => (var, [])

end ConfigVar

/-! ## The nodes of a tree -/

def nameChars : Text := text "abcdefghikjlmnopqrstuvwxyzABCDEFGHIKJLMNOPQRSTUVWXYZ._012345678"

/-- `find_first_not_of(nameChars) == npos` -/
def allowed (name : Text) : Bool := name.all (· ∈ nameChars)

/-- The name of an entry below `pre`. -/
def member (pre key : Text) : Text := if pre = [] then key else pre ++ text "." ++ key

mutual

def listAllMember (pre : Text) (node : Node) (output : List (Text × Node)) : List (Text × Node) :=
  if !allowed pre then output
  else
    let output := output ++ [(pre, node)]
    match node with
    | .map pairs => listMembers pre pairs output
    | _ => output

/-- The loop over the entries of a map. -/
def listMembers (pre : Text) (pairs : List (Node × Node)) (output : List (Text × Node)) :
    List (Text × Node) :=
  match pairs with
  | [] => output
  | (key, value) :: pairs =>
      listMembers pre pairs (listAllMember (member pre key.scalarText) value output)

end

/-! ## The registry -/

section Registry

-- the type of the variable of a name
variable {T : Text → Type}

/-- `ConfigVarMap` -/
abbrev ConfigVarMap (T : Text → Type) := (name : Text) → Option (ConfigVar (T name))

/-- A call of a listener of the variable `name`. -/
structure Event (T : Text → Type) where
  name : Text
  call : Call (T name)

variable [∀ name, BEq (T name)]

/-- The text a variable is set from. -/
def nodeText (yaml : YamlCpp) : Node → Text
  | .scalar s => s
  | node => yaml.emit node

/-- One turn of the loop in `LoadFromYaml`. -/
def loadNode (yaml : YamlCpp) (s : ConfigVarMap T × List (Event T)) (i : Text × Node) :
    ConfigVarMap T × List (Event T) :=
  if i.1 = [] then s
  else
    let key := i.1.map tolower
    match s.1 key with
    | none => s
    | some var =>
        let (var, calls) := var.fromString (nodeText yaml i.2)
        (Function.update s.1 key (some var), s.2 ++ calls.map fun c => ⟨key, c⟩)

def loadFromYaml (yaml : YamlCpp) (datas : ConfigVarMap T) (root : Node) :
    ConfigVarMap T × List (Event T) :=
  (listAllMember [] root []).foldl (loadNode yaml) (datas, [])

end Registry

end Hps.Config
