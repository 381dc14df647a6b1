import Hps.Log.Model

/-!
# Config — YAML

What the configuration sees of yaml-cpp: the trees of nodes, and the
functions between them and their texts.
-/

namespace Hps.YAML

open Hps.Log (Text)

/-- A `YAML::Node`. The key of an entry of a map may be any node. -/
inductive Node where
  | null
  | scalar (s : Text)
  | sequence (nodes : List Node)
  | map (pairs : List (Node × Node))

namespace Node

/-- `Scalar()`, which is empty for the other kinds. -/
def scalarText : Node → Text
  | .scalar s => s
  | _ => []

/-- `size()` -/
def size : Node → Nat
  | .sequence nodes => nodes.length
  | .map pairs => pairs.length
  | _ => 0

mutual

/-- The node and all below it in pre-order, each with the keys that lead to
it behind those that lead here. -/
def preorder (keys : List Text) : Node → List (List Text × Node)
  | .map pairs => (keys, .map pairs) :: preorderIn keys pairs
  | node => [(keys, node)]

def preorderIn (keys : List Text) : List (Node × Node) → List (List Text × Node)
  | [] => []
  | (key, value) :: pairs => preorder (keys ++ [key.scalarText]) value ++ preorderIn keys pairs

end

end Node

/-- The functions of yaml-cpp. -/
structure YamlCpp where
  /-- `Load`; `none` is an exception. -/
  load : Text → Option Node
  /-- What `ss << node` writes. -/
  emit : Node → Text
  /-- What `ss << node[i]` writes for a map, in which `i` is then a key. -/
  emitKeyed : List (Node × Node) → Nat → Text

namespace YamlCpp

variable (yaml : YamlCpp)

/-- What `ss << node[i]` writes. -/
def emitAt (node : Node) (i : Nat) : Text :=
  match node with
  | .sequence nodes => nodes[i]?.elim [] yaml.emit
  | .map pairs => yaml.emitKeyed pairs i
  | _ => []

/-- A text in the way YAML is written: loaded and emitted, it is the same. -/
def Normal (t : Text) : Prop := ∃ node, yaml.load t = some node ∧ yaml.emit node = t

end YamlCpp

end Hps.YAML
