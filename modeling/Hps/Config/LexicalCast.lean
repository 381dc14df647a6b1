import Hps.Config.Yaml
import Hps.Lib.Containers

/-!
# Config — `LexicalCast`

The conversions of `config.h` between the containers and YAML texts. Each of
the six pairs of templates is the pair for sequences or the pair for maps,
over its own container.
-/

namespace Hps.YAML.Node

/-- The pairs a loop from `begin()` to `end()` sees. The elements of a
sequence have no key: `it->first.Scalar()` is an exception. -/
def entries : Node → Option (List (Node × Node))
  | .map pairs => some pairs
  | .sequence (_ :: _) => none
  | _ => some []

/-- `node[key] = value`, for a map. -/
def assign (key : Log.Text) (value : Node) : List (Node × Node) → List (Node × Node)
  | [] => [(.scalar key, value)]
  | (.scalar k, v) :: pairs =>
      if k = key then (.scalar k, value) :: pairs else (.scalar k, v) :: assign key value pairs
  | pair :: pairs => pair :: assign key value pairs

end Hps.YAML.Node

namespace Hps.Config

open Hps.YAML Hps.Lib
open Hps.Log (Text)

/-- A type with `LexicalCast<T, std::string>` and `LexicalCast<std::string, T>`;
`none` is an exception. -/
structure Cast extends Compared where
  toText : Val → Option Text
  ofText : Text → Option Val

section

variable (yaml : YamlCpp) (T : Cast)

/-! ## The pair for sequences -/

/-- `LexicalCast<C<T>, std::string>` -/
def sequenceToText (C : Container T.toCompared) (v : C.Val) : Option Text := do
  let nodes ← (C.iter v).foldlM (fun nodes i => do
    let t ← T.toText i
    let node ← yaml.load t
    pure (nodes ++ [node])) []
  pure (yaml.emit (.sequence nodes))

/-- `LexicalCast<std::string, C<T>>` -/
def sequenceOfText (C : Container T.toCompared) (v : Text) : Option C.Val := do
  let node ← yaml.load v
  (List.range node.size).foldlM (fun vec i => do
    let x ← T.ofText (yaml.emitAt node i)
    pure (C.insert vec x)) C.empty

def sequenceCast (C : Container T.toCompared) : Cast where
  toCompared := C.toCompared
  toText := sequenceToText yaml T C
  ofText := sequenceOfText yaml T C

/-- `std::vector<T>` -/
def vector : Cast := sequenceCast yaml T (.sequence T.toCompared)

/-- `std::list<T>` -/
def list : Cast := sequenceCast yaml T (.sequence T.toCompared)

/-- `std::set<T>`, with its comparator. -/
def set (less : Container.Less T.toCompared) : Cast := sequenceCast yaml T (.ordered less)

/-- The elements of a `std::unordered_set<T>` are the same if they are equal. -/
def setTable (b : Container.Buckets T.Val) : Container.Table T.toCompared where
  toBuckets := b
  same := T.eq
  equiv := T.equiv
  of_eq := id

/-- `std::unordered_set<T>` -/
def unorderedSet (b : Container.Buckets T.Val) : Cast := sequenceCast yaml T (.hashed (setTable T b))

/-! ## The pair for maps -/

abbrev Entry : Compared := .pair Text T.toCompared

/-- `LexicalCast<M<std::string, T>, std::string>` -/
def mapToText (M : Dictionary Text T.toCompared) (v : M.Val) : Option Text := do
  let pairs ← (M.iter v).foldlM (fun pairs (i : Text × T.Val) => do
    let t ← T.toText i.2
    let node ← yaml.load t
    pure (Node.assign i.1 node pairs)) []
  pure (yaml.emit (.map pairs))

/-- `LexicalCast<std::string, M<std::string, T>>` -/
def mapOfText (M : Dictionary Text T.toCompared) (v : Text) : Option M.Val := do
  let node ← yaml.load v
  let pairs ← node.entries
  pairs.foldlM (fun vec it => do
    let x ← T.ofText (yaml.emit it.2)
    pure (M.insert vec (it.1.scalarText, x))) M.empty

def mapCast (M : Dictionary Text T.toCompared) : Cast where
  toCompared := M.toCompared
  toText := mapToText yaml T M
  ofText := mapOfText yaml T M

/-- `operator<` of `std::string`. -/
def textLess (s t : Text) : Bool := decide (s < t)

theorem textLess_order : IsStrictOrder Text fun s t => textLess s t = true := by
  simp only [textLess, decide_eq_true_eq]
  exact { irrefl := List.lt_irrefl, trans := fun _ _ _ => List.lt_trans }

/-- `std::map<std::string, T>` -/
def map : Cast := mapCast yaml T (.ordered textLess textLess_order)

/-- `std::unordered_map<std::string, T>` -/
def unorderedMap (b : Container.Buckets (Entry T).Val) : Cast := mapCast yaml T (.hashed b)

end

/-- The types that are built from `T`. -/
inductive Built (yaml : YamlCpp) (T : Cast) : Cast → Prop
  | base : Built yaml T T
  | vector {C : Cast} : Built yaml T C → Built yaml T (vector yaml C)
  | list {C : Cast} : Built yaml T C → Built yaml T (list yaml C)
  | set {C : Cast} (less : Container.Less C.toCompared) :
      Built yaml T C → Built yaml T (set yaml C less)
  | unorderedSet {C : Cast} (b : Container.Buckets C.Val) :
      Built yaml T C → Built yaml T (unorderedSet yaml C b)
  | map {C : Cast} : Built yaml T C → Built yaml T (map yaml C)
  | unorderedMap {C : Cast} (b : Container.Buckets (Entry C).Val) :
      Built yaml T C → Built yaml T (unorderedMap yaml C b)

end Hps.Config
