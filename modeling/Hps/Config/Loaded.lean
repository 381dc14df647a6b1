import Hps.Config.Loading
import Hps.Config.PlainYaml
import Mathlib.Data.List.Infix

/-!
# Config — what a loaded tree leaves

`ListAllMember` gives the nodes whose names are allowed from the root down,
in pre-order (`listAllMember_root`), under their paths without leading empty
keys: an empty prefix is taken for the root. Loading sets every variable from
the nodes of its name, and from nothing else, as long as that makes no
difference (`loadFromYaml_exact_iff`).
-/

namespace Hps.Config

open Hps.YAML
open Hps.Log (Text text)
open Hps.Http (tolower)

/-! ## The nodes that are reached -/

/-- The dotted path of the keys. -/
def joinDots (keys : List Text) : Text := (text ".").intercalate keys

/-- The nodes whose path is allowed, as are all its prefixes. -/
def reached (root : Node) : List (List Text × Node) :=
  (root.preorder []).filter fun x => x.1.inits.all fun keys => allowed (joinDots keys)

/-- The prefix that `ListAllMember` has behind the keys. -/
def traversed (keys : List Text) : Text := keys.foldl member []

theorem traversed_concat (keys : List Text) (key : Text) :
    traversed (keys ++ [key]) = member (traversed keys) key := by
  rw [traversed, List.foldl_append]
  rfl

theorem dot_eq : text "." = [46] := by decide

theorem joinDots_cons (key : Text) (keys : List Text) :
    joinDots (key :: keys) = key ++ keys.flatMap (46 :: ·) := by
  induction keys generalizing key with
  | nil => simp [joinDots]
  | cons k keys ih =>
      have hrest := ih k
      rw [joinDots, dot_eq] at hrest
      rw [joinDots, dot_eq, List.intercalate_cons_cons, hrest]
      simp

theorem foldl_member {pre : Text} (hpre : pre ≠ []) (keys : List Text) :
    keys.foldl member pre = pre ++ keys.flatMap (46 :: ·) := by
  induction keys generalizing pre with
  | nil => simp
  | cons key keys ih =>
      have hmember : member pre key = pre ++ 46 :: key := by
        rw [member, if_neg hpre, dot_eq, List.append_assoc, List.singleton_append]
      rw [List.foldl_cons, hmember, ih (by simp)]
      simp

/-- **An empty prefix is taken for the root**: the leading empty keys are lost. -/
theorem traversed_eq (keys : List Text) :
    traversed keys = joinDots (keys.dropWhile (· = [])) := by
  rw [traversed]
  induction keys with
  | nil => simp [joinDots]
  | cons key keys ih =>
      have hmember : member [] key = key := if_pos rfl
      rw [List.foldl_cons, hmember]
      by_cases hkey : key = []
      · rw [List.dropWhile_cons_of_pos (by simpa using hkey), hkey, ih]
      · rw [List.dropWhile_cons_of_neg (by simpa using hkey), foldl_member hkey, joinDots_cons]

theorem allowed_append (xs ys : Text) : allowed (xs ++ ys) = (allowed xs && allowed ys) :=
  List.all_append

theorem allowed_dots (keys : List Text) :
    allowed (keys.flatMap (46 :: ·)) = keys.all allowed := by
  induction keys with
  | nil => rfl
  | cons key keys ih =>
      have hdot : allowed (46 :: key) = allowed key := by
        have hmem : decide (46 ∈ nameChars) = true := by decide +kernel
        rw [allowed, List.all_cons, hmem]
        rfl
      rw [List.flatMap_cons, allowed_append, hdot, ih, List.all_cons]

/-- A path is allowed if its keys are. -/
theorem allowed_joinDots (keys : List Text) : allowed (joinDots keys) = keys.all allowed := by
  cases keys with
  | nil => rfl
  | cons key keys => rw [joinDots_cons, allowed_append, allowed_dots, List.all_cons]

theorem allowed_traversed (keys : List Text) : allowed (traversed keys) = keys.all allowed := by
  rw [traversed_eq, allowed_joinDots]
  induction keys with
  | nil => rfl
  | cons key keys ih =>
      by_cases hkey : key = []
      · rw [List.dropWhile_cons_of_pos (by simpa using hkey), ih, hkey]
        rfl
      · rw [List.dropWhile_cons_of_neg (by simpa using hkey)]

/-- The prefixes of an allowed path are allowed. -/
theorem reached_eq (root : Node) :
    reached root = (root.preorder []).filter fun x => x.1.all allowed := by
  refine List.filter_congr fun x _ => ?_
  rw [Bool.eq_iff_iff, List.all_eq_true]
  constructor
  · intro h
    rw [← allowed_joinDots]
    exact h x.1 ((List.mem_inits x.1 x.1).mpr (List.prefix_refl x.1))
  · intro h init hinit
    obtain ⟨rest, hrest⟩ := (List.mem_inits init x.1).mp hinit
    rw [← hrest, List.all_append, Bool.and_eq_true] at h
    rw [allowed_joinDots]
    exact h.1

mutual

theorem prefix_of_mem_preorder {keys : List Text} {x : List Text × Node} (node : Node)
    (h : x ∈ node.preorder keys) : keys <+: x.1 := by
  cases node with
  | map pairs =>
      rw [Node.preorder] at h
      rcases List.mem_cons.mp h with rfl | h
      · exact List.prefix_refl keys
      · exact prefix_of_mem_preorderIn pairs h
  | null | scalar _ | sequence _ =>
      obtain rfl := List.mem_singleton.mp h
      exact List.prefix_refl keys

theorem prefix_of_mem_preorderIn {keys : List Text} {x : List Text × Node}
    (pairs : List (Node × Node)) (h : x ∈ Node.preorderIn keys pairs) : keys <+: x.1 := by
  cases pairs with
  | nil => cases h
  | cons pair pairs =>
      obtain ⟨key, value⟩ := pair
      rw [Node.preorderIn] at h
      rcases List.mem_append.mp h with h | h
      · exact (List.prefix_append keys _).trans (prefix_of_mem_preorder value h)
      · exact prefix_of_mem_preorderIn pairs h

end

/-- An entry of `all_nodes`. -/
def named (x : List Text × Node) : Text × Node := (traversed x.1, x.2)

mutual

theorem listAllMember_eq (keys : List Text) (node : Node) (output : List (Text × Node)) :
    listAllMember (traversed keys) node output =
      output ++ ((node.preorder keys).filter fun x => x.1.all allowed).map named := by
  have hallowed := allowed_traversed keys
  cases hall : keys.all allowed with
  | false =>
      -- nothing below a name that is not allowed is reached
      have hnone : (node.preorder keys).filter (fun x => x.1.all allowed) = [] := by
        rw [List.filter_eq_nil_iff]
        intro x hx hx'
        obtain ⟨rest, hrest⟩ := prefix_of_mem_preorder node hx
        rw [← hrest, List.all_append, hall] at hx'
        cases hx'
      rw [hall] at hallowed
      rw [listAllMember.eq_def, hallowed, hnone, List.map_nil, List.append_nil]
      rfl
  | true =>
      rw [hall] at hallowed
      cases node with
      | map pairs =>
          have hpairs := listMembers_eq keys pairs (output ++ [named (keys, .map pairs)])
          rw [Node.preorder, List.filter_cons, if_pos hall, List.map_cons, List.append_cons,
            ← hpairs, listAllMember, hallowed]
          rfl
      | null | scalar _ | sequence _ =>
          have hone : ∀ n : Node, [(keys, n)].filter (fun x => x.1.all allowed) =
              [(keys, n)] := fun n => List.filter_cons_of_pos hall
          rw [listAllMember.eq_def, hallowed, Node.preorder.eq_def]
          exact congrArg (output ++ List.map named ·) (hone _).symm

theorem listMembers_eq (keys : List Text) (pairs : List (Node × Node))
    (output : List (Text × Node)) :
    listMembers (traversed keys) pairs output =
      output ++ ((Node.preorderIn keys pairs).filter fun x => x.1.all allowed).map named := by
  cases pairs with
  | nil => rw [listMembers, Node.preorderIn, List.filter_nil, List.map_nil, List.append_nil]
  | cons pair pairs =>
      obtain ⟨key, value⟩ := pair
      rw [listMembers, Node.preorderIn, ← traversed_concat, listAllMember_eq, listMembers_eq,
        List.filter_append, List.map_append, List.append_assoc]

end

theorem listAllMember_root (root : Node) :
    listAllMember [] root [] = (reached root).map named := by
  have hroot := listAllMember_eq [] root []
  rw [List.nil_append] at hroot
  rw [reached_eq]
  exact hroot

/-! ## One variable -/

/-- The changes of a value that is set to those of a list in turn. -/
def changes {α : Type} [BEq α] (v : α) (vs : List α) : List (α × α) :=
  ((v :: vs).zip vs).filter fun x => x.1 != x.2

namespace ConfigVar

/-- What the listener of a key is called with. -/
def heard {α : Type} (i : UInt64) (calls : List (Call α)) : List (α × α) :=
  (calls.filter fun c => c.key = i).map fun c => (c.oldValue, c.newValue)

theorem heard_append {α : Type} (i : UInt64) (xs ys : List (Call α)) :
    heard i (xs ++ ys) = heard i xs ++ heard i ys := by
  rw [heard, List.filter_append, List.map_append]
  rfl

/-- Every listener is called once. -/
theorem heard_all {α : Type} (var : ConfigVar α) (i : UInt64) (v w : α) :
    heard i (var.cbs.map fun k => ⟨k, v, w⟩) = if i ∈ var.cbs then [(v, w)] else [] := by
  have hnodup : var.cbs.Nodup := var.sorted.imp fun h => UInt64.ne_of_lt h
  have hfilter : var.cbs.filter (fun k => decide (k = i)) =
      if i ∈ var.cbs then [i] else [] := by
    rw [List.filter_eq, hnodup.count]
    split <;> rfl
  rw [heard, List.filter_map, List.map_map]
  show (var.cbs.filter fun k => decide (k = i)).map _ = _
  rw [hfilter]
  split <;> rfl

variable {α : Type} [BEq α]

/-- A variable is set from texts in turn. -/
def fromStrings (var : ConfigVar α) (vals : List Text) : ConfigVar α × List (Call α) :=
  match vals with
  | [] => (var, [])
  | val :: vals =>
      let s := (var.fromString val).1.fromStrings vals
      (s.1, (var.fromString val).2 ++ s.2)

theorem fromString_none {var : ConfigVar α} {val : Text} (h : var.fromStr val = none) :
    var.fromString val = (var, []) := by
  rw [fromString, h]

theorem changes_cons (v w : α) (vs : List α) :
    changes v (w :: vs) = changes v [w] ++ changes w vs := by
  rw [changes, changes, changes, ← List.filter_append]
  rfl

variable [LawfulBEq α]

theorem setValue_fst (var : ConfigVar α) (v : α) : (var.setValue v).1 = { var with val := v } := by
  rw [setValue]
  split
  · rename_i h
    rw [eq_of_beq h]
  · rfl

theorem heard_setValue (var : ConfigVar α) (i : UInt64) (v : α) :
    heard i (var.setValue v).2 = if i ∈ var.cbs then changes var.val [v] else [] := by
  cases h : v == var.val with
  | true =>
      have hsame : changes var.val [v] = [] := by
        rw [changes, eq_of_beq h]
        simp
      rw [setValue, h, hsame, ite_self]
      rfl
  | false =>
      have hne : var.val ≠ v := fun heq => by
        rw [heq, beq_self_eq_true] at h
        cases h
      have hone : changes var.val [v] = [(var.val, v)] := by simp [changes, hne]
      rw [setValue, h, hone]
      exact heard_all var i var.val v

/-- **A variable set from texts in turn** has the last value that one of them
converts to, and its listeners hear of the changes on the way. -/
theorem fromStrings_eq (var : ConfigVar α) (vals : List Text) :
    (var.fromStrings vals).1 =
      { var with val := (vals.filterMap var.fromStr).getLast?.getD var.val } ∧
    ∀ i, heard i (var.fromStrings vals).2 =
      if i ∈ var.cbs then changes var.val (vals.filterMap var.fromStr) else [] := by
  induction vals generalizing var with
  | nil => exact ⟨rfl, fun i => (ite_self _).symm⟩
  | cons val vals ih =>
      cases h : var.fromStr val with
      | none =>
          rw [fromStrings, fromString_none h, List.filterMap_cons_none h]
          exact ih var
      | some v =>
          obtain ⟨hvar, hcalls⟩ := ih { var with val := v }
          have hset : var.fromString val = var.setValue v := by rw [fromString, h]
          have hfst := setValue_fst var v
          rw [fromStrings, hset, hfst, List.filterMap_cons_some h]
          refine ⟨?_, ?_⟩
          · rw [hvar, List.getLast?_cons]
            rfl
          · intro i
            rw [heard_append, heard_setValue, hcalls,
              changes_cons var.val v (vals.filterMap var.fromStr)]
            split <;> rfl

end ConfigVar

/-! ## The registry -/

section Registry

variable {T : Text → Type}

def Event.of (name : Text) (e : Event T) : Option (Call (T name)) :=
  if h : e.name = name then some (h ▸ e.call) else none

/-- The calls of the listeners of a variable. -/
def callsOf (name : Text) (events : List (Event T)) : List (Call (T name)) :=
  events.filterMap (Event.of name)

theorem callsOf_self (name : Text) (calls : List (Call (T name))) :
    callsOf name (calls.map fun c => ⟨name, c⟩) = calls := by
  rw [callsOf, List.filterMap_map]
  have hof : (Event.of name ∘ fun c : Call (T name) => (⟨name, c⟩ : Event T)) = some := by
    funext c
    exact dif_pos rfl
  rw [hof, List.filterMap_some]

theorem callsOf_other {name n : Text} (h : n ≠ name) (calls : List (Call (T n))) :
    callsOf name (calls.map fun c => ⟨n, c⟩) = [] := by
  rw [callsOf, List.filterMap_eq_nil_iff]
  intro e he
  obtain ⟨c, -, rfl⟩ := List.mem_map.mp he
  exact dif_neg h

theorem callsOf_append (name : Text) (xs ys : List (Event T)) :
    callsOf name (xs ++ ys) = callsOf name xs ++ callsOf name ys :=
  List.filterMap_append

variable [∀ name, BEq (T name)] (yaml : YamlCpp) {name : Text} {var : ConfigVar (T name)}
variable {s : ConfigVarMap T × List (Event T)} {i : Text × Node}

theorem loadNode_self (h : s.1 name = some var) (hne : name ≠ []) (hi : i.1.map tolower = name) :
    loadNode yaml s i =
      (Function.update s.1 name (some (var.fromString (nodeText yaml i.2)).1),
        s.2 ++ (var.fromString (nodeText yaml i.2)).2.map fun c => ⟨name, c⟩) := by
  subst hi
  have hpath : i.1 ≠ [] := fun hnil => hne (by rw [hnil]; rfl)
  rw [loadNode, if_neg hpath]
  dsimp only
  rw [h]

/-- A node changes only the variable that has its name, which is not the
empty one. -/
theorem loadNode_other (h : name = [] ∨ s.1 name = none ∨ i.1.map tolower ≠ name) :
    (loadNode yaml s i).1 name = s.1 name ∧
      callsOf name (loadNode yaml s i).2 = callsOf name s.2 := by
  rw [loadNode]
  split
  · exact ⟨rfl, rfl⟩
  · rename_i hpath
    dsimp only
    split
    · exact ⟨rfl, rfl⟩
    · rename_i var' hvar
      have hne : i.1.map tolower ≠ name := by
        rcases h with h | h | h
        · rw [h]
          exact fun hnil => hpath (List.map_eq_nil_iff.mp hnil)
        · rintro rfl
          rw [h] at hvar
          cases hvar
        · exact h
      refine ⟨Function.update_of_ne hne.symm _ _, ?_⟩
      rw [callsOf_append, callsOf_other hne, List.append_nil]

/-- The texts of the nodes of a name. -/
def textsAt (name : Text) (nodes : List (Text × Node)) : List Text :=
  (nodes.filter fun i => i.1.map tolower = name).map fun i => nodeText yaml i.2

theorem load_other (nodes : List (Text × Node)) (h : name = [] ∨ s.1 name = none) :
    (nodes.foldl (loadNode yaml) s).1 name = s.1 name ∧
      callsOf name (nodes.foldl (loadNode yaml) s).2 = callsOf name s.2 := by
  induction nodes generalizing s with
  | nil => exact ⟨rfl, rfl⟩
  | cons i nodes ih =>
      obtain ⟨hvar, hcalls⟩ := loadNode_other yaml (i := i) (h.imp_right .inl)
      obtain ⟨ihvar, ihcalls⟩ := ih (h.imp_right hvar.trans)
      exact ⟨ihvar.trans hvar, ihcalls.trans hcalls⟩

/-- A variable is set from the nodes of its name, and from no other. -/
theorem load_registered (nodes : List (Text × Node)) (hne : name ≠ []) (h : s.1 name = some var) :
    (nodes.foldl (loadNode yaml) s).1 name =
        some (var.fromStrings (textsAt yaml name nodes)).1 ∧
      callsOf name (nodes.foldl (loadNode yaml) s).2 =
        callsOf name s.2 ++ (var.fromStrings (textsAt yaml name nodes)).2 := by
  induction nodes generalizing s var with
  | nil => exact ⟨h, (List.append_nil _).symm⟩
  | cons i nodes ih =>
      by_cases hi : i.1.map tolower = name
      · have hstep := loadNode_self yaml h hne hi
        have htexts : textsAt yaml name (i :: nodes) =
            nodeText yaml i.2 :: textsAt yaml name nodes := by
          rw [textsAt, List.filter_cons, if_pos (decide_eq_true hi)]
          rfl
        have hself : (loadNode yaml s i).1 name =
            some (var.fromString (nodeText yaml i.2)).1 := by
          rw [hstep]
          exact Function.update_self name _ _
        obtain ⟨hvar, hcalls⟩ := ih hself
        refine ⟨?_, ?_⟩
        · rw [htexts]
          exact hvar
        · rw [htexts, List.foldl_cons, hcalls, hstep, callsOf_append, callsOf_self,
            List.append_assoc]
          rfl
      · obtain ⟨hsame, hsilent⟩ := loadNode_other yaml (s := s) (.inr (.inr hi))
        have htexts : textsAt yaml name (i :: nodes) = textsAt yaml name nodes := by
          rw [textsAt, List.filter_cons, if_neg (mt of_decide_eq_true hi)]
          rfl
        obtain ⟨hvar, hcalls⟩ := ih (hsame.trans h)
        rw [htexts, ← hsilent]
        exact ⟨hvar, hcalls⟩

/-- The nodes of a name: it is their path, in lower case. -/
def nodesOf (root : Node) (name : Text) : List Node :=
  ((reached root).filter fun x => (joinDots x.1).map tolower = name).map (·.2)

/-- The nodes whose path has the name without its leading empty keys. The empty
name has none. -/
def bareNodesOf (root : Node) (name : Text) : List Node :=
  if name = [] then []
  else ((reached root).filter fun x =>
    (joinDots (x.1.dropWhile (· = []))).map tolower = name).map (·.2)

/-- What the nodes convert to, the last one last. -/
def conversions {α : Type} (var : ConfigVar α) (nodes : List Node) : List α :=
  nodes.filterMap fun node => var.fromStr (nodeText yaml node)

/-- A registered variable after a tree was loaded: it has the value of the
last of the nodes that converts, if one does, and is otherwise as before; and
each of its listeners heard of every change once. -/
structure Loaded (nodes : List Node) (name : Text) (var : ConfigVar (T name))
    (out : ConfigVarMap T × List (Event T)) : Prop where
  value : out.1 name =
    some { var with val := (conversions yaml var nodes).getLast?.getD var.val }
  heard : ∀ i, ConfigVar.heard i (callsOf name out.2) =
    if i ∈ var.cbs then changes var.val (conversions yaml var nodes) else []

/-- **Loading is exact and framed**: every variable is loaded from the nodes of
its name, and nothing else happens to the registry. -/
structure LoadedExactly (datas : ConfigVarMap T) (root : Node)
    (out : ConfigVarMap T × List (Event T)) : Prop where
  loaded : ∀ name var, datas name = some var → Loaded yaml (nodesOf root name) name var out
  framed : ∀ name, datas name = none → out.1 name = none ∧ callsOf name out.2 = []

/-- The two lists of nodes are the same to the variable: it gets the same value,
and its listeners, if there are any, the same changes. -/
def SameTo {α : Type} [BEq α] (var : ConfigVar α) (xs ys : List Node) : Prop :=
  (conversions yaml var xs).getLast?.getD var.val =
    (conversions yaml var ys).getLast?.getD var.val ∧
  (var.cbs ≠ [] →
    changes var.val (conversions yaml var xs) = changes var.val (conversions yaml var ys))

/-- Nothing lies below an entry at the top whose key is empty; one that is null,
or no scalar, is. -/
def NoneBelowEmpty (root : Node) : Prop :=
  ∀ x ∈ root.preorder [], x.1.head? = some [] → x.1 = [[]]

/-- The nodes that a variable is set from are those of its name without leading
empty keys. -/
theorem textsAt_eq (hne : name ≠ []) (root : Node) :
    textsAt yaml name ((reached root).map named) =
      (bareNodesOf root name).map (nodeText yaml) := by
  rw [textsAt, bareNodesOf, if_neg hne, List.filter_map, List.map_map, List.map_map]
  congr 1
  refine List.filter_congr fun x _ => ?_
  show decide ((traversed x.1).map tolower = name) = _
  rw [traversed_eq]

theorem loadFromYaml_bare [∀ name, LawfulBEq (T name)] {datas : ConfigVarMap T} (root : Node)
    (hvar : datas name = some var) :
    Loaded yaml (bareNodesOf root name) name var (loadFromYaml yaml datas root) := by
  rw [loadFromYaml, listAllMember_root]
  by_cases hne : name = []
  · have hout : name = [] ∨ datas name = none := .inl hne
    obtain ⟨hvalue, hcalls⟩ := load_other yaml (s := (datas, [])) ((reached root).map named) hout
    have hnodes : conversions yaml var (bareNodesOf root name) = [] := by
      rw [bareNodesOf, if_pos hne]
      rfl
    refine ⟨?_, fun i => ?_⟩
    · rw [hvalue, hnodes]
      exact hvar
    · rw [hcalls, hnodes]
      exact (ite_self _).symm
  · obtain ⟨hvalue, hcalls⟩ := load_registered yaml (s := (datas, []))
      ((reached root).map named) hne hvar
    rw [textsAt_eq yaml hne] at hvalue hcalls
    obtain ⟨hlast, hheard⟩ := var.fromStrings_eq ((bareNodesOf root name).map (nodeText yaml))
    rw [List.filterMap_map] at hlast hheard
    refine ⟨?_, fun i => ?_⟩
    · rw [hvalue, hlast]
      rfl
    · rw [hcalls]
      exact hheard i

/-- What is loaded from one list of nodes is loaded from another one exactly if
they are the same to the variable. -/
theorem Loaded.iff_sameTo {xs ys : List Node} {out : ConfigVarMap T × List (Event T)}
    (h : Loaded yaml ys name var out) : Loaded yaml xs name var out ↔ SameTo yaml var xs ys := by
  constructor
  · intro hx
    refine ⟨?_, fun hcbs => ?_⟩
    · have hvalue := Option.some.inj (hx.value.symm.trans h.value)
      exact congrArg ConfigVar.val hvalue
    · obtain ⟨i, hi⟩ := List.exists_mem_of_ne_nil _ hcbs
      have hheard := (hx.heard i).symm.trans (h.heard i)
      rwa [if_pos hi, if_pos hi] at hheard
  · rintro ⟨hlast, hchanges⟩
    refine ⟨?_, fun i => ?_⟩
    · rw [hlast]
      exact h.value
    · rw [h.heard]
      split
      · rename_i hi
        rw [hchanges (List.ne_nil_of_mem hi)]
      · rfl

theorem bareNodesOf_eq {root : Node} (hroot : NoneBelowEmpty root) (hne : name ≠ []) :
    bareNodesOf root name = nodesOf root name := by
  rw [bareNodesOf, if_neg hne, nodesOf]
  congr 1
  refine List.filter_congr fun x hx => ?_
  rw [reached, List.mem_filter] at hx
  have hsame : joinDots (x.1.dropWhile (· = [])) = joinDots x.1 := by
    cases hkeys : x.1 with
    | nil => rfl
    | cons key keys =>
        by_cases hkey : key = []
        · have hone := hroot x hx.1 (by rw [hkeys, hkey]; rfl)
          rw [← hkeys, hone]
          rfl
        · rw [List.dropWhile_cons_of_neg (by simpa using hkey)]
  rw [hsame]

/-- **What a tree leaves.** Loading is exact and framed exactly if it makes no
difference to any variable whether leading empty keys belong to a path; that is
so if no variable has the empty name and nothing lies below an empty key at the
top. -/
theorem loadFromYaml_exact_iff [∀ name, LawfulBEq (T name)] (datas : ConfigVarMap T)
    (root : Node) :
    (LoadedExactly yaml datas root (loadFromYaml yaml datas root) ↔
      ∀ name var, datas name = some var →
        SameTo yaml var (nodesOf root name) (bareNodesOf root name)) ∧
    (datas [] = none → NoneBelowEmpty root →
      LoadedExactly yaml datas root (loadFromYaml yaml datas root)) := by
  have hframed : ∀ name, datas name = none → (loadFromYaml yaml datas root).1 name = none ∧
      callsOf name (loadFromYaml yaml datas root).2 = [] := by
    intro name hnone
    have hout : name = [] ∨ datas name = none := .inr hnone
    obtain ⟨hvalue, hcalls⟩ := load_other yaml (s := (datas, [])) (listAllMember [] root []) hout
    exact ⟨hvalue.trans hnone, hcalls⟩
  -- what `LoadFromYaml` leaves is that of the bare nodes, in every case
  refine ⟨⟨fun h name var hvar => ?_, fun h => ⟨fun name var hvar => ?_, hframed⟩⟩,
    fun hempty hroot => ⟨fun name var hvar => ?_, hframed⟩⟩
  · exact (loadFromYaml_bare yaml root hvar).iff_sameTo.mp (h.loaded name var hvar)
  · exact (loadFromYaml_bare yaml root hvar).iff_sameTo.mpr (h name var hvar)
  · have hne : name ≠ [] := by
      rintro rfl
      rw [hempty] at hvar
      cases hvar
    rw [← bareNodesOf_eq hroot hne]
    exact loadFromYaml_bare yaml root hvar

end Registry

/-! ## A flag -/

/-- A variable of type `bool` with one listener. -/
def flag : ConfigVar Bool where
  fromStr := Plain.boolOfText
  val := false
  cbs := [1]
  sorted := List.pairwise_singleton _ _

abbrev Flags (_ : Text) : Type := Bool

/-- The registry that has the flag alone. -/
def flagAt (name : Text) : ConfigVarMap Flags :=
  fun n => if n = name then some flag else none

/-- `A: {b: 1}` -/
def flagTree : Node := .map [(.scalar (text "A"), .map [(.scalar (text "b"), .scalar (text "1"))])]

theorem flag_loaded :
    LoadedExactly Plain.yaml (flagAt (text "a.b")) flagTree
      (loadFromYaml Plain.yaml (flagAt (text "a.b")) flagTree) ∧
    conversions Plain.yaml flag (nodesOf flagTree (text "a.b")) = [true] := by
  have hroot : NoneBelowEmpty flagTree := by
    intro x hx hempty
    simp only [flagTree, Node.preorder, Node.preorderIn, Node.scalarText, List.mem_cons,
      List.not_mem_nil, or_false, List.append_nil, List.nil_append] at hx
    rcases hx with rfl | rfl | rfl <;> exact absurd hempty (by decide)
  exact ⟨(loadFromYaml_exact_iff Plain.yaml (flagAt (text "a.b")) flagTree).2 (by decide) hroot,
    by decide +kernel⟩

/-- `{"": {a: 1}}` -/
def emptyKeyed : Node := .map [(.scalar [], .map [(.scalar (text "a"), .scalar (text "1"))])]

/-- The inner node has the path `.a`, and sets the variable `a`. -/
theorem emptyKeyed_misloaded :
    ¬LoadedExactly Plain.yaml (flagAt (text "a")) emptyKeyed
      (loadFromYaml Plain.yaml (flagAt (text "a")) emptyKeyed) ∧
    ¬LoadedExactly Plain.yaml (flagAt (text ".a")) emptyKeyed
      (loadFromYaml Plain.yaml (flagAt (text ".a")) emptyKeyed) := by
  refine ⟨fun h => ?_, fun h => ?_⟩
  · have hvalue := (h.loaded (text "a") flag rfl).value
    have hval := congrArg (Option.map ConfigVar.val) hvalue
    exact absurd hval (by decide +kernel)
  · have hvalue := (h.loaded (text ".a") flag rfl).value
    have hval := congrArg (Option.map ConfigVar.val) hvalue
    exact absurd hval (by decide +kernel)

end Hps.Config
