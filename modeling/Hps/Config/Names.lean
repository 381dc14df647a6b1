import Hps.Config.Loaded

/-!
# Config — names

`Config::Lookup` registers a variable under a name of certain characters, and
`LoadFromYaml` follows keys of certain characters. Both lists of characters
leave the digit 9 out, though the names may have it: `names_served_iff` says
for which names a variable is registered, found again and reached from a tree.
-/

namespace Hps.Config

open Hps.YAML
open Hps.Log (Text text)
open Hps.Http (tolower upper)

/-! ## The registry with its types -/

section Types

-- the types of the program, with their values
variable {ι : Type} {Val : ι → Type}

/-- A `ConfigVar<T>` in memory. -/
structure Object (Val : ι → Type) where
  address : Nat
  type : ι
  name : Text
  description : Text
  var : ConfigVar (Val type)

/-- The variables, by the names they are registered under. -/
structure ConfigVars (Val : ι → Type) where
  getDatas : Text → Option (Object Val)
  /-- The address of the next object. -/
  next : Nat
  fresh : ∀ name obj, getDatas name = some obj → obj.address < next

/-- The list of characters in `Lookup`. -/
def lookupChars : Text := text "abcdefghikjlmnopqrstuvwxyz._012345678"

namespace ConfigVars

variable (c : ConfigVars Val)

/-- `GetDatas()[name] = v` for a new object. -/
def insert (name : Text) (t : ι) (description : Text) (var : ConfigVar (Val t)) : ConfigVars Val where
  getDatas := Function.update c.getDatas name
    (some ⟨c.next, t, name.map tolower, description, var⟩)
  next := c.next + 1
  fresh := by
    intro n obj hobj
    by_cases hn : n = name
    · subst hn
      rw [Function.update_self] at hobj
      obtain rfl := Option.some.inj hobj
      exact Nat.lt_succ_self c.next
    · rw [Function.update_of_ne hn] at hobj
      exact Nat.lt_succ_of_lt (c.fresh n obj hobj)

/-- A variable is changed where it is. -/
def modify (name : Text) (f : (t : ι) → ConfigVar (Val t) → ConfigVar (Val t)) : ConfigVars Val where
  getDatas n := (c.getDatas n).map fun obj =>
    if n = name then { obj with var := f obj.type obj.var } else obj
  next := c.next
  fresh := by
    intro n obj hobj
    obtain ⟨old, hold, rfl⟩ := Option.map_eq_some_iff.mp hobj
    have haddress := c.fresh n old hold
    split <;> exact haddress

/-- `Lookup<T>(name, default_value, description)`: the pointer it returns, or
the text of the `invalid_argument` that it throws. -/
def lookup [DecidableEq ι] (cast : (t : ι) → Text → Option (Val t)) (t : ι) (name : Text)
    (defaultValue : Val t) (description : Text) : Except Text (Option Nat) × ConfigVars Val :=
  match c.getDatas name with
  | some obj => (.ok (if obj.type = t then some obj.address else none), c)
  | none =>
      if name.any (· ∉ lookupChars) then (.error name, c)
      else (.ok (some c.next), c.insert name t description ⟨cast t, defaultValue, [], .nil⟩)

/-- `Lookup<T>(name)` -/
def find [DecidableEq ι] (t : ι) (name : Text) : Option Nat :=
  match c.getDatas name with
  | some obj => if obj.type = t then some obj.address else none
  | none => none

variable [∀ t, BEq (Val t)]

/-- One turn of the loop in `LoadFromYaml`, and the calls of `fromString`: the
object, and the text. -/
def loadNode (yaml : YamlCpp) (s : ConfigVars Val × List (Nat × Text)) (i : Text × Node) :
    ConfigVars Val × List (Nat × Text) :=
  if i.1 = [] then s
  else
    let key := i.1.map tolower
    match s.1.getDatas key with
    | none => s
    | some obj =>
        let val := nodeText yaml i.2
        (s.1.modify key fun _ var => (var.fromString val).1, s.2 ++ [(obj.address, val)])

def loadFromYaml (yaml : YamlCpp) (root : Node) : ConfigVars Val × List (Nat × Text) :=
  (listAllMember [] root []).foldl (loadNode yaml) (c, [])

end ConfigVars

/-- What else may happen to the registry. -/
inductive Op (Val : ι → Type) where
  | lookup (t : ι) (name : Text) (defaultValue : Val t) (description : Text)
  | load (root : Node)
  /-- `setValue`, `addListener` and the like, through a pointer. -/
  | write (name : Text) (f : (t : ι) → ConfigVar (Val t) → ConfigVar (Val t))

section Runs

variable [DecidableEq ι] [∀ t, BEq (Val t)] (yaml : YamlCpp)
  (cast : (t : ι) → Text → Option (Val t))

def Op.apply (c : ConfigVars Val) : Op Val → ConfigVars Val
  | .lookup t name defaultValue description => (c.lookup cast t name defaultValue description).2
  | .load root => (c.loadFromYaml yaml root).1
  | .write name f => c.modify name f

def ConfigVars.run (c : ConfigVars Val) (ops : List (Op Val)) : ConfigVars Val :=
  ops.foldl (Op.apply yaml cast) c

end Runs

/-! ## What the names promise -/

/-- `[0-9a-z_.]` -/
def Documented (ch : UInt8) : Prop := 48 ≤ ch ∧ ch ≤ 57 ∨ 97 ≤ ch ∧ ch ≤ 122 ∨ ch = 95 ∨ ch = 46

instance (ch : UInt8) : Decidable (Documented ch) := by
  unfold Documented
  infer_instance

/-- The first `Lookup` of a name throws for its characters only; otherwise the
variable is found again, and is set from every node whose path is the name. -/
structure Served [DecidableEq ι] [∀ t, BEq (Val t)] (yaml : YamlCpp)
    (cast : (t : ι) → Text → Option (Val t)) (c : ConfigVars Val) (t : ι) (name : Text)
    (defaultValue : Val t) (description : Text) : Prop where
  throws : (c.lookup cast t name defaultValue description).1 = .error name ↔
    ∃ ch ∈ name, ¬Documented ch
  registers : (∀ ch ∈ name, Documented ch) → ∃ p,
    (c.lookup cast t name defaultValue description).1 = .ok (some p) ∧
    ∀ ops, let later := (c.lookup cast t name defaultValue description).2.run yaml cast ops
      (∀ d descr, later.lookup cast t name d descr = (.ok (some p), later)) ∧
      later.find t name = some p ∧
      ∀ root keys node, (keys, node) ∈ root.preorder [] →
        (joinDots keys).map tolower = name.map tolower →
        (p, nodeText yaml node) ∈ (later.loadFromYaml yaml root).2

/-- No 9, not empty, and no dot in front. -/
def Nameable (name : Text) : Prop := 57 ∉ name ∧ name ≠ [] ∧ name.head? ≠ some 46

end Types

/-! ## Characters and paths -/

/-- A character between two is in a list that has all of them. -/
theorem mem_of_between {l : Text} {a k : Nat} {ch : UInt8}
    (hall : (List.range k).all (fun n => UInt8.ofNat (a + n) ∈ l) = true)
    (ha : a ≤ ch.toNat) (hk : ch.toNat < a + k) : ch ∈ l := by
  have hn := List.all_eq_true.mp hall (ch.toNat - a) (List.mem_range.mpr (by omega))
  rw [Nat.add_sub_of_le ha, UInt8.ofNat_toNat] at hn
  exact of_decide_eq_true hn

theorem mem_lookupChars (ch : UInt8) : ch ∈ lookupChars ↔ Documented ch ∧ ch ≠ 57 := by
  constructor
  · intro h
    have hall : lookupChars.all (fun c => Documented c ∧ c ≠ 57) = true := by decide +kernel
    exact of_decide_eq_true (List.all_eq_true.mp hall ch h)
  · rintro ⟨hdigit | hlower | rfl | rfl, hnine⟩
    · have hlt : ch.toNat < 57 := by
        have hle : ch.toNat ≤ 57 := hdigit.2
        have hne : ch.toNat ≠ 57 := fun h => hnine (UInt8.toNat_inj.mp h)
        omega
      exact @mem_of_between _ 48 9 _ (by decide +kernel) hdigit.1 hlt
    · have hle : ch.toNat ≤ 122 := hlower.2
      exact @mem_of_between _ 97 26 _ (by decide +kernel) hlower.1 (by omega)
    · decide +kernel
    · decide +kernel

/-- Folded, a character of a name is followed by `LoadFromYaml`. -/
theorem tolower_mem (ch : UInt8) (h : tolower ch ∈ lookupChars) : ch ∈ nameChars := by
  by_cases hup : upper ch = true
  · obtain ⟨hlow, hhigh⟩ := (Bool.and_eq_true _ _).mp hup
    have hle : ch.toNat ≤ 90 := of_decide_eq_true hhigh
    exact @mem_of_between _ 65 26 _ (by decide +kernel) (of_decide_eq_true hlow) (by omega)
  · have hall : lookupChars.all (· ∈ nameChars) = true := by decide +kernel
    rw [tolower, if_neg hup] at h
    exact of_decide_eq_true (List.all_eq_true.mp hall ch h)

theorem tolower_of_mem (ch : UInt8) (h : ch ∈ lookupChars) : tolower ch = ch := by
  have hall : lookupChars.all (fun c => tolower c = c) = true := by decide +kernel
  exact of_decide_eq_true (List.all_eq_true.mp hall ch h)

/-- The path is the keys with dots, if it does not start with a dot. -/
theorem traversed_cons {key : Text} (hkey : key ≠ []) (keys : List Text) :
    traversed (key :: keys) = joinDots (key :: keys) := by
  rw [traversed_eq, List.dropWhile_cons_of_neg (by simpa using hkey)]

/-! ## Runs -/

section Runs

variable {ι : Type} {Val : ι → Type} {c : ConfigVars Val} {t : ι} {name : Text} {p : Nat}

/-- The variable of a name, with its address and its type. -/
def Held (c : ConfigVars Val) (t : ι) (name : Text) (p : Nat) : Prop :=
  ∃ obj, c.getDatas name = some obj ∧ obj.address = p ∧ obj.type = t

theorem held_modify (h : Held c t name p) (n : Text)
    (f : (t : ι) → ConfigVar (Val t) → ConfigVar (Val t)) : Held (c.modify n f) t name p := by
  obtain ⟨obj, hobj, haddress, htype⟩ := h
  refine ⟨_, Option.map_eq_some_iff.mpr ⟨obj, hobj, rfl⟩, ?_⟩
  split <;> exact ⟨haddress, htype⟩

theorem held_insert (h : Held c t name p) {n : Text} (hn : c.getDatas n = none) (t' : ι)
    (description : Text) (var : ConfigVar (Val t')) :
    Held (c.insert n t' description var) t name p := by
  obtain ⟨obj, hobj, hfacts⟩ := h
  have hne : name ≠ n := by
    rintro rfl
    rw [hobj] at hn
    cases hn
  exact ⟨obj, (Function.update_of_ne hne _ _).trans hobj, hfacts⟩

theorem held_of_insert (c : ConfigVars Val) (t : ι) (name description : Text)
    (var : ConfigVar (Val t)) : Held (c.insert name t description var) t name c.next :=
  ⟨_, Function.update_self name _ _, rfl, rfl⟩

section Lookups

variable [DecidableEq ι] (cast : (t : ι) → Text → Option (Val t))

theorem lookup_held (h : Held c t name p) (d : Val t) (descr : Text) :
    c.lookup cast t name d descr = (.ok (some p), c) ∧ c.find t name = some p := by
  obtain ⟨obj, hobj, rfl, htype⟩ := h
  rw [ConfigVars.lookup, ConfigVars.find, hobj]
  dsimp only
  rw [if_pos htype]
  exact ⟨rfl, rfl⟩

/-- A `Lookup` that finds nothing throws, or registers. -/
theorem lookup_new (hnone : c.getDatas name = none) (d : Val t) (descr : Text) :
    c.lookup cast t name d descr =
      if name.any (· ∉ lookupChars) then (.error name, c)
      else (.ok (some c.next), c.insert name t descr ⟨cast t, d, [], .nil⟩) := by
  rw [ConfigVars.lookup, hnone]

theorem held_lookup (h : Held c t name p) (t' : ι) (n : Text) (d : Val t') (descr : Text) :
    Held (c.lookup cast t' n d descr).2 t name p := by
  cases hn : c.getDatas n with
  | some obj =>
      rw [ConfigVars.lookup, hn]
      exact h
  | none =>
      rw [lookup_new cast hn]
      split
      · exact h
      · exact held_insert h hn t' descr _

end Lookups

section Loads

variable [∀ t, BEq (Val t)] (yaml : YamlCpp) {s : ConfigVars Val × List (Nat × Text)}
  {i : Text × Node}

theorem held_loadNode (h : Held s.1 t name p) (i : Text × Node) :
    Held (ConfigVars.loadNode yaml s i).1 t name p := by
  rw [ConfigVars.loadNode]
  split
  · exact h
  · dsimp only
    split
    · exact h
    · exact held_modify h (i.1.map tolower) fun _ var => (var.fromString (nodeText yaml i.2)).1

theorem held_load (h : Held s.1 t name p) (nodes : List (Text × Node)) :
    Held (nodes.foldl (ConfigVars.loadNode yaml) s).1 t name p := by
  induction nodes generalizing s with
  | nil => exact h
  | cons i nodes ih => exact ih (held_loadNode yaml h i)

/-- What was called stays called. -/
theorem mem_loadNode {x : Nat × Text} (h : x ∈ s.2) (i : Text × Node) :
    x ∈ (ConfigVars.loadNode yaml s i).2 := by
  rw [ConfigVars.loadNode]
  split
  · exact h
  · dsimp only
    split
    · exact h
    · exact List.mem_append_left _ h

theorem mem_load {x : Nat × Text} (h : x ∈ s.2) (nodes : List (Text × Node)) :
    x ∈ (nodes.foldl (ConfigVars.loadNode yaml) s).2 := by
  induction nodes generalizing s with
  | nil => exact h
  | cons i nodes ih => exact ih (mem_loadNode yaml h i)

theorem loadNode_held (h : Held s.1 t name p) (hne : name ≠ []) (hi : i.1.map tolower = name) :
    (p, nodeText yaml i.2) ∈ (ConfigVars.loadNode yaml s i).2 := by
  obtain ⟨obj, hobj, rfl, -⟩ := h
  subst hi
  have hpath : i.1 ≠ [] := fun hnil => hne (by rw [hnil]; rfl)
  rw [ConfigVars.loadNode, if_neg hpath]
  simp only [hobj]
  exact List.mem_append_right _ (List.mem_singleton_self _)

/-- The variable of a name is set from every node of that name. -/
theorem load_held (h : Held s.1 t name p) (hne : name ≠ []) {nodes : List (Text × Node)}
    (hmem : i ∈ nodes) (hi : i.1.map tolower = name) :
    (p, nodeText yaml i.2) ∈ (nodes.foldl (ConfigVars.loadNode yaml) s).2 := by
  induction nodes generalizing s with
  | nil => cases hmem
  | cons j nodes ih =>
      rcases List.mem_cons.mp hmem with rfl | hmem
      · exact mem_load yaml (loadNode_held yaml h hne hi) nodes
      · exact ih (held_loadNode yaml h j) hmem

variable [DecidableEq ι] (cast : (t : ι) → Text → Option (Val t))

theorem held_apply (h : Held c t name p) (op : Op Val) :
    Held (op.apply yaml cast c) t name p := by
  cases op with
  | lookup t' n d descr => exact held_lookup cast h t' n d descr
  | load root => exact held_load yaml (s := (c, [])) h (listAllMember [] root [])
  | write n f => exact held_modify h n f

theorem held_run (h : Held c t name p) (ops : List (Op Val)) :
    Held (c.run yaml cast ops) t name p := by
  induction ops generalizing c with
  | nil => exact h
  | cons op ops ih => exact ih (held_apply yaml cast h op)

end Loads

/-! ## No other variable -/

/-- No other name has the object. -/
def Only (c : ConfigVars Val) (name : Text) (p : Nat) : Prop :=
  ∀ n obj, c.getDatas n = some obj → obj.address = p → n = name

theorem only_insert (c : ConfigVars Val) (t : ι) (name description : Text)
    (var : ConfigVar (Val t)) : Only (c.insert name t description var) name c.next := by
  intro n obj hobj haddress
  by_contra hn
  have hold : c.getDatas n = some obj := (Function.update_of_ne hn _ _).symm.trans hobj
  exact absurd haddress (Nat.ne_of_lt (c.fresh n obj hold))

theorem only_modify (h : Only c name p) (n : Text)
    (f : (t : ι) → ConfigVar (Val t) → ConfigVar (Val t)) : Only (c.modify n f) name p := by
  intro m obj hobj haddress
  obtain ⟨old, hold, rfl⟩ := Option.map_eq_some_iff.mp hobj
  refine h m old hold ?_
  split at haddress <;> exact haddress

section Others

variable [∀ t, BEq (Val t)] (yaml : YamlCpp) {s : ConfigVars Val × List (Nat × Text)}
  {i : Text × Node}

/-- A node of another name leaves the variable alone. -/
theorem loadNode_only (h : Only s.1 name p) (hs : ∀ x ∈ s.2, x.1 ≠ p)
    (hi : i.1 = [] ∨ i.1.map tolower ≠ name) : Only (ConfigVars.loadNode yaml s i).1 name p ∧
      ∀ x ∈ (ConfigVars.loadNode yaml s i).2, x.1 ≠ p := by
  rw [ConfigVars.loadNode]
  split
  · exact ⟨h, hs⟩
  · rename_i hpath
    dsimp only
    split
    · exact ⟨h, hs⟩
    · rename_i obj hobj
      refine ⟨only_modify h (i.1.map tolower) fun _ var =>
        (var.fromString (nodeText yaml i.2)).1, ?_⟩
      intro x hx
      rcases List.mem_append.mp hx with hx | hx
      · exact hs x hx
      · rw [List.mem_singleton.mp hx]
        exact fun heq => hi.resolve_left hpath (h _ obj hobj heq)

theorem load_only (h : Only s.1 name p) (hs : ∀ x ∈ s.2, x.1 ≠ p) {nodes : List (Text × Node)}
    (hnodes : ∀ i ∈ nodes, i.1 = [] ∨ i.1.map tolower ≠ name) :
    ∀ x ∈ (nodes.foldl (ConfigVars.loadNode yaml) s).2, x.1 ≠ p := by
  induction nodes generalizing s with
  | nil => exact hs
  | cons i nodes ih =>
      obtain ⟨hi, hrest⟩ := List.forall_mem_cons.mp hnodes
      obtain ⟨honly, hcalls⟩ := loadNode_only yaml h hs hi
      exact ih honly hcalls hrest

end Others

end Runs

/-! ## The variables without their types

Seen with the type in the value, loading is that of `Loading`. -/

section Erasure

variable {ι : Type} {Val : ι → Type}

/-- A value with its type. -/
structure Any (Val : ι → Type) where
  type : ι
  val : Val type

variable [DecidableEq ι] [∀ t, BEq (Val t)]

instance : BEq (Any Val) :=
  ⟨fun a b => if h : a.type = b.type then (h ▸ a.val : Val b.type) == b.val else false⟩

omit [DecidableEq ι] [∀ t, BEq (Val t)] in
/-- The variable of an object, its values with their type. -/
def Object.erased (obj : Object Val) : ConfigVar (Any Val) where
  fromStr val := (obj.var.fromStr val).map (⟨obj.type, ·⟩)
  val := ⟨obj.type, obj.var.val⟩
  cbs := obj.var.cbs
  sorted := obj.var.sorted

def ConfigVars.erased (c : ConfigVars Val) : ConfigVarMap fun _ => Any Val :=
  fun name => (c.getDatas name).map Object.erased

theorem fromString_erased (obj : Object Val) (val : Text) : (obj.erased.fromString val).1 =
    Object.erased { obj with var := (obj.var.fromString val).1 } := by
  rw [ConfigVar.fromString, ConfigVar.fromString]
  cases h : obj.var.fromStr val with
  | none => simp only [Object.erased, h, Option.map_none]
  | some v =>
      have hsame : ((⟨obj.type, v⟩ : Any Val) == ⟨obj.type, obj.var.val⟩) =
          (v == obj.var.val) := dif_pos rfl
      simp only [Object.erased, h, Option.map_some, ConfigVar.setValue, hsame]
      split <;> rfl

theorem loadNode_erased (yaml : YamlCpp) (s : ConfigVars Val × List (Nat × Text))
    (events : List (Event fun _ => Any Val)) (i : Text × Node) :
    (ConfigVars.loadNode yaml s i).1.erased =
      (Hps.Config.loadNode yaml (s.1.erased, events) i).1 := by
  rw [ConfigVars.loadNode, Hps.Config.loadNode]
  split
  · rfl
  · dsimp only
    cases h : s.1.getDatas (i.1.map tolower) with
    | none => simp only [ConfigVars.erased, h, Option.map_none]
    | some obj =>
        funext n
        simp only [ConfigVars.erased, h, Option.map_some]
        by_cases hn : n = i.1.map tolower
        · subst hn
          rw [Function.update_self, fromString_erased]
          simp [ConfigVars.modify, h]
        · rw [Function.update_of_ne hn]
          simp [ConfigVars.erased, ConfigVars.modify, hn]

theorem loadFromYaml_erased (yaml : YamlCpp) (c : ConfigVars Val) (root : Node) :
    (c.loadFromYaml yaml root).1.erased = (loadFromYaml yaml c.erased root).1 := by
  have hfold : ∀ (nodes : List (Text × Node)) (s : ConfigVars Val × List (Nat × Text))
      (events : List (Event fun _ => Any Val)),
      (nodes.foldl (ConfigVars.loadNode yaml) s).1.erased =
        (nodes.foldl (Hps.Config.loadNode yaml) (s.1.erased, events)).1 := by
    intro nodes
    induction nodes with
    | nil => exact fun _ _ => rfl
    | cons i nodes ih =>
        intro s events
        rw [List.foldl_cons, List.foldl_cons, ih _ (Hps.Config.loadNode yaml (s.1.erased, events) i).2,
          loadNode_erased yaml s events i]
  exact hfold _ (c, []) []

end Erasure

/-! ## The names that are served -/

section Names

variable {ι : Type} {Val : ι → Type} [DecidableEq ι] [∀ t, BEq (Val t)] {yaml : YamlCpp}
  {cast : (t : ι) → Text → Option (Val t)} {c : ConfigVars Val} {t : ι} {name : Text}
  {defaultValue : Val t} {description : Text}

theorem any_lookupChars : name.any (· ∉ lookupChars) = true ↔ ∃ ch ∈ name, ch ∉ lookupChars := by
  simp [List.any_eq_true]

theorem lookupChars_of_nameable (hdoc : ∀ ch ∈ name, Documented ch) (hname : Nameable name) :
    ∀ ch ∈ name, ch ∈ lookupChars := by
  intro ch hch
  refine (mem_lookupChars ch).mpr ⟨hdoc ch hch, ?_⟩
  rintro rfl
  exact hname.1 hch

theorem map_tolower (h : ∀ ch ∈ name, ch ∈ lookupChars) : name.map tolower = name := by
  have hid : name.map tolower = name.map id :=
    List.map_congr_left fun ch hch => tolower_of_mem ch (h ch hch)
  rw [hid, List.map_id]

/-- A node with the path of a name is one of those that are visited. -/
theorem visited (hdoc : ∀ ch ∈ name, Documented ch) (hname : Nameable name) {root node : Node}
    {keys : List Text} (hmem : (keys, node) ∈ root.preorder [])
    (hpath : (joinDots keys).map tolower = name) :
    traversed keys = joinDots keys ∧ (traversed keys, node) ∈ listAllMember [] root [] := by
  have hchars := lookupChars_of_nameable hdoc hname
  have hallowed : allowed (joinDots keys) = true := by
    rw [allowed, List.all_eq_true]
    intro ch hch
    refine decide_eq_true (tolower_mem ch (hchars _ ?_))
    rw [← hpath]
    exact List.mem_map_of_mem hch
  have htraversed : traversed keys = joinDots keys := by
    cases keys with
    | nil => exact absurd hpath.symm hname.2.1
    | cons key keys =>
        refine traversed_cons ?_ keys
        rintro rfl
        rw [joinDots_cons, List.nil_append] at hpath
        cases keys with
        | nil => exact hname.2.1 hpath.symm
        | cons k keys =>
            refine hname.2.2 ?_
            rw [← hpath]
            rfl
  refine ⟨htraversed, ?_⟩
  rw [listAllMember_root, reached_eq]
  refine List.mem_map.mpr ⟨(keys, node), List.mem_filter.mpr ⟨hmem, ?_⟩, rfl⟩
  rw [← allowed_joinDots, hallowed]

theorem served_of_illegal (hnone : c.getDatas name = none) (hill : ∃ ch ∈ name, ¬Documented ch) :
    Served yaml cast c t name defaultValue description where
  throws := by
    obtain ⟨ch, hch, hnot⟩ := hill
    have hany := any_lookupChars.mpr ⟨ch, hch, fun hmem => hnot ((mem_lookupChars ch).mp hmem).1⟩
    rw [lookup_new cast hnone, if_pos hany]
    exact ⟨fun _ => ⟨ch, hch, hnot⟩, fun _ => rfl⟩
  registers := by
    intro hdoc
    obtain ⟨ch, hch, hnot⟩ := hill
    exact absurd (hdoc ch hch) hnot

theorem served_of_nameable (hnone : c.getDatas name = none) (hdoc : ∀ ch ∈ name, Documented ch)
    (hname : Nameable name) : Served yaml cast c t name defaultValue description := by
  have hchars := lookupChars_of_nameable hdoc hname
  have hany : ¬name.any (· ∉ lookupChars) = true := by
    rw [any_lookupChars]
    rintro ⟨ch, hch, hnot⟩
    exact hnot (hchars ch hch)
  have hnew := lookup_new cast hnone defaultValue description
  rw [if_neg hany] at hnew
  refine ⟨?_, fun _ => ⟨c.next, by rw [hnew], fun ops => ?_⟩⟩
  · rw [hnew]
    refine ⟨fun h => (nomatch h), ?_⟩
    rintro ⟨ch, hch, hnot⟩
    exact absurd (hdoc ch hch) hnot
  · have hheld : Held ((c.lookup cast t name defaultValue description).2.run yaml cast ops)
        t name c.next := by
      rw [hnew]
      exact held_run yaml cast (held_of_insert c t name description _) ops
    refine ⟨fun d descr => (lookup_held cast hheld d descr).1,
      (lookup_held cast hheld defaultValue description).2, ?_⟩
    intro root keys node hmem hpath
    rw [map_tolower hchars] at hpath
    obtain ⟨htraversed, hvisited⟩ := visited hdoc hname hmem hpath
    rw [← htraversed] at hpath
    exact load_held yaml (s := (_, [])) hheld hname.2.1 hvisited hpath

/-- `{"": {rest: ""}}` -/
def emptyKeyTree (rest : Text) : Node :=
  .map [(.scalar [], .map [(.scalar rest, .scalar [])])]

omit [DecidableEq ι] in
/-- The path of the inner node starts with a dot, and its name does not. -/
theorem emptyKey_not_called {rest : Text} {p : Nat} {c : ConfigVars Val}
    (honly : Only c (46 :: rest) p) :
    ∀ x ∈ (c.loadFromYaml yaml (emptyKeyTree rest)).2, x.1 ≠ p := by
  refine load_only yaml (s := (c, [])) honly (fun _ hx => nomatch hx) ?_
  intro i hi
  rw [listAllMember_root] at hi
  obtain ⟨x, hx, rfl⟩ := List.mem_map.mp hi
  have hpre : x ∈ (emptyKeyTree rest).preorder [] := (List.mem_filter.mp hx).1
  simp only [emptyKeyTree, Node.preorder, Node.preorderIn, List.nil_append, List.cons_append,
    List.append_nil, Node.scalarText, List.mem_cons, List.not_mem_nil, or_false] at hpre
  rcases hpre with rfl | rfl | rfl
  · exact .inl rfl
  · exact .inl rfl
  · right
    intro heq
    have hlen := congrArg List.length heq
    rw [List.length_map, List.length_cons] at hlen
    exact absurd hlen (Nat.ne_of_lt (Nat.lt_succ_self rest.length))

theorem nameable_of_served (hnone : c.getDatas name = none) (hdoc : ∀ ch ∈ name, Documented ch)
    (h : Served yaml cast c t name defaultValue description) : Nameable name := by
  have hnew := lookup_new cast hnone defaultValue description
  have hany : ¬name.any (· ∉ lookupChars) = true := by
    intro hany
    rw [if_pos hany] at hnew
    obtain ⟨ch, hch, hnot⟩ := h.throws.mp (by rw [hnew])
    exact hnot (hdoc ch hch)
  rw [if_neg hany] at hnew
  obtain ⟨p, hp, hlater⟩ := h.registers hdoc
  rw [hnew] at hp hlater
  obtain rfl : c.next = p := Option.some.inj (Except.ok.inj hp)
  obtain ⟨-, -, hreach⟩ := hlater []
  refine ⟨fun hnine => ?_, ?_, ?_⟩
  · exact hany (any_lookupChars.mpr ⟨57, hnine, by decide⟩)
  · rintro rfl
    -- the root has the empty name
    have hroot := hreach (.scalar []) [] (.scalar []) (List.mem_singleton_self _) rfl
    exact nomatch hroot
  · intro hhead
    obtain ⟨rest, rfl⟩ : ∃ rest, name = 46 :: rest := by
      cases name with
      | nil => cases hhead
      | cons ch rest => exact ⟨rest, by rw [Option.some.inj hhead]⟩
    have hmem : ([[], rest], Node.scalar []) ∈ (emptyKeyTree rest).preorder [] := by
      simp [emptyKeyTree, Node.preorder, Node.preorderIn, Node.scalarText]
    have hcalled := hreach (emptyKeyTree rest) [[], rest] (.scalar []) hmem (by
      rw [joinDots_cons, List.flatMap_cons, List.flatMap_nil, List.append_nil, List.nil_append])
    exact emptyKey_not_called (only_insert c t (46 :: rest) description _) _ hcalled rfl

/-- **Configuration names**: the first `Lookup` throws as documented, and what
it registers is found again and reached from every tree, exactly if the name
has a character that is not allowed, or else has no 9, is not empty and does
not start with a dot. -/
theorem names_served_iff (yaml : YamlCpp) (cast : (t : ι) → Text → Option (Val t))
    (c : ConfigVars Val) (t : ι) (name : Text) (defaultValue : Val t) (description : Text)
    (hfirst : c.getDatas name = none) :
    Served yaml cast c t name defaultValue description ↔
      (∃ ch ∈ name, ¬Documented ch) ∨ Nameable name := by
  by_cases hdoc : ∀ ch ∈ name, Documented ch
  · constructor
    · exact fun h => .inr (nameable_of_served hfirst hdoc h)
    · rintro (⟨ch, hch, hnot⟩ | hname)
      · exact absurd (hdoc ch hch) hnot
      · exact served_of_nameable hfirst hdoc hname
  · have hill : ∃ ch ∈ name, ¬Documented ch := by simpa using hdoc
    exact ⟨fun _ => .inl hill, fun _ => served_of_illegal hfirst hill⟩

end Names

/-- No variable yet, and `bool` the only type. -/
def noVars : ConfigVars fun _ : Unit => Bool := ⟨fun _ => none, 0, fun _ _ h => nomatch h⟩

theorem tcpPort_served :
    Served Plain.yaml (fun _ => Plain.boolOfText) noVars () (text "tcp.port") false [] := by
  have hname : Nameable (text "tcp.port") := ⟨by decide +kernel, by decide, by decide⟩
  exact (names_served_iff Plain.yaml (fun _ => Plain.boolOfText) noVars () (text "tcp.port")
    false [] rfl).mpr (.inr hname)

/-- `port9` is refused. -/
theorem port9_refused : ¬∀ (yaml : YamlCpp) (cast : Unit → Text → Option Bool)
    (c : ConfigVars fun _ : Unit => Bool) (t : Unit) (name : Text) (defaultValue : Bool)
    (description : Text), c.getDatas name = none →
      Served yaml cast c t name defaultValue description := by
  intro hall
  have h := hall Plain.yaml (fun _ => Plain.boolOfText) noVars () (text "port9") false [] rfl
  obtain ⟨ch, hch, hnot⟩ := h.throws.mp rfl
  have hdoc : ∀ ch ∈ text "port9", Documented ch := by decide +kernel
  exact hnot (hdoc ch hch)

end Hps.Config
