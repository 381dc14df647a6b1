import Hps.Config.LexicalCast
import Hps.Config.PlainYaml
import Mathlib.Tactic.Choose

/-!
# Config — round trips of containers

A container that is converted to a text and back is equal to what it was, if
that holds of its elements (`sequenceCast_roundTrips`, `mapCast_roundTrips`);
and so it holds at every nesting (`lexicalCast_roundTrip`).
-/

namespace Hps.Config

open Hps.YAML Hps.Lib
open Hps.Log (Text text)

/-- Every value has a text, in the way YAML is written, from which an equal
value comes back. -/
def RoundTrips (yaml : YamlCpp) (T : Cast) : Prop :=
  ∀ v, ∃ t w, T.toText v = some t ∧ yaml.Normal t ∧ T.ofText t = some w ∧ T.eq w v = true

/-! ## Loops that do not fail -/

/-- A loop all of whose turns go well. -/
theorem foldlM_map_some {α β γ : Type} {step : β → α → Option β} {ins : β → γ → β} {g : α → γ}
    {xs : List α} (h : ∀ x ∈ xs, ∀ s, step s x = some (ins s (g x))) (s : β) :
    xs.foldlM step s = some ((xs.map g).foldl ins s) := by
  induction xs generalizing s with
  | nil => rfl
  | cons x xs ih =>
      rw [List.foldlM_cons, h x List.mem_cons_self]
      exact ih (fun y hy => h y (List.mem_cons_of_mem x hy)) (ins s (g x))

variable {yaml : YamlCpp} {T : Cast}

/-- `node` gives the nodes of the elements, and `back` what comes back from
them. -/
structure Passes (yaml : YamlCpp) (T : Cast) (node : T.Val → Node) (back : T.Val → T.Val) :
    Prop where
  load : ∀ x, ∃ t, T.toText x = some t ∧ yaml.load t = some (node x)
  ofText : ∀ x, T.ofText (yaml.emit (node x)) = some (back x)
  eq : ∀ x, T.eq (back x) x = true

theorem RoundTrips.passes (hT : RoundTrips yaml T) : ∃ node back, Passes yaml T node back := by
  have hone : ∀ x, ∃ (node : Node) (back : T.Val),
      (∃ t, T.toText x = some t ∧ yaml.load t = some node) ∧
        T.ofText (yaml.emit node) = some back ∧ T.eq back x = true := by
    intro x
    obtain ⟨t, w, ht, ⟨node, hload, hemit⟩, hw, heq⟩ := hT x
    refine ⟨node, w, ⟨t, ht, hload⟩, ?_, heq⟩
    rw [hemit]
    exact hw
  choose node back h using hone
  exact ⟨node, back, fun x => (h x).1, fun x => (h x).2.1, fun x => (h x).2.2⟩

/-- A text that was emitted. -/
theorem normal_emit (hy : ∀ node, yaml.load (yaml.emit node) = some node) (node : Node) :
    yaml.Normal (yaml.emit node) := ⟨node, hy node, rfl⟩

variable {node : T.Val → Node} {back : T.Val → T.Val}

/-! ## Sequences -/

/-- The elements of a sequence, by their indices. -/
theorem map_emitAt (yaml : YamlCpp) (nodes : List Node) :
    (List.range nodes.length).map (yaml.emitAt (.sequence nodes)) = nodes.map yaml.emit := by
  apply List.ext_getElem
  · rw [List.length_map, List.length_range, List.length_map]
  · intro i h h'
    rw [List.length_map] at h'
    rw [List.getElem_map, List.getElem_map, List.getElem_range, YamlCpp.emitAt,
      List.getElem?_eq_getElem h']
    rfl

theorem sequenceToText_eq (h : Passes yaml T node back) (C : Container T.toCompared)
    (v : C.Val) :
    sequenceToText yaml T C v = some (yaml.emit (.sequence ((C.iter v).map node))) := by
  have hloop : (C.iter v).foldlM (fun nodes i => do
      let t ← T.toText i
      let node ← yaml.load t
      pure (nodes ++ [node])) [] =
        some (((C.iter v).map node).foldl (fun nodes n => nodes ++ [n]) []) := by
    apply foldlM_map_some
    intro x _ nodes
    obtain ⟨t, ht, hload⟩ := h.load x
    rw [ht, Option.bind_eq_bind, Option.bind_some, hload]
    rfl
  rw [sequenceToText, hloop, Container.foldl_concat]
  rfl

theorem sequenceOfText_eq (hy : ∀ node, yaml.load (yaml.emit node) = some node)
    (h : Passes yaml T node back) (C : Container T.toCompared) (xs : List T.Val) :
    sequenceOfText yaml T C (yaml.emit (.sequence (xs.map node))) =
      some ((xs.map back).foldl C.insert C.empty) := by
  let step (vec : C.Val) (t : Text) : Option C.Val := do
    let x ← T.ofText t
    pure (C.insert vec x)
  have hindices : (List.range (xs.map node).length).foldlM
      (fun vec i => step vec (yaml.emitAt (.sequence (xs.map node)) i)) C.empty =
        xs.foldlM (fun vec x => step vec (yaml.emit (node x))) C.empty := by
    rw [← List.foldlM_map (g := step), map_emitAt, List.map_map, List.foldlM_map]
    rfl
  have hloop : xs.foldlM (fun vec x => step vec (yaml.emit (node x))) C.empty =
      some ((xs.map back).foldl C.insert C.empty) := by
    apply foldlM_map_some
    intro x _ vec
    show (T.ofText (yaml.emit (node x))).bind _ = _
    rw [h.ofText x]
    rfl
  rw [sequenceOfText, hy]
  exact hindices.trans hloop

theorem sequenceCast_roundTrips (hy : ∀ node, yaml.load (yaml.emit node) = some node)
    (hT : RoundTrips yaml T) (C : Container T.toCompared) :
    RoundTrips yaml (sequenceCast yaml T C) := by
  obtain ⟨node, back, h⟩ := hT.passes
  intro v
  have halike : Compared.Alike ((C.iter v).map back) (C.iter v) :=
    List.forall₂_map_left_iff.mpr (List.forall₂_same.mpr fun x _ => h.eq x)
  exact ⟨_, _, sequenceToText_eq h C v, normal_emit hy _, sequenceOfText_eq hy h C (C.iter v),
    C.rebuild v _ halike⟩

/-! ## Maps -/

/-- A new key goes behind the others. -/
theorem assign_new {key : Text} {value : Node} {pairs : List (Text × Node)}
    (h : ∀ x ∈ pairs, x.1 ≠ key) :
    Node.assign key value (pairs.map fun x => (.scalar x.1, x.2)) =
      (pairs ++ [(key, value)]).map fun x => (.scalar x.1, x.2) := by
  induction pairs with
  | nil => rfl
  | cons x pairs ih =>
      obtain ⟨hx, hpairs⟩ := List.forall_mem_cons.mp h
      rw [List.map_cons, Node.assign, if_neg hx, ih hpairs]
      rfl

theorem foldl_assign (pre xs : List (Text × Node)) (h : ((pre ++ xs).map Prod.fst).Nodup) :
    xs.foldl (fun pairs x => Node.assign x.1 x.2 pairs)
        (pre.map fun x => ((.scalar x.1, x.2) : Node × Node)) =
      (pre ++ xs).map fun x => (.scalar x.1, x.2) := by
  induction xs generalizing pre with
  | nil => rw [List.append_nil, List.foldl_nil]
  | cons x xs ih =>
      have hnew : ∀ y ∈ pre, y.1 ≠ x.1 := by
        intro y hy heq
        rw [List.map_append, List.map_cons] at h
        have hdisjoint := (List.nodup_append.mp h).2.2
        exact hdisjoint _ (List.mem_map_of_mem hy) _ List.mem_cons_self heq
      rw [List.append_cons] at h ⊢
      rw [List.foldl_cons, assign_new hnew]
      exact ih (pre ++ [x]) h

/-- An entry as it goes to YAML. -/
def there (node : T.Val → Node) (x : (Entry T).Val) : Text × Node := (x.1, node x.2)

/-- An entry as it comes back. -/
def again (back : T.Val → T.Val) (x : (Entry T).Val) : (Entry T).Val := (x.1, back x.2)

/-- The pairs of a map of such entries. -/
def pairs (node : T.Val → Node) (xs : List (Entry T).Val) : List (Node × Node) :=
  xs.map fun x => (.scalar x.1, node x.2)

theorem mapToText_eq (h : Passes yaml T node back) (M : Dictionary Text T.toCompared)
    (v : M.Val) : mapToText yaml T M v = some (yaml.emit (.map (pairs node (M.iter v)))) := by
  have hkeys : (([] ++ (M.iter v).map (there node)).map Prod.fst).Nodup := by
    rw [List.nil_append, List.map_map]
    exact M.nodup_keys v
  have hassign : ((M.iter v).map (there node)).foldl (fun pairs x => Node.assign x.1 x.2 pairs)
      [] = pairs node (M.iter v) := by
    have hall := foldl_assign [] ((M.iter v).map (there node)) hkeys
    rw [List.nil_append, List.map_map] at hall
    exact hall
  have hloop : (M.iter v).foldlM (fun pairs (i : Text × T.Val) => do
      let t ← T.toText i.2
      let node ← yaml.load t
      pure (Node.assign i.1 node pairs)) [] =
        some (((M.iter v).map (there node)).foldl (fun pairs x => Node.assign x.1 x.2 pairs)
          []) := by
    apply foldlM_map_some
    intro x _ pairs
    obtain ⟨t, ht, hload⟩ := h.load x.2
    rw [ht, Option.bind_eq_bind, Option.bind_some, hload]
    rfl
  rw [mapToText, hloop, hassign]
  rfl

theorem mapOfText_eq (hy : ∀ node, yaml.load (yaml.emit node) = some node)
    (h : Passes yaml T node back) (M : Dictionary Text T.toCompared) (xs : List (Entry T).Val) :
    mapOfText yaml T M (yaml.emit (.map (pairs node xs))) =
      some ((xs.map (again back)).foldl M.insert M.empty) := by
  rw [mapOfText, hy]
  show (pairs node xs).foldlM _ M.empty = _
  rw [pairs, List.foldlM_map]
  apply foldlM_map_some
  intro x _ vec
  show (T.ofText (yaml.emit (node x.2))).bind _ = _
  rw [h.ofText x.2]
  rfl

theorem mapCast_roundTrips (hy : ∀ node, yaml.load (yaml.emit node) = some node)
    (hT : RoundTrips yaml T) (M : Dictionary Text T.toCompared) :
    RoundTrips yaml (mapCast yaml T M) := by
  obtain ⟨node, back, h⟩ := hT.passes
  intro v
  have halike : Compared.Alike ((M.iter v).map (again back)) (M.iter v) := by
    refine List.forall₂_map_left_iff.mpr (List.forall₂_same.mpr ?_)
    intro x _
    exact (Bool.and_eq_true _ _).mpr ⟨decide_eq_true rfl, h.eq x.2⟩
  exact ⟨_, _, mapToText_eq h M v, normal_emit hy _, mapOfText_eq hy h M (M.iter v),
    M.rebuild v _ halike⟩

/-! ## All nestings -/

theorem Built.roundTrips (hy : ∀ node, yaml.load (yaml.emit node) = some node)
    (hT : RoundTrips yaml T) {C : Cast} (hC : Built yaml T C) : RoundTrips yaml C := by
  induction hC with
  | base => exact hT
  | vector _ ih => exact sequenceCast_roundTrips hy ih _
  | list _ ih => exact sequenceCast_roundTrips hy ih _
  | set less _ ih => exact sequenceCast_roundTrips hy ih _
  | unorderedSet b _ ih => exact sequenceCast_roundTrips hy ih _
  | map _ ih => exact mapCast_roundTrips hy ih _
  | unorderedMap b _ ih => exact mapCast_roundTrips hy ih _

/-- **Conversions round trip at every nesting** of containers over a type
whose own conversions do, and whose texts are scalars that YAML leaves as
they are. -/
theorem lexicalCast_roundTrip (hy : ∀ node, yaml.load (yaml.emit node) = some node)
    (hid : ∀ v, (T.toText v).bind T.ofText = some v)
    (hscalar : ∀ v t, T.toText v = some t →
      yaml.load t = some (.scalar t) ∧ yaml.emit (.scalar t) = t)
    {C : Cast} (hC : Built yaml T C) (v : C.Val) :
    ∃ w, (C.toText v).bind C.ofText = some w ∧ C.eq w v = true := by
  have hT : RoundTrips yaml T := by
    intro v
    obtain ⟨t, ht, hback⟩ := Option.bind_eq_some_iff.mp (hid v)
    exact ⟨t, v, ht, ⟨.scalar t, hscalar v t ht⟩, hback, T.equiv.refl v⟩
  obtain ⟨t, w, ht, -, hw, heq⟩ := hC.roundTrips hy hT v
  exact ⟨w, Option.bind_eq_some_iff.mpr ⟨t, ht, hw⟩, heq⟩

/-- `bool` -/
def boolCast : Cast where
  toCompared := .ofEq Bool
  toText b := some (Plain.boolToText b)
  ofText := Plain.boolOfText

theorem boolList_roundTrip :
    (list Plain.yaml boolCast).toText [true, false] = some (text "- 1\n- 0") ∧
    ∃ w, ((list Plain.yaml boolCast).toText [true, false]).bind
        (list Plain.yaml boolCast).ofText = some w ∧
      (list Plain.yaml boolCast).eq w [true, false] = true := by
  have hload : ∀ node, Plain.yaml.load (Plain.yaml.emit node) = some node := Plain.load_emit
  have hid : ∀ b : Bool, (boolCast.toText b).bind boolCast.ofText = some b := by
    intro b
    cases b with
    | false => rfl
    | true => rfl
  have hscalar : ∀ (b : Bool) (t : Text), boolCast.toText b = some t →
      Plain.yaml.load t = some (.scalar t) ∧ Plain.yaml.emit (.scalar t) = t := by
    intro b t h
    obtain rfl := Option.some.inj h
    cases b with
    | false => exact ⟨rfl, rfl⟩
    | true => exact ⟨rfl, rfl⟩
  have hbuilt : Built Plain.yaml boolCast (list Plain.yaml boolCast) := .list .base
  exact ⟨by decide +kernel,
    lexicalCast_roundTrip hload hid hscalar hbuilt [true, false]⟩

end Hps.Config
