import Hps.Config.Yaml

/-!
# Config — a small YAML

Plain scalars and sequences of them are written as yaml-cpp writes them, and
every other tree in a code for a machine with a stack of nodes. Whatever is
emitted loads as what it was (`load_emit`).
-/

namespace Hps.YAML.Plain

open Hps.Log (Text text)

/-! ## The code -/

/-- A byte goes to the end of a scalar. -/
def byte (c : UInt8) : List Node → List Node
  | .scalar s :: st => .scalar (s ++ [c]) :: st
  | st => st

/-- A node goes to the end of a sequence. -/
def item : List Node → List Node
  | v :: .sequence nodes :: st => .sequence (nodes ++ [v]) :: st
  | st => st

/-- A key and a value go to the end of a map. -/
def entry : List Node → List Node
  | v :: k :: .map pairs :: st => .map (pairs ++ [(k, v)]) :: st
  | st => st

/-- One command of the machine. -/
def act (a c : UInt8) (st : List Node) : List Node :=
  if a = 0 then .null :: st
  else if a = 1 then .scalar [] :: st
  else if a = 2 then .sequence [] :: st
  else if a = 3 then .map [] :: st
  else if a = 4 then byte c st
  else if a = 5 then item st
  else entry st

/-- The commands stand two bytes each. -/
def run : Text → List Node → List Node
  | a :: c :: t, st => run t (act a c st)
  | _, st => st

mutual

def code : Node → Text
  | .null => [0, 0]
  | .scalar s => [1, 0] ++ s.flatMap fun c => [4, c]
  | .sequence nodes => [2, 0] ++ codeItems nodes
  | .map pairs => [3, 0] ++ codePairs pairs

def codeItems : List Node → Text
  | [] => []
  | node :: nodes => code node ++ [5, 0] ++ codeItems nodes

def codePairs : List (Node × Node) → Text
  | [] => []
  | (key, value) :: pairs => code key ++ code value ++ [6, 0] ++ codePairs pairs

end

theorem run_bytes (s pre rest : Text) (st : List Node) :
    run (s.flatMap (fun c => [4, c]) ++ rest) (.scalar pre :: st) =
      run rest (.scalar (pre ++ s) :: st) := by
  induction s generalizing pre with
  | nil => rw [List.append_nil, List.flatMap_nil, List.nil_append]
  | cons c s ih =>
      rw [List.flatMap_cons, List.append_assoc]
      show run (s.flatMap (fun c => [4, c]) ++ rest) (.scalar (pre ++ [c]) :: st) = _
      rw [ih, List.append_assoc, List.singleton_append]

mutual

theorem run_code (node : Node) (rest : Text) (st : List Node) :
    run (code node ++ rest) st = run rest (node :: st) := by
  cases node with
  | null => rfl
  | scalar s => exact run_bytes s [] rest st
  | sequence nodes => exact run_codeItems nodes [] rest st
  | map pairs => exact run_codePairs pairs [] rest st

theorem run_codeItems (nodes pre : List Node) (rest : Text) (st : List Node) :
    run (codeItems nodes ++ rest) (.sequence pre :: st) =
      run rest (.sequence (pre ++ nodes) :: st) := by
  cases nodes with
  | nil =>
      rw [List.append_nil]
      rfl
  | cons node nodes =>
      rw [codeItems, List.append_assoc, List.append_assoc, run_code]
      show run (codeItems nodes ++ rest) (.sequence (pre ++ [node]) :: st) = _
      rw [run_codeItems, List.append_assoc, List.singleton_append]

theorem run_codePairs (pairs pre : List (Node × Node)) (rest : Text) (st : List Node) :
    run (codePairs pairs ++ rest) (.map pre :: st) = run rest (.map (pre ++ pairs) :: st) := by
  cases pairs with
  | nil =>
      rw [List.append_nil]
      rfl
  | cons pair pairs =>
      obtain ⟨key, value⟩ := pair
      rw [codePairs, List.append_assoc, List.append_assoc, List.append_assoc, run_code, run_code]
      show run (codePairs pairs ++ rest) (.map (pre ++ [(key, value)]) :: st) = _
      rw [run_codePairs, List.append_assoc, List.singleton_append]

end

/-! ## Texts -/

/-- Letters and digits, at least one. -/
def plain (s : Text) : Bool :=
  !s.isEmpty && s.all fun c => (48 ≤ c && c ≤ 57) || (65 ≤ c && c ≤ 90) || (97 ≤ c && c ≤ 122)

/-- The texts of plain scalars. -/
def scalars : List Node → Option (List Text)
  | [] => some []
  | .scalar s :: nodes => if plain s then (scalars nodes).map (s :: ·) else none
  | _ :: _ => none

/-- A sequence has one line for each of its elements. -/
def block (ss : List Text) : Text := [10].intercalate (ss.map (text "- " ++ ·))

def emit : Node → Text
  | .scalar s => if plain s then s else 0 :: code (.scalar s)
  | .sequence nodes =>
      match scalars nodes with
      | some (s :: ss) => block (s :: ss)
      | _ => 0 :: code (.sequence nodes)
  | node => 0 :: code node

def load (t : Text) : Option Node :=
  match t with
  | [] => some .null
  | c :: cs =>
      if c = 0 then (run cs []).head?
      else if c = 45 then some (.sequence ((t.splitOn 10).map fun l => .scalar (l.drop 2)))
      else some (.scalar t)

theorem load_code (node : Node) : load (0 :: code node) = some node := by
  have hrun := run_code node [] []
  rw [List.append_nil] at hrun
  rw [load, if_pos rfl, hrun]
  rfl

theorem plain_cons {s : Text} (h : plain s = true) :
    ∃ c cs, s = c :: cs ∧ c ≠ 0 ∧ c ≠ 45 := by
  cases s with
  | nil => cases h
  | cons c cs =>
      refine ⟨c, cs, rfl, ?_, ?_⟩
      · rintro rfl
        cases h
      · rintro rfl
        cases h

theorem not_mem_of_plain {s : Text} (h : plain s = true) : (10 : UInt8) ∉ s := by
  intro hmem
  have hall := ((Bool.and_eq_true _ _).mp h).2
  exact absurd (List.all_eq_true.mp hall 10 hmem) (by decide)

theorem scalars_some {nodes : List Node} {ss : List Text} (h : scalars nodes = some ss) :
    nodes = ss.map .scalar ∧ ∀ s ∈ ss, plain s = true := by
  induction nodes generalizing ss with
  | nil =>
      obtain rfl := Option.some.inj h
      exact ⟨rfl, nofun⟩
  | cons node nodes ih =>
      cases node with
      | scalar s =>
          rw [scalars] at h
          split at h
          · rename_i hs
            obtain ⟨ss', hss, rfl⟩ := Option.map_eq_some_iff.mp h
            obtain ⟨hnodes, hall⟩ := ih hss
            exact ⟨by rw [hnodes, List.map_cons], List.forall_mem_cons.mpr ⟨hs, hall⟩⟩
          · cases h
      | null | sequence _ | map _ => cases h

theorem load_block {s : Text} {ss : List Text} (h : ∀ x ∈ s :: ss, plain x = true) :
    load (block (s :: ss)) = some (.sequence ((s :: ss).map .scalar)) := by
  have hlines : ∀ l ∈ (s :: ss).map (text "- " ++ ·), (10 : UInt8) ∉ l := by
    intro l hl
    obtain ⟨x, hx, rfl⟩ := List.mem_map.mp hl
    rw [List.mem_append]
    rintro (hmem | hmem)
    · exact absurd hmem (by decide)
    · exact not_mem_of_plain (h x hx) hmem
  have hsplit : (block (s :: ss)).splitOn 10 = (s :: ss).map (text "- " ++ ·) :=
    List.splitOn_intercalate 10 hlines (by simp)
  have hfirst : ∃ cs, block (s :: ss) = 45 :: cs := by
    rw [block, List.map_cons]
    cases ss with
    | nil => exact ⟨_, rfl⟩
    | cons x ss => exact ⟨_, rfl⟩
  obtain ⟨cs, hcs⟩ := hfirst
  rw [hcs] at hsplit ⊢
  rw [load, if_neg (by decide), if_pos rfl, hsplit, List.map_map]
  rfl

/-- What is emitted loads as it was. -/
theorem load_emit (node : Node) : load (emit node) = some node := by
  cases node with
  | null | map _ => exact load_code _
  | scalar s =>
      rw [emit]
      split
      · rename_i hs
        obtain ⟨c, cs, rfl, hzero, hdash⟩ := plain_cons hs
        rw [load, if_neg hzero, if_neg hdash]
      · exact load_code _
  | sequence nodes =>
      rw [emit]
      split
      · rename_i s ss hscalars
        obtain ⟨rfl, hall⟩ := scalars_some hscalars
        exact load_block hall
      · exact load_code _

/-- The functions of this YAML. -/
def yaml : YamlCpp where
  load := load
  emit := emit
  emitKeyed _ _ := []

/-- `boost::lexical_cast<std::string>` of a `bool`. -/
def boolToText (b : Bool) : Text := if b then text "1" else text "0"

/-- `boost::lexical_cast<bool>` -/
def boolOfText (t : Text) : Option Bool :=
  if t = text "1" then some true else if t = text "0" then some false else none

end Hps.YAML.Plain
