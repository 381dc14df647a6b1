import Hps.Config.Loaded
import Hps.Lib.Run

/-!
# Config — a directory

`LoadFromConfDir` loads the files of a directory, and passes by those whose
modification time is the one that it saw last. As long as the last call found
such a file with the same contents, and no two files set the same variable, the
variables are after any calls as if every file had been loaded at each of them
(`loaded_as_forced`).
-/

namespace Hps.Config

open Hps.YAML Hps.Lib
open Hps.Log (Text text)
open Hps.Http (tolower)

/-! ## Files -/

/-- What `readdir` tells of an entry: `DT_DIR`, `DT_REG` or another type. What
`opendir` opens of a directory is kept with it, but for `.` and `..`. -/
inductive Dirent where
  | dir (dName : Text) (opened : Option (List Dirent))
  | reg (dName : Text)
  | other (dName : Text)

/-- `path + "/" + name` -/
def below (path name : Text) : Text := path ++ text "/" ++ name

/-- The name is one of the files that are asked for. -/
def hasSubfix (filename subfix : Text) : Bool :=
  if subfix = [] then true
  else if filename.length < subfix.length then false
  else filename.drop (filename.length - subfix.length) = subfix

mutual

/-- `FSUtil::ListAllFile`, of what `opendir(path)` opens. -/
def listAllFile (subfix path : Text) : Option (List Dirent) → List Text
  | none => []
  | some entries => listEntries subfix path entries

def listEntries (subfix path : Text) : List Dirent → List Text
  | [] => []
  | dp :: entries => listEntry subfix path dp ++ listEntries subfix path entries

/-- A turn of the loop over the entries. -/
def listEntry (subfix path : Text) : Dirent → List Text
  | .dir dName opened =>
      if dName = text "." ∨ dName = text ".." then []
      else listAllFile subfix (below path dName) opened
  | .reg dName => if hasSubfix dName subfix then [below path dName] else []
  | .other _ => []

end

/-- The files at the time of a call. -/
structure Snapshot where
  opendir : Text → Option (List Dirent)
  /-- `st_mtime` of what `lstat` finds. -/
  stMtime : Text → Nat
  /-- `YAML::LoadFile`; `none` is an exception. -/
  loadFile : Text → Option Node

/-- `Env::getAbsolutePath` -/
def getAbsolutePath (cwd path : Text) : Text :=
  match path with
  | [] => text "/"
  | c :: _ => if c = 47 then path else cwd ++ path

/-- The files of a call of `LoadFromConfDir`. -/
def Snapshot.files (fs : Snapshot) (cwd path : Text) : List Text :=
  listAllFile (text ".yml") (getAbsolutePath cwd path) (fs.opendir (getAbsolutePath cwd path))

/-! ## Loading -/

section Loading

variable {T : Text → Type} [∀ name, BEq (T name)] (yaml : YamlCpp)

structure Directory (T : Text → Type) where
  file2modifytime : Text → Nat := fun _ => 0
  datas : ConfigVarMap T
  events : List (Event T) := []
  /-- The files of the last call, with their contents; the program does not
  keep them. -/
  seen : List (Text × Option Node) := []

namespace Directory

variable (s : Directory T)

/-- A file is loaded, if it can be. -/
def load (fs : Snapshot) (i : Text) : Directory T :=
  match fs.loadFile i with
  | none => s
  | some root =>
      let (datas, events) := loadFromYaml yaml s.datas root
      { s with datas, events := s.events ++ events }

/-- `s_file2modifytime[i] = st.st_mtime` -/
def note (fs : Snapshot) (i : Text) : Directory T :=
  { s with file2modifytime := Function.update s.file2modifytime i (fs.stMtime i) }

/-- A turn of the loop over the files. -/
def turn (fs : Snapshot) (force : Bool) (i : Text) : Directory T :=
  if force = false ∧ s.file2modifytime i = fs.stMtime i then s
  else (s.note fs i).load yaml fs i

def loadFromConfDir (cwd : Text) (fs : Snapshot) (path : Text) (force : Bool) : Directory T :=
  let files := fs.files cwd path
  { files.foldl (fun s i => s.turn yaml fs force i) s with
    seen := files.map fun i => (i, fs.loadFile i) }

end Directory

/-- A call, and the files that it finds. -/
structure LoadCall where
  fs : Snapshot
  path : Text
  force : Bool

def step (cwd : Text) (s : Directory T) (c : LoadCall) : Option (Directory T) :=
  some (s.loadFromConfDir yaml cwd c.fs c.path c.force)

/-! ## Contents that times tell apart -/

/-- The names of the variables that a tree sets. -/
def setNames (root : Node) : List Text :=
  (listAllMember [] root []).map fun i => i.1.map tolower

/-- No variable is set by both files. -/
def Apart (fs : Snapshot) (datas : ConfigVarMap T) (i j : Text) : Prop :=
  ∀ root root', fs.loadFile i = some root → fs.loadFile j = some root' →
    ∀ name, name ≠ [] → name ∈ setNames root → name ∈ setNames root' → datas name = none

/-- A file whose time has not changed was found by the last call with the same
contents, and no two files set the same variable. -/
structure Stamped (cwd : Text) (s : Directory T) (c : LoadCall) : Prop where
  kept : ∀ i ∈ c.fs.files cwd c.path, s.file2modifytime i = c.fs.stMtime i →
    (i, c.fs.loadFile i) ∈ s.seen
  apart : ∀ i ∈ c.fs.files cwd c.path, ∀ j ∈ c.fs.files cwd c.path, i ≠ j →
    Apart c.fs s.datas i j

end Loading

/-! ## Loading twice -/

section Twice

variable {T : Text → Type} [∀ name, BEq (T name)] {yaml : YamlCpp} {datas : ConfigVarMap T}
variable {root root' : Node} {name : Text}

theorem textsAt_eq_nil (h : name ∉ setNames root) :
    textsAt yaml name (listAllMember [] root []) = [] := by
  rw [textsAt, List.map_eq_nil_iff, List.filter_eq_nil_iff]
  intro i hi hname
  exact h (List.mem_map.mpr ⟨i, hi, of_decide_eq_true hname⟩)

/-- A variable that no node names stays. -/
theorem load_unnamed (h : name = [] ∨ datas name = none ∨ name ∉ setNames root) :
    (loadFromYaml yaml datas root).1 name = datas name := by
  by_cases hnone : name = [] ∨ datas name = none
  · exact (load_other yaml (s := (datas, [])) _ hnone).1
  · have hout := h.resolve_left fun hn => hnone (.inl hn)
    have hnames := hout.resolve_left fun hn => hnone (.inr hn)
    obtain ⟨var, hvar⟩ := Option.ne_none_iff_exists'.mp fun hn => hnone (.inr hn)
    rw [loadFromYaml, (load_registered yaml (s := (datas, [])) _ (fun hn => hnone (.inl hn))
      hvar).1, textsAt_eq_nil hnames, hvar]
    rfl

/-- The tree sets no variable to another value. -/
def Settled (yaml : YamlCpp) (content : Option Node) (datas : ConfigVarMap T) : Prop :=
  ∀ root, content = some root → (loadFromYaml yaml datas root).1 = datas

variable [∀ name, LawfulBEq (T name)]

/-- The values that the nodes of a variable convert to. -/
def valuesAt (yaml : YamlCpp) (root : Node) (var : ConfigVar (T name)) : List (T name) :=
  (textsAt yaml name (listAllMember [] root [])).filterMap var.fromStr

theorem load_named {var : ConfigVar (T name)} (hne : name ≠ []) (hvar : datas name = some var) :
    (loadFromYaml yaml datas root).1 name =
      some { var with val := (valuesAt yaml root var).getLast?.getD var.val } := by
  rw [loadFromYaml, (load_registered yaml (s := (datas, [])) _ hne hvar).1,
    (var.fromStrings_eq _).1]
  rfl

/-- Loading a tree again changes nothing. -/
theorem settled_load (root : Node) :
    Settled yaml (some root) (loadFromYaml yaml datas root).1 := by
  intro root' hroot
  obtain rfl := Option.some.inj hroot
  funext name
  by_cases h : name = [] ∨ datas name = none
  · have hstay : (loadFromYaml yaml datas root).1 name = datas name :=
      load_unnamed (h.imp_right .inl)
    exact load_unnamed (h.imp_right fun hn => .inl (hstay.trans hn))
  · obtain ⟨hne, hsome⟩ := not_or.mp h
    obtain ⟨var, hvar⟩ := Option.ne_none_iff_exists'.mp hsome
    have honce : (loadFromYaml yaml datas root).1 name = some { var with
        val := (valuesAt yaml root var).getLast?.getD var.val } := load_named hne hvar
    rw [load_named hne honce, honce]
    show some { var with val := (valuesAt yaml root var).getLast?.getD _ } = _
    cases (valuesAt yaml root var).getLast? <;> rfl

/-- A tree that sets none of its variables leaves it settled. -/
theorem Settled.load {content : Option Node} (h : Settled yaml content datas)
    (hapart : ∀ root', content = some root' → ∀ name, name ≠ [] → name ∈ setNames root →
      name ∈ setNames root' → datas name = none) :
    Settled yaml content (loadFromYaml yaml datas root).1 := by
  rintro root' rfl
  have hsettled := h root' rfl
  funext name
  by_cases hroot : name = [] ∨ datas name = none ∨ name ∉ setNames root
  · -- the variable is the one that it was before
    have hstay : (loadFromYaml yaml datas root).1 name = datas name := load_unnamed hroot
    by_cases hout : name = [] ∨ datas name = none
    · exact load_unnamed (hout.imp_right fun hn => .inl (hstay.trans hn))
    · obtain ⟨hne, hsome⟩ := not_or.mp hout
      obtain ⟨var, hvar⟩ := Option.ne_none_iff_exists'.mp hsome
      have hsame := congrFun hsettled name
      rw [load_named hne hvar] at hsame
      rw [load_named hne (hstay.trans hvar), hstay]
      exact hsame
  · have hnames : name ∉ setNames root' := by
      intro hname
      rw [not_or, not_or, not_not] at hroot
      exact hroot.2.1 (hapart root' rfl name hroot.1 hroot.2.2 hname)
    exact load_unnamed (.inr (.inr hnames))

end Twice

/-! ## Calls -/

section Calls

variable {T : Text → Type} [∀ name, BEq (T name)] {yaml : YamlCpp} {s t : Directory T}
variable {fs : Snapshot} {files : List Text} {i : Text}

/-- The variables behind the load of a file. -/
def applied (yaml : YamlCpp) (content : Option Node) (datas : ConfigVarMap T) : ConfigVarMap T :=
  match content with
  | none => datas
  | some root => (loadFromYaml yaml datas root).1

theorem load_datas : (s.load yaml fs i).datas = applied yaml (fs.loadFile i) s.datas := by
  rw [Directory.load]
  cases fs.loadFile i <;> rfl

theorem load_times : (s.load yaml fs i).file2modifytime = s.file2modifytime := by
  rw [Directory.load]
  cases fs.loadFile i <;> rfl

theorem Settled.applied_eq {content : Option Node} {datas : ConfigVarMap T}
    (h : Settled yaml content datas) : applied yaml content datas = datas := by
  cases content with
  | none => rfl
  | some root => exact h root rfl

theorem forced_datas : (t.turn yaml fs true i).datas = applied yaml (fs.loadFile i) t.datas := by
  rw [Directory.turn, if_neg (by simp), load_datas]
  rfl

/-- The files whose times are known are those that would change nothing. -/
def Cached (yaml : YamlCpp) (fs : Snapshot) (files : List Text) (s : Directory T) : Prop :=
  ∀ j ∈ files, s.file2modifytime j = fs.stMtime j → Settled yaml (fs.loadFile j) s.datas

variable [∀ name, LawfulBEq (T name)]

theorem settled_applied (content : Option Node) (datas : ConfigVarMap T) :
    Settled yaml content (applied yaml content datas) := by
  cases content with
  | none =>
      intro root hroot
      cases hroot
  | some root => exact settled_load root

/-- What is apart stays so: the variables of a registry remain registered. -/
theorem applied_eq_none (content : Option Node) (datas : ConfigVarMap T) (name : Text) :
    applied yaml content datas name = none ↔ datas name = none := by
  cases content with
  | none => rfl
  | some root =>
      by_cases h : name = [] ∨ datas name = none
      · rw [applied, load_unnamed (h.imp_right .inl)]
      · obtain ⟨hne, hsome⟩ := not_or.mp h
        obtain ⟨var, hvar⟩ := Option.ne_none_iff_exists'.mp hsome
        rw [applied, load_named hne hvar, hvar]
        simp

/-- A turn passes by a file only if loading it would change nothing. -/
theorem turn_cached (force : Bool) (hc : Cached yaml fs files s)
    (hapart : ∀ i ∈ files, ∀ j ∈ files, i ≠ j → Apart fs s.datas i j) (hi : i ∈ files) :
    Cached yaml fs files (s.turn yaml fs force i) ∧
      (s.turn yaml fs force i).datas = applied yaml (fs.loadFile i) s.datas ∧
      (s.turn yaml fs force i).file2modifytime =
        Function.update s.file2modifytime i (fs.stMtime i) := by
  rw [Directory.turn]
  split
  · rename_i hskip
    refine ⟨hc, (hc i hi hskip.2).applied_eq.symm, ?_⟩
    rw [← hskip.2, Function.update_eq_self]
  · have hdatas : ((s.note fs i).load yaml fs i).datas = applied yaml (fs.loadFile i) s.datas :=
      load_datas
    refine ⟨?_, hdatas, load_times⟩
    intro j hj hjtime
    rw [hdatas]
    rw [load_times] at hjtime
    by_cases hij : j = i
    · subst hij
      exact settled_applied _ _
    · have hjtime : Function.update s.file2modifytime i (fs.stMtime i) j = fs.stMtime j :=
        hjtime
      rw [Function.update_of_ne hij] at hjtime
      have hsettled := hc j hj hjtime
      cases hroot : fs.loadFile i with
      | none => exact hsettled
      | some root =>
          refine hsettled.load fun root' hroot' name hne hname hname' => ?_
          exact hapart i hi j hj (Ne.symm hij) root root' hroot hroot' name hne hname hname'

/-- The loop leaves the variables as they are behind a load of all files, which
then would change nothing. -/
theorem files_cached (force : Bool) {rest : List Text} (hrest : rest ⊆ files)
    (hc : Cached yaml fs files s)
    (hapart : ∀ i ∈ files, ∀ j ∈ files, i ≠ j → Apart fs s.datas i j)
    (hdatas : s.datas = t.datas) :
    Cached yaml fs files (rest.foldl (fun s i => s.turn yaml fs force i) s) ∧
      (rest.foldl (fun s i => s.turn yaml fs force i) s).datas =
        (rest.foldl (fun s i => s.turn yaml fs true i) t).datas ∧
      ∀ j, j ∈ rest ∨ s.file2modifytime j = fs.stMtime j →
        (rest.foldl (fun s i => s.turn yaml fs force i) s).file2modifytime j =
          fs.stMtime j := by
  induction rest generalizing s t with
  | nil => exact ⟨hc, hdatas, fun j hj => hj.resolve_left List.not_mem_nil⟩
  | cons i rest ih =>
      obtain ⟨hi, hrest⟩ := List.cons_subset.mp hrest
      obtain ⟨hcached, hload, htimes⟩ := turn_cached force hc hapart hi
      have hsame : (s.turn yaml fs force i).datas = (t.turn yaml fs true i).datas := by
        rw [hload, forced_datas, hdatas]
      have hapart' : ∀ i' ∈ files, ∀ j ∈ files, i' ≠ j →
          Apart fs (s.turn yaml fs force i).datas i' j := by
        intro i' hi' j hj hne root root' hroot hroot' name hname h₁ h₂
        rw [hload, applied_eq_none]
        exact hapart i' hi' j hj hne root root' hroot hroot' name hname h₁ h₂
      obtain ⟨hall, hdatas', hknown⟩ := ih hrest hcached hapart' hsame
      refine ⟨hall, hdatas', fun j hj => hknown j ?_⟩
      rw [htimes]
      by_cases hij : j = i
      · exact .inr (by rw [hij, Function.update_self])
      · rcases hj with hj | hj
        · exact .inl ((List.mem_cons.mp hj).resolve_left hij)
        · exact .inr (by rw [Function.update_of_ne hij, hj])

variable {cwd : Text}

/-- The call leaves what a forced one would leave, and has seen it. -/
theorem call_cached {c : LoadCall} (hseen : ∀ x ∈ s.seen, Settled yaml x.2 s.datas)
    (hstamped : Stamped cwd s c) (hdatas : s.datas = t.datas) :
    (s.loadFromConfDir yaml cwd c.fs c.path c.force).datas =
        (t.loadFromConfDir yaml cwd c.fs c.path true).datas ∧
      ∀ x ∈ (s.loadFromConfDir yaml cwd c.fs c.path c.force).seen,
        Settled yaml x.2 (s.loadFromConfDir yaml cwd c.fs c.path c.force).datas := by
  have hc : Cached yaml c.fs (c.fs.files cwd c.path) s := fun j hj htime =>
    hseen _ (hstamped.kept j hj htime)
  obtain ⟨hcached, hsame, hknown⟩ :=
    files_cached c.force (List.Subset.refl _) hc hstamped.apart hdatas
  refine ⟨hsame, fun x hx => ?_⟩
  obtain ⟨i, hi, rfl⟩ := List.mem_map.mp hx
  exact hcached i hi (hknown i (.inl hi))

/-- **Files that are passed by are as good as loaded.** In any run of calls in
which a file whose time has not changed was found by the last call, with the same
contents, and no two files of a call set the same variable, the variables are at
the end as if every call had been forced. -/
theorem loaded_as_forced (yaml : YamlCpp) (cwd : Text) (datas : ConfigVarMap T)
    {calls : List LoadCall} (h : Meets (step yaml cwd) (Stamped cwd) { datas } calls) :
    ∃ s t : Directory T, run (step yaml cwd) { datas } calls = some s ∧
      run (step yaml cwd) { datas } (calls.map fun c => { c with force := true }) = some t ∧
      s.datas = t.datas := by
  suffices hrun : ∀ (calls : List LoadCall) (s t : Directory T), s.datas = t.datas →
      (∀ x ∈ s.seen, Settled yaml x.2 s.datas) →
      Meets (step yaml cwd) (Stamped cwd) s calls →
      ∃ s' t', run (step yaml cwd) s calls = some s' ∧
        run (step yaml cwd) t (calls.map fun c => { c with force := true }) = some t' ∧
        s'.datas = t'.datas from
    hrun calls { datas } { datas } rfl (List.forall_mem_nil _) h
  intro calls
  induction calls with
  | nil => exact fun s t hdatas _ _ => ⟨s, t, rfl, rfl, hdatas⟩
  | cons c calls ih =>
      intro s t hdatas hseen hmeets
      obtain ⟨hsame, hseen'⟩ := call_cached hseen hmeets.1 hdatas
      exact ih _ _ hsame hseen' (hmeets.2 _ rfl)

end Calls

/-- Two files below `/conf`, the second of which is written now and then. -/
def confDir : List Dirent :=
  [.reg (text "a.yml"), .reg (text "README"),
    .dir (text "more") (some [.dir (text ".") none, .reg (text "b.yml")])]

def other (value : Text) : Node := .map [(.scalar (text "c"), .scalar value)]

def confAt (time : Nat) (value : Text) : Snapshot where
  opendir _ := some confDir
  stMtime i := if i = text "/conf/more/b.yml" then time else 1
  loadFile i := if i = text "/conf/a.yml" then some flagTree else some (other value)

theorem conf_files (time : Nat) (value : Text) : (confAt time value).files [] (text "/conf") =
    [text "/conf/a.yml", text "/conf/more/b.yml"] := by
  have hlisted : listAllFile (text ".yml") (text "/conf") (some confDir) =
      [text "/conf/a.yml", text "/conf/more/b.yml"] := by decide +kernel
  exact hlisted

theorem conf_first (time : Nat) (value : Text) :
    (confAt time value).loadFile (text "/conf/a.yml") = some flagTree := rfl

theorem conf_second (time : Nat) (value : Text) :
    (confAt time value).loadFile (text "/conf/more/b.yml") = some (other value) := rfl

theorem conf_apart (time : Nat) (value : Text) (datas : ConfigVarMap Flags) :
    ∀ i ∈ (confAt time value).files [] (text "/conf"),
      ∀ j ∈ (confAt time value).files [] (text "/conf"), i ≠ j →
        Apart (confAt time value) datas i j := by
  have hnames : ∀ name ∈ setNames flagTree, name ∈ setNames (other value) → name = [] := by
    have hother : setNames (other value) = [[], text "c"] := rfl
    rw [hother]
    decide +kernel
  rw [conf_files]
  intro i hi j hj hij root root' hroot hroot' name hne hname hname'
  rcases List.mem_pair.mp hi with rfl | rfl <;> rcases List.mem_pair.mp hj with rfl | rfl
  · exact absurd rfl hij
  · cases (conf_first time value).symm.trans hroot
    cases (conf_second time value).symm.trans hroot'
    exact absurd (hnames name hname hname') hne
  · cases (conf_second time value).symm.trans hroot
    cases (conf_first time value).symm.trans hroot'
    exact absurd (hnames name hname' hname) hne
  · exact absurd rfl hij

theorem conf_reloaded : ∃ s t : Directory Flags,
    run (step Plain.yaml []) { datas := flagAt (text "a.b") }
      [⟨confAt 1 [], text "/conf", false⟩, ⟨confAt 2 (text "1"), text "/conf", false⟩] = some s ∧
    run (step Plain.yaml []) { datas := flagAt (text "a.b") }
      [⟨confAt 1 [], text "/conf", true⟩, ⟨confAt 2 (text "1"), text "/conf", true⟩] = some t ∧
    s.datas = t.datas := by
  have hmeets : Meets (step Plain.yaml []) (Stamped []) ({ datas := flagAt (text "a.b") } :
      Directory Flags) [⟨confAt 1 [], text "/conf", false⟩,
        ⟨confAt 2 (text "1"), text "/conf", false⟩] := by
    refine ⟨⟨?_, conf_apart _ _ _⟩, fun s hs => ⟨⟨?_, conf_apart _ _ _⟩, fun _ _ => trivial⟩⟩
    · rw [conf_files]
      intro i hi htime
      rcases List.mem_pair.mp hi with rfl | rfl <;> exact absurd htime (by decide +kernel)
    · cases hs
      rw [conf_files]
      intro i hi htime
      rcases List.mem_pair.mp hi with rfl | rfl
      · exact List.mem_map.mpr ⟨text "/conf/a.yml", by rw [conf_files]; exact .head _, rfl⟩
      · exact absurd htime (by decide +kernel)
  exact loaded_as_forced Plain.yaml [] _ hmeets

end Hps.Config
