import Hps.Lib.Registry

/-!
# HTTP — routing to a servlet

`ServletDispatch`: the exact registrations in a map, the glob patterns in a
vector, a default. The four functions that change the vector go through it
with a loop of their own; it is the same one, `eraseFirst` of the library.

A servlet that a user derives, and one that a `ServletCreator` or another
`IServletCreator` makes, is a value of a type the caller gives; `fnmatch` is
what the C library has. The lock is left out: an operation holds it from its
first line to its last.
-/

namespace Hps.Http.Dispatch

open Hps.Lib.Registry

abbrev Uri := List UInt8

/-- The classes of servlets: the two of the source, and those of a user. -/
inductive Servlet (σ κ : Type)
  | function (cb : κ)
  | notFound (name : Uri)
  | user (slt : σ)
  deriving Repr, DecidableEq

/-- `HoldServletCreator`, and the creators that make a servlet. -/
inductive Creator (σ κ τ : Type)
  | hold (slt : Servlet σ κ)
  | make (maker : τ)
  deriving Repr, DecidableEq

section Model

variable {σ κ τ : Type}

/-- `IServletCreator::get`, where `new` says what a maker makes. -/
def Creator.get (new : τ → Servlet σ κ) : Creator σ κ τ → Servlet σ κ
  | .hold slt => slt
  | .make maker => new maker

structure ServletDispatch (σ κ τ : Type) where
  datas : Uri → Option (Creator σ κ τ)
  globs : List (Uri × Creator σ κ τ)
  default : Servlet σ κ

/-- `"HPS/1.0"` -/
def defaultName : Uri := "HPS/1.0".toUTF8.toList

namespace ServletDispatch

def new : ServletDispatch σ κ τ where
  datas := fun _ => none
  globs := []
  default := .notFound defaultName

def addServletCreator (d : ServletDispatch σ κ τ) (uri : Uri)
    (creator : Creator σ κ τ) : ServletDispatch σ κ τ :=
  { d with datas := Function.update d.datas uri (some creator) }

def addServlet (d : ServletDispatch σ κ τ) (uri : Uri) (slt : Servlet σ κ) :
    ServletDispatch σ κ τ :=
  { d with datas := Function.update d.datas uri (some (.hold slt)) }

/-- `addServlet` with a callback. -/
def addServletFunction (d : ServletDispatch σ κ τ) (uri : Uri) (cb : κ) :
    ServletDispatch σ κ τ :=
  { d with datas := Function.update d.datas uri (some (.hold (.function cb))) }

def addGlobServletCreator (d : ServletDispatch σ κ τ) (uri : Uri)
    (creator : Creator σ κ τ) : ServletDispatch σ κ τ :=
  { d with globs := eraseFirst uri d.globs ++ [(uri, creator)] }

def addGlobServlet (d : ServletDispatch σ κ τ) (uri : Uri) (slt : Servlet σ κ) :
    ServletDispatch σ κ τ :=
  { d with globs := eraseFirst uri d.globs ++ [(uri, .hold slt)] }

/-- `addGlobServlet` with a callback. -/
def addGlobServletFunction (d : ServletDispatch σ κ τ) (uri : Uri) (cb : κ) :
    ServletDispatch σ κ τ :=
  d.addGlobServlet uri (.function cb)

def delServlet (d : ServletDispatch σ κ τ) (uri : Uri) : ServletDispatch σ κ τ :=
  { d with datas := Function.update d.datas uri none }

def delGlobServlet (d : ServletDispatch σ κ τ) (uri : Uri) : ServletDispatch σ κ τ :=
  { d with globs := eraseFirst uri d.globs }

def setDefault (d : ServletDispatch σ κ τ) (slt : Servlet σ κ) :
    ServletDispatch σ κ τ :=
  { d with default := slt }

/-- `c_str()` as a C function reads it. -/
def cStr (s : Uri) : Uri := s.takeWhile (· != 0)

/-- `fnmatch(pattern.c_str(), uri.c_str(), 0)` is 0. -/
def matched (fnmatch : Uri → Uri → Int) (uri pattern : Uri) : Bool :=
  fnmatch (cStr pattern) (cStr uri) == 0

def getMatchedServlet (fnmatch : Uri → Uri → Int) (new : τ → Servlet σ κ)
    (d : ServletDispatch σ κ τ) (uri : Uri) : Servlet σ κ :=
  match d.datas uri with
  | some creator => creator.get new
  | none =>
      match d.globs.find? fun it => matched fnmatch uri it.1 with
      | some it => it.2.get new
      | none => d.default

end ServletDispatch

/-! ## The operations of a program -/

inductive Op (σ κ τ : Type)
  | addServlet (uri : Uri) (slt : Servlet σ κ)
  | addServletFunction (uri : Uri) (cb : κ)
  | addServletCreator (uri : Uri) (creator : Creator σ κ τ)
  | addGlobServlet (uri : Uri) (slt : Servlet σ κ)
  | addGlobServletFunction (uri : Uri) (cb : κ)
  | addGlobServletCreator (uri : Uri) (creator : Creator σ κ τ)
  | delServlet (uri : Uri)
  | delGlobServlet (uri : Uri)
  | setDefault (slt : Servlet σ κ)

def step (d : ServletDispatch σ κ τ) : Op σ κ τ → ServletDispatch σ κ τ
  | .addServlet uri slt => d.addServlet uri slt
  | .addServletFunction uri cb => d.addServletFunction uri cb
  | .addServletCreator uri creator => d.addServletCreator uri creator
  | .addGlobServlet uri slt => d.addGlobServlet uri slt
  | .addGlobServletFunction uri cb => d.addGlobServletFunction uri cb
  | .addGlobServletCreator uri creator => d.addGlobServletCreator uri creator
  | .delServlet uri => d.delServlet uri
  | .delGlobServlet uri => d.delGlobServlet uri
  | .setDefault slt => d.setDefault slt

/-- The dispatcher after the operations, from its construction on. -/
def after (ops : List (Op σ κ τ)) : ServletDispatch σ κ τ :=
  ops.foldl step ServletDispatch.new

/-! ## What the operations are for -/

/-- The exact registration an operation makes or deletes. -/
def Op.exact : Op σ κ τ → Option (Event Uri (Creator σ κ τ))
  | .addServlet uri slt => some (.put uri (.hold slt))
  | .addServletFunction uri cb => some (.put uri (.hold (.function cb)))
  | .addServletCreator uri creator => some (.put uri creator)
  | .delServlet uri => some (.drop uri)
  | _ => none

/-- The glob pattern an operation registers or deletes. -/
def Op.glob : Op σ κ τ → Option (Event Uri (Creator σ κ τ))
  | .addGlobServlet uri slt => some (.put uri (.hold slt))
  | .addGlobServletFunction uri cb => some (.put uri (.hold (.function cb)))
  | .addGlobServletCreator uri creator => some (.put uri creator)
  | .delGlobServlet uri => some (.drop uri)
  | _ => none

/-- The default an operation sets. -/
def Op.defaults : Op σ κ τ → Option (Servlet σ κ)
  | .setDefault slt => some slt
  | _ => none

/-- The default last set; at first the servlet that answers 404. -/
def currentDefault (ops : List (Op σ κ τ)) : Servlet σ κ :=
  (ops.reverse.findSome? Op.defaults).getD (.notFound defaultName)

/-- The servlet that the history of a dispatcher means for a uri. -/
inductive Routed (fnmatch : Uri → Uri → Int) (new : τ → Servlet σ κ)
    (ops : List (Op σ κ τ)) (uri : Uri) : Servlet σ κ → Prop
  /-- The latest exact registration, if it was not deleted since. -/
  | exact {i : Nat} {creator : Creator σ κ τ} (h : Live Op.exact ops i uri creator) :
      Routed fnmatch new ops uri (creator.get new)
  /-- Without one, the pattern registered earliest among those that match:
  each counts from its latest registration on. -/
  | glob {i : Nat} {pattern : Uri} {creator : Creator σ κ τ}
      (hexact : ∀ j c, ¬Live Op.exact ops j uri c)
      (h : Live Op.glob ops i pattern creator)
      (hmatch : fnmatch (ServletDispatch.cStr pattern) (ServletDispatch.cStr uri) = 0)
      (hfirst : ∀ j p c, j < i → Live Op.glob ops j p c →
        fnmatch (ServletDispatch.cStr p) (ServletDispatch.cStr uri) ≠ 0) :
      Routed fnmatch new ops uri (creator.get new)
  /-- Without either, the default. -/
  | default (hexact : ∀ j c, ¬Live Op.exact ops j uri c)
      (hglob : ∀ j p c, Live Op.glob ops j p c →
        fnmatch (ServletDispatch.cStr p) (ServletDispatch.cStr uri) ≠ 0) :
      Routed fnmatch new ops uri (currentDefault ops)

end Model

section Routing

variable {σ κ τ : Type} (fnmatch : Uri → Uri → Int) (new : τ → Servlet σ κ)
  (ops : List (Op σ κ τ)) (uri : Uri)

/-! ## One operation -/

theorem step_datas (d : ServletDispatch σ κ τ) (op : Op σ κ τ) :
    (step d op).datas = write Op.exact d.datas op := by
  cases op <;> rfl

theorem step_globs (d : ServletDispatch σ κ τ) (op : Op σ κ τ) :
    (step d op).globs = entries Op.glob d.globs op := by
  cases op <;> rfl

theorem step_default (d : ServletDispatch σ κ τ) (op : Op σ κ τ) :
    (step d op).default = (Op.defaults op).getD d.default := by
  cases op <;> rfl

/-! ## A whole history -/

theorem after_datas :
    (after ops).datas = ops.foldl (write Op.exact) fun _ => none :=
  (List.foldl_hom ServletDispatch.datas fun d op => (step_datas d op).symm).symm

/-- **The patterns of a dispatcher** are the ones that stand. -/
theorem after_globs : (after ops).globs = standing Op.glob ops := by
  rw [← foldl_entries]
  exact (List.foldl_hom ServletDispatch.globs fun d op => (step_globs d op).symm).symm

theorem after_default : (after ops).default = currentDefault ops := by
  induction ops using List.reverseRecOn with
  | nil => rfl
  | append_singleton ops op ih =>
      rw [after, List.foldl_append, List.foldl_cons, List.foldl_nil, step_default,
        ← after, ih, currentDefault, currentDefault, List.reverse_append]
      cases op <;> rfl

theorem datas_eq_none_iff :
    (after ops).datas uri = none ↔ ∀ i c, ¬Live Op.exact ops i uri c := by
  rw [after_datas, Option.eq_none_iff_forall_ne_some]
  constructor
  · intro h i c hl
    exact h c (foldl_write.mpr ⟨i, hl⟩)
  · intro h c hc
    obtain ⟨i, hl⟩ := foldl_write.mp hc
    exact h i c hl

/-- What the dispatcher returns is what its history means. -/
theorem routed_getMatchedServlet :
    Routed fnmatch new ops uri ((after ops).getMatchedServlet fnmatch new uri) := by
  cases hd : (after ops).datas uri with
  | some creator =>
      rw [after_datas] at hd
      obtain ⟨i, hl⟩ := foldl_write.mp hd
      rw [← after_datas] at hd
      simp only [ServletDispatch.getMatchedServlet, hd]
      exact .exact hl
  | none =>
      have hexact := (datas_eq_none_iff ops uri).mp hd
      simp only [ServletDispatch.getMatchedServlet, hd, after_globs]
      cases hg : (standing Op.glob ops).find?
          fun it => ServletDispatch.matched fnmatch uri it.1 with
      | some it =>
          obtain ⟨i, hl⟩ := find_standing.mp hg
          refine .glob hexact hl.live (by simpa [ServletDispatch.matched] using hl.holds) ?_
          intro j p c hj hlive
          simpa [ServletDispatch.matched] using hl.before j p c hj hlive
      | none =>
          simp only [after_default]
          refine .default hexact ?_
          intro j p c hlive
          have := List.find?_eq_none.mp hg (p, c) (mem_standing.mpr ⟨j, hlive⟩)
          simpa [ServletDispatch.matched] using this

/-- The history means one servlet. -/
theorem Routed.unique {slt slt' : Servlet σ κ} (h : Routed fnmatch new ops uri slt)
    (h' : Routed fnmatch new ops uri slt') : slt = slt' := by
  cases h with
  | exact hl =>
      cases h' with
      | exact hl' => rw [(hl.unique hl').2]
      | glob hexact => exact absurd hl (hexact _ _)
      | default hexact => exact absurd hl (hexact _ _)
  | @glob i p c hexact hl hmatch hfirst =>
      cases h' with
      | exact hl' => exact absurd hl' (hexact _ _)
      | @glob i' p' c' _ hl' hmatch' hfirst' =>
          -- neither pattern comes before the other, as both match
          have hii : i = i' := by
            rcases Nat.lt_trichotomy i i' with hlt | heq | hgt
            · exact absurd hmatch (hfirst' i p c hlt hl)
            · exact heq
            · exact absurd hmatch' (hfirst i' p' c' hgt hl')
          subst hii
          have hentry := hl.entry_eq hl'
          cases hentry
          rfl
      | default _ hglob => exact absurd hmatch (hglob _ _ _ hl)
  | default hexact hglob =>
      cases h' with
      | exact hl' => exact absurd hl' (hexact _ _)
      | glob _ hl' hmatch' => exact absurd hmatch' (hglob _ _ _ hl')
      | default => rfl

/-- **Routing**: after any operations the dispatcher returns the one servlet
that their history means, and no pattern stands in it twice. -/
theorem getMatchedServlet_routed :
    (∀ slt, Routed fnmatch new ops uri slt ↔
      slt = (after ops).getMatchedServlet fnmatch new uri) ∧
    ((after ops).globs.map Prod.fst).Nodup := by
  constructor
  · intro slt
    constructor
    · intro h
      exact h.unique fnmatch new ops uri (routed_getMatchedServlet fnmatch new ops uri)
    · rintro rfl
      exact routed_getMatchedServlet fnmatch new ops uri
  · rw [after_globs]
    exact standing_keys_nodup

end Routing

end Hps.Http.Dispatch
