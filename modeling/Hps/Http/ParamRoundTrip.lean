import Mathlib.Data.List.TakeWhile
import Hps.Http.Params

/-!
# HTTP — encoded parameters

A query that was put together of names and encoded values. Every segment has a
`=`, behind its name, and no other separator than those between the segments,
so that `initQueryParam` finds the values again (`getParam_encoded`), whatever
the body has to add.
-/

namespace Hps.Http

open Hps.Lib Segments StringUtil
open Hps.Lib.Integers (forall_byte)

/-! ## The query -/

/-- The bytes of a name. -/
def nameByte (c : UInt8) : Bool := alpha c || digit c || (text "-._~").elem c

/-- `k + "=" + UrlEncode(v)` -/
def encodeParam (p : List UInt8 × List UInt8) : List UInt8 :=
  p.1 ++ ch '=' :: urlEncode p.2 true

def encodeParams (ps : List (List UInt8 × List UInt8)) : List UInt8 :=
  [ch '&'].intercalate (ps.map encodeParam)

/-- Names that are not empty, and differ whatever the case of their letters. -/
structure NamedValues (ps : List (List UInt8 × List UInt8)) : Prop where
  nonempty : ∀ p ∈ ps, p.1 ≠ []
  bytes : ∀ p ∈ ps, ∀ c ∈ p.1, nameByte c = true
  distinct : ps.Pairwise fun p q => p.1.map tolower ≠ q.1.map tolower

theorem nameByte_plain {c : UInt8} :
    nameByte c = true → c ≠ ch '&' ∧ c ≠ ch '=' ∧ c ≠ 0 :=
  forall_byte (P := fun c => nameByte c = true → c ≠ ch '&' ∧ c ≠ ch '=' ∧ c ≠ 0)
    (by decide +kernel) c

theorem encodeByte_amp (c : UInt8) : ch '&' ∉ encodeByte true c := by
  have hdigit : ∀ a, upperHex a = true → ch '&' ≠ a := by
    rintro a ha rfl
    exact absurd ha (by decide)
  rw [encodeByte]
  split
  · rename_i hc
    rw [List.mem_singleton]
    rintro rfl
    exact absurd hc (by decide)
  · split
    · decide
    · obtain ⟨hhi, hlo, -⟩ := hexdigits_byte c
      have hmark : ch '&' ≠ ch '%' := by decide
      simp only [List.mem_cons, List.not_mem_nil, or_false, not_or]
      exact ⟨hmark, hdigit _ hhi, hdigit _ hlo⟩

theorem urlEncode_amp (s : List UInt8) : ch '&' ∉ urlEncode s true := by
  rw [urlEncode_eq, List.mem_flatMap]
  rintro ⟨c, -, hc⟩
  exact encodeByte_amp c hc

section NamedValues

variable {ps : List (List UInt8 × List UInt8)} (h : NamedValues ps)
include h

theorem NamedValues.name_amp {p : List UInt8 × List UInt8} (hp : p ∈ ps) : ch '&' ∉ p.1 :=
  fun hc => (nameByte_plain (h.bytes p hp _ hc)).1 rfl

theorem NamedValues.name_eq {p : List UInt8 × List UInt8} (hp : p ∈ ps) : ch '=' ∉ p.1 :=
  fun hc => (nameByte_plain (h.bytes p hp _ hc)).2.1 rfl

/-- To the map, a name is what it is in lower case. -/
theorem NamedValues.folded_name {p : List UInt8 × List UInt8} (hp : p ∈ ps) :
    folded p.1 = p.1.map tolower := by
  have hall : p.1.takeWhile (· != 0) = p.1 :=
    List.takeWhile_eq_self_iff.mpr fun c hc =>
      bne_iff_ne.mpr (nameByte_plain (h.bytes p hp c hc)).2.2
  rw [folded, hall]

theorem NamedValues.ordered : ps.Pairwise fun p q => NameLess p.1 q.1 ∨ NameLess q.1 p.1 := by
  refine h.distinct.imp_of_mem fun {p q} hp hq hne => nameLess_or_of_not_same fun hsame => hne ?_
  rw [SameName, strcasecmp_eq_compare, Std.LawfulEqCmp.compare_eq_iff_eq, h.folded_name hp,
    h.folded_name hq] at hsame
  exact hsame

/-- The segments are what was put together. -/
theorem NamedValues.splitOn (hne : ps ≠ []) :
    (encodeParams ps).splitOn (ch '&') = ps.map encodeParam := by
  refine List.splitOn_intercalate (ch '&') (fun l hl => ?_) (mt List.map_eq_nil_iff.mp hne)
  obtain ⟨p, hp, rfl⟩ := List.mem_map.mp hl
  rw [encodeParam, List.mem_append, List.mem_cons]
  rintro (hc | hc | hc)
  · exact h.name_amp hp hc
  · exact absurd hc (by decide)
  · exact urlEncode_amp p.2 hc

theorem NamedValues.pairs :
    Segments.pairs (ch '&') (ch '=') (encodeParams ps) =
      ps.map fun p => (p.1, urlEncode p.2 true) := by
  by_cases hne : ps = []
  · rw [hne]
    rfl
  · rw [Segments.pairs, h.splitOn hne, List.filterMap_map, ← List.filterMap_eq_map]
    refine List.filterMap_congr fun p hp => ?_
    exact cut_append (h.name_eq hp) _

theorem NamedValues.harmless (m : NameMap) :
    Harmless (ch '&') id (encodeParams ps) m := by
  by_cases hne : ps = []
  · rw [hne]
    exact ⟨trivial, rfl⟩
  · refine harmless_of_marked (by rw [h.splitOn hne, List.append_nil]) (fun l hl => ?_)
      (fun _ hb => absurd hb List.not_mem_nil) m
    obtain ⟨p, -, rfl⟩ := List.mem_map.mp hl
    exact List.mem_append_right p.1 List.mem_cons_self

/-- What is inserted is what was encoded. -/
theorem NamedValues.segmentwise (m : NameMap) :
    Http.segmentwise (ch '&') id (encodeParams ps) m = m.insertAll ps := by
  rw [Http.segmentwise, h.pairs, List.map_map]
  congr 1
  refine (List.map_congr_left fun p _ => ?_).trans (List.map_id ps)
  rw [Function.comp_apply, decode_urlEncode fun _ => rfl]
  rfl

end NamedValues

/-! ## The values -/

namespace ParamRequest

/-- What was parsed is not parsed again. -/
theorem initQueryParam_of_flag {r : ParamRequest} (h : r.parserParamFlag &&& 0x1 ≠ 0) :
    r.initQueryParam = some r :=
  if_pos h

/-- The body adds entries; those that are there stay. -/
theorem initBodyParam_params (r : ParamRequest) :
    ∃ r' xs, r.initBodyParam = some r' ∧ r'.params = r.params.insertAll xs := by
  rw [initBodyParam]
  split
  · exact ⟨r, [], rfl, rfl⟩
  · split
    · exact ⟨_, [], rfl, rfl⟩
    · rw [parseParam_eq (by decide)]
      exact ⟨_, _, rfl, rfl⟩

theorem find_of_mem {m : NameMap} {x : List UInt8 × List UInt8} (h : x ∈ m.entries) :
    m.find x.1 = some x.2 := by
  rw [NameMap.find, MapType.find_eq, OrderedMap.find_of_mem m.ordered h]

/-- **Encoded parameters are recovered**: they are what `initQueryParam` puts
into a map that was empty, and `getParam` returns them. -/
theorem getParam_encoded {r : ParamRequest} {ps : List (List UInt8 × List UInt8)}
    (h : NamedValues ps) (hquery : r.query = encodeParams ps) (hempty : r.params.entries = [])
    (hflag : r.parserParamFlag &&& 0x1 = 0) :
    ∃ r', r.initQueryParam = some r' ∧ r'.params.entries.Perm ps ∧
      ∀ p ∈ ps, ∀ dflt, (r'.getParam p.1 dflt).map Prod.fst = some p.2 := by
  have hparse : parseParam r.query r.params (ch '&') id = some (r.params.insertAll ps) := by
    have hamp : ∀ s : List UInt8, ch '&' ∈ id s ↔ ch '&' ∈ s := fun s => Iff.rfl
    rw [hquery, ← h.segmentwise]
    exact (parseParam_segmentwise_iff (by decide) hamp _ _).mpr (h.harmless r.params)
  have hperm : (r.params.insertAll ps).entries.Perm ps := by
    have hnew : ∀ x ∈ ps, ¬OrderedMap.Has NameLess x.1 r.params.entries := by
      rw [hempty]
      rintro x - ⟨y, hy, -⟩
      cases hy
    have := OrderedMap.perm_insertAll h.ordered hnew
    rwa [← NameMap.entries_insertAll, hempty, List.append_nil] at this
  refine ⟨{ r with
    params := r.params.insertAll ps
    parserParamFlag := r.parserParamFlag ||| 0x1 }, ?_, hperm, fun p hp dflt => ?_⟩
  · rw [initQueryParam, if_neg (not_not.mpr hflag), hparse]
    rfl
  · have hdone : (r.parserParamFlag ||| 0x1) &&& 0x1 ≠ 0 :=
      forall_byte (P := fun c => (c ||| 0x1) &&& 0x1 ≠ 0) (by decide +kernel) _
    obtain ⟨r', xs, hbody, hparams⟩ := initBodyParam_params { r with
      params := r.params.insertAll ps
      parserParamFlag := r.parserParamFlag ||| 0x1 }
    have hmem : p ∈ r'.params.entries := by
      rw [hparams, NameMap.entries_insertAll]
      exact OrderedMap.mem_insertAll_of_mem (hperm.mem_iff.mpr hp)
    rw [getParam, initQueryParam_of_flag hdone]
    simp only [Option.bind_eq_bind, Option.bind_some, hbody, find_of_mem hmem]
    rfl

/-- A blank and a `=` in the value, and a name in two cases. -/
theorem getParam_encoded_two :
    ∃ r', ({ query := text "x-1=a+=%26&Y=" } : ParamRequest).initQueryParam = some r' ∧
      r'.params.entries.Perm [(text "x-1", text "a =&"), (text "Y", [])] ∧
      ∀ p ∈ [(text "x-1", text "a =&"), (text "Y", [])], ∀ dflt,
        (r'.getParam p.1 dflt).map Prod.fst = some p.2 :=
  getParam_encoded ⟨by decide, by decide +kernel, by decide +kernel⟩ (by decide +kernel) rfl rfl

end ParamRequest

end Hps.Http
