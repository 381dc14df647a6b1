import Hps.Http.Headers
import Hps.Http.UrlCoding
import Hps.Lib.Segments
import Hps.Lib.Stripping

/-!
# HTTP — parameters and cookies

`initQueryParam`, `initBodyParam` and `initCookies` of `http.cc`, which are one
macro, `PARSE_PARAM`, over three strings. It looks for the next `=` in all that
is left of the string, and only behind it for the separator: a segment without
`=` comes into the key of the next one that has it.
-/

namespace Hps.Http

open Hps.Lib Segments StringUtil

/-! ## Strings -/

/-- `str.find(c, pos)`; `none` is `npos`. -/
def stringFind (str : List UInt8) (c : UInt8) (pos : Nat) : Option Nat :=
  ((str.drop pos).findIdx? (· == c)).map (pos + ·)

/-- `str.substr(pos, n)`, where no `n` is one that goes behind the end; `none`
where it throws. -/
def substr (str : List UInt8) (pos : Nat) (n : Option Nat) : Option (List UInt8) :=
  if pos ≤ str.length then some ((str.drop pos).take (n.getD str.length)) else none

/-- `str.find_first_not_of(delimit)` -/
def findFirstNotOf (str delimit : List UInt8) : Option Nat :=
  str.findIdx? fun c => !delimit.elem c

/-- `str.find_last_not_of(delimit)` -/
def findLastNotOf (str delimit : List UInt8) : Option Nat :=
  (str.reverse.findIdx? fun c => !delimit.elem c).map (str.length - 1 - ·)

/-- `StringUtil::Trim`; `begin` is within the string, and `substr` does not
throw. -/
def StringUtil.trim (str delimit : List UInt8) : List UInt8 :=
  match findFirstNotOf str delimit with
  | none => []
  | some first =>
      (substr str first ((findLastNotOf str delimit).map (· - first + 1))).getD []

/-- `strcasestr(haystack, needle) != nullptr` -/
def strcasestr (haystack needle : List UInt8) : Bool :=
  (folded haystack).tails.any (folded needle).isPrefixOf

/-! ## Maps -/

/-- `std::map<std::string, std::string, CaseInsensitiveLess>`, with the order
of its entries. -/
structure NameMap where
  entries : MapType := []
  ordered : OrderedMap.Ordered NameLess entries := by exact List.Pairwise.nil
  deriving DecidableEq

namespace NameMap

/-- `m.insert({key, val})` -/
def insert (m : NameMap) (key val : List UInt8) : NameMap :=
  ⟨OrderedMap.insert NameLess key val m.entries, m.ordered.insert key val⟩

def insertAll (m : NameMap) (xs : List (List UInt8 × List UInt8)) : NameMap :=
  xs.foldl (fun m x => m.insert x.1 x.2) m

def find (m : NameMap) (key : List UInt8) : Option (List UInt8) := m.entries.find key

@[simp] theorem insertAll_nil (m : NameMap) : m.insertAll [] = m := rfl

@[simp] theorem insertAll_cons (m : NameMap) (x : List UInt8 × List UInt8)
    (xs : List (List UInt8 × List UInt8)) :
    m.insertAll (x :: xs) = (m.insert x.1 x.2).insertAll xs := rfl

theorem entries_insertAll (m : NameMap) (xs : List (List UInt8 × List UInt8)) :
    (m.insertAll xs).entries = OrderedMap.insertAll NameLess m.entries xs := by
  induction xs generalizing m with
  | nil => rfl
  | cons x xs ih => rw [insertAll_cons, ih, OrderedMap.insertAll_cons, insert]

theorem ext_iff {m m' : NameMap} : m = m' ↔ m.entries = m'.entries := by
  constructor
  · intro h
    rw [h]
  · intro h
    cases m
    cases m'
    cases h
    rfl

end NameMap

/-! ## Requests -/

/-- `HttpRequest` with its parameters and cookies. -/
structure ParamRequest extends HttpRequest where
  params : NameMap := {}
  cookies : NameMap := {}
  /-- which of the three strings were parsed -/
  parserParamFlag : UInt8 := 0
  deriving DecidableEq

/-- The loop of `PARSE_PARAM`; `none` where `substr` throws or `UrlDecode` does
not return, or without `fuel`. -/
def parseLoop (str : List UInt8) (flag : UInt8) (trim : List UInt8 → List UInt8) :
    Nat → Nat → NameMap → Option NameMap
  | 0, _, _ => none
  | fuel + 1, last, m =>
      match stringFind str (ch '=') last with
      | none => some m
      | some key => do
          let pos := stringFind str flag key
          let name ← substr str last (some (key - last))
          -- without a separator, `npos - key - 1` is more than what is left
          let value ← substr str (key + 1) (pos.map (· - key - 1))
          let m := m.insert (trim name) (← urlDecode value true)
          match pos with
          | none => return m
          | some pos => parseLoop str flag trim fuel (pos + 1) m

/-- `PARSE_PARAM(str, m, flag, trim)` -/
def parseParam (str : List UInt8) (m : NameMap) (flag : UInt8)
    (trim : List UInt8 → List UInt8) : Option NameMap :=
  parseLoop str flag trim (str.length + 1) 0 m

/-- The `Trim` of `initCookies`, with its default. -/
def trimBlanks (str : List UInt8) : List UInt8 := trim str (text " \t\r\n")

namespace ParamRequest

def initQueryParam (r : ParamRequest) : Option ParamRequest :=
  if r.parserParamFlag &&& 0x1 ≠ 0 then some r
  else do
    let m ← parseParam r.query r.params (ch '&') id
    return { r with params := m, parserParamFlag := r.parserParamFlag ||| 0x1 }

def contentType (r : ParamRequest) : List UInt8 := r.getHeader (text "content-type") []

def initBodyParam (r : ParamRequest) : Option ParamRequest :=
  if r.parserParamFlag &&& 0x2 ≠ 0 then some r
  else if !strcasestr r.contentType (text "application/x-www-form-urlencoded") then
    some { r with parserParamFlag := r.parserParamFlag ||| 0x2 }
  else do
    let m ← parseParam r.body r.params (ch '&') id
    return { r with params := m, parserParamFlag := r.parserParamFlag ||| 0x2 }

def cookie (r : ParamRequest) : List UInt8 := r.getHeader (text "cookie") []

def initCookies (r : ParamRequest) : Option ParamRequest :=
  if r.parserParamFlag &&& 0x4 ≠ 0 then some r
  else if r.cookie = [] then
    some { r with parserParamFlag := r.parserParamFlag ||| 0x4 }
  else do
    let m ← parseParam r.cookie r.cookies (ch ';') trimBlanks
    return { r with cookies := m, parserParamFlag := r.parserParamFlag ||| 0x4 }

/-- `getParam(key, def)`, which parses what was not parsed yet. -/
def getParam (r : ParamRequest) (key dflt : List UInt8) :
    Option (List UInt8 × ParamRequest) := do
  let r ← r.initQueryParam
  let r ← r.initBodyParam
  return ((r.params.find key).getD dflt, r)

end ParamRequest

/-! ## What the loop finds -/

theorem findIdx?_eq_none {c : UInt8} {b : List UInt8} (h : c ∉ b) :
    b.findIdx? (· == c) = none := by
  rw [List.findIdx?_eq_none_iff]
  intro x hx
  rw [beq_eq_false_iff_ne]
  rintro rfl
  exact h hx

theorem stringFind_append {c : UInt8} {b : List UInt8} (h : c ∉ b) (a d : List UInt8) :
    stringFind (a ++ (b ++ c :: d)) c a.length = some (a.length + b.length) := by
  have hidx : (b ++ c :: d).findIdx? (· == c) = some b.length := by
    rw [List.findIdx?_append, findIdx?_eq_none h, List.findIdx?_cons]
    simp
  rw [stringFind, List.drop_left, hidx, Option.map_some]

theorem stringFind_none {c : UInt8} {b : List UInt8} (h : c ∉ b) (a : List UInt8) :
    stringFind (a ++ b) c a.length = none := by
  rw [stringFind, List.drop_left, findIdx?_eq_none h, Option.map_none]

theorem substr_append (a b c : List UInt8) {n : Nat} (hn : n = b.length) :
    substr (a ++ (b ++ c)) a.length (some n) = some b := by
  rw [substr, if_pos (by simp), List.drop_left, Option.getD_some, hn, List.take_left]

theorem substr_rest (a b : List UInt8) : substr (a ++ b) a.length none = some b := by
  rw [substr, if_pos (by simp), List.drop_left, Option.getD_none,
    List.take_of_length_le (by simp)]

/-- The entry that the loop makes of a field. -/
def readEntry (trim : List UInt8 → List UInt8) (f : Marked UInt8) :
    List UInt8 × List UInt8 :=
  (trim (f.skipped ++ f.name), decode true f.value)

variable {flag : UInt8} {trim : List UInt8 → List UInt8}

/-- One turn, at whose end the string ends. -/
theorem parseLoop_last (hflag : flag ≠ ch '=') {front k b : List UInt8} (hk : ch '=' ∉ k)
    (hb : flag ∉ b) (fuel : Nat) (m : NameMap) :
    parseLoop (front ++ (k ++ ch '=' :: b)) flag trim (fuel + 1) front.length m =
      some (m.insert (trim k) (decode true b)) := by
  have hkey := stringFind_append hk front b
  have hpos : stringFind (front ++ (k ++ ch '=' :: b)) flag (front.length + k.length) = none := by
    have h : flag ∉ ch '=' :: b := List.not_mem_cons_of_ne_of_not_mem hflag hb
    have := stringFind_none h (front ++ k)
    rwa [List.length_append, List.append_assoc] at this
  have hname := substr_append front k (ch '=' :: b) (n := front.length + k.length - front.length)
    (by omega)
  have hvalue := substr_rest (front ++ k ++ [ch '=']) b
  simp only [List.append_assoc, List.singleton_append, List.length_append,
    List.length_singleton, ← Nat.add_assoc] at hvalue
  simp only [parseLoop, hkey, hpos, hname, hvalue, urlDecode_eq, Option.map_none,
    Option.bind_eq_bind, Option.bind_some, pure]

/-- One turn, at whose end stands a separator. -/
theorem parseLoop_next (hflag : flag ≠ ch '=') {front k b : List UInt8} (hk : ch '=' ∉ k)
    (hb : flag ∉ b) (rest : List UInt8) (fuel : Nat) (m : NameMap) :
    parseLoop (front ++ (k ++ ch '=' :: (b ++ flag :: rest))) flag trim (fuel + 1)
        front.length m =
      parseLoop (front ++ (k ++ ch '=' :: (b ++ flag :: rest))) flag trim fuel
        (front ++ (k ++ ch '=' :: (b ++ [flag]))).length
        (m.insert (trim k) (decode true b)) := by
  have hkey := stringFind_append hk front (b ++ flag :: rest)
  have hpos : stringFind (front ++ (k ++ ch '=' :: (b ++ flag :: rest))) flag
      (front.length + k.length) = some (front.length + k.length + b.length + 1) := by
    have h : flag ∉ ch '=' :: b := List.not_mem_cons_of_ne_of_not_mem hflag hb
    have := stringFind_append h (front ++ k) rest
    rwa [List.length_append, List.append_assoc, List.cons_append, List.length_cons,
      ← Nat.add_assoc] at this
  have hname := substr_append front k (ch '=' :: (b ++ flag :: rest))
    (n := front.length + k.length - front.length) (by omega)
  have hvalue := substr_append (front ++ k ++ [ch '=']) b (flag :: rest)
    (n := front.length + k.length + b.length + 1 - (front.length + k.length) - 1) (by omega)
  simp only [List.append_assoc, List.singleton_append, List.length_append,
    List.length_singleton, ← Nat.add_assoc] at hvalue
  have hend : (front ++ (k ++ ch '=' :: (b ++ [flag]))).length =
      front.length + k.length + b.length + 1 + 1 := by
    simp only [List.length_append, List.length_cons, List.length_nil]
    omega
  simp only [hend]
  rw [parseLoop]
  simp only [hkey, hpos, hname, hvalue, urlDecode_eq, Option.map_some,
    Option.bind_eq_bind, Option.bind_some]

/-- The loop behind `front`, where segments without `=` and the others are
still to come. -/
theorem parseLoop_eq (hflag : flag ≠ ch '=') {fuel : Nat} {front pend str : List UInt8}
    {segs : List (List UInt8)} (hne : segs ≠ []) (hsegs : ∀ s ∈ segs, flag ∉ s)
    (hpend : ch '=' ∉ pend) (hstr : str = front ++ (pend ++ [flag].intercalate segs))
    (hfuel : (pend ++ [flag].intercalate segs).length < fuel) (m : NameMap) :
    parseLoop str flag trim fuel front.length m =
      some (m.insertAll ((fieldsFrom flag (ch '=') pend segs).map (readEntry trim))) := by
  induction segs generalizing fuel front pend m with
  | nil => exact absurd rfl hne
  | cons s ss ih =>
      obtain ⟨fuel, rfl⟩ : ∃ n, fuel = n + 1 := ⟨fuel - 1, by omega⟩
      obtain ⟨hs, htail⟩ := List.forall_mem_cons.mp hsegs
      rw [fieldsFrom]
      rcases eq_of_cut (ch '=') s with ⟨hmark, hcut⟩ | ⟨a, b, ha, rfl, hcut⟩
      · rw [hcut]
        have hpend' : ch '=' ∉ pend ++ s := by simp [hpend, hmark]
        cases ss with
        | nil =>
            rw [List.intercalate_singleton] at hstr
            rw [parseLoop, hstr, stringFind_none hpend']
            rfl
        | cons s' ss =>
            -- the segment comes to what was seen before; the loop does not turn
            have hjoin : pend ++ [flag].intercalate (s :: s' :: ss) =
                pend ++ s ++ [flag] ++ [flag].intercalate (s' :: ss) := by
              rw [List.intercalate_cons_cons]
              simp
            rw [hjoin] at hstr hfuel
            exact ih (List.cons_ne_nil s' ss) htail (by simp [hpend, hmark, hflag.symm]) hstr hfuel m
      · rw [hcut]
        have hkey : ch '=' ∉ pend ++ a := by simp [hpend, ha]
        have hb : flag ∉ ch '=' :: b := by
          intro hmem
          exact hs (List.mem_append_right a hmem)
        cases ss with
        | nil =>
            rw [List.intercalate_singleton, ← List.append_assoc pend] at hstr
            rw [hstr, parseLoop_last hflag hkey fun h => hb (List.mem_cons_of_mem _ h)]
            rfl
        | cons s' ss =>
            have hjoin : pend ++ [flag].intercalate ((a ++ ch '=' :: b) :: s' :: ss) =
                pend ++ a ++ ch '=' :: (b ++ flag :: [flag].intercalate (s' :: ss)) := by
              rw [List.intercalate_cons_cons]
              simp
            rw [hjoin] at hstr hfuel
            have hbehind : str = front ++ (pend ++ a ++ ch '=' :: (b ++ [flag])) ++
                ([] ++ [flag].intercalate (s' :: ss)) := by
              rw [hstr]
              simp
            have hshort : ([] ++ [flag].intercalate (s' :: ss)).length < fuel := by
              simp only [List.length_append, List.length_cons] at hfuel ⊢
              simp only [List.length_nil]
              omega
            have hturn := ih (List.cons_ne_nil s' ss) htail List.not_mem_nil hbehind hshort
              (m.insert (trim (pend ++ a)) (decode true b))
            rw [hstr] at hturn ⊢
            rw [parseLoop_next hflag hkey fun h => hb (List.mem_cons_of_mem _ h), hturn]
            rfl

/-- What `PARSE_PARAM` does: every field is inserted, under a key with what was
skipped before it. -/
theorem parseParam_eq (hflag : flag ≠ ch '=') (str : List UInt8) (m : NameMap) :
    parseParam str m flag trim =
      some (m.insertAll ((fields flag (ch '=') str).map (readEntry trim))) := by
  have hstr : str = [] ++ ([] ++ [flag].intercalate (str.splitOn flag)) := by simp
  exact parseLoop_eq hflag (List.splitOn_ne_nil flag str) (fun _ => not_mem_of_mem_splitOn)
    List.not_mem_nil hstr (by simp) m

/-! ## Trimmed keys -/

section Trim

variable {s delimit : List UInt8}

theorem findFirstNotOf_eq_none_iff :
    findFirstNotOf s delimit = none ↔ ∀ c ∈ s, delimit.elem c := by
  rw [findFirstNotOf, List.findIdx?_eq_none_iff]
  simp only [Bool.not_eq_false']

/-- The text from `find_first_not_of` on. -/
theorem dropWhile_of_first {first : Nat} (h : findFirstNotOf s delimit = some first) :
    first < s.length ∧ s.dropWhile delimit.elem = s.drop first := by
  obtain ⟨hlt, hidx⟩ := List.findIdx?_eq_some_iff_findIdx_eq.mp h
  refine ⟨hlt, ?_⟩
  rw [List.dropWhile_eq_drop_findIdx_not]
  exact congrArg (s.drop ·) hidx

/-- The text up to `find_last_not_of`. -/
theorem rdropWhile_of_last {last : Nat} (h : findLastNotOf s delimit = some last) :
    last < s.length ∧ s.rdropWhile delimit.elem = s.take (last + 1) := by
  obtain ⟨k, hk, rfl⟩ := Option.map_eq_some_iff.mp h
  obtain ⟨hlt, hdrop⟩ := dropWhile_of_first (s := s.reverse) hk
  rw [List.length_reverse] at hlt
  refine ⟨by omega, ?_⟩
  rw [List.rdropWhile, hdrop, List.drop_reverse, List.reverse_reverse]
  congr 1
  omega

theorem findLastNotOf_eq_none_iff :
    findLastNotOf s delimit = none ↔ ∀ c ∈ s, delimit.elem c := by
  rw [findLastNotOf, Option.map_eq_none_iff]
  refine findFirstNotOf_eq_none_iff.trans ?_
  simp only [List.mem_reverse]

/-- `Trim` takes the delimiters off both ends. -/
theorem trim_eq (s delimit : List UInt8) :
    StringUtil.trim s delimit = (s.dropWhile delimit.elem).rdropWhile delimit.elem := by
  cases hfirst : findFirstNotOf s delimit with
  | none =>
      rw [StringUtil.trim, hfirst,
        Stripping.stripped_eq_nil_iff.mpr (findFirstNotOf_eq_none_iff.mp hfirst)]
  | some first =>
      cases hlast : findLastNotOf s delimit with
      | none =>
          rw [findFirstNotOf_eq_none_iff.mpr (findLastNotOf_eq_none_iff.mp hlast)] at hfirst
          cases hfirst
      | some last =>
          obtain ⟨hlt, hfront⟩ := dropWhile_of_first hfirst
          obtain ⟨hlt', hback⟩ := rdropWhile_of_last hlast
          obtain ⟨hle, hslice⟩ := Stripping.stripped_eq_slice hlt hlt' hfront hback
          rw [StringUtil.trim, hfirst, hlast, hslice,
            show last + 1 - first = last - first + 1 from by omega]
          simp only [Option.map_some, substr, if_pos hlt.le, Option.getD_some]

/-- `Trim` removes nothing but blanks. -/
theorem mem_trim {c : UInt8} (hc : c ∉ delimit) (s : List UInt8) :
    c ∈ StringUtil.trim s delimit ↔ c ∈ s := by
  rw [trim_eq]
  exact Stripping.mem_stripped (by simpa using hc)

end Trim

/-! ## Segment by segment -/

/-- The map that the segments make, each on its own. -/
def segmentwise (flag : UInt8) (trim : List UInt8 → List UInt8) (str : List UInt8)
    (m : NameMap) : NameMap :=
  m.insertAll ((pairs flag (ch '=') str).map fun p => (trim p.1, decode true p.2))

/-- The entry of a field without what was skipped before it. -/
def properEntry (trim : List UInt8 → List UInt8) (f : Marked UInt8) :
    List UInt8 × List UInt8 :=
  (trim f.name, decode true f.value)

/-- Nothing was skipped before the field. -/
def clean (f : Marked UInt8) : Bool := f.skipped.isEmpty

/-- **The segments that are skipped do no harm**: with them in its key, an entry
finds this key taken, by the map or an entry before it that is not so; and
without them it would have added nothing. -/
def Harmless (flag : UInt8) (trim : List UInt8 → List UInt8) (str : List UInt8)
    (m : NameMap) : Prop :=
  OrderedMap.Absorbed NameLess (readEntry trim) (properEntry trim) clean m.entries
      (fields flag (ch '=') str) ∧
    m.insertAll ((fields flag (ch '=') str).map (properEntry trim)) =
      m.insertAll (((fields flag (ch '=') str).filter clean).map (properEntry trim))

instance (m : NameMap) (str : List UInt8) : Decidable (Harmless flag trim str m) :=
  inferInstanceAs (Decidable (_ ∧ _))

theorem readEntry_of_clean {f : Marked UInt8} (h : clean f = true) :
    readEntry trim f = properEntry trim f := by
  rw [readEntry, properEntry, List.isEmpty_iff.mp h, List.nil_append]

theorem segmentwise_eq (str : List UInt8) (m : NameMap) :
    segmentwise flag trim str m =
      m.insertAll ((fields flag (ch '=') str).map (properEntry trim)) := by
  rw [segmentwise, ← fields_pair, List.map_map]
  rfl

/-- The macro does what the segments say exactly if what it skips is harmless. -/
theorem parseParam_segmentwise_iff (hflag : flag ≠ ch '=')
    (htrim : ∀ s, flag ∈ trim s ↔ flag ∈ s) (str : List UInt8) (m : NameMap) :
    parseParam str m flag trim = some (segmentwise flag trim str m) ↔
      Harmless flag trim str m := by
  have hf : ∀ f ∈ fields flag (ch '=') str, clean f = false →
      flag ∈ (readEntry trim f).1 := by
    intro f hmem hclean
    have hskip : flag ∈ f.skipped := (mem_fields hmem).1.resolve_left fun h => by
      rw [clean, h] at hclean
      cases hclean
    exact (htrim _).mpr (List.mem_append_left f.name hskip)
  have hg : ∀ f ∈ fields flag (ch '=') str, flag ∉ (properEntry trim f).1 := fun f hmem =>
    mt (htrim _).mp (mem_fields hmem).2
  rw [parseParam_eq hflag, segmentwise_eq, Option.some.injEq, Harmless, NameMap.ext_iff,
    NameMap.ext_iff]
  simp only [NameMap.entries_insertAll]
  exact OrderedMap.insertAll_map_eq_iff m.ordered (fun f _ => readEntry_of_clean) hf hg

/-- Where every segment without `=` stands behind the last one that has it,
nothing is skipped. -/
theorem harmless_of_marked {str : List UInt8} {as bs : List (List UInt8)}
    (h : str.splitOn flag = as ++ bs) (has : ∀ a ∈ as, ch '=' ∈ a)
    (hbs : ∀ b ∈ bs, ch '=' ∉ b) (m : NameMap) : Harmless flag trim str m := by
  have hclean : ∀ f ∈ fields flag (ch '=') str, clean f = true := fun f hf =>
    List.isEmpty_iff.mpr (fields_clean h has hbs f hf)
  refine ⟨OrderedMap.absorbed_of_clean hclean, ?_⟩
  rw [List.filter_eq_self.mpr hclean]

namespace ParamRequest

theorem bind_some_iff {k : NameMap → ParamRequest} (hk : ∀ m m', k m = k m' → m = m')
    (o : Option NameMap) {m : NameMap} :
    (do let m ← o; return k m) = some (k m) ↔ o = some m := by
  cases o with
  | none => exact iff_of_false (nomatch ·) (nomatch ·)
  | some m' =>
      constructor
      · intro h
        rw [hk m' m (Option.some.inj h)]
      · intro h
        rw [Option.some.inj h]
        rfl

/-- **Parameters are parsed segment by segment** if and only if the segments
without `=` that stand before one with it do no harm: in the query, in the body
of a form and in the cookies. -/
theorem parsed_segmentwise_iff (r : ParamRequest) :
    (r.parserParamFlag &&& 0x1 = 0 →
      (r.initQueryParam =
          some { r with
            params := segmentwise (ch '&') id r.query r.params
            parserParamFlag := r.parserParamFlag ||| 0x1 } ↔
        Harmless (ch '&') id r.query r.params)) ∧
    (r.parserParamFlag &&& 0x2 = 0 →
      strcasestr r.contentType (text "application/x-www-form-urlencoded") = true →
      (r.initBodyParam =
          some { r with
            params := segmentwise (ch '&') id r.body r.params
            parserParamFlag := r.parserParamFlag ||| 0x2 } ↔
        Harmless (ch '&') id r.body r.params)) ∧
    (r.parserParamFlag &&& 0x4 = 0 →
      (r.initCookies =
          some { r with
            cookies := segmentwise (ch ';') trimBlanks r.cookie r.cookies
            parserParamFlag := r.parserParamFlag ||| 0x4 } ↔
        Harmless (ch ';') trimBlanks r.cookie r.cookies)) := by
  have hamp : ∀ s : List UInt8, ch '&' ∈ id s ↔ ch '&' ∈ s := fun s => Iff.rfl
  have hsemi : ∀ s, ch ';' ∈ trimBlanks s ↔ ch ';' ∈ s := mem_trim (by decide)
  refine ⟨fun h1 => ?_, fun h2 hform => ?_, fun h4 => ?_⟩
  · rw [← parseParam_segmentwise_iff (by decide) hamp, initQueryParam, if_neg (not_not.mpr h1)]
    exact bind_some_iff (fun m m' h => (ParamRequest.mk.inj h).2.1) _
  · rw [← parseParam_segmentwise_iff (by decide) hamp, initBodyParam, if_neg (not_not.mpr h2),
      hform, if_neg (by decide)]
    exact bind_some_iff (fun m m' h => (ParamRequest.mk.inj h).2.1) _
  · rw [initCookies, if_neg (not_not.mpr h4)]
    by_cases hcookie : r.cookie = []
    · rw [if_pos hcookie, hcookie]
      exact iff_of_true rfl ⟨trivial, rfl⟩
    · rw [← parseParam_segmentwise_iff (by decide) hsemi, if_neg hcookie]
      exact bind_some_iff (fun m m' h => (ParamRequest.mk.inj h).2.2.1) _

/-- A query, a form and cookies whose last segment has no `=`. -/
def formRequest : ParamRequest where
  query := text "x=%41&y=b=c&"
  body := text "z=+&x=2&w"
  headers := [(text "content-type", text "application/x-www-form-urlencoded"),
    (text "cookie", text " id=7; tz=0;id")]

theorem formRequest_segmentwise :
    formRequest.initQueryParam =
        some { formRequest with
          params := segmentwise (ch '&') id formRequest.query {}
          parserParamFlag := 0x1 } ∧
      formRequest.initBodyParam =
        some { formRequest with
          params := segmentwise (ch '&') id formRequest.body {}
          parserParamFlag := 0x2 } ∧
      formRequest.initCookies =
        some { formRequest with
          cookies := segmentwise (ch ';') trimBlanks formRequest.cookie {}
          parserParamFlag := 0x4 } := by
  obtain ⟨hquery, hbody, hcookies⟩ := parsed_segmentwise_iff formRequest
  exact ⟨(hquery rfl).mpr (by decide +kernel), (hbody rfl (by decide +kernel)).mpr (by decide +kernel),
    (hcookies rfl).mpr (by decide +kernel)⟩

/-- In `a&b=1` the first segment comes into the key of the second. -/
theorem swallowed_not_segmentwise :
    ∃ r : ParamRequest, r.query = text "a&b=1" ∧ r.parserParamFlag &&& 0x1 = 0 ∧
      r.initQueryParam ≠
        some { r with
          params := segmentwise (ch '&') id r.query r.params
          parserParamFlag := r.parserParamFlag ||| 0x1 } ∧
      (r.initQueryParam.map fun r' => r'.params.entries) =
        some [(text "a&b", text "1")] ∧
      (segmentwise (ch '&') id r.query r.params).entries = [(text "b", text "1")] := by
  refine ⟨{ query := text "a&b=1" }, rfl, rfl, ?_, ?_, ?_⟩
  · decide +kernel
  · decide +kernel
  · decide +kernel

end ParamRequest

end Hps.Http
