import Hps.Http.Method
import Hps.Http.RequestParser

/-!
# HTTP — which method a token names

`StringToHttpMethod` compares whole strings, `CharsToHttpMethod` the names
with the beginning of the buffer, and the parser asks the second. No name
begins another one, so that a token that is a name is recognized; a token that
goes on behind a name is taken for it (`recognized_iff`).
-/

namespace Hps.Http.Request

/-- `strcmp(a, b) == 0` -/
def strcmpEq : List UInt8 → List UInt8 → Bool
  | [], b => b.headD 0 == 0
  | c :: a, b => c == b.headD 0 && (c == 0 || strcmpEq a b.tail)

/-- `StringToHttpMethod` -/
def stringToHttpMethod (m : List UInt8) : HttpMethod :=
  match httpMethodMap.find? fun x => strcmpEq (text x.2) m with
  | some x => x.1
  | none => .INVALID_METHOD

/-- The method the token is the name of. -/
def methodNamed (tok : List UInt8) : Option HttpMethod :=
  (httpMethodMap.find? fun x => text x.2 == tok).map Prod.fst

/-- With the token in the buffer, a blank and anything behind it, the callback
sets the method it is the name of, or the error, and the lookup of the string
says the same. -/
def Recognized (tok rest : List UInt8) : Prop :=
  (∀ (front : List UInt8) (p : HttpRequestParser),
    p.onRequestMethod (front ++ (tok ++ ch ' ' :: rest)) front.length =
      match methodNamed tok with
      | some m => { p with data := p.data.setMethod m }
      | none => p.setError 1000) ∧
    charsToHttpMethod (tok ++ ch ' ' :: rest) = stringToHttpMethod tok

/-- No name but the token itself begins the token, nor the token and what is
behind it. -/
def Unextended (tok rest : List UInt8) : Prop :=
  (∀ x ∈ httpMethodMap, text x.2 <+: tok → text x.2 = tok) ∧
    ¬(tok = text "M" ∧ text "- SEARCH" <+: rest)

instance (tok rest : List UInt8) : Decidable (Unextended tok rest) :=
  inferInstanceAs (Decidable (_ ∧ _))

/-! ## The names -/

theorem strcmpEq_iff {a b : List UInt8} (ha : 0 ∉ a) (hb : 0 ∉ b) :
    strcmpEq a b = true ↔ a = b := by
  induction a generalizing b with
  | nil =>
      cases b with
      | nil => simp [strcmpEq]
      | cons y b =>
          have hy : y ≠ 0 := fun h => hb (by simp [h])
          simp [strcmpEq, hy]
  | cons x a ih =>
      obtain ⟨hx, ha⟩ := not_or.mp (mt List.mem_cons.mpr ha)
      cases b with
      | nil => simp [strcmpEq, Ne.symm hx]
      | cons y b =>
          obtain ⟨-, hb⟩ := not_or.mp (mt List.mem_cons.mpr hb)
          simp [strcmpEq, Ne.symm hx, ih ha hb]

/-- No name has a NUL in it, and none is the name of no method. -/
theorem name_facts : ∀ x ∈ httpMethodMap, 0 ∉ text x.2 ∧ x.1 ≠ .INVALID_METHOD := by
  decide +kernel

/-- No name begins another one, and no method has two. -/
theorem names_apart : ∀ x ∈ httpMethodMap, ∀ y ∈ httpMethodMap,
    ((text x.2).isPrefixOf (text y.2) = true → x = y) ∧ (x.1 = y.1 → x = y) := by
  decide +kernel

theorem eq_of_begins {x y : HttpMethod × String} (hx : x ∈ httpMethodMap)
    (hy : y ∈ httpMethodMap) (h : text x.2 <+: text y.2) : x = y :=
  (names_apart x hx y hy).1 (List.isPrefixOf_iff_prefix.mpr h)

section Token

variable {tok : List UInt8} (htok : tok.all methodChar = true)
include htok

theorem not_mem_token : 0 ∉ tok ∧ ch ' ' ∉ tok := by
  have hall := List.all_eq_true.mp htok
  exact ⟨fun h => absurd (hall 0 h) (by decide), fun h => absurd (hall _ h) (by decide)⟩

theorem stringToHttpMethod_eq :
    stringToHttpMethod tok = (methodNamed tok).getD .INVALID_METHOD := by
  have hcmp : ∀ x ∈ httpMethodMap, strcmpEq (text x.2) tok = (text x.2 == tok) := by
    intro x hx
    rw [Bool.eq_iff_iff, strcmpEq_iff (name_facts x hx).1 (not_mem_token htok).1, beq_iff_eq]
  rw [stringToHttpMethod, List.find?_congr hcmp, methodNamed]
  cases httpMethodMap.find? fun x => text x.2 == tok <;> rfl

/-- A name begins the buffer exactly if it begins the token, or is the one
with the blank. -/
theorem begins_iff (rest : List UInt8) {x : HttpMethod × String} (hx : x ∈ httpMethodMap) :
    text x.2 <+: tok ++ ch ' ' :: rest ↔ text x.2 <+: tok ∨
      (x = (.MSEARCH, "M - SEARCH") ∧ tok = text "M" ∧ text "- SEARCH" <+: rest) := by
  rcases httpMethodMap_upper x hx with rfl | hup
  · constructor
    · exact fun h => .inr ⟨rfl, msearch_prefix htok h⟩
    · rintro (h | ⟨-, rfl, h⟩)
      · exact h.trans (List.prefix_append _ _)
      · have hname : text "M - SEARCH" = text "M" ++ ch ' ' :: text "- SEARCH" := rfl
        obtain ⟨junk, rfl⟩ := h
        exact ⟨junk, by rw [hname, List.append_assoc, List.cons_append]⟩
  · rw [prefix_append_blank rest (not_mem_of_upper hup).2]
    refine ⟨.inl, fun h => h.resolve_right ?_⟩
    rintro ⟨rfl, -⟩
    exact absurd hup (by decide)

/-- What is unextended begins with no name but its own. -/
theorem unextended_iff (rest : List UInt8) : Unextended tok rest ↔
    ∀ x ∈ httpMethodMap, text x.2 <+: tok ++ ch ' ' :: rest → text x.2 = tok := by
  constructor
  · rintro ⟨hnames, hm⟩ x hx h
    rcases (begins_iff htok rest hx).mp h with h | ⟨-, h⟩
    · exact hnames x hx h
    · exact absurd h hm
  · intro h
    refine ⟨fun x hx hpre => h x hx ((begins_iff htok rest hx).mpr (.inl hpre)), fun hm => ?_⟩
    have hx : ((.MSEARCH, "M - SEARCH") : HttpMethod × String) ∈ httpMethodMap := by decide
    have heq := h _ hx ((begins_iff htok rest hx).mpr (.inr ⟨rfl, hm⟩))
    rw [hm.1] at heq
    exact absurd heq (by decide)

omit htok in
/-- What the callback looks up is a name at the beginning of the buffer. -/
theorem charsToHttpMethod_begins (rest : List UInt8) :
    charsToHttpMethod (tok ++ ch ' ' :: rest) =
      ((httpMethodMap.find? fun x => (text x.2).isPrefixOf (tok ++ ch ' ' :: rest)).map
        Prod.fst).getD .INVALID_METHOD := by
  have hcmp : ∀ x ∈ httpMethodMap,
      strncmpEq (text x.2) (tok ++ ch ' ' :: rest) (text x.2).length =
        (text x.2).isPrefixOf (tok ++ ch ' ' :: rest) := by
    intro x hx
    rw [Bool.eq_iff_iff, strncmpEq_iff_prefix _ (name_facts x hx).1,
      List.isPrefixOf_iff_prefix]
  rw [charsToHttpMethod, List.find?_congr hcmp]
  cases httpMethodMap.find? fun x => (text x.2).isPrefixOf (tok ++ ch ' ' :: rest) <;> rfl

/-- **The lookups agree exactly if the token is unextended.** -/
theorem lookups_agree_iff (rest : List UInt8) :
    charsToHttpMethod (tok ++ ch ' ' :: rest) = stringToHttpMethod tok ↔
      Unextended tok rest := by
  rw [charsToHttpMethod_begins, stringToHttpMethod_eq htok, methodNamed, unextended_iff htok]
  constructor
  · intro heq x hx hpre
    cases hb : httpMethodMap.find? fun x => (text x.2).isPrefixOf (tok ++ ch ' ' :: rest) with
    | none =>
        have hno := List.find?_eq_none.mp hb x hx
        exact absurd (List.isPrefixOf_iff_prefix.mpr hpre) hno
    | some y =>
        have hy := List.mem_of_find?_eq_some hb
        cases hn : httpMethodMap.find? fun x => text x.2 == tok with
        | none =>
            rw [hb, hn] at heq
            exact absurd heq (name_facts y hy).2
        | some z =>
            -- the two names are one, and the token is it
            rw [hb, hn] at heq
            have hz := List.mem_of_find?_eq_some hn
            obtain rfl := (names_apart y hy z hz).2 heq
            have htoken : text y.2 = tok := by simpa using List.find?_some hn
            rcases (begins_iff htok rest hx).mp hpre with h | ⟨-, hm, -⟩
            · rw [← htoken] at h ⊢
              rw [eq_of_begins hx hy h]
            · rw [← htoken] at hm
              exact absurd hm ((by decide : ∀ x ∈ httpMethodMap, text x.2 ≠ text "M") y hy)
  · intro h
    have hsame : ∀ x ∈ httpMethodMap,
        (text x.2).isPrefixOf (tok ++ ch ' ' :: rest) = (text x.2 == tok) := by
      intro x hx
      rw [Bool.eq_iff_iff, List.isPrefixOf_iff_prefix, beq_iff_eq]
      exact ⟨h x hx, fun he => he ▸ List.prefix_append _ _⟩
    rw [List.find?_congr hsame]

/-- **The method is recognized exactly if the token is unextended**: for every
token of upper-case letters and digits and whatever comes behind it, the
callback sets the method the token is the name of, or the error 1000 if there
is none, and the two lookups agree, if and only if no name is the beginning of
a longer token, and the token is not an `M` in front of `- SEARCH`. -/
theorem recognized_iff (rest : List UInt8) : Recognized tok rest ↔ Unextended tok rest := by
  rw [← lookups_agree_iff htok rest]
  refine ⟨fun h => h.2, fun hagree => ⟨fun front p => ?_, hagree⟩⟩
  rw [HttpRequestParser.onRequestMethod, List.drop_left, hagree, stringToHttpMethod_eq htok]
  cases hn : methodNamed tok with
  | none => exact if_pos rfl
  | some m =>
      obtain ⟨x, hx, rfl⟩ := Option.map_eq_some_iff.mp hn
      exact if_neg (name_facts x (List.mem_of_find?_eq_some hx)).2

end Token

theorem get_recognized : Recognized (text "GET") (text "/ HTTP/1.1") :=
  (recognized_iff (by decide) _).mpr (by decide +kernel)

/-- A token that begins with a name. -/
theorem getx_not_recognized : ¬Recognized (text "GETX") (text "/ HTTP/1.1") := by
  intro h
  have hlookup : charsToHttpMethod (text "GETX" ++ ch ' ' :: text "/ HTTP/1.1") = .GET := by
    decide +kernel
  have hstring : stringToHttpMethod (text "GETX") = .INVALID_METHOD := by decide +kernel
  have hagree := h.2
  rw [hlookup, hstring] at hagree
  cases hagree

end Hps.Http.Request
