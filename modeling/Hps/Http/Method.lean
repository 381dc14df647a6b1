import Mathlib.Data.List.Find
import Hps.Http.TokenFacts

/-!
# HTTP — recognizing the method

`CharsToHttpMethod` compares the names with the memory at the token, not with
the token: a name matches when the token begins with it. Only one name has a
blank in it, `M - SEARCH`, and only for it does the text behind the token
matter.
-/

namespace Hps.Http.Request

theorem strncmpEq_iff_prefix {a : List UInt8} (b : List UInt8) (h : 0 ∉ a) :
    strncmpEq a b a.length = true ↔ a <+: b := by
  induction a generalizing b with
  | nil => simp [strncmpEq]
  | cons x xs ih =>
      obtain ⟨hx, hxs⟩ := not_or.mp (mt List.mem_cons.mpr h)
      have hx0 : (x == 0) = false := by simpa using Ne.symm hx
      cases b with
      | nil => simp [strncmpEq, hx0]
      | cons y ys =>
          simp [strncmpEq, hx0, ih ys hxs, List.cons_prefix_cons]

theorem ne_blank_of_methodChar {c : UInt8} (h : methodChar c = true) :
    c ≠ ch ' ' := by
  rintro rfl
  exact absurd h (by decide)

/-- A word without a blank begins a line exactly if it begins its first
word. -/
theorem prefix_append_blank {a tok : List UInt8} (junk : List UInt8)
    (ha : ch ' ' ∉ a) : a <+: tok ++ ch ' ' :: junk ↔ a <+: tok := by
  refine ⟨fun h => ?_, fun h => h.trans (List.prefix_append _ _)⟩
  by_cases hlen : a.length ≤ tok.length
  · exact List.prefix_of_prefix_length_le h (List.prefix_append _ _) hlen
  · have hb : tok ++ [ch ' '] <+: tok ++ ch ' ' :: junk :=
      ⟨junk, List.append_assoc _ _ _⟩
    have hba := List.prefix_of_prefix_length_le hb h (by simp; omega)
    exact absurd (hba.subset (by simp)) ha

set_option maxRecDepth 10000 in
/-- All names but one are upper-case words. -/
theorem httpMethodMap_upper : ∀ x ∈ httpMethodMap,
    x = (.MSEARCH, "M - SEARCH") ∨ (text x.2).all upper = true := by
  decide

theorem not_mem_of_upper {a : List UInt8} (h : a.all upper = true) :
    0 ∉ a ∧ ch ' ' ∉ a := by
  have h' := List.all_eq_true.mp h
  exact ⟨fun h0 => absurd (h' 0 h0) (by decide),
    fun hb => absurd (h' _ hb) (by decide)⟩

/-- The name of the text that is an upper-case word, for what the text is
compared with. -/
theorem strncmpEq_name {x : HttpMethod × String} (hx : (text x.2).all upper)
    (m : List UInt8) :
    strncmpEq (text x.2) m (text x.2).length = true ↔ text x.2 <+: m :=
  strncmpEq_iff_prefix m (not_mem_of_upper hx).1

theorem strncmpEq_msearch (m : List UInt8) :
    strncmpEq (text "M - SEARCH") m (text "M - SEARCH").length = true ↔
      text "M - SEARCH" <+: m :=
  strncmpEq_iff_prefix m (by decide)

/-- The one name with a blank matches only behind the token `M`. -/
theorem msearch_prefix {tok junk : List UInt8} (htok : tok.all methodChar = true)
    (h : text "M - SEARCH" <+: tok ++ ch ' ' :: junk) :
    tok = text "M" ∧ text "- SEARCH" <+: junk := by
  have hne := List.all_eq_true.mp htok
  have hname : text "M - SEARCH" = ch 'M' :: ch ' ' :: text "- SEARCH" := rfl
  rw [hname] at h
  cases tok with
  | nil =>
      obtain ⟨hc, -⟩ := List.cons_prefix_cons.mp h
      exact absurd hc (by decide)
  | cons c tok =>
      rw [List.cons_append, List.cons_prefix_cons] at h
      obtain ⟨rfl, h⟩ := h
      cases tok with
      | nil =>
          rw [List.nil_append, List.cons_prefix_cons] at h
          exact ⟨rfl, h.2⟩
      | cons d tok =>
          rw [List.cons_append, List.cons_prefix_cons] at h
          have hd := hne d (by simp)
          exact absurd h.1.symm (ne_blank_of_methodChar hd)

/-- **The text behind the token decides nothing**, but for `M - SEARCH`. -/
theorem charsToHttpMethod_blank {tok junk : List UInt8}
    (htok : tok.all methodChar = true)
    (hm : tok = text "M" → ¬text "- SEARCH" <+: junk) :
    charsToHttpMethod (tok ++ ch ' ' :: junk) = charsToHttpMethod tok := by
  have hne := List.all_eq_true.mp htok
  unfold charsToHttpMethod
  rw [List.find?_congr fun x hx => ?_]
  apply Bool.eq_iff_iff.mpr
  rcases httpMethodMap_upper x hx with rfl | hup
  · rw [strncmpEq_msearch, strncmpEq_msearch]
    constructor
    · intro h
      obtain ⟨h1, h2⟩ := msearch_prefix htok h
      exact absurd h2 (hm h1)
    · intro h
      exact h.trans (List.prefix_append _ _)
  · rw [strncmpEq_name hup, strncmpEq_name hup]
    exact prefix_append_blank junk (not_mem_of_upper hup).2

/-- No token of the grammar is the name with the blank. -/
theorem charsToHttpMethod_ne_msearch {tok : List UInt8}
    (htok : tok.all methodChar = true) : charsToHttpMethod tok ≠ .MSEARCH := by
  intro h
  unfold charsToHttpMethod at h
  cases hf : httpMethodMap.find? fun x =>
      strncmpEq (text x.2) tok (text x.2).length with
  | none => simp [hf] at h
  | some x =>
      simp only [hf] at h
      have hx := List.mem_of_find?_eq_some hf
      have hcmp := List.find?_some hf
      have hmem : ∀ y ∈ httpMethodMap, y.1 = .MSEARCH →
          y = (.MSEARCH, "M - SEARCH") := by decide
      obtain rfl := hmem x hx h
      have hpre := ((strncmpEq_msearch tok).mp hcmp).subset
        (show ch ' ' ∈ text "M - SEARCH" by decide)
      exact ne_blank_of_methodChar (List.all_eq_true.mp htok _ hpre) rfl

set_option maxRecDepth 10000 in
/-- No upper-case name begins the token `M`. -/
theorem no_name_begins_m : ∀ x ∈ httpMethodMap,
    (text x.2).all upper = true → (text x.2).isPrefixOf (text "M") = false := by
  decide

set_option maxRecDepth 10000 in
theorem charsToHttpMethod_m : charsToHttpMethod (text "M") = .INVALID_METHOD := by
  decide

/-- Behind the token `M` there is the name with the blank, or none. -/
theorem charsToHttpMethod_m_blank (junk : List UInt8) :
    charsToHttpMethod (text "M" ++ ch ' ' :: junk) = .INVALID_METHOD ∨
      charsToHttpMethod (text "M" ++ ch ' ' :: junk) = .MSEARCH := by
  unfold charsToHttpMethod
  cases hf : httpMethodMap.find? fun x =>
      strncmpEq (text x.2) (text "M" ++ ch ' ' :: junk) (text x.2).length with
  | none => exact .inl rfl
  | some x =>
      have hx := List.mem_of_find?_eq_some hf
      have hcmp := List.find?_some hf
      rcases httpMethodMap_upper x hx with rfl | hup
      · exact .inr rfl
      · have hpre := (strncmpEq_name hup _).mp hcmp
        rw [prefix_append_blank junk (not_mem_of_upper hup).2,
          ← List.isPrefixOf_iff_prefix, no_name_begins_m x hx hup] at hpre
        cases hpre

end Hps.Http.Request
