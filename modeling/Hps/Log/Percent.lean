import Hps.Log.Pattern
import Mathlib.Data.List.TakeWhile

/-!
# Log — a `%` in a literal

A `%` of a literal is written, and then begins a directive. From the first one
on, what is written stays different from what the items write.
-/

namespace Hps.Log

open Hps.Lib.Numerals

/-! ## Closing braces -/

/-- The text up to the next `}`, as a directive that begins before the tokens
finds it, and the tokens behind it. -/
def closeTokens : List Token → Option (Text × List Token)
  | [] => none
  | .char c :: ts =>
      if c = 125 then some ([], ts)
      else (closeTokens ts).map fun x => (charSource c ++ x.1, x.2)
  | .directive k none :: ts => (closeTokens ts).map fun x => (37 :: letter k :: x.1, x.2)
  | .directive k (some fmt) :: ts => some (37 :: letter k :: 123 :: fmt.val, ts)

section Closing

variable {ts rest : List Token} {c : UInt8} {k : Directive} {fmt : Text}

theorem letter_ne_close (k : Directive) : letter k ≠ 125 := by
  cases k <;> decide

theorem findClose_source (acc : Text) (ts : List Token) :
    findClose acc (source ts) = (closeTokens ts).map fun x => (acc ++ x.1, source x.2) := by
  induction ts generalizing acc with
  | nil => rfl
  | cons tok ts ih =>
      cases tok with
      | char c =>
          rw [closeTokens]
          by_cases hc : c = 125
          · subst hc
            rw [source_char (by decide), findClose, if_pos rfl, if_pos rfl]
            simp
          · have hnot : 125 ∉ charSource c := by
              rw [charSource]
              split
              · decide
              · simpa using Ne.symm hc
            rw [if_neg hc, source_cons, Token.source, findClose_append hnot, ih]
            simp [Function.comp_def]
      | directive k fmt =>
          cases fmt with
          | none =>
              have hnot : 125 ∉ [37, letter k] := by simp [(letter_ne_close k).symm]
              rw [closeTokens, source_cons, Token.source, directiveSource, findClose_append hnot, ih]
              simp [Function.comp_def]
          | some fmt =>
              have hnot : 125 ∉ 37 :: letter k :: 123 :: fmt.val := by
                simp [(letter_ne_close k).symm, fmt.property]
              have hsource : source (.directive k (some fmt) :: ts) =
                  (37 :: letter k :: 123 :: fmt.val) ++ 125 :: source ts := by
                rw [source_cons]
                simp [Token.source, directiveSource]
              rw [closeTokens, hsource, findClose_append hnot, findClose, if_pos rfl]
              rfl

theorem separated_of_cons {tok : Token} (h : Separated (tok :: ts)) : Separated ts := by
  cases tok with
  | char c => exact h
  | directive k fmt =>
      cases fmt with
      | none => exact h.2
      | some fmt => exact h

/-- The tokens behind the brace are a part of all. -/
theorem closeTokens_suffix (h : closeTokens ts = some (fmt, rest)) :
    ∃ pre, ts = pre ++ rest ∧ pre ≠ [] := by
  induction ts generalizing fmt with
  | nil => cases h
  | cons tok ts ih =>
      have hlater : ∀ g : Text → Text,
          (closeTokens ts).map (fun x => (g x.1, x.2)) = some (fmt, rest) →
            ∃ pre, tok :: ts = pre ++ rest ∧ pre ≠ [] := by
        intro g hmap
        obtain ⟨x, hx, hg⟩ := Option.map_eq_some_iff.mp hmap
        have hrest : x.2 = rest := congrArg Prod.snd hg
        obtain ⟨pre, hpre, -⟩ := ih (hx.trans (by rw [← hrest]))
        exact ⟨tok :: pre, by rw [hpre, List.cons_append], List.cons_ne_nil _ _⟩
      cases tok with
      | char c =>
          rw [closeTokens] at h
          split at h
          · obtain rfl := congrArg Prod.snd (Option.some.inj h)
            exact ⟨[.char c], rfl, List.cons_ne_nil _ _⟩
          · exact hlater (charSource c ++ ·) h
      | directive k f =>
          cases f with
          | none =>
              rw [closeTokens] at h
              exact hlater (37 :: letter k :: ·) h
          | some f =>
              obtain rfl := congrArg Prod.snd (Option.some.inj h)
              exact ⟨[.directive k (some f)], rfl, List.cons_ne_nil _ _⟩

theorem separated_append {pre : List Token} (h : Separated (pre ++ rest)) : Separated rest := by
  induction pre with
  | nil => exact h
  | cons tok pre ih => exact ih (separated_of_cons h)

theorem expected_append (write : FormatItem → Text) (pre rest : List Token) :
    expected write (pre ++ rest) = expected write pre ++ expected write rest :=
  List.flatMap_append

end Closing

/-! ## The directive that a `%` begins -/

section Begun

variable {ts : List Token} {c : UInt8}

theorem findDirective_front {str t : Text} {r : Text × Text × Text}
    (h : findDirective str t = some r) : str <+: r.1 := by
  induction t generalizing str with
  | nil =>
      obtain rfl := Option.some.inj h
      exact List.prefix_rfl
  | cons c t ih =>
      rw [findDirective] at h
      split at h
      · obtain ⟨x, -, rfl⟩ := Option.map_eq_some_iff.mp h
        exact List.prefix_rfl
      · split at h
        · obtain rfl := Option.some.inj h
          exact List.prefix_rfl
        · exact (List.prefix_append str [c]).trans (ih h)

theorem source_brace {t : Text} (h : source ts = 123 :: t) :
    ∃ ts', ts = .char 123 :: ts' ∧ t = source ts' := by
  cases ts with
  | nil => cases h
  | cons tok ts =>
      cases tok with
      | char c =>
          by_cases hc : c = 37
          · subst hc
            cases h
          · rw [source_char hc] at h
            obtain ⟨rfl, rfl⟩ := List.cons.inj h
            exact ⟨ts, rfl, rfl⟩
      | directive k fmt =>
          cases fmt <;> cases h

/-- The name of a directive is one letter, and its format is empty, or between
braces. -/
theorem findDirective_begun {k : Directive} {str fmt r : Text}
    (hfind : findDirective [] (c :: source ts) = some (str, fmt, r))
    (hstr : classOf str = some k) : c = letter k ∧ ∃ rest, r = source rest ∧
      (fmt = [] ∧ rest = ts ∨
        ∃ ts', ts = .char 123 :: ts' ∧ closeTokens ts' = some (fmt, rest)) := by
  obtain rfl := eq_letter hstr
  rw [findDirective] at hfind
  split at hfind
  · obtain ⟨x, -, hx⟩ := Option.map_eq_some_iff.mp hfind
    exact absurd (congrArg Prod.fst hx) (by simp)
  · split at hfind
    · exact absurd (congrArg Prod.fst (Option.some.inj hfind)) (by simp)
    · rw [List.nil_append] at hfind
      have hc : c = letter k := by
        have hpre := findDirective_front hfind
        simpa using hpre
      refine ⟨hc, ?_⟩
      cases hsource : source ts with
      | nil =>
          rw [hsource] at hfind
          have heq := congrArg Prod.snd (Option.some.inj hfind)
          exact ⟨ts, by rw [hsource]; exact (congrArg Prod.snd heq).symm,
            .inl ⟨(congrArg Prod.fst heq).symm, rfl⟩⟩
      | cons d t =>
          rw [hsource, findDirective] at hfind
          split at hfind
          · rename_i hd
            subst hd
            obtain ⟨ts', rfl, rfl⟩ := source_brace hsource
            rw [findClose_source, Option.map_map] at hfind
            obtain ⟨x, hx, heq⟩ := Option.map_eq_some_iff.mp hfind
            have heq := congrArg Prod.snd heq
            have hfmt : x.1 = fmt := congrArg Prod.fst heq
            have hr : source x.2 = r := congrArg Prod.snd heq
            exact ⟨x.2, hr.symm, .inr ⟨ts', rfl, by rw [hx, ← hfmt]⟩⟩
          · split at hfind
            · have heq := congrArg Prod.snd (Option.some.inj hfind)
              exact ⟨ts, by rw [hsource]; exact (congrArg Prod.snd heq).symm,
                .inl ⟨(congrArg Prod.fst heq).symm, rfl⟩⟩
            · have hlen := (findDirective_front hfind).length_le
              exact absurd hlen (by simp)

end Begun

/-! ## What is written and what is expected -/

/-- A text that stands before another and is missing behind it is moved through
it. -/
theorem append_rotate {α : Type} {v a w b : List α} (h : v ++ a = w ++ (v ++ b)) :
    ∃ w', w'.Perm w ∧ a = w' ++ b := by
  have hlen : w.length ≤ a.length := by
    have hall := congrArg List.length h
    simp only [List.length_append] at hall
    omega
  have hsplit : (v ++ a.take w.length) ++ a.drop w.length = (w ++ v) ++ b := by
    rw [List.append_assoc, List.take_append_drop, h, List.append_assoc]
  have hfront : (v ++ a.take w.length).length = (w ++ v).length := by
    rw [List.length_append, List.length_append, List.length_take_of_le hlen, Nat.add_comm]
  obtain ⟨hvw, hb⟩ := List.append_inj hsplit hfront
  refine ⟨a.take w.length, ?_, by rw [← hb, List.take_append_drop]⟩
  have hperm : (v ++ a.take w.length).Perm (v ++ w) := by
    rw [hvw]
    exact List.perm_append_comm
  exact (List.perm_append_left_iff v).mp hperm

/-- What can be said of tokens by their front. -/
theorem front_cases (ts : List Token) : ts = [] ∨ (∃ t, source ts = 37 :: t) ∨
    ∃ c ts', c ≠ 37 ∧ ts = .char c :: ts' := by
  cases ts with
  | nil => exact .inl rfl
  | cons tok ts =>
      cases tok with
      | char c =>
          by_cases hc : c = 37
          · subst hc
            exact .inr (.inl ⟨_, source_percent ts⟩)
          · exact .inr (.inr ⟨c, ts, hc, rfl⟩)
      | directive k fmt => cases fmt <;> exact .inr (.inl ⟨_, rfl⟩)

section Comparing

variable {write : FormatItem → Text} (hstring : ∀ s, write (.string s) = s)
  {ts : List Token} {out : Text}
include hstring

theorem outcome_begun {c : UInt8} (hc : c ≠ 37)
    (h : outcome write (37 :: source (.char c :: ts)) = some out) :
    ∃ k fmt rest out', c = letter k ∧ outcome write (source rest) = some out' ∧
      out = write (.directive k fmt) ++ out' ∧
      (fmt = [] ∧ rest = ts ∨ ∃ ts', ts = .char 123 :: ts' ∧ closeTokens ts' = some (fmt, rest)) := by
  have hhead : (c :: source ts).head? ≠ some 37 := fun heq => hc (Option.some.inj heq)
  rw [source_char hc, outcome_directive hstring hhead] at h
  obtain ⟨⟨str, fmt, r⟩, hfind, h⟩ := Option.bind_eq_some_iff.mp h
  obtain ⟨k, hstr, h⟩ := Option.bind_eq_some_iff.mp h
  obtain ⟨out', hout', rfl⟩ := Option.map_eq_some_iff.mp h
  obtain ⟨hletter, rest, rfl, hrest⟩ := findDirective_begun hfind hstr
  exact ⟨k, fmt, rest, out', hletter, hout', rfl, hrest⟩

/-- The second `%` of a literal, at another one that begins a directive. -/
theorem outcome_again {t : Text} (h : source ts = 37 :: t)
    (hout : outcome write (37 :: source ts) = some out) :
    ∃ out', outcome write (source ts) = some out' ∧ out = 37 :: out' := by
  rw [h, outcome_percent hstring, ← h] at hout
  obtain ⟨out', hout', rfl⟩ := Option.map_eq_some_iff.mp hout
  exact ⟨out', hout', rfl⟩

omit hstring in
/-- The directive that begins takes tokens from the front. -/
theorem begun_suffix {fmt : Text} {rest : List Token}
    (h : fmt = [] ∧ rest = ts ∨ ∃ ts', ts = .char 123 :: ts' ∧ closeTokens ts' = some (fmt, rest)) :
    ∃ pre, ts = pre ++ rest := by
  rcases h with ⟨-, rfl⟩ | ⟨ts', rfl, hclose⟩
  · exact ⟨[], rfl⟩
  · obtain ⟨pre, rfl, -⟩ := closeTokens_suffix hclose
    exact ⟨.char 123 :: pre, rfl⟩

/-- If no directive writes a 0, those that are written stand in literals. -/
theorem nul_count_le (hnul : ∀ k fmt, 0 ∉ write (.directive k fmt)) (hsep : Separated ts)
    (hout : outcome write (source ts) = some out) : out.count 0 ≤ (expected write ts).count 0 := by
  induction hlen : ts.length using Nat.strongRecOn generalizing ts out with
  | ind n ih =>
      -- behind a part of the tokens, as many are expected at most
      have hlater : ∀ {pre rest : List Token} {out' : Text}, ts = pre ++ rest →
          rest.length < n → outcome write (source rest) = some out' →
          out'.count 0 ≤ (expected write ts).count 0 := by
        intro pre rest out' hts hlt hout'
        rw [hts] at hsep ⊢
        rw [expected_append, List.count_append]
        exact Nat.le_add_left_of_le (ih _ hlt (separated_append hsep) hout' rfl)
      cases ts with
      | nil =>
          obtain rfl := Option.some.inj hout
          exact Nat.le_refl _
      | cons tok ts =>
          have hlt : ts.length < n := by
            rw [← hlen]
            exact Nat.lt_succ_self _
          have hrest := separated_of_cons hsep
          have hdirective : ∀ k fmt, (write (.directive k fmt)).count 0 = 0 := fun k fmt =>
            List.count_eq_zero.mpr (hnul k fmt)
          cases tok with
          | directive k fmt =>
              rw [outcome_token hstring hsep] at hout
              obtain ⟨out', hout', rfl⟩ := Option.map_eq_some_iff.mp hout
              rw [List.count_append, hdirective, Nat.zero_add]
              exact @hlater [_] _ _ rfl hlt hout'
          | char c =>
              by_cases hc : c = 37
              · subst hc
                rw [source_percent, outcome_percent hstring] at hout
                obtain ⟨out', hout', rfl⟩ := Option.map_eq_some_iff.mp hout
                rw [List.count_cons_of_ne (by decide)]
                rcases front_cases ts with rfl | ⟨t, ht⟩ | ⟨d, ts', hd, rfl⟩
                · cases hout'
                · obtain ⟨out'', hout'', rfl⟩ := outcome_again hstring ht hout'
                  rw [List.count_cons_of_ne (by decide)]
                  exact @hlater [_] _ _ rfl hlt hout''
                · obtain ⟨k, fmt, rest, out'', -, hout'', rfl, htokens⟩ :=
                    outcome_begun hstring hd hout'
                  obtain ⟨pre, rfl⟩ := begun_suffix htokens
                  rw [List.count_append, hdirective, Nat.zero_add]
                  refine @hlater (.char 37 :: .char d :: pre) rest _ rfl ?_ hout''
                  simp only [List.length_cons, List.length_append] at hlt
                  omega
              · rw [outcome_literal hstring hc] at hout
                obtain ⟨out', hout', rfl⟩ := Option.map_eq_some_iff.mp hout
                have hle := ih _ hlt hrest hout' rfl
                show (c :: out').count 0 ≤ (c :: expected write ts).count 0
                rw [List.count_cons, List.count_cons]
                exact Nat.add_le_add_right hle _

/-- What is written never has less than what is expected, by a text without a
`%`: it comes to the front of what is written in the end. -/
theorem no_deficit {w : Text} (hsep : Separated ts)
    (hout : outcome write (source ts) = some (w ++ expected write ts)) (hw : 37 ∉ w) : w = [] := by
  induction ts generalizing w with
  | nil => exact List.append_eq_nil_iff.mp (Option.some.inj hout).symm |>.1
  | cons tok ts ih =>
      have hrest := separated_of_cons hsep
      cases tok with
      | directive k fmt =>
          rw [outcome_token hstring hsep] at hout
          obtain ⟨out', hout', heq⟩ := Option.map_eq_some_iff.mp hout
          obtain ⟨w', hperm, rfl⟩ := append_rotate heq
          have hw' := ih hrest hout' fun h => hw (hperm.mem_iff.mp h)
          subst hw'
          exact List.nil_perm.mp hperm
      | char c =>
          cases w with
          | nil => rfl
          | cons d w =>
              have hd : d ≠ 37 := fun h => hw (by simp [h])
              by_cases hc : c = 37
              · subst hc
                rw [source_percent, outcome_percent hstring] at hout
                obtain ⟨out', -, heq⟩ := Option.map_eq_some_iff.mp hout
                exact absurd (List.cons.inj heq).1.symm hd
              · rw [outcome_literal hstring hc] at hout
                obtain ⟨out', hout', heq⟩ := Option.map_eq_some_iff.mp hout
                obtain ⟨rfl, rfl⟩ := List.cons.inj heq
                have hmoved := @ih (w ++ [c]) hrest (by simpa [expected, Token.written] using hout')
                  (by simpa [Ne.symm hc] using fun h => hw (List.mem_cons_of_mem _ h))
                exact absurd hmoved (by simp)

end Comparing

/-! ## Formats -/

section Formats

variable (lib : Strftime) {t : Text}

theorem expand_nil (time : UInt64) : lib.expand time [] = [] := by rw [Strftime.expand]

theorem expand_char {c : UInt8} (hc : c ≠ 37) (time : UInt64) (t : Text) :
    lib.expand time (c :: t) = c :: lib.expand time t := by
  rw [Strftime.expand, if_neg hc]

theorem expand_percent (time : UInt64) (t : Text) :
    lib.expand time (37 :: 37 :: t) = 37 :: lib.expand time t := by
  rw [Strftime.expand, if_pos rfl, lib.percent]
  rfl

/-- A letter's conversion begins neither with a `d` nor with a brace. -/
theorem expand_letter {c : UInt8} (hc : c ∈ text "mprctndflTFNY") (t : Text) :
    ∃ d w, lib.expand 0 (37 :: c :: t) = d :: w ∧ d ≠ 100 ∧ d ≠ 123 ∧ d ≠ 125 := by
  obtain ⟨d, w, hd, hne⟩ := lib.starts c hc t
  refine ⟨d, w ++ lib.expand 0 (lib.conversion 0 (c :: t)).2, ?_, hne⟩
  rw [Strftime.expand, if_pos rfl, hd]
  rfl

theorem letter_mem (k : Directive) : letter k ∈ text "mprctndflTFNY" := by
  cases k <;> decide

/-- No 0 is written that is not in the format. -/
theorem nul_not_mem_expand (time : UInt64) (h : 0 ∉ t) : 0 ∉ lib.expand time t := by
  induction hlen : t.length using Nat.strongRecOn generalizing t with
  | ind n ih =>
      cases t with
      | nil =>
          rw [expand_nil]
          exact List.not_mem_nil
      | cons c t =>
          have hlt : t.length < n := by
            rw [← hlen]
            exact Nat.lt_succ_self _
          have ht : 0 ∉ t := fun hmem => h (List.mem_cons_of_mem c hmem)
          by_cases hc : c = 37
          · have hrest := lib.rest time t
            rw [Strftime.expand, if_pos hc, List.mem_append]
            rintro (hmem | hmem)
            · exact lib.noNul time t hmem
            · exact ih _ (Nat.lt_of_le_of_lt hrest.length_le hlt)
                (fun hmem => ht (hrest.subset hmem)) rfl hmem
          · rw [expand_char lib hc]
            intro hmem
            rcases List.mem_cons.mp hmem with rfl | hmem
            · exact h List.mem_cons_self
            · exact ih _ hlt ht rfl hmem

theorem cString_nul (t : Text) : cString (0 :: t) = [] := rfl

theorem cString_cons {c : UInt8} (hc : c ≠ 0) (t : Text) : cString (c :: t) = c :: cString t :=
  List.takeWhile_cons_of_pos (bne_iff_ne.mpr hc)

theorem nul_not_mem_cString (t : Text) : 0 ∉ cString t := by
  intro h
  exact absurd (List.mem_takeWhile_imp h) (by decide)

end Formats

/-- A way to write that tells the letters of the directives from what the
directives write. -/
structure Telling (lib : Strftime) (write : FormatItem → Text) : Prop where
  string : ∀ s, write (.string s) = s
  noNul : ∀ k fmt, 0 ∉ write (.directive k fmt)
  differs : ∀ k fmt, (∃ d w, write (.directive k fmt) = d :: w ∧ d ≠ letter k) ∨
    k = .dateTime ∧ fmt ≠ [] ∧ write (.directive k fmt) = lib.expand 0 (cString fmt)

section Telling

variable {lib : Strftime} {write : FormatItem → Text} (h : Telling lib write)
include h

omit h in
/-- A text of `d` and `{` goes on as it begins. -/
theorem front_ne {d e x y : Text} {c : UInt8} {w : Text} (hd : d ≠ [])
    (hchars : ∀ c ∈ d, c = 100 ∨ c = 123) (hexpand : e = c :: w) (hc : c ≠ 100 ∧ c ≠ 123) :
    e ++ x ≠ d ++ y := by
  obtain ⟨a, d, rfl⟩ := List.exists_cons_of_ne_nil hd
  rw [hexpand]
  intro heq
  have ha : c = a := (List.cons.inj heq).1
  rcases hchars a List.mem_cons_self with hd | hbrace
  · exact hc.1 (ha.trans hd)
  · exact hc.2 (ha.trans hbrace)

omit h in
/-- The source of a directive begins with a conversion. -/
theorem conversion_differs {d x y : Text} (hd : d ≠ []) (hchars : ∀ c ∈ d, c = 100 ∨ c = 123)
    (k : Directive) (t : Text) :
    lib.expand 0 (cString (37 :: letter k :: t)) ++ x ≠ d ++ y := by
  rw [cString_cons (by decide), cString_cons (letter_ne k).1]
  obtain ⟨c, w, hexpand, hne, hbrace, -⟩ := expand_letter lib (letter_mem k) (cString t)
  exact front_ne hd hchars hexpand ⟨hne, hbrace⟩

omit h in
theorem percent_differs {d x y : Text} (hd : d ≠ []) (hchars : ∀ c ∈ d, c = 100 ∨ c = 123)
    (t : Text) : lib.expand 0 (cString (37 :: 37 :: t)) ++ x ≠ d ++ y := by
  have hexpand : lib.expand 0 (cString (37 :: 37 :: t)) = 37 :: lib.expand 0 (cString t) := by
    rw [cString_cons (by decide), cString_cons (by decide), expand_percent]
  exact front_ne hd hchars hexpand (by decide)

/-- Behind the closing brace, the text would be missing. -/
theorem closed_differs {ts : List Token} {out d : Text} (hsep : Separated ts)
    (hout : outcome write (source ts) = some out) (hchars : ∀ c ∈ d, c = 100 ∨ c = 123) :
    out ≠ (d ++ [125]) ++ expected write ts := by
  rintro rfl
  have hnot : 37 ∉ d ++ [125] := by
    intro hmem
    rcases List.mem_append.mp hmem with hmem | hmem
    · rcases hchars 37 hmem with h37 | h37 <;> cases h37
    · cases List.mem_singleton.mp hmem
  exact absurd (no_deficit h.string hsep hout hnot) (by simp)

/-- A 0 of a literal that ends the format would be missing. -/
theorem nul_differs {ts rest : List Token} {fmt out d : Text}
    (hclose : closeTokens ts = some (fmt, rest)) (hsep : Separated ts)
    (hout : outcome write (source rest) = some out) : out ≠ d ++ 0 :: expected write ts := by
  rintro rfl
  obtain ⟨pre, rfl, -⟩ := closeTokens_suffix hclose
  have hle := nul_count_le h.string h.noNul (separated_append hsep) hout
  rw [expected_append, List.count_append, List.count_cons_self, List.count_append] at hle
  omega

/-- A format made of tokens does not become what a `d{` and the tokens are to
write. -/
theorem format_differs {ts rest : List Token} {fmt out d : Text}
    (hclose : closeTokens ts = some (fmt, rest)) (hsep : Separated ts)
    (hout : outcome write (source rest) = some out) (hd : d ≠ [])
    (hchars : ∀ c ∈ d, c = 100 ∨ c = 123) :
    lib.expand 0 (cString fmt) ++ out ≠ d ++ expected write ts := by
  induction ts generalizing fmt d with
  | nil => cases hclose
  | cons tok ts ih =>
      have hrest := separated_of_cons hsep
      cases tok with
      | directive k f =>
          cases f with
          | none =>
              obtain ⟨x, -, hx⟩ := Option.map_eq_some_iff.mp hclose
              obtain rfl := congrArg Prod.fst hx
              exact conversion_differs hd hchars k x.1
          | some f =>
              obtain rfl := congrArg Prod.fst (Option.some.inj hclose)
              exact conversion_differs hd hchars k (123 :: f.val)
      | char c =>
          rw [closeTokens] at hclose
          split at hclose
          · rename_i hc
            obtain ⟨rfl, rfl⟩ := Prod.mk.inj (Option.some.inj hclose)
            intro heq
            rw [show cString [] = [] from rfl, expand_nil] at heq
            refine closed_differs h hrest hout hchars ?_
            simpa [expected, Token.written, hc] using heq
          · obtain ⟨⟨fmt', rest'⟩, hx, hg⟩ := Option.map_eq_some_iff.mp hclose
            obtain ⟨rfl, rfl⟩ := Prod.mk.inj hg
            by_cases hc : c = 37
            · subst hc
              exact percent_differs hd hchars fmt'
            · rw [show charSource c ++ fmt' = c :: fmt' by rw [charSource, if_neg hc]; rfl]
              intro heq
              by_cases hzero : c = 0
              · subst hzero
                rw [cString_nul, expand_nil] at heq
                exact nul_differs h hx hrest hout heq
              · -- the character is the next of the text, and is expected at its end
                obtain ⟨a, d, rfl⟩ := List.exists_cons_of_ne_nil hd
                rw [cString_cons hzero, expand_char lib hc] at heq
                obtain ⟨rfl, heq⟩ := List.cons.inj heq
                refine ih hx hrest (d := d ++ [c]) (by simp) ?_ ?_
                · intro b hb
                  rcases List.mem_append.mp hb with hb | hb
                  · exact hchars b (List.mem_cons_of_mem c hb)
                  · rw [List.mem_singleton.mp hb]
                    exact hchars c List.mem_cons_self
                · simpa [expected, Token.written] using heq

/-- A directive is written where its letter is expected. -/
theorem begun_differs {ts : List Token} {c : UInt8} {out : Text} (hc : c ≠ 37)
    (hsep : Separated ts) (hout : outcome write (37 :: source (.char c :: ts)) = some out) :
    c :: expected write ts ≠ out := by
  obtain ⟨k, fmt, rest, out', rfl, hout', rfl, htokens⟩ := outcome_begun h.string hc hout
  intro heq
  rcases h.differs k fmt with ⟨e, w, hw, hne⟩ | ⟨rfl, hfmt, hw⟩
  · rw [hw] at heq
    exact hne (List.cons.inj heq).1.symm
  · rcases htokens with ⟨hnil, -⟩ | ⟨ts', rfl, hclose⟩
    · exact hfmt hnil
    · rw [hw] at heq
      exact format_differs h hclose hsep hout' (d := [100, 123]) (List.cons_ne_nil _ _) (by simp)
        heq.symm

/-- What is expected has no more `%` in front than what is written, and is
written only if no literal has one. -/
theorem no_surplus {ts : List Token} {out : Text} {n : Nat} (hsep : Separated ts)
    (hout : outcome write (source ts) = some out)
    (heq : expected write ts = List.replicate n 37 ++ out) : n = 0 ∧ .char 37 ∉ ts := by
  induction ts generalizing out n with
  | nil =>
      obtain rfl := Option.some.inj hout
      have hnil := (List.append_eq_nil_iff.mp heq.symm).1
      exact ⟨by simpa using hnil, List.not_mem_nil⟩
  | cons tok ts ih =>
      have hrest := separated_of_cons hsep
      cases tok with
      | directive k fmt =>
          rw [outcome_token h.string hsep] at hout
          obtain ⟨out', hout', rfl⟩ := Option.map_eq_some_iff.mp hout
          obtain ⟨w, hperm, hw⟩ := append_rotate heq
          rw [List.perm_replicate.mp hperm] at hw
          obtain ⟨hn, hnone⟩ := ih hrest hout' hw
          exact ⟨hn, by simpa using hnone⟩
      | char c =>
          have hcons : c :: expected write ts = List.replicate n 37 ++ out := heq
          by_cases hc : c = 37
          · subst hc
            rw [source_percent, outcome_percent h.string] at hout
            obtain ⟨out', hout', rfl⟩ := Option.map_eq_some_iff.mp hout
            have htail : expected write ts = List.replicate n 37 ++ out' := by
              rw [List.append_cons, ← List.replicate_succ', List.replicate_succ,
                List.cons_append] at hcons
              exact (List.cons.inj hcons).2
            exfalso
            rcases front_cases ts with rfl | ⟨t, ht⟩ | ⟨d, ts', hd, rfl⟩
            · cases hout'
            · -- one `%` more is written than is expected
              obtain ⟨out'', hout'', rfl⟩ := outcome_again h.string ht hout'
              rw [List.append_cons, ← List.replicate_succ'] at htail
              exact absurd (ih hrest hout'' htail).1 (Nat.succ_ne_zero n)
            · have hletter : d :: expected write ts' = List.replicate n 37 ++ out' := htail
              cases n with
              | succ n => exact hd (List.cons.inj hletter).1
              | zero => exact begun_differs h hd (separated_of_cons hrest) hout' hletter
          · cases n with
            | succ n => exact absurd (List.cons.inj hcons).1 hc
            | zero =>
                rw [outcome_literal h.string hc] at hout
                obtain ⟨out', hout', rfl⟩ := Option.map_eq_some_iff.mp hout
                have htail := (List.cons.inj hcons).2
                obtain ⟨-, hnone⟩ := @ih out' 0 hrest hout' htail
                exact ⟨rfl, by simpa [Ne.symm hc] using hnone⟩

end Telling

/-! ## An event that tells -/

/-- Every text of this event is an `@`. -/
def atEvent : EventData where
  file := [64]
  line := 0
  elapse := 0
  threadId := 0
  fiberId := 0
  time := 0
  threadName := [64]
  ss := [64]
  loggerName := [64]

/-- Also what is left in the buffer is. -/
def atFormat (lib : Strftime) : FormatItem → Text :=
  FormatItem.format lib (fun _ => [64]) .DEBUG atEvent

/-- What the directives but the time write. -/
def atText : Directive → Text
  | .level => text "DEBUG"
  | .newLine => text "\n"
  | .tab => text "\t"
  | .elapse | .threadId | .fiberId | .line => [48]
  | _ => [64]

theorem numeral_zero : numeral 10 0 = [48] := by decide

theorem decimal_zero : decimal 0 = [48] := by decide

theorem atFormat_other (lib : Strftime) {k : Directive} (hk : k ≠ .dateTime) (fmt : Text) :
    atFormat lib (.directive k fmt) = atText k := by
  cases k with
  | dateTime => exact absurd rfl hk
  | elapse | threadId | fiberId => exact numeral_zero
  | line => exact decimal_zero
  | _ => rfl

theorem atText_differs (k : Directive) :
    0 ∉ atText k ∧ atText k ≠ [] ∧ (atText k).head? ≠ some (letter k) := by
  cases k <;> decide

/-- The time without a format begins with the year. -/
theorem expand_default (lib : Strftime) :
    ∃ d w, lib.expand 0 (cString (text "%Y-%m-%d %H:%M:%S")) = d :: w ∧ d ≠ 100 := by
  obtain ⟨d, w, hd, hne, -⟩ := expand_letter lib (c := 89) (by decide)
    (cString (text "-%m-%d %H:%M:%S"))
  exact ⟨d, w, hd, hne⟩

theorem atFormat_telling (lib : Strftime) : Telling lib (atFormat lib) where
  string _ := rfl
  noNul k fmt := by
    by_cases hk : k = .dateTime
    · subst hk
      show 0 ∉ dateTime lib (fun _ => [64]) 0 fmt
      rw [dateTime]
      generalize (if fmt = [] then text "%Y-%m-%d %H:%M:%S" else fmt) = format
      split
      · exact nul_not_mem_expand lib 0 (nul_not_mem_cString format)
      · decide
    · rw [atFormat_other lib hk]
      exact (atText_differs k).1
  differs k fmt := by
    by_cases hk : k = .dateTime
    · subst hk
      have hwritten : atFormat lib (.directive .dateTime fmt) =
          dateTime lib (fun _ => [64]) 0 fmt := rfl
      rw [hwritten, dateTime]
      by_cases hfmt : fmt = []
      · left
        rw [if_pos hfmt]
        split
        · exact expand_default lib
        · exact ⟨64, [], rfl, by decide⟩
      · rw [if_neg hfmt]
        split
        · exact .inr ⟨rfl, hfmt, rfl⟩
        · exact .inl ⟨64, [], rfl, by decide⟩
    · obtain ⟨-, hnil, hhead⟩ := atText_differs k
      obtain ⟨d, w, hw⟩ := List.exists_cons_of_ne_nil hnil
      rw [hw] at hhead
      left
      rw [atFormat_other lib hk]
      exact ⟨d, w, hw, fun heq => hhead (by rw [heq]; rfl)⟩

/-! ## The patterns that are parsed -/

/-- **Patterns**: the pattern of literals and directives has no error and
writes every event as they do, exactly if no literal has a `%`. -/
theorem pattern_parses_iff (lib : Strftime) (items : List Item) (h : WellFormed items) :
    Parses lib items ↔ ∀ s, .literal s ∈ items → 37 ∉ s := by
  have hsep := separated_tokens h
  rw [percent_tokens]
  constructor
  · rintro ⟨herror, hwritten⟩
    have htelling := atFormat_telling lib
    have hformat : (LogFormatter.new (pattern items)).items.flatMap (atFormat lib) =
        expected (atFormat lib) (tokens items) := by
      rw [expected_tokens htelling.string]
      exact hwritten (fun _ => [64]) .DEBUG atEvent
    have hout := outcome_eq_some.mpr ⟨herror, hformat⟩
    rw [← source_tokens] at hout
    exact (no_surplus (n := 0) htelling hsep hout rfl).2
  · intro hnone
    have hout : ∀ indeterminate level event,
        (LogFormatter.new (pattern items)).error = false ∧
          (LogFormatter.new (pattern items)).items.flatMap
            (FormatItem.format lib indeterminate level event) =
          items.flatMap fun i => i.item.format lib indeterminate level event := by
      intro indeterminate level event
      have hstring : ∀ s, FormatItem.format lib indeterminate level event (.string s) = s :=
        fun _ => rfl
      have hwritten := outcome_tokens hstring hsep hnone
      rw [source_tokens, expected_tokens hstring] at hwritten
      exact outcome_eq_some.mp hwritten
    exact ⟨(hout (fun _ => []) .DEBUG atEvent).1, fun indeterminate level event =>
      (hout indeterminate level event).2⟩

/-- Every conversion is a 0, but for `%%`. -/
def zeros : Strftime where
  conversion _ t :=
    match t with
    | [] => ([37], [])
    | c :: t => (if c = 37 then [37] else [48], t)
  rest _ t := by
    cases t with
    | nil => exact List.suffix_rfl
    | cons c t => exact List.suffix_cons c t
  noNul _ t := by
    cases t with
    | nil => decide
    | cons c t =>
        dsimp only
        split <;> decide
  percent _ _ := rfl
  starts := by
    intro c hc t
    have hall : (text "mprctndflTFNY").all (· ≠ 37) = true := by decide
    have hother : c ≠ 37 := of_decide_eq_true (List.all_eq_true.mp hall c hc)
    exact ⟨48, [], if_neg hother, by decide⟩

/-- `[%p]%T%m%n` -/
def levelAndMessage : List Item :=
  [.literal [91], .directive .level none, .literal [93], .directive .tab none,
    .directive .message none, .directive .newLine none]

theorem levelAndMessage_parses : Parses zeros levelAndMessage :=
  (pattern_parses_iff zeros levelAndMessage (by
    simp [levelAndMessage, WellFormed, Follows, isAlpha])).mpr (by simp [levelAndMessage])

/-- `100%%` is an error. -/
theorem percentSign_error : ¬∀ (lib : Strftime) (items : List Item), WellFormed items →
    Parses lib items := by
  intro hall
  have herror := (hall zeros [.literal (text "100%")] trivial).1
  revert herror
  decide

end Hps.Log
