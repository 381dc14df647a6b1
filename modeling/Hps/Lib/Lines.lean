import Mathlib.Data.List.Basic

/-!
# Texts of lines

A text whose lines end with `sep`: a first line, lines up to one that is blank,
and a body of any bytes behind it. Which lines count as blank is the caller's.
A reader of such a text finds the lines (`head`) and the body (`behind`) that
were put in, if none of the lines is blank, and another body otherwise
(`behind_eq_iff`).
-/

namespace Hps.Lib.Lines

variable {α : Type} {sep : α} {blank : List α → Bool}

section Reading

variable [BEq α] (sep blank)

/-- The lines behind the first one, up to one that is blank. -/
def head (t : List α) : List (List α) :=
  (t.splitOn sep).tail.takeWhile fun l => !blank l

/-- What stands behind the first blank line. -/
def behind (t : List α) : List α :=
  [sep].intercalate ((t.splitOn sep).tail.dropWhile fun l => !blank l).tail

/-- The lines of the pieces. -/
def linesOf (pieces : List (List α)) : List (List α) :=
  pieces.flatMap fun p => p.splitOn sep

/-- The lines of a text that was put together of a first line, lines, a blank
one and a body. -/
def Framed (t first : List α) (ls : List (List α)) (e body : List α) : Prop :=
  t.splitOn sep = first :: (ls ++ e :: body.splitOn sep)

end Reading

/-- The pieces, each with the end of a line behind it. -/
def ended (sep : α) (pieces : List (List α)) : List α :=
  pieces.flatMap fun p => p ++ [sep]

/-- Each piece is cut on its own. -/
theorem splitOn_ended [BEq α] [LawfulBEq α] (pieces : List (List α)) (rest : List α) :
    (ended sep pieces ++ rest).splitOn sep =
      linesOf sep pieces ++ rest.splitOn sep := by
  induction pieces with
  | nil => rfl
  | cons p pieces ih =>
      -- the end of the first piece is the first place where it may be cut
      have hcut : ended sep (p :: pieces) ++ rest =
          p ++ sep :: (ended sep pieces ++ rest) := by
        simp [ended]
      rw [hcut, List.splitOn_append_cons_self, ih, linesOf, linesOf,
        List.flatMap_cons, List.append_assoc]

/-- Joined, more lines are a longer text. -/
theorem length_intercalate_append (sep : α) (xs : List (List α)) {ls : List (List α)}
    (hls : ls ≠ []) :
    xs.length + ([sep].intercalate ls).length ≤
      ([sep].intercalate (xs ++ ls)).length := by
  induction xs with
  | nil => simp
  | cons x xs ih =>
      obtain ⟨l, rest, hrest⟩ := List.exists_cons_of_ne_nil
        (List.append_ne_nil_of_right_ne_nil xs hls)
      rw [hrest] at ih
      rw [List.cons_append, hrest, List.intercalate_cons_cons]
      simp only [List.length_append, List.length_cons, List.length_nil]
      omega

section Framed

variable [BEq α] {t first e body : List α} {ls : List (List α)}

theorem head_eq (h : Framed sep t first ls e body) (he : blank e = true)
    (hls : ∀ l ∈ ls, blank l = false) : head sep blank t = ls := by
  have hall : ∀ l ∈ ls, (!blank l) = true := fun l hl => by rw [hls l hl]; rfl
  rw [head, h, List.tail_cons, List.takeWhile_append_of_pos hall,
    List.takeWhile_cons_of_neg (by simp [he]), List.append_nil]

/-- **The body is found if and only if no line before it is blank.** -/
theorem behind_eq_iff [LawfulBEq α] (h : Framed sep t first ls e body) (he : blank e = true) :
    behind sep blank t = body ↔ ∀ l ∈ ls, blank l = false := by
  rw [behind, h, List.tail_cons]
  constructor
  · intro hbody l hl
    by_contra hblank
    -- what is found begins too early, with at least one line more
    obtain ⟨m, hm⟩ := Option.isSome_iff_exists.mp
      (List.find?_isSome.mpr ⟨l, hl, by simpa using hblank⟩)
    obtain ⟨hm, pre, post, hsplit, hpre⟩ := List.find?_eq_some_iff_append.mp hm
    rw [hsplit, List.append_assoc, List.cons_append,
      List.dropWhile_append_of_pos hpre, List.dropWhile_cons_of_neg (by simp [hm]),
      List.tail_cons] at hbody
    have hlen := length_intercalate_append sep (post ++ [e])
      (List.splitOn_ne_nil sep body)
    rw [List.append_assoc, List.singleton_append, hbody, List.intercalate_splitOn,
      List.length_append, List.length_singleton] at hlen
    omega
  · intro hls
    have hall : ∀ l ∈ ls, (!blank l) = true := fun l hl => by rw [hls l hl]; rfl
    rw [List.dropWhile_append_of_pos hall, List.dropWhile_cons_of_neg (by simp [he]),
      List.tail_cons, List.intercalate_splitOn]

/-- What is asked of the lines that are found and of the body, in terms of the
lines that were put in. -/
theorem framed_iff [LawfulBEq α] (h : Framed sep t first ls e body) (he : blank e = true)
    (ok : List α → Prop) :
    ((∀ l ∈ head sep blank t, ok l) ∧ behind sep blank t = body) ↔
      ∀ l ∈ ls, blank l = false ∧ ok l := by
  rw [behind_eq_iff h he]
  constructor
  · rintro ⟨hok, hls⟩ l hl
    rw [head_eq h he hls] at hok
    exact ⟨hls l hl, hok l hl⟩
  · intro hall
    have hls : ∀ l ∈ ls, blank l = false := fun l hl => (hall l hl).1
    rw [head_eq h he hls]
    exact ⟨fun l hl => (hall l hl).2, hls⟩

end Framed

end Hps.Lib.Lines
