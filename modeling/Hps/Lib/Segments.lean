import Mathlib.Data.List.Basic

/-!
# Segments with a mark

A text whose segments end with `sep`; the segments that have a `mark` are a
name before the first one and a value behind it (`pairs`). A reader that looks
for the next mark, wherever it is, takes the segments before it that have none
for a part of the name (`fields`); it finds the same pairs if there are none
(`fields_clean`).
-/

namespace Hps.Lib.Segments

variable {α : Type}

/-- A segment with a mark, and the segments without one right before it, each
with its separator. -/
structure Marked (α : Type) where
  skipped : List α
  name : List α
  value : List α
  deriving DecidableEq

/-- What the segments have to say: the part before the first mark, and the
rest. -/
def Marked.pair (f : Marked α) : List α × List α := (f.name, f.value)

section Reading

variable [BEq α] (sep mark : α)

/-- The two parts of a segment, if it has a mark. -/
def cut (s : List α) : Option (List α × List α) :=
  if s.elem mark then
    some (s.takeWhile (· != mark), (s.dropWhile (· != mark)).tail)
  else none

/-- The pairs of a text, segment by segment. -/
def pairs (t : List α) : List (List α × List α) := (t.splitOn sep).filterMap (cut mark)

/-- The fields of the segments, of which `pend` was seen before. -/
def fieldsFrom : List α → List (List α) → List (Marked α)
  | _, [] => []
  | pend, s :: ss =>
      match cut mark s with
      | some p => ⟨pend, p.1, p.2⟩ :: fieldsFrom [] ss
      | none => fieldsFrom (pend ++ s ++ [sep]) ss

def fields (t : List α) : List (Marked α) := fieldsFrom sep mark [] (t.splitOn sep)

end Reading

section Facts

variable [BEq α] [LawfulBEq α] {sep mark : α}

theorem cut_eq_none {s : List α} (h : mark ∉ s) : cut mark s = none :=
  if_neg (by simpa using h)

/-- A search for the mark goes past a text without it. -/
theorem bne_of_not_mem {s : List α} (h : mark ∉ s) : ∀ c ∈ s, (c != mark) = true := by
  intro c hc
  rw [bne_iff_ne]
  rintro rfl
  exact h hc

theorem cut_append {a : List α} (h : mark ∉ a) (b : List α) :
    cut mark (a ++ mark :: b) = some (a, b) := by
  have hne := bne_of_not_mem h
  rw [cut, if_pos (by simp), List.takeWhile_append_of_pos hne, List.dropWhile_append_of_pos hne]
  simp

/-- A segment has no mark, or is cut at the first one. -/
theorem eq_of_cut (mark : α) (s : List α) :
    (mark ∉ s ∧ cut mark s = none) ∨
      ∃ a b, mark ∉ a ∧ s = a ++ mark :: b ∧ cut mark s = some (a, b) := by
  by_cases h : mark ∈ s
  · obtain ⟨a, b, rfl, ha⟩ := List.eq_append_cons_of_mem h
    exact .inr ⟨a, b, ha, rfl, cut_append ha b⟩
  · exact .inl ⟨h, cut_eq_none h⟩

/-- No segment has a separator. -/
theorem not_mem_of_mem_splitOn {t s : List α} (h : s ∈ t.splitOn sep) : sep ∉ s := by
  induction t generalizing s with
  | nil =>
      rw [List.splitOn_nil, List.mem_singleton] at h
      rw [h]
      exact List.not_mem_nil
  | cons c t ih =>
      rw [List.splitOn_cons_eq_if_modifyHead] at h
      split at h
      · rcases List.mem_cons.mp h with rfl | h
        · exact List.not_mem_nil
        · exact ih h
      · rename_i hc
        obtain ⟨l, ls, hls⟩ := List.exists_cons_of_ne_nil (List.splitOn_ne_nil sep t)
        rw [hls, List.modifyHead_cons] at h
        rcases List.mem_cons.mp h with rfl | h
        · have hl : sep ∉ l := ih (by rw [hls]; exact List.mem_cons_self)
          intro hmem
          rcases List.mem_cons.mp hmem with rfl | hmem
          · exact hc (beq_self_eq_true _)
          · exact hl hmem
        · exact ih (by rw [hls]; exact List.mem_cons_of_mem l h)

/-- What stands in a field: whole segments before it, and a name that is a part
of one. -/
theorem mem_fieldsFrom {pend : List α} {ss : List (List α)} (hpend : pend = [] ∨ sep ∈ pend)
    (hss : ∀ s ∈ ss, sep ∉ s) {f : Marked α} (hf : f ∈ fieldsFrom sep mark pend ss) :
    (f.skipped = [] ∨ sep ∈ f.skipped) ∧ sep ∉ f.name := by
  induction ss generalizing pend with
  | nil => cases hf
  | cons s ss ih =>
      obtain ⟨hs, htail⟩ := List.forall_mem_cons.mp hss
      rw [fieldsFrom] at hf
      rcases eq_of_cut mark s with ⟨-, hcut⟩ | ⟨a, b, -, rfl, hcut⟩
      · rw [hcut] at hf
        exact ih (.inr (by simp)) htail hf
      · rw [hcut] at hf
        rcases List.mem_cons.mp hf with rfl | hf
        · exact ⟨hpend, fun ha => hs (List.mem_append_left _ ha)⟩
        · exact ih (.inl rfl) htail hf

theorem mem_fields {t : List α} {f : Marked α} (hf : f ∈ fields sep mark t) :
    (f.skipped = [] ∨ sep ∈ f.skipped) ∧ sep ∉ f.name :=
  mem_fieldsFrom (.inl rfl) (fun _ => not_mem_of_mem_splitOn) hf

/-- The segments without a mark at the end make no field. -/
theorem fieldsFrom_unmarked {pend : List α} {ss : List (List α)} (h : ∀ s ∈ ss, mark ∉ s) :
    fieldsFrom sep mark pend ss = [] := by
  induction ss generalizing pend with
  | nil => rfl
  | cons s ss ih =>
      obtain ⟨hs, hss⟩ := List.forall_mem_cons.mp h
      rw [fieldsFrom, cut_eq_none hs]
      exact ih hss

/-- If no segment without a mark stands before one that has it, nothing is
skipped. -/
theorem fields_clean {t : List α} {as bs : List (List α)} (h : t.splitOn sep = as ++ bs)
    (has : ∀ a ∈ as, mark ∈ a) (hbs : ∀ b ∈ bs, mark ∉ b) :
    ∀ f ∈ fields sep mark t, f.skipped = [] := by
  rw [fields, h]
  clear h
  induction as with
  | nil =>
      intro f hf
      rw [List.nil_append, fieldsFrom_unmarked hbs] at hf
      cases hf
  | cons a as ih =>
      obtain ⟨ha, htail⟩ := List.forall_mem_cons.mp has
      intro f hf
      rw [List.cons_append, fieldsFrom] at hf
      rcases eq_of_cut mark a with ⟨hnot, -⟩ | ⟨n, v, -, rfl, hcut⟩
      · exact absurd ha hnot
      · rw [hcut] at hf
        rcases List.mem_cons.mp hf with rfl | hf
        · rfl
        · exact ih htail f hf

end Facts

section Pairs

variable [BEq α] {sep mark : α}

theorem fieldsFrom_pair (pend : List α) (ss : List (List α)) :
    (fieldsFrom sep mark pend ss).map Marked.pair = ss.filterMap (cut mark) := by
  induction ss generalizing pend with
  | nil => rfl
  | cons s ss ih =>
      rw [fieldsFrom]
      cases hs : cut mark s with
      | none => rw [List.filterMap_cons_none hs, ih]
      | some p =>
          rw [List.filterMap_cons_some hs, List.map_cons, ih]
          rfl

/-- The names and values of the fields are those of the segments. -/
theorem fields_pair (t : List α) : (fields sep mark t).map Marked.pair = pairs sep mark t :=
  fieldsFrom_pair [] (t.splitOn sep)

end Pairs

end Hps.Lib.Segments
