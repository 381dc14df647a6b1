import Hps.Http.Params

/-!
# HTTP — trimming

`StringUtil::TrimLeft` and `TrimRight` of `util.cc`, beside the `Trim` of the
cookies. `TrimRight` takes the position of the last character that it keeps for
the length of what it keeps, and loses that character: `trims_agree_iff`.
-/

namespace Hps.Http.StringUtil

open Hps.Lib Stripping

/-- `StringUtil::TrimLeft` -/
def trimLeft (str delimit : List UInt8) : List UInt8 :=
  match findFirstNotOf str delimit with
  | none => []
  | some first => (substr str first none).getD []

/-- `StringUtil::TrimRight` -/
def trimRight (str delimit : List UInt8) : List UInt8 :=
  match findLastNotOf str delimit with
  | none => []
  | some last => (substr str 0 (some last)).getD []

/-- Each of the two takes the delimiters off its end and nothing else, and one
after the other, in either order, they are `Trim`. -/
structure TrimsAgree (str delimit : List UInt8) : Prop where
  left : WithoutFront delimit.elem str (trimLeft str delimit)
  right : WithoutBack delimit.elem str (trimRight str delimit)
  trim_left : trim str delimit = trimLeft (trimRight str delimit) delimit
  trim_right : trim str delimit = trimRight (trimLeft str delimit) delimit

/-! ## What the functions return -/

variable {str delimit : List UInt8}

theorem trimLeft_eq (str delimit : List UInt8) :
    trimLeft str delimit = str.dropWhile delimit.elem := by
  cases hfirst : findFirstNotOf str delimit with
  | none =>
      rw [trimLeft, hfirst, List.dropWhile_eq_nil_iff.mpr (findFirstNotOf_eq_none_iff.mp hfirst)]
  | some first =>
      obtain ⟨hlt, hfront⟩ := dropWhile_of_first hfirst
      rw [trimLeft, hfirst, hfront]
      simp only [substr, if_pos hlt.le, Option.getD_some, Option.getD_none]
      exact List.take_of_length_le (by simp)

/-- The last character of what is to be kept is lost. -/
theorem trimRight_eq (str delimit : List UInt8) :
    trimRight str delimit = (str.rdropWhile delimit.elem).dropLast := by
  cases hlast : findLastNotOf str delimit with
  | none =>
      rw [trimRight, hlast, List.rdropWhile_eq_nil_iff.mpr (findLastNotOf_eq_none_iff.mp hlast)]
      rfl
  | some last =>
      obtain ⟨hlt, hback⟩ := rdropWhile_of_last hlast
      have hlen : (str.take (last + 1)).length = last + 1 := List.length_take_of_le hlt
      rw [trimRight, hlast, hback, List.dropLast_eq_take, hlen, List.take_take]
      simp [substr]

theorem trimLeft_trimRight (str delimit : List UInt8) :
    trimLeft (trimRight str delimit) delimit = (trim str delimit).dropLast := by
  rw [trimLeft_eq, trimRight_eq, dropWhile_dropLast, dropWhile_rdropWhile, trim_eq]

theorem trimRight_trimLeft (str delimit : List UInt8) :
    trimRight (trimLeft str delimit) delimit = (trim str delimit).dropLast := by
  rw [trimRight_eq, trimLeft_eq, trim_eq]

/-! ## Where they agree -/

/-- **Trimming.** The three functions do what they are asked exactly if the
string has nothing but delimiters. -/
theorem trims_agree_iff (str delimit : List UInt8) :
    TrimsAgree str delimit ↔ ∀ c ∈ str, c ∈ delimit := by
  constructor
  · intro h c hc
    have hright := withoutBack_iff.mp h.right
    rw [trimRight_eq] at hright
    -- a list without its last element is itself only if it has none
    have hlen := congrArg List.length hright
    rw [List.length_dropLast] at hlen
    have hnil : str.rdropWhile delimit.elem = [] := List.length_eq_zero_iff.mp (by omega)
    simpa using List.rdropWhile_eq_nil_iff.mp hnil c hc
  · intro h
    have hall : ∀ c ∈ str, delimit.elem c := by simpa using h
    have hback := List.rdropWhile_eq_nil_iff.mpr hall
    have htrim : trim str delimit = [] := by
      rw [trim_eq]
      exact stripped_eq_nil_iff.mpr hall
    refine ⟨withoutFront_iff.mpr (trimLeft_eq str delimit), ?_, ?_, ?_⟩
    · rw [withoutBack_iff, trimRight_eq, hback]
      rfl
    · rw [trimLeft_trimRight, htrim]
      rfl
    · rw [trimRight_trimLeft, htrim]
      rfl

/-- A cookie with a blank behind it. -/
theorem lastKept_lost :
    trimRight (text "a=1 ") (text " \t\r\n") = text "a=" ∧
      ¬TrimsAgree (text "a=1 ") (text " \t\r\n") := by
  refine ⟨by decide, ?_⟩
  intro h
  have hright := withoutBack_iff.mp h.right
  revert hright
  decide

end Hps.Http.StringUtil
