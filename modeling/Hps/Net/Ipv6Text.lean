import Hps.Lib.Numerals
import Hps.Log.Model
import Hps.Net.Subnet

/-!
# Net — the text of an IPv6 address

`IPv6Address::insert` leaves the first run of zero groups out. Its text is a
literal that says which eight groups it has (`insert_readable`): the groups in
front of the run, those behind it, and as many zeros as are missing between
them.
-/

namespace Hps.Net

open Hps.Bytes (byteswap byteswap_byteswap)
open Hps.Lib.Numerals
open Hps.Log (Text text)

/-! ## Printing -/

/-- `((uint16_t *)s6_addr)[i]`: the byte with the higher index is the high
one. -/
def word (s : Bytes16) (i : Nat) : BitVec 16 := s.toList.getD (2 * i + 1) 0 ++ s.toList.getD (2 * i) 0

/-- `os << std::hex << (int)byteswapOnLittleEndian(w)` -/
def hexWord (w : BitVec 16) : Text := numeral 16 (byteswap 2 w).toNat

/-- A turn of the loop: the text so far, and `used_zeros`. -/
def insertStep (addr : Nat → BitVec 16) (st : Text × Bool) (i : Nat) : Text × Bool :=
  let (os, used_zeros) := st
  if addr i = 0 ∧ !used_zeros then (os, used_zeros)
  else
    let (os, used_zeros) :=
      if i ≠ 0 ∧ addr (i - 1) = 0 ∧ !used_zeros then (os ++ text ":", true) else (os, used_zeros)
    let os := if i ≠ 0 then os ++ text ":" else os
    (os ++ hexWord (addr i), used_zeros)

/-- `IPv6Address::insert`: what is written to the stream. -/
def IPv6Address.insert (a : IPv6Address) : Text :=
  let addr := word a.s6Addr
  let (os, used_zeros) := (List.range 8).foldl (insertStep addr) (text "[", false)
  let os := if !used_zeros ∧ addr 7 = 0 then os ++ text "::" else os
  os ++ text "]:" ++ numeral 10 (byteswap 2 a.sin6Port).toNat

/-! ## Reading -/

/-- A group has one to four hexadecimal digits. -/
def readGroup (t : Text) : Option Nat :=
  if t ≠ [] ∧ t.length ≤ 4 then readNumeral 16 t else none

/-- Groups with a colon between them. -/
def readGroups (t : Text) : Option (List Nat) :=
  if t = [] then some [] else (t.splitOn 58).mapM readGroup

/-- What stands before and behind the first `::`. -/
def cutDouble : Text → Option (Text × Text)
  | c :: d :: t =>
      if c = 58 ∧ d = 58 then some ([], t)
      else (cutDouble (d :: t)).map fun x => (c :: x.1, x.2)
  | _ => none

/-- The groups of a literal: eight, or fewer and a `::` that stands for the
zeros that are missing. -/
def readLiteral (t : Text) : Option (List Nat) :=
  match cutDouble t with
  | none => do
      let gs ← readGroups t
      if gs.length = 8 then some gs else none
  | some (l, r) => do
      let ls ← readGroups l
      let rs ← readGroups r
      if ls.length + rs.length < 8 then
        some (ls ++ List.replicate (8 - (ls.length + rs.length)) 0 ++ rs)
      else none

/-- The eight groups of an address, in network order. -/
def groups (s : Bytes16) : List Nat :=
  (List.range 8).map fun i => (s.toList.getD (2 * i) 0 ++ s.toList.getD (2 * i + 1) 0).toNat

/-! ## What was printed -/

/-- Groups with a colon between each two. -/
def joined (gs : List Nat) : Text := [58].intercalate (gs.map (numeral 16))

@[simp] theorem joined_nil : joined [] = [] := rfl

theorem joined_singleton (g : Nat) : joined [g] = numeral 16 g := by simp [joined]

theorem joined_cons_cons (g h : Nat) (gs : List Nat) :
    joined (g :: h :: gs) = numeral 16 g ++ 58 :: joined (h :: gs) := by
  simp [joined, List.intercalate_cons_cons]

theorem joined_concat {gs : List Nat} (hgs : gs ≠ []) (g : Nat) :
    joined (gs ++ [g]) = joined gs ++ 58 :: numeral 16 g := by
  induction gs with
  | nil => exact absurd rfl hgs
  | cons x gs ih =>
      cases gs with
      | nil => rw [List.singleton_append, joined_cons_cons, joined_singleton, joined_singleton]
      | cons y gs =>
          have htail : joined (y :: gs ++ [g]) = _ := ih (by simp)
          rw [List.cons_append, List.cons_append, joined_cons_cons, ← List.cons_append, htail,
            joined_cons_cons]
          simp

/-- The groups `gs` are behind the loop: the first of them that are zero were
passed over, and those before and behind them printed. -/
inductive Printed : List Nat → Text × Bool → Prop
  | before (as : List Nat) (n : Nat) : (∀ g ∈ as, g ≠ 0) →
      Printed (as ++ List.replicate n 0) (91 :: joined as, false)
  | behind (as bs : List Nat) (n : Nat) : 0 < n → bs ≠ [] →
      Printed (as ++ List.replicate n 0 ++ bs) (91 :: joined as ++ 58 :: 58 :: joined bs, true)

/-- The words in host order. -/
def groupOf (addr : Nat → BitVec 16) (i : Nat) : Nat := (byteswap 2 (addr i)).toNat

theorem hexWord_eq (addr : Nat → BitVec 16) (i : Nat) :
    hexWord (addr i) = numeral 16 (groupOf addr i) := rfl

theorem groupOf_eq_zero {addr : Nat → BitVec 16} {i : Nat} : groupOf addr i = 0 ↔ addr i = 0 := by
  constructor
  · intro h
    have hzero : byteswap 2 (addr i) = byteswap 2 0 := BitVec.eq_of_toNat_eq h
    rw [← byteswap_byteswap 2 (addr i), hzero]
    decide
  · intro h
    rw [groupOf, h]
    decide

variable {addr : Nat → BitVec 16} {gs : List Nat} {st : Text × Bool} {k : Nat}

/-- The group before the loop's index, if there is one. -/
theorem last_group {g : Nat} (h : (List.range k).map (groupOf addr) = gs ++ [g]) :
    k ≠ 0 ∧ groupOf addr (k - 1) = g := by
  cases k with
  | zero => simp at h
  | succ j =>
      rw [List.range_succ, List.map_append, List.map_singleton] at h
      have hlast := (List.append_inj' h rfl).2
      exact ⟨Nat.succ_ne_zero j, List.singleton_inj.mp hlast⟩

/-! The exits of a turn. -/

section Exits

variable {os : Text} {used : Bool}

theorem insertStep_pass (hk : addr k = 0) : insertStep addr (os, false) k = (os, false) := by
  simp [insertStep, hk]

theorem insertStep_first (hk : addr 0 ≠ 0) :
    insertStep addr (os, false) 0 = (os ++ hexWord (addr 0), false) := by
  simp only [insertStep, ne_eq, not_true_eq_false, false_and, if_false]
  rw [if_neg fun h => hk h.1]

theorem insertStep_double (hk : addr k ≠ 0) (h0 : k ≠ 0) (hlast : addr (k - 1) = 0) :
    insertStep addr (os, false) k = (os ++ 58 :: 58 :: hexWord (addr k), true) := by
  have hcolon : text ":" = [58] := by decide
  rw [insertStep, if_neg fun h => hk h.1]
  simp [hcolon, h0, hlast]

theorem insertStep_single (h0 : k ≠ 0) (hu : used = true ∨ addr k ≠ 0 ∧ addr (k - 1) ≠ 0) :
    insertStep addr (os, used) k = (os ++ 58 :: hexWord (addr k), used) := by
  have hcolon : text ":" = [58] := by decide
  rcases hu with rfl | ⟨hk, hlast⟩
  · simp [insertStep, hcolon, h0]
  · rw [insertStep, if_neg fun h => hk h.1, if_neg fun h => hlast h.2.1]
    simp [hcolon, h0]

end Exits

/-- A turn of the loop passes over a group, or prints it. -/
theorem insertStep_printed (h : Printed gs st) (hgs : (List.range k).map (groupOf addr) = gs) :
    Printed (gs ++ [groupOf addr k]) (insertStep addr st k) := by
  cases h with
  | before as n has =>
      by_cases hk : addr k = 0
      · rw [insertStep_pass hk, groupOf_eq_zero.mpr hk, List.append_assoc,
          ← List.replicate_succ']
        exact .before as (n + 1) has
      · cases n with
        | succ n =>
            rw [List.replicate_succ', ← List.append_assoc] at hgs
            obtain ⟨h0, hlast⟩ := last_group hgs
            rw [insertStep_double hk h0 (groupOf_eq_zero.mp hlast), hexWord_eq,
              ← joined_singleton]
            exact .behind as [groupOf addr k] (n + 1) n.succ_pos (List.cons_ne_nil _ _)
        | zero =>
            rw [List.replicate_zero, List.append_nil] at hgs ⊢
            have hnew : ∀ g ∈ as ++ [groupOf addr k], g ≠ 0 := by
              intro g hg
              rcases List.mem_append.mp hg with hg | hg
              · exact has g hg
              · rw [List.mem_singleton.mp hg]
                exact mt groupOf_eq_zero.mp hk
            have hprinted := Printed.before (as ++ [groupOf addr k]) 0 hnew
            rw [List.replicate_zero, List.append_nil] at hprinted
            rcases List.eq_nil_or_concat as with rfl | ⟨init, g, rfl⟩
            · have h0 : k = 0 := by simpa using hgs
              subst h0
              rw [insertStep_first hk, hexWord_eq, ← joined_singleton]
              exact hprinted
            · rw [List.concat_eq_append] at *
              obtain ⟨h0, hlast⟩ := last_group hgs
              have hg : addr (k - 1) ≠ 0 := by
                refine mt groupOf_eq_zero.mpr ?_
                rw [hlast]
                exact has g (by simp)
              rw [insertStep_single h0 (.inr ⟨hk, hg⟩), hexWord_eq]
              rw [joined_concat (by simp)] at hprinted
              exact hprinted
  | behind as bs n hn hbs =>
      rcases List.eq_nil_or_concat bs with rfl | ⟨init, g, rfl⟩
      · exact absurd rfl hbs
      · rw [List.concat_eq_append] at *
        rw [← List.append_assoc] at hgs
        rw [insertStep_single (last_group hgs).1 (.inl rfl), hexWord_eq]
        have hprinted := Printed.behind as (init ++ [g] ++ [groupOf addr k]) n hn (by simp)
        rw [joined_concat (by simp)] at hprinted
        simpa using hprinted

theorem insert_loop (k : Nat) : Printed ((List.range k).map (groupOf addr))
    ((List.range k).foldl (insertStep addr) (text "[", false)) := by
  induction k with
  | zero => exact .before [] 0 (by simp)
  | succ k ih =>
      rw [List.range_succ, List.map_append, List.map_singleton, List.foldl_concat]
      exact insertStep_printed ih rfl

/-- A text with these groups: all are there, or `::` stands for some zeros. -/
inductive Literal : List Nat → Text → Prop
  | whole (gs : List Nat) : Literal gs (joined gs)
  | cut (as bs : List Nat) (n : Nat) : 0 < n →
      Literal (as ++ List.replicate n 0 ++ bs) (joined as ++ 58 :: 58 :: joined bs)

theorem byteswap_append (lo hi : BitVec 8) : byteswap 2 (lo ++ hi) = hi ++ lo := by
  refine BitVec.eq_of_getLsbD_eq fun j hj => ?_
  rw [getLsbD_byteswap (n := 2) hj, BitVec.getLsbD_append, BitVec.getLsbD_append]
  by_cases hlow : j < 8
  · have hindex : 8 * (2 - 1 - j / 8) + j % 8 = j + 8 := by omega
    simp [hindex, hlow]
  · have hindex : 8 * (2 - 1 - j / 8) + j % 8 = j - 8 := by omega
    have hhigh : j - 8 < 8 := by omega
    simp [hindex, hlow, hhigh]

theorem groups_eq (s : Bytes16) : groups s = (List.range 8).map (groupOf (word s)) :=
  List.map_congr_left fun i _ => by
    rw [groupOf, word, byteswap_append]

/-- What is between the brackets. -/
theorem insert_literal (a : IPv6Address) : ∃ T, Literal (groups a.s6Addr) T ∧
    a.insert = text "[" ++ T ++ text "]:" ++ numeral 10 (byteswap 2 a.sin6Port).toNat := by
  have hloop := @insert_loop (word a.s6Addr) 8
  have hgs : (List.range 8).map (groupOf (word a.s6Addr)) = groups a.s6Addr :=
    (groups_eq a.s6Addr).symm
  have hdouble : text "::" = [58, 58] := by decide
  have hopen : text "[" = [91] := by decide
  rw [hgs] at hloop
  rw [IPv6Address.insert]
  generalize groups a.s6Addr = gs at *
  generalize (List.range 8).foldl (insertStep (word a.s6Addr)) (text "[", false) = st at *
  cases hloop with
  | behind as bs n hn hbs =>
      refine ⟨_, .cut as bs n hn, ?_⟩
      simp [hopen]
  | before as n has =>
      cases n with
      | succ n =>
          rw [List.replicate_succ', ← List.append_assoc] at hgs
          have hzero := groupOf_eq_zero.mp (last_group hgs).2
          have hcut := Literal.cut as [] (n + 1) n.succ_pos
          rw [List.append_nil, joined_nil] at hcut
          refine ⟨_, hcut, ?_⟩
          simp [hopen, hdouble, show word a.s6Addr 7 = 0 from hzero]
      | zero =>
          rw [List.replicate_zero, List.append_nil] at hgs ⊢
          have hne : ¬word a.s6Addr 7 = 0#16 := by
            rw [List.range_succ, List.map_append] at hgs
            exact mt groupOf_eq_zero.mpr (has (groupOf (word a.s6Addr) 7) (by simp [← hgs]))
          refine ⟨_, .whole as, ?_⟩
          simp [hopen, hne]

/-! ## Reading it back -/

/-- A colon is no digit. -/
theorem colon_not_mem (g : Nat) : 58 ∉ numeral 16 g := by
  intro h
  have hdigit := digitOf_of_mem (b := 16) (by decide) (by decide) h
  revert hdigit
  decide

theorem readGroup_numeral {g : Nat} (hg : g < 65536) : readGroup (numeral 16 g) = some g := by
  rw [readGroup, if_pos ⟨numeral_ne_nil 16 g, length_numeral_le (by decide) (by decide) hg⟩]
  exact readNumeral_numeral (by decide) (by decide) g

theorem joined_ne_nil {gs : List Nat} (hgs : gs ≠ []) : joined gs ≠ [] := by
  obtain ⟨g, gs, rfl⟩ := List.exists_cons_of_ne_nil hgs
  cases gs with
  | nil => rw [joined_singleton]; exact numeral_ne_nil 16 g
  | cons h gs => rw [joined_cons_cons]; simp

theorem readGroups_joined {gs : List Nat} (h : ∀ g ∈ gs, g < 65536) :
    readGroups (joined gs) = some gs := by
  by_cases hgs : gs = []
  · rw [hgs]
    rfl
  · have hcolon : ∀ t ∈ gs.map (numeral 16), 58 ∉ t := by
      intro t ht
      obtain ⟨g, -, rfl⟩ := List.mem_map.mp ht
      exact colon_not_mem g
    rw [readGroups, if_neg (joined_ne_nil hgs), joined,
      List.splitOn_intercalate 58 hcolon (by simpa using hgs), List.mapM_map]
    clear hcolon hgs
    induction gs with
    | nil => rfl
    | cons g gs ih =>
        obtain ⟨hg, htail⟩ := List.forall_mem_cons.mp h
        rw [List.mapM_cons, Function.comp_apply, readGroup_numeral hg, ih htail]
        rfl

/-- What stands before a `::` and has no colon is passed over. -/
theorem cutDouble_append {s : Text} (hs : 58 ∉ s) (t : Text) :
    cutDouble (s ++ t) = (cutDouble t).map fun x => (s ++ x.1, x.2) := by
  induction s with
  | nil => simp
  | cons c s ih =>
      have hc : c ≠ 58 := fun h => hs (by simp [h])
      have hrest := ih fun h => hs (List.mem_cons_of_mem c h)
      cases hst : s ++ t with
      | nil =>
          have ht : t = [] := (List.append_eq_nil_iff.mp hst).2
          rw [List.cons_append, hst, ht]
          rfl
      | cons d u =>
          rw [List.cons_append, hst, cutDouble, if_neg fun h => hc h.1, ← hst, hrest,
            Option.map_map]
          rfl

/-- A colon with another character behind it is passed over. -/
theorem cutDouble_colon {t : Text} (ht : t.head? ≠ some 58) :
    cutDouble (58 :: t) = (cutDouble t).map fun x => (58 :: x.1, x.2) := by
  cases t with
  | nil => rfl
  | cons d t =>
      rw [List.head?_cons] at ht
      rw [cutDouble, if_neg fun h => ht (by rw [h.2])]

theorem head_joined (g : Nat) (gs : List Nat) (t : Text) :
    (joined (g :: gs) ++ t).head? ≠ some 58 := by
  obtain ⟨u, hu⟩ : ∃ u, joined (g :: gs) = numeral 16 g ++ u := by
    cases gs with
    | nil => exact ⟨[], by rw [joined_singleton, List.append_nil]⟩
    | cons h gs => exact ⟨_, joined_cons_cons g h gs⟩
  obtain ⟨c, cs, hc⟩ := List.exists_cons_of_ne_nil (numeral_ne_nil 16 g)
  have hcolon := colon_not_mem g
  rw [hu, hc]
  intro h
  simp only [List.cons_append, List.head?_cons, Option.some.injEq] at h
  exact hcolon (by rw [hc, h]; exact List.mem_cons_self)

theorem cutDouble_joined_cons (g h : Nat) (gs : List Nat) (t : Text) :
    cutDouble (joined (g :: h :: gs) ++ t) = (cutDouble (joined (h :: gs) ++ t)).map
      fun x => (numeral 16 g ++ 58 :: x.1, x.2) := by
  rw [joined_cons_cons, List.append_assoc, cutDouble_append (colon_not_mem g), List.cons_append,
    cutDouble_colon (head_joined h gs t), Option.map_map]
  rfl

theorem cutDouble_joined (gs : List Nat) : cutDouble (joined gs) = none := by
  induction gs with
  | nil => rfl
  | cons g gs ih =>
      cases gs with
      | nil =>
          have hg := cutDouble_append (colon_not_mem g) []
          rw [List.append_nil] at hg
          rw [joined_singleton, hg]
          rfl
      | cons h gs =>
          have hcons := cutDouble_joined_cons g h gs []
          rw [List.append_nil, List.append_nil, ih] at hcons
          exact hcons

theorem cutDouble_joined_append (gs : List Nat) (r : Text) :
    cutDouble (joined gs ++ 58 :: 58 :: r) = some (joined gs, r) := by
  induction gs with
  | nil => rfl
  | cons g gs ih =>
      cases gs with
      | nil => 
          rw [joined_singleton, cutDouble_append (colon_not_mem g)]
          simp [cutDouble]
      | cons h gs => rw [cutDouble_joined_cons, ih, Option.map_some, joined_cons_cons]

/-- The rule for `::` gives the eight groups back. -/
theorem readLiteral_literal {gs : List Nat} {T : Text} (h : Literal gs T) (hlen : gs.length = 8)
    (hgs : ∀ g ∈ gs, g < 65536) : readLiteral T = some gs := by
  cases h with
  | whole =>
      rw [readLiteral, cutDouble_joined]
      simp [readGroups_joined hgs, hlen]
  | cut as bs n hn =>
      have has : ∀ g ∈ as, g < 65536 := fun g hg => hgs g (by simp [hg])
      have hbs : ∀ g ∈ bs, g < 65536 := fun g hg => hgs g (by simp [hg])
      simp only [List.length_append, List.length_replicate] at hlen
      have hmissing : 8 - (as.length + bs.length) = n := by omega
      have hfew : as.length + bs.length < 8 := by omega
      rw [readLiteral, cutDouble_joined_append]
      simp [readGroups_joined has, readGroups_joined hbs, hmissing, hfew]

theorem groups_lt {s : Bytes16} {g : Nat} (hg : g ∈ groups s) : g < 65536 := by
  obtain ⟨i, -, rfl⟩ := List.mem_map.mp hg
  exact BitVec.isLt _

theorem length_groups (s : Bytes16) : (groups s).length = 8 := by simp [groups]

theorem append_byte_inj {hi lo hi' lo' : BitVec 8} (h : hi ++ lo = hi' ++ lo') :
    hi = hi' ∧ lo = lo' := by
  have hhigh := congrArg (BitVec.extractLsb' 8 8) h
  have hlow := congrArg (BitVec.extractLsb' 0 8) h
  rw [BitVec.extractLsb'_append_eq_left, BitVec.extractLsb'_append_eq_left] at hhigh
  rw [BitVec.extractLsb'_append_eq_right, BitVec.extractLsb'_append_eq_right] at hlow
  exact ⟨hhigh, hlow⟩

/-- An address is its groups. -/
theorem groups_injective {s s' : Bytes16} (h : groups s = groups s') : s = s' := by
  have hwords : ∀ i < 8, s.toList.getD (2 * i) 0 = s'.toList.getD (2 * i) 0 ∧
      s.toList.getD (2 * i + 1) 0 = s'.toList.getD (2 * i + 1) 0 := by
    intro i hi
    have hword := List.map_inj_left.mp h i (List.mem_range.mpr hi)
    exact append_byte_inj (BitVec.eq_of_toNat_eq hword)
  refine Vector.ext fun j hj => ?_
  have hbyte : s.toList.getD j 0 = s'.toList.getD j 0 := by
    rcases Nat.even_or_odd' j with ⟨i, rfl | rfl⟩
    · exact (hwords i (by omega)).1
    · exact (hwords i (by omega)).2
  simpa [hj] using hbyte

theorem mem_joined {gs : List Nat} {c : UInt8} (hc : c ∈ joined gs) :
    c = 58 ∨ (digitOf c).isSome := by
  have hnumeral : ∀ g, c ∈ numeral 16 g → (digitOf c).isSome := fun g hg =>
    digitOf_of_mem (by decide) (by decide) hg
  induction gs with
  | nil => cases hc
  | cons g gs ih =>
      cases gs with
      | nil =>
          rw [joined_singleton] at hc
          exact .inr (hnumeral g hc)
      | cons h gs =>
          rw [joined_cons_cons, List.mem_append, List.mem_cons] at hc
          rcases hc with hg | rfl | htail
          · exact .inr (hnumeral g hg)
          · exact .inl rfl
          · exact ih htail

/-- No character between the brackets is a closing one. -/
theorem bracket_not_mem {gs : List Nat} {T : Text} (h : Literal gs T) : 93 ∉ T := by
  have hnot : ∀ gs, 93 ∉ joined gs := by
    intro gs hmem
    have hc := mem_joined hmem
    revert hc
    decide
  cases h with
  | whole => exact hnot gs
  | cut as bs n hn => simp [hnot]

/-- **The text of an IPv6 address**: what stands between the brackets is read as
the groups of the address, so that no two addresses are printed the same. -/
theorem insert_readable :
    (∀ a : IPv6Address, ∃ T, readLiteral T = some (groups a.s6Addr) ∧
      a.insert = text "[" ++ T ++ text "]:" ++ numeral 10 (byteswap 2 a.sin6Port).toNat) ∧
    Function.Injective IPv6Address.insert := by
  have hread : ∀ {a : IPv6Address} {T : Text}, Literal (groups a.s6Addr) T →
      readLiteral T = some (groups a.s6Addr) := fun h =>
    readLiteral_literal h (length_groups _) fun _ => groups_lt
  have hclose : text "]:" = [93, 58] := by decide
  refine ⟨fun a => ?_, fun a a' h => ?_⟩
  · obtain ⟨T, hT, hinsert⟩ := insert_literal a
    exact ⟨T, hread hT, hinsert⟩
  · obtain ⟨T, hT, hinsert⟩ := insert_literal a
    obtain ⟨T', hT', hinsert'⟩ := insert_literal a'
    rw [hinsert, hinsert', hclose] at h
    simp only [List.append_assoc, List.append_cancel_left_eq, List.cons_append,
      List.nil_append] at h
    have hdigits : 93 ∉ 58 :: numeral 10 (byteswap 2 a.sin6Port).toNat := by
      intro hmem
      rcases List.mem_cons.mp hmem with hc | hc
      · exact absurd hc (by decide)
      · have hdigit := digitOf_of_mem (by decide) (by decide) hc
        revert hdigit
        decide
    obtain ⟨hTT, -, htail⟩ := (List.append_cons_inj_of_notMem (bracket_not_mem hT) hdigits).mp h
    have haddr : a.s6Addr = a'.s6Addr := by
      have hgroups := hread hT
      rw [hTT, hread hT'] at hgroups
      exact groups_injective (Option.some.inj hgroups).symm
    have hport : a.sin6Port = a'.sin6Port := by
      have hswap := numeral_injective (by decide) (by decide) (List.cons.inj htail).2
      rw [← byteswap_byteswap 2 a.sin6Port, BitVec.eq_of_toNat_eq hswap,
        byteswap_byteswap]
    cases a
    cases a'
    exact congrArg₂ IPv6Address.mk hport haddr

end Hps.Net
