import Hps.Lib.Segments
import Hps.Log.Model
import Mathlib.Data.List.TakeWhile

/-!
# Net — host and service

`Address::Lookup` divides the text it is given into the node and the service
that `getaddrinfo` is asked for. It does so with two pointers into the text: the
second search leaves `service` where it found the first colon, also when a
second one follows and the whole text is the node, so that the text of an IPv6
address without brackets is looked up with a part of itself as the service
(`lookup_splits_iff`).
-/

namespace Hps.Net

open Hps.Lib.Segments (bne_of_not_mem)
open Hps.Log (Text cString)

/-! ## The code -/

/-- `memchr` from the text on: what the pointer that it returns points at. -/
def memchr (s : Text) (c : UInt8) : Option Text :=
  match s.dropWhile (· != c) with
  | [] => none
  | found => some found

/-- `host.substr(pos, p - host.c_str() - pos)` for a pointer at `p`. -/
def substrTo (host : Text) (pos : Nat) (p : Text) : Text :=
  (host.drop pos).take (host.length - p.length - pos)

/-- The first search, for an address between brackets. -/
def splitBrackets (host : Text) : Text × Option Text :=
  match host with
  | 91 :: rest =>
      match memchr rest 93 with
      | some endipv6 =>
          let service := if (endipv6.drop 1).headD 0 = 58 then some (endipv6.drop 2) else none
          (substrTo host 1 endipv6, service)
      | none => ([], none)
  | _ => ([], none)

/-- The second search, for a single colon. -/
def splitColon (host : Text) : Text × Option Text :=
  match memchr host 58 with
  | some service =>
      match memchr (service.drop 1) 58 with
      | none => (substrTo host 0 service, some (service.drop 1))
      | some _ => ([], some service)
  | none => ([], none)

/-- `node` and `service` at the call of `getaddrinfo`. -/
def nodeService (host : Text) : Text × Option Text :=
  let (node, service) := splitBrackets host
  let (node, service) := if node = [] then splitColon host else (node, service)
  let node := if node = [] then host else node
  (node, service)

/-- What `getaddrinfo` is asked for. -/
structure Query where
  node : Text
  service : Option Text
  aiFamily : Int
  aiSocktype : Int
  aiProtocol : Int
  deriving DecidableEq

/-- What `Lookup` did: the calls of `getaddrinfo`, and what it returned. -/
structure LookupRun (β : Type) where
  asked : List Query
  result : List β
  found : Bool

/-- `Address::Lookup`. The answer of `getaddrinfo` is a list of socket
addresses, or an error. -/
def lookup {α β : Type} (getaddrinfo : Query → Except Int (List α)) (create : α → β)
    (result : List β) (host : Text) (family type protocol : Int) : LookupRun β :=
  let (node, service) := nodeService host
  let query : Query := ⟨cString node, service.map cString, family, type, protocol⟩
  match getaddrinfo query with
  | .error _ => ⟨[query], result, false⟩
  | .ok results =>
      let result := result ++ results.map create
      ⟨[query], result, !result.isEmpty⟩

/-! ## The searches -/

section Searches

variable {a h s t host : Text} {c : UInt8}

theorem memchr_eq_none (hc : c ∉ s) : memchr s c = none := by
  rw [memchr, List.dropWhile_eq_nil_iff.mpr (bne_of_not_mem hc)]

theorem memchr_append (hc : c ∉ a) (t : Text) : memchr (a ++ c :: t) c = some (c :: t) := by
  rw [memchr, List.dropWhile_append_of_pos (bne_of_not_mem hc),
    List.dropWhile_cons_of_neg (by simp)]

theorem substrTo_append (b a p : Text) : substrTo (b ++ (a ++ p)) b.length p = a := by
  have hlen : (b ++ (a ++ p)).length - p.length - b.length = a.length := by
    simp only [List.length_append]
    omega
  rw [substrTo, hlen, List.drop_left, List.take_left]

/-- The text behind the first `c` is determined. -/
theorem eq_of_append_cons {a' t' : Text} (ha : c ∉ a) (ha' : c ∉ a')
    (heq : a ++ c :: t = a' ++ c :: t') : a = a' ∧ t = t' := by
  have htail := memchr_append ha t
  rw [heq, memchr_append ha'] at htail
  obtain rfl : t' = t := (List.cons.inj (Option.some.inj htail)).2
  exact ⟨List.append_cancel_right heq, rfl⟩

theorem splitBrackets_closed (ha : 93 ∉ a) (t : Text) :
    splitBrackets (91 :: a ++ 93 :: t) =
      (a, if t.headD 0 = 58 then some (t.drop 1) else none) := by
  have hfind := memchr_append ha t
  have hnode := substrTo_append [91] a (93 :: t)
  simp only [List.cons_append, List.nil_append] at hnode
  simp only [splitBrackets, List.cons_append, hfind]
  exact congrArg₂ Prod.mk hnode rfl

/-- The first search finds a node, or leaves both as they were. -/
theorem splitBrackets_cases (host : Text) :
    (∃ a t, a ≠ [] ∧ 93 ∉ a ∧ host = 91 :: a ++ 93 :: t) ∨ (splitBrackets host).1 = [] := by
  match host with
  | [] => exact .inr rfl
  | c :: rest =>
      by_cases hc : c = 91
      · subst hc
        by_cases hmem : 93 ∈ rest
        · obtain ⟨a, t, rfl, ha⟩ := List.eq_append_cons_of_mem hmem
          by_cases hnil : a = []
          · right
            rw [← List.cons_append, splitBrackets_closed ha, hnil]
          · exact .inl ⟨a, t, hnil, ha, rfl⟩
        · right
          simp only [splitBrackets, memchr_eq_none hmem]
      · right
        rw [splitBrackets]
        intro rest h
        exact hc (List.cons.inj h).1

theorem splitColon_none (h : 58 ∉ host) : splitColon host = ([], none) := by
  rw [splitColon, memchr_eq_none h]

theorem splitColon_one (hh : 58 ∉ h) (hs : 58 ∉ s) : splitColon (h ++ 58 :: s) = (h, some s) := by
  have hnode := substrTo_append [] h (58 :: s)
  rw [splitColon, memchr_append hh]
  simp only [List.drop_succ_cons, List.drop_zero, memchr_eq_none hs]
  exact congrArg₂ Prod.mk hnode rfl

/-- The pointer stays where the first colon is. -/
theorem splitColon_more (hh : 58 ∉ h) (hs : 58 ∈ s) :
    splitColon (h ++ 58 :: s) = ([], some (58 :: s)) := by
  obtain ⟨b, t, rfl, hb⟩ := List.eq_append_cons_of_mem hs
  rw [splitColon, memchr_append hh]
  simp only [List.drop_succ_cons, List.drop_zero, memchr_append hb]

theorem nodeService_closed (hnil : a ≠ []) (ha : 93 ∉ a) (t : Text) :
    nodeService (91 :: a ++ 93 :: t) =
      (a, if t.headD 0 = 58 then some (t.drop 1) else none) := by
  simp only [nodeService, splitBrackets_closed ha, hnil, if_false]

theorem nodeService_open (hopen : (splitBrackets host).1 = []) : nodeService host =
    (if (splitColon host).1 = [] then host else (splitColon host).1, (splitColon host).2) := by
  simp only [nodeService, hopen, if_true]

end Searches

/-! ## The division -/

/-- `[a]` or `[a]:s`. -/
def Bracketed (host : Text) : Prop :=
  ∃ a t, a ≠ [] ∧ 93 ∉ a ∧ host = 91 :: a ++ 93 :: t ∧ (t = [] ∨ ∃ s, t = 58 :: s)

/-- What `getaddrinfo` has to be asked for. -/
structure Splits (host : Text) (node : Text) (service : Option Text) : Prop where
  withService : ∀ a s, a ≠ [] → 93 ∉ a → host = 91 :: a ++ 93 :: 58 :: s →
    node = cString a ∧ service = some (cString s)
  noService : ∀ a, a ≠ [] → 93 ∉ a → host = 91 :: a ++ [93] → node = cString a ∧ service = none
  oneColon : ∀ h s, h ≠ [] → 58 ∉ h → 58 ∉ s → host = h ++ 58 :: s → ¬Bracketed host →
    node = cString h ∧ service = some (cString s)
  whole : host.head? ≠ some 91 → 58 ∉ host ∨ 2 ≤ host.count 58 →
    node = cString host ∧ service = none

/-- Two colons or more, and no bracket in front. -/
def Bare (host : Text) : Prop := host.head? ≠ some 91 ∧ 2 ≤ host.count 58

/-- Something that is no colon stands right behind the brackets, and there is
one colon. -/
def Trailing (host : Text) : Prop :=
  host.count 58 = 1 ∧
    ∃ a c t, a ≠ [] ∧ 93 ∉ a ∧ c ≠ 58 ∧ host = 91 :: a ++ 93 :: c :: t

section Division

variable {host : Text}

/-- The first colon, and how many there are. -/
theorem colon_cases (host : Text) : 58 ∉ host ∨
    ∃ h s, host = h ++ 58 :: s ∧ 58 ∉ h ∧ host.count 58 = s.count 58 + 1 := by
  by_cases hmem : 58 ∈ host
  · obtain ⟨h, s, rfl, hh⟩ := List.eq_append_cons_of_mem hmem
    refine .inr ⟨h, s, rfl, hh, ?_⟩
    rw [List.count_append, List.count_eq_zero.mpr hh, List.count_cons_self, Nat.zero_add]
  · exact .inl hmem

theorem head_of_open {a t : Text} (h : host = 91 :: a ++ t) : host.head? = some 91 := by
  rw [h]
  rfl

theorem bracketed_of_not_trailing {a t : Text} (hnil : a ≠ []) (ha : 93 ∉ a)
    (h : host = 91 :: a ++ 93 :: t) (hone : host.count 58 = 1) (htrailing : ¬Trailing host) :
    Bracketed host := by
  refine ⟨a, t, hnil, ha, h, ?_⟩
  cases t with
  | nil => exact .inl rfl
  | cons c t =>
      by_cases hc : c = 58
      · exact .inr ⟨t, by rw [hc]⟩
      · exact absurd ⟨hone, a, c, t, hnil, ha, hc, h⟩ htrailing

/-- `getaddrinfo` is asked for the right division. -/
def Divided (host : Text) : Prop :=
  Splits host (cString (nodeService host).1) ((nodeService host).2.map cString)

theorem divided_of_not (hbare : ¬Bare host) (htrailing : ¬Trailing host) : Divided host where
  withService := by
    rintro a s hnil ha rfl
    rw [nodeService_closed hnil ha]
    exact ⟨rfl, rfl⟩
  noService := by
    rintro a hnil ha rfl
    rw [nodeService_closed hnil ha]
    exact ⟨rfl, rfl⟩
  oneColon := by
    intro h s hnil hh hs heq hbracketed
    have hone : host.count 58 = 1 := by
      rw [heq, List.count_append, List.count_eq_zero.mpr hh, List.count_cons_self,
        List.count_eq_zero.mpr hs]
    rcases splitBrackets_cases host with ⟨a, t, hanil, ha, hclosed⟩ | hopen
    · exact absurd (bracketed_of_not_trailing hanil ha hclosed hone htrailing) hbracketed
    · rw [nodeService_open hopen, heq, splitColon_one hh hs, if_neg hnil]
      exact ⟨rfl, rfl⟩
  whole := by
    intro hhead hcolons
    have hfree : 58 ∉ host := hcolons.resolve_right fun hmany => hbare ⟨hhead, hmany⟩
    rcases splitBrackets_cases host with ⟨a, t, -, -, hclosed⟩ | hopen
    · exact absurd (head_of_open hclosed) hhead
    · rw [nodeService_open hopen, splitColon_none hfree]
      exact ⟨rfl, rfl⟩

theorem not_bare_of_divided (h : Divided host) : ¬Bare host := by
  rintro ⟨hhead, hmany⟩
  have hservice := (h.whole hhead (.inr hmany)).2
  rcases colon_cases host with hnot | ⟨b, s, heq, hb, hcount⟩
  · rw [List.count_eq_zero.mpr hnot] at hmany
    omega
  · have hs : 58 ∈ s := List.count_pos_iff.mp (by omega)
    rcases splitBrackets_cases host with ⟨a, t, -, -, hclosed⟩ | hopen
    · exact hhead (head_of_open hclosed)
    · rw [nodeService_open hopen, heq, splitColon_more hb hs] at hservice
      cases hservice

theorem not_trailing_of_divided (h : Divided host) : ¬Trailing host := by
  rintro ⟨hone, a, c, t, hnil, ha, hc, hclosed⟩
  have hbracketed : ¬Bracketed host := by
    rintro ⟨a', t', -, ha', hclosed', ht'⟩
    rw [hclosed] at hclosed'
    obtain ⟨-, rfl⟩ := eq_of_append_cons ha ha' (List.cons.inj hclosed').2
    rcases ht' with ht' | ⟨s, ht'⟩
    · cases ht'
    · exact hc (List.cons.inj ht').1
  rcases colon_cases host with hnot | ⟨b, s, heq, hb, hcount⟩
  · rw [List.count_eq_zero.mpr hnot] at hone
    cases hone
  · have hs : 58 ∉ s := List.count_eq_zero.mp (by omega)
    have hbnil : b ≠ [] := by
      rintro rfl
      rw [hclosed] at heq
      exact absurd (List.cons.inj heq).1 (by decide)
    have hservice := (h.oneColon b s hbnil hb hs heq hbracketed).2
    rw [hclosed, nodeService_closed hnil ha, List.headD_cons, if_neg hc] at hservice
    cases hservice

end Division

/-- **Host and service**: `getaddrinfo` is asked once, for the node and the
service of the text, exactly if the text is no bare address with two colons or
more, and nothing but a colon stands behind its brackets. -/
theorem lookup_splits_iff {α β : Type} (getaddrinfo : Query → Except Int (List α))
    (create : α → β) (result : List β) (host : Text) (family type protocol : Int) :
    (∃ node service, Splits host node service ∧
      (lookup getaddrinfo create result host family type protocol).asked =
        [⟨node, service, family, type, protocol⟩]) ↔ ¬Bare host ∧ ¬Trailing host := by
  have hasked : (lookup getaddrinfo create result host family type protocol).asked =
      [⟨cString (nodeService host).1, (nodeService host).2.map cString, family, type,
        protocol⟩] := by
    simp only [lookup]
    split <;> rfl
  rw [hasked]
  constructor
  · rintro ⟨node, service, hsplits, heq⟩
    simp only [List.cons.injEq, Query.mk.injEq, and_true] at heq
    obtain ⟨rfl, rfl⟩ := heq
    exact ⟨not_bare_of_divided hsplits, not_trailing_of_divided hsplits⟩
  · rintro ⟨hbare, htrailing⟩
    exact ⟨_, _, divided_of_not hbare htrailing, rfl⟩

/-- `::1` is looked up with the service `::1`. -/
theorem loopback_service : ¬∀ (getaddrinfo : Query → Except Int (List Unit))
    (create : Unit → Unit) (result : List Unit) (host : Text) (family type protocol : Int),
    ∃ node service, Splits host node service ∧
      (lookup getaddrinfo create result host family type protocol).asked =
        [⟨node, service, family, type, protocol⟩] := by
  intro hall
  obtain ⟨node, service, hsplits, hasked⟩ :=
    hall (fun _ => .error 0) id [] [58, 58, 49] 0 0 0
  obtain ⟨-, hservice⟩ := hsplits.whole (by decide) (.inr (by decide))
  rw [hservice] at hasked
  revert hasked
  simp [lookup, nodeService, splitBrackets, splitColon, memchr, cString]

end Hps.Net
