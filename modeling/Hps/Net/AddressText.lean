import Hps.Net.Ipv6Text
import Hps.Net.Lookup

/-!
# Net — an address as text, and its lookup

`Address::toString` prints the host and the port, and `Address::Lookup` takes
them apart for `getaddrinfo`. An address that was printed is looked up as the
address that it was, exactly if it has no scope and no flow, which the text
does not have (`lookup_toString_iff`).
-/

namespace Hps.Net.AddressText

open Hps.Bytes (byteswap byteswap_byteswap)
open Hps.Lib.Numerals
open Hps.Log (Text text cString)

/-! ## The code -/

/-- All of a `sockaddr_in6`. -/
structure SockaddrIn6 extends IPv6Address where
  sin6Flowinfo : BitVec 32 := 0
  sin6ScopeId : BitVec 32 := 0
  deriving DecidableEq

/-- A `sockaddr`, by its `sa_family`. -/
inductive Sockaddr where
  | in4 (addr : IPv4Address)
  | in6 (addr : SockaddrIn6)
  | other (saFamily : BitVec 16)
  deriving DecidableEq

inductive Address where
  | IPv4Address (addr : IPv4Address)
  | IPv6Address (addr : SockaddrIn6)
  | UnknownAddress (saFamily : BitVec 16)
  deriving DecidableEq

/-- `IPv4Address::insert` -/
def insert4 (a : IPv4Address) : Text :=
  let addr := byteswapOnLittleEndian a.sAddr
  numeral 10 ((addr >>> 24) &&& 0xff#32).toNat ++ text "." ++
    numeral 10 ((addr >>> 16) &&& 0xff#32).toNat ++ text "." ++
    numeral 10 ((addr >>> 8) &&& 0xff#32).toNat ++ text "." ++
    numeral 10 (addr &&& 0xff#32).toNat ++ text ":" ++ numeral 10 (byteswap 2 a.sinPort).toNat

namespace Address

/-- `toString`, by the class's `insert`. -/
def toString : Address → Text
  | IPv4Address a => insert4 a
  | IPv6Address a => a.insert
  | UnknownAddress family =>
      text "[UnknownAddress family=" ++ numeral 10 family.toNat ++ text "]"

/-- `dynamic_pointer_cast<IPAddress>` -/
def isIP : Address → Bool
  | UnknownAddress _ => false
  | _ => true

/-- `Address::Create`; the pointer may be null. -/
def create : Option Sockaddr → Option Address
  | none => none
  | some (.in4 addr) => some (IPv4Address addr)
  | some (.in6 addr) => some (IPv6Address addr)
  | some (.other family) => some (UnknownAddress family)

variable (getaddrinfo : Query → Except Int (List (Option Sockaddr))) (host : Text)
  (family type protocol : Int)

def lookupAny : Option Address :=
  let run := lookup getaddrinfo create [] host family type protocol
  if run.found then run.result.head?.join else none

def lookupAnyIPAddress : Option Address :=
  let run := lookup getaddrinfo create [] host family type protocol
  if run.found then run.result.findSome? (·.filter isIP) else none

end Address

/-! ## What `getaddrinfo` reads -/

/-- A number of one to three digits that begins with no zero, and is less than
256. -/
def readOctet (t : Text) : Option Nat :=
  if t ≠ [] ∧ t.length ≤ 3 ∧ (t.head? = some 48 → t.length = 1) then
    (readNumeral 10 t).filter (· < 256)
  else none

/-- Four of them, with dots between them. -/
def readDotted (t : Text) : Option (List Nat) :=
  if t.all fun c => decimalDigit c || c == 46 then
    ((t.splitOn 46).mapM readOctet).filter (·.length = 4)
  else none

/-- A decimal port. -/
def readPort (t : Text) : Option Nat :=
  if t.all decimalDigit ∧ t ≠ [] ∧ (t.head? = some 48 → t.length = 1) then
    (readNumeral 10 t).filter (· < 65536)
  else none

/-- The bytes of an address, in network order. -/
def octets (a : IPv4Address) : List Nat :=
  [24, 16, 8, 0].map fun i => ((byteswapOnLittleEndian a.sAddr >>> i) &&& 0xff#32).toNat

def AF_UNSPEC : Int := 0

def AF_INET : Int := 2

def AF_INET6 : Int := 10

/-- The types that every host has sockets of: any, `SOCK_STREAM` and
`SOCK_DGRAM`. -/
def socktypes : List Int := [0, 1, 2]

/-- **What `getaddrinfo` does with numbers**: for a numeric host and a decimal
service it answers with this address and this port, once or more. -/
structure Numeric (getaddrinfo : Query → Except Int (List (Option Sockaddr))) : Prop where
  in4 : ∀ q os service port, readDotted q.node = some os → q.service = some service →
    readPort service = some port → (q.aiFamily = AF_UNSPEC ∨ q.aiFamily = AF_INET) →
    q.aiSocktype ∈ socktypes → q.aiProtocol = 0 → ∃ rs, getaddrinfo q = .ok rs ∧ rs ≠ [] ∧
      ∀ r ∈ rs, ∃ a, r = some (.in4 a) ∧ octets a = os ∧ (byteswap 2 a.sinPort).toNat = port
  in6 : ∀ q gs service port, readLiteral q.node = some gs → q.service = some service →
    readPort service = some port → (q.aiFamily = AF_UNSPEC ∨ q.aiFamily = AF_INET6) →
    q.aiSocktype ∈ socktypes → q.aiProtocol = 0 → ∃ rs, getaddrinfo q = .ok rs ∧ rs ≠ [] ∧
      ∀ r ∈ rs, ∃ a, r = some (.in6 a) ∧ groups a.s6Addr = gs ∧
        (byteswap 2 a.sin6Port).toNat = port ∧ a.sin6Flowinfo = 0 ∧ a.sin6ScopeId = 0

/-! ## Numbers in text -/

theorem readOctet_numeral {n : Nat} (hn : n < 256) : readOctet (numeral 10 n) = some n := by
  have hlength : (numeral 10 n).length ≤ 3 :=
    length_numeral_le (by decide) (by decide) (by omega)
  rw [readOctet, if_pos ⟨numeral_ne_nil 10 n, hlength, length_of_head (by decide) (by decide)⟩,
    readNumeral_numeral (by decide) (by decide)]
  simp [hn]

theorem readPort_numeral {n : Nat} (hn : n < 65536) : readPort (numeral 10 n) = some n := by
  have hdigits : (numeral 10 n).all decimalDigit = true :=
    List.all_eq_true.mpr fun _ => decimal_of_mem
  rw [readPort, if_pos ⟨hdigits, numeral_ne_nil 10 n, length_of_head (by decide) (by decide)⟩,
    readNumeral_numeral (by decide) (by decide)]
  simp [hn]

/-- The four numbers that `insert` prints. -/
def dotted (os : List Nat) : Text := [46].intercalate (os.map (numeral 10))

theorem mem_dotted {os : List Nat} {c : UInt8} (hc : c ∈ dotted os) :
    decimalDigit c = true ∨ c = 46 := by
  induction os with
  | nil => cases hc
  | cons o os ih =>
      cases os with
      | nil =>
          rw [dotted, List.map_singleton, List.intercalate_singleton] at hc
          exact .inl (decimal_of_mem hc)
      | cons p os =>
          rw [dotted, List.map_cons, List.map_cons, List.intercalate_cons_cons, List.mem_append,
            List.mem_append, List.mem_singleton] at hc
          rcases hc with (ho | hdot) | hrest
          · exact .inl (decimal_of_mem ho)
          · exact .inr hdot
          · exact ih hrest

theorem mapM_readOctet {os : List Nat} (h : ∀ o ∈ os, o < 256) :
    (os.map (numeral 10)).mapM readOctet = some os := by
  rw [List.mapM_map]
  induction os with
  | nil => rfl
  | cons o os ih =>
      obtain ⟨ho, hrest⟩ := List.forall_mem_cons.mp h
      rw [List.mapM_cons, Function.comp_apply, readOctet_numeral ho, ih hrest]
      rfl

theorem readDotted_dotted {os : List Nat} (h : ∀ o ∈ os, o < 256) (hlen : os.length = 4) :
    readDotted (dotted os) = some os := by
  have hdot : ∀ t ∈ os.map (numeral 10), 46 ∉ t := by
    intro t ht
    obtain ⟨o, -, rfl⟩ := List.mem_map.mp ht
    exact not_mem_numeral (by decide) (by decide) (by decide) o
  have hne : os.map (numeral 10) ≠ [] := by
    intro hnil
    rw [List.map_eq_nil_iff.mp hnil] at hlen
    cases hlen
  have hall : (dotted os).all (fun c => decimalDigit c || c == 46) = true := by
    refine List.all_eq_true.mpr fun c hc => ?_
    rw [Bool.or_eq_true, beq_iff_eq]
    exact mem_dotted hc
  rw [readDotted, if_pos hall, dotted, List.splitOn_intercalate 46 hdot hne, mapM_readOctet h]
  simp [hlen]

/-! ## The parts of a printed address -/

section Octets

variable (a : IPv4Address)

theorem octets_lt : ∀ o ∈ octets a, o < 256 := by
  intro o ho
  obtain ⟨i, -, rfl⟩ := List.mem_map.mp ho
  rw [BitVec.toNat_and]
  exact Nat.lt_of_le_of_lt Nat.and_le_right (by decide)

theorem insert4_eq : insert4 a =
    dotted (octets a) ++ 58 :: numeral 10 (byteswap 2 a.sinPort).toNat := by
  have hdot : text "." = [46] := by decide
  have hcolon : text ":" = [58] := by decide
  simp [insert4, dotted, octets, hdot, hcolon, List.intercalate]

theorem octet_eq (x : BitVec 32) (i : Nat) :
    ((x >>> i) &&& 0xff#32).toNat = x.toNat / 2 ^ i % 256 := by
  have hmask : (0xff#32).toNat = 2 ^ 8 - 1 := rfl
  rw [BitVec.toNat_and, hmask, Nat.and_two_pow_sub_one_eq_mod, BitVec.toNat_ushiftRight,
    Nat.shiftRight_eq_div_pow]

/-- An address is its bytes. -/
theorem octets_injective {a b : IPv4Address} (h : octets a = octets b) : a.sAddr = b.sAddr := by
  simp only [octets, List.map_cons, List.map_nil, octet_eq, List.cons.injEq, and_true] at h
  have hx := (byteswapOnLittleEndian a.sAddr).isLt
  have hy := (byteswapOnLittleEndian b.sAddr).isLt
  have hsame : byteswapOnLittleEndian a.sAddr = byteswapOnLittleEndian b.sAddr :=
    BitVec.eq_of_toNat_eq (by omega)
  rw [← byteswapOnLittleEndian_swap a.sAddr, hsame, byteswapOnLittleEndian_swap]

end Octets

/-- What has no zero in it is passed whole. -/
theorem cString_of_not_mem {t : Text} (h : 0 ∉ t) : cString t = t :=
  List.takeWhile_eq_self_iff.mpr (Hps.Lib.Segments.bne_of_not_mem h)

theorem cString_numeral (n : Nat) : cString (numeral 10 n) = numeral 10 n :=
  cString_of_not_mem (not_mem_numeral (by decide) (by decide) (by decide) n)

/-- The node and the service of a printed IPv4 address. -/
theorem nodeService_insert4 (a : IPv4Address) : nodeService (insert4 a) =
    (dotted (octets a), some (numeral 10 (byteswap 2 a.sinPort).toNat)) := by
  have hnot : ∀ {c : UInt8}, c ≠ 46 → decimalDigit c = false → c ∉ dotted (octets a) := by
    intro c hdot hdigit hc
    rcases mem_dotted hc with h | h
    · rw [hdigit] at h
      cases h
    · exact hdot h
  have hport : 58 ∉ numeral 10 (byteswap 2 a.sinPort).toNat :=
    not_mem_numeral (by decide) (by decide) (by decide) _
  have hne : dotted (octets a) ≠ [] := by
    intro hnil
    have hread := readDotted_dotted (octets_lt a) rfl
    rw [hnil] at hread
    cases hread
  have hopen : (splitBrackets (insert4 a)).1 = [] := by
    rcases splitBrackets_cases (insert4 a) with ⟨x, t, -, -, hx⟩ | h
    · have hmem : 91 ∈ dotted (octets a) ++ 58 :: numeral 10 (byteswap 2 a.sinPort).toNat := by
        rw [← insert4_eq, hx]
        simp
      have hdigit : 91 ∉ numeral 10 (byteswap 2 a.sinPort).toNat :=
        not_mem_numeral (by decide) (by decide) (by decide) _
      simp [hdigit, hnot (c := 91) (by decide) (by decide)] at hmem
    · exact h
  rw [nodeService_open hopen, insert4_eq,
    splitColon_one (hnot (by decide) (by decide)) hport, if_neg hne]

/-- No literal has a zero byte in it. -/
theorem zero_not_mem {gs : List Nat} {T : Text} (h : Literal gs T) : 0 ∉ T := by
  have hnot : ∀ gs, 0 ∉ joined gs := by
    intro gs hmem
    have hc := mem_joined hmem
    revert hc
    decide
  cases h with
  | whole => exact hnot gs
  | cut as bs n hn => simp [hnot]

/-- The node and the service of a printed IPv6 address. -/
theorem nodeService_insert6 (a : IPv6Address) : ∃ T, readLiteral T = some (groups a.s6Addr) ∧
    0 ∉ T ∧ nodeService a.insert = (T, some (numeral 10 (byteswap 2 a.sin6Port).toNat)) := by
  obtain ⟨T, hT, hinsert⟩ := insert_literal a
  have hread := readLiteral_literal hT (length_groups _) fun _ => groups_lt
  have hopen : text "[" = [91] := by decide
  have hclose : text "]:" = [93, 58] := by decide
  have hne : T ≠ [] := by
    rintro rfl
    cases hread
  have hhost : a.insert =
      91 :: T ++ 93 :: 58 :: numeral 10 (byteswap 2 a.sin6Port).toNat := by
    rw [hinsert, hopen, hclose]
    simp
  refine ⟨T, hread, zero_not_mem hT, ?_⟩
  rw [hhost, nodeService_closed hne (bracket_not_mem hT)]
  rfl

/-! ## Looking up what was printed -/

/-- The family that is asked for is that of the address, or any. -/
def Address.Fits (family : Int) : Address → Prop
  | IPv4Address _ => family = AF_UNSPEC ∨ family = AF_INET
  | IPv6Address _ => family = AF_UNSPEC ∨ family = AF_INET6
  | UnknownAddress _ => False

/-- The address has nothing that its text does not have. -/
def Address.Plain : Address → Prop
  | IPv6Address a => a.sin6Flowinfo = 0 ∧ a.sin6ScopeId = 0
  | _ => True

section Looking

variable {getaddrinfo : Query → Except Int (List (Option Sockaddr))} {family type : Int}

/-- The lookups, if all answers are the same one. -/
theorem lookups_of_answers (host : Text) {rs : List (Option Sockaddr)} {x : Sockaddr}
    (hask : getaddrinfo ⟨cString (nodeService host).1, (nodeService host).2.map cString, family,
      type, 0⟩ = .ok rs) (hne : rs ≠ []) (hall : ∀ r ∈ rs, r = some x) :
    Address.lookupAny getaddrinfo host family type 0 = Address.create (some x) ∧
    Address.lookupAnyIPAddress getaddrinfo host family type 0 =
      (Address.create (some x)).filter Address.isIP := by
  obtain ⟨r, rest, rfl⟩ := List.exists_cons_of_ne_nil hne
  obtain ⟨rfl, hrest⟩ := List.forall_mem_cons.mp hall
  have hlookup : lookup getaddrinfo Address.create [] host family type 0 =
      ⟨[⟨cString (nodeService host).1, (nodeService host).2.map cString, family, type, 0⟩],
        Address.create (some x) :: rest.map Address.create, true⟩ := by
    simp only [lookup, hask]
    rfl
  refine ⟨?_, ?_⟩
  · rw [Address.lookupAny, hlookup]
    rfl
  · rw [Address.lookupAnyIPAddress, hlookup]
    show ((Address.create (some x) :: rest.map Address.create).findSome?
      (·.filter Address.isIP)) = _
    rw [List.findSome?_cons]
    cases hfilter : (Address.create (some x)).filter Address.isIP with
    | some y => rfl
    | none =>
        refine List.findSome?_eq_none_iff.mpr fun y hy => ?_
        obtain ⟨r, hr, rfl⟩ := List.mem_map.mp hy
        rw [hrest r hr]
        exact hfilter

theorem port_injective {x y : BitVec 16} (h : (byteswap 2 x).toNat = (byteswap 2 y).toNat) :
    x = y := by
  rw [← byteswap_byteswap 2 x, BitVec.eq_of_toNat_eq h, byteswap_byteswap]

theorem eq_of_parts4 {a b : IPv4Address} (hport : b.sinPort = a.sinPort)
    (haddr : b.sAddr = a.sAddr) : b = a := by
  cases a
  cases b
  simp_all

theorem eq_of_parts6 {a b : IPv6Address} (hport : b.sin6Port = a.sin6Port)
    (haddr : b.s6Addr = a.s6Addr) : b = a := by
  cases a
  cases b
  simp_all

/-- **A printed address is looked up as itself**, for a type of socket that every
host has and its family or any, exactly if it has no flow and no scope. -/
theorem lookup_toString_iff (h : Numeric getaddrinfo) {a : Address} (hf : a.Fits family)
    (ht : type ∈ socktypes) :
    (Address.lookupAny getaddrinfo a.toString family type 0 = some a ∧
      Address.lookupAnyIPAddress getaddrinfo a.toString family type 0 = some a) ↔ a.Plain := by
  cases a with
  | UnknownAddress => exact hf.elim
  | IPv4Address a =>
      have hnode := nodeService_insert4 a
      have hzero : 0 ∉ dotted (octets a) := by
        intro hc
        have hdigit := mem_dotted hc
        revert hdigit
        decide
      obtain ⟨rs, hask, hne, hall⟩ := h.in4 ⟨dotted (octets a),
        some (numeral 10 (byteswap 2 a.sinPort).toNat), family, type, 0⟩ (octets a) _ _
        (readDotted_dotted (octets_lt a) rfl) rfl
        (readPort_numeral (BitVec.isLt (byteswap 2 a.sinPort))) hf ht rfl
      have hsame : ∀ r ∈ rs, r = some (.in4 a) := by
        intro r hr
        obtain ⟨b, rfl, hos, hport⟩ := hall r hr
        have hb : b = a := eq_of_parts4 (port_injective hport) (octets_injective hos)
        rw [hb]
      rw [← cString_of_not_mem hzero, ← cString_numeral] at hask
      obtain ⟨hany, hip⟩ := lookups_of_answers (insert4 a)
        (by rw [hnode, Option.map_some]; exact hask) hne hsame
      exact iff_of_true ⟨hany, hip⟩ trivial
  | IPv6Address a =>
      obtain ⟨T, hread, hzero, hnode⟩ := nodeService_insert6 a.toIPv6Address
      obtain ⟨rs, hask, hne, hall⟩ := h.in6 ⟨T,
        some (numeral 10 (byteswap 2 a.sin6Port).toNat), family, type, 0⟩ _ _ _ hread rfl
        (readPort_numeral (BitVec.isLt (byteswap 2 a.sin6Port))) hf ht rfl
      have hsame : ∀ r ∈ rs, r = some (.in6 ⟨a.toIPv6Address, 0, 0⟩) := by
        intro r hr
        obtain ⟨⟨b, flow, scope⟩, rfl, hgs, hport, hflow, hscope⟩ := hall r hr
        have hb : b = a.toIPv6Address :=
          eq_of_parts6 (port_injective hport) (groups_injective hgs)
        have hflow : flow = 0 := hflow
        have hscope : scope = 0 := hscope
        rw [hb, hflow, hscope]
      rw [← cString_of_not_mem hzero, ← cString_numeral] at hask
      obtain ⟨hany, hip⟩ := lookups_of_answers a.insert
        (by rw [hnode, Option.map_some]; exact hask) hne hsame
      rw [Address.toString, hany, hip]
      obtain ⟨addr, flow, scope⟩ := a
      show (some (Address.IPv6Address ⟨addr, 0, 0⟩) = some (Address.IPv6Address ⟨addr, flow, scope⟩) ∧
        some (Address.IPv6Address ⟨addr, 0, 0⟩) = some (Address.IPv6Address ⟨addr, flow, scope⟩)) ↔
          flow = 0 ∧ scope = 0
      rw [and_self]
      constructor
      · intro heq
        simp only [Option.some.injEq, Address.IPv6Address.injEq, SockaddrIn6.mk.injEq] at heq
        exact ⟨heq.2.1.symm, heq.2.2.symm⟩
      · rintro ⟨rfl, rfl⟩
        rfl

end Looking

/-! ## A host that knows numbers -/

/-- The address with these bytes. -/
def ofOctets (os : List Nat) (port : Nat) : IPv4Address where
  sinPort := byteswap 2 (BitVec.ofNat 16 port)
  sAddr := byteswapOnLittleEndian (BitVec.ofNat 32
    (os.getD 0 0 * 2 ^ 24 + os.getD 1 0 * 2 ^ 16 + os.getD 2 0 * 2 ^ 8 + os.getD 3 0))

/-- The address with these groups. -/
def ofGroups (gs : List Nat) (port : Nat) : SockaddrIn6 where
  sin6Port := byteswap 2 (BitVec.ofNat 16 port)
  s6Addr := Vector.ofFn fun i : Fin 16 =>
    if i.val % 2 = 0 then BitVec.ofNat 8 (gs.getD (i / 2) 0 / 256)
    else BitVec.ofNat 8 (gs.getD (i / 2) 0)

/-- `getaddrinfo` of a host that resolves no names. -/
def numericHosts (q : Query) : Except Int (List (Option Sockaddr)) :=
  match q.service.bind readPort with
  | none => .error (-8)
  | some port =>
      if 58 ∈ q.node then
        match readLiteral q.node with
        | some gs => .ok [some (.in6 (ofGroups gs port))]
        | none => .error (-2)
      else
        match readDotted q.node with
        | some os => .ok [some (.in4 (ofOctets os port))]
        | none => .error (-2)

/-- Every result of a `mapM` is one of an element. -/
theorem mem_of_mapM {α β : Type} {f : α → Option β} {l : List α} {r : List β}
    (h : l.mapM f = some r) {y : β} (hy : y ∈ r) : ∃ x ∈ l, f x = some y := by
  induction l generalizing r with
  | nil =>
      obtain rfl := Option.some.inj h
      cases hy
  | cons x l ih =>
      rw [List.mapM_cons, Option.bind_eq_bind, Option.bind_eq_some_iff] at h
      obtain ⟨z, hz, h⟩ := h
      obtain ⟨zs, hzs, h⟩ := Option.bind_eq_some_iff.mp h
      obtain rfl := Option.some.inj h
      rcases List.mem_cons.mp hy with rfl | hy
      · exact ⟨x, List.mem_cons_self, hz⟩
      · obtain ⟨x', hx', hf⟩ := ih hzs hy
        exact ⟨x', List.mem_cons_of_mem x hx', hf⟩

theorem length_of_mapM {α β : Type} {f : α → Option β} {l : List α} {r : List β}
    (h : l.mapM f = some r) : r.length = l.length := by
  induction l generalizing r with
  | nil =>
      obtain rfl := Option.some.inj h
      rfl
  | cons x l ih =>
      rw [List.mapM_cons, Option.bind_eq_bind, Option.bind_eq_some_iff] at h
      obtain ⟨z, -, h⟩ := h
      obtain ⟨zs, hzs, h⟩ := Option.bind_eq_some_iff.mp h
      obtain rfl := Option.some.inj h
      rw [List.length_cons, ih hzs, List.length_cons]

theorem readPort_lt {t : Text} {p : Nat} (h : readPort t = some p) : p < 65536 := by
  rw [readPort] at h
  split at h
  · exact of_decide_eq_true (Option.filter_eq_some_iff.mp h).2
  · cases h

/-- What is read of an IPv4 address, and that no colon is in it. -/
theorem readDotted_some {t : Text} {os : List Nat} (h : readDotted t = some os) :
    os.length = 4 ∧ (∀ o ∈ os, o < 256) ∧ 58 ∉ t := by
  rw [readDotted] at h
  split at h
  · rename_i hall
    obtain ⟨hmap, hlen⟩ := Option.filter_eq_some_iff.mp h
    refine ⟨of_decide_eq_true hlen, fun o ho => ?_, fun hmem => ?_⟩
    · obtain ⟨x, -, hx⟩ := mem_of_mapM hmap ho
      rw [readOctet] at hx
      split at hx
      · exact of_decide_eq_true (Option.filter_eq_some_iff.mp hx).2
      · cases hx
    · have hcolon := List.all_eq_true.mp hall 58 hmem
      revert hcolon
      decide
  · cases h

theorem readGroups_lt {t : Text} {gs : List Nat} (h : readGroups t = some gs) :
    ∀ g ∈ gs, g < 65536 := by
  intro g hg
  rw [readGroups] at h
  split at h
  · obtain rfl := Option.some.inj h
    cases hg
  · obtain ⟨x, -, hx⟩ := mem_of_mapM h hg
    rw [readGroup] at hx
    split at hx
    · rename_i hlen
      have hlt := readNumeral_lt hx
      have hpow : 16 ^ x.length ≤ 16 ^ 4 := Nat.pow_le_pow_right (by decide) hlen.2
      omega
    · cases hx

/-- A `::` has a colon. -/
theorem colon_of_cutDouble {t : Text} {x : Text × Text} (h : cutDouble t = some x) : 58 ∈ t := by
  induction t generalizing x with
  | nil => cases h
  | cons c t ih =>
      cases t with
      | nil => cases h
      | cons d t =>
          rw [cutDouble] at h
          split at h
          · rename_i hc
            rw [hc.1]
            exact List.mem_cons_self
          · obtain ⟨y, hy, -⟩ := Option.map_eq_some_iff.mp h
            exact List.mem_cons_of_mem c (ih hy)

/-- What is read of a literal, and that a colon is in it. -/
theorem readLiteral_some {t : Text} {gs : List Nat} (h : readLiteral t = some gs) :
    gs.length = 8 ∧ (∀ g ∈ gs, g < 65536) ∧ 58 ∈ t := by
  rw [readLiteral] at h
  split at h
  · obtain ⟨ls, hls, h⟩ := Option.bind_eq_some_iff.mp h
    obtain ⟨hlen, hgs⟩ := Option.ite_none_right_eq_some.mp h
    obtain rfl := Option.some.inj hgs
    refine ⟨hlen, readGroups_lt hls, ?_⟩
    by_contra hmem
    rw [readGroups] at hls
    split at hls
    · obtain rfl := Option.some.inj hls
      cases hlen
    · rw [List.splitOn_eq_singleton hmem] at hls
      have hone := length_of_mapM hls
      rw [hlen] at hone
      cases hone
  · rename_i l r hcut
    obtain ⟨ls, hls, h⟩ := Option.bind_eq_some_iff.mp h
    obtain ⟨rs, hrs, h⟩ := Option.bind_eq_some_iff.mp h
    obtain ⟨hlen, hgs⟩ := Option.ite_none_right_eq_some.mp h
    obtain rfl := Option.some.inj hgs
    refine ⟨?_, fun g hg => ?_, colon_of_cutDouble hcut⟩
    · simp only [List.length_append, List.length_replicate]
      omega
    · rcases List.mem_append.mp hg with hg | hg
      · rcases List.mem_append.mp hg with hg | hg
        · exact readGroups_lt hls g hg
        · rw [List.eq_of_mem_replicate hg]
          decide
      · exact readGroups_lt hrs g hg

theorem octets_ofOctets {os : List Nat} (hlen : os.length = 4) (hos : ∀ o ∈ os, o < 256)
    (port : Nat) : octets (ofOctets os port) = os := by
  match os, hlen with
  | [a, b, c, d], _ =>
      simp only [List.forall_mem_cons] at hos
      obtain ⟨ha, hb, hc, hd, -⟩ := hos
      simp only [octets, ofOctets, byteswapOnLittleEndian_swap, List.map_cons, List.map_nil,
        octet_eq, BitVec.toNat_ofNat, List.getD_cons_zero, List.getD_cons_succ, List.cons.injEq,
        and_true]
      omega

/-- A group is its two bytes. -/
theorem group_bytes {g : Nat} (hg : g < 65536) :
    (BitVec.ofNat 8 (g / 256) ++ BitVec.ofNat 8 g).toNat = g := by
  rw [BitVec.toNat_append, BitVec.toNat_ofNat, BitVec.toNat_ofNat,
    ← Nat.shiftLeft_add_eq_or_of_lt (Nat.mod_lt _ (by decide)), Nat.shiftLeft_eq]
  omega

theorem groups_ofGroups {gs : List Nat} (hlen : gs.length = 8) (hgs : ∀ g ∈ gs, g < 65536)
    (port : Nat) : groups (ofGroups gs port).s6Addr = gs := by
  have hgroup : ∀ i < 8, ((ofGroups gs port).s6Addr.toList.getD (2 * i) 0 ++
      (ofGroups gs port).s6Addr.toList.getD (2 * i + 1) 0).toNat = gs.getD i 0 := by
    intro i hi
    have hlt : gs.getD i 0 < 65536 := by
      rw [List.getD_eq_getElem gs 0 (by omega)]
      exact hgs _ (List.getElem_mem _)
    have heven : (ofGroups gs port).s6Addr.toList.getD (2 * i) 0 =
        BitVec.ofNat 8 (gs.getD i 0 / 256) := by
      simp [ofGroups, show 2 * i < 16 by omega]
    have hodd : (ofGroups gs port).s6Addr.toList.getD (2 * i + 1) 0 =
        BitVec.ofNat 8 (gs.getD i 0) := by
      have hhalf : (2 * i + 1) / 2 = i := by omega
      simp [ofGroups, show 2 * i + 1 < 16 by omega, hhalf]
    rw [heven, hodd, group_bytes hlt]
  refine List.ext_getElem (by rw [length_groups, hlen]) fun i h₁ h₂ => ?_
  rw [length_groups] at h₁
  have hi := hgroup i h₁
  rw [List.getD_eq_getElem gs 0 h₂] at hi
  simpa [groups] using hi

theorem port_ofNat {port : Nat} (h : port < 65536) :
    (byteswap 2 (byteswap 2 (BitVec.ofNat 16 port))).toNat = port := by
  rw [byteswap_byteswap, BitVec.toNat_ofNat, Nat.mod_eq_of_lt h]

theorem numeric_numericHosts : Numeric numericHosts where
  in4 q os service port hnode hservice hport _ _ _ := by
    obtain ⟨hlen, hos, hcolon⟩ := readDotted_some hnode
    refine ⟨[some (.in4 (ofOctets os port))], ?_, by simp, fun r hr => ?_⟩
    · simp only [numericHosts, hservice, Option.bind_some, hport, if_neg hcolon, hnode]
    · rw [List.mem_singleton.mp hr]
      exact ⟨_, rfl, octets_ofOctets hlen hos port, port_ofNat (readPort_lt hport)⟩
  in6 q gs service port hnode hservice hport _ _ _ := by
    obtain ⟨hlen, hgs, hcolon⟩ := readLiteral_some hnode
    refine ⟨[some (.in6 (ofGroups gs port))], ?_, by simp, fun r hr => ?_⟩
    · simp only [numericHosts, hservice, Option.bind_some, hport, if_pos hcolon, hnode]
    · rw [List.mem_singleton.mp hr]
      exact ⟨_, rfl, groups_ofGroups hlen hgs port, port_ofNat (readPort_lt hport), rfl, rfl⟩

/-- `fe80::1` on the second interface is not what its text is looked up as. -/
def linkLocal : SockaddrIn6 :=
  { ofGroups [0xfe80, 0, 0, 0, 0, 0, 0, 1] 80 with sin6ScopeId := 2 }

theorem linkLocal_lookup :
    ¬(Address.lookupAny numericHosts (Address.IPv6Address linkLocal).toString 0 0 0 =
        some (.IPv6Address linkLocal) ∧
      Address.lookupAnyIPAddress numericHosts (Address.IPv6Address linkLocal).toString 0 0 0 =
        some (.IPv6Address linkLocal)) := by
  have hfits : (Address.IPv6Address linkLocal).Fits 0 := .inl rfl
  rw [lookup_toString_iff numeric_numericHosts hfits (by decide)]
  rintro ⟨-, hscope⟩
  exact absurd hscope (by decide)

end Hps.Net.AddressText
