import Hps.Bytes.Codec
import Hps.Lib.Bits

/-!
# Net — subnets

`CreateMask`, and `broadcastAddress`, `networdAddress` and `subnetMask` of
the two address classes. `networdAddress` keeps the bits of the host instead
of those of the network, and at the ends of the range `CreateMask` shifts by
the width of an `int`, or the bytes of an `in6_addr` are left.
-/

namespace Hps.Net

open Hps.Bytes (byteswap byteswap_byteswap)
open Hps.Lib.Bits

/-! ## Masks -/

/-- What the language leaves undefined. -/
inductive Undefined where
  /-- a shift by the width of the type, or by more -/
  | shift
  /-- signed arithmetic that overflows -/
  | overflow
  /-- an index that is outside of an array -/
  | index
  deriving DecidableEq, Repr

/-- What the subtraction makes of `INT_MIN - 1`: nothing that is defined, or
what comes out where it wraps. -/
abbrev Overflow := Except Undefined (BitVec 32)

/-- By how much `CreateMask<T>` shifts a 1, `T` having `w` bits. The count is
a `size_t`. -/
def shiftCount (w bits : Nat) : Nat := (2 ^ 64 + w - bits) % 2 ^ 64

/-- `(1 << (sizeof(T) * 8 - bits)) - 1`, in `int`. -/
def createMask (ovf : Overflow) (w bits : Nat) : Except Undefined (BitVec w) := do
  let count := shiftCount w bits
  if count < 32 then
    let one : BitVec 32 := 1#32 <<< count
    let mask ← if one = BitVec.intMin 32 then ovf else pure (one - 1#32)
    pure (mask.setWidth w)
  else throw .shift

/-- `byteswapOnLittleEndian<uint32_t>`, on a little-endian machine. -/
def byteswapOnLittleEndian (t : BitVec 32) : BitVec 32 := byteswap 4 t

/-! ## IPv4 -/

/-- A `sockaddr_in`; both fields are in network order. -/
structure IPv4Address where
  sinPort : BitVec 16
  sAddr : BitVec 32
  deriving DecidableEq

namespace IPv4Address

/-- The constructor from an address and a port in host order. -/
def new (address : BitVec 32) (port : BitVec 16) : IPv4Address where
  sinPort := byteswap 2 port
  sAddr := byteswapOnLittleEndian address

/-- The address in host order. -/
def address (a : IPv4Address) : BitVec 32 := byteswapOnLittleEndian a.sAddr

/-- `getPort` -/
def getPort (a : IPv4Address) : BitVec 16 := byteswap 2 a.sinPort

variable (ovf : Overflow) (a : IPv4Address) (prefixLen : Nat)

/-- `broadcastAddress`; the null pointer is `none`. -/
def broadcastAddress : Except Undefined (Option IPv4Address) := do
  if prefixLen > 32 then return none
  let mask ← createMask ovf 32 prefixLen
  return some { a with sAddr := a.sAddr ||| byteswapOnLittleEndian mask }

def networdAddress : Except Undefined (Option IPv4Address) := do
  if prefixLen > 32 then return none
  let mask ← createMask ovf 32 prefixLen
  return some { a with sAddr := a.sAddr &&& byteswapOnLittleEndian mask }

def subnetMask : Except Undefined (Option IPv4Address) := do
  let mask ← createMask ovf 32 prefixLen
  return some { sinPort := 0, sAddr := ~~~byteswapOnLittleEndian mask }

end IPv4Address

/-! ## IPv6 -/

/-- `s6_addr` -/
abbrev Bytes16 := Vector (BitVec 8) 16

/-- `memset(&subnet, 0, sizeof(subnet))` -/
def Bytes16.zero : Bytes16 := Vector.replicate 16 0

/-- `s6_addr[i]` -/
def Bytes16.get (s : Bytes16) (i : Nat) : Except Undefined (BitVec 8) :=
  if h : i < 16 then pure s[i] else throw .index

/-- `s6_addr[i] = v` -/
def Bytes16.put (s : Bytes16) (i : Nat) (v : BitVec 8) : Except Undefined Bytes16 :=
  if h : i < 16 then pure (s.set i v) else throw .index

/-- A loop that writes one value to the indices. -/
def Bytes16.fill (s : Bytes16) (v : BitVec 8) (is : List Nat) : Except Undefined Bytes16 :=
  is.foldlM (fun s i => s.put i v) s

/-- A `sockaddr_in6`. -/
structure IPv6Address where
  sin6Port : BitVec 16
  s6Addr : Bytes16
  deriving DecidableEq

namespace IPv6Address

variable (ovf : Overflow) (a : IPv6Address) (prefixLen : Nat)

/-- The indices behind the partial byte. -/
def behind : List Nat := List.range' (prefixLen / 8 + 1) (16 - (prefixLen / 8 + 1))

def broadcastAddress : Except Undefined IPv6Address := do
  let byte ← a.s6Addr.get (prefixLen / 8)
  let mask ← createMask ovf 8 (prefixLen % 8)
  let baddr ← a.s6Addr.put (prefixLen / 8) (byte ||| mask)
  let baddr ← baddr.fill 0xff (behind prefixLen)
  return { a with s6Addr := baddr }

def networdAddress : Except Undefined IPv6Address := do
  let byte ← a.s6Addr.get (prefixLen / 8)
  let mask ← createMask ovf 8 (prefixLen % 8)
  let baddr ← a.s6Addr.put (prefixLen / 8) (byte &&& mask)
  let baddr ← baddr.fill 0x00 (behind prefixLen)
  return { a with s6Addr := baddr }

def subnetMask : Except Undefined IPv6Address := do
  let mask ← createMask ovf 8 (prefixLen % 8)
  let subnet ← Bytes16.zero.put (prefixLen / 8) (~~~mask)
  let subnet ← subnet.fill 0xff (List.range (prefixLen / 8))
  return { sin6Port := 0, s6Addr := subnet }

end IPv6Address

/-! ## What a mask is -/

section Masks

variable {ovf : Overflow} {p : Nat}

theorem shiftCount_eq {w bits : Nat} (hbits : bits ≤ w) (hw : w < 2 ^ 64) :
    shiftCount w bits = w - bits := by
  rw [shiftCount]
  omega

theorem shiftLeft_eq_intMin {k : Nat} (hk : k < 32) : 1#32 <<< k = BitVec.intMin 32 ↔ k = 31 := by
  revert k
  decide

/-- The mask of a word: its low bits, except at the ends of the range. -/
theorem createMask_word (hp : p ≤ 32) : createMask ovf 32 p = .ok (~~~highBits 32 p) ↔
    2 ≤ p ∨ p = 1 ∧ ovf = .ok 0x7fffffff#32 := by
  rw [createMask, shiftCount_eq hp (by decide)]
  dsimp only
  by_cases hzero : p = 0
  · subst hzero
    rw [if_neg (by decide)]
    exact ⟨nofun, by omega⟩
  · rw [if_pos (by omega)]
    by_cases hone : p = 1
    · subst hone
      rw [if_pos (by decide)]
      cases ovf with
      | error e => exact ⟨nofun, by rintro (h | ⟨-, h⟩); exacts [by omega, nomatch h]⟩
      | ok v =>
          have hmask : ~~~highBits 32 1 = 0x7fffffff#32 := by decide
          rw [hmask]
          constructor
          · intro h
            have hv := Except.ok.inj h
            rw [BitVec.setWidth_eq] at hv
            exact .inr ⟨rfl, congrArg Except.ok hv⟩
          · rintro (h | ⟨-, h⟩)
            · omega
            · rw [Except.ok.inj h]
              rfl
    · rw [if_neg fun h => by have := (shiftLeft_eq_intMin (by omega)).mp h; omega,
        not_highBits (by omega) hp]
      refine ⟨fun _ => .inl (by omega), fun _ => ?_⟩
      exact congrArg Except.ok (BitVec.setWidth_eq _)

/-- The mask of a byte is never at an end of the range. -/
theorem createMask_byte (hp : p < 8) : createMask ovf 8 p = .ok (~~~highBits 8 p) := by
  rw [createMask, shiftCount_eq (by omega) (by decide)]
  dsimp only
  rw [if_pos (by omega), if_neg fun h => by have := (shiftLeft_eq_intMin (by omega)).mp h; omega]
  refine congrArg Except.ok (BitVec.eq_of_getLsbD_eq ?_)
  intro i hi
  rw [BitVec.getLsbD_setWidth, getLsbD_pow_sub_one (by omega), BitVec.getLsbD_not,
    getLsbD_highBits, Bool.eq_iff_iff]
  simp only [Bool.and_eq_true, Bool.not_eq_true', Bool.and_eq_false_iff, decide_eq_true_eq,
    decide_eq_false_iff_not]
  omega

end Masks

/-! ## Byte order -/

theorem getLsbD_byteswap {n j : Nat} (hj : j < 8 * n) (v : BitVec (8 * n)) :
    (byteswap n v).getLsbD j = v.getLsbD (8 * (n - 1 - j / 8) + j % 8) := by
  have hlen := Bytes.hostBytes_length n v
  have hbyte : (Bytes.hostBytes n v).reverse.getD (j / 8) 0 =
      (Bytes.hostBytes n v).getD (n - 1 - j / 8) 0 := by
    rw [List.getD_eq_getElem?_getD, List.getElem?_reverse (by omega), hlen,
      List.getD_eq_getElem?_getD]
  rw [byteswap, Bytes.getLsbD_ofHostBytes, hbyte, Bytes.getD_hostBytes v (by omega),
    BitVec.getLsbD_setWidth, BitVec.getLsbD_ushiftRight]
  simp [hj, Nat.mod_lt]

theorem byteswapOnLittleEndian_swap (x : BitVec 32) :
    byteswapOnLittleEndian (byteswapOnLittleEndian x) = x := byteswap_byteswap 4 x

theorem getLsbD_swap {x : BitVec 32} {i : Nat} (hi : i < 32) :
    (byteswapOnLittleEndian x).getLsbD i = x.getLsbD (8 * (3 - i / 8) + i % 8) := by
  have hbit := @getLsbD_byteswap 4 i hi x
  rw [byteswapOnLittleEndian, hbit]

theorem swap_and (x y : BitVec 32) : byteswapOnLittleEndian (x &&& y) =
    byteswapOnLittleEndian x &&& byteswapOnLittleEndian y := by
  apply BitVec.eq_of_getLsbD_eq
  intro i hi
  simp only [BitVec.getLsbD_and, getLsbD_swap hi]

theorem swap_or (x y : BitVec 32) : byteswapOnLittleEndian (x ||| y) =
    byteswapOnLittleEndian x ||| byteswapOnLittleEndian y := by
  apply BitVec.eq_of_getLsbD_eq
  intro i hi
  simp only [BitVec.getLsbD_or, getLsbD_swap hi]

theorem swap_not (x : BitVec 32) :
    byteswapOnLittleEndian (~~~x) = ~~~byteswapOnLittleEndian x := by
  apply BitVec.eq_of_getLsbD_eq
  intro i hi
  have hin : 8 * (3 - i / 8) + i % 8 < 32 := by omega
  simp only [BitVec.getLsbD_not, getLsbD_swap hi, hi, hin]

/-! ## IPv4 subnets -/

section IPv4

variable {ovf : Overflow} {a : BitVec 32} {port : BitVec 16} {p : Nat}

/-- What the subnet functions are for, at one address and one length. -/
structure SubnetOf4 (ovf : Overflow) (a : BitVec 32) (port : BitVec 16) (p : Nat) : Prop where
  shift : shiftCount 32 p < 32
  mask : ∃ m, IPv4Address.subnetMask ovf p = .ok (some m) ∧ m.address = highBits 32 p
  network : ∃ n, (IPv4Address.new a port).networdAddress ovf p = .ok (some n) ∧
    n.address = a &&& highBits 32 p ∧ n.getPort = port
  broadcast : ∃ b, (IPv4Address.new a port).broadcastAddress ovf p = .ok (some b) ∧
    b.address = a ||| ~~~highBits 32 p ∧ b.getPort = port

theorem new_getPort (a : BitVec 32) (port : BitVec 16) :
    (IPv4Address.new a port).getPort = port := byteswap_byteswap 2 port

theorem subnetMask_eq {mask : BitVec 32} (h : createMask ovf 32 p = .ok mask) :
    ∃ m, IPv4Address.subnetMask ovf p = .ok (some m) ∧ m.address = ~~~mask := by
  refine ⟨{ sinPort := 0, sAddr := ~~~byteswapOnLittleEndian mask }, ?_, ?_⟩
  · rw [IPv4Address.subnetMask, h]
    rfl
  · rw [IPv4Address.address, swap_not, byteswapOnLittleEndian_swap]

theorem networdAddress_eq {mask : BitVec 32} (hp : p ≤ 32) (h : createMask ovf 32 p = .ok mask) :
    ∃ n, (IPv4Address.new a port).networdAddress ovf p = .ok (some n) ∧
      n.address = a &&& mask ∧ n.getPort = port := by
  refine ⟨{ IPv4Address.new a port with
    sAddr := (IPv4Address.new a port).sAddr &&& byteswapOnLittleEndian mask }, ?_, ?_,
    new_getPort a port⟩
  · rw [IPv4Address.networdAddress, if_neg (by omega), h]
    rfl
  · rw [IPv4Address.address, swap_and, byteswapOnLittleEndian_swap, IPv4Address.new,
      byteswapOnLittleEndian_swap]

theorem broadcastAddress_eq {mask : BitVec 32} (hp : p ≤ 32)
    (h : createMask ovf 32 p = .ok mask) :
    ∃ b, (IPv4Address.new a port).broadcastAddress ovf p = .ok (some b) ∧
      b.address = a ||| mask ∧ b.getPort = port := by
  refine ⟨{ IPv4Address.new a port with
    sAddr := (IPv4Address.new a port).sAddr ||| byteswapOnLittleEndian mask }, ?_, ?_,
    new_getPort a port⟩
  · rw [IPv4Address.broadcastAddress, if_neg (by omega), h]
    rfl
  · rw [IPv4Address.address, swap_or, byteswapOnLittleEndian_swap, IPv4Address.new,
      byteswapOnLittleEndian_swap]

/-- **IPv4 subnets** come out right only of the address zero, of which nothing
is left either way, and only for a prefix that is not empty; at the length 1
the subtraction has to wrap. -/
theorem subnetOf4_iff (ovf : Overflow) (a : BitVec 32) (port : BitVec 16) {p : Nat}
    (hp : p ≤ 32) : SubnetOf4 ovf a port p ↔
      a = 0#32 ∧ (2 ≤ p ∨ p = 1 ∧ ovf = .ok 0x7fffffff#32) := by
  rw [← createMask_word hp]
  constructor
  · rintro ⟨-, ⟨m, hm, hmask⟩, ⟨n, hn, hnet, -⟩, -⟩
    cases hcreate : createMask ovf 32 p with
    | error e =>
        rw [IPv4Address.subnetMask, hcreate] at hm
        cases hm
    | ok mask =>
        obtain ⟨m', hm', hmask'⟩ := @subnetMask_eq ovf p mask hcreate
        obtain ⟨n', hn', hnet', -⟩ := @networdAddress_eq ovf a port p mask hp hcreate
        obtain rfl : m = m' := Option.some.inj (Except.ok.inj (hm.symm.trans hm'))
        obtain rfl : n = n' := Option.some.inj (Except.ok.inj (hn.symm.trans hn'))
        have hhigh : mask = ~~~highBits 32 p := by
          rw [← hmask, hmask', BitVec.not_not]
        rw [hhigh, hnet] at hnet'
        exact ⟨(and_not_eq_and_iff a (highBits 32 p)).mp hnet'.symm, by rw [hhigh]⟩
  · rintro ⟨rfl, hcreate⟩
    refine ⟨?_, ?_, ?_, ?_⟩
    · by_contra hshift
      rw [createMask] at hcreate
      dsimp only at hcreate
      rw [if_neg hshift] at hcreate
      cases hcreate
    · obtain ⟨m, hm, hmask⟩ := subnetMask_eq hcreate
      exact ⟨m, hm, by rw [hmask, BitVec.not_not]⟩
    · obtain ⟨n, hn, hnet, hport⟩ := @networdAddress_eq ovf 0#32 port p _ hp hcreate
      exact ⟨n, hn, by rw [hnet, BitVec.zero_and, BitVec.zero_and], hport⟩
    · exact broadcastAddress_eq hp hcreate

/-- Where `INT_MIN - 1` wraps. -/
def wraps : Overflow := .ok 0x7fffffff#32

theorem zero_subnet : SubnetOf4 wraps 0#32 80#16 24 :=
  (subnetOf4_iff wraps 0#32 80#16 (by decide)).mpr ⟨rfl, .inl (by decide)⟩

/-- 192.168.1.10/24 -/
theorem hostPart_kept : ¬∀ (ovf : Overflow) (a : BitVec 32) (port : BitVec 16) (p : Nat),
    p ≤ 32 → SubnetOf4 ovf a port p := by
  intro h
  obtain ⟨n, hn, hnet, -⟩ := (h wraps 0xc0a8010a#32 80#16 24 (by decide)).network
  obtain rfl : n = ⟨byteswap 2 80#16, 0x0a000000#32⟩ :=
    Option.some.inj (Except.ok.inj (hn.symm.trans (by decide +kernel)))
  exact absurd hnet (by decide +kernel)

end IPv4

/-! ## IPv6 subnets -/

section IPv6

variable {ovf : Overflow} {a : IPv6Address} {s : Bytes16} {p : Nat}

/-- The `i`-th of the 128 bits, the highest first. -/
def Bytes16.bit (s : Bytes16) (i : Fin 128) : Bool := s[i.val / 8].getMsbD (i % 8)

/-- What the subnet functions are for, at one address and one length; none of
them leaves the array. -/
structure SubnetOf6 (ovf : Overflow) (a : IPv6Address) (p : Nat) : Prop where
  mask : ∃ m, IPv6Address.subnetMask ovf p = .ok m ∧ ∀ i, m.s6Addr.bit i = decide (i < p)
  network : ∃ n, a.networdAddress ovf p = .ok n ∧
    ∀ i, n.s6Addr.bit i = (a.s6Addr.bit i && decide (i < p))
  broadcast : ∃ b, a.broadcastAddress ovf p = .ok b ∧
    ∀ i, b.s6Addr.bit i = (a.s6Addr.bit i || !decide (i < p))

theorem get_ok {i : Nat} (hi : i < 16) : s.get i = .ok s[i] := dif_pos hi

theorem put_ok {i : Nat} (hi : i < 16) (v : BitVec 8) : s.put i v = .ok (s.set i v) := dif_pos hi

/-- The loop, where it stays inside of the array. -/
theorem fill_ok {v : BitVec 8} {is : List Nat} (h : ∀ i ∈ is, i < 16) :
    ∃ s', s.fill v is = .ok s' ∧
      ∀ j, ∀ hj : j < 16, s'[j] = if j ∈ is then v else s[j] := by
  induction is generalizing s with
  | nil => exact ⟨s, rfl, fun j hj => rfl⟩
  | cons i is ih =>
      obtain ⟨hi, his⟩ := List.forall_mem_cons.mp h
      obtain ⟨s', hfill, hbytes⟩ := ih (s := s.set i v) his
      refine ⟨s', ?_, ?_⟩
      · rw [Bytes16.fill, List.foldlM_cons, put_ok hi]
        exact hfill
      · intro j hj
        rw [hbytes j hj, Vector.getElem_set]
        by_cases hmem : j ∈ is
        · rw [if_pos hmem, if_pos (List.mem_cons_of_mem i hmem)]
        · by_cases hij : i = j
          · rw [if_neg hmem, if_pos hij, if_pos (List.mem_cons.mpr (.inl hij.symm))]
          · rw [if_neg hmem, if_neg hij, if_neg]
            intro hj
            rcases List.mem_cons.mp hj with rfl | hj
            · exact hij rfl
            · exact hmem hj

theorem mem_behind {j : Nat} : j ∈ IPv6Address.behind p ↔ p / 8 < j ∧ j < 16 := by
  rw [IPv6Address.behind, List.mem_range'_1]
  omega

/-- One byte is changed, and those behind it are filled. -/
theorem put_fill_behind (hp : p < 128) (a : IPv6Address) (byte v : BitVec 8) :
    ∃ s', (do
        let baddr ← a.s6Addr.put (p / 8) byte
        let baddr ← baddr.fill v (IPv6Address.behind p)
        return { a with s6Addr := baddr }) = .ok { a with s6Addr := s' } ∧
      ∀ j, ∀ hj : j < 16, s'[j] =
        if j < p / 8 then a.s6Addr[j] else if j = p / 8 then byte else v := by
  have hq : p / 8 < 16 := by omega
  obtain ⟨s', hfill, hbytes⟩ := @fill_ok (a.s6Addr.set (p / 8) byte) v (IPv6Address.behind p)
    fun i hi => (mem_behind.mp hi).2
  refine ⟨s', ?_, ?_⟩
  · rw [put_ok hq]
    dsimp only [bind, Except.bind]
    rw [hfill]
    rfl
  · intro j hj
    rw [hbytes j hj, Vector.getElem_set]
    by_cases hmem : p / 8 < j
    · rw [if_pos (mem_behind.mpr ⟨hmem, hj⟩), if_neg (by omega), if_neg (by omega)]
    · rw [if_neg fun h => hmem (mem_behind.mp h).1]
      by_cases hj' : p / 8 = j
      · rw [if_pos hj', if_neg (by omega), if_pos hj'.symm]
      · rw [if_neg hj', if_pos (by omega)]

/-- A bit of the mask of a byte. -/
theorem highBits_bit {i : Fin 128} (hi : i.val / 8 = p / 8) :
    (highBits 8 (p % 8)).getMsbD (i % 8) = decide (i < p) := by
  rw [getMsbD_highBits (Nat.mod_lt _ (by decide))]
  exact decide_eq_decide.mpr (by omega)

theorem broadcast_bits (hp : p < 128) : ∃ b, a.broadcastAddress ovf p = .ok b ∧
    ∀ i, b.s6Addr.bit i = (a.s6Addr.bit i || !decide (i < p)) := by
  have hq : p / 8 < 16 := by omega
  obtain ⟨s', hs', hbytes⟩ := put_fill_behind hp a
    (a.s6Addr[p / 8] ||| ~~~highBits 8 (p % 8)) 0xff
  refine ⟨{ a with s6Addr := s' }, ?_, ?_⟩
  · rw [IPv6Address.broadcastAddress, get_ok hq, createMask_byte (Nat.mod_lt p (by decide))]
    exact hs'
  · intro i
    have hr : i.val % 8 < 8 := Nat.mod_lt _ (by decide)
    dsimp only [Bytes16.bit]
    rw [hbytes (i.val / 8) (by omega)]
    split
    · rw [decide_eq_true (by omega), Bool.not_true, Bool.or_false]
    · split
      · rename_i hj
        rw [BitVec.getMsbD_or, BitVec.getMsbD_not, highBits_bit hj, decide_eq_true hr,
          Bool.true_and]
        simp only [hj]
      · rw [show (0xff : BitVec 8) = BitVec.allOnes 8 from rfl, BitVec.getMsbD_allOnes,
          decide_eq_true hr, decide_eq_false (by omega), Bool.not_false, Bool.or_true]

/-- The host bits of the partial byte are what is left of it. -/
theorem network_bits (hp : p < 128) : ∃ n, a.networdAddress ovf p = .ok n ∧
    ((∀ i, n.s6Addr.bit i = (a.s6Addr.bit i && decide (i < p))) ↔
      a.s6Addr.get (p / 8) = .ok 0#8) := by
  have hq : p / 8 < 16 := by omega
  obtain ⟨s', hs', hbytes⟩ := put_fill_behind hp a
    (a.s6Addr[p / 8] &&& ~~~highBits 8 (p % 8)) 0x00
  refine ⟨{ a with s6Addr := s' }, ?_, ?_⟩
  · rw [IPv6Address.networdAddress, get_ok hq, createMask_byte (Nat.mod_lt p (by decide))]
    exact hs'
  · have hpartial := hbytes (p / 8) hq
    rw [if_neg (by omega), if_pos rfl] at hpartial
    rw [get_ok hq, Except.ok.injEq, ← and_not_eq_and_iff _ (highBits 8 (p % 8)), ← hpartial]
    dsimp only [Bytes16.bit]
    constructor
    · intro h
      apply BitVec.eq_of_getMsbD_eq
      intro r hr
      have hbit := h ⟨8 * (p / 8) + r, by omega⟩
      have hj : (8 * (p / 8) + r) / 8 = p / 8 := by omega
      have hmod : (8 * (p / 8) + r) % 8 = r := by omega
      have hhigh := @highBits_bit p ⟨8 * (p / 8) + r, by omega⟩ hj
      simp only [hj, hmod] at hbit hhigh
      rw [hbit, BitVec.getMsbD_and, hhigh]
    · intro h i
      rw [hbytes (i.val / 8) (by omega)]
      split
      · rw [decide_eq_true (by omega), Bool.and_true]
      · split
        · rename_i hj
          rw [← hpartial, h, BitVec.getMsbD_and, highBits_bit hj]
          simp only [hj]
        · rw [decide_eq_false (by omega), Bool.and_false]
          exact BitVec.getMsbD_zero

theorem mask_bits (hp : p < 128) : ∃ m, IPv6Address.subnetMask ovf p = .ok m ∧
    ∀ i, m.s6Addr.bit i = decide (i < p) := by
  have hq : p / 8 < 16 := by omega
  obtain ⟨s', hfill, hbytes⟩ := @fill_ok (Bytes16.zero.set (p / 8) (~~~(~~~highBits 8 (p % 8))))
    0xff (List.range (p / 8)) fun i hi => by
      have := List.mem_range.mp hi
      omega
  refine ⟨{ sin6Port := 0, s6Addr := s' }, ?_, ?_⟩
  · rw [IPv6Address.subnetMask, createMask_byte (Nat.mod_lt p (by decide))]
    dsimp only [bind, Except.bind]
    rw [put_ok hq]
    dsimp only
    rw [hfill]
    rfl
  · intro i
    have hr : i.val % 8 < 8 := Nat.mod_lt _ (by decide)
    dsimp only [Bytes16.bit]
    rw [hbytes (i.val / 8) (by omega), Vector.getElem_set]
    by_cases hlt : i.val / 8 < p / 8
    · rw [if_pos (List.mem_range.mpr hlt), show (0xff : BitVec 8) = BitVec.allOnes 8 from rfl,
        BitVec.getMsbD_allOnes, decide_eq_true hr, decide_eq_true (by omega)]
    · rw [if_neg fun h => hlt (List.mem_range.mp h)]
      by_cases hj : p / 8 = i.val / 8
      · rw [if_pos hj, BitVec.not_not, highBits_bit hj.symm]
      · rw [if_neg hj, decide_eq_false (by omega)]
        exact (congrArg (BitVec.getMsbD · (i % 8)) (Vector.getElem_replicate _)).trans
          BitVec.getMsbD_zero

/-- At the length 128 the partial byte is behind the array. -/
theorem subnet_outside : IPv6Address.subnetMask ovf 128 = .error .index := rfl

/-- **IPv6 subnets** come out right only of addresses whose partial byte is
zero, and only where there is one. -/
theorem subnetOf6_iff (ovf : Overflow) (a : IPv6Address) {p : Nat} (hp : p ≤ 128) :
    SubnetOf6 ovf a p ↔ p < 128 ∧ a.s6Addr.get (p / 8) = .ok 0#8 := by
  constructor
  · rintro ⟨⟨m, hm, -⟩, ⟨n, hn, hnet⟩, -⟩
    have hlt : p < 128 := by
      by_contra hge
      obtain rfl : p = 128 := by omega
      rw [subnet_outside] at hm
      cases hm
    obtain ⟨n', hn', hiff⟩ := @network_bits ovf a p hlt
    obtain rfl : n = n' := Except.ok.inj (hn.symm.trans hn')
    exact ⟨hlt, hiff.mp hnet⟩
  · rintro ⟨hlt, hzero⟩
    obtain ⟨n, hn, hiff⟩ := @network_bits ovf a p hlt
    exact ⟨mask_bits hlt, ⟨n, hn, hiff.mpr hzero⟩, broadcast_bits hlt⟩

/-- 2001:db8:: -/
def documentation : IPv6Address where
  sin6Port := 80
  s6Addr := #v[0x20, 0x01, 0x0d, 0xb8, 0, 0, 0, 0, 0, 0, 0, 0, 0, 0, 0, 0]

theorem documentation_subnet : SubnetOf6 wraps documentation 32 :=
  (subnetOf6_iff wraps documentation (by decide)).mpr ⟨by decide, by decide⟩

/-- 2001:db8::/28 -/
theorem hostNibble_kept : ¬∀ (ovf : Overflow) (a : IPv6Address) (p : Nat), p ≤ 128 →
    SubnetOf6 ovf a p := by
  intro h
  obtain ⟨n, hn, hnet⟩ := (h wraps documentation 28 (by decide)).network
  obtain ⟨n', hn', hiff⟩ := @network_bits wraps documentation 28 (by decide)
  obtain rfl : n = n' := Except.ok.inj (hn.symm.trans hn')
  exact absurd (hiff.mp hnet) (by decide)

end IPv6

end Hps.Net
