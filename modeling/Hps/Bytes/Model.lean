import Hps.Lib.Splice
import Hps.Lib.Run

/-!
# Bytes — the block list of a `ByteArray`

`bytearray.cc`: the data lies in a linked list of blocks of `m_baseSize`
bytes each, with `m_cur` caching the block that holds `m_position`. The list
is `nodes`; a `Node *` is an index into it, and an index past its end is
`nullptr`. Every member function is an action that returns or throws and
leaves an array behind in both cases; dereferencing `nullptr` is an outcome
of its own.

Sizes are natural numbers. The only subtraction of `size_t` that can wrap is
`m_size - position` in the positioned read.
-/

namespace Hps.Bytes

open Hps.Lib

/-- What `Node::ptr` points to; `Node::size` is its length. -/
abbrev Node := List UInt8

inductive Error where
  /-- `std::out_of_range`. -/
  | outOfRange (what : String)
  | nullPointer
deriving DecidableEq, Repr

structure ByteArray where
  baseSize : Nat
  position : Nat
  capacity : Nat
  size : Nat
  /-- An `int8_t`. -/
  endian : Int
  /-- The list from `m_root` on. -/
  nodes : List Node
  /-- `m_cur`. -/
  cur : Nat
  /-- What the allocator leaves in the blocks it hands out, and how many it
  has handed out so far. -/
  fresh : Nat → Nat → UInt8
  allocated : Nat

/-- An action on a `ByteArray`. -/
abbrev M := EStateM Error ByteArray

/-- `BIG_ENDIAN` of the C library, narrowed to the `int8_t` `m_endian`. -/
def bigEndian : Int := Int.bmod 4321 256

namespace ByteArray

/-- The contents of `new Node(size)`, as the `k`-th allocation finds them. -/
def newNode (fresh : Nat → Nat → UInt8) (size k : Nat) : Node :=
  (List.range size).map (fresh k)

/-- `ByteArray::ByteArray`. -/
def new (fresh : Nat → Nat → UInt8) (baseSize : Nat) : ByteArray where
  baseSize
  position := 0
  capacity := baseSize
  size := 0
  endian := bigEndian
  nodes := [newNode fresh baseSize 0]
  cur := 0
  fresh
  allocated := 1

def getReadSize (b : ByteArray) : Nat := b.size - b.position

def getCapacity (b : ByteArray) : Nat := b.capacity - b.position

/-- `addCapacity`; `ceil(1.0 * size / m_baseSize)` is taken as exact. -/
def addCapacity (b : ByteArray) (size : Nat) : ByteArray :=
  if size = 0 then b
  else if b.getCapacity ≥ size then b
  else
    let count := (size - b.getCapacity + b.baseSize - 1) / b.baseSize
    { b with
      nodes := b.nodes ++ (List.range count).map fun i =>
        newNode b.fresh b.baseSize (b.allocated + i)
      capacity := b.capacity + count * b.baseSize
      cur := if b.getCapacity = 0 then b.nodes.length else b.cur
      allocated := b.allocated + count }

end ByteArray

/-- The loop of `write`, over the blocks from `m_cur` on: those blocks after
it, and how far `m_cur` has moved. `none` when it runs into `nullptr`. -/
def writeLoop (npos : Nat) (buf : List UInt8) : List Node → Option (List Node × Nat)
  | [] => none
  | cur :: next =>
      let ncap := cur.length - npos
      if ncap ≥ buf.length then
        some (splice cur npos buf :: next,
          if cur.length = npos + buf.length then 1 else 0)
      else
        (writeLoop 0 (buf.drop ncap) next).map fun r =>
          (splice cur npos (buf.take ncap) :: r.1, r.2 + 1)

/-- The loop of both `read`s: the bytes, and how far the block has moved. -/
def readLoop (npos size : Nat) : List Node → Option (List UInt8 × Nat)
  | [] => none
  | cur :: next =>
      let ncap := cur.length - npos
      if ncap ≥ size then
        some ((cur.drop npos).take size, if cur.length = npos + size then 1 else 0)
      else
        (readLoop 0 (size - ncap) next).map fun r =>
          ((cur.drop npos).take ncap ++ r.1, r.2 + 1)

/-- `write(const void *, size_t)`. -/
def write (buf : List UInt8) : M Unit := fun b =>
  if buf.length = 0 then .ok () b
  else
    let b := b.addCapacity buf.length
    match writeLoop (b.position % b.baseSize) buf (b.nodes.drop b.cur) with
    | none => .error .nullPointer b
    | some (nodes, k) =>
        let position := b.position + buf.length
        .ok () { b with
          nodes := b.nodes.take b.cur ++ nodes
          cur := b.cur + k
          position
          size := if position > b.size then position else b.size }

/-- The part the two `read`s share: `m_cur->size` is evaluated even when
nothing is to be copied. -/
def gather (b : ByteArray) (size position : Nat) : Option (List UInt8 × Nat) :=
  match b.nodes.drop b.cur with
  | [] => none
  | nodes => if size = 0 then some ([], 0)
      else readLoop (position % b.baseSize) size nodes

/-- `read(void *, size_t)`. -/
def read (size : Nat) : M (List UInt8) := fun b =>
  if size > b.getReadSize then .error (.outOfRange "not enough len") b
  else
    match gather b size b.position with
    | none => .error .nullPointer b
    | some (bytes, k) =>
        .ok bytes { b with position := b.position + size, cur := b.cur + k }

/-- `m_size - position` in `size_t`. -/
def sizeFrom (b : ByteArray) (position : Nat) : Nat :=
  if position ≤ b.size then b.size - position else b.size + UInt64.size - position

/-- `read(void *, size_t, size_t) const`. -/
def readAt (size position : Nat) : M (List UInt8) := fun b =>
  if size > sizeFrom b position then .error (.outOfRange "not enough len") b
  else
    match gather b size position with
    | none => .error .nullPointer b
    | some (bytes, _) => .ok bytes b

/-- The search of `setPosition` for its block, from `m_root` on. -/
def seek (v : Nat) : List Node → Option Nat
  | [] => none
  | cur :: next =>
      if v > cur.length then (seek (v - cur.length) next).map (· + 1)
      else if v = cur.length then some 1
      else some 0

def setPosition (v : Nat) : M Unit := fun b =>
  if v > b.capacity then .error (.outOfRange "set_position out of range") b
  else
    let b := { b with position := v, size := if v > b.size then v else b.size }
    match seek v b.nodes with
    | none => .error .nullPointer b
    | some cur => .ok () { b with cur }

def clear : M Unit := fun b =>
  .ok () { b with
    position := 0, size := 0, capacity := b.baseSize, nodes := b.nodes.take 1, cur := 0 }

def toString : M (List UInt8) := fun b =>
  if b.getReadSize = 0 then .ok [] b
  else readAt b.getReadSize b.position b

end Hps.Bytes
