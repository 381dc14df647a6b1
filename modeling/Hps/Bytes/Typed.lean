import Hps.Bytes.Model

/-!
# Bytes — the typed readers and writers

`writeFint8` to `writeStringWithoutLength` and `readFint8` to
`readStringVint`. A value of an integer type is its bit pattern, and so is a
`float` or a `double`, which `memcpy` moves into an integer and back. The
host is little-endian: `BYTE_ORDER` is `LITTLE_ENDIAN`, 1234.
-/

namespace Hps.Bytes

/-! ## Byte order -/

def byteOrder : Int := 1234

/-- `isLittleEndian`: the narrowed `m_endian` against the full constant. -/
def isLittleEndian (b : ByteArray) : Bool := b.endian == 1234

def setIsLittleEndian (val : Bool) : M Unit := fun b =>
  .ok () { b with endian := if val then Int.bmod 1234 256 else bigEndian }

/-- The bytes of an `n`-byte integer in memory. -/
def hostBytes (n : Nat) (v : BitVec (8 * n)) : List UInt8 :=
  (List.range n).map fun i => .ofBitVec ((v >>> (8 * i)).setWidth 8)

/-- The integer that lies in memory in these bytes. -/
def ofHostBytes (n : Nat) (bytes : List UInt8) : BitVec (8 * n) :=
  bytes.foldr (fun x acc => (acc <<< 8) ||| x.toBitVec.setWidth (8 * n)) 0

/-- `byteswap`: `bswap_16`, `bswap_32` and `bswap_64`. -/
def byteswap (n : Nat) (v : BitVec (8 * n)) : BitVec (8 * n) :=
  ofHostBytes n (hostBytes n v).reverse

/-! ## Fixed width -/

/-- `writeFint16` and its siblings: `sizeof(value)` is `n`. -/
def writeFixed (n : Nat) (value : BitVec (8 * n)) : M Unit := do
  let b ← get
  write (hostBytes n (if b.endian ≠ byteOrder then byteswap n value else value))

/-- The macro `XX(type)` behind `readFint16` and its siblings. -/
def readFixed (n : Nat) : M (BitVec (8 * n)) := do
  let bytes ← read n
  let b ← get
  let v := ofHostBytes n bytes
  if b.endian = byteOrder then pure v else pure (byteswap n v)

/-- The one-byte writers look at no byte order. -/
def writeByte (value : BitVec 8) : M Unit := write (hostBytes 1 value)

def readByte : M (BitVec 8) := do
  let bytes ← read 1
  pure (ofHostBytes 1 bytes)

def writeFint8 (value : BitVec 8) : M Unit := writeByte value
def writeFuint8 (value : BitVec 8) : M Unit := writeByte value
def writeFint16 (value : BitVec 16) : M Unit := writeFixed 2 value
def writeFuint16 (value : BitVec 16) : M Unit := writeFixed 2 value
def writeFint32 (value : BitVec 32) : M Unit := writeFixed 4 value
def writeFuint32 (value : BitVec 32) : M Unit := writeFixed 4 value
def writeFint64 (value : BitVec 64) : M Unit := writeFixed 8 value
def writeFuint64 (value : BitVec 64) : M Unit := writeFixed 8 value

def readFint8 : M (BitVec 8) := readByte
def readFuint8 : M (BitVec 8) := readByte
def readFint16 : M (BitVec 16) := readFixed 2
def readFuint16 : M (BitVec 16) := readFixed 2
def readFint32 : M (BitVec 32) := readFixed 4
def readFuint32 : M (BitVec 32) := readFixed 4
def readFint64 : M (BitVec 64) := readFixed 8
def readFuint64 : M (BitVec 64) := readFixed 8

/-! ## Varints -/

/-- `EncodeZigzag32` and `EncodeZigzag64`; negation and doubling wrap. -/
def encodeZigzag {w : Nat} (v : BitVec w) : BitVec w :=
  if v.slt 0 then -v * 2 - 1 else v * 2

/-- `DecodeZigzag32` and `DecodeZigzag64`. -/
def decodeZigzag {w : Nat} (v : BitVec w) : BitVec w :=
  (v >>> 1) ^^^ -(v &&& 1)

/-- What `writeUint32` and `writeUint64` collect in `tmp`. -/
def varint {w : Nat} (value : BitVec w) : List UInt8 :=
  if value.toNat ≥ 0x80 then
    .ofBitVec (((value &&& 0x7F) ||| 0x80).setWidth 8) :: varint (value >>> 7)
  else [.ofBitVec (value.setWidth 8)]
termination_by value.toNat
decreasing_by
  rw [BitVec.toNat_ushiftRight, Nat.shiftRight_eq_div_pow]
  omega

/-- The loop of `readUint32` and `readUint64` from the shift `i` on. -/
def readVarint (w i : Nat) (result : BitVec w) : M (BitVec w) := do
  if i < w then
    let b ← readFuint8
    if b < 0x80 then pure (result ||| (b.setWidth w <<< i))
    else readVarint w (i + 7) (result ||| ((b &&& 0x7f).setWidth w <<< i))
  else pure result
termination_by w - i

def writeUint32 (value : BitVec 32) : M Unit := write (varint value)
def writeUint64 (value : BitVec 64) : M Unit := write (varint value)
def writeInt32 (value : BitVec 32) : M Unit := writeUint32 (encodeZigzag value)
def writeInt64 (value : BitVec 64) : M Unit := writeUint64 (encodeZigzag value)

def readUint32 : M (BitVec 32) := readVarint 32 0 0
def readUint64 : M (BitVec 64) := readVarint 64 0 0
def readInt32 : M (BitVec 32) := decodeZigzag <$> readUint32
def readInt64 : M (BitVec 64) := decodeZigzag <$> readUint64

/-! ## Floating point, as bit patterns -/

def writeFloat (value : BitVec 32) : M Unit := writeFuint32 value
def writeDouble (value : BitVec 64) : M Unit := writeFuint64 value
def readFloat : M (BitVec 32) := readFuint32
def readDouble : M (BitVec 64) := readFuint64

/-! ## Strings -/

/-- The length, converted to what `writeLen` takes, and the bytes. -/
def writeString {w : Nat} (writeLen : BitVec w → M Unit) (value : List UInt8) : M Unit := do
  writeLen (.ofNat w value.length)
  write value

/-- The length, and as many bytes. A length that `resize` refuses is one that
`read` refuses too, and neither changes the array. -/
def readString {w : Nat} (readLen : M (BitVec w)) : M (List UInt8) := do
  let len ← readLen
  read len.toNat

def writeStringF16 (value : List UInt8) : M Unit := writeString writeFuint16 value
def writeStringF32 (value : List UInt8) : M Unit := writeString writeFuint32 value
def writeStringF64 (value : List UInt8) : M Unit := writeString writeFuint64 value
def writeStringVint (value : List UInt8) : M Unit := writeString writeUint64 value
def writeStringWithoutLength (value : List UInt8) : M Unit := write value

def readStringF16 : M (List UInt8) := readString readFuint16
def readStringF32 : M (List UInt8) := readString readFuint32
def readStringF64 : M (List UInt8) := readString readFuint64
def readStringVint : M (List UInt8) := readString readUint64

end Hps.Bytes
