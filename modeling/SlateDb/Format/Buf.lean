import SlateDb.Lib.ByteCodec

/-!
# The reads and writes of the on-disk formats

The row and block codecs read their input through `bytes::Buf` (`get_u16`,
`get_u64`, `copy_to_bytes`, `slice`, `advance`) and write through `BufMut`
(`put_u16`, ...), with integers big-endian in the code's fixed-width types. A
read past the end of the input panics; here it is the error `panic`. The
reads and writes are `ByteCodec` at the widths of the code's types, and each
read gives back what the matching write wrote (`getU16_putU16`, ...).
-/

namespace SlateDb

/-- How reading and writing the formats stops: `SlateDBError::InvalidRowFlags`,
`EmptyKey` and `EmptyBlock`, or a panic. -/
inductive FormatError where
  | invalidRowFlags (encodedBits knownBits : UInt8) (message : String)
  | emptyKey
  | emptyBlock
  | panic (message : String)
  deriving DecidableEq, Repr

namespace Buf

/-- A big-endian read of `w` bytes as a number; `get_u16`, `get_u32`, ...
are this read at their widths. -/
def getUInt (w : Nat) (data : List UInt8) : Except FormatError (Nat × List UInt8) :=
  match ByteCodec.getBE w data with
  | some r => .ok r
  | none => .error (.panic "advance out of bounds")

def getU8 (data : List UInt8) : Except FormatError (UInt8 × List UInt8) :=
  (getUInt 1 data).map fun r => (r.1.toUInt8, r.2)

def getU16 (data : List UInt8) : Except FormatError (UInt16 × List UInt8) :=
  (getUInt 2 data).map fun r => (r.1.toUInt16, r.2)

def getU32 (data : List UInt8) : Except FormatError (UInt32 × List UInt8) :=
  (getUInt 4 data).map fun r => (r.1.toUInt32, r.2)

def getU64 (data : List UInt8) : Except FormatError (UInt64 × List UInt8) :=
  (getUInt 8 data).map fun r => (r.1.toUInt64, r.2)

/-- `get_i64`: eight bytes in two's complement. -/
def getI64 (data : List UInt8) : Except FormatError (Int64 × List UInt8) :=
  (getUInt 8 data).map fun r => (r.1.toUInt64.toInt64, r.2)

/-- `copy_to_bytes`: the next `n` bytes, and the cursor moved past them. -/
def copyToBytes (n : Nat) (data : List UInt8) : Except FormatError (List UInt8 × List UInt8) :=
  match ByteCodec.split n data with
  | some r => .ok r
  | none => .error (.panic "advance out of bounds")

/-- `slice(..n)`: the next `n` bytes, with the cursor left where it is. -/
def slice (n : Nat) (data : List UInt8) : Except FormatError (List UInt8) :=
  (copyToBytes n data).map (·.1)

/-- `advance(n)`: the cursor moved past the next `n` bytes. -/
def advance (n : Nat) (data : List UInt8) : Except FormatError (List UInt8) :=
  (copyToBytes n data).map (·.2)

def putU8 (n : UInt8) : List UInt8 := ByteCodec.putBE 1 n.toNat

def putU16 (n : UInt16) : List UInt8 := ByteCodec.putBE 2 n.toNat

def putU32 (n : UInt32) : List UInt8 := ByteCodec.putBE 4 n.toNat

def putU64 (n : UInt64) : List UInt8 := ByteCodec.putBE 8 n.toNat

def putI64 (n : Int64) : List UInt8 := ByteCodec.putBE 8 n.toUInt64.toNat

/-! ### Each read gives back its write -/

theorem getUInt_putBE (w : Nat) {n : Nat} (h : n < 256 ^ w) (rest : List UInt8) :
    getUInt w (ByteCodec.putBE w n ++ rest) = .ok (n, rest) := by
  simp [getUInt, ByteCodec.getBE_putBE w h rest]

@[simp] theorem getU8_putU8 (n : UInt8) (rest : List UInt8) : getU8 (putU8 n ++ rest) = .ok (n, rest) := by
  simp [getU8, putU8, getUInt_putBE 1 n.toNat_lt rest, Except.map, UInt8.ofNat_toNat]

@[simp] theorem getU16_putU16 (n : UInt16) (rest : List UInt8) :
    getU16 (putU16 n ++ rest) = .ok (n, rest) := by
  simp [getU16, putU16, getUInt_putBE 2 n.toNat_lt rest, Except.map, UInt16.ofNat_toNat]

@[simp] theorem getU32_putU32 (n : UInt32) (rest : List UInt8) :
    getU32 (putU32 n ++ rest) = .ok (n, rest) := by
  simp [getU32, putU32, getUInt_putBE 4 n.toNat_lt rest, Except.map, UInt32.ofNat_toNat]

@[simp] theorem getU64_putU64 (n : UInt64) (rest : List UInt8) :
    getU64 (putU64 n ++ rest) = .ok (n, rest) := by
  simp [getU64, putU64, getUInt_putBE 8 n.toNat_lt rest, Except.map, UInt64.ofNat_toNat]

@[simp] theorem getI64_putI64 (n : Int64) (rest : List UInt8) :
    getI64 (putI64 n ++ rest) = .ok (n, rest) := by
  simp [getI64, putI64, getUInt_putBE 8 n.toUInt64.toNat_lt rest, Except.map, UInt64.ofNat_toNat,
    Int64.toInt64_toUInt64]

@[simp] theorem copyToBytes_append (l rest : List UInt8) :
    copyToBytes l.length (l ++ rest) = .ok (l, rest) := by
  simp [copyToBytes, ByteCodec.split_append]

@[simp] theorem slice_append (l rest : List UInt8) : slice l.length (l ++ rest) = .ok l := by
  simp [slice, Except.map]

@[simp] theorem advance_append (l rest : List UInt8) : advance l.length (l ++ rest) = .ok rest := by
  simp [advance, Except.map]

/-- A read of zero bytes is zero. -/
theorem getUInt_replicate_zero (w : Nat) {n : Nat} (h : w ≤ n) (rest : List UInt8) :
    getUInt w (List.replicate n 0 ++ rest) = .ok (0, List.replicate (n - w) 0 ++ rest) := by
  rw [getUInt, ByteCodec.getBE_replicate_zero w h rest]

@[simp] theorem copyToBytes_zero (data : List UInt8) : copyToBytes 0 data = .ok ([], data) := by
  simp [copyToBytes, ByteCodec.split]

theorem toNat_toUInt16_of_lt {n : Nat} (h : n < 65536) : n.toUInt16.toNat = n := by
  rw [Nat.toUInt16_eq, UInt16.toNat_ofNat', Nat.mod_eq_of_lt h]

theorem toNat_toUInt32_of_lt {n : Nat} (h : n < 4294967296) : n.toUInt32.toNat = n := by
  rw [Nat.toUInt32_eq, UInt32.toNat_ofNat', Nat.mod_eq_of_lt h]

@[simp] theorem length_putU8 (n : UInt8) : (putU8 n).length = 1 := ByteCodec.length_putBE _ _

@[simp] theorem length_putU16 (n : UInt16) : (putU16 n).length = 2 := ByteCodec.length_putBE _ _

@[simp] theorem length_putU32 (n : UInt32) : (putU32 n).length = 4 := ByteCodec.length_putBE _ _

@[simp] theorem length_putU64 (n : UInt64) : (putU64 n).length = 8 := ByteCodec.length_putBE _ _

@[simp] theorem length_putI64 (n : Int64) : (putI64 n).length = 8 := ByteCodec.length_putBE _ _

end Buf

end SlateDb
