import SlateDb.Format.Row
import SlateDb.Format.Varint

/-!
# The `v2` row codec

A `v2` row (format/row_codec_v2.rs) starts with three varints, the bytes the
key shares with the previous key, the length of the key suffix and the length
of the value, followed by the key suffix, the value, the sequence number, the
flags and the timestamps whose flags are set. A value is read only when its
length is positive, so an empty value and a tombstone differ in their flags
alone.

The main result: decoding the encoding of a row gives the row back and
leaves exactly the bytes after it, `encoded_size` is the number of bytes
written, and `decode_key_only` reads the key (`decode_encode`).
-/

namespace SlateDb

structure SstRowEntryV2 where
  sharedBytes : UInt32
  keySuffix : List UInt8
  seq : UInt64
  expireTs : Option Int64
  createTs : Option Int64
  value : ValueDeletable (List UInt8)
  deriving DecidableEq, Repr

namespace SstRowEntryV2

def flags (row : SstRowEntryV2) : RowFlags := rowFlags row.value row.expireTs row.createTs

def encodedSize (row : SstRowEntryV2) : Nat :=
  let sharedBytesLen := varintLen row.sharedBytes
  let unsharedBytesLen := varintLen row.keySuffix.length.toUInt32
  let valueLen := row.value.len
  let valueLenVarintSize := varintLen valueLen.toUInt32
  let size := sharedBytesLen + unsharedBytesLen + valueLenVarintSize + row.keySuffix.length +
    valueLen + 8 + 1
  let size := if row.expireTs.isSome then size + 8 else size
  if row.createTs.isSome then size + 8 else size

end SstRowEntryV2

namespace SstRowCodecV2

/-- `SstRowCodecV2::encode`: the bytes it appends to the output. Lengths are
written as `u32` by a truncating cast. -/
def encode (row : SstRowEntryV2) : Except FormatError (List UInt8) := do
  let valueLen := row.value.len
  let value := match row.value with
    | .value v | .merge v => v
    | .tombstone => []
  let flags := row.flags
  let timestamps ← putTimestamps flags row.expireTs row.createTs
  return encodeVarint row.sharedBytes ++ encodeVarint row.keySuffix.length.toUInt32 ++
    encodeVarint valueLen.toUInt32 ++ row.keySuffix ++ value ++ Buf.putU64 row.seq ++
    Buf.putU8 flags.bits ++ timestamps

def decodeFlags (flags : UInt8) : Except FormatError RowFlags := decodeRowFlags flags

/-- The value's bytes as `decode` reads them: only when its length is
positive. -/
def getValueBytes (valueLen : Nat) (data : List UInt8) :
    Except FormatError (Option (List UInt8) × List UInt8) :=
  if valueLen > 0 then do
    let (value, data) ← Buf.copyToBytes valueLen data
    pure (some value, data)
  else pure (none, data)

/-- `SstRowCodecV2::decode`: the row, and the cursor after it. -/
def decode (data : List UInt8) : Except FormatError (SstRowEntryV2 × List UInt8) := do
  let (sharedBytes, data) ← decodeVarint data
  let (unsharedBytes, data) ← decodeVarint data
  let (valueLen, data) ← decodeVarint data
  let (keySuffix, data) ← Buf.copyToBytes unsharedBytes.toNat data
  let (valueBytes, data) ← getValueBytes valueLen.toNat data
  let (seq, data) ← Buf.getU64 data
  let (flagBits, data) ← Buf.getU8 data
  let flags ← decodeFlags flagBits
  let ((expireTs, createTs), data) ← getTimestamps flags data
  let value :=
    if flags.contains RowFlags.tombstone then .tombstone
    else if flags.contains RowFlags.mergeOperand then .merge (valueBytes.getD [])
    else .value (valueBytes.getD [])
  return (⟨sharedBytes, keySuffix, seq, expireTs, createTs, value⟩, data)

/-- `SstRowCodecV2::decode_key_only`: the shared length and the key suffix,
and the cursor after them. -/
def decodeKeyOnly (data : List UInt8) : Except FormatError ((UInt32 × List UInt8) × List UInt8) := do
  let (sharedBytes, data) ← decodeVarint data
  let (unsharedBytes, data) ← decodeVarint data
  let (_, data) ← decodeVarint data
  let (keySuffix, data) ← Buf.copyToBytes unsharedBytes.toNat data
  return ((sharedBytes, keySuffix), data)

/-! ### Decoding what was encoded -/

theorem len_eq_length (value : ValueDeletable (List UInt8)) :
    value.len = (value.asBytes.getD []).length := by
  cases value <;> rfl

theorem encode_eq (row : SstRowEntryV2) :
    encode row = .ok (encodeVarint row.sharedBytes ++ encodeVarint row.keySuffix.length.toUInt32 ++
      encodeVarint row.value.len.toUInt32 ++ row.keySuffix ++ row.value.asBytes.getD [] ++
      Buf.putU64 row.seq ++ Buf.putU8 row.flags.bits ++
      (row.expireTs.elim [] Buf.putI64 ++ row.createTs.elim [] Buf.putI64)) := by
  cases h : row.value <;>
    simp [encode, h, SstRowEntryV2.flags, putTimestamps_rowFlags, ValueDeletable.asBytes, bind,
      Except.bind, pure, Except.pure]

theorem getValueBytes_append (l rest : List UInt8) :
    getValueBytes l.length (l ++ rest) = .ok (if l = [] then none else some l, rest) := by
  unfold getValueBytes
  rcases l with _ | ⟨b, l⟩
  · simp [pure, Except.pure]
  · rw [if_pos (by simp), Buf.copyToBytes_append]
    simp [bind, Except.bind, pure, Except.pure]

theorem getD_valueBytes (l : List UInt8) : (if l = [] then none else some l).getD [] = l := by
  cases l <;> simp

/-- Decoding the encoding of a row whose key suffix and value have fewer
than `2 ^ 32` bytes gives the row back, every field equal, and leaves exactly
the bytes after it; `encoded_size` counts the bytes written, and
`decode_key_only` reads the row's key. -/
theorem decode_encode {row : SstRowEntryV2} (hsuffix : row.keySuffix.length < 2 ^ 32)
    (hvalue : row.value.len < 2 ^ 32) (rest : List UInt8) :
    ∃ bytes, encode row = .ok bytes ∧ decode (bytes ++ rest) = .ok (row, rest) ∧
      row.encodedSize = bytes.length ∧
      (decodeKeyOnly (bytes ++ rest)).map Prod.fst = .ok (row.sharedBytes, row.keySuffix) := by
  refine ⟨_, encode_eq row, ?_, ?_, ?_⟩
  · -- the value is read back only when it has bytes, and its flags say which kind it is
    have hs := Buf.toNat_toUInt32_of_lt hsuffix
    obtain ⟨p, s, seq, e, c, value⟩ := row
    simp only at hs hvalue ⊢
    cases value with
    | tombstone =>
      simp [decode, decodeVarint_encodeVarint, hs, ValueDeletable.len, ValueDeletable.asBytes,
        getValueBytes, decodeFlags, SstRowEntryV2.flags, getTimestamps_rowFlags, bind, Except.bind,
        pure, Except.pure, ValueDeletable.isTombstone]
    | value v | merge v =>
      have hv := Buf.toNat_toUInt32_of_lt hvalue
      simp only [ValueDeletable.len] at hv
      simp [decode, decodeVarint_encodeVarint, hs, hv, ValueDeletable.len, ValueDeletable.asBytes,
        getValueBytes_append, getD_valueBytes, decodeFlags, SstRowEntryV2.flags,
        getTimestamps_rowFlags, bind, Except.bind, pure, Except.pure, ValueDeletable.isTombstone,
        ValueDeletable.isMerge]
  · rw [SstRowEntryV2.encodedSize, len_eq_length]
    cases row.expireTs <;> cases row.createTs <;> simp [length_encodeVarint] <;> omega
  · have hs := Buf.toNat_toUInt32_of_lt hsuffix
    simp [decodeKeyOnly, decodeVarint_encodeVarint, hs, bind, Except.bind, pure, Except.pure,
      Except.map]

/-- An empty merge operand with a create timestamp: its value is not read,
and its flags make it a merge operand. -/
def sampleRowV2 : SstRowEntryV2 := ⟨0, [1, 2], 5, none, some 7, .merge []⟩

theorem decode_encode_sampleRowV2 :
    sampleRowV2.keySuffix.length < 2 ^ 32 ∧ sampleRowV2.value.len < 2 ^ 32 ∧
    ∃ bytes, encode sampleRowV2 = .ok bytes ∧ decode (bytes ++ []) = .ok (sampleRowV2, []) ∧
      sampleRowV2.encodedSize = bytes.length ∧
      (decodeKeyOnly (bytes ++ [])).map Prod.fst = .ok (sampleRowV2.sharedBytes, sampleRowV2.keySuffix) :=
  ⟨by decide, by decide, decode_encode (by decide) (by decide) []⟩

end SstRowCodecV2

end SlateDb
