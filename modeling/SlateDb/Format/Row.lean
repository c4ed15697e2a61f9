import SlateDb.Format.Buf
import SlateDb.Types

/-!
# Rows of a block: flags and the `v0` codec

A row of an SST block is a key stored as a prefix length and a suffix, a
sequence number, a flags byte, optional expire and create timestamps, and the
value (format/row.rs). The flags byte says which of the timestamps follow and
whether the value is a tombstone or a merge operand; both row codecs write and
read it the same way (`rowFlags`, `decodeRowFlags`, `putTimestamps`,
`getTimestamps`), and the `v2` codec reuses it.

`SstRowCodecV0::decode` reads the value with `slice`, which leaves the cursor
where it is: after a row with a value, the value's bytes are still ahead of
the cursor (`decode_encode_before_value`). Blocks find each row through their offsets and
do not read rows one after another.
-/

namespace SlateDb

/-- `RowFlags`: a set of bits of one byte. -/
structure RowFlags where
  bits : UInt8
  deriving DecidableEq, Repr

namespace RowFlags

def tombstone : RowFlags := ⟨0b00000001⟩

def hasExpireTs : RowFlags := ⟨0b00000010⟩

def hasCreateTs : RowFlags := ⟨0b00000100⟩

def mergeOperand : RowFlags := ⟨0b00001000⟩

/-- `RowFlags::default()`, no flag set. -/
def empty : RowFlags := ⟨0⟩

/-- `RowFlags::all()`, every known flag. -/
def all : RowFlags := ⟨0b00001111⟩

instance : OrOp RowFlags := ⟨fun a b => ⟨a.bits ||| b.bits⟩⟩

/-- `contains`: every flag of `other` is set. -/
def contains (flags other : RowFlags) : Bool := flags.bits &&& other.bits == other.bits

/-- `from_bits`: `none` when an unknown bit is set. -/
def fromBits (bits : UInt8) : Option RowFlags :=
  if bits &&& ~~~all.bits == 0 then some ⟨bits⟩ else none

end RowFlags

/-- `ValueDeletable::len`: the length of the value, 0 for a tombstone. -/
def ValueDeletable.len {α : Type} : ValueDeletable (List α) → Nat
  | .value v | .merge v => v.length
  | .tombstone => 0

/-- The flags of a row with this value and these timestamps
(`SstRowEntry::flags`, `SstRowEntryV2::flags`). -/
def rowFlags {α : Type} (value : ValueDeletable α) (expireTs createTs : Option Int64) : RowFlags :=
  let flags := match value with
    | .value _ => RowFlags.empty
    | .merge _ => RowFlags.mergeOperand
    | .tombstone => RowFlags.tombstone
  let flags := if expireTs.isSome then flags ||| RowFlags.hasExpireTs else flags
  if createTs.isSome then flags ||| RowFlags.hasCreateTs else flags

/-- `decode_flags` of both row codecs: unknown bits, and a tombstone that is
also a merge operand, are `InvalidRowFlags`. -/
def decodeRowFlags (flags : UInt8) : Except FormatError RowFlags := do
  let parsed ← match RowFlags.fromBits flags with
    | some parsed => pure parsed
    | none => throw (.invalidRowFlags flags RowFlags.all.bits
        "Unable to parse flags. This may be caused by reading data encoded with a newer codec.")
  if parsed.contains (RowFlags.tombstone ||| RowFlags.mergeOperand) then
    throw (.invalidRowFlags parsed.bits RowFlags.all.bits
      "Tombstone and Merge Operand are mutually exclusive.")
  return parsed

def expectSome {α : Type} (o : Option α) (message : String) : Except FormatError α :=
  match o with
  | some a => .ok a
  | none => .error (.panic message)

/-- The timestamps as both codecs write them: each one whose flag is set. -/
def putTimestamps (flags : RowFlags) (expireTs createTs : Option Int64) :
    Except FormatError (List UInt8) := do
  let expire ← if flags.contains RowFlags.hasExpireTs then
      Buf.putI64 <$> expectSome expireTs "expire_ts should be set with HAS_EXPIRE_TS"
    else pure []
  let create ← if flags.contains RowFlags.hasCreateTs then
      Buf.putI64 <$> expectSome createTs "create_ts should be set with HAS_CREATE_TS"
    else pure []
  return expire ++ create

/-- The timestamps as both codecs read them, by a four-way split on the
flags. -/
def getTimestamps (flags : RowFlags) (data : List UInt8) :
    Except FormatError ((Option Int64 × Option Int64) × List UInt8) :=
  if flags.contains (RowFlags.hasExpireTs ||| RowFlags.hasCreateTs) then do
    let (expireTs, data) ← Buf.getI64 data
    let (createTs, data) ← Buf.getI64 data
    return ((some expireTs, some createTs), data)
  else if flags.contains RowFlags.hasExpireTs then do
    let (expireTs, data) ← Buf.getI64 data
    return ((some expireTs, none), data)
  else if flags.contains RowFlags.hasCreateTs then do
    let (createTs, data) ← Buf.getI64 data
    return ((none, some createTs), data)
  else return ((none, none), data)

/-! ### What the flags of a row say -/

section Flags

variable {α : Type} (value : ValueDeletable α) (expireTs createTs : Option Int64)

@[simp] theorem rowFlags_contains_hasExpireTs :
    (rowFlags value expireTs createTs).contains RowFlags.hasExpireTs = expireTs.isSome := by
  cases value <;> cases expireTs <;> cases createTs <;>
    simp +decide [rowFlags, RowFlags.contains]

@[simp] theorem rowFlags_contains_hasCreateTs :
    (rowFlags value expireTs createTs).contains RowFlags.hasCreateTs = createTs.isSome := by
  cases value <;> cases expireTs <;> cases createTs <;>
    simp +decide [rowFlags, RowFlags.contains]

@[simp] theorem rowFlags_contains_both :
    (rowFlags value expireTs createTs).contains (RowFlags.hasExpireTs ||| RowFlags.hasCreateTs) =
      (expireTs.isSome && createTs.isSome) := by
  cases value <;> cases expireTs <;> cases createTs <;>
    simp +decide [rowFlags, RowFlags.contains]

@[simp] theorem rowFlags_contains_tombstone :
    (rowFlags value expireTs createTs).contains RowFlags.tombstone = value.isTombstone := by
  cases value <;> cases expireTs <;> cases createTs <;>
    simp +decide [rowFlags, RowFlags.contains, ValueDeletable.isTombstone]

@[simp] theorem rowFlags_contains_mergeOperand :
    (rowFlags value expireTs createTs).contains RowFlags.mergeOperand = value.isMerge := by
  cases value <;> cases expireTs <;> cases createTs <;>
    simp +decide [rowFlags, RowFlags.contains, ValueDeletable.isMerge]

/-- The flags a codec writes are read back as they are. -/
@[simp] theorem decodeRowFlags_rowFlags :
    decodeRowFlags (rowFlags value expireTs createTs).bits = .ok (rowFlags value expireTs createTs) := by
  cases value <;> cases expireTs <;> cases createTs <;>
    simp +decide [rowFlags]

/-- The timestamps written under a row's flags. -/
theorem putTimestamps_rowFlags :
    putTimestamps (rowFlags value expireTs createTs) expireTs createTs =
      .ok (expireTs.elim [] Buf.putI64 ++ createTs.elim [] Buf.putI64) := by
  cases expireTs <;> cases createTs <;>
    simp [putTimestamps, expectSome, Functor.map, Except.map, bind, Except.bind, pure, Except.pure]

/-- The timestamps read under a row's flags are the ones written. -/
theorem getTimestamps_rowFlags (rest : List UInt8) :
    getTimestamps (rowFlags value expireTs createTs)
        (expireTs.elim [] Buf.putI64 ++ (createTs.elim [] Buf.putI64 ++ rest)) =
      .ok ((expireTs, createTs), rest) := by
  cases expireTs <;> cases createTs <;>
    simp [getTimestamps, bind, Except.bind, pure, Except.pure]

end Flags

/-! ### The `v0` row -/

/-- `SstRowEntry`: a row of a `v1` block. -/
structure SstRowEntry where
  keyPrefixLen : Nat
  keySuffix : List UInt8
  seq : UInt64
  expireTs : Option Int64
  createTs : Option Int64
  value : ValueDeletable (List UInt8)
  deriving DecidableEq, Repr

namespace SstRowEntry

/-- `SstRowEntry::new`, with its assertions on the lengths. -/
def new (keyPrefixLen : Nat) (keySuffix : List UInt8) (seq : UInt64)
    (value : ValueDeletable (List UInt8)) (createTs expireTs : Option Int64) :
    Except FormatError SstRowEntry :=
  if keyPrefixLen > 65535 then .error (.panic "key_prefix_len > u16")
  else if keySuffix.length > 65535 then .error (.panic "key_suffix.len() > u16")
  else if keyPrefixLen + keySuffix.length > 65535 then
    .error (.panic "key_prefix_len + key_suffix.len() > u16")
  else if value.len > 4294967295 then .error (.panic "value.len() > u32")
  else .ok ⟨keyPrefixLen, keySuffix, seq, expireTs, createTs, value⟩

def flags (row : SstRowEntry) : RowFlags := rowFlags row.value row.expireTs row.createTs

/-- What `new` accepts: the key's lengths fit a `u16` and the value's a `u32`. -/
theorem new_eq_ok {keyPrefixLen : Nat} {keySuffix : List UInt8} {seq : UInt64}
    {value : ValueDeletable (List UInt8)} {createTs expireTs : Option Int64} {row : SstRowEntry}
    (h : new keyPrefixLen keySuffix seq value createTs expireTs = .ok row) :
    keyPrefixLen + keySuffix.length ≤ 65535 ∧ value.len ≤ 4294967295 ∧
      row = ⟨keyPrefixLen, keySuffix, seq, expireTs, createTs, value⟩ := by
  unfold new at h
  split_ifs at h with h₁ h₂ h₃ h₄
  cases h
  exact ⟨by omega, by omega, rfl⟩

theorem new_of_le {keyPrefixLen : Nat} {keySuffix : List UInt8} (seq : UInt64)
    {value : ValueDeletable (List UInt8)} (createTs expireTs : Option Int64)
    (hkey : keyPrefixLen + keySuffix.length ≤ 65535) (hvalue : value.len ≤ 4294967295) :
    new keyPrefixLen keySuffix seq value createTs expireTs =
      .ok ⟨keyPrefixLen, keySuffix, seq, expireTs, createTs, value⟩ := by
  unfold new
  rw [if_neg (by omega), if_neg (by omega), if_neg (by omega), if_neg (by omega)]

/-- `SstRowEntry::restore_full_key`: the first `key_prefix_len` bytes of the
key the row was cut against, then the suffix; a shorter key panics. -/
def restoreFullKey (row : SstRowEntry) (firstKey : List UInt8) : Except FormatError (List UInt8) :=
  if firstKey.length < row.keyPrefixLen then .error (.panic "range end index out of range for slice")
  else .ok (firstKey.take row.keyPrefixLen ++ row.keySuffix)

end SstRowEntry

/-- `try_into().expect(message)` into a type of numbers below `bound`. -/
def tryInto {β : Type} (conv : Nat → β) (bound n : Nat) (message : String) : Except FormatError β :=
  if n < bound then .ok (conv n) else .error (.panic message)

namespace SstRowCodecV0

/-- The value as `encode` writes it: its length as a `u32` and its bytes;
nothing for a tombstone. -/
def putValue (value : ValueDeletable (List UInt8)) : Except FormatError (List UInt8) :=
  match value with
  | .value v | .merge v => do
    let valueLen ← tryInto Nat.toUInt32 4294967296 v.length "value len > u32"
    pure (Buf.putU32 valueLen ++ v)
  | .tombstone => pure []

/-- `SstRowCodecV0::encode`: the bytes it appends to the output. -/
def encode (row : SstRowEntry) : Except FormatError (List UInt8) := do
  let keyPrefixLen ← tryInto Nat.toUInt16 65536 row.keyPrefixLen "key_prefix_len > u16"
  let keySuffixLen ← tryInto Nat.toUInt16 65536 row.keySuffix.length "key_suffix.len() > u16"
  let flags := row.flags
  let timestamps ← putTimestamps flags row.expireTs row.createTs
  let value ← putValue row.value
  return Buf.putU16 keyPrefixLen ++ Buf.putU16 keySuffixLen ++ row.keySuffix ++ Buf.putU64 row.seq ++
    Buf.putU8 flags.bits ++ timestamps ++ value

def decodeFlags (flags : UInt8) : Except FormatError RowFlags := decodeRowFlags flags

/-- `SstRowCodecV0::decode`: the row, and the cursor after it. A tombstone's
row is built by `SstRowEntry::new` without its expire timestamp; the value is
read with `slice`, which does not move the cursor. -/
def decode (data : List UInt8) : Except FormatError (SstRowEntry × List UInt8) := do
  let (keyPrefixLen, data) ← Buf.getU16 data
  let (keySuffixLen, data) ← Buf.getU16 data
  let keySuffix ← Buf.slice keySuffixLen.toNat data
  let data ← Buf.advance keySuffixLen.toNat data
  let (seq, data) ← Buf.getU64 data
  let (flagBits, data) ← Buf.getU8 data
  let flags ← decodeFlags flagBits
  let ((expireTs, createTs), data) ← getTimestamps flags data
  if flags.contains RowFlags.tombstone then
    let row ← SstRowEntry.new keyPrefixLen.toNat keySuffix seq .tombstone createTs none
    return (row, data)
  let (valueLen, data) ← Buf.getU32 data
  let value ← Buf.slice valueLen.toNat data
  return (⟨keyPrefixLen.toNat, keySuffix, seq, expireTs, createTs,
    if flags.contains RowFlags.mergeOperand then .merge value else .value value⟩, data)

/-! ### Decoding what was encoded -/

theorem putValue_eq {value : ValueDeletable (List UInt8)} (hv : value.len < 4294967296) :
    putValue value = .ok ((value.asBytes.map fun v => Buf.putU32 v.length.toUInt32 ++ v).getD []) := by
  cases value <;> simp_all [putValue, tryInto, ValueDeletable.len, ValueDeletable.asBytes, bind,
    Except.bind, pure, Except.pure]

/-- The bytes of a row whose lengths fit: the header, the timestamps whose
flags are set, and the value. -/
theorem encode_eq {row : SstRowEntry} (hkey : row.keyPrefixLen + row.keySuffix.length < 65536)
    (hv : row.value.len < 4294967296) :
    encode row = .ok (Buf.putU16 row.keyPrefixLen.toUInt16 ++ Buf.putU16 row.keySuffix.length.toUInt16 ++
      row.keySuffix ++ Buf.putU64 row.seq ++ Buf.putU8 row.flags.bits ++
      (row.expireTs.elim [] Buf.putI64 ++ row.createTs.elim [] Buf.putI64) ++
      (row.value.asBytes.map fun v => Buf.putU32 v.length.toUInt32 ++ v).getD []) := by
  have hp : row.keyPrefixLen < 65536 := by omega
  have hs : row.keySuffix.length < 65536 := by omega
  simp [encode, tryInto, hp, hs, SstRowEntry.flags, putTimestamps_rowFlags, putValue_eq hv, bind,
    Except.bind, pure, Except.pure]

/-- Decoding the bytes `encode` wrote for a row that `SstRowEntry::new`
accepts, and whatever follows them. -/
theorem decode_append_encoded {row : SstRowEntry}
    (hrow : SstRowEntry.new row.keyPrefixLen row.keySuffix row.seq row.value row.createTs
      row.expireTs = .ok row)
    {bytes : List UInt8} (hbytes : encode row = .ok bytes) (rest : List UInt8) :
    decode (bytes ++ rest) =
      .ok ({ row with expireTs := if row.value.isTombstone then none else row.expireTs },
        row.value.asBytes.getD [] ++ rest) := by
  obtain ⟨hkey, hvalue, -⟩ := SstRowEntry.new_eq_ok hrow
  rw [encode_eq (by omega) (by omega), Except.ok.injEq] at hbytes
  subst hbytes
  have hp := Buf.toNat_toUInt16_of_lt (show row.keyPrefixLen < 65536 by omega)
  have hs := Buf.toNat_toUInt16_of_lt (show row.keySuffix.length < 65536 by omega)
  obtain ⟨p, s, seq, e, c, value⟩ := row
  simp only at hp hs hkey hvalue
  cases value with
  | tombstone =>
    -- the row is built again by `SstRowEntry::new`, which accepts it
    have hnew : SstRowEntry.new p s seq .tombstone c none = .ok ⟨p, s, seq, none, c, .tombstone⟩ :=
      SstRowEntry.new_of_le seq c none (by omega) (Nat.zero_le _)
    simp [decode, hp, hs, hnew, decodeFlags, SstRowEntry.flags, getTimestamps_rowFlags, bind,
      Except.bind, pure, Except.pure, ValueDeletable.isTombstone, ValueDeletable.asBytes]
  | value v | merge v =>
    have hv := Buf.toNat_toUInt32_of_lt (show v.length < 4294967296 by
      simp only [ValueDeletable.len] at hvalue
      omega)
    simp [decode, hp, hs, hv, decodeFlags, SstRowEntry.flags, getTimestamps_rowFlags, bind,
      Except.bind, pure, Except.pure, ValueDeletable.isTombstone, ValueDeletable.isMerge,
      ValueDeletable.asBytes]

/-- Decoding the encoding of a row that `SstRowEntry::new` accepts gives the
row back, a tombstone without its expire timestamp, with the cursor before
the value's bytes. -/
theorem decode_encode_before_value {row : SstRowEntry}
    (hrow : SstRowEntry.new row.keyPrefixLen row.keySuffix row.seq row.value row.createTs
      row.expireTs = .ok row)
    (rest : List UInt8) :
    ∃ bytes, encode row = .ok bytes ∧
      decode (bytes ++ rest) =
        .ok ({ row with expireTs := if row.value.isTombstone then none else row.expireTs },
          row.value.asBytes.getD [] ++ rest) := by
  obtain ⟨hkey, hvalue, -⟩ := SstRowEntry.new_eq_ok hrow
  have hbytes : encode row = .ok _ := encode_eq (by omega) (by omega)
  exact ⟨_, hbytes, decode_append_encoded hrow hbytes rest⟩

/-- A run of zero bytes decodes as a row: no key bytes, sequence number zero,
no flags and an empty value, with the cursor after the value's length. -/
theorem decode_replicate_zero {n : Nat} (h : 17 ≤ n) (rest : List UInt8) :
    decode (List.replicate n 0 ++ rest) =
      .ok (⟨0, [], 0, none, none, .value []⟩, List.replicate (n - 17) 0 ++ rest) := by
  have hflags : decodeFlags 0 = .ok ⟨0⟩ := by decide
  simp +decide (disch := omega) [decode, Buf.getU16, Buf.getU64, Buf.getU8, Buf.getU32,
    Buf.getUInt_replicate_zero, Buf.slice, Buf.advance, hflags, getTimestamps, bind, Except.bind,
    pure, Except.pure, Except.map]
  omega

/-- A row with a one-byte value. -/
def sampleRow : SstRowEntry := ⟨0, [1], 1, none, none, .value [7]⟩

theorem decode_encode_sampleRow :
    SstRowEntry.new sampleRow.keyPrefixLen sampleRow.keySuffix sampleRow.seq sampleRow.value
      sampleRow.createTs sampleRow.expireTs = .ok sampleRow ∧
    ∃ bytes, encode sampleRow = .ok bytes ∧
      decode (bytes ++ []) =
        .ok ({ sampleRow with expireTs := if sampleRow.value.isTombstone then none else sampleRow.expireTs },
          sampleRow.value.asBytes.getD [] ++ []) :=
  ⟨by decide, decode_encode_before_value (by decide) []⟩

/-- Decoding the bytes of `sampleRow` alone gives the row back with its
value's byte still unconsumed. -/
theorem decode_leaves_value_unconsumed :
    (encode sampleRow >>= fun bytes => decode (bytes ++ [])) = .ok (sampleRow, [7]) := by
  decide

end SstRowCodecV0

end SlateDb
