import SlateDb.Format.Row

/-!
# `v1` blocks

A `v1` block (format/block.rs) is the bytes of its rows, each written by the
`v0` row codec with its key cut against the block's first key, followed by
the offset of each row as a `u16` and the number of rows as a `u16`.
`BlockBuilderV1` appends rows while they fit the block size, an empty block
taking any row.

An offset is the length of the data before its row, cast to `u16` by `as`:
once the data has grown past `u16::MAX` bytes, which a block size above it
allows, the offsets wrap around (`iterate_wrapped_offset`).
-/

namespace SlateDb

/-- `Block`: the rows' bytes and the offset of each row. -/
structure Block where
  data : List UInt8
  offsets : List UInt16
  deriving DecidableEq, Repr

namespace Block

/-- `Block::encode`: the data, the offsets and their number. -/
def encode (block : Block) : List UInt8 :=
  block.data ++ block.offsets.flatMap Buf.putU16 ++ Buf.putU16 block.offsets.length.toUInt16

/-- The offsets, two bytes each (`chunks(SIZEOF_U16).map(get_u16)`). -/
def decodeOffsets : List UInt8 → Except FormatError (List UInt16)
  | [] => .ok []
  | [_] => .error (.panic "advance out of bounds")
  | a :: b :: rest => do
    let (offset, _) ← Buf.getU16 [a, b]
    let offsets ← decodeOffsets rest
    return offset :: offsets

/-- `Block::decode`: the number of rows from the last two bytes, the offsets
before them and the data before the offsets. -/
def decode (bytes : List UInt8) : Except FormatError Block := do
  if bytes.length < 2 then throw (.panic "attempt to subtract with overflow")
  let (entryOffsetsLen, _) ← Buf.getU16 (bytes.drop (bytes.length - 2))
  if bytes.length < 2 + entryOffsetsLen.toNat * 2 then
    throw (.panic "attempt to subtract with overflow")
  let dataEnd := bytes.length - 2 - entryOffsetsLen.toNat * 2
  let offsets ← decodeOffsets ((bytes.take (bytes.length - 2)).drop dataEnd)
  return ⟨bytes.take dataEnd, offsets⟩

theorem decodeOffsets_flatMap_putU16 :
    ∀ offsets : List UInt16, decodeOffsets (offsets.flatMap Buf.putU16) = .ok offsets
  | [] => rfl
  | offset :: offsets => by
    -- each offset is two bytes
    obtain ⟨a, b, hab⟩ : ∃ a b, Buf.putU16 offset = [a, b] := ⟨_, _, rfl⟩
    have hget : Buf.getU16 [a, b] = .ok (offset, []) := by
      rw [← hab, ← List.append_nil (Buf.putU16 offset), Buf.getU16_putU16]
    rw [List.flatMap_cons, hab, List.cons_append, List.cons_append, List.nil_append, decodeOffsets,
      hget, decodeOffsets_flatMap_putU16 offsets]
    rfl

theorem length_flatMap_putU16 :
    ∀ offsets : List UInt16, (offsets.flatMap Buf.putU16).length = offsets.length * 2
  | [] => rfl
  | offset :: offsets => by
    rw [List.flatMap_cons, List.length_append, Buf.length_putU16, length_flatMap_putU16 offsets,
      List.length_cons]
    omega

/-- A block of fewer than `2 ^ 16` rows decodes to itself. -/
theorem decode_encode_of_length_lt (block : Block) (h : block.offsets.length < 65536) :
    decode block.encode = .ok block := by
  have hlen : block.offsets.length.toUInt16.toNat = block.offsets.length :=
    Buf.toNat_toUInt16_of_lt h
  have hoffs := length_flatMap_putU16 block.offsets
  have htotal : block.encode.length = block.data.length + block.offsets.length * 2 + 2 := by
    simp only [encode, List.length_append, hoffs, Buf.length_putU16]
  have hcount : Buf.getU16 (block.encode.drop (block.encode.length - 2)) =
      .ok (block.offsets.length.toUInt16, []) := by
    rw [htotal, show block.data.length + block.offsets.length * 2 + 2 - 2 =
      (block.data ++ block.offsets.flatMap Buf.putU16).length by simp [hoffs], encode,
      List.drop_left, ← List.append_nil (Buf.putU16 _), Buf.getU16_putU16]
  have hdataEnd : block.encode.length - 2 - block.offsets.length * 2 = block.data.length := by
    omega
  have hraw : (block.encode.take (block.encode.length - 2)).drop block.data.length =
      block.offsets.flatMap Buf.putU16 := by
    rw [htotal, show block.data.length + block.offsets.length * 2 + 2 - 2 =
      (block.data ++ block.offsets.flatMap Buf.putU16).length by simp [hoffs], encode,
      List.take_left, List.drop_left]
  have hdata : block.encode.take block.data.length = block.data := by
    rw [encode, List.append_assoc, List.take_left]
  have hshort : ¬ block.encode.length < 2 := by omega
  have hshort' : ¬ block.encode.length < 2 + block.offsets.length * 2 := by omega
  simp only [decode, hshort, hcount, hlen, hshort', hdataEnd, hraw, hdata, decodeOffsets_flatMap_putU16,
    if_false, bind, Except.bind, pure, Except.pure]

end Block

/-- `compute_prefix`: the length of the common prefix of two keys (the
128-byte chunked scan counts the same bytes). -/
def computePrefix : List UInt8 → List UInt8 → Nat
  | a :: lhs, b :: rhs => if a = b then computePrefix lhs rhs + 1 else 0
  | _, _ => 0

theorem computePrefix_le_right : ∀ lhs rhs : List UInt8, computePrefix lhs rhs ≤ rhs.length
  | a :: lhs, b :: rhs => by
    unfold computePrefix
    split
    · simp only [List.length_cons]
      have := computePrefix_le_right lhs rhs
      omega
    · omega
  | [], _ => Nat.zero_le _
  | _ :: _, [] => Nat.zero_le _

/-- `RowEntry::encoded_size`: the bytes of the entry's row with the key cut
after `keyPrefixLen` bytes. -/
def RowEntry.encodedSize (entry : RowEntry (List UInt8) (List UInt8)) (keyPrefixLen : Nat) : Nat :=
  let keySuffixLen := entry.key.length - keyPrefixLen
  let size := 2 + 2 + keySuffixLen + 8 + 1
  let size := if entry.expireTs.isSome then size + 8 else size
  let size := if entry.createTs.isSome then size + 8 else size
  if !entry.value.isTombstone then size + 4 + entry.value.len else size

/-- The row of an entry, its key cut after `keyPrefixLen` bytes; timestamps
and the sequence number are cast to the row's fixed-width types. -/
def RowEntry.toSstRowEntry (entry : RowEntry (List UInt8) (List UInt8)) (keyPrefixLen : Nat) :
    Except FormatError SstRowEntry :=
  SstRowEntry.new keyPrefixLen (entry.key.drop keyPrefixLen) entry.seq.toUInt64 entry.value
    (entry.createTs.map Int.toInt64) (entry.expireTs.map Int.toInt64)

structure BlockBuilderV1 where
  offsets : List UInt16
  data : List UInt8
  blockSize : Nat
  firstKey : List UInt8
  deriving DecidableEq, Repr

namespace BlockBuilderV1

def new (blockSize : Nat) : BlockBuilderV1 := ⟨[], [], blockSize, []⟩

/-- `BlockBuilderV1::size`: the bytes of the block as encoded. -/
def size (b : BlockBuilderV1) : Nat := 2 + b.offsets.length * 2 + b.data.length

def isEmpty (b : BlockBuilderV1) : Bool := b.offsets.isEmpty

def wouldFit (b : BlockBuilderV1) (entry : RowEntry (List UInt8) (List UInt8)) : Bool :=
  if b.isEmpty then true
  else
    let keyPrefixLen := computePrefix b.firstKey entry.key
    decide (b.size + entry.encodedSize keyPrefixLen ≤ b.blockSize)

/-- `BlockBuilderV1::add`: the builder after the entry, and whether it was
added. The row's offset is the data's length cast to `u16`. -/
def add (b : BlockBuilderV1) (entry : RowEntry (List UInt8) (List UInt8)) :
    Except FormatError (BlockBuilderV1 × Bool) := do
  if entry.key.isEmpty then throw .emptyKey
  if !b.wouldFit entry then return (b, false)
  let keyPrefixLen := computePrefix b.firstKey entry.key
  let sstRowEntry ← entry.toSstRowEntry keyPrefixLen
  let offsets := b.offsets ++ [b.data.length.toUInt16]
  let row ← SstRowCodecV0.encode sstRowEntry
  let firstKey := if b.firstKey.isEmpty then entry.key else b.firstKey
  return ({ b with offsets := offsets, data := b.data ++ row, firstKey := firstKey }, true)

/-- Each entry in turn to `add`, until one is not added: the builder, and the
entries it took. -/
def addAll (b : BlockBuilderV1) :
    List (RowEntry (List UInt8) (List UInt8)) →
      Except FormatError (BlockBuilderV1 × List (RowEntry (List UInt8) (List UInt8)))
  | [] => .ok (b, [])
  | entry :: entries => do
    let (b', added) ← b.add entry
    if !added then return (b, [])
    let (b'', taken) ← b'.addAll entries
    return (b'', entry :: taken)

def build (b : BlockBuilderV1) : Except FormatError Block :=
  if b.isEmpty then .error .emptyBlock else .ok ⟨b.data, b.offsets⟩

/-- What `add` does with an entry that fits: the row goes after the data, at
an offset that is the data's length cast to `u16`. -/
theorem add_of_fits {b : BlockBuilderV1} {entry : RowEntry (List UInt8) (List UInt8)}
    {row : SstRowEntry} {bytes : List UInt8} (hkey : entry.key ≠ []) (hfit : b.wouldFit entry = true)
    (hrow : entry.toSstRowEntry (computePrefix b.firstKey entry.key) = .ok row)
    (hbytes : SstRowCodecV0.encode row = .ok bytes) :
    b.add entry = .ok ({ b with
      offsets := b.offsets ++ [b.data.length.toUInt16]
      data := b.data ++ bytes
      firstKey := if b.firstKey.isEmpty then entry.key else b.firstKey }, true) := by
  simp [add, hkey, hfit, hrow, hbytes, bind, Except.bind, pure, Except.pure]

theorem addAll_cons_of_added {b b' : BlockBuilderV1} {entry : RowEntry (List UInt8) (List UInt8)}
    (h : b.add entry = .ok (b', true)) (entries : List (RowEntry (List UInt8) (List UInt8))) :
    b.addAll (entry :: entries) = (b'.addAll entries).map fun r => (r.1, entry :: r.2) := by
  simp only [addAll, h, bind, Except.bind, Bool.not_true, Bool.false_eq_true, if_false, pure,
    Except.pure]
  cases b'.addAll entries <;> rfl

theorem build_of_ne_nil {b : BlockBuilderV1} (h : b.offsets ≠ []) : b.build = .ok ⟨b.data, b.offsets⟩ := by
  simp [build, isEmpty, List.isEmpty_iff, h]

end BlockBuilderV1

end SlateDb
