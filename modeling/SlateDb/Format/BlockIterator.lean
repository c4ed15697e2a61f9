import SlateDb.Format.Block
import SlateDb.Lib.ListLex

/-!
# Iterating a `v1` block

`BlockIterator` (block_iterator.rs) walks the offsets of a `v1` block, from
the first in ascending order and from the last in descending order, decoding
the row at each offset with the `v0` codec and restoring its key from the
block's first key. `seek` binary-searches the offsets, decoding only the key
of each row it probes.

The iterator reads each row where its offset says. `BlockBuilderV1` records
an offset as the data's length cast to `u16`, so in a block whose data has
grown past `u16::MAX` bytes the offsets of the later rows point back into the
earlier ones (`iterate_wrapped_offset`).
-/

namespace SlateDb

/-- `BlockIterator`: the block, the position `off_off` in the order of
iteration, the block's first key and the order. -/
structure BlockIterator where
  block : Block
  offOff : Nat
  firstKey : List UInt8
  ordering : IterationOrder
  deriving DecidableEq, Repr

namespace BlockIterator

/-- `decode_first_key`: the first row's key, which shares nothing with a key
before it. -/
def decodeFirstKey (block : Block) : Except FormatError (List UInt8) := do
  let (overlapLen, buf) ← Buf.getU16 block.data
  if overlapLen.toNat ≠ 0 then throw (.panic "first key overlap should be 0")
  let (keyLen, buf) ← Buf.getU16 buf
  Buf.slice keyLen.toNat buf

def new (block : Block) (ordering : IterationOrder) : Except FormatError BlockIterator := do
  let firstKey ← decodeFirstKey block
  return ⟨block, 0, firstKey, ordering⟩

def isEmpty (it : BlockIterator) : Bool := it.offOff ≥ it.block.offsets.length

def advance (it : BlockIterator) : BlockIterator := { it with offOff := it.offOff + 1 }

/-- `offsets()[index]`: out of bounds panics. -/
def offsetAt (block : Block) (index : Nat) : Except FormatError Nat :=
  match block.offsets[index]? with
  | some off => .ok off.toNat
  | none => .error (.panic "index out of bounds")

/-- `data().slice(off..)`: the data from `off` on. -/
def cursorAt (block : Block) (off : Nat) : Except FormatError (List UInt8) :=
  if off ≤ block.data.length then .ok (block.data.drop off)
  else .error (.panic "range start out of bounds")

/-- `load_at_current_off`: the entry at `off_off`, counted from the last
offset when descending. -/
def loadAtCurrentOff (it : BlockIterator) :
    Except FormatError (Option (RowEntry (List UInt8) (List UInt8))) := do
  if it.isEmpty then return none
  let offOff := match it.ordering with
    | .ascending => it.offOff
    | .descending => it.block.offsets.length - 1 - it.offOff
  let off ← offsetAt it.block offOff
  let cursor ← cursorAt it.block off
  let (sstRow, _) ← SstRowCodecV0.decode cursor
  let key ← sstRow.restoreFullKey it.firstKey
  return some ⟨key, sstRow.value, sstRow.seq.toNat, sstRow.createTs.map Int64.toInt,
    sstRow.expireTs.map Int64.toInt⟩

/-- `next`: the entry at the current position, and the iterator moved past
it. -/
def next (it : BlockIterator) :
    Except FormatError (Option (RowEntry (List UInt8) (List UInt8)) × BlockIterator) := do
  match ← it.loadAtCurrentOff with
  | none => return (none, it)
  | some entry => return (some entry, it.advance)

/-- The entries `next` returns until it returns `none`, within `fuel` calls. -/
def collect (it : BlockIterator) : Nat → Except FormatError (List (RowEntry (List UInt8) (List UInt8)))
  | 0 => .ok []
  | fuel + 1 => do
    let (entry, it) ← it.next
    match entry with
    | none => return []
    | some entry => return entry :: (← it.collect fuel)

/-- `decode_key_at_index`: the key of the row at an offset, without decoding
the rest of the row. -/
def decodeKeyAtIndex (it : BlockIterator) (index : Nat) : Except FormatError (List UInt8) := do
  let off ← offsetAt it.block index
  let cursor ← cursorAt it.block off
  let (keyPrefixLen, cursor) ← Buf.getU16 cursor
  let (keySuffixLen, cursor) ← Buf.getU16 cursor
  let keySuffix ← Buf.slice keySuffixLen.toNat cursor
  if it.firstKey.length < keyPrefixLen.toNat then
    throw (.panic "range end index out of range for slice")
  return it.firstKey.take keyPrefixLen.toNat ++ keySuffix

/-- The ascending search of `seek`: the first index in `[low, high)` whose
key is not below `nextKey`. -/
def seekAscending (it : BlockIterator) (nextKey : List UInt8) (low high : Nat) :
    Except FormatError Nat :=
  if _h : low < high then
    let mid := low + (high - low) / 2
    match it.decodeKeyAtIndex mid with
    | .error e => .error e
    | .ok midKey =>
      match compare midKey nextKey with
      | .lt => seekAscending it nextKey (mid + 1) high
      | _ => seekAscending it nextKey low mid
  else .ok low
termination_by high - low

/-- The descending search of `seek`: the first index in `[low, high)` whose
key is above `nextKey`. -/
def seekDescending (it : BlockIterator) (nextKey : List UInt8) (low high : Nat) :
    Except FormatError Nat :=
  if _h : low < high then
    let mid := low + (high - low) / 2
    match it.decodeKeyAtIndex mid with
    | .error e => .error e
    | .ok midKey =>
      if midKey ≤ nextKey then seekDescending it nextKey (mid + 1) high
      else seekDescending it nextKey low mid
  else .ok low
termination_by high - low

/-- `seek`: ascending, the position of the first key not below `nextKey`;
descending, the position of the last key not above it, counted from the end,
or past the end when there is none. -/
def seek (it : BlockIterator) (nextKey : List UInt8) : Except FormatError BlockIterator := do
  let numEntries := it.block.offsets.length
  if numEntries = 0 then return it
  match it.ordering with
  | .ascending =>
    let low ← it.seekAscending nextKey 0 numEntries
    return { it with offOff := low }
  | .descending =>
    let low ← it.seekDescending nextKey 0 numEntries
    if low > 0 then return { it with offOff := numEntries - 1 - (low - 1) }
    else return { it with offOff := numEntries }

/-! ### What one step reads -/

/-- The first key is the key suffix of the row at the start of the data,
when that row shares no bytes with a key before it. -/
theorem decodeFirstKey_encoded {block : Block} {row : SstRowEntry} (hshared : row.keyPrefixLen = 0)
    (hsuffix : row.keySuffix.length < 65536) (hvalue : row.value.len < 4294967296)
    {bytes rest : List UInt8} (hbytes : SstRowCodecV0.encode row = .ok bytes)
    (hdata : block.data = bytes ++ rest) :
    decodeFirstKey block = .ok row.keySuffix := by
  rw [SstRowCodecV0.encode_eq (by omega) hvalue, Except.ok.injEq] at hbytes
  subst hbytes
  simp [decodeFirstKey, hdata, hshared, Buf.toNat_toUInt16_of_lt hsuffix, bind, Except.bind]

theorem loadAtCurrentOff_of_isEmpty {it : BlockIterator} (h : it.isEmpty = true) :
    it.loadAtCurrentOff = .ok none := by
  simp [loadAtCurrentOff, h, pure, Except.pure]

/-- Ascending, the entry at `off_off` is the row decoded at its offset, its
key restored from the first key. -/
theorem loadAtCurrentOff_ascending {it : BlockIterator} (hord : it.ordering = .ascending)
    {off : UInt16} (hoff : it.block.offsets[it.offOff]? = some off)
    (hle : off.toNat ≤ it.block.data.length) {row : SstRowEntry} {rest : List UInt8}
    (hrow : SstRowCodecV0.decode (it.block.data.drop off.toNat) = .ok (row, rest))
    {key : List UInt8} (hkey : row.restoreFullKey it.firstKey = .ok key) :
    it.loadAtCurrentOff = .ok (some ⟨key, row.value, row.seq.toNat, row.createTs.map Int64.toInt,
      row.expireTs.map Int64.toInt⟩) := by
  have hne : it.isEmpty = false := by
    have := (List.getElem?_eq_some_iff.mp hoff).1
    simp [isEmpty]
    omega
  simp [loadAtCurrentOff, hne, hord, offsetAt, hoff, cursorAt, hle, hrow, hkey, bind, Except.bind,
    pure, Except.pure]

/-- Descending, `off_off` reads the row that ascending order reads at the
mirrored position. -/
theorem loadAtCurrentOff_descending {it : BlockIterator} (hord : it.ordering = .descending)
    (hlt : it.offOff < it.block.offsets.length) :
    it.loadAtCurrentOff = { it with ordering := IterationOrder.ascending,
                                    offOff := it.block.offsets.length - 1 - it.offOff }.loadAtCurrentOff := by
  have hne : it.isEmpty = false := by
    simp only [isEmpty, decide_eq_false_iff_not, not_le]
    exact hlt
  have hne' : { it with ordering := IterationOrder.ascending,
                        offOff := it.block.offsets.length - 1 - it.offOff }.isEmpty = false := by
    simp only [isEmpty, decide_eq_false_iff_not, not_le]
    omega
  simp only [loadAtCurrentOff, hne, hne', hord]

/-- Ascending, an offset at the bytes of an encoded row reads that row back,
a tombstone without its expire timestamp. -/
theorem loadAtCurrentOff_encoded {it : BlockIterator} (hord : it.ordering = .ascending)
    {off : UInt16} (hoff : it.block.offsets[it.offOff]? = some off)
    (hle : off.toNat ≤ it.block.data.length) {row : SstRowEntry}
    (hrow : SstRowEntry.new row.keyPrefixLen row.keySuffix row.seq row.value row.createTs
      row.expireTs = .ok row)
    {bytes rest : List UInt8} (hbytes : SstRowCodecV0.encode row = .ok bytes)
    (hdata : it.block.data.drop off.toNat = bytes ++ rest)
    {key : List UInt8} (hkey : row.restoreFullKey it.firstKey = .ok key) :
    it.loadAtCurrentOff = .ok (some ⟨key, row.value, row.seq.toNat, row.createTs.map Int64.toInt,
      (if row.value.isTombstone then none else row.expireTs).map Int64.toInt⟩) := by
  have hdecode := SstRowCodecV0.decode_append_encoded hrow hbytes rest
  rw [← hdata] at hdecode
  exact loadAtCurrentOff_ascending hord hoff hle hdecode hkey

/-- Ascending, an offset at a run of zero bytes reads an entry with an empty
key and an empty value, whatever the first key. -/
theorem loadAtCurrentOff_zeros {it : BlockIterator} (hord : it.ordering = .ascending)
    {off : UInt16} (hoff : it.block.offsets[it.offOff]? = some off)
    (hle : off.toNat ≤ it.block.data.length) {n : Nat} (hn : 17 ≤ n) {rest : List UInt8}
    (hdata : it.block.data.drop off.toNat = List.replicate n 0 ++ rest) :
    it.loadAtCurrentOff = .ok (some ⟨[], .value [], 0, none, none⟩) := by
  have hdecode := SstRowCodecV0.decode_replicate_zero hn rest
  rw [← hdata] at hdecode
  have hkey : SstRowEntry.restoreFullKey ⟨0, [], 0, none, none, .value []⟩ it.firstKey = .ok [] := by
    simp [SstRowEntry.restoreFullKey]
  rw [loadAtCurrentOff_ascending hord hoff hle hdecode hkey]
  rfl

theorem collect_succ_of_none {it : BlockIterator} (h : it.loadAtCurrentOff = .ok none) (fuel : Nat) :
    it.collect (fuel + 1) = .ok [] := by
  simp [collect, next, h, bind, Except.bind, pure, Except.pure]

theorem collect_succ_of_some {it : BlockIterator} {entry : RowEntry (List UInt8) (List UInt8)}
    (h : it.loadAtCurrentOff = .ok (some entry)) (fuel : Nat) :
    it.collect (fuel + 1) = (it.advance.collect fuel).map (entry :: ·) := by
  simp only [collect, next, h, bind, Except.bind, pure, Except.pure]
  cases it.advance.collect fuel <;> rfl

end BlockIterator

/-! ### Offsets past `u16::MAX` -/

/-- An entry whose row is 65554 bytes: an 18-byte header, then its value of
65536 zero bytes. -/
def wideEntry : RowEntry (List UInt8) (List UInt8) :=
  ⟨[1], .value (List.replicate 65536 0), 0, none, none⟩

/-- An entry with an empty value, after `wideEntry` in key order. -/
def nextEntry : RowEntry (List UInt8) (List UInt8) := ⟨[2], .value [], 0, none, none⟩

/-- With a block size of 70000 bytes both entries are added, but the second
row's offset, 65554 cast to `u16`, is 18: the start of the first row's value.
Iterating the block reads the zeros there as a row, and yields an entry with
an empty key in place of the second entry. -/
theorem iterate_wrapped_offset :
    ∃ b block it, (BlockBuilderV1.new 70000).addAll [wideEntry, nextEntry] =
        .ok (b, [wideEntry, nextEntry]) ∧
      (b.build >>= fun built => Block.decode built.encode) = .ok block ∧
      BlockIterator.new block .ascending = .ok it ∧
      it.collect 3 = .ok [wideEntry, ⟨[], .value [], 0, none, none⟩] := by
  -- the value's zeros stay a variable, so that no step computes with them
  obtain ⟨zeros, hzeros⟩ : ∃ zeros, zeros = List.replicate 65536 (0 : UInt8) := ⟨_, rfl⟩
  have hlen : zeros.length = 65536 := by rw [hzeros, List.length_replicate]
  have hwideEntry : wideEntry = ⟨[1], .value zeros, 0, none, none⟩ := by rw [hzeros]; rfl
  rw [hwideEntry]
  -- the first row: an 18-byte header, then the zeros
  let wideRow : SstRowEntry := ⟨0, [1], 0, none, none, .value zeros⟩
  let header : List UInt8 :=
    Buf.putU16 0 ++ Buf.putU16 1 ++ [1] ++ Buf.putU64 0 ++ Buf.putU8 0 ++ Buf.putU32 65536
  have hheader : header.length = 18 := by simp [header]
  have hnewWide : SstRowEntry.new 0 [1] 0 (.value zeros) none none = .ok wideRow :=
    SstRowEntry.new_of_le 0 none none (by norm_num) (by simp [ValueDeletable.len, hlen])
  have hwide : SstRowCodecV0.encode wideRow = .ok (header ++ zeros) := by
    rw [SstRowCodecV0.encode_eq (by simp [wideRow]) (by simp [wideRow, ValueDeletable.len, hlen])]
    simp [wideRow, header, SstRowEntry.flags, rowFlags, RowFlags.empty, hlen]
  -- the second row
  let nextRow : SstRowEntry := ⟨0, [2], 0, none, none, .value []⟩
  obtain ⟨nextBytes, hnext⟩ : ∃ bytes, SstRowCodecV0.encode nextRow = .ok bytes :=
    ⟨_, SstRowCodecV0.encode_eq (by decide) (by decide)⟩
  -- the builder takes both; the second offset is the data's length, 65554, cast to 18
  let b₁ : BlockBuilderV1 := ⟨[0], header ++ zeros, 70000, [1]⟩
  have hadd₁ : (BlockBuilderV1.new 70000).add ⟨[1], .value zeros, 0, none, none⟩ = .ok (b₁, true) := by
    rw [@BlockBuilderV1.add_of_fits (.new 70000) ⟨[1], .value zeros, 0, none, none⟩ wideRow _
      (List.cons_ne_nil _ _) rfl hnewWide hwide]
    rfl
  have hfit₂ : b₁.wouldFit nextEntry = true := by
    simp [BlockBuilderV1.wouldFit, BlockBuilderV1.isEmpty, BlockBuilderV1.size, b₁, hheader, hlen,
      RowEntry.encodedSize, nextEntry, computePrefix, ValueDeletable.len]
  have hoff : b₁.data.length.toUInt16 = 18 := by
    show (header ++ zeros).length.toUInt16 = 18
    rw [List.length_append, hheader, hlen]
    decide
  let b₂ : BlockBuilderV1 := ⟨[0, 18], header ++ zeros ++ nextBytes, 70000, [1]⟩
  have hadd₂ : b₁.add nextEntry = .ok (b₂, true) := by
    rw [@BlockBuilderV1.add_of_fits b₁ nextEntry nextRow _ (List.cons_ne_nil _ _) hfit₂ rfl hnext, hoff]
    rfl
  have haddAll : (BlockBuilderV1.new 70000).addAll [⟨[1], .value zeros, 0, none, none⟩, nextEntry] =
      .ok (b₂, [⟨[1], .value zeros, 0, none, none⟩, nextEntry]) := by
    rw [BlockBuilderV1.addAll_cons_of_added hadd₁, BlockBuilderV1.addAll_cons_of_added hadd₂]
    rfl
  -- the block decodes to the builder's data and offsets, its first key [1]
  let block : Block := ⟨b₂.data, b₂.offsets⟩
  have hblock : (b₂.build >>= fun built => Block.decode built.encode) = .ok block := by
    rw [BlockBuilderV1.build_of_ne_nil (List.cons_ne_nil _ _)]
    simp only [bind, Except.bind]
    exact Block.decode_encode_of_length_lt block (by simp [block, b₂])
  let it : BlockIterator := ⟨block, 0, [1], .ascending⟩
  have hnew : BlockIterator.new block .ascending = .ok it := by
    have hfirst : BlockIterator.decodeFirstKey block = .ok [1] :=
      @BlockIterator.decodeFirstKey_encoded block wideRow rfl (by simp [wideRow])
        (by simp [wideRow, ValueDeletable.len, hlen]) _ _ hwide rfl
    simp [BlockIterator.new, hfirst, bind, Except.bind, pure, Except.pure, it]
  have hle : (18 : UInt16).toNat ≤ b₂.data.length := by
    show 18 ≤ (header ++ zeros ++ nextBytes).length
    simp only [List.length_append, hheader, hlen]
    omega
  -- the first entry is read back whole; the second offset points at the zeros
  have hload₁ : it.loadAtCurrentOff = .ok (some ⟨[1], .value zeros, 0, none, none⟩) :=
    @BlockIterator.loadAtCurrentOff_encoded it rfl 0 rfl (Nat.zero_le _) wideRow hnewWide _ _ hwide rfl
      _ rfl
  have hload₂ : it.advance.loadAtCurrentOff = .ok (some ⟨[], .value [], 0, none, none⟩) := by
    have hdrop : b₂.data.drop (18 : UInt16).toNat = List.replicate 65536 0 ++ nextBytes := by
      show (header ++ zeros ++ nextBytes).drop 18 = _
      rw [List.append_assoc, List.drop_left' hheader, hzeros]
    exact BlockIterator.loadAtCurrentOff_zeros rfl rfl hle (by omega) hdrop
  have hload₃ : it.advance.advance.loadAtCurrentOff = .ok none :=
    BlockIterator.loadAtCurrentOff_of_isEmpty rfl
  refine ⟨b₂, block, it, haddAll, hblock, hnew, ?_⟩
  rw [BlockIterator.collect_succ_of_some hload₁, BlockIterator.collect_succ_of_some hload₂,
    BlockIterator.collect_succ_of_none hload₃]
  rfl

end SlateDb
