import SlateDb.Lib.ByteCodec
import SlateDb.Lib.BitStream

/-!
# The bloom filter

`BloomFilterBuilder` (filter.rs) collects one hash per key, and one per
extracted prefix when a `PrefixExtractor` is configured, skipping a prefix
equal to the last one it hashed. `build_filter` sizes the buffer from the
number of hashes and `bits_per_key`, and sets, for each hash, the bits of its
probe sequence (enhanced double hashing modulo the number of bits).
`might_match` checks the probe bits of the query key's hash, or of its
extracted prefix.

A panic is `none`: the `assert!` on an extracted length, slicing past the end
of a key, indexing past the end of the buffer, reading a `u16` from fewer than
two bytes, and the remainder by zero bits in `probes_for_key`. `u32`
arithmetic wraps, as in a release build. The hash, `SipHasher13`, is the
parameter `filterHash`; every result holds for every hash function.
-/

namespace SlateDb

open BitStream

/-- `PrefixTarget`: a whole key, or a scan prefix (`PrefixTarget::Prefix`). -/
inductive PrefixTarget where
  | point (key : List UInt8)
  | prefixBytes (bytes : List UInt8)
  deriving DecidableEq, Repr

/-- The bytes inside a target. -/
def PrefixTarget.bytes : PrefixTarget → List UInt8
  | .point key => key
  | .prefixBytes bytes => bytes

/-- A `PrefixExtractor` with both kinds of target. -/
structure TargetPrefixExtractor where
  prefixLen : PrefixTarget → Option Nat

/-- The contract of `PrefixExtractor::prefix_len`: the length is at most the
target's; a point's extraction depends only on the bytes extracted; and a scan
prefix is extracted only when every key extending it extracts the same bytes. -/
structure TargetPrefixExtractor.Contract (e : TargetPrefixExtractor) : Prop where
  le_length : ∀ t n, e.prefixLen t = some n → n ≤ t.bytes.length
  point : ∀ k k' n, e.prefixLen (.point k) = some n → k'.take n = k.take n → e.prefixLen (.point k') = some n
  prefixBytes : ∀ p q n, e.prefixLen (.prefixBytes p) = some n → p <+: q →
    e.prefixLen (.point q) = some n ∧ q.take n = p.take n

/-- The `FixedPrefixExtractor` of the policy's tests: the first `len` bytes of
a target at least that long. -/
def fixedPrefixExtractor (len : Nat) : TargetPrefixExtractor where
  prefixLen target := if target.bytes.length ≥ len then some len else none

/-! ### Bits of the buffer -/

/-- `check_bit`: bit `bit % 8` of byte `bit / 8`. -/
def checkBit (bit : Nat) (buf : List UInt8) : Option Bool :=
  buf[bit / 8]?.map fun byte => byte &&& 1 <<< UInt8.ofNat (bit % 8) != 0

def setBit (bit : Nat) (buf : List UInt8) : Option (List UInt8) :=
  if bit / 8 < buf.length then some (buf.modify (bit / 8) (· ||| 1 <<< UInt8.ofNat (bit % 8))) else none

theorem mask_ne_zero_eq_testBit (byte : UInt8) {i : Nat} (hi : i < 8) :
    (byte &&& 1 <<< UInt8.ofNat i != 0) = byte.toNat.testBit i := by
  rw [Bool.eq_iff_iff, bne_iff_ne, ne_eq, ← UInt8.toNat_inj, UInt8.toNat_and, toNat_one_shiftLeft_ofNat hi,
    UInt8.toNat_zero]
  exact and_two_pow_ne_zero_iff _ _

theorem testBit_or_mask (byte : UInt8) {i : Nat} (hi : i < 8) (j : Nat) :
    (byte ||| 1 <<< UInt8.ofNat i).toNat.testBit j = (byte.toNat.testBit j || i == j) := by
  rw [UInt8.toNat_or, toNat_one_shiftLeft_ofNat hi, Nat.testBit_or, Nat.testBit_two_pow]
  by_cases hij : i = j <;> simp [hij]

/-- Setting a bit reads back as set; every other bit keeps its value. -/
theorem checkBit_setBit {bit : Nat} {buf buf' : List UInt8} (hs : setBit bit buf = some buf') (j : Nat) :
    buf'.length = buf.length ∧ checkBit j buf' = (checkBit j buf).map (· || j == bit) := by
  unfold setBit at hs
  split_ifs at hs with hlt
  cases hs
  refine ⟨List.length_modify .., ?_⟩
  unfold checkBit
  rw [List.getElem?_modify]
  cases hbyte : buf[j / 8]? with
  | none => rfl
  | some byte =>
    have hj := Nat.mod_lt j (show 0 < 8 by norm_num)
    have hb := Nat.mod_lt bit (show 0 < 8 by norm_num)
    by_cases hsame : bit / 8 = j / 8
    · -- the same byte: the bit is the old one or the one just set
      have hiff : (bit % 8 = j % 8) ↔ j = bit := by omega
      simp only [hsame, if_true, Option.map_some, Option.map_eq_map, Option.map_some, Option.some.injEq]
      rw [mask_ne_zero_eq_testBit _ hj, mask_ne_zero_eq_testBit _ hj, testBit_or_mask _ hb]
      congr 1
      exact Bool.eq_iff_iff.mpr (by rw [beq_iff_eq, beq_iff_eq, hiff])
    · have hne : j ≠ bit := fun h => hsame (h ▸ rfl)
      simp [hsame, hne]

/-! ### Probes -/

/-- The loop of `probes_for_key`: probe `i` and the next ones. -/
def probeLoop (filterBits : UInt64) : Nat → Nat → UInt64 → UInt64 → List UInt32
  | 0, _, _, _ => []
  | n + 1, i, h, delta =>
    let delta := (delta + i.toUInt64) % filterBits
    h.toUInt32 :: probeLoop filterBits n (i + 1) ((h + delta) % filterBits) delta

/-- `probes_for_key`: enhanced double hashing from the low and high halves of
the hash. -/
def probesForKey (keyHash : UInt64) (numProbes : UInt16) (filterBits : UInt32) : Option (List UInt32) :=
  let filterBits := filterBits.toUInt64
  -- the remainder by zero bits panics
  if filterBits = 0 then none
  else
    let h := ((keyHash <<< 32) >>> 32) % filterBits
    let delta := (keyHash >>> 32) % filterBits
    some (probeLoop filterBits numProbes.toNat 0 h delta)

/-- `optimal_num_probes`: `bits_per_key * 0.69` in `f32`, saturated to `u16`. -/
def optimalNumProbes (bitsPerKey : UInt32) : UInt16 := (bitsPerKey.toFloat32 * 0.69).toUInt16

/-! ### The builder -/

section Hash

variable (filterHash : List UInt8 → UInt64)

structure BloomFilterBuilder where
  bitsPerKey : UInt32
  wholeKeyFiltering : Bool
  prefixExtractor : Option TargetPrefixExtractor
  keyHashes : List UInt64
  lastPrefix : Option (List UInt8)

structure BloomFilter where
  numProbes : UInt16
  wholeKeyFiltering : Bool
  prefixExtractor : Option TargetPrefixExtractor
  buffer : List UInt8

namespace BloomFilterBuilder

def new (bitsPerKey : UInt32) (wholeKeyFiltering : Bool) (prefixExtractor : Option TargetPrefixExtractor) :
    BloomFilterBuilder :=
  ⟨bitsPerKey, wholeKeyFiltering, prefixExtractor, [], none⟩

/-- The first half of `add_key`: the hash of the key's extracted prefix,
unless it repeats the last prefix hashed. -/
def addKeyPrefix (b : BloomFilterBuilder) (key : List UInt8) : Option BloomFilterBuilder :=
  match b.prefixExtractor with
  | some extractor =>
    match extractor.prefixLen (.point key) with
    | some len =>
      -- the `assert!` on the extracted length
      if len ≤ key.length then
        let keyPrefix := key.take len
        if b.lastPrefix = some keyPrefix then pure b
        else pure { b with keyHashes := b.keyHashes ++ [filterHash keyPrefix], lastPrefix := some keyPrefix }
      else none
    | none => pure b
  | none => pure b

/-- `add_key`: the prefix's hash, then the hash of the whole key. -/
def addKey (b : BloomFilterBuilder) (key : List UInt8) : Option BloomFilterBuilder := do
  let b ← b.addKeyPrefix filterHash key
  if b.wholeKeyFiltering then pure { b with keyHashes := b.keyHashes ++ [filterHash key] } else pure b

/-- The keys of an SST, one `add_key` after another. -/
def addKeys (b : BloomFilterBuilder) (keys : List (List UInt8)) : Option BloomFilterBuilder :=
  keys.foldlM (addKey filterHash) b

/-- `filter_size_bytes`: the bits, `u32` wrapping, rounded up to bytes. -/
def filterSizeBytes (numKeys bitsPerKey : UInt32) : Nat := ((numKeys * bitsPerKey).toNat + 7) / 8

/-- The bits of one hash's probes. -/
def setProbes (numProbes : UInt16) (filterBits : UInt32) (buffer : List UInt8) (k : UInt64) :
    Option (List UInt8) := do
  let probes ← probesForKey k numProbes filterBits
  probes.foldlM (fun buffer p => setBit p.toNat buffer) buffer

def buildFilter (b : BloomFilterBuilder) : Option BloomFilter := do
  let numProbes := optimalNumProbes b.bitsPerKey
  let filterBytes := filterSizeBytes b.keyHashes.length.toUInt32 b.bitsPerKey
  let filterBits := (filterBytes * 8).toUInt32
  let buffer ← b.keyHashes.foldlM (setProbes numProbes filterBits) (List.replicate filterBytes 0)
  pure ⟨numProbes, b.wholeKeyFiltering, b.prefixExtractor, buffer⟩

end BloomFilterBuilder

namespace BloomFilter

/-- `BloomFilter::decode`: the number of probes, big-endian, then the buffer. -/
def decode (buf : List UInt8) (wholeKeyFiltering : Bool) (prefixExtractor : Option TargetPrefixExtractor) :
    Option BloomFilter :=
  -- `get_u16` panics on fewer than two bytes
  (ByteCodec.getBE 2 buf).map fun (numProbes, buffer) =>
    ⟨numProbes.toUInt16, wholeKeyFiltering, prefixExtractor, buffer⟩

def encode (f : BloomFilter) : List UInt8 := ByteCodec.putBE 2 f.numProbes.toNat ++ f.buffer

def filterBits (f : BloomFilter) : UInt32 := (f.buffer.length * 8).toUInt32

/-- The loop of `might_contain`: false at the first probe bit that is clear. -/
def checkProbes (buffer : List UInt8) : List UInt32 → Option Bool
  | [] => some true
  | p :: probes => do
    let set ← checkBit p.toNat buffer
    if !set then some false else checkProbes buffer probes

def mightContain (f : BloomFilter) (hash : UInt64) : Option Bool := do
  let probes ← probesForKey hash f.numProbes f.filterBits
  checkProbes f.buffer probes

/-- `might_match`: the whole key's hash when it was stored, else the hash of
the target's extracted prefix, else `true`. -/
def mightMatch (f : BloomFilter) (target : PrefixTarget) : Option Bool :=
  match target, f.wholeKeyFiltering with
  | .point key, true => f.mightContain (filterHash key)
  | _, _ =>
    match f.prefixExtractor with
    | none => some true
    | some extractor =>
      match extractor.prefixLen target with
      | none => some true
      | some n =>
        -- slicing `&bytes[..n]`
        if n ≤ target.bytes.length then f.mightContain (filterHash (target.bytes.take n)) else none

end BloomFilter

end Hash

end SlateDb
