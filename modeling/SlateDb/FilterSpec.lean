import SlateDb.Filter

/-!
# The bloom filter has no false negatives

Every probe of a hash lies below the number of bits (`probeLoop_lt`), so
setting a hash's probes sets bits inside the buffer, and a bit once set stays
set (`checkBit_setBit`). The builder hashes every added key and the extracted
prefix of every added key (`Hashed`): a prefix is skipped only when it is the
last one hashed, which is itself hashed (`LastPrefixHashed`), so the keys need
not come sorted. Under the extractor's contract a query that an added key
matches probes one of these hashes, with the number of probes and bits of the
build, and finds every bit set (`mightMatch_of_hashed`).

A filter with no bits cannot be probed: `probes_for_key` takes the remainder by
zero. That happens to a filter built from no hashes at all.
-/

namespace SlateDb

open BitStream

/-! ### Probes -/

theorem probeLoop_lt {filterBits : UInt64} :
    ∀ n i {h : UInt64} (delta : UInt64), h < filterBits →
      ∀ p ∈ probeLoop filterBits n i h delta, p.toNat < filterBits.toNat
  | 0, _, _, _, _, p, hp => by simp [probeLoop] at hp
  | n + 1, i, h, delta, hh, p, hp => by
    rw [probeLoop, List.mem_cons] at hp
    have hpos : 0 < filterBits := by
      have hlt := UInt64.lt_iff_toNat_lt.mp hh
      rw [UInt64.lt_iff_toNat_lt, UInt64.toNat_zero]
      omega
    rcases hp with rfl | hp
    · -- a probe is the position `h`, cut to `u32`
      calc h.toUInt32.toNat = h.toNat % 2 ^ 32 := UInt64.toNat_toUInt32 h
        _ ≤ h.toNat := Nat.mod_le _ _
        _ < filterBits.toNat := UInt64.lt_iff_toNat_lt.mp hh
    · exact probeLoop_lt n (i + 1) _ (UInt64.mod_lt _ hpos) p hp

theorem probesForKey_eq_none_iff {keyHash : UInt64} {numProbes : UInt16} {filterBits : UInt32} :
    probesForKey keyHash numProbes filterBits = none ↔ filterBits = 0 := by
  unfold probesForKey
  dsimp only
  have hiff : filterBits.toUInt64 = 0 ↔ filterBits = 0 := by
    rw [← UInt64.toNat_inj, ← UInt32.toNat_inj, UInt32.toNat_toUInt64]
    rfl
  split_ifs with h
  · simpa using hiff.mp h
  · simpa using mt hiff.mpr h

/-- Every probe lies below the number of bits. -/
theorem probesForKey_lt {keyHash : UInt64} {numProbes : UInt16} {filterBits : UInt32} {probes : List UInt32}
    (h : probesForKey keyHash numProbes filterBits = some probes) : ∀ p ∈ probes, p.toNat < filterBits.toNat := by
  unfold probesForKey at h
  dsimp only at h
  split_ifs at h with hzero
  cases h
  have hpos : 0 < filterBits.toUInt64 := by
    rw [UInt64.lt_iff_toNat_lt]
    exact Nat.pos_of_ne_zero fun h0 => hzero (UInt64.toNat_inj.mp h0)
  intro p hp
  have hlt := probeLoop_lt _ 0 _ (UInt64.mod_lt _ hpos) p hp
  rwa [UInt32.toNat_toUInt64] at hlt

/-! ### Setting probe bits -/

/-- Every bit set in one buffer is set in another. -/
def BitsKept (buffer buffer' : List UInt8) : Prop := ∀ j, checkBit j buffer = some true → checkBit j buffer' = some true

theorem BitsKept.trans {b₁ b₂ b₃ : List UInt8} (h₁ : BitsKept b₁ b₂) (h₂ : BitsKept b₂ b₃) : BitsKept b₁ b₃ :=
  fun j hj => h₂ j (h₁ j hj)

/-- All the probe bits of a hash are set. -/
def ProbesSet (numProbes : UInt16) (filterBits : UInt32) (buffer : List UInt8) (k : UInt64) : Prop :=
  ∃ probes, probesForKey k numProbes filterBits = some probes ∧ ∀ p ∈ probes, checkBit p.toNat buffer = some true

theorem ProbesSet.mono {numProbes : UInt16} {filterBits : UInt32} {buffer buffer' : List UInt8} {k : UInt64}
    (h : ProbesSet numProbes filterBits buffer k) (hkept : BitsKept buffer buffer') :
    ProbesSet numProbes filterBits buffer' k :=
  let ⟨probes, hprobes, hset⟩ := h
  ⟨probes, hprobes, fun p hp => hkept _ (hset p hp)⟩

theorem checkBit_isSome {bit : Nat} {buf : List UInt8} (h : bit / 8 < buf.length) : ∃ b, checkBit bit buf = some b :=
  ⟨_, by rw [checkBit, List.getElem?_eq_getElem h, Option.map_some]⟩

/-- Setting bits inside the buffer keeps its length and its set bits, and sets
them. -/
theorem foldlM_setBit : ∀ (probes : List UInt32) {buffer : List UInt8},
    (∀ p ∈ probes, p.toNat < 8 * buffer.length) →
      ∃ buffer', probes.foldlM (fun buffer p => setBit p.toNat buffer) buffer = some buffer' ∧
        buffer'.length = buffer.length ∧ BitsKept buffer buffer' ∧ ∀ p ∈ probes, checkBit p.toNat buffer' = some true
  | [], buffer, _ => ⟨buffer, rfl, rfl, fun _ h => h, fun _ hp => by simp at hp⟩
  | p :: probes, buffer, hlt => by
    have hp : p.toNat / 8 < buffer.length := by
      have := hlt p List.mem_cons_self
      omega
    obtain ⟨buffer₁, hset⟩ : ∃ buffer₁, setBit p.toNat buffer = some buffer₁ := ⟨_, if_pos hp⟩
    have hlen₁ := (checkBit_setBit hset 0).1
    have hbits₁ := fun j => (checkBit_setBit hset j).2
    have hkept₁ : BitsKept buffer buffer₁ := fun j hj => by
      rw [hbits₁, hj]
      rfl
    have hself : checkBit p.toNat buffer₁ = some true := by
      obtain ⟨b, hb⟩ := checkBit_isSome hp
      rw [hbits₁, hb]
      simp
    obtain ⟨buffer', hfold, hlen, hkept, hall⟩ := foldlM_setBit probes
      (show ∀ q ∈ probes, q.toNat < 8 * buffer₁.length from fun q hq => hlen₁ ▸ hlt q (List.mem_cons_of_mem _ hq))
    refine ⟨buffer', ?_, hlen.trans hlen₁, hkept₁.trans hkept, fun q hq => ?_⟩
    · rw [List.foldlM_cons, hset]
      exact hfold
    · rcases List.mem_cons.mp hq with rfl | hq
      · exact hkept _ hself
      · exact hall q hq

theorem setProbes_spec {numProbes : UInt16} {filterBits : UInt32} {buffer : List UInt8} (k : UInt64)
    (hzero : filterBits ≠ 0) (hbits : filterBits.toNat ≤ 8 * buffer.length) :
    ∃ buffer', BloomFilterBuilder.setProbes numProbes filterBits buffer k = some buffer' ∧
      buffer'.length = buffer.length ∧ BitsKept buffer buffer' ∧ ProbesSet numProbes filterBits buffer' k := by
  obtain ⟨probes, hprobes⟩ : ∃ probes, probesForKey k numProbes filterBits = some probes :=
    Option.ne_none_iff_exists'.mp (mt probesForKey_eq_none_iff.mp hzero)
  obtain ⟨buffer', hfold, hlen, hkept, hall⟩ :=
    foldlM_setBit probes fun p hp => lt_of_lt_of_le (probesForKey_lt hprobes p hp) hbits
  refine ⟨buffer', ?_, hlen, hkept, probes, hprobes, hall⟩
  rw [BloomFilterBuilder.setProbes, hprobes]
  exact hfold

/-- The fold of `build_filter` sets the probes of every hash. -/
theorem foldlM_setProbes {numProbes : UInt16} {filterBits : UInt32} (hzero : filterBits ≠ 0) :
    ∀ (keys : List UInt64) {buffer : List UInt8}, filterBits.toNat ≤ 8 * buffer.length →
      ∃ buffer', keys.foldlM (BloomFilterBuilder.setProbes numProbes filterBits) buffer = some buffer' ∧
        buffer'.length = buffer.length ∧ BitsKept buffer buffer' ∧
        ∀ k ∈ keys, ProbesSet numProbes filterBits buffer' k
  | [], buffer, _ => ⟨buffer, rfl, rfl, fun _ h => h, fun _ hk => by simp at hk⟩
  | k :: keys, buffer, hbits => by
    obtain ⟨buffer₁, hset, hlen₁, hkept₁, hk⟩ := setProbes_spec k hzero hbits
    obtain ⟨buffer', hfold, hlen, hkept, hall⟩ := foldlM_setProbes hzero keys
      (show filterBits.toNat ≤ 8 * buffer₁.length from hlen₁ ▸ hbits)
    refine ⟨buffer', ?_, hlen.trans hlen₁, hkept₁.trans hkept, fun k' hk' => ?_⟩
    · rw [List.foldlM_cons, hset]
      exact hfold
    · rcases List.mem_cons.mp hk' with rfl | hk'
      · exact hk.mono hkept
      · exact hall k' hk'

/-- With no bits, the first hash panics. -/
theorem foldlM_setProbes_zero {numProbes : UInt16} {keys : List UInt64} (hkeys : keys ≠ []) (buffer : List UInt8) :
    keys.foldlM (BloomFilterBuilder.setProbes numProbes 0) buffer = none := by
  obtain ⟨k, keys, rfl⟩ := List.exists_cons_of_ne_nil hkeys
  have hnone : BloomFilterBuilder.setProbes numProbes 0 buffer k = none := by
    rw [BloomFilterBuilder.setProbes, probesForKey_eq_none_iff.mpr rfl]
    rfl
  rw [List.foldlM_cons, hnone]
  rfl

namespace BloomFilterBuilder

variable {filterHash : List UInt8 → UInt64}

/-- A built filter has the probes of every hash set, at the number of bits it
is probed with. -/
theorem buildFilter_spec {b : BloomFilterBuilder} {f : BloomFilter} (h : b.buildFilter = some f) :
    f.numProbes = optimalNumProbes b.bitsPerKey ∧ f.wholeKeyFiltering = b.wholeKeyFiltering ∧
      f.prefixExtractor = b.prefixExtractor ∧
      ∀ k ∈ b.keyHashes, ProbesSet f.numProbes f.filterBits f.buffer k := by
  unfold buildFilter at h
  dsimp only at h
  generalize filterSizeBytes b.keyHashes.length.toUInt32 b.bitsPerKey = filterBytes at h
  cases hfold : b.keyHashes.foldlM (setProbes (optimalNumProbes b.bitsPerKey) (filterBytes * 8).toUInt32)
      (List.replicate filterBytes 0) with
  | none =>
    rw [hfold] at h
    cases h
  | some buffer =>
    rw [hfold] at h
    obtain rfl := Option.some.inj h
    refine ⟨rfl, rfl, rfl, fun k hk => ?_⟩
    have hnil : b.keyHashes ≠ [] := List.ne_nil_of_mem hk
    -- the fold went through, so there are bits to probe
    have hzero : (filterBytes * 8).toUInt32 ≠ 0 := fun h0 => by
      rw [h0, foldlM_setProbes_zero hnil] at hfold
      cases hfold
    have hbits : ((filterBytes * 8).toUInt32).toNat ≤ 8 * (List.replicate filterBytes (0 : UInt8)).length := by
      rw [Nat.toUInt32, UInt32.toNat_ofNat', List.length_replicate, Nat.mul_comm]
      exact Nat.mod_le _ _
    obtain ⟨buffer', hfold', hlen, -, hall⟩ := foldlM_setProbes hzero b.keyHashes hbits
    rw [hfold, Option.some.injEq] at hfold'
    subst hfold'
    have hfilterBits : BloomFilter.filterBits ⟨optimalNumProbes b.bitsPerKey, b.wholeKeyFiltering,
        b.prefixExtractor, buffer⟩ = (filterBytes * 8).toUInt32 := by
      rw [BloomFilter.filterBits, hlen, List.length_replicate]
    rw [hfilterBits]
    exact hall k hk

theorem filterSizeBytes_zero (bitsPerKey : UInt32) : filterSizeBytes 0 bitsPerKey = 0 := by
  simp [filterSizeBytes]

/-- With no hashes the filter is built with an empty buffer. -/
theorem buildFilter_of_keyHashes_nil {b : BloomFilterBuilder} (h : b.keyHashes = []) :
    b.buildFilter = some ⟨optimalNumProbes b.bitsPerKey, b.wholeKeyFiltering, b.prefixExtractor, []⟩ := by
  unfold buildFilter
  dsimp only
  rw [h, List.length_nil, show filterSizeBytes (0 : Nat).toUInt32 b.bitsPerKey = 0 from filterSizeBytes_zero _,
    List.replicate_zero]
  rfl

/-! ### What the builder hashes -/

/-- A later state of one builder: the same configuration, more hashes. -/
structure Extends (b b' : BloomFilterBuilder) : Prop where
  bitsPerKey : b'.bitsPerKey = b.bitsPerKey
  wholeKeyFiltering : b'.wholeKeyFiltering = b.wholeKeyFiltering
  prefixExtractor : b'.prefixExtractor = b.prefixExtractor
  keyHashes : b.keyHashes <+: b'.keyHashes

theorem Extends.refl (b : BloomFilterBuilder) : Extends b b := ⟨rfl, rfl, rfl, List.prefix_refl _⟩

theorem Extends.trans {b₁ b₂ b₃ : BloomFilterBuilder} (h₁ : Extends b₁ b₂) (h₂ : Extends b₂ b₃) :
    Extends b₁ b₃ :=
  ⟨h₂.bitsPerKey.trans h₁.bitsPerKey, h₂.wholeKeyFiltering.trans h₁.wholeKeyFiltering,
    h₂.prefixExtractor.trans h₁.prefixExtractor, h₁.keyHashes.trans h₂.keyHashes⟩

variable (filterHash) in
/-- The invariant of deduplication: the last prefix is hashed, so skipping a
repeat of it loses nothing. -/
def LastPrefixHashed (b : BloomFilterBuilder) : Prop := ∀ p, b.lastPrefix = some p → filterHash p ∈ b.keyHashes

variable (filterHash) in
/-- The hashes of a key that a query for it probes: the whole key with
whole-key filtering, and its extracted prefix. -/
structure Hashed (b : BloomFilterBuilder) (key : List UInt8) : Prop where
  wholeKey : b.wholeKeyFiltering = true → filterHash key ∈ b.keyHashes
  keyPrefix : ∀ e ∈ b.prefixExtractor, ∀ n, e.prefixLen (.point key) = some n → filterHash (key.take n) ∈ b.keyHashes

theorem Hashed.mono {b b' : BloomFilterBuilder} {key : List UInt8} (h : Hashed filterHash b key)
    (hext : Extends b b') : Hashed filterHash b' key where
  wholeKey hw := hext.keyHashes.subset (h.wholeKey (hext.wholeKeyFiltering ▸ hw))
  keyPrefix e he n hn := hext.keyHashes.subset (h.keyPrefix e (hext.prefixExtractor ▸ he) n hn)

theorem new_lastPrefixHashed (bitsPerKey : UInt32) (wholeKeyFiltering : Bool)
    (prefixExtractor : Option TargetPrefixExtractor) :
    LastPrefixHashed filterHash (new bitsPerKey wholeKeyFiltering prefixExtractor) := fun _ h => by cases h

/-- The prefix half of `add_key` hashes the key's extracted prefix, unless it
is the last prefix hashed. -/
theorem addKeyPrefix_spec {b : BloomFilterBuilder} (hinv : LastPrefixHashed filterHash b)
    (hc : ∀ e ∈ b.prefixExtractor, e.Contract) (key : List UInt8) :
    ∃ b₁, b.addKeyPrefix filterHash key = some b₁ ∧ Extends b b₁ ∧ LastPrefixHashed filterHash b₁ ∧
      ∀ e ∈ b₁.prefixExtractor, ∀ n, e.prefixLen (.point key) = some n → filterHash (key.take n) ∈ b₁.keyHashes := by
  unfold addKeyPrefix
  cases hext : b.prefixExtractor with
  | none => exact ⟨b, rfl, .refl b, hinv, fun e he => by rw [hext] at he; cases he⟩
  | some e =>
    have hsame : ∀ e' ∈ b.prefixExtractor, e' = e := fun e' he' => by
      rw [hext] at he'
      exact (Option.some.inj he').symm
    dsimp only
    cases hn : e.prefixLen (.point key) with
    | none =>
      refine ⟨b, rfl, .refl b, hinv, fun e' he' n hn' => ?_⟩
      rw [hsame e' he', hn] at hn'
      cases hn'
    | some n =>
      have hle : n ≤ key.length := (hc e hext).le_length _ n hn
      dsimp only
      rw [if_pos hle]
      by_cases hlast : b.lastPrefix = some (key.take n)
      · -- a repeat of the last prefix, which is hashed already
        rw [if_pos hlast]
        refine ⟨b, rfl, .refl b, hinv, fun e' he' n' hn' => ?_⟩
        rw [hsame e' he', hn, Option.some.injEq] at hn'
        subst hn'
        exact hinv _ hlast
      · rw [if_neg hlast]
        refine ⟨_, rfl, ⟨rfl, rfl, hext.symm, List.prefix_append _ _⟩, fun p hp => ?_, fun e' he' n' hn' => ?_⟩
        · cases hp
          exact List.mem_append_right _ (List.mem_singleton_self _)
        · rw [← Option.mem_some_iff.mp he', hn, Option.some.injEq] at hn'
          subst hn'
          exact List.mem_append_right _ (List.mem_singleton_self _)

/-- One `add_key` hashes the key and keeps the invariant. -/
theorem addKey_spec {b : BloomFilterBuilder} (hinv : LastPrefixHashed filterHash b)
    (hc : ∀ e ∈ b.prefixExtractor, e.Contract) (key : List UInt8) :
    ∃ b', b.addKey filterHash key = some b' ∧ Extends b b' ∧ LastPrefixHashed filterHash b' ∧
      Hashed filterHash b' key := by
  obtain ⟨b₁, h₁, hext₁, hinv₁, hpre₁⟩ := addKeyPrefix_spec hinv hc key
  unfold addKey
  rw [h₁]
  cases hw : b₁.wholeKeyFiltering with
  | false => exact ⟨b₁, by simp [hw], hext₁, hinv₁, ⟨by simp [hw], hpre₁⟩⟩
  | true =>
    -- the whole key's hash goes after the prefix's
    have hext : Extends b₁ { b₁ with keyHashes := b₁.keyHashes ++ [filterHash key] } :=
      ⟨rfl, rfl, rfl, List.prefix_append _ _⟩
    refine ⟨_, by simp [hw], hext₁.trans hext, fun p hp => hext.keyHashes.subset (hinv₁ p hp),
      ⟨fun _ => List.mem_append_right _ (List.mem_singleton_self _),
        fun e he n hn => hext.keyHashes.subset (hpre₁ e he n hn)⟩⟩

/-- `add_key` over a list of keys, in any order, hashes every one of them. -/
theorem addKeys_spec (keys : List (List UInt8)) {b : BloomFilterBuilder} (hinv : LastPrefixHashed filterHash b)
    (hc : ∀ e ∈ b.prefixExtractor, e.Contract) :
    ∃ b', b.addKeys filterHash keys = some b' ∧ Extends b b' ∧ LastPrefixHashed filterHash b' ∧
      ∀ key ∈ keys, Hashed filterHash b' key := by
  induction keys generalizing b with
  | nil => exact ⟨b, rfl, .refl b, hinv, fun _ h => by cases h⟩
  | cons key keys ih =>
    obtain ⟨b₁, h₁, hext₁, hinv₁, hkey⟩ := addKey_spec hinv hc key
    obtain ⟨b', h', hext', hinv', hkeys⟩ := ih hinv₁ (hext₁.prefixExtractor ▸ hc)
    refine ⟨b', ?_, hext₁.trans hext', hinv', fun k hk => ?_⟩
    · rw [addKeys, List.foldlM_cons, h₁]
      exact h'
    · rcases List.mem_cons.mp hk with rfl | hk
      · exact hkey.mono hext'
      · exact hkeys k hk

end BloomFilterBuilder

/-! ### Probing -/

namespace BloomFilter

variable {filterHash : List UInt8 → UInt64}

/-- `decode` reads back what `encode` wrote, given the same policy. -/
theorem decode_encode_eq (f : BloomFilter) : decode f.encode f.wholeKeyFiltering f.prefixExtractor = some f := by
  rw [decode, encode, ByteCodec.getBE_putBE 2 (UInt16.toNat_lt f.numProbes), Option.map_some]
  dsimp only
  rw [show f.numProbes.toNat.toUInt16 = f.numProbes from UInt16.ofNat_toNat]

theorem checkProbes_of_set {buffer : List UInt8} :
    ∀ probes : List UInt32, (∀ p ∈ probes, checkBit p.toNat buffer = some true) → checkProbes buffer probes = some true
  | [], _ => rfl
  | p :: probes, hset => by
    rw [checkProbes, hset p List.mem_cons_self]
    exact checkProbes_of_set probes fun q hq => hset q (List.mem_cons_of_mem _ hq)

theorem mightContain_of_probesSet {f : BloomFilter} {k : UInt64} (h : ProbesSet f.numProbes f.filterBits f.buffer k) :
    f.mightContain k = some true := by
  obtain ⟨probes, hprobes, hset⟩ := h
  rw [mightContain, hprobes]
  exact checkProbes_of_set probes hset

/-- A filter with an empty buffer has no bits: every probe panics. -/
theorem mightContain_of_buffer_nil {f : BloomFilter} (h : f.buffer = []) (k : UInt64) : f.mightContain k = none := by
  have hbits : f.filterBits = 0 := by
    rw [filterBits, h]
    rfl
  rw [mightContain, probesForKey_eq_none_iff.mpr hbits]
  rfl

end BloomFilter

/-- A query that an added key satisfies: a point query for it, or a scan
prefix of it. -/
def PrefixTarget.Matches : PrefixTarget → List UInt8 → Prop
  | .point q, key => q = key
  | .prefixBytes p, key => p <+: key

instance (target : PrefixTarget) (key : List UInt8) : Decidable (target.Matches key) := by
  cases target <;> unfold PrefixTarget.Matches <;> infer_instance

/-- Under the contract, the extraction of a query is that of every key it
matches. -/
theorem TargetPrefixExtractor.Contract.take_of_matches {e : TargetPrefixExtractor} (hc : e.Contract)
    {target : PrefixTarget} {key : List UInt8} (hm : target.Matches key) {n : Nat}
    (hn : e.prefixLen target = some n) : e.prefixLen (.point key) = some n ∧ target.bytes.take n = key.take n := by
  cases target with
  | point q =>
    cases hm
    exact ⟨hn, rfl⟩
  | prefixBytes p =>
    obtain ⟨hkey, htake⟩ := hc.prefixBytes p key n hn hm
    exact ⟨hkey, htake.symm⟩

theorem take_eq_of_prefix {p q : List UInt8} (h : p <+: q) {n : Nat} (hn : n ≤ p.length) : q.take n = p.take n := by
  rw [List.prefix_iff_eq_take.mp h, List.take_take, Nat.min_eq_left hn]

theorem fixedPrefixExtractor_eq_some {len n : Nat} {t : PrefixTarget} :
    (fixedPrefixExtractor len).prefixLen t = some n ↔ n = len ∧ len ≤ t.bytes.length := by
  unfold fixedPrefixExtractor
  dsimp only
  split_ifs with hlen
  · exact ⟨fun h => ⟨(Option.some.inj h).symm, hlen⟩, fun ⟨hn, _⟩ => hn ▸ rfl⟩
  · exact ⟨fun h => (nomatch h), fun ⟨_, h⟩ => absurd h hlen⟩

/-- The fixed-length extractor keeps the contract. -/
theorem fixedPrefixExtractor_contract (len : Nat) : (fixedPrefixExtractor len).Contract where
  le_length t n h := by
    obtain ⟨rfl, hlen⟩ := fixedPrefixExtractor_eq_some.mp h
    exact hlen
  point k k' n h htake := by
    obtain ⟨rfl, hlen⟩ := fixedPrefixExtractor_eq_some.mp h
    -- `k'` agrees with `k` on its first `n` bytes, so it has as many
    have hlen' := congrArg List.length htake
    rw [List.length_take, List.length_take, Nat.min_eq_left (show n ≤ k.length from hlen)] at hlen'
    exact fixedPrefixExtractor_eq_some.mpr ⟨rfl, show n ≤ k'.length by omega⟩
  prefixBytes p q n h hpq := by
    obtain ⟨rfl, hlen⟩ := fixedPrefixExtractor_eq_some.mp h
    exact ⟨fixedPrefixExtractor_eq_some.mpr ⟨rfl, le_trans hlen hpq.length_le⟩, take_eq_of_prefix hpq hlen⟩

namespace BloomFilterBuilder

variable {filterHash : List UInt8 → UInt64}

/-- A filter built from the hashes of a key answers every query the key
matches with `true`. -/
theorem mightMatch_of_hashed {b : BloomFilterBuilder} {f : BloomFilter} (hbuild : b.buildFilter = some f)
    (hc : ∀ e ∈ b.prefixExtractor, e.Contract) {key : List UInt8} (hkey : Hashed filterHash b key)
    {target : PrefixTarget} (hm : target.Matches key) : f.mightMatch filterHash target = some true := by
  obtain ⟨-, hwkf, hext, hset⟩ := buildFilter_spec hbuild
  have hprobe : ∀ k ∈ b.keyHashes, f.mightContain k = some true :=
    fun k hk => BloomFilter.mightContain_of_probesSet (hset k hk)
  unfold BloomFilter.mightMatch
  split
  · -- a point query on a filter of whole keys probes the key's own hash
    rename_i q hw
    obtain rfl : q = key := hm
    exact hprobe _ (hkey.wholeKey (hwkf ▸ hw))
  · split
    · rfl
    · rename_i e he
      have hc' := hc e (hext ▸ he)
      split
      · rfl
      · -- the query's extraction is the key's, whose hash was added
        rename_i n hn
        obtain ⟨hkn, htake⟩ := hc'.take_of_matches hm hn
        rw [if_pos (hc'.le_length _ n hn), htake]
        exact hprobe _ (hkey.keyPrefix e (hext ▸ he) n hkn)

variable (filterHash)

/-- No false negatives: under the extractor's contract `add_key` completes
over any keys, in any order, and a filter built from them and read back
answers `true` to every query that an added key matches. -/
theorem mightMatch_of_added (bitsPerKey : UInt32) (wholeKeyFiltering : Bool)
    {prefixExtractor : Option TargetPrefixExtractor} (hc : ∀ e ∈ prefixExtractor, e.Contract)
    (keys : List (List UInt8)) :
    ∃ b, (new bitsPerKey wholeKeyFiltering prefixExtractor).addKeys filterHash keys = some b ∧
      ∀ f, b.buildFilter = some f → BloomFilter.decode f.encode wholeKeyFiltering prefixExtractor = some f ∧
        ∀ key ∈ keys, ∀ target : PrefixTarget, target.Matches key → f.mightMatch filterHash target = some true := by
  obtain ⟨b, hadd, hext, -, hkeys⟩ := addKeys_spec keys (new_lastPrefixHashed _ _ _) hc
  refine ⟨b, hadd, fun f hbuild => ⟨?_, fun key hk target hm =>
    mightMatch_of_hashed hbuild (hext.prefixExtractor ▸ hc) (hkeys key hk) hm⟩⟩
  -- the filter keeps the policy it was built with
  obtain ⟨-, hwkf, hpe, -⟩ := buildFilter_spec hbuild
  have hw : f.wholeKeyFiltering = wholeKeyFiltering := hwkf.trans hext.wholeKeyFiltering
  have hp : f.prefixExtractor = prefixExtractor := hpe.trans hext.prefixExtractor
  rw [← hw, ← hp]
  exact BloomFilter.decode_encode_eq f

/-- Three keys under a three-byte prefix: point and scan queries of them all
pass the filter. -/
theorem fixedPrefix_mightMatch_of_added :
    (∀ e ∈ some (fixedPrefixExtractor 3), e.Contract) ∧
      ∃ b, (new 10 false (some (fixedPrefixExtractor 3))).addKeys (fun key => key.length.toUInt64)
          [[1, 2, 3, 1], [1, 2, 3, 2], [1, 2, 4, 1]] = some b ∧
        ∀ f, b.buildFilter = some f → BloomFilter.decode f.encode false (some (fixedPrefixExtractor 3)) = some f ∧
          ∀ key ∈ [[1, 2, 3, 1], [1, 2, 3, 2], [1, 2, 4, 1]], ∀ target : PrefixTarget, target.Matches key →
            f.mightMatch (fun key => key.length.toUInt64) target = some true :=
  have hc : ∀ e ∈ some (fixedPrefixExtractor 3), e.Contract := fun _ he =>
    Option.mem_some_iff.mp he ▸ fixedPrefixExtractor_contract 3
  ⟨hc, mightMatch_of_added _ 10 false hc _⟩

/-- A filter built from no keys has no bits: a point query on it takes the
remainder by zero in `probes_for_key`, whatever the policy. -/
theorem mightMatch_panics_on_empty_filter (bitsPerKey : UInt32) (prefixExtractor : Option TargetPrefixExtractor)
    (key : List UInt8) :
    ∃ b f, (new bitsPerKey true prefixExtractor).addKeys filterHash [] = some b ∧ b.buildFilter = some f ∧
      BloomFilter.decode f.encode true prefixExtractor = some f ∧ f.mightMatch filterHash (.point key) = none :=
  ⟨_, _, rfl, buildFilter_of_keyHashes_nil rfl, BloomFilter.decode_encode_eq _,
    BloomFilter.mightContain_of_buffer_nil rfl _⟩

end BloomFilterBuilder

end SlateDb
