import SlateDb.Types

/-!
# Range-partitioned key spaces

`RangePartitionedKeySpace` is the trait an SST index implements: a number of
partitions and the first key of each. Both implementations keep the first keys
in a vector and index it (the test keyspace's `Vec`, the index's block
metadata), so the model is that vector: `partition_first_key` past the last
partition is the vector's out-of-bounds panic, `none` here, and each search
that reads a first key returns `none` where it panics. Keys in partition `i`
are at least its first key and at most the next partition's first key, so a
key may lie in several consecutive partitions.

`partition_point` is a binary search with an inclusive upper bound and an early
break. It reads only partitions that exist, and on a monotone predicate it
returns the number of leading partitions that satisfy it (`partitionPoint_eq`),
by the loop invariant `LoopInv`. From that, on a keyspace with at least one
partition and non-decreasing first keys, `first_partition_including_key` and
`last_partition_including_key` return the least and the greatest partition
that could contain a key, and `partitions_covering_range` covers every
partition that could contain a key of the range. On a keyspace with no
partition, `first_partition_including_key` reads the first key of partition
`0` and panics (`firstPartitionIncludingKey_empty`).
-/

namespace SlateDb

structure RangePartitionedKeySpace (K : Type) where
  firstKeys : List K

namespace RangePartitionedKeySpace

variable {K : Type} (ks : RangePartitionedKeySpace K)

def partitions : Nat := ks.firstKeys.length

/-- `partition_first_key`, whose index past the last partition panics. -/
def partitionFirstKey (partition : Nat) : Option K := ks.firstKeys[partition]?

@[simp] theorem partitions_eq : ks.partitions = ks.firstKeys.length := rfl

theorem partitionFirstKey_of_lt {i : Nat} (hi : i < ks.firstKeys.length) :
    ks.partitionFirstKey i = some ks.firstKeys[i] :=
  List.getElem?_eq_getElem hi

theorem partitionFirstKey_eq_some {i : Nat} {k : K} (h : ks.partitionFirstKey i = some k) :
    ∃ hi : i < ks.firstKeys.length, ks.firstKeys[i] = k :=
  List.getElem?_eq_some_iff.mp h

/-- The loop of `partition_point`: `low ..= high` is still to search and
`partPoint` is one past the last partition found to satisfy the predicate. -/
def partitionPointLoop (pred : K → Bool) (low high partPoint : Nat) : Option Nat :=
  if low ≤ high then
    let mid := low + (high - low) / 2
    match ks.partitionFirstKey mid with
    | none => none
    | some midPartFirstKey =>
      if pred midPartFirstKey then partitionPointLoop pred (mid + 1) high (mid + 1)
      else if mid > low then partitionPointLoop pred low (mid - 1) partPoint
      else some partPoint
  else some partPoint
termination_by high + 1 - low

def partitionPoint (pred : K → Bool) : Option Nat :=
  if ks.partitions = 0 then some 0
  else ks.partitionPointLoop pred 0 (ks.partitions - 1) 0

/-! ### `partition_point` on a monotone predicate -/

section Loop

variable {ks} {pred : K → Bool} {m : Nat}

/-- What the loop keeps, for a predicate that holds of exactly the partitions
below `m`: the answer lies in `low ..= high + 1`, `partPoint` is `low`, and
every partition the loop may read exists. -/
def LoopInv (ks : RangePartitionedKeySpace K) (m low high partPoint : Nat) : Prop :=
  partPoint = low ∧ low ≤ m ∧ m ≤ high + 1 ∧ high < ks.firstKeys.length

theorem partitionPointLoop_eq
    (hp : ∀ i (hi : i < ks.firstKeys.length), pred ks.firstKeys[i] = true ↔ i < m)
    {low high partPoint : Nat} (h : LoopInv ks m low high partPoint) :
    ks.partitionPointLoop pred low high partPoint = some m := by
  obtain ⟨hpart, hlow, hhigh, hn⟩ := h
  fun_induction ks.partitionPointLoop pred low high partPoint with
  | case1 low high partPoint hle mid hnone =>
    -- the middle partition exists, so its read does not panic
    rw [ks.partitionFirstKey_of_lt (by omega)] at hnone
    cases hnone
  | case2 low high partPoint hle mid k hk htrue ih =>
    -- the middle partition satisfies the predicate, so the answer is above it
    obtain ⟨hmid, rfl⟩ := ks.partitionFirstKey_eq_some hk
    have hlt : mid < m := (hp mid hmid).mp htrue
    exact ih rfl (by omega) hhigh hn
  | case3 low high partPoint hle mid k hk hfalse hgt ih =>
    -- the middle partition does not, so the answer is at most it
    obtain ⟨hmid, rfl⟩ := ks.partitionFirstKey_eq_some hk
    have hge : m ≤ mid := by
      by_contra hlt
      exact hfalse ((hp mid hmid).mpr (by omega))
    exact ih hpart hlow (by omega) (by omega)
  | case4 low high partPoint hle mid k hk hfalse hle' =>
    -- the break: the middle partition is `low`, and it does not satisfy the predicate
    obtain ⟨hmid, rfl⟩ := ks.partitionFirstKey_eq_some hk
    have hge : m ≤ mid := by
      by_contra hlt
      exact hfalse ((hp mid hmid).mpr (by omega))
    congr 1
    omega
  | case5 low high partPoint hgt =>
    congr 1
    omega

/-- On a predicate that holds of exactly the first `m` partitions,
`partition_point` returns `m` without panicking. -/
theorem partitionPoint_eq (hm : m ≤ ks.firstKeys.length)
    (hp : ∀ i (hi : i < ks.firstKeys.length), pred ks.firstKeys[i] = true ↔ i < m) :
    ks.partitionPoint pred = some m := by
  unfold partitionPoint
  split
  · simp only [partitions_eq] at *
    congr 1
    omega
  · simp only [partitions_eq] at *
    exact partitionPointLoop_eq hp ⟨rfl, Nat.zero_le _, by omega, by omega⟩

end Loop

/-- A predicate closed under going down holds of an initial segment. -/
theorem exists_threshold {P : Nat → Prop} :
    ∀ n : Nat, (∀ i j, i ≤ j → j < n → P j → P i) → ∃ m ≤ n, ∀ i < n, P i ↔ i < m
  | 0, _ => ⟨0, Nat.le_refl _, fun _ hi => absurd hi (Nat.not_lt_zero _)⟩
  | n + 1, hP => by
    obtain ⟨m, hm, hiff⟩ := exists_threshold n (fun i j hij hj => hP i j hij (by omega))
    by_cases hn : P n
    · -- every partition below `n` satisfies it too
      exact ⟨n + 1, Nat.le_refl _, fun i hi => ⟨fun _ => hi, fun _ => hP i n (by omega) (by omega) hn⟩⟩
    · refine ⟨m, by omega, fun i hi => ?_⟩
      rcases Nat.lt_or_ge i n with hin | hin
      · exact hiff i hin
      · obtain rfl : i = n := by omega
        exact ⟨fun h => absurd h hn, fun h => absurd h (by omega)⟩

/-- A predicate closed under going down the partitions holds of the first `m`
of them, for some `m`. -/
theorem exists_prefix {pred : K → Bool}
    (hmono : ∀ j (hj : j < ks.firstKeys.length), ∀ i (hij : i ≤ j),
      pred ks.firstKeys[j] = true → pred ks.firstKeys[i] = true) :
    ∃ m ≤ ks.firstKeys.length,
      ∀ i (hi : i < ks.firstKeys.length), pred ks.firstKeys[i] = true ↔ i < m := by
  obtain ⟨m, hm, hiff⟩ := exists_threshold
    (P := fun i => ∃ hi : i < ks.firstKeys.length, pred ks.firstKeys[i] = true)
    ks.firstKeys.length (fun i j hij hj ⟨_, hpj⟩ => ⟨by omega, hmono j hj i hij hpj⟩)
  exact ⟨m, hm, fun i hi => ⟨fun h => (hiff i hi).mp ⟨hi, h⟩, fun h => ((hiff i hi).mpr h).2⟩⟩

/-- On a predicate that holds of first keys from the first partition up to
some point and of none after it, `partition_point` returns, without panicking,
the number of leading partitions whose first key satisfies it. -/
theorem partitionPoint_spec {pred : K → Bool}
    (hmono : ∀ j (hj : j < ks.firstKeys.length), ∀ i (hij : i ≤ j),
      pred ks.firstKeys[j] = true → pred ks.firstKeys[i] = true) (m : Nat) :
    ks.partitionPoint pred = some m ↔ m ≤ ks.partitions ∧
      (∀ i (hi : i < ks.firstKeys.length), i < m → pred ks.firstKeys[i] = true) ∧
      (∀ hm : m < ks.firstKeys.length, pred ks.firstKeys[m] = false) := by
  obtain ⟨m₀, hm₀, hiff⟩ := ks.exists_prefix hmono
  rw [partitionPoint_eq hm₀ hiff, Option.some.injEq, partitions_eq]
  constructor
  · rintro rfl
    refine ⟨hm₀, fun i hi him => (hiff i hi).mpr him, fun hlt => ?_⟩
    exact Bool.eq_false_iff.mpr (fun h => absurd ((hiff m₀ hlt).mp h) (lt_irrefl m₀))
  · rintro ⟨hm, hbelow, hat⟩
    -- the two thresholds agree: neither can lie strictly below the other
    rcases Nat.lt_trichotomy m₀ m with hlt | heq | hgt
    · exact absurd ((hiff m₀ (by omega)).mp (hbelow m₀ (by omega) hlt)) (lt_irrefl m₀)
    · exact heq
    · have := (hiff m (by omega)).mpr hgt
      rw [hat (by omega)] at this
      cases this

/-- Five partitions whose first keys are `10, 20, 20, 20, 30`: a run of equal
first keys, as when one key's versions span several blocks. -/
def sampleKeySpace : RangePartitionedKeySpace Nat := ⟨[10, 20, 20, 20, 30]⟩

theorem partitionPoint_sample :
    sampleKeySpace.partitionPoint (fun k => decide (k < 20)) = some 1 :=
  (sampleKeySpace.partitionPoint_spec (by decide) 1).mpr (by decide)

variable [LinearOrder K]

/-- `first_partition_including_key`: the first partition that could include
the key, or `none` if every partition's keys are above it. -/
def firstPartitionIncludingKey (key : K) : Option (Option Nat) := do
  let partPoint ← ks.partitionPoint (fun firstKey => decide (firstKey < key))
  if partPoint > 0 then return some (partPoint - 1)
  -- the first partition may start with the key itself
  if (← ks.partitionFirstKey 0) = key then return some 0
  return none

def firstPartitionIncludingOrAfterKey (key : K) : Option Nat :=
  (ks.firstPartitionIncludingKey key).map (·.getD 0)

/-- `last_partition_including_key`: the last partition that could include the
key, or `none` if every partition's keys are above it. -/
def lastPartitionIncludingKey (key : K) : Option (Option Nat) := do
  let partPoint ← ks.partitionPoint (fun firstKey => decide (firstKey ≤ key))
  if partPoint = 0 then return none
  return some (partPoint - 1)

/-- The `start_idx` of `partitions_covering_range`. -/
def coveringStartIdx (start : Bound K) : Option Nat :=
  match start with
  | .included k | .excluded k => ks.firstPartitionIncludingOrAfterKey k
  | .unbounded => pure 0

/-- The `end_idx_exclusive` of `partitions_covering_range`: an excluded end
that is a partition's first key leaves that partition out. -/
def coveringEndIdxExclusive (finish : Bound K) (startIdx : Nat) : Option Nat :=
  match finish with
  | .included k => (ks.lastPartitionIncludingKey k).map fun p => (p.map (· + 1)).getD startIdx
  | .excluded k => do
    match ← ks.lastPartitionIncludingKey k with
    | none => pure startIdx
    | some p =>
      let firstKey ← ks.partitionFirstKey p
      pure (if k = firstKey then p else p + 1)
  | .unbounded => pure ks.partitions

/-- `partitions_covering_range`: the half-open range of partitions, as its two
ends, that overlap the bounds. -/
def partitionsCoveringRange (start finish : Bound K) : Option (Nat × Nat) := do
  let startIdx ← ks.coveringStartIdx start
  let endIdxExclusive ← ks.coveringEndIdxExclusive finish startIdx
  return (startIdx, endIdxExclusive)

/-- On a keyspace with no partition, where every first key is vacuously above
any key, `first_partition_including_key` still reads the first key of partition
`0` and panics, while `last_partition_including_key` returns `none`; a range
with a start key panics in `partitions_covering_range` the same way. -/
theorem firstPartitionIncludingKey_empty (key : K) (finish : Bound K) :
    (⟨[]⟩ : RangePartitionedKeySpace K).partitions = 0 ∧
    (⟨[]⟩ : RangePartitionedKeySpace K).firstPartitionIncludingKey key = none ∧
    (⟨[]⟩ : RangePartitionedKeySpace K).lastPartitionIncludingKey key = some none ∧
    (⟨[]⟩ : RangePartitionedKeySpace K).partitionsCoveringRange (.included key) finish = none := by
  refine ⟨rfl, rfl, rfl, rfl⟩

/-! ### The searches on a sorted keyspace -/

/-- The first keys do not decrease. -/
def Sorted : Prop :=
  ∀ j (_ : j < ks.firstKeys.length), ∀ i (_ : i ≤ j), ks.firstKeys[i] ≤ ks.firstKeys[j]

instance instDecidableSorted : Decidable ks.Sorted :=
  inferInstanceAs (Decidable (∀ j (_ : j < ks.firstKeys.length), ∀ i (_ : i ≤ j), _))

/-- Partition `i` could hold `key`: the key lies between its first key and the
next partition's first key, if there is a next partition. -/
def CouldContain (i : Nat) (key : K) : Prop :=
  ∃ _ : i < ks.firstKeys.length, ks.firstKeys[i] ≤ key ∧
    ∀ _ : i + 1 < ks.firstKeys.length, key ≤ ks.firstKeys[i + 1]

instance instDecidableCouldContain (i : Nat) (key : K) : Decidable (ks.CouldContain i key) :=
  inferInstanceAs (Decidable (∃ _ : i < ks.firstKeys.length, _ ∧ _))

variable {ks}

/-- On a sorted keyspace a predicate closed under going down the keys holds of
the first `m` partitions for some `m`, and `partition_point` returns `m`. -/
theorem Sorted.partitionPoint (hs : ks.Sorted) (pred : K → Bool)
    (hmono : ∀ a b, a ≤ b → pred b = true → pred a = true) :
    ∃ m ≤ ks.firstKeys.length,
      (∀ i (hi : i < ks.firstKeys.length), pred ks.firstKeys[i] = true ↔ i < m) ∧
      ks.partitionPoint pred = some m := by
  have hdown : ∀ j (hj : j < ks.firstKeys.length), ∀ i (hij : i ≤ j),
      pred ks.firstKeys[j] = true → pred ks.firstKeys[i] = true :=
    fun j hj i hij hpj => hmono _ _ (hs j hj i hij) hpj
  obtain ⟨m, hm, hiff⟩ := ks.exists_prefix hdown
  exact ⟨m, hm, hiff, partitionPoint_eq hm hiff⟩

/-- The partitions whose first key is below `key`. -/
theorem Sorted.partitionPoint_lt (hs : ks.Sorted) (key : K) :
    ∃ m ≤ ks.firstKeys.length,
      (∀ i (hi : i < ks.firstKeys.length), ks.firstKeys[i] < key ↔ i < m) ∧
      ks.partitionPoint (fun firstKey => decide (firstKey < key)) = some m := by
  obtain ⟨m, hm, hiff, hpp⟩ := hs.partitionPoint (fun firstKey => decide (firstKey < key))
    (fun a b hab hb => decide_eq_true (lt_of_le_of_lt hab (of_decide_eq_true hb)))
  exact ⟨m, hm, fun i hi => by simpa using hiff i hi, hpp⟩

/-- The partitions whose first key is at most `key`. -/
theorem Sorted.partitionPoint_le (hs : ks.Sorted) (key : K) :
    ∃ m ≤ ks.firstKeys.length,
      (∀ i (hi : i < ks.firstKeys.length), ks.firstKeys[i] ≤ key ↔ i < m) ∧
      ks.partitionPoint (fun firstKey => decide (firstKey ≤ key)) = some m := by
  obtain ⟨m, hm, hiff, hpp⟩ := hs.partitionPoint (fun firstKey => decide (firstKey ≤ key))
    (fun a b hab hb => decide_eq_true (le_trans hab (of_decide_eq_true hb)))
  exact ⟨m, hm, fun i hi => by simpa using hiff i hi, hpp⟩

/-- No partition could hold a key below every first key. -/
theorem not_couldContain_of_lt {key : K}
    (h : ∀ i (hi : i < ks.firstKeys.length), key < ks.firstKeys[i]) (j : Nat) :
    ¬ks.CouldContain j key :=
  fun ⟨hj, hle, _⟩ => absurd hle (not_le.mpr (h j hj))

/-- Below every first key the answer `none` is right on both counts: no
partition could hold the key. -/
theorem none_spec_of_lt {key : K} {Q : Set Nat → Nat → Prop} (hQ : ∀ S i, Q S i → i ∈ S)
    (h : ∀ i (hi : i < ks.firstKeys.length), key < ks.firstKeys[i]) :
    (∀ i, (none : Option Nat) = some i ↔ Q {j | ks.CouldContain j key} i) ∧
      ((none : Option Nat) = none ↔ ∀ i (hi : i < ks.firstKeys.length), key < ks.firstKeys[i]) :=
  ⟨fun i => ⟨(fun hi => nomatch hi), fun hi => absurd (hQ _ i hi) (not_couldContain_of_lt h i)⟩,
    ⟨fun _ => h, fun _ => rfl⟩⟩

/-- A key at or above the first partition's first key is not below every first key. -/
theorem some_eq_none_iff_of_not_lt {key : K} {i₀ : Nat} (hn : 0 < ks.firstKeys.length)
    (hfirst : ¬key < ks.firstKeys[0]) :
    (some i₀ = none ↔ ∀ i (hi : i < ks.firstKeys.length), key < ks.firstKeys[i]) :=
  ⟨(fun h => nomatch h), fun h => absurd (h 0 hn) hfirst⟩

/-- Where the search finds a least or a greatest partition, its answer is that
partition. -/
theorem some_iff_of_isLeast {S : Set Nat} {r : Option Nat} {i₀ : Nat} (hr : r = some i₀)
    (h : IsLeast S i₀) (i : Nat) : r = some i ↔ IsLeast S i := by
  subst hr
  exact ⟨fun hi => Option.some.inj hi ▸ h, fun hi => congrArg some (h.unique hi)⟩

theorem some_iff_of_isGreatest {S : Set Nat} {r : Option Nat} {i₀ : Nat} (hr : r = some i₀)
    (h : IsGreatest S i₀) (i : Nat) : r = some i ↔ IsGreatest S i := by
  subst hr
  exact ⟨fun hi => Option.some.inj hi ▸ h, fun hi => congrArg some (h.unique hi)⟩

/-- On a sorted keyspace with a partition, `first_partition_including_key`
returns, without panicking, the least partition that could hold the key, and
`none` exactly when every first key is above it. -/
theorem firstPartitionIncludingKey_spec (hn : 0 < ks.firstKeys.length) (hs : ks.Sorted)
    (key : K) :
    ∃ r, ks.firstPartitionIncludingKey key = some r ∧
      (∀ i, r = some i ↔ IsLeast {j | ks.CouldContain j key} i) ∧
      (r = none ↔ ∀ i (hi : i < ks.firstKeys.length), key < ks.firstKeys[i]) := by
  obtain ⟨m, hm, hiff, hpp⟩ := hs.partitionPoint_lt key
  simp only [firstPartitionIncludingKey, hpp, Option.bind_eq_bind, Option.bind_some]
  by_cases hm0 : m > 0
  · -- partition `m - 1` is the last one starting below the key
    have hleast : IsLeast {j | ks.CouldContain j key} (m - 1) := by
      refine ⟨⟨by omega, le_of_lt ((hiff _ _).mpr (by omega)), fun hm' => ?_⟩, ?_⟩
      · exact not_lt.mp (fun h => absurd ((hiff _ hm').mp h) (by omega))
      · intro j ⟨_, _, hnext⟩
        by_contra hj
        exact absurd (hnext (by omega)) (not_le.mpr ((hiff _ _).mpr (by omega)))
    have hfirst : ¬key < ks.firstKeys[0] := lt_asymm ((hiff 0 hn).mpr hm0)
    rw [if_pos hm0]
    exact ⟨_, rfl, some_iff_of_isLeast rfl hleast, some_eq_none_iff_of_not_lt hn hfirst⟩
  rw [if_neg hm0, ks.partitionFirstKey_of_lt hn, Option.bind_some]
  -- no first key is below the key
  have hge : ∀ i (hi : i < ks.firstKeys.length), key ≤ ks.firstKeys[i] :=
    fun i hi => not_lt.mp (fun h => absurd ((hiff i hi).mp h) (by omega))
  by_cases h0 : ks.firstKeys[0] = key
  · have hleast : IsLeast {j | ks.CouldContain j key} 0 :=
      ⟨⟨hn, le_of_eq h0, fun h1 => hge 1 h1⟩, fun j _ => Nat.zero_le j⟩
    rw [if_pos h0]
    exact ⟨_, rfl, some_iff_of_isLeast rfl hleast,
      some_eq_none_iff_of_not_lt hn (by rw [h0]; exact lt_irrefl key)⟩
  · -- so every first key is above it
    have hall : ∀ i (hi : i < ks.firstKeys.length), key < ks.firstKeys[i] := by
      intro i hi
      refine lt_of_le_of_ne (hge i hi) (fun heq => h0 (le_antisymm ?_ (hge 0 hn)))
      exact heq ▸ hs i hi 0 (Nat.zero_le i)
    rw [if_neg h0]
    exact ⟨_, rfl, none_spec_of_lt (fun _ _ h => h.1) hall⟩

/-- Partition `0` could hold `20`, the first key of the run after it. -/
theorem firstPartitionIncludingKey_sample :
    sampleKeySpace.firstPartitionIncludingKey 20 = some (some 0) := by
  obtain ⟨r, hr, hiff, -⟩ := firstPartitionIncludingKey_spec
    (show 0 < sampleKeySpace.firstKeys.length by decide) (by decide) 20
  rw [hr, (hiff 0).mpr ⟨by decide, fun j _ => Nat.zero_le j⟩]

/-- On a sorted keyspace `last_partition_including_key` returns, without
panicking, the greatest partition that could hold the key, and `none` exactly
when every first key is above it. -/
theorem lastPartitionIncludingKey_spec (hs : ks.Sorted) (key : K) :
    ∃ r, ks.lastPartitionIncludingKey key = some r ∧
      (∀ i, r = some i ↔ IsGreatest {j | ks.CouldContain j key} i) ∧
      (r = none ↔ ∀ i (hi : i < ks.firstKeys.length), key < ks.firstKeys[i]) := by
  obtain ⟨m, hm, hiff, hpp⟩ := hs.partitionPoint_le key
  simp only [lastPartitionIncludingKey, hpp, Option.bind_eq_bind, Option.bind_some]
  by_cases hm0 : m = 0
  · -- no first key is at most the key
    have hall : ∀ i (hi : i < ks.firstKeys.length), key < ks.firstKeys[i] :=
      fun i hi => not_le.mp (fun h => absurd ((hiff i hi).mp h) (by omega))
    rw [if_pos hm0]
    exact ⟨_, rfl, none_spec_of_lt (fun _ _ h => h.1) hall⟩
  · -- partition `m - 1` is the last one starting at or below the key
    have hgreatest : IsGreatest {j | ks.CouldContain j key} (m - 1) := by
      refine ⟨⟨by omega, (hiff _ _).mpr (by omega), fun hm' => ?_⟩, ?_⟩
      · exact le_of_lt (not_le.mp (fun h => absurd ((hiff _ hm').mp h) (by omega)))
      · intro j ⟨hj, hle, _⟩
        have := (hiff j hj).mp hle
        omega
    have hfirst : ¬key < ks.firstKeys[0] := not_lt.mpr ((hiff 0 (by omega)).mpr (by omega))
    rw [if_neg hm0]
    exact ⟨_, rfl, some_iff_of_isGreatest rfl hgreatest,
      some_eq_none_iff_of_not_lt (by omega) hfirst⟩

/-- The last partition of the run of `20` could hold `20`; the partition after
it starts at `30`. -/
theorem lastPartitionIncludingKey_sample :
    sampleKeySpace.lastPartitionIncludingKey 20 = some (some 3) := by
  obtain ⟨r, hr, hiff, -⟩ := lastPartitionIncludingKey_spec
    (show sampleKeySpace.Sorted by decide) 20
  rw [hr, (hiff 3).mpr ⟨by decide, fun j ⟨hj, hle, _⟩ => by
    by_contra hgt
    obtain rfl : j = 4 := by simp only [sampleKeySpace, List.length_cons, List.length_nil] at hj; omega
    simp [sampleKeySpace] at hle⟩]

/-- A key at or above `k` lies in no partition before the one that
`first_partition_including_or_after_key` returns for `k`, which it returns
without panicking on a keyspace with a partition. -/
theorem firstPartitionIncludingOrAfterKey_le (hs : ks.Sorted) {k x : K} (hkx : k ≤ x) {i : Nat}
    (hi : ks.CouldContain i x) :
    ∃ s, ks.firstPartitionIncludingOrAfterKey k = some s ∧ s ≤ i := by
  obtain ⟨m, hm, hiff, hpp⟩ := hs.partitionPoint_lt k
  have hn : 0 < ks.firstKeys.length := by obtain ⟨hi, -⟩ := hi; omega
  simp only [firstPartitionIncludingOrAfterKey, firstPartitionIncludingKey, hpp,
    Option.bind_eq_bind, Option.bind_some]
  by_cases hm0 : m > 0
  · rw [if_pos hm0]
    refine ⟨m - 1, rfl, ?_⟩
    -- a partition before `m - 1` ends at a first key below `k`
    by_contra hlt
    have hnext := hi.2.2 (by omega)
    have hbelow := (hiff (i + 1) (by omega)).mpr (by omega)
    exact lt_irrefl k (lt_of_le_of_lt (le_trans hkx hnext) hbelow)
  · rw [if_neg hm0, ks.partitionFirstKey_of_lt hn, Option.bind_some]
    split <;> simp

/-- A key at or below `k` lies in a partition before the one past what
`last_partition_including_key` returns for `k`. -/
theorem lt_lastPartitionIncludingKey (hs : ks.Sorted) {k x : K} (hxk : x ≤ k) {i : Nat}
    (hi : ks.CouldContain i x) :
    ∃ p, ks.lastPartitionIncludingKey k = some (some p) ∧ i ≤ p ∧
      ∃ hp : p < ks.firstKeys.length, (k = ks.firstKeys[p] → x < k → i < p) := by
  obtain ⟨m, hm, hiff, hpp⟩ := hs.partitionPoint_le k
  have him : i < m := (hiff i hi.1).mp (le_trans hi.2.1 hxk)
  refine ⟨m - 1, by simp [lastPartitionIncludingKey, hpp, show m ≠ 0 by omega], by omega,
    by omega, fun hk hlt => ?_⟩
  -- partition `m - 1` starts at `k`, above every key below `k`
  have hne : i ≠ m - 1 := fun h => lt_irrefl k (lt_of_le_of_lt (hk ▸ h ▸ hi.2.1) hlt)
  omega

/-- On a sorted keyspace `partitions_covering_range` returns, without
panicking, a range that holds every partition that could hold a key within the
bounds. -/
theorem partitionsCoveringRange_covers (hs : ks.Sorted) (start finish : Bound K) {x : K}
    (hx : (BytesRange.mk start finish).contains x = true) {i : Nat} (hi : ks.CouldContain i x) :
    ∃ r, ks.partitionsCoveringRange start finish = some r ∧ r.1 ≤ i ∧ i < r.2 := by
  simp only [BytesRange.contains, Bool.and_eq_true] at hx
  obtain ⟨hstart, hend⟩ := hx
  obtain ⟨s, hs', hsi⟩ : ∃ s, ks.coveringStartIdx start = some s ∧ s ≤ i := by
    cases start with
    | included k => exact firstPartitionIncludingOrAfterKey_le hs (by simpa using hstart) hi
    | excluded k =>
      exact firstPartitionIncludingOrAfterKey_le hs (le_of_lt (by simpa using hstart)) hi
    | unbounded => exact ⟨0, rfl, Nat.zero_le i⟩
  obtain ⟨e, he, hie⟩ : ∃ e, ks.coveringEndIdxExclusive finish s = some e ∧ i < e := by
    cases finish with
    | included k =>
      obtain ⟨p, hp, hip, -⟩ := lt_lastPartitionIncludingKey hs (by simpa using hend) hi
      exact ⟨p + 1, by simp [coveringEndIdxExclusive, hp], by omega⟩
    | excluded k =>
      have hxk : x < k := by simpa using hend
      obtain ⟨p, hp, hip, hpn, hstrict⟩ := lt_lastPartitionIncludingKey hs (le_of_lt hxk) hi
      simp only [coveringEndIdxExclusive, hp, ks.partitionFirstKey_of_lt hpn, Option.bind_eq_bind,
        Option.bind_some, Option.pure_def, Option.some.injEq, exists_eq_left']
      -- an excluded end at partition `p`'s first key leaves `p` out, and no key of the range lies there
      split
      · exact hstrict ‹_› hxk
      · omega
    | unbounded => exact ⟨_, rfl, by simpa using hi.1⟩
  exact ⟨(s, e), by simp [partitionsCoveringRange, hs', he], hsi, hie⟩

theorem partitionsCoveringRange_sample :
    ∃ r, sampleKeySpace.partitionsCoveringRange (.excluded 20) (.excluded 30) = some r ∧
      r.1 ≤ 3 ∧ 3 < r.2 :=
  partitionsCoveringRange_covers (show sampleKeySpace.Sorted by decide) _ _ (x := 25) (by decide)
    (by decide)

end RangePartitionedKeySpace

end SlateDb
