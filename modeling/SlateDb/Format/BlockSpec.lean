import SlateDb.Format.BlockIterator
import SlateDb.Lib.SortedSearch

/-!
# A built block read back

`BlockBuilderV1::add` writes each entry's row with its key cut against the
block's first key, at an offset that is the data's length cast to `u16`;
`BlockIterator` decodes the row at each offset and restores its key from the
block's first key. With a block size of at most `u16::MAX + 1` bytes every
offset is exact, and the entries the builder takes, encoded and decoded as a
block, are what the iterator yields (`addAll_read_back`), tombstones without
their expire timestamps. Descending, position `i` reads row `n - 1 - i`, so the
same rows come out in reverse; both binary searches of `seek` find the
boundary of a prefix of rows, and on keys sorted with duplicates the iterator
after a seek yields the rows on the far side of the target
(`addAll_iterate_and_seek`).

The builder's invariant `BlockBuilderV1.Holds` says where each row sits; `add`
keeps it, and reading the block back needs nothing else.
-/

namespace SlateDb

/-- An entry a `v1` block holds as it is: a nonempty key whose length fits a
`u16`, a value whose length fits a `u32`, a sequence number that fits a `u64`
and timestamps that fit an `i64`. -/
structure RowEntry.Fits (e : RowEntry (List UInt8) (List UInt8)) : Prop where
  key_ne_nil : e.key ≠ []
  key_length : e.key.length ≤ 65535
  value_len : e.value.len ≤ 4294967295
  seq_lt : e.seq < 2 ^ 64
  createTs : ∀ t ∈ e.createTs, -2 ^ 63 ≤ t ∧ t < 2 ^ 63
  expireTs : ∀ t ∈ e.expireTs, -2 ^ 63 ≤ t ∧ t < 2 ^ 63

instance instDecidableFits (e : RowEntry (List UInt8) (List UInt8)) : Decidable e.Fits :=
  decidable_of_iff (e.key ≠ [] ∧ e.key.length ≤ 65535 ∧ e.value.len ≤ 4294967295 ∧ e.seq < 2 ^ 64 ∧
      (∀ t ∈ e.createTs, -2 ^ 63 ≤ t ∧ t < 2 ^ 63) ∧ (∀ t ∈ e.expireTs, -2 ^ 63 ≤ t ∧ t < 2 ^ 63))
    ⟨fun ⟨h₁, h₂, h₃, h₄, h₅, h₆⟩ => ⟨h₁, h₂, h₃, h₄, h₅, h₆⟩,
      fun ⟨h₁, h₂, h₃, h₄, h₅, h₆⟩ => ⟨h₁, h₂, h₃, h₄, h₅, h₆⟩⟩

/-- The entry a row gives back: a tombstone's row keeps no expire timestamp. -/
def RowEntry.stored (e : RowEntry (List UInt8) (List UInt8)) : RowEntry (List UInt8) (List UInt8) :=
  { e with expireTs := if e.value.isTombstone then none else e.expireTs }

/-- The row of an entry with its first `p` key bytes cut. -/
def RowEntry.rowAt (e : RowEntry (List UInt8) (List UInt8)) (p : Nat) : SstRowEntry :=
  ⟨p, e.key.drop p, e.seq.toUInt64, e.expireTs.map Int.toInt64, e.createTs.map Int.toInt64, e.value⟩

/-- `p` key bytes may be cut against `firstKey`: they are the first bytes of
both keys. -/
structure KeyCut (firstKey key : List UInt8) (p : Nat) : Prop where
  le_key : p ≤ key.length
  le_first : p ≤ firstKey.length
  take_eq : firstKey.take p = key.take p

/-! ### Cutting a key against the first key -/

theorem computePrefix_le_left : ∀ lhs rhs : List UInt8, computePrefix lhs rhs ≤ lhs.length
  | a :: lhs, b :: rhs => by
    unfold computePrefix
    split
    · simp only [List.length_cons]
      have := computePrefix_le_left lhs rhs
      omega
    · omega
  | [], _ => Nat.zero_le _
  | _ :: _, [] => Nat.zero_le _

theorem take_computePrefix :
    ∀ lhs rhs : List UInt8, lhs.take (computePrefix lhs rhs) = rhs.take (computePrefix lhs rhs)
  | a :: lhs, b :: rhs => by
    unfold computePrefix
    split
    · next hab => rw [List.take_succ_cons, List.take_succ_cons, hab, take_computePrefix lhs rhs]
    · rfl
  | [], _ => rfl
  | _ :: _, [] => rfl

theorem keyCut_zero (firstKey key : List UInt8) : KeyCut firstKey key 0 :=
  ⟨Nat.zero_le _, Nat.zero_le _, rfl⟩

theorem keyCut_computePrefix (firstKey key : List UInt8) :
    KeyCut firstKey key (computePrefix firstKey key) :=
  ⟨computePrefix_le_right _ _, computePrefix_le_left _ _, take_computePrefix _ _⟩

namespace RowEntry

variable {e : RowEntry (List UInt8) (List UInt8)} {p : Nat}

theorem toSstRowEntry_eq (he : e.Fits) (hp : p ≤ e.key.length) : e.toSstRowEntry p = .ok (e.rowAt p) := by
  have hkey : p + (e.key.drop p).length ≤ 65535 := by
    have := he.key_length
    rw [List.length_drop]
    omega
  exact SstRowEntry.new_of_le _ _ _ hkey he.value_len

/-- The row cut at `p` is one `SstRowEntry::new` accepts, and it encodes. -/
theorem rowAt_encodes (he : e.Fits) (hp : p ≤ e.key.length) :
    SstRowEntry.new (e.rowAt p).keyPrefixLen (e.rowAt p).keySuffix (e.rowAt p).seq (e.rowAt p).value
        (e.rowAt p).createTs (e.rowAt p).expireTs = .ok (e.rowAt p) ∧
      ∃ bytes, SstRowCodecV0.encode (e.rowAt p) = .ok bytes := by
  have hnew := toSstRowEntry_eq he hp
  obtain ⟨hkey, hvalue, -⟩ := SstRowEntry.new_eq_ok hnew
  exact ⟨hnew, _, SstRowCodecV0.encode_eq (show p + (e.key.drop p).length < 65536 by omega)
    (show e.value.len < 4294967296 by omega)⟩

theorem KeyCut.restoreFullKey {firstKey : List UInt8} (h : KeyCut firstKey e.key p) :
    (e.rowAt p).restoreFullKey firstKey = .ok e.key := by
  have hnlt : ¬ firstKey.length < p := Nat.not_lt.mpr h.le_first
  simp only [SstRowEntry.restoreFullKey, rowAt, hnlt, if_false, h.take_eq, List.take_append_drop]

/-- What the iterator rebuilds from the row of a fitting entry is the entry as
stored. -/
theorem loaded_rowAt (he : e.Fits) :
    (⟨e.key, (e.rowAt p).value, (e.rowAt p).seq.toNat, (e.rowAt p).createTs.map Int64.toInt,
      (if (e.rowAt p).value.isTombstone then none else (e.rowAt p).expireTs).map Int64.toInt⟩ :
        RowEntry (List UInt8) (List UInt8)) = e.stored := by
  -- each timestamp in the `i64` range comes back from its cast
  have hts : ∀ ts : Option Int, (∀ t ∈ ts, -2 ^ 63 ≤ t ∧ t < 2 ^ 63) →
      (ts.map Int.toInt64).map Int64.toInt = ts := by
    intro ts hts
    cases ts with
    | none => rfl
    | some t =>
      obtain ⟨hlo, hhi⟩ := hts t rfl
      simp only [Option.map_some, Int.toInt64, Int64.toInt_ofInt_of_le hlo hhi]
  have hseq : e.seq.toUInt64.toNat = e.seq := UInt64.toNat_ofNat_of_lt' he.seq_lt
  obtain ⟨key, value, seq, createTs, expireTs⟩ := e
  simp only [rowAt, stored] at hseq ⊢
  rw [hseq, hts createTs he.createTs]
  by_cases ht : value.isTombstone = true
  · simp only [ht, if_true, Option.map_none]
  · simp only [ht, Bool.false_eq_true, if_false, hts expireTs he.expireTs]

/-- An entry whose tombstone carries no expire timestamp is stored as it is. -/
theorem stored_eq (h : e.value.isTombstone = true → e.expireTs = none) : e.stored = e := by
  obtain ⟨key, value, seq, createTs, expireTs⟩ := e
  by_cases ht : value.isTombstone = true
  · have hx : expireTs = none := h ht
    simp only [stored, ht, if_true, hx]
  · simp only [stored, ht, Bool.false_eq_true, if_false]

theorem map_stored_eq {l : List (RowEntry (List UInt8) (List UInt8))}
    (h : ∀ e ∈ l, e.value.isTombstone = true → e.expireTs = none) : l.map stored = l :=
  (List.map_congr_left fun e he => stored_eq (h e he)).trans (List.map_id' l)

end RowEntry

/-- `cmp` on keys, which `seek` uses ascending, is the order of byte strings. -/
theorem compare_key_eq_lt (a b : List UInt8) : compare a b = .lt ↔ a < b :=
  ListLex.compareLex_eq_lt_iff ListLex.uint8_compare_eq_lt ListLex.uint8_compare_eq_eq a b

/-- Along keys that ascend, duplicates allowed, lying below `nextKey` is closed
downwards. -/
theorem pairwise_below_of_sorted {l : List (RowEntry (List UInt8) (List UInt8))}
    (hsorted : l.Pairwise (fun x y => x.key ≤ y.key)) (nextKey : List UInt8) :
    l.Pairwise (fun x y => (compare y.key nextKey).isLT = true → (compare x.key nextKey).isLT = true) :=
  hsorted.imp fun hxy hy => by
    rw [Ordering.isLT_iff_eq_lt, compare_key_eq_lt] at hy ⊢
    exact lt_of_le_of_lt hxy hy

/-- A key is not below `target` when `cmp` says it is not. -/
theorem not_isLT_compare_key (k target : List UInt8) :
    (!(compare k target).isLT) = decide (target ≤ k) := by
  have hlt : (compare k target).isLT = decide (k < target) := by
    rw [Bool.eq_iff_iff, Ordering.isLT_iff_eq_lt, compare_key_eq_lt, decide_eq_true_iff]
  rw [hlt, Bool.eq_iff_iff]
  simp only [Bool.not_eq_true', decide_eq_false_iff_not, not_lt, decide_eq_true_eq]

/-- Along such keys, lying at or below `nextKey` is closed downwards too. -/
theorem pairwise_atMost_of_sorted {l : List (RowEntry (List UInt8) (List UInt8))}
    (hsorted : l.Pairwise (fun x y => x.key ≤ y.key)) (nextKey : List UInt8) :
    l.Pairwise (fun x y => decide (y.key ≤ nextKey) = true → decide (x.key ≤ nextKey) = true) :=
  hsorted.imp fun hxy hy => decide_eq_true (le_trans hxy (of_decide_eq_true hy))

namespace BlockIterator

/-- The row a search probes lies in the rows it searches. -/
theorem mid_mem {low high : Nat} (hlt : low < high) :
    low ≤ low + (high - low) / 2 ∧ low + (high - low) / 2 < high := by
  omega

/-- The ascending search over rows `[low, high)` whose keys lie below `nextKey`
exactly before row `m` returns `m`. -/
theorem seekAscending_eq {it : BlockIterator} {nextKey : List UInt8}
    {keys : Nat → List UInt8} {m low high : Nat}
    (hkeys : ∀ j, low ≤ j → j < high → it.decodeKeyAtIndex j = .ok (keys j))
    (hm : ∀ j, low ≤ j → j < high → (compare (keys j) nextKey = .lt ↔ j < m))
    (hlow : low ≤ m) (hhigh : m ≤ high) :
    it.seekAscending nextKey low high = .ok m := by
  fun_induction it.seekAscending nextKey low high with
  | case1 low high hlt mid e herr =>
    -- every row probed decodes
    have hmid : low ≤ mid ∧ mid < high := mid_mem hlt
    rw [hkeys mid hmid.1 hmid.2] at herr
    cases herr
  | case2 low high hlt mid midKey hkey hcmp ih =>
    -- the middle key is below `nextKey`, so the answer is above it
    have hmid : low ≤ mid ∧ mid < high := mid_mem hlt
    rw [hkeys mid hmid.1 hmid.2, Except.ok.injEq] at hkey
    subst hkey
    have hltm : mid < m := (hm mid hmid.1 hmid.2).mp hcmp
    exact ih (fun j hj hj' => hkeys j (by omega) hj') (fun j hj hj' => hm j (by omega) hj') hltm hhigh
  | case3 low high hlt mid midKey hkey hcmp ih =>
    -- it is not, so the answer is at most the middle row
    have hmid : low ≤ mid ∧ mid < high := mid_mem hlt
    rw [hkeys mid hmid.1 hmid.2, Except.ok.injEq] at hkey
    subst hkey
    have hmle : m ≤ mid := Nat.not_lt.mp fun hlt' => hcmp ((hm mid hmid.1 hmid.2).mpr hlt')
    exact ih (fun j hj hj' => hkeys j hj (by omega)) (fun j hj hj' => hm j hj (by omega)) hlow hmle
  | case4 low high hge =>
    rw [Nat.le_antisymm hlow (by omega)]

/-- The descending search over rows `[low, high)` whose keys lie at or below
`nextKey` exactly before row `m` returns `m`. -/
theorem seekDescending_eq {it : BlockIterator} {nextKey : List UInt8}
    {keys : Nat → List UInt8} {m low high : Nat}
    (hkeys : ∀ j, low ≤ j → j < high → it.decodeKeyAtIndex j = .ok (keys j))
    (hm : ∀ j, low ≤ j → j < high → (keys j ≤ nextKey ↔ j < m))
    (hlow : low ≤ m) (hhigh : m ≤ high) :
    it.seekDescending nextKey low high = .ok m := by
  fun_induction it.seekDescending nextKey low high with
  | case1 low high hlt mid e herr =>
    have hmid : low ≤ mid ∧ mid < high := mid_mem hlt
    rw [hkeys mid hmid.1 hmid.2] at herr
    cases herr
  | case2 low high hlt mid midKey hkey hle ih =>
    -- the middle key is at most `nextKey`, so the answer is above it
    have hmid : low ≤ mid ∧ mid < high := mid_mem hlt
    rw [hkeys mid hmid.1 hmid.2, Except.ok.injEq] at hkey
    subst hkey
    have hltm : mid < m := (hm mid hmid.1 hmid.2).mp hle
    exact ih (fun j hj hj' => hkeys j (by omega) hj') (fun j hj hj' => hm j (by omega) hj') hltm hhigh
  | case3 low high hlt mid midKey hkey hgt ih =>
    -- it is above, so the answer is at most the middle row
    have hmid : low ≤ mid ∧ mid < high := mid_mem hlt
    rw [hkeys mid hmid.1 hmid.2, Except.ok.injEq] at hkey
    subst hkey
    have hmle : m ≤ mid := Nat.not_lt.mp fun hlt' => hgt ((hm mid hmid.1 hmid.2).mpr hlt')
    exact ih (fun j hj hj' => hkeys j hj (by omega)) (fun j hj hj' => hm j hj (by omega)) hlow hmle
  | case4 low high hge =>
    rw [Nat.le_antisymm hlow (by omega)]

end BlockIterator

/-! ### The builder's invariant -/

namespace BlockBuilderV1

variable {b : BlockBuilderV1} {taken : List (RowEntry (List UInt8) (List UInt8))}
  {e : RowEntry (List UInt8) (List UInt8)}

/-- The rows of a builder that took `taken`: each entry's row, its key cut
against the block's first key (the first row's not at all), sits encoded at
its offset in the data. -/
structure Holds (b : BlockBuilderV1) (taken : List (RowEntry (List UInt8) (List UInt8))) : Prop where
  fits : ∀ e ∈ taken, e.Fits
  length_offsets : b.offsets.length = taken.length
  count : b.offsets.length ≤ 32768
  firstKey : b.firstKey = (taken.head?.map (·.key)).getD []
  data_nil : taken = [] → b.data = []
  rows : ∀ i (hi : i < taken.length), ∃ off p bytes rest, b.offsets[i]? = some off ∧
    off.toNat ≤ b.data.length ∧ (i = 0 → off.toNat = 0 ∧ p = 0) ∧ KeyCut b.firstKey taken[i].key p ∧
    SstRowCodecV0.encode (taken[i].rowAt p) = .ok bytes ∧ b.data.drop off.toNat = bytes ++ rest

theorem holds_new (blockSize : Nat) : (new blockSize).Holds [] where
  fits := by simp
  length_offsets := rfl
  count := by simp [new]
  firstKey := rfl
  data_nil := fun _ => rfl
  rows := fun i hi => absurd hi (Nat.not_lt_zero i)

theorem add_of_not_fits (hkey : e.key ≠ []) (hfit : b.wouldFit e = false) : b.add e = .ok (b, false) := by
  simp [add, hkey, hfit, pure, Except.pure]

/-- The first entry goes in at offset zero, uncut, and its key becomes the
block's first key. -/
theorem Holds.add_first (h : b.Holds []) (he : e.Fits) :
    ∃ b', b.add e = .ok (b', true) ∧ b'.Holds [e] ∧ b'.blockSize = b.blockSize := by
  have hoffs : b.offsets = [] := List.eq_nil_of_length_eq_zero h.length_offsets
  have hdata : b.data = [] := h.data_nil rfl
  have hfirst : b.firstKey = [] := h.firstKey
  have hfit : b.wouldFit e = true := by simp [wouldFit, isEmpty, hoffs]
  have hzero : computePrefix b.firstKey e.key = 0 := by rw [hfirst]; rfl
  obtain ⟨hnew, bytes, hbytes⟩ := RowEntry.rowAt_encodes (p := 0) he (Nat.zero_le _)
  have hrow : e.toSstRowEntry (computePrefix b.firstKey e.key) = .ok (e.rowAt 0) := by
    rw [hzero]
    exact hnew
  refine ⟨_, add_of_fits he.key_ne_nil hfit hrow hbytes, ?_, rfl⟩
  simp only [hoffs, hdata, hfirst, List.isEmpty_nil, if_true, List.nil_append, List.length_nil]
  refine ⟨by simpa using he, rfl, by simp, rfl, fun h => absurd h (List.cons_ne_nil _ _), ?_⟩
  intro i hi
  obtain rfl : i = 0 := by simpa using hi
  exact ⟨0, 0, bytes, [], rfl, Nat.zero_le _, fun _ => ⟨rfl, rfl⟩, keyCut_zero _ _, hbytes,
    by rw [List.append_nil]; rfl⟩

/-- A later entry that fits goes in after the data, at an exact offset since
the data is shorter than the block size, its key cut against the first key. -/
theorem Holds.add_next (hsize : b.blockSize ≤ 65536) (h : b.Holds taken) (hne : taken ≠ [])
    (he : e.Fits) (hfit : b.wouldFit e = true) :
    ∃ b', b.add e = .ok (b', true) ∧ b'.Holds (taken ++ [e]) ∧ b'.blockSize = b.blockSize := by
  obtain ⟨first, rest, rfl⟩ := List.exists_cons_of_ne_nil hne
  have hfirst : b.firstKey = first.key := h.firstKey
  have hfirstKey : b.firstKey.isEmpty = false := by
    rw [hfirst, List.isEmpty_eq_false_iff]
    exact h.fits first List.mem_cons_self |>.key_ne_nil
  -- the data so far and the offsets stay within the block size
  have hnotEmpty : b.isEmpty = false := by
    simp only [isEmpty, List.isEmpty_eq_false_iff, ← List.length_pos_iff, h.length_offsets,
      List.length_cons]
    omega
  have hbound : b.size + e.encodedSize (computePrefix b.firstKey e.key) ≤ b.blockSize := by
    simpa [wouldFit, hnotEmpty] using hfit
  have hsz : b.size = 2 + b.offsets.length * 2 + b.data.length := rfl
  have hlen : b.data.length < 65536 := by omega
  have hoff : (b.data.length.toUInt16).toNat = b.data.length := Buf.toNat_toUInt16_of_lt hlen
  have hcut := keyCut_computePrefix b.firstKey e.key
  obtain ⟨hnew, bytes, hbytes⟩ := RowEntry.rowAt_encodes he hcut.le_key
  refine ⟨_, add_of_fits he.key_ne_nil hfit hnew hbytes, ?_, rfl⟩
  simp only [hfirstKey, Bool.false_eq_true, if_false]
  refine ⟨?_, by simp [h.length_offsets], by simp; omega, by simpa using h.firstKey,
    fun h' => absurd h' (by simp), ?_⟩
  · intro x hx
    rcases List.mem_append.mp hx with hx | hx
    · exact h.fits x hx
    · rw [List.mem_singleton.mp hx]
      exact he
  · intro i hi
    rw [List.length_append, List.length_singleton] at hi
    rcases Nat.lt_succ_iff_lt_or_eq.mp hi with hi | rfl
    · -- an earlier row stays where it was, with the new row after it
      obtain ⟨off, p, bytes', rest', hget, hle, hzero, hkc, henc, hdrop⟩ := h.rows i hi
      refine ⟨off, p, bytes', rest' ++ bytes, ?_, ?_, hzero, ?_, ?_, ?_⟩
      · rw [List.getElem?_append_left (by rw [h.length_offsets]; exact hi), hget]
      · rw [List.length_append]
        omega
      · rwa [List.getElem_append_left hi]
      · rwa [List.getElem_append_left hi]
      · rw [List.drop_append_of_le_length hle, hdrop, List.append_assoc]
    · -- the new row, at the data's length
      refine ⟨b.data.length.toUInt16, computePrefix b.firstKey e.key, bytes, [], ?_, ?_, ?_, ?_, ?_, ?_⟩
      · rw [List.getElem?_append_right (by rw [h.length_offsets]), h.length_offsets, Nat.sub_self]
        rfl
      · rw [hoff, List.length_append]
        omega
      · intro h0
        exact absurd h0 (by simp)
      · rwa [List.getElem_append_right (Nat.le_refl _), List.getElem_singleton]
      · rwa [List.getElem_append_right (Nat.le_refl _), List.getElem_singleton]
      · rw [hoff, List.drop_left, List.append_nil]

/-- `add` on a fitting entry never fails: the entry goes in, or, in a block
that has rows, it is left out and the builder stays as it was. -/
theorem Holds.add (hsize : b.blockSize ≤ 65536) (h : b.Holds taken) (he : e.Fits) :
    (taken ≠ [] ∧ b.add e = .ok (b, false)) ∨
      ∃ b', b.add e = .ok (b', true) ∧ b'.Holds (taken ++ [e]) ∧ b'.blockSize = b.blockSize := by
  by_cases hne : taken = []
  · subst hne
    exact .inr (h.add_first he)
  · cases hfit : b.wouldFit e with
    | false => exact .inl ⟨hne, add_of_not_fits he.key_ne_nil hfit⟩
    | true => exact .inr (h.add_next hsize hne he hfit)

/-- `addAll` over fitting entries never fails and takes a prefix of them, at
least one into an empty block; the builder then holds every entry taken. -/
theorem Holds.addAll : ∀ (entries : List (RowEntry (List UInt8) (List UInt8))) {b : BlockBuilderV1}
    {taken : List (RowEntry (List UInt8) (List UInt8))}, b.blockSize ≤ 65536 → b.Holds taken →
    (∀ e ∈ entries, e.Fits) →
    ∃ b' more, b.addAll entries = .ok (b', more) ∧ more <+: entries ∧ b'.Holds (taken ++ more) ∧
      (taken = [] → entries ≠ [] → more ≠ [])
  | [], b, taken, _, h, _ => ⟨b, [], rfl, List.nil_prefix, by rwa [List.append_nil], fun _ h => absurd rfl h⟩
  | e :: entries, b, taken, hsize, h, hfits => by
    have he := hfits e List.mem_cons_self
    rcases h.add hsize he with ⟨hne, hadd⟩ | ⟨b', hadd, h', hsize'⟩
    · -- the entry does not fit: nothing more is taken
      refine ⟨b, [], ?_, List.nil_prefix, by rwa [List.append_nil], fun h => absurd h hne⟩
      simp [BlockBuilderV1.addAll, hadd, bind, Except.bind, pure, Except.pure]
    · obtain ⟨b'', more, hrest, hpre, h'', -⟩ :=
        Holds.addAll entries (hsize'.symm ▸ hsize) h' fun x hx => hfits x (List.mem_cons_of_mem _ hx)
      refine ⟨b'', e :: more, ?_, List.cons_prefix_cons.mpr ⟨rfl, hpre⟩, ?_, fun _ _ => List.cons_ne_nil _ _⟩
      · rw [addAll_cons_of_added hadd, hrest]
        rfl
      · rwa [List.append_assoc, List.singleton_append] at h''

/-! ### Reading the block back -/

/-- The iterator over a builder's block at position `i` of the order. -/
def readerAt (b : BlockBuilderV1) (ordering : IterationOrder) (i : Nat) : BlockIterator :=
  ⟨⟨b.data, b.offsets⟩, i, b.firstKey, ordering⟩

/-- The first row sits at the start of the data and is uncut: it gives the
block's first key. -/
theorem Holds.decodeFirstKey (h : b.Holds taken) (hne : taken ≠ []) :
    BlockIterator.decodeFirstKey ⟨b.data, b.offsets⟩ = .ok b.firstKey := by
  obtain ⟨first, rest, rfl⟩ := List.exists_cons_of_ne_nil hne
  obtain ⟨off, p, bytes, rest', -, -, hzero, -, henc, hdrop⟩ := h.rows 0 (by simp)
  obtain ⟨hoff, rfl⟩ := hzero rfl
  have hfit := h.fits first List.mem_cons_self
  rw [hoff, List.drop_zero] at hdrop
  have hsuffix : (first.rowAt 0).keySuffix.length < 65536 := by
    have := hfit.key_length
    simp only [RowEntry.rowAt, List.drop_zero]
    omega
  have hvalue : (first.rowAt 0).value.len < 4294967296 := by
    have := hfit.value_len
    simp only [RowEntry.rowAt]
    omega
  rw [BlockIterator.decodeFirstKey_encoded rfl hsuffix hvalue henc hdrop, h.firstKey]
  simp [RowEntry.rowAt]

/-- The iterator over the built block, at any row: it yields that row's entry
as stored. -/
theorem Holds.loadAtCurrentOff (h : b.Holds taken) {i : Nat} (hi : i < taken.length) :
    (readerAt b .ascending i).loadAtCurrentOff = .ok (some taken[i].stored) := by
  obtain ⟨off, p, bytes, rest, hget, hle, -, hkc, henc, hdrop⟩ := h.rows i hi
  have hfit := h.fits taken[i] (List.getElem_mem hi)
  rw [BlockIterator.loadAtCurrentOff_encoded rfl hget hle (RowEntry.rowAt_encodes hfit hkc.le_key).1
    henc hdrop (RowEntry.KeyCut.restoreFullKey hkc), RowEntry.loaded_rowAt hfit]

/-- From row `i` on, `collect` with a call to spare yields the entries from
`i` on, as stored. -/
theorem Holds.collect_from (h : b.Holds taken) :
    ∀ (fuel i : Nat), taken.length - i < fuel →
      (readerAt b .ascending i).collect fuel = .ok ((taken.drop i).map RowEntry.stored)
  | 0, _, hfuel => absurd hfuel (Nat.not_lt_zero _)
  | fuel + 1, i, hfuel => by
    by_cases hi : i < taken.length
    · rw [BlockIterator.collect_succ_of_some (h.loadAtCurrentOff hi) fuel]
      have hrest : (readerAt b .ascending i).advance.collect fuel = _ :=
        h.collect_from fuel (i + 1) (by omega)
      rw [hrest, List.drop_eq_getElem_cons hi]
      rfl
    · have hempty : (readerAt b .ascending i).isEmpty = true := by
        simp only [BlockIterator.isEmpty, readerAt, h.length_offsets, decide_eq_true_eq]
        omega
      rw [BlockIterator.collect_succ_of_none (BlockIterator.loadAtCurrentOff_of_isEmpty hempty),
        List.drop_eq_nil_of_le (by omega), List.map_nil]

/-- Descending, position `i` is row `taken.length - 1 - i`. -/
theorem Holds.loadAtCurrentOff_descending (h : b.Holds taken) {i : Nat} (hi : i < taken.length) :
    (readerAt b .descending i).loadAtCurrentOff = .ok (some taken[taken.length - 1 - i].stored) := by
  have hlt : (readerAt b .descending i).offOff < (readerAt b .descending i).block.offsets.length := by
    simp only [readerAt, h.length_offsets]
    exact hi
  rw [BlockIterator.loadAtCurrentOff_descending rfl hlt]
  show (readerAt b .ascending (b.offsets.length - 1 - i)).loadAtCurrentOff = _
  simp only [h.length_offsets]
  exact h.loadAtCurrentOff (by omega)

/-- Descending from position `i` on, `collect` with a call to spare yields the
rows before row `taken.length - i`, last first, as stored. -/
theorem Holds.collect_descending_from (h : b.Holds taken) :
    ∀ (fuel i : Nat), taken.length - i < fuel →
      (readerAt b .descending i).collect fuel =
        .ok ((taken.take (taken.length - i)).reverse.map RowEntry.stored)
  | 0, _, hfuel => absurd hfuel (Nat.not_lt_zero _)
  | fuel + 1, i, hfuel => by
    by_cases hi : i < taken.length
    · rw [BlockIterator.collect_succ_of_some (h.loadAtCurrentOff_descending hi) fuel]
      have hrest : (readerAt b .descending i).advance.collect fuel = _ :=
        h.collect_descending_from fuel (i + 1) (by omega)
      -- the rows before `taken.length - i` end with row `taken.length - 1 - i`
      have htake : taken.take (taken.length - i) =
          taken.take (taken.length - (i + 1)) ++ [taken[taken.length - 1 - i]] := by
        rw [show taken.length - i = taken.length - 1 - i + 1 by omega,
          List.take_succ_eq_append_getElem (by omega)]
        congr 2
        omega
      rw [hrest, htake, List.reverse_append, List.map_append]
      rfl
    · have hempty : (readerAt b .descending i).isEmpty = true := by
        simp only [BlockIterator.isEmpty, readerAt, h.length_offsets, decide_eq_true_eq]
        omega
      rw [BlockIterator.collect_succ_of_none (BlockIterator.loadAtCurrentOff_of_isEmpty hempty),
        show taken.length - i = 0 by omega, List.take_zero, List.reverse_nil, List.map_nil]

/-! ### Seeking in the block -/

/-- `decode_key_at_index` on the built block reads each row's key back. -/
theorem Holds.decodeKeyAtIndex (h : b.Holds taken) (ordering : IterationOrder) (i : Nat) {j : Nat}
    (hj : j < taken.length) : (readerAt b ordering i).decodeKeyAtIndex j = .ok taken[j].key := by
  obtain ⟨off, p, bytes, rest, hget, hle, -, hkc, henc, hdrop⟩ := h.rows j hj
  have hfit := h.fits taken[j] (List.getElem_mem hj)
  have hkey : p + (taken[j].key.drop p).length ≤ 65535 := by
    have := hfit.key_length
    have := hkc.le_key
    rw [List.length_drop]
    omega
  have hvalue : taken[j].value.len < 4294967296 := by
    have := hfit.value_len
    omega
  -- the row starts with its prefix length and its suffix length, then the suffix
  rw [SstRowCodecV0.encode_eq (show p + (taken[j].key.drop p).length < 65536 by omega) hvalue,
    Except.ok.injEq] at henc
  subst henc
  have hp := Buf.toNat_toUInt16_of_lt (show p < 65536 by omega)
  have hs := Buf.toNat_toUInt16_of_lt (show (taken[j].key.drop p).length < 65536 by omega)
  have hnlt : ¬ b.firstKey.length < p := Nat.not_lt.mpr hkc.le_first
  simp only [RowEntry.rowAt] at hdrop hp hs
  simp only [BlockIterator.decodeKeyAtIndex, readerAt, BlockIterator.offsetAt, hget,
    BlockIterator.cursorAt, hle, if_true, hdrop, List.append_assoc, Buf.getU16_putU16, hp, hs,
    Buf.slice_append, hnlt, if_false, bind, Except.bind, pure, Except.pure]
  rw [hkc.take_eq, List.take_append_drop]

/-- The keys `decode_key_at_index` reads, from any position and in either
order. -/
theorem Holds.decodeKeys (h : b.Holds taken) (ordering : IterationOrder) (i : Nat) :
    ∀ j, 0 ≤ j → j < taken.length →
      (readerAt b ordering i).decodeKeyAtIndex j = .ok ((taken.map (·.key)).getD j []) := by
  intro j _ hj
  rw [h.decodeKeyAtIndex ordering i hj, List.getD_eq_getElem _ _ (by simpa using hj), List.getElem_map]

theorem Holds.offsets_ne_nil (h : b.Holds taken) (hne : taken ≠ []) : b.offsets.length ≠ 0 := by
  rw [h.length_offsets]
  exact List.length_pos_iff.mpr hne |>.ne'

/-- On a block whose keys ascend, duplicates allowed, `seek` ascending from any
position moves to the first row whose key is not below `nextKey`. -/
theorem Holds.seek (h : b.Holds taken) (hne : taken ≠ [])
    (hsorted : taken.Pairwise (fun x y => x.key ≤ y.key)) (nextKey : List UInt8) (i : Nat) :
    (readerAt b .ascending i).seek nextKey =
      .ok (readerAt b .ascending
        (SortedSearch.partitionPoint (fun e => (compare e.key nextKey).isLT) taken)) := by
  have hm : ∀ j, 0 ≤ j → j < taken.length → (compare ((taken.map (·.key)).getD j []) nextKey = .lt ↔
      j < SortedSearch.partitionPoint (fun e => (compare e.key nextKey).isLT) taken) := by
    intro j _ hj
    rw [List.getD_eq_getElem _ _ (by simpa using hj), List.getElem_map, ← Ordering.isLT_iff_eq_lt]
    exact SortedSearch.getElem_iff_lt_partitionPoint (pairwise_below_of_sorted hsorted nextKey) hj
  have hsearch := BlockIterator.seekAscending_eq (h.decodeKeys .ascending i) hm (Nat.zero_le _)
    (SortedSearch.partitionPoint_le_length _ _)
  rw [← h.length_offsets] at hsearch
  simp only [readerAt] at hsearch
  simp only [BlockIterator.seek, readerAt, h.offsets_ne_nil hne, if_false, hsearch, bind, Except.bind,
    pure, Except.pure]

/-- On such a block, `seek` descending from any position moves to the last
row whose key is at most `nextKey`, counted from the end, or past the end when
there is none: in both cases the position is the number of rows above
`nextKey`. -/
theorem Holds.seek_descending (h : b.Holds taken) (hne : taken ≠ [])
    (hsorted : taken.Pairwise (fun x y => x.key ≤ y.key)) (nextKey : List UInt8) (i : Nat) :
    (readerAt b .descending i).seek nextKey =
      .ok (readerAt b .descending
        (taken.length - SortedSearch.partitionPoint (fun e => decide (e.key ≤ nextKey)) taken)) := by
  have hm : ∀ j, 0 ≤ j → j < taken.length → ((taken.map (·.key)).getD j [] ≤ nextKey ↔
      j < SortedSearch.partitionPoint (fun e => decide (e.key ≤ nextKey)) taken) := by
    intro j _ hj
    rw [List.getD_eq_getElem _ _ (by simpa using hj), List.getElem_map]
    simpa only [decide_eq_true_eq] using
      SortedSearch.getElem_iff_lt_partitionPoint (pairwise_atMost_of_sorted hsorted nextKey) hj
  have hpp := SortedSearch.partitionPoint_le_length (fun e => decide (e.key ≤ nextKey)) taken
  have hsearch := BlockIterator.seekDescending_eq (h.decodeKeys .descending i) hm (Nat.zero_le _) hpp
  rw [← h.length_offsets] at hsearch hpp
  simp only [readerAt] at hsearch
  simp only [BlockIterator.seek, readerAt, h.offsets_ne_nil hne, if_false, hsearch, bind, Except.bind,
    pure, Except.pure]
  rw [← h.length_offsets]
  generalize SortedSearch.partitionPoint (fun e => decide (e.key ≤ nextKey)) taken = pp at hpp ⊢
  -- both branches land on the number of rows above `nextKey`
  split
  · rw [show b.offsets.length - 1 - (pp - 1) = b.offsets.length - pp by omega]
  · rw [show pp = 0 by omega, Nat.sub_zero]

end BlockBuilderV1

/-- `addAll` from an empty builder, given entries that fit, takes a nonempty
prefix of them, and the block it builds is read back as it was built. -/
theorem BlockBuilderV1.addAll_built {blockSize : Nat} (hsize : blockSize ≤ 65536)
    {entries : List (RowEntry (List UInt8) (List UInt8))} (hfits : ∀ e ∈ entries, e.Fits)
    (hne : entries ≠ []) :
    ∃ b taken, (BlockBuilderV1.new blockSize).addAll entries = .ok (b, taken) ∧ taken ≠ [] ∧
      taken <+: entries ∧ b.Holds taken ∧
      (b.build >>= fun built => Block.decode built.encode) = .ok ⟨b.data, b.offsets⟩ ∧
      ∀ ordering, BlockIterator.new ⟨b.data, b.offsets⟩ ordering = .ok (b.readerAt ordering 0) := by
  obtain ⟨b, taken, hadd, hpre, h, hne'⟩ :=
    BlockBuilderV1.Holds.addAll entries hsize (BlockBuilderV1.holds_new blockSize) hfits
  have htaken : taken ≠ [] := hne' rfl hne
  rw [List.nil_append] at h
  have hoffs : b.offsets ≠ [] := by
    rw [← List.length_pos_iff, h.length_offsets, List.length_pos_iff]
    exact htaken
  refine ⟨b, taken, hadd, htaken, hpre, h, ?_, ?_⟩
  · rw [BlockBuilderV1.build_of_ne_nil hoffs]
    exact Block.decode_encode_of_length_lt ⟨b.data, b.offsets⟩ (by have := h.count; simp only; omega)
  · intro ordering
    simp only [BlockIterator.new, h.decodeFirstKey htaken, bind, Except.bind, pure, Except.pure]
    rfl

/-- With a block size of at most `u16::MAX + 1` bytes, `BlockBuilderV1` given
entries that fit takes a nonempty prefix of them without failing, and the
block it builds, encoded and decoded, iterates in ascending order to exactly
the entries taken, in order, tombstones without their expire timestamps. -/
theorem addAll_read_back {blockSize : Nat} (hsize : blockSize ≤ 65536)
    {entries : List (RowEntry (List UInt8) (List UInt8))} (hfits : ∀ e ∈ entries, e.Fits)
    (hne : entries ≠ []) :
    ∃ b taken block it, (BlockBuilderV1.new blockSize).addAll entries = .ok (b, taken) ∧
      taken ≠ [] ∧ taken <+: entries ∧
      (b.build >>= fun built => Block.decode built.encode) = .ok block ∧
      BlockIterator.new block .ascending = .ok it ∧
      ∀ fuel, taken.length < fuel → it.collect fuel = .ok (taken.map RowEntry.stored) := by
  obtain ⟨b, taken, hadd, htaken, hpre, h, hblock, hnew⟩ := BlockBuilderV1.addAll_built hsize hfits hne
  refine ⟨b, taken, _, _, hadd, htaken, hpre, hblock, hnew .ascending, fun fuel hfuel => ?_⟩
  simpa using h.collect_from fuel 0 (by omega)

/-- Two entries whose keys share their first byte, the second a tombstone
with an expire timestamp. -/
def twoRows : List (RowEntry (List UInt8) (List UInt8)) :=
  [⟨[1, 2], .value [7], 5, some 3, some 9⟩, ⟨[1, 3], .tombstone, 4, none, some 11⟩]

theorem addAll_read_back_twoRows :
    (4096 ≤ 65536 ∧ (∀ e ∈ twoRows, e.Fits) ∧ twoRows ≠ []) ∧
      ∃ b taken block it, (BlockBuilderV1.new 4096).addAll twoRows = .ok (b, taken) ∧
        taken ≠ [] ∧ taken <+: twoRows ∧
        (b.build >>= fun built => Block.decode built.encode) = .ok block ∧
        BlockIterator.new block .ascending = .ok it ∧
        ∀ fuel, taken.length < fuel → it.collect fuel = .ok (taken.map RowEntry.stored) :=
  ⟨⟨by decide, by decide, by decide⟩, addAll_read_back (by decide) (by decide) (by decide)⟩

/-- On a block built from entries whose keys strictly ascend, `seek(nextKey)`
from any position moves to the first entry whose key is not below `nextKey`,
and `next` from there until it returns `None` yields exactly the entries taken
whose key is not below `nextKey`, in order. -/
theorem addAll_seek_read_back {blockSize : Nat} (hsize : blockSize ≤ 65536)
    {entries : List (RowEntry (List UInt8) (List UInt8))} (hfits : ∀ e ∈ entries, e.Fits)
    (hne : entries ≠ []) (hsorted : entries.Pairwise (fun x y => compare x.key y.key = .lt))
    (nextKey : List UInt8) :
    ∃ b taken block it it', (BlockBuilderV1.new blockSize).addAll entries = .ok (b, taken) ∧
      taken <+: entries ∧ (b.build >>= fun built => Block.decode built.encode) = .ok block ∧
      BlockIterator.new block .ascending = .ok it ∧
      (∀ i, ({ it with offOff := i } : BlockIterator).seek nextKey = .ok it') ∧
      ∀ fuel, taken.length < fuel →
        it'.collect fuel = .ok ((taken.filter fun e => !(compare e.key nextKey).isLT).map RowEntry.stored) := by
  obtain ⟨b, taken, hadd, htaken, hpre, h, hblock, hnew⟩ := BlockBuilderV1.addAll_built hsize hfits hne
  have hsorted' : taken.Pairwise (fun x y => x.key ≤ y.key) :=
    (hsorted.sublist hpre.sublist).imp fun hxy => ((compare_key_eq_lt _ _).mp hxy).le
  refine ⟨b, taken, _, _, _, hadd, hpre, hblock, hnew .ascending,
    fun i => h.seek htaken hsorted' nextKey i, fun fuel hfuel => ?_⟩
  rw [h.collect_from fuel _ (by omega), SortedSearch.drop_partitionPoint,
    SortedSearch.dropWhile_eq_filter (pairwise_below_of_sorted hsorted' nextKey)]

theorem addAll_seek_read_back_twoRows :
    (4096 ≤ 65536 ∧ (∀ e ∈ twoRows, e.Fits) ∧ twoRows ≠ [] ∧
      twoRows.Pairwise (fun x y => compare x.key y.key = .lt)) ∧
    ∃ b taken block it it', (BlockBuilderV1.new 4096).addAll twoRows = .ok (b, taken) ∧
      taken <+: twoRows ∧ (b.build >>= fun built => Block.decode built.encode) = .ok block ∧
      BlockIterator.new block .ascending = .ok it ∧
      (∀ i, ({ it with offOff := i } : BlockIterator).seek [1, 3] = .ok it') ∧
      ∀ fuel, taken.length < fuel →
        it'.collect fuel = .ok ((taken.filter fun e => !(compare e.key [1, 3]).isLT).map RowEntry.stored) :=
  ⟨⟨by decide, by decide, by decide, by decide⟩,
    addAll_seek_read_back (by decide) (by decide) (by decide) (by decide) [1, 3]⟩

/-- With a block size of at most `u16::MAX + 1` bytes, `BlockBuilderV1` given
entries that fit, sorted by key with duplicates allowed, whose tombstones carry
no expire timestamp, takes a nonempty prefix of them. The block it builds,
encoded and decoded, iterates to exactly the entries taken: in order ascending,
in reverse descending. A seek to `target` from any position then yields the
entries taken whose key is at least `target`, in order, ascending, and those
whose key is at most `target`, in reverse, descending. -/
theorem addAll_iterate_and_seek {blockSize : Nat} (hsize : blockSize ≤ 65536)
    {entries : List (RowEntry (List UInt8) (List UInt8))} (hfits : ∀ e ∈ entries, e.Fits)
    (hne : entries ≠ []) (hsorted : entries.Pairwise (fun x y => x.key ≤ y.key))
    (htomb : ∀ e ∈ entries, e.value.isTombstone = true → e.expireTs = none) (target : List UInt8) :
    ∃ b taken block itAsc itDesc seekAsc seekDesc,
      (BlockBuilderV1.new blockSize).addAll entries = .ok (b, taken) ∧ taken ≠ [] ∧
      taken <+: entries ∧ (b.build >>= fun built => Block.decode built.encode) = .ok block ∧
      BlockIterator.new block .ascending = .ok itAsc ∧
      BlockIterator.new block .descending = .ok itDesc ∧
      (∀ i, ({ itAsc with offOff := i } : BlockIterator).seek target = .ok seekAsc) ∧
      (∀ i, ({ itDesc with offOff := i } : BlockIterator).seek target = .ok seekDesc) ∧
      ∀ fuel, taken.length < fuel →
        itAsc.collect fuel = .ok taken ∧ itDesc.collect fuel = .ok taken.reverse ∧
        seekAsc.collect fuel = .ok (taken.filter fun e => decide (target ≤ e.key)) ∧
        seekDesc.collect fuel = .ok (taken.filter fun e => decide (e.key ≤ target)).reverse := by
  obtain ⟨b, taken, hadd, htaken, hpre, h, hblock, hnew⟩ := BlockBuilderV1.addAll_built hsize hfits hne
  have hsorted' := hsorted.sublist hpre.sublist
  -- every entry taken comes back as it was added
  have hstored : ∀ l : List (RowEntry (List UInt8) (List UInt8)), (∀ e ∈ l, e ∈ taken) →
      l.map RowEntry.stored = l :=
    fun l hl => RowEntry.map_stored_eq fun e he => htomb e (hpre.subset (hl e he))
  refine ⟨b, taken, _, _, _, _, _, hadd, htaken, hpre, hblock, hnew .ascending, hnew .descending,
    fun i => h.seek htaken hsorted' target i, fun i => h.seek_descending htaken hsorted' target i,
    fun fuel hfuel => ⟨?_, ?_, ?_, ?_⟩⟩
  · rw [h.collect_from fuel 0 (by omega), List.drop_zero, hstored taken fun _ he => he]
  · rw [h.collect_descending_from fuel 0 (by omega), Nat.sub_zero, List.take_length,
      hstored taken.reverse fun _ he => List.mem_reverse.mp he]
  · -- ascending, from the first row whose key is not below `target`
    rw [h.collect_from fuel _ (by omega), SortedSearch.drop_partitionPoint,
      SortedSearch.dropWhile_eq_filter (pairwise_below_of_sorted hsorted' target),
      hstored _ fun _ he => (List.mem_filter.mp he).1]
    simp only [not_isLT_compare_key]
  · -- descending, from the last row whose key is at most `target`
    have hpp := SortedSearch.partitionPoint_le_length (fun e => decide (e.key ≤ target)) taken
    rw [h.collect_descending_from fuel _ (by omega),
      show taken.length - (taken.length - SortedSearch.partitionPoint (fun e => decide (e.key ≤ target))
        taken) = SortedSearch.partitionPoint (fun e => decide (e.key ≤ target)) taken by omega,
      SortedSearch.take_partitionPoint,
      SortedSearch.takeWhile_eq_filter (pairwise_atMost_of_sorted hsorted' target),
      hstored _ fun _ he => (List.mem_filter.mp (List.mem_reverse.mp he)).1]

/-- Two entries with one key, a value and then a tombstone without an expire
timestamp. -/
def duplicateRows : List (RowEntry (List UInt8) (List UInt8)) :=
  [⟨[1, 2], .value [7], 5, some 3, some 9⟩, ⟨[1, 2], .tombstone, 4, none, none⟩]

theorem addAll_iterate_and_seek_duplicateRows :
    (4096 ≤ 65536 ∧ (∀ e ∈ duplicateRows, e.Fits) ∧ duplicateRows ≠ [] ∧
      duplicateRows.Pairwise (fun x y => x.key ≤ y.key) ∧
      ∀ e ∈ duplicateRows, e.value.isTombstone = true → e.expireTs = none) ∧
    ∃ b taken block itAsc itDesc seekAsc seekDesc,
      (BlockBuilderV1.new 4096).addAll duplicateRows = .ok (b, taken) ∧ taken ≠ [] ∧
      taken <+: duplicateRows ∧ (b.build >>= fun built => Block.decode built.encode) = .ok block ∧
      BlockIterator.new block .ascending = .ok itAsc ∧
      BlockIterator.new block .descending = .ok itDesc ∧
      (∀ i, ({ itAsc with offOff := i } : BlockIterator).seek [1, 2] = .ok seekAsc) ∧
      (∀ i, ({ itDesc with offOff := i } : BlockIterator).seek [1, 2] = .ok seekDesc) ∧
      ∀ fuel, taken.length < fuel →
        itAsc.collect fuel = .ok taken ∧ itDesc.collect fuel = .ok taken.reverse ∧
        seekAsc.collect fuel = .ok (taken.filter fun e => decide ([1, 2] ≤ e.key)) ∧
        seekDesc.collect fuel = .ok (taken.filter fun e => decide (e.key ≤ [1, 2])).reverse :=
  ⟨⟨by decide, by decide, by decide, by decide, by decide⟩,
    addAll_iterate_and_seek (by decide) (by decide) (by decide) (by decide) (by decide) [1, 2]⟩

end SlateDb
