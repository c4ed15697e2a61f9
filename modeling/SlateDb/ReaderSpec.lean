import SlateDb.Reader
import SlateDb.MergeOperatorSpec

/-!
# What the point read returns

A read of `key` resolves the key's versions in read order: the transaction's
write batch, whose versions always count, then the memtable, the immutable
memtables, the L0 SSTs and the sorted runs, at or below the read's sequence
bound. Taken newest first down to the first value or tombstone, with the merge
operands above it folded onto it, they give `readResolution`.

The walk of `GetIterator` yields these versions up to the first tombstone
(`readStream_eq`), and a tombstone reads as no value whatever lies below it,
so cutting the versions there changes nothing. Over that stream the merge
operator iterator returns one entry for the key's newest run. When every key's
versions are newest first along the read order, it reads as the whole stream
for an operator that is associative with no existing value as its left unit
(`getKeyValueWithOptions_resolves`). Without a merge operator the read returns
the newest version, or fails if that is a merge operand.

The merge iterator merges each batch of operands from no existing value and
then merges the batches' results onto the base, so the left unit matters: an
operator that only satisfies the associativity the `MergeOperator`
documentation asks for can read differently (`getKeyValueWithOptions_offset_counter`).
-/

namespace SlateDb

variable {K V : Type}

/-! ### Cutting a stream at its first tombstone -/

theorem takeWhile_append_takeWhile {α : Type} (p : α → Bool) (a b : List α) :
    (a ++ b.takeWhile p).takeWhile p = (a ++ b).takeWhile p := by
  induction a with
  | nil =>
    rw [List.nil_append, List.nil_append, List.takeWhile_takeWhile]
    congr 1
    funext x
    simp
  | cons x a ih =>
    by_cases hx : p x = true
    · simp only [List.cons_append, List.takeWhile_cons, hx, if_true, ih]
    · simp only [List.cons_append, List.takeWhile_cons, hx, Bool.false_eq_true, if_false]

/-- Nothing below a tombstone changes what a read sees. -/
theorem applyVersions_takeWhile (f : Option V → V → V) :
    ∀ l : List (ValueDeletable V),
      applyVersions f (l.takeWhile (!·.isTombstone)) none = applyVersions f l none
  | [] => rfl
  | .value v :: l => by simp
  | .tombstone :: l => by simp
  | .merge x :: l => by simp [applyVersions_takeWhile f l]

/-! ### The versions a read sees -/

section Spec

variable [DecidableEq K]

/-- The versions of `k` in a stream that a read bounded by `maxSeq`, if any, sees. -/
def visibleUpTo (k : K) : Option Nat → List (RowEntry K V) → List (ValueDeletable V)
  | some s, l => visible k s l
  | none, l => (l.filter (·.key = k)).map (·.value)

/-- The versions of `k` a read sees, in read order: the write batch's, which
always count, then those of the other sources that the bound lets through. -/
def readVersions (k : K) (maxSeq : Option Nat) (writeBatch : List (RowEntry K V))
    (sources : List (List (RowEntry K V))) : List (ValueDeletable V) :=
  (writeBatch.filter (·.key = k)).map (·.value) ++ visibleUpTo k maxSeq sources.flatten

/-- The value the read of `k` resolves to: its versions taken newest first down
to the first value or tombstone, with the merge operands above it folded onto it. -/
def readResolution (merge : K → Option V → V → V) (k : K) (maxSeq : Option Nat)
    (writeBatch : List (RowEntry K V)) (sources : List (List (RowEntry K V))) : Option V :=
  applyVersions (merge k) (readVersions k maxSeq writeBatch sources) none

/-- Along the read order the versions of `k` never get newer. -/
def NewestFirstAt (k : K) (l : List (RowEntry K V)) : Prop :=
  (l.filter (·.key = k)).Pairwise (fun a b => b.seq ≤ a.seq)

instance (k : K) (l : List (RowEntry K V)) : Decidable (NewestFirstAt k l) :=
  inferInstanceAs (Decidable ((l.filter (·.key = k)).Pairwise (fun a b => b.seq ≤ a.seq)))

theorem map_value_newWithMaxSeq (k : K) (maxSeq : Option Nat) (l : List (RowEntry K V)) :
    (FilterIterator.newWithMaxSeq (l.filter (·.key = k)) maxSeq).map (·.value) =
      visibleUpTo k maxSeq l := by
  cases maxSeq with
  | none => rfl
  | some s =>
    simp only [FilterIterator.newWithMaxSeq, visibleUpTo, visible, List.filter_filter]
    congr 2
    funext e
    simp [Bool.and_comm]

end Spec

/-! ### The read's iterator over one key's versions -/

section Iterator

variable [DecidableEq K]

/-- Over one key's versions, newest first and with no tombstone, the read's
merge iterator returns an entry that is no tombstone and reads as all of them. -/
theorem nextEntry_mergeOperator_reads {op : MergeOperator K V} {k : K}
    (hf : MergeFold.Lawful (op.merge k)) {l : List (RowEntry K V)}
    (hkey : ∀ e ∈ l, e.key = k) (htomb : ∀ e ∈ l, e.value.isTombstone = false)
    (hseq : l.Pairwise (fun a b => b.seq ≤ a.seq)) :
    ∃ o rest, DbIterator.nextEntry (.mergeOperator ⟨op, true, none⟩) l = .ok (o, rest) ∧
      (∀ e ∈ o, e.value.isTombstone = false) ∧
      o.bind (·.value.asBytes) = applyVersions (op.merge k) (l.map (·.value)) none := by
  -- `next` returns no tombstone here, so `next_entry` is `next`
  suffices h : ∃ o rest, (⟨op, true, none⟩ : MergeOperatorIterator K V).next l = .ok (o, rest) ∧
      (∀ e ∈ o, e.value.isTombstone = false) ∧
      o.bind (·.value.asBytes) = applyVersions (op.merge k) (l.map (·.value)) none by
    obtain ⟨o, rest, hn, ht, hv⟩ := h
    refine ⟨o, rest, ?_, ht, hv⟩
    rw [DbIterator.nextEntry_eq_next (fun e rest' h' => ht e ?_)]
    · exact hn
    · simp only [ReadIterator.next, hn, Except.ok.injEq, Prod.mk.injEq] at h'
      exact h'.1 ▸ rfl
  cases l with
  | nil => exact ⟨none, [], rfl, by simp, rfl⟩
  | cons e l =>
    have he := htomb e List.mem_cons_self
    cases hv : e.value with
    | tombstone => simp [hv] at he
    | value v =>
      exact ⟨some e, l, by simp [MergeOperatorIterator.next, hv], by simpa using he,
        by simp [hv]⟩
    | merge x =>
      obtain rfl : e.key = k := hkey e List.mem_cons_self
      have hm : e.value.isMerge = true := by simp [hv]
      have hseq' : ∀ e' ∈ l, MergeOperatorIterator.isMatchingEntry ⟨op, true, none⟩ e' e.key
          e.expireTs = true → e'.seq ≤ e.seq :=
        fun e' he' _ => List.rel_of_pairwise_cons hseq he'
      obtain ⟨ops, base, rest, o, hmw, hsplit, -, -, -, hstop, -, -, hmergeo, htombo, -, hreads⟩ :=
        MergeOperatorIterator.mergeWithOlderEntries_spec _ hf hm hseq'
      refine ⟨some o, rest, by simp [MergeOperatorIterator.next, hv, hmw], by simpa using htombo,
        ?_⟩
      rw [hsplit, List.map_append, applyVersions_append, hreads]
      cases base with
      | some b =>
        -- the run ends at a base, and nothing below it is read
        simp only [Option.isNone_some] at hmergeo
        rw [Option.bind_some, applyVersions_base _ hmergeo]
      | none =>
        -- without a base the run takes every entry left, since all match
        have hrest : rest = [] := by
          cases rest with
          | nil => rfl
          | cons e' rest =>
            have he' : e' ∈ e :: l := by rw [hsplit]; simp
            have := hstop rfl e' (by simp)
            simp [MergeOperatorIterator.isMatchingEntry, hkey e' he'] at this
        obtain ⟨y, hy⟩ := ValueDeletable.isMerge_eq_true.mp (by simpa using hmergeo)
        simp [hrest, hy, hf.none_merge]

/-- Without a merge operator the read's iterator passes entries on, and fails
at a merge operand. -/
theorem nextEntry_mergeOperatorRequired {l : List (RowEntry K V)}
    (htomb : ∀ e ∈ l, e.value.isTombstone = false) :
    DbIterator.nextEntry .mergeOperatorRequired l = MergeOperatorRequiredIterator.next l := by
  apply DbIterator.nextEntry_eq_next
  intro e rest h
  cases l with
  | nil => simp [ReadIterator.next, MergeOperatorRequiredIterator.next] at h
  | cons e' l =>
    simp only [ReadIterator.next, MergeOperatorRequiredIterator.next] at h
    split at h
    · cases h
    · simp only [Except.ok.injEq, Prod.mk.injEq, Option.some.injEq] at h
      exact h.1 ▸ htomb e' List.mem_cons_self

end Iterator

/-! ### The walk of the sources -/

theorem flatten_applyFilters (iters : List (List (RowEntry K V))) (maxSeq : Option Nat) :
    (applyFilters iters maxSeq).flatten = FilterIterator.newWithMaxSeq iters.flatten maxSeq := by
  cases maxSeq with
  | none => rfl
  | some s => simp [applyFilters, FilterIterator.newWithMaxSeq, List.filter_flatten]

/-- Filtering a filtered stream again by the same bound keeps all of it. -/
theorem newWithMaxSeq_takeWhile (p : RowEntry K V → Bool) (l : List (RowEntry K V))
    (maxSeq : Option Nat) :
    FilterIterator.newWithMaxSeq ((FilterIterator.newWithMaxSeq l maxSeq).takeWhile p) maxSeq =
      (FilterIterator.newWithMaxSeq l maxSeq).takeWhile p := by
  cases maxSeq with
  | none => rfl
  | some s =>
    refine List.filter_eq_self.mpr (fun e he => ?_)
    exact (List.mem_filter.mp ((List.takeWhile_sublist p).subset he)).2

theorem newWithMaxSeq_append (a b : List (RowEntry K V)) (maxSeq : Option Nat) :
    FilterIterator.newWithMaxSeq (a ++ b) maxSeq =
      FilterIterator.newWithMaxSeq a maxSeq ++ FilterIterator.newWithMaxSeq b maxSeq := by
  cases maxSeq <;> simp [FilterIterator.newWithMaxSeq]

theorem newWithMaxSeq_sublist (l : List (RowEntry K V)) (maxSeq : Option Nat) :
    (FilterIterator.newWithMaxSeq l maxSeq).Sublist l := by
  cases maxSeq with
  | none => exact List.Sublist.refl l
  | some s => exact List.filter_sublist

/-- The sources of a read below the write batch, newest first. -/
def DbState.sources [Ord K] (dbState : DbState K V) : List (List (RowEntry K V)) :=
  (dbState.memtable :: dbState.immMemtable).map KVTable.rows ++ dbState.l0 ++ dbState.compacted

section Read

variable [Ord K] [DecidableEq K]

/-- The read key's versions in read order, below the bound where it applies. -/
def readEntries (key : K) (maxSeq : Option Nat) (writeBatch : List (RowEntry K V))
    (dbState : DbState K V) : List (RowEntry K V) :=
  writeBatch.filter (·.key = key) ++
    FilterIterator.newWithMaxSeq (dbState.sources.flatten.filter (·.key = key)) maxSeq

theorem map_value_readEntries (key : K) (maxSeq : Option Nat) (writeBatch : List (RowEntry K V))
    (dbState : DbState K V) :
    (readEntries key maxSeq writeBatch dbState).map (·.value) =
      readVersions key maxSeq writeBatch dbState.sources := by
  rw [readEntries, List.map_append, map_value_newWithMaxSeq, readVersions]

/-- The read's two walks, the tree's inside the outer one, yield the read
key's versions up to the first tombstone. -/
theorem walk_eq_readEntries (key : K) (maxSeq : Option Nat) (wb : Option (List (RowEntry K V)))
    (dbState : DbState K V) :
    List.takeWhile (fun e => !e.value.isTombstone)
      ((wb.map (fun l => l.filter (·.key = key))).getD [] ::
        applyFilters ((dbState.memtable :: dbState.immMemtable).map
          (fun t => t.rows.filter (·.key = key))) maxSeq ++
        [FilterIterator.newWithMaxSeq (List.takeWhile (fun e => !e.value.isTombstone)
          (applyFilters ((dbState.l0 ++ dbState.compacted).map
            (fun l => l.filter (·.key = key))) maxSeq).flatten) maxSeq]).flatten =
      (readEntries key maxSeq (wb.getD []) dbState).takeWhile (!·.value.isTombstone) := by
  have hmem : (applyFilters ((dbState.memtable :: dbState.immMemtable).map
      (fun t => t.rows.filter (·.key = key))) maxSeq).flatten =
      FilterIterator.newWithMaxSeq
        (((dbState.memtable :: dbState.immMemtable).map KVTable.rows).flatten.filter
          (·.key = key)) maxSeq := by
    rw [flatten_applyFilters, List.filter_flatten, List.map_map]
    rfl
  have hseg : (applyFilters ((dbState.l0 ++ dbState.compacted).map
      (fun l => l.filter (·.key = key))) maxSeq).flatten =
      FilterIterator.newWithMaxSeq ((dbState.l0 ++ dbState.compacted).flatten.filter
        (·.key = key)) maxSeq := by
    rw [flatten_applyFilters, List.filter_flatten]
  have hwb : (wb.map (fun l => l.filter (·.key = key))).getD [] =
      (wb.getD []).filter (·.key = key) := by
    cases wb <;> rfl
  rw [List.flatten_append, List.flatten_cons, List.flatten_singleton, hmem, hwb, hseg,
    newWithMaxSeq_takeWhile, takeWhile_append_takeWhile, List.append_assoc,
    ← newWithMaxSeq_append, ← List.filter_append, ← List.flatten_append, readEntries,
    DbState.sources, List.append_assoc]

/-- What the read's walk yields comes from the read key's versions in read order. -/
theorem readEntries_sublist (key : K) (maxSeq : Option Nat) (writeBatch : List (RowEntry K V))
    (dbState : DbState K V) :
    (readEntries key maxSeq writeBatch dbState).Sublist
      ((writeBatch ++ dbState.sources.flatten).filter (·.key = key)) := by
  rw [readEntries, List.filter_append]
  exact (List.Sublist.refl _).append (newWithMaxSeq_sublist _ _)

section Stream

variable {key : K} {maxSeq : Option Nat} {writeBatch : List (RowEntry K V)} {dbState : DbState K V}

theorem key_of_mem_readStream {e : RowEntry K V}
    (he : e ∈ (readEntries key maxSeq writeBatch dbState).takeWhile (!·.value.isTombstone)) :
    e.key = key := by
  have := (readEntries_sublist key maxSeq writeBatch dbState).subset
    ((List.takeWhile_sublist _).subset he)
  simpa using (List.mem_filter.mp this).2

theorem isTombstone_of_mem_readStream {e : RowEntry K V}
    (he : e ∈ (readEntries key maxSeq writeBatch dbState).takeWhile (!·.value.isTombstone)) :
    e.value.isTombstone = false := by
  simpa using List.mem_takeWhile_imp he

theorem pairwise_readStream (maxSeq : Option Nat)
    (hrec : NewestFirstAt key (writeBatch ++ dbState.sources.flatten)) :
    ((readEntries key maxSeq writeBatch dbState).takeWhile (!·.value.isTombstone)).Pairwise
      (fun a b => b.seq ≤ a.seq) :=
  hrec.sublist ((List.takeWhile_sublist _).trans (readEntries_sublist key maxSeq writeBatch dbState))

end Stream

/-- The resolution reads the walk: cutting the versions at the first tombstone
changes nothing. -/
theorem readResolution_eq_readStream (merge : K → Option V → V → V) (key : K)
    (maxSeq : Option Nat) (writeBatch : List (RowEntry K V)) (dbState : DbState K V) :
    readResolution merge key maxSeq writeBatch dbState.sources =
      applyVersions (merge key) (((readEntries key maxSeq writeBatch dbState).takeWhile
        (!·.value.isTombstone)).map (·.value)) none := by
  rw [readResolution, ← map_value_readEntries, ← applyVersions_takeWhile, List.takeWhile_map]
  rfl

/-! ### The read refines the resolution -/

/-- With a lawful merge operator and the read key's versions newest first, the
point read folds the versions its walk yields, down to the first tombstone. -/
theorem getKeyValueWithOptions_reads_stream (r : Reader K V) {op : MergeOperator K V}
    (hr : r.readMergeOperator = some op) (key : K) (hop : MergeFold.Lawful (op.merge key))
    (options : ReadOptions) (dbState : DbState K V) (writeBatch : Option (List (RowEntry K V)))
    (maxSeq : Option Nat) (hrec : NewestFirstAt key (writeBatch.getD [] ++ dbState.sources.flatten)) :
    (r.getKeyValueWithOptions key options dbState writeBatch maxSeq).map (Option.map (·.value)) =
      .ok (applyVersions (op.merge key) (((readEntries key
        (r.prepareMaxSeq maxSeq options.durabilityFilter options.dirty) (writeBatch.getD [])
          dbState).takeWhile (!·.value.isTombstone)).map (·.value)) none) := by
  obtain ⟨o, rest, hn, ht, hv⟩ := nextEntry_mergeOperator_reads hop
    (fun _ he => key_of_mem_readStream he) (fun _ he => isTombstone_of_mem_readStream he)
    (pairwise_readStream (r.prepareMaxSeq maxSeq options.durabilityFilter options.dirty) hrec)
  simp only [Reader.getKeyValueWithOptions, GetIterator.drain_eq, walk_eq_readEntries, hr, hn]
  rw [← hv]
  cases o with
  | none => rfl
  | some e =>
    -- the entry is no tombstone, so it has a payload
    obtain ⟨x, hx⟩ := Option.isSome_iff_exists.mp
      (by rw [ValueDeletable.asBytes_isSome, ht e rfl]; rfl : e.value.asBytes.isSome)
    simp [hx, KeyValue.ofRowEntry, Except.map]

/-- With a merge operator that is associative with no existing value as its
left unit, and the read key's versions newest first along the read order, the
point read returns the key's resolution at the read's sequence bound. -/
theorem getKeyValueWithOptions_resolves (r : Reader K V) {op : MergeOperator K V}
    (hr : r.readMergeOperator = some op) (key : K) (hop : MergeFold.Lawful (op.merge key))
    (options : ReadOptions) (dbState : DbState K V) (writeBatch : Option (List (RowEntry K V)))
    (maxSeq : Option Nat) (hrec : NewestFirstAt key (writeBatch.getD [] ++ dbState.sources.flatten)) :
    (r.getKeyValueWithOptions key options dbState writeBatch maxSeq).map (Option.map (·.value)) =
      .ok (readResolution op.merge key (r.prepareMaxSeq maxSeq options.durabilityFilter options.dirty)
        (writeBatch.getD []) dbState.sources) := by
  rw [readResolution_eq_readStream]
  exact getKeyValueWithOptions_reads_stream r hr key hop options dbState writeBatch maxSeq hrec

/-- Without a merge operator the point read returns the newest version it
sees, and fails if that is a merge operand. -/
theorem getKeyValueWithOptions_without_merge_operator (r : Reader K V)
    (hr : r.readMergeOperator = none) (key : K) (options : ReadOptions) (dbState : DbState K V)
    (writeBatch : Option (List (RowEntry K V))) (maxSeq : Option Nat) :
    (r.getKeyValueWithOptions key options dbState writeBatch maxSeq).map (Option.map (·.value)) =
      match (readVersions key (r.prepareMaxSeq maxSeq options.durabilityFilter options.dirty)
          (writeBatch.getD []) dbState.sources).head? with
      | some (.merge _) => .error .mergeOperatorMissing
      | v => .ok (v.bind (·.asBytes)) := by
  simp only [Reader.getKeyValueWithOptions, GetIterator.drain_eq, walk_eq_readEntries, hr]
  rw [nextEntry_mergeOperatorRequired (fun _ he => isTombstone_of_mem_readStream he),
    ← map_value_readEntries]
  generalize readEntries key _ _ dbState = l
  cases l with
  | nil => rfl
  | cons e l =>
    cases hv : e.value <;>
      simp [hv, MergeOperatorRequiredIterator.next, KeyValue.ofRowEntry, Except.map]

end Read

/-- A memtable holding a value `10` of key `1` at `1` and a merge operand `1`
of it at `2`. -/
def valueUnderMerge : DbState Nat Nat :=
  ⟨(KVTable.new.put ⟨1, .value 10, 1, some 0, none⟩).put ⟨1, .merge 1, 2, some 0, none⟩, [], [], []⟩

/-- A reader with the documented counter whose committed sequence number is `2`. -/
def counterReader : Reader Nat Nat := ⟨some counterMergeOperator, 2, 2⟩

theorem getKeyValueWithOptions_resolves_counter :
    (counterReader.getKeyValueWithOptions 1 {} valueUnderMerge none none).map
      (Option.map (·.value)) = .ok (some 11) :=
  (getKeyValueWithOptions_resolves counterReader rfl 1 (counterMergeOperator_lawful 1) {}
    valueUnderMerge none none (by decide)).trans (by decide)

theorem getKeyValueWithOptions_without_merge_operator_fails :
    (Reader.getKeyValueWithOptions ⟨none, 2, 2⟩ 1 {} valueUnderMerge none none).map
      (Option.map (·.value)) = .error .mergeOperatorMissing :=
  (getKeyValueWithOptions_without_merge_operator ⟨none, 2, 2⟩ rfl 1 {} valueUnderMerge none
    none).trans (by decide)

/-! ### An associative operator without a left unit -/

/-- A counter that starts from `100`: associative, also where an existing value
is missing, but no existing value is not its left unit. -/
def offsetCounterMergeOperator : MergeOperator Nat Nat := ⟨fun _ existing x => existing.getD 100 + x⟩

/-- A reader with the offset counter whose committed sequence number is `2`. -/
def offsetCounterReader : Reader Nat Nat := ⟨some offsetCounterMergeOperator, 2, 2⟩

theorem getKeyValueWithOptions_offset_counter :
    (∀ k a x y, offsetCounterMergeOperator.merge k (some (offsetCounterMergeOperator.merge k a x)) y =
      offsetCounterMergeOperator.merge k a (offsetCounterMergeOperator.merge k (some x) y)) ∧
    NewestFirstAt 1 valueUnderMerge.sources.flatten ∧
    readResolution offsetCounterMergeOperator.merge 1
      (offsetCounterReader.prepareMaxSeq none .memory false) [] valueUnderMerge.sources = some 11 ∧
    offsetCounterReader.getKeyValueWithOptions 1 {} valueUnderMerge none none =
      .ok (some ⟨1, 111, 2, 0, none⟩) := by
  refine ⟨fun k a x y => by simp [offsetCounterMergeOperator, Nat.add_assoc], by decide, by decide, ?_⟩
  -- the operand is merged from no existing value first, giving `101`
  simp only [Reader.getKeyValueWithOptions, GetIterator.drain_eq]
  rw [DbIterator.nextEntry]
  decide

end SlateDb
