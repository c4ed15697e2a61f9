import SlateDb.Db
import SlateDb.ReaderSpec
import SlateDb.RetentionSpec

/-!
# Every run of the database keeps its sources newest first

`DbInner.Inv` is what every reachable state of the database satisfies. The
memtable is an ordered map keyed by its rows' own keys and sequence numbers.
The rows of every immutable memtable are a sorted stream. The oracle has handed
out every sequence number a source holds. Along the read order, that is the
memtable, the immutable memtables newest first and the L0 SSTs newest first,
each key's versions are newest first.

Each event keeps it, by what `writeBatch_spec` and `flushImmMemtable_spec` say
the event can do. A commit puts rows above every sequence number handed out
into the memtable, at the front of the read order. A freeze moves the memtable
to the immutable ones and leaves the order as it was. A flush puts in place of
the oldest immutable memtable what the flush pipeline keeps of it, and that is
a sublist of its keys and sequence numbers. Snapshots, transactions and WAL
flushes touch no source.

No event lowers the durable sequence number (`lastDurableSeq_le_of_runs`), and
a flush's retention bound is at most the durable sequence number and the one
every active snapshot and transaction started at (`minRetentionSeq_spec`).

So on every run of a database with a lawful merge operator, every point read
returns the key's resolution at the read's bound
(`getKeyValueWithOptions_resolves_of_reachable`).
-/

namespace SlateDb

variable {K V : Type}

/-! ### Newest first, through the keys and sequence numbers -/

section NewestFirst

variable [DecidableEq K]

theorem newestFirstAt_iff_keySeq (k : K) (l : List (RowEntry K V)) :
    NewestFirstAt k l ↔ ((l.map keySeq).filter (·.1 = k)).Pairwise (fun p q => q.2 ≤ p.2) := by
  rw [NewestFirstAt, List.filter_map, List.pairwise_map]
  rfl

/-- A list whose keys and sequence numbers are a sublist of another's is
newest first wherever the other is. -/
theorem NewestFirstAt.of_keySeq_sublist {k : K} {l l' : List (RowEntry K V)}
    (h : (l'.map keySeq).Sublist (l.map keySeq)) (hl : NewestFirstAt k l) : NewestFirstAt k l' := by
  rw [newestFirstAt_iff_keySeq] at hl ⊢
  exact hl.sublist (h.filter _)

theorem newestFirstAt_append {k : K} {a b : List (RowEntry K V)} :
    NewestFirstAt k (a ++ b) ↔ NewestFirstAt k a ∧ NewestFirstAt k b ∧
      ∀ x ∈ a, x.key = k → ∀ y ∈ b, y.key = k → y.seq ≤ x.seq := by
  simp only [NewestFirstAt, List.filter_append, List.pairwise_append, List.mem_filter,
    decide_eq_true_eq, and_imp]

end NewestFirst

theorem SortedStream.newestFirstAt [LinearOrder K] {l : List (RowEntry K V)} (h : SortedStream l)
    (k : K) : NewestFirstAt k l := by
  refine (h.sublist List.filter_sublist).imp_of_mem (fun {a b} ha hb hab => ?_)
  have hka : a.key = k := by simpa using (List.mem_filter.mp ha).2
  have hkb : b.key = k := by simpa using (List.mem_filter.mp hb).2
  rcases hab with hlt | ⟨-, hseq⟩
  · exact absurd (hka.trans hkb.symm) (ne_of_lt hlt)
  · exact le_of_lt hseq

theorem DbState.sources_flatten [Ord K] (s : DbState K V) :
    s.sources.flatten = s.memtable.rows ++
      ((s.immMemtable.map KVTable.rows).flatten ++ s.l0.flatten ++ s.compacted.flatten) := by
  simp [DbState.sources]

/-! ### What each event does to the sources -/

section Events

variable [Ord K] [DecidableEq K]

/-- Every row a batch commits carries the commit's sequence number. -/
theorem WriteBatch.seq_of_mem_extractEntries {b : WriteBatch K V} {seq : Nat} {now : Int}
    {defaultTtl : Option Nat} {merger : Option (MergeOperator K V)} {entries : List (RowEntry K V)}
    (h : b.extractEntries seq now defaultTtl merger = .ok entries) : ∀ e ∈ entries, e.seq = seq := by
  intro e he
  simp only [WriteBatch.extractEntries] at h
  split at h
  · cases h
  cases merger with
  | none =>
    simp only [Except.ok.injEq] at h
    exact WriteBatchIterator.seq_of_mem_newWithSeqAndTtl (h ▸ he)
  | some op =>
    -- the merge iterator keeps the sequence numbers of the rows it merges
    obtain ⟨e₀, he₀, hks⟩ :=
      exists_keySeq_of_sublist (MergeOperatorIterator.drain_keySeq_sublist _ h) e he
    have hseq : e.seq = e₀.seq := (congrArg Prod.snd hks).symm
    rw [hseq]
    exact WriteBatchIterator.seq_of_mem_newWithSeqAndTtl he₀

namespace DbInner

/-- A commit keeps the settings and never lowers the last sequence number
handed out. It changes no source, or it puts into the memtable rows above
every sequence number handed out before it. -/
theorem writeBatch_spec (db : DbInner K V) (batch : WriteBatch K V) (options : WriteOptions)
    (now : Int) :
    (db.writeBatch batch options now).2.mergeOperator = db.mergeOperator ∧
      db.oracle.lastSeq ≤ (db.writeBatch batch options now).2.oracle.lastSeq ∧
      ((db.writeBatch batch options now).2.state = db.state ∨
        ∃ entries : List (RowEntry K V),
          (∀ e ∈ entries, db.oracle.lastSeq < e.seq ∧
            e.seq ≤ (db.writeBatch batch options now).2.oracle.lastSeq) ∧
          (db.writeBatch batch options now).2.state =
            { db.state with memtable := entries.foldl KVTable.put db.state.memtable }) := by
  by_cases hchk : 0 < options.seqnum ∧ options.seqnum ≤ db.oracle.lastSeq
  · simp [writeBatch, hchk]
  -- the commit's sequence number is above every one handed out, and becomes the last
  obtain ⟨commitSeq, oracle, hco, hlt, hlast⟩ : ∃ commitSeq oracle,
      (if 0 < options.seqnum then (options.seqnum, db.oracle.advanceLastSeq options.seqnum)
        else db.oracle.nextSeq) = (commitSeq, oracle) ∧
      db.oracle.lastSeq < commitSeq ∧ oracle.lastSeq = commitSeq := by
    by_cases hs : 0 < options.seqnum
    · have hgt : db.oracle.lastSeq < options.seqnum := by omega
      exact ⟨_, _, if_pos hs, hgt, by simp [DbOracle.advanceLastSeq]; omega⟩
    · exact ⟨_, _, if_neg hs, by simp, rfl⟩
  simp only [writeBatch, if_neg hchk, hco]
  cases hext : batch.extractEntries commitSeq now db.defaultTtl db.mergeOperator with
  | error e => exact ⟨rfl, hlast ▸ hlt.le, .inl rfl⟩
  | ok entries =>
    refine ⟨rfl, by simp [DbOracle.advanceCommittedSeq, hlast, hlt.le], .inr ⟨entries, ?_, rfl⟩⟩
    intro e he
    rw [WriteBatch.seq_of_mem_extractEntries hext e he]
    exact ⟨hlt, by simp [DbOracle.advanceCommittedSeq, hlast]⟩

omit [Ord K] in
/-- A flush takes the oldest immutable memtable out and, unless the flush
pipeline kept none of its rows, puts them in front of the L0 SSTs. -/
theorem flushImmMemtable_spec {db db' : DbInner K V} {currentSystemTs : Int}
    (hf : db.flushImmMemtable currentSystemTs = some db') :
    ∃ imms immTable rows, db.state.immMemtable = imms ++ [immTable] ∧
      db.iterImmTable immTable currentSystemTs = .ok rows ∧
      db'.mergeOperator = db.mergeOperator ∧ db'.oracle = db.oracle ∧
      db'.state = { db.state with
        immMemtable := imms
        l0 := if rows.isEmpty then db.state.l0 else rows :: db.state.l0 } := by
  simp only [flushImmMemtable] at hf
  split at hf
  · cases hf
  rename_i immTable hlast
  split at hf
  · cases hf
  rename_i rows hrows
  split at hf
  · cases hf
  simp only [Option.some.injEq] at hf
  subst hf
  obtain ⟨imms, himms⟩ := List.getLast?_eq_some_iff.mp hlast
  exact ⟨imms, immTable, rows, himms, hrows, rfl, rfl, by simp [himms]⟩

omit [Ord K] in
/-- A flush advances the durable sequence number to the flushed memtable's last one. -/
theorem flushImmMemtable_lastDurableSeq {db db' : DbInner K V} {currentSystemTs : Int}
    (hf : db.flushImmMemtable currentSystemTs = some db') :
    ∃ immTable, db.state.immMemtable.getLast? = some immTable ∧
      db'.lastDurableSeq = max db.lastDurableSeq (immTable.lastSeq.getD 0) := by
  simp only [flushImmMemtable] at hf
  split at hf
  · cases hf
  rename_i immTable hlast
  split at hf
  · cases hf
  split at hf
  · cases hf
  simp only [Option.some.injEq] at hf
  exact ⟨immTable, hlast, hf ▸ rfl⟩

/-- A commit leaves the durable sequence number alone. -/
@[simp] theorem writeBatch_lastDurableSeq (db : DbInner K V) (batch : WriteBatch K V)
    (options : WriteOptions) (now : Int) :
    (db.writeBatch batch options now).2.lastDurableSeq = db.lastDurableSeq := by
  simp only [writeBatch]
  split
  · rfl
  · split <;> rfl

end DbInner

end Events

/-! ### The WAL flush and the retention bound -/

namespace DbInner

/-- A WAL flush empties the buffer and moves the durable sequence number up to
the last row it wrote; nothing else changes. -/
theorem flushWal_eq (db : DbInner K V) :
    db.flushWal = { db with
      wal := []
      lastDurableSeq := max db.lastDurableSeq ((db.wal.getLast?.map (·.seq)).getD 0) } := by
  unfold flushWal
  split
  next entry hlast => simp [hlast]
  next hlast => simp [hlast]

/-- No event lowers the durable sequence number. -/
theorem step_lastDurableSeq [Ord K] [DecidableEq K] {db db' : DbInner K V} {e : DbEvent K V}
    (hs : db.step e = some db') : db.lastDurableSeq ≤ db'.lastDurableSeq := by
  cases e with
  | writeBatch batch options now =>
    simp only [DbInner.step, Option.some.injEq] at hs
    simp [← hs]
  | flushWal =>
    simp only [DbInner.step, Option.some.injEq] at hs
    rw [← hs, flushWal_eq]
    exact le_max_left _ _
  | flushImmMemtable currentSystemTs =>
    obtain ⟨_, -, hdur⟩ := flushImmMemtable_lastDurableSeq hs
    rw [hdur]
    exact le_max_left _ _
  | freezeMemtable | newSnapshot _ | dropSnapshot _ | newTransaction _ | dropTxn _ =>
    simp only [DbInner.step, Option.some.injEq] at hs
    exact hs ▸ le_refl _

/-- Along every run the durable sequence number only moves up. -/
theorem lastDurableSeq_le_of_runs [Ord K] [DecidableEq K] {mergeOperator : Option (MergeOperator K V)}
    {defaultTtl : Option Nat} {walEnabled : Bool} {db db' : DbInner K V}
    (hrun : (system mergeOperator defaultTtl walEnabled).Runs db db') :
    db.lastDurableSeq ≤ db'.lastDurableSeq :=
  Transition.System.Runs.preserve (P := fun t => db.lastDurableSeq ≤ t.lastDurableSeq)
    (fun _ _ _ h hs => h.trans (step_lastDurableSeq hs)) hrun (le_refl _)

/-- The least of the present values of a list is at most each of them. -/
theorem le_of_reduceOption_min? {l : List (Option Nat)} {r n : Nat}
    (hr : l.reduceOption.min? = some r) (hn : some n ∈ l) : r ≤ n :=
  (List.min?_eq_some_iff.mp hr).2 n (List.reduceOption_mem_iff.mpr hn)

/-- A flush's retention bound is at most the durable sequence number and the
sequence number every active snapshot and transaction started at, so it keeps
the versions each of them reads. -/
theorem minRetentionSeq_spec (db : DbInner K V) :
    ∃ r, db.minRetentionSeq = some r ∧ r ≤ db.lastDurableSeq ∧
      (∀ p ∈ db.activeSnapshots, r ≤ p.2) ∧ ∀ p ∈ db.activeTxns, r ≤ p.2 := by
  -- the durable sequence number is always present, so the bound is too
  obtain ⟨r, hr⟩ := Option.isSome_iff_exists.mp (List.isSome_min?_of_mem
    (List.reduceOption_mem_iff.mpr (List.mem_cons_self (a := some db.lastDurableSeq))))
  -- a started sequence number is above the least of its manager's, which the bound is below
  have hbelow : ∀ ps : List (Nat × Nat), (ps.map Prod.snd).min? ∈
      [some db.lastDurableSeq, db.minActiveSnapshotSeq, db.minActiveTxnSeq] →
      ∀ p ∈ ps, r ≤ p.2 := by
    intro ps hmem p hp
    have hsnd : p.2 ∈ ps.map Prod.snd := List.mem_map_of_mem hp
    obtain ⟨m, hm⟩ := Option.isSome_iff_exists.mp (List.isSome_min?_of_mem hsnd)
    rw [hm] at hmem
    exact (le_of_reduceOption_min? hr hmem).trans ((List.min?_eq_some_iff.mp hm).2 _ hsnd)
  exact ⟨r, hr, le_of_reduceOption_min? hr List.mem_cons_self,
    hbelow _ (by simp [minActiveSnapshotSeq]), hbelow _ (by simp [minActiveTxnSeq])⟩

end DbInner

/-! ### The invariant -/

section Invariant

variable [LinearOrder K]

/-- What every reachable state of the database satisfies. -/
structure DbInner.Inv (db : DbInner K V) : Prop where
  memtable_wellFormed : db.state.memtable.WellFormed
  imm_sorted : ∀ t ∈ db.state.immMemtable, SortedStream t.rows
  seq_le : ∀ e ∈ db.state.sources.flatten, e.seq ≤ db.oracle.lastSeq
  newest_first : ∀ k, NewestFirstAt k db.state.sources.flatten

namespace DbInner

theorem inv_init (mergeOperator : Option (MergeOperator K V)) (defaultTtl : Option Nat)
    (walEnabled : Bool) : (init mergeOperator defaultTtl walEnabled).Inv where
  memtable_wellFormed := KVTable.wellFormed_new
  imm_sorted := by simp [init]
  seq_le := by simp [init, DbState.sources, KVTable.new, KVTable.rows]
  newest_first k := by simp [init, DbState.sources, KVTable.new, KVTable.rows, NewestFirstAt]

theorem Inv.of_state_eq {db db' : DbInner K V} (h : db.Inv) (hs : db'.state = db.state)
    (hle : db.oracle.lastSeq ≤ db'.oracle.lastSeq) : db'.Inv where
  memtable_wellFormed := hs ▸ h.memtable_wellFormed
  imm_sorted := hs ▸ h.imm_sorted
  seq_le e he := (h.seq_le e (hs ▸ he)).trans hle
  newest_first := hs ▸ h.newest_first

theorem wellFormed_foldl_put {t : KVTable K V} (h : t.WellFormed) :
    ∀ entries : List (RowEntry K V), (entries.foldl KVTable.put t).WellFormed
  | [] => h
  | x :: xs => wellFormed_foldl_put (h.put x) xs

/-- A row of the memtable after a commit is one of the commit's rows or an old row. -/
theorem mem_rows_foldl_put {e : RowEntry K V} :
    ∀ {t : KVTable K V} {entries : List (RowEntry K V)},
      e ∈ (entries.foldl KVTable.put t).rows → e ∈ entries ∨ e ∈ t.rows
  | _, [], he => .inr he
  | t, x :: xs, he => by
    rcases mem_rows_foldl_put (t := t.put x) he with h | h
    · exact .inl (List.mem_cons_of_mem _ h)
    · rcases KVTable.mem_rows_put h with rfl | h
      · exact .inl List.mem_cons_self
      · exact .inr h

theorem Inv.writeBatch {db : DbInner K V} (h : db.Inv) (batch : WriteBatch K V)
    (options : WriteOptions) (now : Int) : (db.writeBatch batch options now).2.Inv := by
  obtain ⟨-, hle, hstate⟩ := db.writeBatch_spec batch options now
  rcases hstate with hs | ⟨entries, hent, hs⟩
  · exact h.of_state_eq hs hle
  have hwf := wellFormed_foldl_put h.memtable_wellFormed entries
  have hold := DbState.sources_flatten db.state
  -- the sources after the commit: the new memtable in front of the old rest
  have hnew : (db.writeBatch batch options now).2.state.sources.flatten =
      (entries.foldl KVTable.put db.state.memtable).rows ++
        ((db.state.immMemtable.map KVTable.rows).flatten ++ db.state.l0.flatten ++
          db.state.compacted.flatten) := by
    rw [hs, DbState.sources_flatten]
  -- every row behind the memtable was there before
  have hrest : ∀ y ∈ (db.state.immMemtable.map KVTable.rows).flatten ++ db.state.l0.flatten ++
      db.state.compacted.flatten, y ∈ db.state.sources.flatten := fun y hy => by
    rw [hold]
    exact List.mem_append_right _ hy
  refine ⟨hs ▸ hwf, hs ▸ h.imm_sorted, fun e he => ?_, fun k => ?_⟩
  · rw [hnew] at he
    rcases List.mem_append.mp he with he | he
    · rcases mem_rows_foldl_put he with he | he
      · exact (hent e he).2
      · exact (h.seq_le e (hold ▸ List.mem_append_left _ he)).trans hle
    · exact (h.seq_le e (hrest e he)).trans hle
  · have hk := h.newest_first k
    rw [hold, newestFirstAt_append] at hk
    rw [hnew, newestFirstAt_append]
    refine ⟨hwf.sortedStream.newestFirstAt k, hk.2.1, fun x hx hxk y hy hyk => ?_⟩
    rcases mem_rows_foldl_put hx with hx | hx
    · -- a committed row is newer than everything handed out before
      exact (h.seq_le y (hrest y hy)).trans (hent x hx).1.le
    · exact hk.2.2 x hx hxk y hy hyk

theorem Inv.freezeMemtable {db : DbInner K V} (h : db.Inv) : db.freezeMemtable.Inv := by
  -- the read order sees the same rows: the new memtable is empty
  have hsrc : db.freezeMemtable.state.sources.flatten = db.state.sources.flatten := by
    simp [DbInner.freezeMemtable, DbState.sources, KVTable.new, KVTable.rows]
  refine ⟨KVTable.wellFormed_new, fun t ht => ?_, fun e he => h.seq_le e (hsrc ▸ he),
    fun k => hsrc ▸ h.newest_first k⟩
  simp only [DbInner.freezeMemtable, List.mem_cons] at ht
  rcases ht with rfl | ht
  · exact h.memtable_wellFormed.sortedStream
  · exact h.imm_sorted t ht

/-- The flush pipeline keeps a sublist of the keys and sequence numbers of a
sorted immutable memtable. -/
theorem iterImmTable_keySeq_sublist {db : DbInner K V} {immTable : KVTable K V}
    {currentSystemTs : Int} {rows : List (RowEntry K V)} (hsorted : SortedStream immTable.rows)
    (h : db.iterImmTable immTable currentSystemTs = .ok rows) :
    (rows.map keySeq).Sublist (immTable.rows.map keySeq) := by
  simp only [iterImmTable] at h
  split at h
  · cases h
  rename_i merged hmerged
  -- the merge stage keeps a sublist of the keys and sequence numbers
  have hsub : (merged.map keySeq).Sublist (immTable.rows.map keySeq) := by
    split at hmerged
    · exact MergeOperatorIterator.drain_keySeq_sublist _ hmerged
    · rw [MergeOperatorRequiredIterator.drain_ok hmerged]
  -- so does the retention stage, over the sorted stream the merge stage leaves
  obtain ⟨out, hout, hsub', -⟩ :=
    RetentionIterator.drain_spec ⟨none, db.minRetentionSeq, false, immTable.lastTick,
      currentSystemTs, fun _ => none⟩ rfl (SortedStream.of_keySeq_sublist hsub hsorted)
  rw [hout] at h
  simp only [Except.ok.injEq] at h
  exact h ▸ hsub'.trans hsub

theorem Inv.flushImmMemtable {db db' : DbInner K V} {currentSystemTs : Int} (h : db.Inv)
    (hf : db.flushImmMemtable currentSystemTs = some db') : db'.Inv := by
  obtain ⟨imms, immTable, rows, himms, hrows, -, horacle, hs⟩ := flushImmMemtable_spec hf
  have hsub := iterImmTable_keySeq_sublist (h.imm_sorted immTable (by simp [himms])) hrows
  have hl0 : (if rows.isEmpty then db.state.l0 else rows :: db.state.l0).flatten =
      rows ++ db.state.l0.flatten := by
    split
    · rename_i hempty
      simp [List.isEmpty_iff.mp hempty]
    · rfl
  -- the flushed rows stand where the immutable memtable stood in the read order
  have hkeys : (db'.state.sources.flatten.map keySeq).Sublist
      (db.state.sources.flatten.map keySeq) := by
    rw [hs, DbState.sources_flatten, DbState.sources_flatten, himms]
    simp only [hl0, List.map_append, List.flatten_append, List.map_cons, List.map_nil,
      List.flatten_cons, List.flatten_nil, List.append_nil, List.append_assoc]
    exact (List.Sublist.refl _).append ((List.Sublist.refl _).append (hsub.append
      (List.Sublist.refl _)))
  refine ⟨hs ▸ h.memtable_wellFormed, fun t ht => ?_, fun e he => ?_,
    fun k => (h.newest_first k).of_keySeq_sublist hkeys⟩
  · rw [hs] at ht
    exact h.imm_sorted t (by rw [himms]; exact List.mem_append_left _ ht)
  · obtain ⟨e₀, he₀, hks⟩ := exists_keySeq_of_sublist hkeys e he
    have hseq : e.seq = e₀.seq := (congrArg Prod.snd hks).symm
    rw [horacle, hseq]
    exact h.seq_le e₀ he₀

theorem Inv.step {db db' : DbInner K V} {e : DbEvent K V} (h : db.Inv)
    (hs : db.step e = some db') : db'.Inv := by
  cases e with
  | writeBatch batch options now =>
    simp only [DbInner.step, Option.some.injEq] at hs
    exact hs ▸ h.writeBatch batch options now
  | freezeMemtable =>
    simp only [DbInner.step, Option.some.injEq] at hs
    exact hs ▸ h.freezeMemtable
  | flushImmMemtable currentSystemTs => exact h.flushImmMemtable hs
  | flushWal =>
    simp only [DbInner.step, Option.some.injEq, flushWal_eq] at hs
    exact h.of_state_eq (hs ▸ rfl) (hs ▸ le_refl _)
  -- snapshots and transactions touch no source
  | newSnapshot _ | dropSnapshot _ | newTransaction _ | dropTxn _ =>
    simp only [DbInner.step, Option.some.injEq] at hs
    exact h.of_state_eq (hs ▸ rfl) (hs ▸ le_refl _)

/-- No event changes the merge operator. -/
theorem step_mergeOperator {db db' : DbInner K V} {e : DbEvent K V}
    (hs : db.step e = some db') : db'.mergeOperator = db.mergeOperator := by
  cases e with
  | writeBatch batch options now =>
    simp only [DbInner.step, Option.some.injEq] at hs
    exact hs ▸ (db.writeBatch_spec batch options now).1
  | flushImmMemtable currentSystemTs =>
    obtain ⟨-, -, -, -, -, hmo, -⟩ := flushImmMemtable_spec hs
    exact hmo
  | flushWal =>
    simp only [DbInner.step, Option.some.injEq, flushWal_eq] at hs
    exact hs ▸ rfl
  | freezeMemtable | newSnapshot _ | dropSnapshot _ | newTransaction _ | dropTxn _ =>
    simp only [DbInner.step, Option.some.injEq] at hs
    exact hs ▸ rfl

theorem inv_invariant (mergeOperator : Option (MergeOperator K V)) (defaultTtl : Option Nat)
    (walEnabled : Bool) : (system mergeOperator defaultTtl walEnabled).Invariant Inv where
  init _ h := h ▸ inv_init mergeOperator defaultTtl walEnabled
  step _ _ _ h hs := h.step hs

theorem mergeOperator_invariant (mergeOperator : Option (MergeOperator K V))
    (defaultTtl : Option Nat) (walEnabled : Bool) :
    (system mergeOperator defaultTtl walEnabled).Invariant (·.mergeOperator = mergeOperator) where
  init _ h := h ▸ rfl
  step _ _ _ h hs := (step_mergeOperator hs).trans h

/-! ### Every run -/

variable {mergeOperator : Option (MergeOperator K V)} {defaultTtl : Option Nat}
  {walEnabled : Bool} {db : DbInner K V}

/-- Along the read order of every reachable state, each key's versions are
newest first, and no row is above the last sequence number handed out. -/
theorem sources_newestFirst_of_reachable
    (hs : (system mergeOperator defaultTtl walEnabled).Reachable db) :
    (∀ k, NewestFirstAt k db.state.sources.flatten) ∧
      ∀ e ∈ db.state.sources.flatten, e.seq ≤ db.oracle.lastSeq := by
  have h := (inv_invariant mergeOperator defaultTtl walEnabled).reachable hs
  exact ⟨h.newest_first, h.seq_le⟩

/-- On every run of a database with a lawful merge operator, a point read
returns the key's resolution over the memtables and the tree at the read's
bound. -/
theorem getKeyValueWithOptions_resolves_of_reachable {mergeOperator : MergeOperator K V}
    (hop : ∀ k, MergeFold.Lawful (mergeOperator.merge k))
    (hs : (system (some mergeOperator) defaultTtl walEnabled).Reachable db)
    (key : K) (options : ReadOptions) (maxSeq : Option Nat) :
    (db.reader.getKeyValueWithOptions key options db.state none maxSeq).map
        (Option.map (·.value)) =
      .ok (readResolution mergeOperator.merge key
        (db.reader.prepareMaxSeq maxSeq options.durabilityFilter options.dirty) [] db.state.sources) := by
  have hinv := (inv_invariant _ defaultTtl walEnabled).reachable hs
  -- no event changes the merge operator, so the reader still has it
  have hmo : db.reader.readMergeOperator = some mergeOperator :=
    (mergeOperator_invariant _ defaultTtl walEnabled).reachable hs
  rw [readResolution_eq_readStream]
  exact getKeyValueWithOptions_reads_stream db.reader hmo key (hop key) options db.state none maxSeq
    (hinv.newest_first key)

end DbInner

end Invariant

/-! ### A run: a put, a flush, and a merge above it -/

/-- A put of key `1`, a freeze and a flush of it into L0, then a merge of key
`1` into the new memtable. -/
def putFlushMerge : List (DbEvent Nat Nat) :=
  [.writeBatch (WriteBatch.new.put 1 10) {} 0, .freezeMemtable, .flushImmMemtable 0,
    .writeBatch (WriteBatch.new.merge 1 1) {} 1]

def putFlushMergeDb : DbInner Nat Nat :=
  (Transition.System.runFrom DbInner.step (DbInner.init (some counterMergeOperator) none true)
    putFlushMerge).getD (DbInner.init (some counterMergeOperator) none true)

theorem putFlushMergeDb_reachable :
    (DbInner.system (some counterMergeOperator) none true).Reachable putFlushMergeDb := by
  have hsome : (Transition.System.runFrom DbInner.step
      (DbInner.init (some counterMergeOperator) none true) putFlushMerge).isSome = true := by
    simp only [putFlushMerge, Transition.System.runFrom_cons, Transition.System.runFrom_nil,
      DbInner.step, DbInner.writeBatch, WriteBatch.extractEntries,
      MergeOperatorIterator.drain_eq_runFuel, DbInner.flushImmMemtable, DbInner.iterImmTable,
      RetentionIterator.drain_eq_runFuel]
    decide
  exact Transition.System.reachable_runFrom (fun _ _ _ h => h) putFlushMerge (.init rfl)
    (Option.getD_of_ne_none (Option.isSome_iff_ne_none.mp hsome) _).symm

theorem putFlushMergeDb_newestFirst :
    (∀ k, NewestFirstAt k putFlushMergeDb.state.sources.flatten) ∧
      ∀ e ∈ putFlushMergeDb.state.sources.flatten, e.seq ≤ putFlushMergeDb.oracle.lastSeq :=
  DbInner.sources_newestFirst_of_reachable putFlushMergeDb_reachable

/-- The merge in the memtable folds into the put in L0. -/
theorem putFlushMergeDb_resolves :
    (putFlushMergeDb.reader.getKeyValueWithOptions 1 {} putFlushMergeDb.state none none).map
      (Option.map (·.value)) = .ok (some 11) :=
  (DbInner.getKeyValueWithOptions_resolves_of_reachable counterMergeOperator_lawful
    putFlushMergeDb_reachable 1 {} none).trans (by
      simp only [putFlushMergeDb, putFlushMerge, Transition.System.runFrom_cons,
        Transition.System.runFrom_nil, DbInner.step, DbInner.writeBatch,
        WriteBatch.extractEntries, MergeOperatorIterator.drain_eq_runFuel,
        DbInner.flushImmMemtable, DbInner.iterImmTable, RetentionIterator.drain_eq_runFuel]
      decide)

end SlateDb
