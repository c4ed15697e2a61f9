import SlateDb.Db
import SlateDb.Lib.ListLex
import SlateDb.Lib.SortedSearch

/-!
# Segment routing

With a segment extractor configured, every key belongs to the segment named by
its first `prefix_len` bytes. A write records the prefixes of its keys on the
active memtable; a freeze carries them to the new immutable memtable; a flush
builds one L0 SST per prefix that kept an entry and routes it into the
manifest's segment of that prefix, creating the segment when it is new. The
manifest keeps its segments sorted by prefix.

Before a batch touches the WAL or the memtable, `validate_segment_antichain`
checks that its prefixes and every prefix the writer knows (the manifest's
segments and each memtable's touched segments) stay an antichain, with no
prefix extending another. The check is incremental: the batch's own set is
checked pair by pair in order, then each of its prefixes against the two
neighbours in each source, newest memtable first, and a prefix that a source
already holds is not checked further.

The model keeps what routing reads: a memtable's rows and touched segments,
and the manifest's segments with the L0 SSTs routed into each, an SST as its
rows. A flush is given the memtable's rows after the merge and retention
stages. `BTreeSet`s are finite sets, iterated in ascending order.
-/

namespace SlateDb

/-- Byte strings, in the lexicographic order of byte slices. -/
def Bytes := List UInt8

instance : LinearOrder Bytes := inferInstanceAs (LinearOrder (List UInt8))

instance : Repr Bytes := inferInstanceAs (Repr (List UInt8))

instance instDecidableIsPrefixBytes (p q : Bytes) : Decidable (p <+: q) := decidable_of_iff _ List.isPrefixOf_iff_prefix

variable {V : Type}

/-! ### Prefix extraction -/

/-- A configured segment extractor for point keys: the length of a key's
prefix, which the trait requires to be at most the key's length. -/
structure PrefixExtractor where
  prefixLen : Bytes → Option Nat
  prefixLen_le : ∀ key n, prefixLen key = some n → n ≤ List.length key

/-- The segment prefixes of the entries; a key with no prefix or an empty one
fails the batch. -/
def touchedSegmentsOf (extractor : PrefixExtractor) :
    List (RowEntry Bytes V) → Except SlateDBError (Finset Bytes)
  | [] => .ok ∅
  | entry :: entries =>
    match extractor.prefixLen entry.key with
    | none => .error (.emptySegmentPrefix entry.key)
    | some 0 => .error (.emptySegmentPrefix entry.key)
    | some (n + 1) => do
      let touched ← touchedSegmentsOf extractor entries
      pure (insert (List.take (n + 1) entry.key) touched)

/-- `extract_entries` with a segment extractor: the rows a batch commits at
`seq` and the prefixes of their keys. -/
def WriteBatch.extractSegmentedEntries (b : WriteBatch Bytes V) (seq : Nat) (now : Int)
    (defaultTtl : Option Nat) (merger : Option (MergeOperator Bytes V))
    (extractor : PrefixExtractor) : Except SlateDBError (List (RowEntry Bytes V) × Finset Bytes) := do
  let entries ← b.extractEntries seq now defaultTtl merger
  let touchedSegments ← touchedSegmentsOf extractor entries
  pure (entries, touchedSegments)

/-! ### The antichain checks -/

/-- The loop of `check_batch_antichain`: each prefix against the one before it. -/
def checkBatchAntichainFrom : Option Bytes → List Bytes → Except SlateDBError Unit
  | _, [] => .ok ()
  | none, cur :: rest => checkBatchAntichainFrom (some cur) rest
  | some p, cur :: rest =>
    if p <+: cur then .error (.invalidSegmentPrefix cur p) else checkBatchAntichainFrom (some cur) rest

def checkBatchAntichain (prefixes : Finset Bytes) : Except SlateDBError Unit :=
  checkBatchAntichainFrom none (SortedSearch.ascending prefixes)

/-- Fails when `p` extends its neighbour below. -/
def checkBelow (p : Bytes) : Option Bytes → Except SlateDBError Unit
  | some pred => if pred <+: p then .error (.invalidSegmentPrefix p pred) else .ok ()
  | none => .ok ()

/-- Fails when the neighbour above `p` extends it. -/
def checkAbove (p : Bytes) : Option Bytes → Except SlateDBError Unit
  | some succ => if p <+: succ then .error (.invalidSegmentPrefix p succ) else .ok ()
  | none => .ok ()

/-- `KVTable::ensure_valid_segment`: `true` when the table already holds `p`,
`false` when `p` nests with neither neighbour in the table's set. -/
def ensureValidSegment (touched : Finset Bytes) (p : Bytes) : Except SlateDBError Bool :=
  if touched = ∅ then .ok false
  else if SortedSearch.lastAtMost touched p = some p then .ok true
  else do
    checkBelow p (SortedSearch.lastAtMost touched p)
    checkAbove p (SortedSearch.firstAbove touched p)
    pure false

/-- `check_segment_prefix_antichain` of the write path: every remaining prefix
against one table, after which those the table holds are removed. -/
def checkSegmentPrefixAntichain (remaining touched : Finset Bytes) :
    Except SlateDBError (Finset Bytes) := do
  let toRemove ← (SortedSearch.ascending remaining).foldlM (fun toRemove c => do
    let hit ← ensureValidSegment touched c
    pure (if hit then toRemove ++ [c] else toRemove)) []
  pure (toRemove.foldl Finset.erase remaining)

/-! ### The manifest's segments -/

structure Segment (V : Type) where
  prefixBytes : Bytes
  /-- The tree's L0 SSTs, newest first, each as its rows. -/
  tree : List (List (RowEntry Bytes V))
  deriving DecidableEq

namespace ManifestCore

/-- `ManifestCore::check_segment_prefix_antichain`: a candidate that is a
segment passes; otherwise neither segment next to its sorted position may nest
with it. -/
def checkSegmentPrefixAntichain (segments : List (Segment V)) (candidate : Bytes) :
    Except SlateDBError Unit :=
  match SortedSearch.binarySearchBy (fun s => compare s.prefixBytes candidate) segments with
  | .ok _ => .ok ()
  | .error idx => do
    checkAbove candidate (segments[idx]?.map (·.prefixBytes))
    checkBelow candidate (if 0 < idx then segments[idx - 1]?.map (·.prefixBytes) else none)

/-- `ManifestCore::maybe_insert_tree`: the position of the segment with prefix
`p`, inserted at its sorted position with an empty tree when new. -/
def maybeInsertTree (segments : List (Segment V)) (p : Bytes) :
    Except SlateDBError (Nat × List (Segment V)) :=
  match SortedSearch.binarySearchBy (fun s => compare s.prefixBytes p) segments with
  | .ok idx => .ok (idx, segments)
  | .error idx => do
    checkSegmentPrefixAntichain segments p
    pure (idx, segments.insertIdx idx ⟨p, []⟩)

/-- The start of `overlapping_segment_indices`, from the range's start bound:
below it, only the greatest prefix at most the bound can hold the bound. -/
def startOf (segments : List (Segment V)) : Bound Bytes → Nat
  | .unbounded => 0
  | .included lo | .excluded lo =>
    let after := SortedSearch.partitionPoint (fun s => decide (s.prefixBytes ≤ lo)) segments
    if 0 < after ∧ (segments[after - 1]?.any fun s : Segment V => decide (s.prefixBytes <+: lo)) = true then
      after - 1
    else after

/-- The end of `overlapping_segment_indices`, from the range's end bound. -/
def stopOf (segments : List (Segment V)) : Bound Bytes → Nat
  | .unbounded => segments.length
  | .excluded hi => SortedSearch.partitionPoint (fun s => decide (s.prefixBytes < hi)) segments
  | .included hi => SortedSearch.partitionPoint (fun s => decide (s.prefixBytes ≤ hi)) segments

/-- `ManifestCore::overlapping_segment_indices`: the window of segments whose
intervals overlap the range, from a partition point on each bound. -/
def overlappingSegmentIndices (segments : List (Segment V)) (range : BytesRange Bytes) : Nat × Nat :=
  let start := startOf segments range.startBound
  let stop := stopOf segments range.endBound
  if start < stop then (start, stop) else (0, 0)

/-- `ManifestCore::select_segments`: the root tree, as the segment of the
empty prefix, when there is no segment; else the window of overlapping
segments. -/
def selectSegments (tree : List (List (RowEntry Bytes V))) (segments : List (Segment V))
    (range : BytesRange Bytes) : List (Segment V) :=
  if segments.isEmpty then [⟨[], tree⟩]
  else
    let (start, stop) := overlappingSegmentIndices segments range
    (segments.drop start).take (stop - start)

end ManifestCore

/-! ### Flushes -/

/-- One SST of a memtable flush with the segment it belongs to. -/
structure EncodedSegmentSst (V : Type) where
  prefixBytes : Bytes
  encoded : List (RowEntry Bytes V)

/-- The state of the walk of `build_imm_segment_ssts`: the current prefix, the
prefixes after it, the rows added to the open builder, and the SSTs built. -/
structure SegmentCursor (V : Type) where
  currentPrefix : Bytes
  segIter : List Bytes
  currentBuilder : List (RowEntry Bytes V)
  currentHasEntry : Bool
  out : List (EncodedSegmentSst V)

/-- The inner loop of the walk: move to the next prefix until `key` extends the
current one, building the SST of a prefix left with entries. Running out of
prefixes is the walk's `expect`. -/
def advanceCursor (key : Bytes) : Bytes → List Bytes → List (RowEntry Bytes V) → Bool →
    List (EncodedSegmentSst V) → Except FlushFailure (SegmentCursor V)
  | currentPrefix, segIter, currentBuilder, currentHasEntry, out =>
    if currentPrefix <+: key then .ok ⟨currentPrefix, segIter, currentBuilder, currentHasEntry, out⟩
    else
      let out := if currentHasEntry then out ++ [⟨currentPrefix, currentBuilder⟩] else out
      match segIter with
      | [] => .error (.panic
          "entry key has no matching prefix in touched_segments - extractor output inconsistent with recorded set")
      | next :: segIter => advanceCursor key next segIter [] false out

/-- The outer loop of the walk, over the entries. -/
def walkEntries : SegmentCursor V → List (RowEntry Bytes V) →
    Except FlushFailure (List (EncodedSegmentSst V))
  | c, [] => .ok (if c.currentHasEntry then c.out ++ [⟨c.currentPrefix, c.currentBuilder⟩] else c.out)
  | c, entry :: entries => do
    let c ← advanceCursor entry.key c.currentPrefix c.segIter c.currentBuilder c.currentHasEntry c.out
    walkEntries { c with currentBuilder := c.currentBuilder ++ [entry], currentHasEntry := true } entries

/-- `build_imm_segment_ssts`, a sorted-merge walk of the entries against the
touched segments. -/
def buildImmSegmentSsts (entries : List (RowEntry Bytes V)) (touchedSegments : Finset Bytes) :
    Except FlushFailure (List (EncodedSegmentSst V)) :=
  match SortedSearch.ascending touchedSegments with
  | [] => .error (.panic "touched_segments non-empty in this branch")
  | currentPrefix :: segIter => walkEntries ⟨currentPrefix, segIter, [], false, []⟩ entries

/-- A memtable as routing sees it: its rows and the prefixes its writes recorded. -/
structure SegmentedTable (V : Type) where
  table : KVTable Bytes V
  touchedSegments : Finset Bytes

/-- `build_imm_ssts` with an extractor configured, given the memtable's rows
after the merge and retention stages. -/
def buildImmSsts (immTable : SegmentedTable V) (entries : List (RowEntry Bytes V)) :
    Except FlushFailure (List (EncodedSegmentSst V)) :=
  if immTable.touchedSegments = ∅ then
    -- an empty memtable is fine; rows with no recorded prefix are not
    if immTable.table.map.isEmpty then .ok [] else .error (.error .invalidDBState)
  else buildImmSegmentSsts entries immTable.touchedSegments

/-- One uploaded SST of `apply_uploaded_state`: into the tree of its segment,
in front of the tree's L0. -/
def routeSst (segments : List (Segment V)) (sst : EncodedSegmentSst V) :
    Except SlateDBError (List (Segment V)) := do
  let (idx, segments) ← ManifestCore.maybeInsertTree segments sst.prefixBytes
  pure (segments.modify idx fun s => { s with tree := sst.encoded :: s.tree })

/-- The SSTs of one memtable in turn. A failure keeps what was routed before
it: the state modifier commits whatever its closure returns. -/
def routeSsts : List (Segment V) → List (EncodedSegmentSst V) →
    Except SlateDBError Unit × List (Segment V)
  | segments, [] => (.ok (), segments)
  | segments, sst :: ssts =>
    match routeSst segments sst with
    | .ok segments => routeSsts segments ssts
    | .error e => (.error e, segments)

/-! ### The writer's state -/

structure SegmentedDb (V : Type) where
  extractor : PrefixExtractor
  mergeOperator : Option (MergeOperator Bytes V)
  defaultTtl : Option Nat
  memtable : SegmentedTable V
  /-- Newest first. -/
  immMemtable : List (SegmentedTable V)
  segments : List (Segment V)

namespace SegmentedDb

variable (db : SegmentedDb V)

/-- A database opened with an extractor on an empty store. -/
def init (extractor : PrefixExtractor) (mergeOperator : Option (MergeOperator Bytes V))
    (defaultTtl : Option Nat) : SegmentedDb V :=
  ⟨extractor, mergeOperator, defaultTtl, ⟨KVTable.new, ∅⟩, [], []⟩

/-- The loop of `validate_segment_antichain` over the immutable memtables,
newest first, which stops once no prefix remains. -/
def checkImmMemtables (remaining : Finset Bytes) :
    List (SegmentedTable V) → Except SlateDBError (Finset Bytes)
  | [] => .ok remaining
  | imm :: imms => do
    let remaining ← checkSegmentPrefixAntichain remaining imm.touchedSegments
    if remaining = ∅ then pure ∅ else checkImmMemtables remaining imms

def validateSegmentAntichain (batchPrefixes : Finset Bytes) : Except SlateDBError Unit :=
  if batchPrefixes = ∅ then .ok ()
  else do
    checkBatchAntichain batchPrefixes
    let remaining ← checkSegmentPrefixAntichain batchPrefixes db.memtable.touchedSegments
    if remaining = ∅ then pure ()
    else do
      let remaining ← checkImmMemtables remaining db.immMemtable
      (SortedSearch.ascending remaining).forM (ManifestCore.checkSegmentPrefixAntichain db.segments)

def writeEntriesToMemtable (entries : List (RowEntry Bytes V)) (touchedSegments : Finset Bytes) :
    SegmentedTable V :=
  ⟨entries.foldl KVTable.put db.memtable.table, db.memtable.touchedSegments ∪ touchedSegments⟩

/-- Commits a batch at `seq` and the clock tick `now`. A batch whose prefixes
fail validation changes nothing. -/
def writeBatch (batch : WriteBatch Bytes V) (seq : Nat) (now : Int) :
    Except SlateDBError Unit × SegmentedDb V :=
  match batch.extractSegmentedEntries seq now db.defaultTtl db.mergeOperator db.extractor with
  | .error e => (.error e, db)
  | .ok (entries, touchedSegments) =>
    match db.validateSegmentAntichain touchedSegments with
    | .error e => (.error e, db)
    | .ok () => (.ok (), { db with memtable := db.writeEntriesToMemtable entries touchedSegments })

def freezeMemtable : SegmentedDb V :=
  { db with memtable := ⟨KVTable.new, ∅⟩, immMemtable := db.memtable :: db.immMemtable }

/-- Flushes the oldest immutable memtable, whose rows after the merge and
retention stages are `entries`; `none` when there is none or its SSTs cannot
be built. -/
def flushImmMemtable (entries : List (RowEntry Bytes V)) :
    Option (Except SlateDBError Unit × SegmentedDb V) :=
  match db.immMemtable.getLast? with
  | none => none
  | some immTable =>
    match buildImmSsts immTable entries with
    | .error _ => none
    | .ok ssts =>
      let (result, segments) := routeSsts db.segments ssts
      some (result, { db with immMemtable := db.immMemtable.dropLast, segments := segments })

end SegmentedDb

/-! ### The system -/

inductive SegmentedDbEvent (V : Type) where
  | writeBatch (batch : WriteBatch Bytes V) (seq : Nat) (now : Int)
  | freezeMemtable
  | flushImmMemtable (entries : List (RowEntry Bytes V))

/-- One event. A flush is given any stream of the oldest memtable's rows whose
keys and sequence numbers are a sublist of the memtable's, which is what the
merge and retention stages make of them. -/
def SegmentedDb.Step (db : SegmentedDb V) : SegmentedDbEvent V → SegmentedDb V → Prop
  | .writeBatch batch seq now, db' => (db.writeBatch batch seq now).2 = db'
  | .freezeMemtable, db' => db.freezeMemtable = db'
  | .flushImmMemtable entries, db' =>
    (∃ immTable ∈ db.immMemtable.getLast?,
      (entries.map keySeq).Sublist (immTable.table.rows.map keySeq)) ∧
    ∃ result, db.flushImmMemtable entries = some (result, db')

/-- The runs of a database opened with an extractor. -/
def SegmentedDb.system (extractor : PrefixExtractor) (mergeOperator : Option (MergeOperator Bytes V))
    (defaultTtl : Option Nat) : Transition.System (SegmentedDb V) (SegmentedDbEvent V) where
  init := (· = SegmentedDb.init extractor mergeOperator defaultTtl)
  step := SegmentedDb.Step

end SlateDb
