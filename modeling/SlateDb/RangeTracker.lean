import SlateDb.TransactionManager

/-!
# Read ranges of serializable transactions

A serializable transaction registers, for every scan it opened, the range of
keys that the scan's iterator reports through its range tracker. The tracker
only sees the keys `next_entry` returns: it skips tombstones and collapses the
returned keys into the closed interval from the smallest to the largest. At
commit a range is registered only when the tracker holds data, and a commit
with an empty write batch is decided by the conflict check alone.
-/

set_option linter.unusedSectionVars false

namespace SlateDb

variable {Id K V : Type} [DecidableEq Id] [LinearOrder K]

inductive IsolationLevel where
  | snapshot
  | serializableSnapshot
  deriving DecidableEq, Repr

structure DbIteratorRangeTracker (K : Type) where
  firstKey : Option K
  lastKey : Option K
  hasData : Bool
  deriving DecidableEq, Repr

namespace DbIteratorRangeTracker

def new : DbIteratorRangeTracker K := ⟨none, none, false⟩

def trackKey (t : DbIteratorRangeTracker K) (key : K) : DbIteratorRangeTracker K where
  firstKey := some (match t.firstKey with
    | some first => if key < first then key else first
    | none => key)
  lastKey := some (match t.lastKey with
    | some last => if last < key then key else last
    | none => key)
  hasData := true

def getRange (t : DbIteratorRangeTracker K) : Option (BytesRange K) :=
  match t.firstKey, t.lastKey with
  | some first, some last => some (BytesRange.closed first last)
  | _, _ => none

end DbIteratorRangeTracker

/-- The entries the merged iterator still yields, the last returned key, and the
tracker the iterator shares with its transaction, as its index among the
transaction's trackers. -/
structure DbIterator (K V : Type) where
  iter : List (RowEntry K V)
  lastKey : Option K
  rangeTracker : Option Nat

/-- The loop of `next_entry`: tombstones are skipped. -/
def DbIterator.skipTombstones :
    List (RowEntry K V) → Option (RowEntry K V) × List (RowEntry K V)
  | [] => (none, [])
  | e :: es => if e.value.isTombstone then skipTombstones es else (some e, es)

/-- The parts of a transaction that its commit reads: the keys of its write
batch, the keys unmarked for conflict tracking, and the trackers of its scans. -/
structure DbTransaction (Id K : Type) where
  txnId : Id
  isolationLevel : IsolationLevel
  writeBatchKeys : Finset K
  untrackedWriteKeys : Finset K
  rangeTrackers : List (DbIteratorRangeTracker K)

inductive CommitOutcome (K : Type) where
  | transactionConflict
  | readOnly
  | submitted (trackedWriteKeys : Finset K)
  deriving DecidableEq

namespace DbTransaction

/-- Opening a scan in serializable mode adds a fresh tracker for the iterator. -/
def scanInner (t : DbTransaction Id K) (iter : List (RowEntry K V)) :
    DbTransaction Id K × DbIterator K V :=
  if t.isolationLevel = .serializableSnapshot then
    ({ t with rangeTrackers := t.rangeTrackers ++ [DbIteratorRangeTracker.new] },
      ⟨iter, none, some t.rangeTrackers.length⟩)
  else (t, ⟨iter, none, none⟩)

/-- `DbIterator::next_entry`, which reports a returned key to the shared tracker. -/
def nextEntry (t : DbTransaction Id K) (it : DbIterator K V) :
    Option (RowEntry K V) × DbTransaction Id K × DbIterator K V :=
  match DbIterator.skipTombstones it.iter with
  | (some entry, rest) =>
      let trackers := match it.rangeTracker with
        | some i => t.rangeTrackers.modify i (·.trackKey entry.key)
        | none => t.rangeTrackers
      (some entry, { t with rangeTrackers := trackers },
        { iter := rest, lastKey := some entry.key, rangeTracker := it.rangeTracker })
  | (none, rest) => (none, t, { it with iter := rest })

def registerRanges (t : DbTransaction Id K) (m : TransactionManagerInner Id K) :
    TransactionManagerInner Id K :=
  t.rangeTrackers.foldl (fun m tracker =>
    if tracker.hasData then
      match tracker.getRange with
      | some range => m.trackReadRange t.txnId range
      | none => m
    else m) m

/-- `commit_with_options` up to the submission of a non-empty batch to the
writer; `none` is a panic of the conflict check. -/
def commitWithOptions (t : DbTransaction Id K) (m : TransactionManagerInner Id K) :
    Option (CommitOutcome K × TransactionManagerInner Id K) :=
  let m := if t.isolationLevel = .serializableSnapshot then t.registerRanges m else m
  if t.writeBatchKeys = ∅ then
    match m.checkHasConflict t.txnId with
    | some true => some (.transactionConflict, m)
    | some false => some (.readOnly, m)
    | none => none
  else
    let trackedWriteKeys := t.writeBatchKeys.filter (· ∉ t.untrackedWriteKeys)
    some (.submitted trackedWriteKeys, m.trackWriteKeys t.txnId trackedWriteKeys)

end DbTransaction

/-! ### A scan that returns nothing, then a concurrent insert into its range -/

/-- Transaction `1` starts at sequence number `0`, opens a serializable scan of
`[1, 3]` on an empty database, and then a batch writing key `2` commits at
sequence number `1`. -/
def phantomScan : DbTransaction Nat Nat × DbIterator Nat Unit :=
  (⟨1, .serializableSnapshot, ∅, ∅, []⟩ : DbTransaction Nat Nat).scanInner []

def phantomManager : TransactionManagerInner Nat Nat :=
  let started := (⟨[], [], ⟨0, 0⟩⟩ : TransactionManagerInner Nat Nat).newTransaction 1
  started.1.trackRecentCommittedWriteBatch {2} 1

/-- The scan's first `next_entry` returns `None`, so it traversed all of `[1, 3]`,
which holds the key `2` that the batch committed after the transaction started;
yet the read-only commit succeeds. -/
theorem commitWithOptions_misses_phantom :
    (phantomScan.1.nextEntry phantomScan.2).1 = none ∧
    (BytesRange.closed 1 3 : BytesRange Nat).contains 2 = true ∧
    phantomManager.recentCommittedTxns.map (fun c => (c.committedSeq, c.writeKeys)) =
      [(some 1, {2})] ∧
    (phantomManager.activeTxns.lookup 1).map (·.startedSeq) = some 0 ∧
    ((phantomScan.1.nextEntry phantomScan.2).2.1.commitWithOptions phantomManager).map (·.1) =
      some .readOnly := by
  decide

end SlateDb
