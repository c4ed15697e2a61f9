import SlateDb.Reader
import SlateDb.RetentionIterator
import SlateDb.TransactionManager

/-!
# The database

`DbInner` is the state one writer process holds: the merge operator and
default TTL of its settings, the oracle's sequence numbers, the WAL buffer,
the memtables and the tree, the active snapshots and transactions, and the
fields of the manifest's core that a flush advances. Its events are the
operations that change that state:

* `write_batch` takes a commit sequence number from the oracle, extracts the
  batch's rows, appends them to the WAL, puts them into the memtable and
  publishes the sequence number;
* a WAL flush writes the buffered rows out and advances the durable sequence
  number to the last of them;
* freezing the memtable pushes it, as the newest immutable memtable, in front
  of the others;
* a flush takes the oldest immutable memtable through the flush pipeline, a
  merge operator iterator and a retention iterator bounded by the smallest of
  the durable sequence number and the sequence numbers the active snapshots
  and transactions started at, started at the memtable's last tick, installs
  the result as the newest L0 SST and advances the durable sequence number
  to the memtable's last one;
* a snapshot or a transaction registers the last committed sequence number,
  and reads through a snapshot are bounded by that number.

`writeBatch_loses_merge_operand` is the batch whose merge operand the memtable
loses. `snapshot_read_changes_after_flush` is a run in which a read through a
snapshot returns a version that had expired before the snapshot was taken, and
after a flush the same read returns nothing.
-/

namespace SlateDb

variable {K V : Type}

structure WriteOptions where
  seqnum : Nat := 0

/-- The largest sequence number put into a memtable, if any row was. -/
def KVTable.lastSeq (t : KVTable K V) : Option Nat := (t.rows.map (·.seq)).max?

def MergeOperatorRequiredIterator.drain : List (RowEntry K V) → Except SlateDBError (List (RowEntry K V))
  | [] => .ok []
  | entry :: rest =>
    match entry.value with
    | .merge _ => .error .mergeOperatorMissing
    | _ => (drain rest).map (entry :: ·)

/-- Without a merge operand the iterator passes its input on unchanged. -/
theorem MergeOperatorRequiredIterator.drain_ok :
    ∀ {l out : List (RowEntry K V)}, drain l = .ok out → out = l
  | [], out, h => by
    simp only [drain, Except.ok.injEq] at h
    exact h.symm
  | e :: l, out, h => by
    simp only [drain] at h
    split at h
    · cases h
    · cases hd : drain l with
      | error err => simp [hd, Except.map] at h
      | ok out' =>
        simp only [hd, Except.map, Except.ok.injEq] at h
        rw [← h, drain_ok hd]

/-- The failures of the flush pipeline: an error of the merge stage, or the
retention iterator's panic. -/
inductive FlushFailure where
  | error (e : SlateDBError)
  | panic (message : String)

structure DbInner (K V : Type) where
  mergeOperator : Option (MergeOperator K V)
  defaultTtl : Option Nat
  walEnabled : Bool
  oracle : DbOracle
  lastDurableSeq : Nat
  wal : List (RowEntry K V)
  state : DbState K V
  /-- The snapshot manager's map from snapshot id to sequence number. -/
  activeSnapshots : List (Nat × Nat)
  /-- The transaction manager's active transactions, by the sequence number
  each started at. -/
  activeTxns : List (Nat × Nat)
  lastL0Seq : Nat
  lastL0ClockTick : Int
  recentSnapshotMinSeq : Nat

namespace DbInner

/-- A database opened on an empty store. -/
def init (mergeOperator : Option (MergeOperator K V)) (defaultTtl : Option Nat) (walEnabled : Bool) :
    DbInner K V :=
  ⟨mergeOperator, defaultTtl, walEnabled, ⟨0, 0⟩, 0, [], ⟨KVTable.new, [], [], []⟩, [], [], 0, i64Min, 0⟩

variable (db : DbInner K V)

def minActiveSnapshotSeq : Option Nat := (db.activeSnapshots.map Prod.snd).min?

/-- The transaction manager's `min_active_seq`. -/
def minActiveTxnSeq : Option Nat := (db.activeTxns.map Prod.snd).min?

/-- The reader of the database, with the oracle's sequence numbers now. -/
def reader : Reader K V := ⟨db.mergeOperator, db.oracle.lastCommittedSeq, db.lastDurableSeq⟩

variable [Ord K] [DecidableEq K]

/-! ### Writes -/

def writeEntriesToMemtable (entries : List (RowEntry K V)) : KVTable K V :=
  entries.foldl KVTable.put db.state.memtable

/-- Commits a batch without a transaction at the clock tick `now`, and returns
the commit's sequence number. The oracle hands out the sequence number before
the rows are extracted, so a failed extraction still uses one up. -/
def writeBatch (batch : WriteBatch K V) (options : WriteOptions) (now : Int) :
    Except SlateDBError Nat × DbInner K V :=
  if 0 < options.seqnum ∧ options.seqnum ≤ db.oracle.lastSeq then
    (.error (.invalidSequenceNumber options.seqnum db.oracle.lastSeq), db)
  else
    let (commitSeq, oracle) :=
      if 0 < options.seqnum then (options.seqnum, db.oracle.advanceLastSeq options.seqnum)
      else db.oracle.nextSeq
    let db := { db with oracle := oracle }
    match batch.extractEntries commitSeq now db.defaultTtl db.mergeOperator with
    | .error e => (.error e, db)
    | .ok entries =>
      let wal := if db.walEnabled then db.wal ++ entries else db.wal
      (.ok commitSeq,
        { db with
          wal := wal
          state := { db.state with memtable := db.writeEntriesToMemtable entries }
          -- the commit is published once the rows are in the memtable
          oracle := db.oracle.advanceCommittedSeq commitSeq })

/-! ### Freezes and flushes -/

/-- Writes the WAL buffer out; the oracle's durable sequence number moves up to
the last sequence number written to it. -/
def flushWal : DbInner K V :=
  match db.wal.getLast? with
  | some entry => { db with wal := [], lastDurableSeq := max db.lastDurableSeq entry.seq }
  | none => { db with wal := [] }

def freezeMemtable : DbInner K V :=
  { db with state := { db.state with
      memtable := KVTable.new
      immMemtable := db.state.memtable :: db.state.immMemtable } }

/-- The retention bound of a flush: the smallest of the durable sequence
number and the sequence numbers of the active snapshots and transactions. -/
def minRetentionSeq : Option Nat :=
  [some db.lastDurableSeq, db.minActiveSnapshotSeq, db.minActiveTxnSeq].reduceOption.min?

/-- The rows a flush of `immTable` writes: its rows through the merge stage
and a retention iterator started at the table's last tick. -/
def iterImmTable (immTable : KVTable K V) (currentSystemTs : Int) :
    Except FlushFailure (List (RowEntry K V)) :=
  let minRetentionSeq := db.minRetentionSeq
  let merged := match db.mergeOperator with
    | some mergeOperator =>
      (MergeOperatorIterator.mk mergeOperator false minRetentionSeq).drain immTable.rows
    | none => MergeOperatorRequiredIterator.drain immTable.rows
  match merged with
  | .error e => .error (.error e)
  | .ok merged =>
    let iter : RetentionIterator :=
      ⟨none, minRetentionSeq, false, immTable.lastTick, currentSystemTs, fun _ => none⟩
    match iter.drain merged with
    | .error message => .error (.panic message)
    | .ok rows => .ok rows

/-- Flushes the oldest immutable memtable into a new L0 SST and records it in
the manifest's core; `none` when there is nothing to flush, the pipeline
fails, or the memtable's tick or sequence numbers go backwards. -/
def flushImmMemtable (currentSystemTs : Int) : Option (DbInner K V) :=
  match db.state.immMemtable.getLast? with
  | none => none
  | some immTable =>
    match db.iterImmTable immTable currentSystemTs with
    | .error _ => none
    | .ok rows =>
      let minActiveSnapshotSeq := [db.minActiveSnapshotSeq, db.minActiveTxnSeq].reduceOption.min?
      let memtableTick := immTable.lastTick
      let lastSeq := immTable.lastSeq.getD 0
      if memtableTick < db.lastL0ClockTick ∨ lastSeq ≤ db.lastL0Seq then none
      else
        -- retention may prune every row, and then no SST is written
        let l0 := if rows.isEmpty then db.state.l0 else rows :: db.state.l0
        some { db with
          state := { db.state with immMemtable := db.state.immMemtable.dropLast, l0 := l0 }
          lastL0Seq := lastSeq
          lastL0ClockTick := memtableTick
          recentSnapshotMinSeq := minActiveSnapshotSeq.getD lastSeq
          -- the manifest write makes the memtable's rows durable
          lastDurableSeq := max db.lastDurableSeq lastSeq }

/-! ### Snapshots -/

def newSnapshot (snapshotId : Nat) : DbInner K V :=
  { db with activeSnapshots := (snapshotId, db.oracle.lastCommittedSeq) :: db.activeSnapshots }

def dropSnapshot (snapshotId : Nat) : DbInner K V :=
  { db with activeSnapshots := db.activeSnapshots.filter (·.1 != snapshotId) }

/-- A transaction starts at the last committed sequence number, in place of
any active one of the same id. -/
def newTransaction (txnId : Nat) : DbInner K V :=
  { db with activeTxns :=
      (txnId, db.oracle.lastCommittedSeq) :: db.activeTxns.filter (·.1 != txnId) }

def dropTxn (txnId : Nat) : DbInner K V :=
  { db with activeTxns := db.activeTxns.filter (·.1 != txnId) }

/-- A point read through a snapshot started at `startedSeq`. -/
def snapshotGet (startedSeq : Nat) (key : K) (options : ReadOptions) :
    Except SlateDBError (Option (KeyValue K V)) :=
  db.reader.getKeyValueWithOptions key options db.state none (some startedSeq)

end DbInner

/-! ### The system -/

inductive DbEvent (K V : Type) where
  | writeBatch (batch : WriteBatch K V) (options : WriteOptions) (now : Int)
  | flushWal
  | freezeMemtable
  | flushImmMemtable (currentSystemTs : Int)
  | newSnapshot (snapshotId : Nat)
  | dropSnapshot (snapshotId : Nat)
  | newTransaction (txnId : Nat)
  | dropTxn (txnId : Nat)

variable [Ord K] [DecidableEq K]

/-- One event; a write changes the state whether or not it succeeds. -/
def DbInner.step (db : DbInner K V) : DbEvent K V → Option (DbInner K V)
  | .writeBatch batch options now => some (db.writeBatch batch options now).2
  | .flushWal => some db.flushWal
  | .freezeMemtable => some db.freezeMemtable
  | .flushImmMemtable currentSystemTs => db.flushImmMemtable currentSystemTs
  | .newSnapshot snapshotId => some (db.newSnapshot snapshotId)
  | .dropSnapshot snapshotId => some (db.dropSnapshot snapshotId)
  | .newTransaction txnId => some (db.newTransaction txnId)
  | .dropTxn txnId => some (db.dropTxn txnId)

/-- The runs of a database opened with the given settings. -/
def DbInner.system (mergeOperator : Option (MergeOperator K V)) (defaultTtl : Option Nat)
    (walEnabled : Bool) : Transition.System (DbInner K V) (DbEvent K V) where
  init := (· = DbInner.init mergeOperator defaultTtl walEnabled)
  step db e db' := db.step e = some db'

/-! ### Two runs: merges with mixed expiry times, and a snapshot over an expired version -/

/-- What the calls on `k`, in call order, make of the value below them: a put
or a delete sets it and a merge folds its operand in. -/
def callFold (merge : Option V → V → V) (k : K) (calls : List (WriteOp K V))
    (prior : Option V) : Option V :=
  calls.foldl (fun acc op =>
    match op with
    | .put key value _ => if key = k then some value else acc
    | .delete key => if key = k then none else acc
    | .merge key value _ => if key = k then some (merge acc value) else acc) prior

/-- Two merges of one key, the older expiring at `10` and the newer at `20`. -/
def mixedTtlMerges : List (WriteOp Nat Nat) :=
  [.merge 1 2 ⟨.expireAt 10⟩, .merge 1 3 ⟨.expireAt 20⟩]

theorem writeBatch_loses_merge_operand :
    let db : DbInner Nat Nat := DbInner.init (some counterMergeOperator) none true
    let r := db.writeBatch (WriteBatch.build mixedTtlMerges) {} 0
    r.1 = .ok 1 ∧ resolve counterMergeOperator.merge 1 1 r.2.state.memtable.rows = some 2 ∧
      callFold (counterMergeOperator.merge 1) 1 mixedTtlMerges
        (resolve counterMergeOperator.merge 1 0 db.state.memtable.rows) = some 5 := by
  -- the merge iterator splits the two operands at their expiry timestamps
  have hextract : (WriteBatch.build mixedTtlMerges).extractEntries 1 0 none
      (some counterMergeOperator) =
        .ok [⟨1, .merge 3, 1, some 0, some 20⟩, ⟨1, .merge 2, 1, some 0, some 10⟩] := by
    simp only [WriteBatch.extractEntries, MergeOperatorIterator.drain_eq_runFuel]
    rfl
  simp only [DbInner.writeBatch, DbInner.init, DbOracle.nextSeq, Nat.lt_irrefl, false_and,
    ite_false, Nat.zero_add, hextract]
  decide

/-- A put of key `1` at tick `0` that expires at `10`, a put of key `2` at
tick `20`, and then a snapshot. -/
def expiredBeforeSnapshot : List (DbEvent Nat Nat) :=
  [.writeBatch (WriteBatch.new.putWithOptions 1 5 ⟨.expireAt 10⟩) {} 0,
    .writeBatch (WriteBatch.new.put 2 6) {} 20, .newSnapshot 0]

theorem snapshot_read_changes_after_flush :
    (Transition.System.runFrom DbInner.step (DbInner.init none none true)
        expiredBeforeSnapshot).map (·.snapshotGet 2 1 {}) =
        some (.ok (some ⟨1, 5, 1, 0, some 10⟩)) ∧
      (Transition.System.runFrom DbInner.step (DbInner.init none none true)
        (expiredBeforeSnapshot ++ [.freezeMemtable, .flushImmMemtable 20])).map
        (·.snapshotGet 2 1 {}) = some (.ok none) := by
  simp only [expiredBeforeSnapshot, List.cons_append, List.nil_append,
    Transition.System.runFrom_cons, Transition.System.runFrom_nil,
    DbInner.step, DbInner.flushImmMemtable, DbInner.iterImmTable, DbInner.snapshotGet,
    Reader.getKeyValueWithOptions, GetIterator.drain_eq, RetentionIterator.drain_eq_runFuel,
    DbIterator.nextEntry_eq_fuel _ _ _ (Nat.lt_succ_self _)]
  decide

end SlateDb
