import SlateDb.Types
import SlateDb.Lib.Transition

/-!
# Transaction manager

The manager keeps the active transactions, keyed by id, and a queue of recently
committed transaction states against which a committing transaction is checked
for write-write and read-write conflicts. A committed state may be dropped from
the queue once every active transaction started at or after its commit.

The writer drives the manager one batch at a time: it takes a commit sequence
number from the oracle, checks the batch's transaction for conflicts, and only
then records the committed state and publishes the sequence number. Any other
operation may run between those steps, a transaction's drop included: its
commit future may be cancelled once the batch is sent, and `Drop` then removes
the transaction while the writer still holds the batch. `WriterState` adds a
ghost history of what each commit wrote, and `writer.Reachable` is every state
that such an interleaving reaches.
-/

namespace SlateDb

variable {Id K : Type}

structure TransactionState (K : Type) where
  startedSeq : Nat
  committedSeq : Option Nat
  writeKeys : Finset K
  readKeys : Finset K
  readRanges : List (BytesRange K)

namespace TransactionState

def new (seq : Nat) : TransactionState K := ⟨seq, none, ∅, ∅, []⟩

def trackWriteKeys [DecidableEq K] (t : TransactionState K) (keys : Finset K) :
    TransactionState K :=
  { t with writeKeys := t.writeKeys ∪ keys }

def trackReadKeys [DecidableEq K] (t : TransactionState K) (keys : Finset K) :
    TransactionState K :=
  { t with readKeys := t.readKeys ∪ keys }

def trackReadRange (t : TransactionState K) (range : BytesRange K) : TransactionState K :=
  { t with readRanges := t.readRanges ++ [range] }

def markAsCommitted (t : TransactionState K) (seq : Nat) : TransactionState K :=
  { t with committedSeq := some seq, readKeys := ∅, readRanges := [] }

@[simp] theorem trackWriteKeys_startedSeq [DecidableEq K] (t : TransactionState K)
    (keys : Finset K) : (t.trackWriteKeys keys).startedSeq = t.startedSeq := rfl

@[simp] theorem trackReadKeys_startedSeq [DecidableEq K] (t : TransactionState K)
    (keys : Finset K) : (t.trackReadKeys keys).startedSeq = t.startedSeq := rfl

@[simp] theorem trackReadRange_startedSeq (t : TransactionState K) (range : BytesRange K) :
    (t.trackReadRange range).startedSeq = t.startedSeq := rfl

@[simp] theorem markAsCommitted_committedSeq (t : TransactionState K) (seq : Nat) :
    (t.markAsCommitted seq).committedSeq = some seq := rfl

@[simp] theorem markAsCommitted_writeKeys (t : TransactionState K) (seq : Nat) :
    (t.markAsCommitted seq).writeKeys = t.writeKeys := rfl

end TransactionState

/-- The sequence numbers of the oracle that the commit path reads and advances. -/
structure DbOracle where
  lastSeq : Nat
  lastCommittedSeq : Nat

namespace DbOracle

def nextSeq (o : DbOracle) : Nat × DbOracle :=
  (o.lastSeq + 1, { o with lastSeq := o.lastSeq + 1 })

def advanceLastSeq (o : DbOracle) (seq : Nat) : DbOracle :=
  { o with lastSeq := max o.lastSeq seq }

def advanceCommittedSeq (o : DbOracle) (seq : Nat) : DbOracle :=
  { o with lastCommittedSeq := max o.lastCommittedSeq seq }

end DbOracle

variable [DecidableEq Id] [LinearOrder K]

/-- `active_txns` is a hash map from transaction id to state, kept here as an
association list whose `insert` replaces the entry of the same id. -/
structure TransactionManagerInner (Id K : Type) where
  activeTxns : List (Id × TransactionState K)
  recentCommittedTxns : List (TransactionState K)
  oracle : DbOracle

namespace TransactionManagerInner

variable (m : TransactionManagerInner Id K)

def removeActive (id : Id) : List (Id × TransactionState K) :=
  m.activeTxns.filter (fun p => p.1 ≠ id)

def modifyActive (id : Id) (f : TransactionState K → TransactionState K) :
    List (Id × TransactionState K) :=
  m.activeTxns.map (fun p => if p.1 = id then (p.1, f p.2) else p)

def newTransaction (txnId : Id) : TransactionManagerInner Id K × Nat :=
  let seq := m.oracle.lastCommittedSeq
  ({ m with activeTxns := (txnId, TransactionState.new seq) :: m.removeActive txnId }, seq)

def minConflictCheckSeq : Option Nat :=
  (m.activeTxns.map (fun p => p.2.startedSeq)).min?

def recycleRecentCommittedTxns : TransactionManagerInner Id K :=
  match m.minConflictCheckSeq with
  | some minSeq =>
      { m with recentCommittedTxns := m.recentCommittedTxns.filter (fun t =>
          match t.committedSeq with
          | some committedSeq => decide (minSeq ≤ committedSeq)
          | none => true) }
  | none => { m with recentCommittedTxns := [] }

def dropTxn (txnId : Id) : TransactionManagerInner Id K :=
  { m with activeTxns := m.removeActive txnId }.recycleRecentCommittedTxns

def trackWriteKeys (txnId : Id) (keys : Finset K) : TransactionManagerInner Id K :=
  { m with activeTxns := m.modifyActive txnId (·.trackWriteKeys keys) }

def trackReadKeys (txnId : Id) (keys : Finset K) : TransactionManagerInner Id K :=
  { m with activeTxns := m.modifyActive txnId (·.trackReadKeys keys) }

def trackReadRange (txnId : Id) (range : BytesRange K) : TransactionManagerInner Id K :=
  { m with activeTxns := m.modifyActive txnId (·.trackReadRange range) }

def trackRecentCommittedState (txnState : TransactionState K) : TransactionManagerInner Id K :=
  let pushed := { m with recentCommittedTxns := m.recentCommittedTxns ++ [txnState] }
  if pushed.minConflictCheckSeq.isNone then { pushed with recentCommittedTxns := [] } else pushed

def trackRecentCommittedTxn (txnId : Id) (committedSeq : Nat) : TransactionManagerInner Id K :=
  let tracked := match m.activeTxns.lookup txnId with
    | some txnState =>
        { m with activeTxns := m.removeActive txnId }.trackRecentCommittedState
          (txnState.markAsCommitted committedSeq)
    | none => m
  { tracked with oracle := tracked.oracle.advanceCommittedSeq committedSeq }

def trackRecentCommittedWriteBatch (keys : Finset K) (committedSeq : Nat) :
    TransactionManagerInner Id K :=
  let tracked := m.trackRecentCommittedState ⟨committedSeq, some committedSeq, keys, ∅, []⟩
  { tracked with oracle := tracked.oracle.advanceCommittedSeq committedSeq }

/-- The loop of `has_write_write_conflict`; `none` is the panic of the `expect`
on a queued state without a committed sequence number. -/
def writeConflictLoop (writeKeys : Finset K) (startedSeq : Nat) :
    List (TransactionState K) → Option Bool
  | [] => some false
  | c :: cs =>
      match c.committedSeq with
      | none => none
      | some otherCommittedSeq =>
          if startedSeq < otherCommittedSeq ∧ ¬ Disjoint writeKeys c.writeKeys then some true
          else writeConflictLoop writeKeys startedSeq cs

def hasWriteWriteConflict (writeKeys : Finset K) (startedSeq : Nat) : Option Bool :=
  if writeKeys = ∅ then some false
  else writeConflictLoop writeKeys startedSeq m.recentCommittedTxns

def rangeHit (readRanges : List (BytesRange K)) (writeKeys : Finset K) : Bool :=
  readRanges.any (fun r => decide (∃ k ∈ writeKeys, r.contains k = true))

/-- The loop of `has_read_write_conflict`, with the same panic as above. -/
def readConflictLoop (readKeys : Finset K) (readRanges : List (BytesRange K))
    (startedSeq : Nat) : List (TransactionState K) → Option Bool
  | [] => some false
  | c :: cs =>
      match c.committedSeq with
      | none => none
      | some otherCommittedSeq =>
          if startedSeq < otherCommittedSeq then
            if ¬ Disjoint readKeys c.writeKeys then some true
            else if rangeHit readRanges c.writeKeys then some true
            else readConflictLoop readKeys readRanges startedSeq cs
          else readConflictLoop readKeys readRanges startedSeq cs

def hasReadWriteConflict (readKeys : Finset K) (readRanges : List (BytesRange K))
    (startedSeq : Nat) : Option Bool :=
  if readKeys = ∅ ∧ readRanges = [] then some false
  else readConflictLoop readKeys readRanges startedSeq m.recentCommittedTxns

def checkHasConflict (txnId : Id) : Option Bool :=
  match m.activeTxns.lookup txnId with
  | none => some false
  | some txnState =>
      (m.hasWriteWriteConflict txnState.writeKeys txnState.startedSeq).bind fun ww =>
        if ww then some true
        else m.hasReadWriteConflict txnState.readKeys txnState.readRanges txnState.startedSeq

end TransactionManagerInner

/-! ### The writer's commit pipeline -/

/-- The batch `write_batch` is committing: its transaction, its keys, the
sequence number taken from the oracle, and whether the conflict check passed. -/
structure PendingWrite (Id K : Type) where
  txnId : Option Id
  keys : Finset K
  commitSeq : Nat
  checked : Bool

structure WriterState (Id K : Type) where
  manager : TransactionManagerInner Id K
  pending : Option (PendingWrite Id K)
  committed : List (TransactionState K)

inductive TxnEvent (Id K : Type) where
  | newTransaction (txnId : Id)
  | trackWriteKeys (txnId : Id) (keys : Finset K)
  | trackReadKeys (txnId : Id) (keys : Finset K)
  | trackReadRange (txnId : Id) (range : BytesRange K)
  | dropTxn (txnId : Id)
  | assignSeq (txnId : Option Id) (keys : Finset K) (seqnum : Nat)
  | checkConflict
  | failWrite
  | commitWrite

namespace WriterState

variable (s : WriterState Id K)

def withManager (m : TransactionManagerInner Id K) : WriterState Id K :=
  { s with manager := m }

/-- The commit sequence number of `write_batch`: a user-supplied one must exceed
the oracle's last sequence number; otherwise the oracle hands out the next one. -/
def commitSeqFor (seqnum : Nat) : Option (Nat × DbOracle) :=
  if 0 < seqnum then
    if seqnum ≤ s.manager.oracle.lastSeq then none
    else some (seqnum, s.manager.oracle.advanceLastSeq seqnum)
  else some s.manager.oracle.nextSeq

/-- What a commit wrote: the batch's keys at its commit sequence number. -/
def batchState (keys : Finset K) (committedSeq : Nat) : TransactionState K :=
  ⟨committedSeq, some committedSeq, keys, ∅, []⟩

/-- One step of the writer or of a transaction. -/
def step : TxnEvent Id K → Option (WriterState Id K)
  | .newTransaction txnId => some (s.withManager (s.manager.newTransaction txnId).1)
  | .trackWriteKeys txnId keys => some (s.withManager (s.manager.trackWriteKeys txnId keys))
  | .trackReadKeys txnId keys => some (s.withManager (s.manager.trackReadKeys txnId keys))
  | .trackReadRange txnId range => some (s.withManager (s.manager.trackReadRange txnId range))
  | .dropTxn txnId => some (s.withManager (s.manager.dropTxn txnId))
  | .assignSeq txnId keys seqnum =>
      match s.pending, s.commitSeqFor seqnum with
      | none, some (commitSeq, oracle) =>
          some { s with manager := { s.manager with oracle := oracle },
                        pending := some ⟨txnId, keys, commitSeq, false⟩ }
      | _, _ => none
  | .checkConflict =>
      match s.pending with
      | some p =>
          if p.checked then none
          else match p.txnId with
            | none => some { s with pending := some { p with checked := true } }
            | some txnId =>
                match s.manager.checkHasConflict txnId with
                | some true => some { s with pending := none }
                | some false => some { s with pending := some { p with checked := true } }
                | none => none
      | none => none
  | .failWrite =>
      match s.pending with
      | some _ => some { s with pending := none }
      | none => none
  | .commitWrite =>
      match s.pending with
      | some p =>
          if p.checked then
            match p.txnId with
            | some txnId =>
                some { manager := s.manager.trackRecentCommittedTxn txnId p.commitSeq,
                       pending := none,
                       committed := s.committed ++ [batchState p.keys p.commitSeq] }
            | none =>
                some { manager := s.manager.trackRecentCommittedWriteBatch p.keys p.commitSeq,
                       pending := none,
                       committed := s.committed ++ [batchState p.keys p.commitSeq] }
          else none
      | none => none

def Initial : Prop :=
  s.manager.activeTxns = [] ∧ s.manager.recentCommittedTxns = [] ∧ s.pending = none ∧
    s.committed = [] ∧ s.manager.oracle.lastCommittedSeq ≤ s.manager.oracle.lastSeq

end WriterState

def writer : Transition.System (WriterState Id K) (TxnEvent Id K) where
  init s := s.Initial
  step s e s' := s.step e = some s'

end SlateDb
