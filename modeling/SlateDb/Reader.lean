import SlateDb.WriteBatch
import SlateDb.Lib.Machine

/-!
# The point read

`Reader::get_key_value_with_options` reads one key through a `DbIterator`
over a point range. Its sources are the transaction's write batch, the
memtable and the immutable memtables, newest first, and the on-disk tree:
the L0 SSTs, newest first, then the sorted runs, each behind a `FilterIterator`
that drops versions above the read's sequence bound. A `GetIterator` walks the
sources in that order and ends the read at the first tombstone it meets. A
`MergeOperatorIterator` that merges across expiry timestamps and has no
snapshot barrier, or, with no merge operator configured, an iterator that
fails on merge operands, folds the walk; `next_entry` returns its first entry
that is not a tombstone.

A source is the list of its entries for the key. The merge iterator stops
reading the `GetIterator` at its first `None`, so it is given the entries the
walk yields up to there, `GetIterator.drain`, which `GetIterator.drain_eq`
computes. No step of the read compares an expiry timestamp with a clock:
`getKeyValueWithOptions_returns_expired` is a read that returns a version
whose expiry lies before the read.
-/

namespace SlateDb

variable {K V : Type}

def FilterIterator.newWithMaxSeq (entries : List (RowEntry K V)) (maxSeq : Option Nat) :
    List (RowEntry K V) :=
  match maxSeq with
  | some maxSeq => entries.filter (·.seq ≤ maxSeq)
  | none => entries

def applyFilters (iters : List (List (RowEntry K V))) (maxSeq : Option Nat) :
    List (List (RowEntry K V)) :=
  match maxSeq with
  | some _ => iters.map (FilterIterator.newWithMaxSeq · maxSeq)
  | none => iters

/-! ### The walk over the sources -/

namespace GetIterator

/-- One call of `next`, from the current source on. A tombstone ends the read
without advancing to the next source. -/
def next : List (List (RowEntry K V)) → Option (RowEntry K V) × List (List (RowEntry K V))
  | [] => (none, [])
  | [] :: iters => next iters
  | (entry :: rest) :: iters =>
    match entry.value with
    | .tombstone => (none, rest :: iters)
    | _ => (some entry, rest :: iters)

def size (iters : List (List (RowEntry K V))) : Nat := (iters.map List.length).sum

theorem next_some :
    ∀ {iters : List (List (RowEntry K V))} {e : RowEntry K V} {rest : List (List (RowEntry K V))},
      next iters = (some e, rest) →
        iters.flatten = e :: rest.flatten ∧ e.value.isTombstone = false
  | [], _, _, h => by simp [next] at h
  | [] :: iters, e, rest, h => by
    have h' : next iters = (some e, rest) := by simpa [next] using h
    simpa using next_some h'
  | (entry :: r) :: iters, e, rest, h => by
    cases hv : entry.value with
    | tombstone => simp [next, hv] at h
    | value x =>
      simp only [next, hv, Prod.mk.injEq, Option.some.injEq] at h
      obtain ⟨rfl, rfl⟩ := h
      simp [hv]
    | merge x =>
      simp only [next, hv, Prod.mk.injEq, Option.some.injEq] at h
      obtain ⟨rfl, rfl⟩ := h
      simp [hv]

/-- When a call returns `None`, the walk has nothing more before a tombstone. -/
theorem next_none :
    ∀ {iters : List (List (RowEntry K V))} {rest : List (List (RowEntry K V))},
      next iters = (none, rest) →
        iters.flatten.takeWhile (fun e => !e.value.isTombstone) = []
  | [], _, _ => by simp
  | [] :: iters, rest, h => by
    have h' : next iters = (none, rest) := by simpa [next] using h
    simpa using next_none h'
  | (entry :: r) :: iters, rest, h => by
    cases hv : entry.value with
    | tombstone => simp [hv]
    | value x => simp [next, hv] at h
    | merge x => simp [next, hv] at h

def step (iters : List (List (RowEntry K V))) :
    Machine.Step (List (List (RowEntry K V))) (RowEntry K V) SlateDBError :=
  match next iters with
  | (some entry, rest) => .emit entry rest
  | (none, _) => .done

theorem step_emit {iters rest : List (List (RowEntry K V))} {e : RowEntry K V}
    (h : step iters = .emit e rest) : next iters = (some e, rest) := by
  simp only [step] at h
  split at h
  · cases h; assumption
  · cases h

def machine : Machine (List (List (RowEntry K V))) (RowEntry K V) SlateDBError where
  step := step
  rank := size
  rank_emit := fun h => by
    have hf := (next_some (step_emit h)).1
    have hlen := congrArg List.length hf
    simp only [List.length_flatten, List.length_cons] at hlen
    simp only [size]
    omega
  rank_skip := fun h => by
    simp only [step] at h
    split at h <;> cases h

/-- The entries a consumer reads before the walk's first `None`. -/
def drain (iters : List (List (RowEntry K V))) : Except SlateDBError (List (RowEntry K V)) :=
  machine.run iters

/-- The walk yields the sources' entries in turn up to the first tombstone. -/
theorem drain_eq (iters : List (List (RowEntry K V))) :
    drain iters = .ok (iters.flatten.takeWhile (fun e => !e.value.isTombstone)) := by
  obtain ⟨out, hrun, hout⟩ := Machine.run_spec (M := machine) (fun _ => True)
    (fun s out => out = s.flatten.takeWhile (fun e => !e.value.isTombstone))
    (fun {s b s'} _ h => by
      obtain ⟨hf, ht⟩ := next_some (step_emit h)
      refine ⟨trivial, fun out hout => ?_⟩
      simp [hout, hf, ht])
    (fun {_ _} _ h => by simp only [machine, step] at h; split at h <;> cases h)
    (fun {s} _ h => by
      simp only [machine, step] at h
      split at h
      · cases h
      · exact (next_none (by assumption)).symm)
    (fun {_ _} _ h => by simp only [machine, step] at h; split at h <;> cases h)
    iters trivial
  rw [drain, hrun, hout]

end GetIterator

/-! ### The iterator over the walk -/

def MergeOperatorRequiredIterator.next :
    List (RowEntry K V) → Except SlateDBError (Option (RowEntry K V) × List (RowEntry K V))
  | [] => .ok (none, [])
  | entry :: rest =>
    match entry.value with
    | .merge _ => .error .mergeOperatorMissing
    | _ => .ok (some entry, rest)

/-- The iterator a `DbIterator` reads: a merge operator iterator, or, with no
merge operator configured, one that fails on merge operands. -/
inductive ReadIterator (K V : Type) where
  | mergeOperator (it : MergeOperatorIterator K V)
  | mergeOperatorRequired

namespace ReadIterator

variable [DecidableEq K]

def next : ReadIterator K V → List (RowEntry K V) →
    Except SlateDBError (Option (RowEntry K V) × List (RowEntry K V))
  | .mergeOperator it, l => it.next l
  | .mergeOperatorRequired, l => MergeOperatorRequiredIterator.next l

theorem next_length {iter : ReadIterator K V} {l : List (RowEntry K V)} {e : RowEntry K V}
    {rest : List (RowEntry K V)} (h : iter.next l = .ok (some e, rest)) :
    rest.length < l.length := by
  cases iter with
  | mergeOperator it => exact it.next_length h
  | mergeOperatorRequired =>
    cases l with
    | nil => simp [next, MergeOperatorRequiredIterator.next] at h
    | cons entry l =>
      simp only [next, MergeOperatorRequiredIterator.next] at h
      split at h
      · cases h
      · cases h; simp

end ReadIterator

/-- `next_entry`: the next entry of the iterator that is not a tombstone. -/
def DbIterator.nextEntry [DecidableEq K] (iter : ReadIterator K V) (l : List (RowEntry K V)) :
    Except SlateDBError (Option (RowEntry K V) × List (RowEntry K V)) :=
  match h : iter.next l with
  | .ok (some entry, rest) =>
    match entry.value with
    | .tombstone => DbIterator.nextEntry iter rest
    | _ => .ok (some entry, rest)
  | .ok (none, rest) => .ok (none, rest)
  | .error e => .error e
termination_by l.length
decreasing_by exact ReadIterator.next_length h

/-- `next_entry` with a bound on the calls it makes, for evaluation. -/
def DbIterator.nextEntryFuel [DecidableEq K] (iter : ReadIterator K V) :
    Nat → List (RowEntry K V) → Except SlateDBError (Option (RowEntry K V) × List (RowEntry K V))
  | 0, _ => .ok (none, [])
  | fuel + 1, l =>
    match iter.next l with
    | .ok (some entry, rest) =>
      match entry.value with
      | .tombstone => DbIterator.nextEntryFuel iter fuel rest
      | _ => .ok (some entry, rest)
    | .ok (none, rest) => .ok (none, rest)
    | .error e => .error e

/-- Every call of the loop consumes an entry, so a bound above the length of
the input is never reached. -/
theorem DbIterator.nextEntry_eq_fuel [DecidableEq K] (iter : ReadIterator K V) :
    ∀ fuel (l : List (RowEntry K V)), l.length < fuel → nextEntry iter l = nextEntryFuel iter fuel l
  | 0, _, h => absurd h (Nat.not_lt_zero _)
  | fuel + 1, l, h => by
    rw [nextEntry, nextEntryFuel]
    split
    · rename_i entry rest hnext
      have hlt := ReadIterator.next_length hnext
      simp only [hnext]
      split
      · exact nextEntry_eq_fuel iter fuel rest (by omega)
      · rfl
    · rename_i rest hnext
      simp only [hnext]
    · rename_i e hnext
      simp only [hnext]

/-- `next_entry` is the iterator's `next` when that returns no tombstone. -/
theorem DbIterator.nextEntry_eq_next [DecidableEq K] {iter : ReadIterator K V}
    {l : List (RowEntry K V)}
    (h : ∀ e rest, iter.next l = .ok (some e, rest) → e.value.isTombstone = false) :
    nextEntry iter l = iter.next l := by
  rw [nextEntry]
  split
  · rename_i entry rest hnext
    have ht := h entry rest hnext
    split
    · rename_i hv
      simp [hv] at ht
    · exact hnext.symm
  · rename_i rest hnext
    exact hnext.symm
  · rename_i e hnext
    exact hnext.symm

/-! ### The read -/

inductive DurabilityLevel where
  | remote
  | memory
  deriving DecidableEq, Repr

structure ReadOptions where
  durabilityFilter : DurabilityLevel := .memory
  dirty : Bool := false

structure KeyValue (K V : Type) where
  key : K
  value : V
  seq : Nat
  createTs : Int
  expireTs : Option Int
  deriving DecidableEq, Repr

/-- The key-value pair of an entry whose payload is `value`. -/
def KeyValue.ofRowEntry (entry : RowEntry K V) (value : V) : KeyValue K V :=
  ⟨entry.key, value, entry.seq, entry.createTs.getD 0, entry.expireTs⟩

/-- The in-memory and on-disk state a read consults: the memtable, the
immutable memtables newest first, the L0 SSTs newest first and the sorted
runs newest first. -/
structure DbState (K V : Type) where
  memtable : KVTable K V
  immMemtable : List (KVTable K V)
  l0 : List (List (RowEntry K V))
  compacted : List (List (RowEntry K V))

/-- The reader's merge operator and the oracle's sequence numbers at the read. -/
structure Reader (K V : Type) where
  readMergeOperator : Option (MergeOperator K V)
  lastCommittedSeq : Nat
  lastRemotePersistedSeq : Nat

namespace Reader

variable (r : Reader K V)

def prepareMaxSeq (maxSeqByUser : Option Nat) (durabilityFilter : DurabilityLevel)
    (dirty : Bool) : Option Nat :=
  -- a read of persisted data only sees up to the last remote persisted seq
  let maxSeq : Option Nat := match durabilityFilter with
    | .remote => some r.lastRemotePersistedSeq
    | .memory => none
  -- a read that is not dirty only sees up to the last committed seq
  let maxSeq : Option Nat :=
    if !dirty then
      match maxSeq with
      | some seq => some (min seq r.lastCommittedSeq)
      | none => some r.lastCommittedSeq
    else maxSeq
  match maxSeqByUser with
  | some maxSeqByUser =>
    match maxSeq with
    | some seq => some (min seq maxSeqByUser)
    | none => some maxSeqByUser
  | none => maxSeq

variable [Ord K] [DecidableEq K]

def getKeyValueWithOptions (key : K) (options : ReadOptions) (dbState : DbState K V)
    (writeBatchIter : Option (List (RowEntry K V))) (maxSeq : Option Nat) :
    Except SlateDBError (Option (KeyValue K V)) :=
  let maxSeq := r.prepareMaxSeq maxSeq options.durabilityFilter options.dirty
  let point := fun (l : List (RowEntry K V)) => l.filter (·.key = key)
  let memIters := (dbState.memtable :: dbState.immMemtable).map (fun t => point t.rows)
  -- the tree's own walk, with the bound on every table
  match GetIterator.drain (applyFilters ((dbState.l0 ++ dbState.compacted).map point) maxSeq) with
  | .error e => .error e
  | .ok segmentIter =>
    -- the write batch's entries carry no committed seq and are not filtered
    let writeBatchIter := (writeBatchIter.map point).getD []
    let memIters := applyFilters memIters maxSeq
    let segmentIter := FilterIterator.newWithMaxSeq segmentIter maxSeq
    match GetIterator.drain (writeBatchIter :: memIters ++ [segmentIter]) with
    | .error e => .error e
    | .ok stream =>
      let iter : ReadIterator K V := match r.readMergeOperator with
        | some mergeOperator => .mergeOperator ⟨mergeOperator, true, none⟩
        | none => .mergeOperatorRequired
      match DbIterator.nextEntry iter stream with
      | .error e => .error e
      | .ok (none, _) => .ok none
      | .ok (some entry, _) =>
        match entry.value.asBytes with
        | none => .error .unexpectedTombstone
        | some value => .ok (some (KeyValue.ofRowEntry entry value))

end Reader

theorem getKeyValueWithOptions_returns_expired :
    let reader : Reader Nat Nat := ⟨none, 1, 1⟩
    let dbState : DbState Nat Nat := ⟨KVTable.new.put ⟨1, .value 5, 1, some 0, some 10⟩, [], [], []⟩
    reader.getKeyValueWithOptions 1 {} dbState none none = .ok (some ⟨1, 5, 1, 0, some 10⟩) := by
  simp only [Reader.getKeyValueWithOptions, GetIterator.drain_eq]
  rw [DbIterator.nextEntry]
  decide

end SlateDb
