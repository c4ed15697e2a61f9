import SlateDb.Types
import SlateDb.Lib.Machine
import SlateDb.Lib.MergeFold

/-!
# The merge operator iterator

`MergeOperatorIterator` folds runs of merge operands of one key into a single
entry. On a merge operand whose sequence number is not above the snapshot
barrier it collects the following entries that match it (the same key and,
unless `merge_different_expire_ts` is set, the same expiry timestamp) down to
the first value or tombstone, the run's base. Operands are merged in batches
of `MERGE_BATCH_SIZE`, newest batch first, and the batches' results are then
merged onto the base's value. A `MergeTracker` carries the largest creation
timestamp, the smallest expiry timestamp and the sequence number of the run,
and rejects an entry whose sequence number is above the run's first.

The delegate iterator and the entry the iterator buffered after a run are
modelled together as the list of entries still to come; an entry that ends a
run is put back in front of that list. The merge operator's `merge` cannot
fail here and its `merge_batch` is the trait's default, a left fold of
`merge` from the existing value.
-/

namespace SlateDb

variable {K V : Type}

inductive MergeOperatorError where
  | emptyBatch
  deriving DecidableEq, Repr

/-- The errors of the storage engine that the modelled iterators raise. -/
inductive SlateDBError where
  | mergeOperatorError (e : MergeOperatorError)
  | invalidSequenceOrder (currentSeq nextSeq : Nat)
  | mergeOperatorMissing
  | invalidSequenceNumber (provided current : Nat)
  | unexpectedTombstone
  | invalidCompaction
  | iteratorNotInitialized
  | invalidSegmentPrefix (prefixBytes conflict : List UInt8)
  | emptySegmentPrefix (key : List UInt8)
  | invalidDBState
  deriving DecidableEq, Repr

structure MergeOperator (K V : Type) where
  merge : K → Option V → V → V

/-- The default `merge_batch`: operands are ordered from oldest to newest. -/
def MergeOperator.mergeBatch (op : MergeOperator K V) (key : K) (existingValue : Option V)
    (operands : List V) : Except MergeOperatorError V :=
  match MergeFold.foldl (op.merge key) existingValue operands with
  | some result => .ok result
  | none => .error .emptyBatch

/-- The counter of the trait's documentation, over unbounded naturals: an
operand is added to the existing value, or to zero. -/
def counterMergeOperator : MergeOperator Nat Nat := ⟨fun _ existing x => existing.getD 0 + x⟩

def mergeOptions {T : Type} (current next : Option T) (f : T → T → T) : Option T :=
  match current, next with
  | some current, some next => some (f current next)
  | none, next => next
  | current, none => current

def mergeBatchSize : Nat := 100

structure MergeTracker where
  maxCreateTs : Option Int
  minExpireTs : Option Int
  seq : Nat
  deriving DecidableEq, Repr

def MergeTracker.update (t : MergeTracker) (entry : RowEntry K V) :
    Except SlateDBError MergeTracker :=
  let maxCreateTs := mergeOptions t.maxCreateTs entry.createTs max
  let minExpireTs := mergeOptions t.minExpireTs entry.expireTs min
  if t.seq < entry.seq then .error (.invalidSequenceOrder t.seq entry.seq)
  else .ok ⟨maxCreateTs, minExpireTs, max t.seq entry.seq⟩

theorem MergeTracker.update_seq {t t' : MergeTracker} {e : RowEntry K V}
    (h : t.update e = .ok t') : t'.seq = t.seq := by
  simp only [MergeTracker.update] at h
  split at h
  · cases h
  · rename_i hlt
    simp only [Except.ok.injEq] at h
    rw [← h]
    exact Nat.max_eq_left (Nat.le_of_not_lt hlt)

theorem MergeTracker.foldlM_update_seq :
    ∀ {l : List (RowEntry K V)} {t t' : MergeTracker},
      l.foldlM (fun t e => t.update e) t = .ok t' → t'.seq = t.seq
  | [], t, t', h => by
    simp only [List.foldlM_nil] at h
    cases h
    rfl
  | e :: l, t, t', h => by
    rw [List.foldlM_cons] at h
    cases hu : t.update e with
    | error err =>
      rw [hu] at h
      cases h
    | ok t₁ =>
      rw [hu] at h
      exact (foldlM_update_seq (l := l) (t := t₁) h).trans (update_seq hu)

structure MergeOperatorIterator (K V : Type) where
  mergeOperator : MergeOperator K V
  mergeDifferentExpireTs : Bool
  snapshotBarrierSeq : Option Nat

/-- The state of the loop of `merge_with_older_entries`: the operands of the
batch being filled, newest first, the results of the batches merged so far,
and the tracker. -/
structure MergeRun (K V : Type) where
  batch : List (RowEntry K V)
  results : List V
  tracker : MergeTracker

namespace MergeOperatorIterator

variable [DecidableEq K] (it : MergeOperatorIterator K V)

def isMatchingEntry (entry : RowEntry K V) (key : K) (firstExpireTs : Option Int) : Bool :=
  entry.key = key && (it.mergeDifferentExpireTs || firstExpireTs = entry.expireTs)

/-- Merges one batch, oldest operand first, and folds its entries into the tracker. -/
def processBatch (key : K) (batch : List (RowEntry K V)) (tracker : MergeTracker) :
    Except SlateDBError (V × MergeTracker) :=
  let batch := batch.reverse
  match batch.foldlM (fun t e => t.update e) tracker with
  | .error e => .error e
  | .ok tracker =>
    match it.mergeOperator.mergeBatch key none (batch.filterMap (·.value.asBytes)) with
    | .ok batchResult => .ok (batchResult, tracker)
    | .error e => .error (.mergeOperatorError e)

/-- The loop of `merge_with_older_entries`, from the entry `next` on. It stops
at an entry that does not match, which is put back, at a base, or at the end
of the stream, and returns the base with the loop's state and the rest. -/
def collectOperands (key : K) (firstExpireTs : Option Int) :
    List (RowEntry K V) → MergeRun K V →
      Except SlateDBError (Option (RowEntry K V) × MergeRun K V × List (RowEntry K V))
  | [], run => .ok (none, run, [])
  | entry :: rest, run =>
    if !it.isMatchingEntry entry key firstExpireTs then .ok (none, run, entry :: rest)
    else if !entry.value.isMerge then .ok (some entry, run, rest)
    else
      let batch := run.batch ++ [entry]
      if mergeBatchSize ≤ batch.length then
        match it.processBatch key batch run.tracker with
        | .ok (batchResult, tracker) =>
          collectOperands key firstExpireTs rest ⟨[], run.results ++ [batchResult], tracker⟩
        | .error e => .error e
      else collectOperands key firstExpireTs rest { run with batch := batch }

/-- Merges the leftover batch, if any, into the results. -/
def finishBatch (key : K) (run : MergeRun K V) : Except SlateDBError (List V × MergeTracker) :=
  if run.batch.isEmpty then .ok (run.results, run.tracker)
  else
    match it.processBatch key run.batch run.tracker with
    | .ok (batchResult, tracker) => .ok (run.results ++ [batchResult], tracker)
    | .error e => .error e

def mergeWithOlderEntries (firstEntry : RowEntry K V) (rest : List (RowEntry K V)) :
    Except SlateDBError (Option (RowEntry K V) × List (RowEntry K V)) :=
  let key := firstEntry.key
  let firstExpireTs := firstEntry.expireTs
  match it.collectOperands key firstExpireTs (firstEntry :: rest)
      ⟨[], [], ⟨none, none, firstEntry.seq⟩⟩ with
  | .error e => .error e
  | .ok (base, run, rest) =>
    match it.finishBatch key run with
    | .error e => .error e
    | .ok (results, tracker) =>
      let baseValue := base.bind (·.value.asBytes)
      let tracker := match base with
        | some baseEntry => tracker.update baseEntry
        | none => .ok tracker
      match tracker with
      | .error e => .error e
      | .ok tracker =>
        if results.isEmpty && baseValue.isNone then .ok (none, rest)
        else
          match it.mergeOperator.mergeBatch key baseValue results.reverse with
          | .error e => .error (.mergeOperatorError e)
          | .ok finalResult =>
            .ok (some ⟨key, if base.isSome then .value finalResult else .merge finalResult,
              tracker.seq, tracker.maxCreateTs, tracker.minExpireTs⟩, rest)

def next : List (RowEntry K V) →
    Except SlateDBError (Option (RowEntry K V) × List (RowEntry K V))
  | [] => .ok (none, [])
  | entry :: rest =>
    match entry.value with
    | .merge _ =>
      match it.snapshotBarrierSeq with
      | some snapshotBarrierSeq =>
        if snapshotBarrierSeq < entry.seq then .ok (some entry, rest)
        else it.mergeWithOlderEntries entry rest
      | none => it.mergeWithOlderEntries entry rest
    | _ => .ok (some entry, rest)

/-! ### What a call that succeeds keeps

The tracker only rejects an entry above the run's sequence number, so while it
accepts, the run keeps the sequence number of its first entry; and every call
hands back a suffix of its input.
-/

omit [DecidableEq K] in
theorem processBatch_seq {key : K} {batch : List (RowEntry K V)} {t t' : MergeTracker} {r : V}
    (h : it.processBatch key batch t = .ok (r, t')) : t'.seq = t.seq := by
  simp only [processBatch] at h
  split at h
  · cases h
  · rename_i tracker hfold
    split at h
    · simp only [Except.ok.injEq, Prod.mk.injEq] at h
      rw [← h.2]
      exact MergeTracker.foldlM_update_seq hfold
    · cases h

/-- The loop keeps the run's sequence number and hands back a suffix of its input. -/
theorem collectOperands_ok {key : K} {firstExpireTs : Option Int} :
    ∀ {l : List (RowEntry K V)} {run run' : MergeRun K V} {base : Option (RowEntry K V)}
      {rest : List (RowEntry K V)},
      it.collectOperands key firstExpireTs l run = .ok (base, run', rest) →
        run'.tracker.seq = run.tracker.seq ∧ rest <:+ l
  | [], _, _, _, _, h => by
    simp only [collectOperands, Except.ok.injEq, Prod.mk.injEq] at h
    obtain ⟨-, rfl, rfl⟩ := h
    exact ⟨rfl, List.suffix_refl _⟩
  | entry :: l, run, run', base, rest, h => by
    simp only [collectOperands] at h
    split at h
    · -- an entry that does not match is put back
      simp only [Except.ok.injEq, Prod.mk.injEq] at h
      obtain ⟨-, rfl, rfl⟩ := h
      exact ⟨rfl, List.suffix_refl _⟩
    split at h
    · -- the base is consumed
      simp only [Except.ok.injEq, Prod.mk.injEq] at h
      obtain ⟨-, rfl, rfl⟩ := h
      exact ⟨rfl, List.suffix_cons _ _⟩
    split at h
    · split at h
      · rename_i batchResult tracker hproc
        obtain ⟨hseq, hsuf⟩ := collectOperands_ok h
        exact ⟨hseq.trans (it.processBatch_seq hproc), hsuf.trans (List.suffix_cons _ _)⟩
      · cases h
    · obtain ⟨hseq, hsuf⟩ := collectOperands_ok h
      exact ⟨hseq, hsuf.trans (List.suffix_cons _ _)⟩

omit [DecidableEq K] in
theorem finishBatch_seq {key : K} {run : MergeRun K V} {results : List V} {t : MergeTracker}
    (h : it.finishBatch key run = .ok (results, t)) : t.seq = run.tracker.seq := by
  simp only [finishBatch] at h
  split at h
  · simp only [Except.ok.injEq, Prod.mk.injEq] at h
    rw [← h.2]
  · split at h
    · rename_i batchResult tracker hproc
      simp only [Except.ok.injEq, Prod.mk.injEq] at h
      rw [← h.2]
      exact it.processBatch_seq hproc
    · cases h

/-! ### Every call that returns an entry consumes input -/

/-- The first entry of a run matches itself, so the loop consumes it. -/
theorem collectOperands_first_suffix {key : K} {firstExpireTs : Option Int}
    {entry : RowEntry K V} {l : List (RowEntry K V)} {run run' : MergeRun K V}
    {base : Option (RowEntry K V)} {rest : List (RowEntry K V)}
    (hm : it.isMatchingEntry entry key firstExpireTs = true)
    (h : it.collectOperands key firstExpireTs (entry :: l) run = .ok (base, run', rest)) :
    rest <:+ l := by
  simp only [collectOperands, hm, Bool.not_true, Bool.false_eq_true, if_false] at h
  split at h
  · -- a base value ends the run right after it
    simp only [Except.ok.injEq, Prod.mk.injEq] at h
    exact h.2.2 ▸ List.suffix_refl _
  split at h
  · split at h
    · exact (it.collectOperands_ok h).2
    · cases h
  · exact (it.collectOperands_ok h).2

theorem isMatchingEntry_self (entry : RowEntry K V) :
    it.isMatchingEntry entry entry.key entry.expireTs = true := by
  simp [isMatchingEntry]

/-- What a call that succeeds leaves of its input lies after the first entry. -/
theorem mergeWithOlderEntries_suffix {entry : RowEntry K V} {l : List (RowEntry K V)}
    {o : Option (RowEntry K V)} {rest : List (RowEntry K V)}
    (h : it.mergeWithOlderEntries entry l = .ok (o, rest)) : rest <:+ l := by
  simp only [mergeWithOlderEntries] at h
  split at h
  · cases h
  rename_i base run rest' hc
  have hsuf := it.collectOperands_first_suffix (it.isMatchingEntry_self entry) hc
  split at h
  · cases h
  split at h
  · cases h
  split at h
  · simp only [Except.ok.injEq, Prod.mk.injEq] at h
    rw [← h.2]; exact hsuf
  split at h
  · cases h
  · simp only [Except.ok.injEq, Prod.mk.injEq] at h
    rw [← h.2]; exact hsuf

theorem next_length {l : List (RowEntry K V)} {o : RowEntry K V} {rest : List (RowEntry K V)}
    (h : it.next l = .ok (some o, rest)) : rest.length < l.length := by
  cases l with
  | nil => simp [next] at h
  | cons entry l =>
    simp only [next] at h
    have hmerge : ∀ {o'}, it.mergeWithOlderEntries entry l = .ok (o', rest) →
        rest.length < (entry :: l).length := fun h' => by
      have := (it.mergeWithOlderEntries_suffix h').length_le
      simp only [List.length_cons]; omega
    split at h
    · split at h
      · split at h
        · simp at h; simp [← h.2]
        · exact hmerge h
      · exact hmerge h
    · simp at h; simp [← h.2]

/-- A call of `next`, as one step of the consumer's loop. -/
def step (l : List (RowEntry K V)) : Machine.Step (List (RowEntry K V)) (RowEntry K V) SlateDBError :=
  match it.next l with
  | .ok (some entry, rest) => .emit entry rest
  | .ok (none, _) => .done
  | .error e => .fail e

def machine : Machine (List (RowEntry K V)) (RowEntry K V) SlateDBError where
  step := it.step
  rank := List.length
  rank_emit := fun {l b rest} h => by
    simp only [step] at h
    split at h
    · cases h
      exact it.next_length (by assumption)
    all_goals cases h
  rank_skip := fun {l rest} h => by
    simp only [step] at h
    split at h <;> cases h

/-- The entries a consumer gets by calling `next` until it returns `None`. -/
def drain (input : List (RowEntry K V)) : Except SlateDBError (List (RowEntry K V)) :=
  it.machine.run input

/-- A drain ends within one call more than its input has entries. -/
theorem drain_eq_runFuel (input : List (RowEntry K V)) :
    it.drain input = it.machine.runFuel (input.length + 1) input :=
  (it.machine.runFuel_eq _ _ (Nat.lt_succ_self _)).symm

end MergeOperatorIterator

end SlateDb
