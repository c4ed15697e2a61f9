import SlateDb.MergeOperatorSpec
import SlateDb.RetentionSpec

/-!
# The compaction pipeline

`TokioCompactionExecutorInner::load_iterators` merges the sources of a
compaction into one stream and puts two iterators over it: a
`MergeOperatorIterator` that does not merge across expiry timestamps, with the
job's retention bound as its snapshot barrier, and a `RetentionIterator` with
no retention timeout, the same bound, tombstone filtering when the destination
is the last sorted run, and the job's clock tick as the compaction's start.
`compactionOutput` is what the compaction's writer receives. The retention
iterator pulls every entry of its upstream before it ends its own stream, so
draining the two in turn gives what the stacked iterators give.

`compactionOutput_preserves_reads`: on a sorted input and with a lawful merge
operator the pipeline ends without an error or a panic, its output is sorted,
and every read that the retention bound protects sees in the output what it
sees in the input after expiry at the compaction's start.
-/

namespace SlateDb

variable {K V : Type}

/-- The arguments of a compaction job that its iterators read. -/
structure CompactionJobArgs where
  retentionMinSeq : Option Nat
  isDestLastRun : Bool
  compactionClockTick : Int

inductive IteratorFailure where
  | error (e : SlateDBError)
  | panic (message : String)

namespace CompactionJobArgs

variable (args : CompactionJobArgs)

def mergeIterator (mergeOperator : MergeOperator K V) : MergeOperatorIterator K V :=
  ⟨mergeOperator, false, args.retentionMinSeq⟩

/-- The retention iterator of the job, with the system clock's reading and the
sequence tracker's lookup. -/
def retentionIterator (currentSystemTs : Int) (findTs : Nat → Option Int) : RetentionIterator :=
  ⟨none, args.retentionMinSeq, args.isDestLastRun, args.compactionClockTick, currentSystemTs, findTs⟩

variable [DecidableEq K]

/-- The entries the compaction's writer receives from the merged sources. -/
def compactionOutput (mergeOperator : MergeOperator K V) (currentSystemTs : Int)
    (findTs : Nat → Option Int) (input : List (RowEntry K V)) :
    Except IteratorFailure (List (RowEntry K V)) :=
  match (args.mergeIterator mergeOperator).drain input with
  | .error e => .error (.error e)
  | .ok merged =>
    match (args.retentionIterator currentSystemTs findTs).drain merged with
    | .error message => .error (.panic message)
    | .ok out => .ok out

end CompactionJobArgs

variable [LinearOrder K]

theorem compactionOutput_preserves_reads (mergeOperator : MergeOperator K V)
    (hop : ∀ k, MergeFold.Lawful (mergeOperator.merge k)) (args : CompactionJobArgs)
    (currentSystemTs : Int) (findTs : Nat → Option Int) (input : List (RowEntry K V))
    (hin : SortedStream input) :
    ∃ out, args.compactionOutput mergeOperator currentSystemTs findTs input = .ok out ∧
      SortedStream out ∧
      ∀ k s, ProtectedRead args.retentionMinSeq input k s →
        resolve mergeOperator.merge k s out =
          resolve mergeOperator.merge k s (expire args.compactionClockTick input) := by
  obtain ⟨merged, hmerge, hsub, hreads⟩ := (args.mergeIterator mergeOperator).drain_spec hop input hin
  have hsorted : SortedStream merged := hin.of_keySeq_sublist hsub
  obtain ⟨out, hret, hsub', hreads'⟩ :=
    (args.retentionIterator currentSystemTs findTs).drain_spec rfl hsorted
  refine ⟨out, ?_, hin.of_keySeq_sublist (hsub'.trans hsub), fun k s hprot => ?_⟩
  · simp only [CompactionJobArgs.compactionOutput, hmerge, hret]
  · -- the merge iterator's output is protected where its input is
    have hprot' : ProtectedRead args.retentionMinSeq merged k s :=
      hprot.mono (exists_keySeq_of_sublist hsub)
    rw [hreads' mergeOperator.merge k s hprot']
    exact hreads rfl args.compactionClockTick k s hprot none

/-- Two operands over a value under a snapshot at `4`: the newer operand is
above the bound and stays apart, the older is folded into the value. -/
def counterInput : List (RowEntry Nat Nat) :=
  [⟨1, .merge 2, 5, none, none⟩, ⟨1, .merge 3, 4, none, none⟩, ⟨1, .value 10, 3, none, none⟩,
    ⟨2, .value 7, 2, none, some 0⟩]

theorem compactionOutput_preserves_reads_counter :
    ∃ out, (⟨some 4, true, 1⟩ : CompactionJobArgs).compactionOutput counterMergeOperator 0 (fun _ => none)
        counterInput = .ok out ∧ SortedStream out ∧
      ∀ k s, ProtectedRead (some 4) counterInput k s →
        resolve counterMergeOperator.merge k s out =
          resolve counterMergeOperator.merge k s (expire 1 counterInput) :=
  compactionOutput_preserves_reads counterMergeOperator counterMergeOperator_lawful ⟨some 4, true, 1⟩ 0
    (fun _ => none) counterInput (by decide)

end SlateDb
