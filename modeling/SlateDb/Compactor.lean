import SlateDb.MergeOperator
import SlateDb.Lib.Transition

/-!
# The compactor's state

The compactor keeps the LSM tree it manages and its compactions. A tiered
compaction spec names the sources it merges, L0 SST views and sorted runs of
the tree, and the id of the sorted run it writes. `add_compaction` registers a
spec, from the scheduler, an admin or a reloaded plan, checking only that no
active compaction writes the same destination. Starting it runs
`validate_compaction` against the tree as it is then, with the size-tiered
scheduler's own `validate`: the sources are consecutive in read order and the
destination is the lowest sorted run among them. Finishing it replaces the
sources by the output run, which holds what the sources held when the
compaction started.

The tree is kept at the level of versions: each source is the list of keys
and sequence numbers it holds. `RecencyInvariant` says that every version of
a key in a source is newer than every version of that key in a source read
after it.

`overlapping_compactions_break_recency`: two specs that share a sorted run are
each valid on their own, run at once, and after both finish the shared run's
versions are in two sources at once.
-/

namespace SlateDb

variable {K α : Type}

/-- An L0 SST view with the versions it holds, as keys with sequence numbers. -/
structure SstView (K : Type) where
  id : Nat
  versions : List (K × Nat)
  deriving DecidableEq, Repr

structure SortedRun (K : Type) where
  id : Nat
  versions : List (K × Nat)
  deriving DecidableEq, Repr

structure LsmTreeState (K : Type) where
  lastCompactedL0SstViewId : Option Nat
  l0 : List (SstView K)
  compacted : List (SortedRun K)
  deriving DecidableEq, Repr

namespace LsmTreeState

/-- Keeps the compactor's runs and watermark and the writer's L0 views down to
the last one the compactor absorbed. -/
def mergeWriterAndCompactor (writer compactor : LsmTreeState K) : LsmTreeState K :=
  let l0 := match compactor.lastCompactedL0SstViewId with
    | some id => writer.l0.takeWhile (·.id != id)
    | none => writer.l0
  ⟨compactor.lastCompactedL0SstViewId, l0, compactor.compacted⟩

/-- The versions of each source, in read order. -/
def sources (t : LsmTreeState K) : List (List (K × Nat)) :=
  t.l0.map (·.versions) ++ t.compacted.map (·.versions)

end LsmTreeState

/-- Every version of a key in a source is newer than every version of that key
in a source read after it. -/
def RecencyInvariant [DecidableEq K] (t : LsmTreeState K) : Prop :=
  t.sources.Pairwise (fun a b => ∀ v ∈ a, ∀ w ∈ b, v.1 = w.1 → w.2 < v.2)

instance [DecidableEq K] (t : LsmTreeState K) : Decidable (RecencyInvariant t) :=
  inferInstanceAs (Decidable (List.Pairwise _ _))

inductive SourceId where
  | sstView (id : Nat)
  | sortedRun (id : Nat)
  deriving DecidableEq, Repr

def SourceId.maybeUnwrapSstView : SourceId → Option Nat
  | .sstView id => some id
  | .sortedRun _ => none

def SourceId.maybeUnwrapSortedRun : SourceId → Option Nat
  | .sstView _ => none
  | .sortedRun id => some id

/-- A tiered compaction spec. -/
structure CompactionSpec where
  sources : List SourceId
  destination : Nat
  deriving DecidableEq, Repr

namespace CompactionSpec

variable (spec : CompactionSpec)

def hasL0Sources : Bool := spec.sources.any (·.maybeUnwrapSstView.isSome)

def hasSrSources : Bool := spec.sources.any (·.maybeUnwrapSortedRun.isSome)

end CompactionSpec

inductive CompactionStatus where
  | submitted
  | running
  | completed
  | failed
  deriving DecidableEq, Repr

def CompactionStatus.active : CompactionStatus → Bool
  | .submitted | .running => true
  | .completed | .failed => false

structure Compaction (K : Type) where
  id : Nat
  spec : CompactionSpec
  status : CompactionStatus
  /-- The versions of the sources when the compaction started, which the
  executor merges into the output run. -/
  input : List (K × Nat)
  deriving DecidableEq, Repr

/-- `windows(xs.len()).any(|w| w == xs)`: the elements of `xs` stand
consecutively in `l`. -/
def windowsAnyEq [DecidableEq α] (xs : List α) : List α → Bool
  | [] => false
  | y :: ys => (y :: ys).take xs.length == xs || windowsAnyEq xs ys

/-- The size-tiered scheduler's check of a spec against the tree: the sources
are consecutive in read order, and the destination is the lowest sorted run
among them. -/
def SizeTieredCompactionScheduler.validate (tree : LsmTreeState K) (spec : CompactionSpec) :
    Except SlateDBError Unit :=
  let sourcesLogicalOrder := tree.l0.map (SourceId.sstView ·.id) ++
    tree.compacted.map (SourceId.sortedRun ·.id)
  if !windowsAnyEq spec.sources sourcesLogicalOrder then .error .invalidCompaction
  else
    match (spec.sources.filterMap SourceId.maybeUnwrapSortedRun).min? with
    | some minSr => if spec.destination ≠ minSr then .error .invalidCompaction else .ok ()
    | none => .ok ()

/-- The loop of `finish_compaction` that puts the output run in id order and
drops the runs the compaction replaced. -/
def insertOutputSr (outputSr : SortedRun K) (compactionSrs : List Nat) :
    Bool → List (SortedRun K) → List (SortedRun K)
  | inserted, [] => if inserted then [] else [outputSr]
  | inserted, compacted :: rest =>
    let insertHere := !inserted && compacted.id ≤ outputSr.id
    (if insertHere then [outputSr] else []) ++
      (if compactionSrs.contains compacted.id then [] else [compacted]) ++
      insertOutputSr outputSr compactionSrs (inserted || insertHere) rest

/-- Sorted run ids strictly descending, as `finish_compaction` asserts. -/
def compactedInIdOrder (compacted : List (SortedRun K)) : Bool :=
  compacted.Pairwise (fun a b => b.id < a.id)

structure CompactorState (K : Type) where
  tree : LsmTreeState K
  compactions : List (Compaction K)
  maxConcurrentCompactions : Nat

namespace CompactorState

variable (s : CompactorState K)

def activeCompactions : List (Compaction K) := s.compactions.filter (·.status.active)

def runningCompactionCount : Nat := (s.compactions.filter (·.status == .running)).length

/-- Registers a compaction unless an active one writes the same destination. -/
def addCompaction (compaction : Compaction K) : Except SlateDBError (CompactorState K) :=
  if s.activeCompactions.any (·.spec.destination == compaction.spec.destination) then
    .error .invalidCompaction
  else .ok { s with compactions := s.compactions.filter (·.id != compaction.id) ++ [compaction] }

def updateCompaction (compactionId : Nat) (f : Compaction K → Compaction K) : CompactorState K :=
  { s with compactions := s.compactions.map fun c => if c.id = compactionId then f c else c }

def validateCompaction (spec : CompactionSpec) : Except SlateDBError Unit :=
  let l0ViewIds := s.tree.l0.map (·.id)
  let srIds := s.tree.compacted.map (·.id)
  if spec.sources.isEmpty then .error .invalidCompaction
  else if spec.sources.any (fun source => match source with
      | .sstView id => !l0ViewIds.contains id
      | .sortedRun id => !srIds.contains id) then .error .invalidCompaction
  -- an L0-only compaction writes a run above every existing one
  else if spec.hasL0Sources && !spec.hasSrSources &&
      spec.destination < (srIds.max?.map (· + 1)).getD 0 then .error .invalidCompaction
  -- a destination may only overwrite a run among the sources
  else if srIds.contains spec.destination && !spec.sources.contains (.sortedRun spec.destination) then
    .error .invalidCompaction
  -- at most one L0 compaction runs at a time
  else if spec.hasL0Sources &&
      s.compactions.any (fun c => c.status == .running && c.spec.hasL0Sources) then
    .error .invalidCompaction
  else SizeTieredCompactionScheduler.validate s.tree spec

/-- The versions a source holds now. -/
def sourceVersions : SourceId → List (K × Nat)
  | .sstView id => ((s.tree.l0.find? (·.id == id)).map (·.versions)).getD []
  | .sortedRun id => ((s.tree.compacted.find? (·.id == id)).map (·.versions)).getD []

/-- `start_submitted_compactions` for one submitted compaction: it waits while
the running ones fill the capacity, fails if it is not valid, and otherwise
runs on the sources as they are now. -/
def startSubmittedCompaction (compactionId : Nat) : Option (CompactorState K) :=
  match s.compactions.find? (·.id == compactionId) with
  | some c =>
    if c.status ≠ .submitted then none
    else if s.maxConcurrentCompactions ≤ s.runningCompactionCount then some s
    else
      match s.validateCompaction c.spec with
      | .error _ => some (s.updateCompaction compactionId ({ · with status := .failed }))
      | .ok () =>
        some (s.updateCompaction compactionId
          ({ · with status := .running, input := c.spec.sources.flatMap s.sourceVersions }))
  | none => none

/-- Replaces the compaction's sources by its output run; `none` where the
source asserts. -/
def finishCompaction (compactionId : Nat) (outputSr : SortedRun K) : Option (CompactorState K) :=
  match s.compactions.find? (·.id == compactionId) with
  | none => some s
  | some c =>
    let dst := c.spec.destination
    let compactionL0s := c.spec.sources.filterMap SourceId.maybeUnwrapSstView
    let compactionSrs :=
      (c.spec.sources ++ [SourceId.sortedRun dst]).filterMap SourceId.maybeUnwrapSortedRun
    let newL0 := s.tree.l0.filter (fun view => !compactionL0s.contains view.id)
    let newCompacted := insertOutputSr outputSr compactionSrs false s.tree.compacted
    -- the newest L0 source, which must come first, becomes the watermark
    let lastView := match c.spec.sources.head? with
      | some (.sstView viewId) => some viewId
      | _ => s.tree.lastCompactedL0SstViewId
    if !compactedInIdOrder newCompacted then none
    else some ({ s with tree := ⟨lastView, newL0, newCompacted⟩ }.updateCompaction compactionId
      ({ · with status := .completed }))

end CompactorState

inductive CompactorEvent (K : Type) where
  | addCompaction (compactionId : Nat) (spec : CompactionSpec)
  | startCompaction (compactionId : Nat)
  /-- The executor finishes a running compaction with the merge of its input. -/
  | finishCompaction (compactionId : Nat)
  /-- The writer's tree, its L0 with newer views in front, merged into the compactor's. -/
  | writerMerge (newViews : List (SstView K))

def CompactorState.step (s : CompactorState K) : CompactorEvent K → Option (CompactorState K)
  | .addCompaction compactionId spec =>
    match s.addCompaction ⟨compactionId, spec, .submitted, []⟩ with
    | .ok s' => some s'
    | .error _ => some s
  | .startCompaction compactionId => s.startSubmittedCompaction compactionId
  | .finishCompaction compactionId =>
    match s.compactions.find? (·.id == compactionId) with
    | some c =>
      if c.status == .running then s.finishCompaction compactionId ⟨c.spec.destination, c.input⟩
      else none
    | none => none
  | .writerMerge newViews =>
    let writer : LsmTreeState K := { s.tree with l0 := newViews ++ s.tree.l0 }
    some { s with tree := LsmTreeState.mergeWriterAndCompactor writer s.tree }

def CompactorState.system (tree : LsmTreeState K) (maxConcurrentCompactions : Nat) :
    Transition.System (CompactorState K) (CompactorEvent K) where
  init := (· = ⟨tree, [], maxConcurrentCompactions⟩)
  step s e s' := s.step e = some s'

/-- Three sorted runs holding versions `3`, `2` and `1` of one key. -/
def threeRuns : LsmTreeState Nat :=
  ⟨none, [], [⟨3, [(1, 3)]⟩, ⟨2, [(1, 2)]⟩, ⟨1, [(1, 1)]⟩]⟩

/-- Two specs sharing run `2`, both started before either finishes. -/
def overlappingCompactions : List (CompactorEvent Nat) :=
  [.addCompaction 0 ⟨[.sortedRun 3, .sortedRun 2], 2⟩,
    .addCompaction 1 ⟨[.sortedRun 2, .sortedRun 1], 1⟩,
    .startCompaction 1, .startCompaction 0, .finishCompaction 1, .finishCompaction 0]

theorem overlapping_compactions_break_recency :
    RecencyInvariant threeRuns ∧
      (Transition.System.runFrom CompactorState.step ⟨threeRuns, [], 4⟩ overlappingCompactions).map
        (fun s => decide (RecencyInvariant s.tree)) = some false := by
  decide

end SlateDb
