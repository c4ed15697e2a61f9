import SlateDb.Compactor

/-!
# The size-tiered compaction scheduler

`SizeTieredCompactionScheduler::propose` (size_tiered_compaction.rs) plans
compactions of the compactor's tree. It proposes the oldest L0 views, at least
`min_compaction_sources` and at most `max_compaction_sources` of them, into a
fresh sorted run; failing that, the first series of consecutive sorted runs of
similar size that is long enough, into the last and lowest of them. A
`ConflictChecker` holds every source and destination of the active compactions
and of the picks so far, and a pick that touches one of them is dropped. A
`BackpressureChecker` holds back a pick whose output would join a full series
of similar runs. Picks go on, one at a time, until the active and proposed
compactions reach `max_concurrent_compactions` or nothing more is picked.
`maybe_schedule_compactions` (compactor.rs) adds the proposals, up to the
capacity the running compactions leave.

The tree is the root tree: the model has no segments. Sizes are the parameter
`estimateSize`. The size threshold is an `f32`, as in the source; no result
depends on its arithmetic. A panic is `none`: the `expect` on an empty series
of runs, which `min_compaction_sources = 0` reaches.
-/

namespace SlateDb

variable {K : Type}

def u32Max : Nat := 2 ^ 32 - 1

def u32SaturatingAdd (a b : Nat) : Nat := min (a + b) u32Max

structure CompactionSource where
  source : SourceId
  size : UInt64
  deriving DecidableEq, Repr

/-- `SourceId::unwrap_sorted_run`, which panics on an SST view. The scheduler
calls it only on the sources it built from sorted runs. -/
def SourceId.unwrapSortedRun (source : SourceId) : Nat := source.maybeUnwrapSortedRun.getD 0

/-- `ConflictChecker`: the sources and destinations in use, a `HashSet` as a
list. -/
structure ConflictChecker where
  sourcesUsed : List SourceId

namespace ConflictChecker

def addCompaction (checker : ConflictChecker) (compaction : CompactionSpec) : ConflictChecker :=
  ⟨checker.sourcesUsed ++ compaction.sources ++ [.sortedRun compaction.destination]⟩

def new (compactions : List CompactionSpec) : ConflictChecker := compactions.foldl addCompaction ⟨[]⟩

def checkCompaction (checker : ConflictChecker) (sources : List CompactionSource) (dst : Nat) : Bool :=
  sources.all (fun source => !checker.sourcesUsed.contains source.source) &&
    !checker.sourcesUsed.contains (.sortedRun dst)

end ConflictChecker

/-- `BackpressureChecker`, with the map from a sorted run to the longest series
of similar runs from it on. -/
structure BackpressureChecker where
  includeSizeThreshold : Float32
  maxCompactionSources : Nat
  longestCompactableRunsBySr : Nat → Option (List CompactionSource)

/-- Rejects a series whose output could be compacted with the next run while
that run already heads a full series. -/
def BackpressureChecker.checkCompaction (bp : BackpressureChecker) (sources : List CompactionSource)
    (nextSr : Option CompactionSource) : Bool :=
  let estimatedResultSize : UInt64 := (sources.map (·.size)).sum
  match nextSr with
  | some nextSr =>
    if nextSr.size ≤ (estimatedResultSize.toFloat32 * bp.includeSizeThreshold).toUInt64 then
      if bp.maxCompactionSources ≤
          ((bp.longestCompactableRunsBySr nextSr.source.unwrapSortedRun).map (·.length)).getD 0 then false
      else true
    else true
  | none => true

/-- `TreeState`: one tree's sources with the checks that gate its picks. -/
structure TreeState where
  l0 : List CompactionSource
  srs : List CompactionSource
  conflicts : ConflictChecker
  bp : BackpressureChecker

def TreeState.checkCompaction (tree : TreeState) (sources : List CompactionSource) (dst : Nat)
    (nextSr : Option CompactionSource) : Bool :=
  tree.conflicts.checkCompaction sources dst && tree.bp.checkCompaction sources nextSr

/-- The smallest size of the series once `src` joins it, or `none` where `src`
is bigger than the threshold times the smallest run so far. -/
def nextMinSz (sizeThreshold : Float32) (src : CompactionSource) : Option UInt64 → Option UInt64
  | some minSz => if src.size > (minSz.toFloat32 * sizeThreshold).toUInt64 then none else some (min minSz src.size)
  | none => some src.size

/-- The loop of `build_compactable_run` from one run on: runs join while they
are not too big; with a checker, the series stops before the first run at
which it fails the check. -/
def buildCompactableRunLoop (sizeThreshold : Float32) (checker : Option TreeState) :
    List CompactionSource → List CompactionSource → Option UInt64 → List CompactionSource
  | [], compactableRuns, _ => compactableRuns
  | src :: rest, compactableRuns, maybeMinSz =>
    match nextMinSz sizeThreshold src maybeMinSz with
    | none => compactableRuns
    | some minSz =>
      let compactableRuns := compactableRuns ++ [src]
      match checker with
      | some checker =>
        if !checker.checkCompaction compactableRuns src.source.unwrapSortedRun rest.head? then
          compactableRuns.dropLast
        else buildCompactableRunLoop sizeThreshold (some checker) rest compactableRuns (some minSz)
      | none => buildCompactableRunLoop sizeThreshold none rest compactableRuns (some minSz)

/-- `build_compactable_run`: the series of similar runs from `startIdx` on. -/
def buildCompactableRun (sizeThreshold : Float32) (sources : List CompactionSource) (startIdx : Nat)
    (checker : Option TreeState) : List CompactionSource :=
  buildCompactableRunLoop sizeThreshold checker (sources.drop startIdx) [] none

def BackpressureChecker.new (includeSizeThreshold : Float32) (maxCompactionSources : Nat)
    (srs : List CompactionSource) : BackpressureChecker where
  includeSizeThreshold := includeSizeThreshold
  maxCompactionSources := maxCompactionSources
  longestCompactableRunsBySr := srs.zipIdx.foldl (fun runs (sr, i) srId =>
    if srId = sr.source.unwrapSortedRun then some (buildCompactableRun includeSizeThreshold srs i none)
    else runs srId) fun _ => none

structure SizeTieredCompactionSchedulerOptions where
  minCompactionSources : Nat
  maxCompactionSources : Nat
  includeSizeThreshold : Float32

structure SizeTieredCompactionScheduler where
  options : SizeTieredCompactionSchedulerOptions
  maxConcurrentCompactions : Nat

namespace SizeTieredCompactionScheduler

variable (sched : SizeTieredCompactionScheduler)

/-- `Default`: at least four and at most eight sources, runs within four times
the smallest, four compactions at once. -/
def default : SizeTieredCompactionScheduler := ⟨⟨4, 8, 4.0⟩, 4⟩

def clampMin (sources : List CompactionSource) : Option (List CompactionSource) :=
  if sources.length < sched.options.minCompactionSources then none else some sources

/-- `clamp_max`: `pop_front` while the series is too long. -/
def clampMax (sources : List CompactionSource) : List CompactionSource :=
  sources.drop (sources.length - sched.options.maxCompactionSources)

/-- `create_compaction`, which reads nothing of the scheduler. -/
def createCompaction (sources : List CompactionSource) (dst : Nat) : CompactionSpec :=
  ⟨sources.map (·.source), dst⟩

/-- The loop of `pick_next_compaction` over the sorted runs: the first series,
from run `i` on, that is long enough. -/
def pickSrCompaction (tree : TreeState) : List Nat → Option (Option CompactionSpec)
  | [] => some none
  | i :: is =>
    match sched.clampMin (buildCompactableRun sched.options.includeSizeThreshold tree.srs i (some tree)) with
    | some compactableRun =>
      let compactableRun := sched.clampMax compactableRun
      match compactableRun.getLast? with
      | some last => some (some (createCompaction compactableRun last.source.unwrapSortedRun))
      -- the `expect` on a non-empty series
      | none => none
    | none => pickSrCompaction tree is

/-- `pick_next_compaction`: the oldest L0 views into a fresh run, else a series
of sorted runs; the pick and the next fresh id. -/
def pickNextCompaction (tree : TreeState) (nextFreshSrId : Nat) : Option (Option CompactionSpec × Nat) :=
  let pickSrs := (sched.pickSrCompaction tree (List.range tree.srs.length)).map (·, nextFreshSrId)
  match sched.clampMin tree.l0 with
  | some l0Candidates =>
    let l0Candidates := sched.clampMax l0Candidates
    let dst := nextFreshSrId
    if tree.checkCompaction l0Candidates dst tree.srs.head? then
      some (some (createCompaction l0Candidates dst), u32SaturatingAdd nextFreshSrId 1)
    else pickSrs
  | none => pickSrs

/-- The round-robin loop of `propose` over the one tree: a pick while the
budget, what `max_concurrent_compactions` leaves to the active and proposed
compactions, lasts; its sources are then in use. -/
def proposeLoop : (budget : Nat) → (tree : TreeState) → (nextFreshSrId : Nat) → (compactions : List CompactionSpec) →
    Option (List CompactionSpec)
  | 0, _, _, compactions => some compactions
  | budget + 1, tree, nextFreshSrId, compactions =>
    match sched.pickNextCompaction tree nextFreshSrId with
    | none => none
    | some (none, _) => some compactions
    | some (some compaction, nextFreshSrId) =>
      proposeLoop budget { tree with conflicts := tree.conflicts.addCompaction compaction } nextFreshSrId
        (compactions ++ [compaction])

end SizeTieredCompactionScheduler

/-- `compaction_sources`: the tree's L0 views and sorted runs with their sizes. -/
def compactionSources (estimateSize : SourceId → UInt64) (tree : LsmTreeState K) :
    List CompactionSource × List CompactionSource :=
  (tree.l0.map fun view => ⟨.sstView view.id, estimateSize (.sstView view.id)⟩,
    tree.compacted.map fun sr => ⟨.sortedRun sr.id, estimateSize (.sortedRun sr.id)⟩)

/-- `next_global_sr_id`: one above every sorted run and every active
compaction's destination. -/
def nextGlobalSrId (dbState : LsmTreeState K) (activeCompactions : List (Compaction K)) : Nat :=
  let maxCommitted := (dbState.compacted.map (·.id)).max?
  let maxInFlight := (activeCompactions.map (·.spec.destination)).max?
  match [maxCommitted, maxInFlight].reduceOption.max? with
  | some id => u32SaturatingAdd id 1
  | none => 0

namespace SizeTieredCompactionScheduler

variable (sched : SizeTieredCompactionScheduler)

/-- `propose` on the compactor's state. -/
def propose (estimateSize : SourceId → UInt64) (s : CompactorState K) : Option (List CompactionSpec) :=
  let activeCompactions := s.activeCompactions
  let (l0, srs) := compactionSources estimateSize s.tree
  let tree : TreeState := ⟨l0, srs, ConflictChecker.new (activeCompactions.map (·.spec)),
    BackpressureChecker.new sched.options.includeSizeThreshold sched.options.maxCompactionSources srs⟩
  sched.proposeLoop (sched.maxConcurrentCompactions - activeCompactions.length) tree
    (nextGlobalSrId s.tree activeCompactions) []

end SizeTieredCompactionScheduler

/-- One proposal of `maybe_schedule_compactions`, added as a new compaction;
the error of `add_compaction` only ends the closure. -/
def CompactorState.scheduleCompaction (s : CompactorState K) (spec : CompactionSpec) (id : Nat) :
    CompactorState K :=
  match s.addCompaction ⟨id, spec, .submitted, []⟩ with
  | .ok s' => s'
  | .error _ => s

/-- `maybe_schedule_compactions`: the proposals, up to the capacity the running
compactions leave, added under the ids `ids`. -/
def CompactorState.maybeScheduleCompactions (s : CompactorState K) (sched : SizeTieredCompactionScheduler)
    (estimateSize : SourceId → UInt64) (ids : List Nat) : Option (CompactorState K) :=
  let availableCapacity := sched.maxConcurrentCompactions - s.runningCompactionCount
  if availableCapacity = 0 then some s
  else
    (sched.propose estimateSize s).map fun specs =>
      ((specs.take availableCapacity).zip ids).foldl (fun s p => s.scheduleCompaction p.1 p.2) s

end SlateDb
