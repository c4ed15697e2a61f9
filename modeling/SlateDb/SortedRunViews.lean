import SlateDb.ComparableRange
import SlateDb.Lib.SortedSearch

/-!
# The views of a sorted run

A sorted run holds the views of its compacted SSTs in key order. Each view
owns a slot of the key space, from its start key up to the next view's start
key (`table_end_bound`), which it includes when both views hold that key.
A range read takes the views whose slot meets the range
(`tables_covering_range`): a binary search finds the last view that starts
within the range, another the view where the range starts, and a walk back
takes the views before it that still meet the range through a shared
boundary key. A point read does the same for one key
(`tables_covering_point_key`). A scan first skips a run whose span misses
the range (`overlaps_range`).
-/

namespace SlateDb

open SortedSearch

variable {K : Type} [LinearOrder K]

/-- An `SsTableView` of a compacted SST, by its effective range. That range
starts at an included key (`compacted_effective_start_key`) and is nonempty. -/
structure RunView (K : Type) [LinearOrder K] where
  effectiveRange : BytesRange K
  compactedEffectiveStartKey : K
  start_eq : effectiveRange.startBound = .included compactedEffectiveStartKey
  range_nonEmpty : effectiveRange.nonEmpty = true

/-- `SsTableView::intersects_range`: whether the view's effective range, cut
at `endBound`, meets `range`. -/
def RunView.intersectsRange (view : RunView K) (endBound : Bound K) (range : BytesRange K) : Bool :=
  match (BytesRange.mk .unbounded endBound).intersect view.effectiveRange with
  | some sstRange => ((BytesRange.mk sstRange.startBound endBound).intersect range).isSome
  | none => false

/-- `&v[lo..hi]`, which panics unless `lo ≤ hi ≤ v.len()`. -/
def sliceRange {α : Type} (v : List α) (r : Nat × Nat) : Option (List α) :=
  if r.1 ≤ r.2 ∧ r.2 ≤ v.length then some (v.extract r.1 r.2) else none

/-! The functions of `SortedRun` over its `sst_views`. -/

namespace SortedRunViews

variable (views : List (RunView K))

def findLastSstWithRangeCoveringKey (key : K) : Option Nat :=
  let firstSst := partitionPoint (fun sst => decide (sst.compactedEffectiveStartKey ≤ key)) views
  if firstSst > 0 then some (firstSst - 1) else none

def tableEndBound (idx : Nat) : Bound K :=
  match views[idx]?, views[idx + 1]? with
  | some currentSst, some nextSst =>
    if currentSst.effectiveRange.contains nextSst.compactedEffectiveStartKey then
      .included nextSst.compactedEffectiveStartKey
    else .excluded nextSst.compactedEffectiveStartKey
  | _, _ => .unbounded

/-- `sst_views[idx].intersects_range(self.table_end_bound(idx), range)`. -/
def intersectsAt (range : BytesRange K) (idx : Nat) : Bool :=
  match views[idx]? with
  | some sst => sst.intersectsRange (tableEndBound views idx) range
  | none => false

def pointTableIdxCoveringKey (key : K) : Nat × Nat :=
  match findLastSstWithRangeCoveringKey views key with
  | none => (0, 0)
  | some maxIdx =>
    let pointRange := BytesRange.closed key key
    if !intersectsAt views pointRange maxIdx then (0, 0)
    else (walkDown (intersectsAt views pointRange) maxIdx, maxIdx + 1)

/-- The `max_idx` of `table_idx_covering_range`: the last view whose start key
lies within the range's end bound. -/
def maxIdx (range : BytesRange K) : Option Nat :=
  match range.endBound with
  | .included hi =>
    let p := partitionPoint (fun sst => decide (sst.compactedEffectiveStartKey ≤ hi)) views
    if p = 0 then none else some (p - 1)
  | .excluded hi =>
    let p := partitionPoint (fun sst => decide (sst.compactedEffectiveStartKey < hi)) views
    if p = 0 then none else some (p - 1)
  | .unbounded => some (views.length - 1)

/-- The `start_candidate` of `table_idx_covering_range`: the last view that
starts at or before the range's start key. -/
def startCandidate (range : BytesRange K) : Option Nat :=
  match range.startBound with
  | .included lo | .excluded lo =>
    let p := partitionPoint (fun sst => decide (sst.compactedEffectiveStartKey ≤ lo)) views
    if p = 0 then none else some (p - 1)
  | .unbounded => none

/-- Where the walk back of `table_idx_covering_range` starts (`min_idx`). -/
def minIdx (range : BytesRange K) : Nat :=
  match startCandidate views range with
  | some idx => if intersectsAt views range idx then idx else idx + 1
  | none => 0

def tableIdxCoveringRange (range : BytesRange K) : Nat × Nat :=
  if views.isEmpty then (0, 0)
  else
    match maxIdx views range with
    | none => (0, 0)
    | some maxIdx =>
      if !intersectsAt views range maxIdx then (0, 0)
      else (walkDown (intersectsAt views range) (minIdx views range), maxIdx + 1)

/-- `tables_covering_range`, whose `BytesRange::new` panics on an empty range. -/
def tablesCoveringRange (range : BytesRange K) : Option (List (RunView K)) :=
  if range.nonEmpty then sliceRange views (tableIdxCoveringRange views range) else none

def tablesCoveringPointKey (key : K) : Option (List (RunView K)) :=
  sliceRange views (pointTableIdxCoveringKey views key)

/-- `overlaps_range`, whose `BytesRange::new` panics when the span from the
first view's start to the last view's end is empty. -/
def overlapsRange (range : BytesRange K) : Option Bool :=
  match views.head?, views.getLast? with
  | some first, some last =>
    let span : BytesRange K := ⟨first.effectiveRange.startBound, last.effectiveRange.endBound⟩
    if span.nonEmpty then some (span.intersect range).isSome else none
  | _, _ => some false

end SortedRunViews

end SlateDb
