import SlateDb.SegmentsSpec

/-!
# Selecting the segments of a range

A segment holds the keys that start with its prefix, its interval
`[prefix, prefix++)`. On segments sorted by prefix none of which extends
another, the segments wholly below a start bound are a leading run: those at
most the bound that the bound does not extend (`belowStart`). Of the segments
at most the bound, only the last can be extended by it, which is the test of
`overlapping_segment_indices` (`startOf_eq`). The segments whose prefix lies
before an end bound are a leading run too (`beforeEnd`). So the window
between the two partition points holds exactly the segments that overlap a
range that holds a key (`selectSegments_eq_overlapping`).

`BytesRange::new` also accepts ranges that hold no key, such as
`(Excluded [1], Excluded [1, 0])`; on such a range the window can hold a
segment that overlaps nothing (`selectSegments_keyless_range`).
-/

namespace SlateDb

open ListLex SortedSearch

variable {V : Type}

/-! ### The two sides of a range -/

/-- The start bound's side of `RangeBounds::contains`. -/
def startAdmits : Bound Bytes → Bytes → Bool
  | .included s, k => decide (s ≤ k)
  | .excluded s, k => decide (s < k)
  | .unbounded, _ => true

/-- The end bound's side of `RangeBounds::contains`. -/
def endAdmits : Bound Bytes → Bytes → Bool
  | .included e, k => decide (k ≤ e)
  | .excluded e, k => decide (k < e)
  | .unbounded, _ => true

theorem contains_eq (range : BytesRange Bytes) (k : Bytes) :
    range.contains k = (startAdmits range.startBound k && endAdmits range.endBound k) := by
  obtain ⟨startBound, endBound⟩ := range
  cases startBound <;> cases endBound <;> rfl

theorem endAdmits_of_le {b : Bound Bytes} {k k' : Bytes} (hk : k ≤ k') (h : endAdmits b k' = true) :
    endAdmits b k = true := by
  cases b with
  | included e => simpa [endAdmits] using hk.trans (by simpa [endAdmits] using h)
  | excluded e => simpa [endAdmits] using lt_of_le_of_lt hk (by simpa [endAdmits] using h)
  | unbounded => rfl

namespace ManifestCore

/-- A segment overlaps a range when one of its keys lies in it. -/
def Overlaps (range : BytesRange Bytes) (s : Segment V) : Prop :=
  ∃ k : Bytes, range.contains k = true ∧ s.prefixBytes <+: k

/-- Whether every key of the segment lies below the start bound. -/
def belowStart : Bound Bytes → Segment V → Bool
  | .included lo, s | .excluded lo, s => decide (s.prefixBytes ≤ lo) && !decide (s.prefixBytes <+: lo)
  | .unbounded, _ => false

/-- Whether the segment's prefix lies before the end bound. -/
def beforeEnd (b : Bound Bytes) (s : Segment V) : Bool := endAdmits b s.prefixBytes

variable {segments : List (Segment V)} {range : BytesRange Bytes}

/-! ### Which segments overlap -/

/-- A key at or after the start bound that a segment's prefix begins is not
below the bound. -/
theorem belowStart_eq_false {b : Bound Bytes} {s : Segment V} {k : Bytes}
    (hk : startAdmits b k = true) (hpk : s.prefixBytes <+: k) : belowStart b s = false := by
  rw [Bool.eq_false_iff]
  intro hbelow
  cases b with
  | unbounded => cases hbelow
  | included lo =>
    simp only [belowStart, Bool.and_eq_true, decide_eq_true_eq, Bool.not_eq_eq_eq_not, Bool.not_true,
      decide_eq_false_iff_not] at hbelow
    have hlo : lo ≤ k := by simpa [startAdmits] using hk
    exact not_lt_of_ge hlo (lt_of_isPrefix_of_not_isPrefix hbelow.1 hbelow.2 hpk)
  | excluded lo =>
    simp only [belowStart, Bool.and_eq_true, decide_eq_true_eq, Bool.not_eq_eq_eq_not, Bool.not_true,
      decide_eq_false_iff_not] at hbelow
    have hlo : lo < k := by simpa [startAdmits] using hk
    exact lt_asymm hlo (lt_of_isPrefix_of_not_isPrefix hbelow.1 hbelow.2 hpk)

/-- A segment below the start bound has its prefix below every key at or
after the bound. -/
theorem le_of_belowStart {b : Bound Bytes} {s : Segment V} {k : Bytes} (hbelow : belowStart b s = true)
    (hk : startAdmits b k = true) : s.prefixBytes ≤ k := by
  cases b with
  | unbounded => cases hbelow
  | included lo =>
    simp only [belowStart, Bool.and_eq_true, decide_eq_true_eq] at hbelow
    have hlo : lo ≤ k := by simpa [startAdmits] using hk
    exact hbelow.1.trans hlo
  | excluded lo =>
    simp only [belowStart, Bool.and_eq_true, decide_eq_true_eq] at hbelow
    have hlo : lo < k := by simpa [startAdmits] using hk
    exact hbelow.1.trans hlo.le

/-- On a range that holds a key, a segment neither below the start nor
beginning after the end overlaps it: through its own prefix, or through the
first key of the range when that key extends the prefix. -/
theorem overlaps_of_not_belowStart (hkey : ∃ k : Bytes, range.contains k = true) {s : Segment V}
    (hbelow : belowStart range.startBound s = false) (hend : beforeEnd range.endBound s = true) :
    Overlaps range s := by
  obtain ⟨k₀, hk₀⟩ := hkey
  rw [contains_eq, Bool.and_eq_true] at hk₀
  have hself : startAdmits range.startBound s.prefixBytes = true → Overlaps range s := fun hstart =>
    ⟨s.prefixBytes, by rw [contains_eq, hstart, Bool.true_and]; exact hend, List.prefix_refl _⟩
  obtain ⟨startBound, endBound⟩ := range
  cases startBound with
  | unbounded => exact hself rfl
  | included lo =>
    by_cases hp : s.prefixBytes ≤ lo
    · -- `lo` extends the prefix, and is in the range
      have hpre : s.prefixBytes <+: lo := by simpa [belowStart, hp] using hbelow
      have hlo : lo ≤ k₀ := by simpa [startAdmits] using hk₀.1
      refine ⟨lo, ?_, hpre⟩
      rw [contains_eq, Bool.and_eq_true]
      exact ⟨by simp [startAdmits], endAdmits_of_le hlo hk₀.2⟩
    · exact hself (by simpa [startAdmits] using (lt_of_not_ge hp).le)
  | excluded lo =>
    by_cases hp : s.prefixBytes ≤ lo
    · -- the key right after `lo` extends the prefix, and is in the range
      have hpre : s.prefixBytes <+: lo := by simpa [belowStart, hp] using hbelow
      have hlo : lo < k₀ := by simpa [startAdmits] using hk₀.1
      obtain ⟨next, hnext_eq⟩ : ∃ next : Bytes, next = List.append lo [0] := ⟨_, rfl⟩
      have hlo_next : lo <+: next := hnext_eq ▸ List.prefix_append lo [0]
      have hnext : next ≤ k₀ := hnext_eq ▸ append_le_of_lt (fun _ => UInt8.zero_le) hlo
      have hlt : lo < next := by
        rw [hnext_eq]
        exact lt_append_singleton 0 lo
      refine ⟨next, ?_, hpre.trans hlo_next⟩
      rw [contains_eq, Bool.and_eq_true]
      exact ⟨by simpa [startAdmits] using hlt, endAdmits_of_le hnext hk₀.2⟩
    · exact hself (by simpa [startAdmits] using lt_of_not_ge hp)

/-- On a range that holds a key, a segment overlaps it exactly when it is
neither below the start nor begins after the end. -/
theorem overlaps_iff (hkey : ∃ k : Bytes, range.contains k = true) (s : Segment V) :
    Overlaps range s ↔ belowStart range.startBound s = false ∧ beforeEnd range.endBound s = true := by
  constructor
  · rintro ⟨k, hk, hpk⟩
    rw [contains_eq, Bool.and_eq_true] at hk
    exact ⟨belowStart_eq_false hk.1 hpk, endAdmits_of_le (isPrefix_le hpk) hk.2⟩
  · rintro ⟨hbelow, hend⟩
    exact overlaps_of_not_belowStart hkey hbelow hend

/-! ### The window -/

/-- A segment below another that lies at most `lo` is not extended by `lo`:
else it would extend the other. -/
theorem not_isPrefix_of_prefixBytes_lt (hanti : IsAntichain (· <+: ·) (segmentPrefixes segments))
    {s t : Segment V} (hs : s ∈ segments) (ht : t ∈ segments) (hst : s.prefixBytes < t.prefixBytes)
    {lo : Bytes} (hlo : t.prefixBytes ≤ lo) : ¬s.prefixBytes <+: lo := fun hpre =>
  hanti ⟨s, hs, rfl⟩ ⟨t, ht, rfl⟩ (ne_of_lt hst) (isPrefix_of_le_of_le hpre hst.le hlo)

theorem stopOf_eq (b : Bound Bytes) : stopOf segments b = partitionPoint (beforeEnd b) segments := by
  cases b with
  | unbounded =>
    rw [stopOf, partitionPoint, (List.takeWhile_eq_self_iff (p := beforeEnd .unbounded)).mpr fun _ _ => rfl]
  | excluded hi | included hi => rfl

/-- The selected segments are a contiguous run of the manifest's. -/
theorem selectSegments_infix (tree : List (List (RowEntry Bytes V))) (hne : segments ≠ []) :
    selectSegments tree segments range <:+: segments := by
  rw [selectSegments, if_neg (by simpa using hne)]
  exact (List.take_prefix _ _).isInfix.trans (List.drop_suffix _ _).isInfix

section Sorted

variable (hsorted : SegmentsSorted segments) (hanti : IsAntichain (· <+: ·) (segmentPrefixes segments))
include hsorted

/-- The segments before the end bound are a leading run. -/
theorem beforeEnd_pairwise (b : Bound Bytes) :
    segments.Pairwise fun s t => beforeEnd b t = true → beforeEnd b s = true :=
  hsorted.imp fun hst => endAdmits_of_le hst.le

/-- The segments at most `lo` are a leading run. -/
theorem le_pairwise (lo : Bytes) :
    segments.Pairwise fun s t => decide (t.prefixBytes ≤ lo) = true → decide (s.prefixBytes ≤ lo) = true :=
  hsorted.imp fun hst hlt => by simpa using hst.le.trans (by simpa using hlt)

include hanti

/-- The segments below the start bound are a leading run. -/
theorem belowStart_pairwise (b : Bound Bytes) :
    segments.Pairwise fun s t => belowStart b t = true → belowStart b s = true := by
  refine hsorted.imp_of_mem fun {s t} hs ht hst hbt => ?_
  cases b with
  | unbounded => cases hbt
  | included lo | excluded lo =>
    simp only [belowStart, Bool.and_eq_true, decide_eq_true_eq, Bool.not_eq_eq_eq_not, Bool.not_true,
      decide_eq_false_iff_not] at hbt ⊢
    exact ⟨hst.le.trans hbt.1, not_isPrefix_of_prefixBytes_lt hanti hs ht hst hbt.1⟩

/-- Past the segments below `lo`, at most one segment is at most `lo` and
extended by it. -/
theorem length_extendedAt_le_one (lo : Bytes) :
    ((segments.dropWhile (belowStart (.included lo))).takeWhile
      fun s => decide (s.prefixBytes ≤ lo)).length ≤ 1 := by
  have hmem := fun {x : Segment V} => mem_takeWhile_dropWhile (x := x)
    (belowStart_pairwise hsorted hanti (.included lo)) (le_pairwise hsorted lo)
  have hsub : ((segments.dropWhile (belowStart (.included lo))).takeWhile
      fun s => decide (s.prefixBytes ≤ lo)).Sublist segments :=
    (List.takeWhile_sublist _).trans (List.dropWhile_suffix _).sublist
  generalize ((segments.dropWhile (belowStart (.included lo))).takeWhile
      fun s => decide (s.prefixBytes ≤ lo)) = R at hmem hsub ⊢
  rcases R with _ | ⟨x, _ | ⟨y, rest⟩⟩
  · simp
  · simp
  · -- two segments that `lo` extends nest, so they are one
    exfalso
    have hx := hmem.mp List.mem_cons_self
    have hy := hmem.mp (List.mem_cons_of_mem x List.mem_cons_self)
    have hxy : x.prefixBytes < y.prefixBytes :=
      List.rel_of_pairwise_cons (hsorted.sublist hsub) List.mem_cons_self
    simp only [belowStart, hx.2.2, Bool.true_and, Bool.not_eq_eq_eq_not, Bool.not_false,
      decide_eq_true_eq] at hx
    simp only [belowStart, hy.2.2, Bool.true_and, Bool.not_eq_eq_eq_not, Bool.not_false,
      decide_eq_true_eq] at hy
    exact ne_of_lt hxy (eq_of_isPrefix_of_isPrefix hanti ⟨x, hx.1, rfl⟩ ⟨y, hy.1, rfl⟩ hx.2.1 hy.2.1)

/-- From a start key, the window begins after the segments below it. -/
theorem startOf_included (lo : Bytes) :
    startOf segments (.included lo) = partitionPoint (belowStart (.included lo)) segments := by
    -- the segments at most `lo` are those below it, then at most one that `lo` extends
    have hle : ∀ s ∈ segments, belowStart (.included lo) s = true → decide (s.prefixBytes ≤ lo) = true :=
      fun s _ h => by
        simp only [belowStart, Bool.and_eq_true] at h
        exact h.1
    have hafter : partitionPoint (fun s : Segment V => decide (s.prefixBytes ≤ lo)) segments =
        partitionPoint (belowStart (.included lo)) segments +
          ((segments.dropWhile (belowStart (.included lo))).takeWhile
            fun s => decide (s.prefixBytes ≤ lo)).length := by
      rw [partitionPoint, takeWhile_eq_append hle, List.length_append, ← partitionPoint]
    have hmem := fun {x : Segment V} => mem_takeWhile_dropWhile (x := x)
      (belowStart_pairwise hsorted hanti (.included lo)) (le_pairwise hsorted lo)
    have hbound := length_extendedAt_le_one hsorted hanti lo
    unfold startOf
    dsimp only
    rw [hafter]
    generalize hR : ((segments.dropWhile (belowStart (.included lo))).takeWhile
      fun s => decide (s.prefixBytes ≤ lo)) = R at hmem hbound
    rcases R with _ | ⟨x, _ | ⟨y, rest⟩⟩
    · -- the last segment at most `lo` is below it, so `lo` does not extend it
      rw [List.length_nil, Nat.add_zero, if_neg]
      rintro ⟨hpos, hany⟩
      have hidx : partitionPoint (belowStart (.included lo)) segments - 1 <
          (segments.takeWhile (belowStart (.included lo))).length := by
        rw [partitionPoint] at hpos ⊢
        omega
      rw [← List.getElem?_take_of_lt (j := partitionPoint (belowStart (.included lo)) segments)
        (by omega), take_partitionPoint, List.getElem?_eq_getElem hidx] at hany
      have hbelow := List.mem_takeWhile_imp (List.getElem_mem hidx)
      simp only [Option.any_some, decide_eq_true_eq] at hany
      simp [belowStart, hany] at hbelow
    · -- that one segment is the next after those below `lo`, and `lo` extends it
      have hx := hmem.mp List.mem_cons_self
      have hhead : (segments.dropWhile (belowStart (.included lo)))[0]? = some x := by
        have hne : segments.dropWhile (belowStart (.included lo)) ≠ [] := fun h => by
          simp [h] at hR
        obtain ⟨d, ds, hd⟩ := List.exists_cons_of_ne_nil hne
        rw [hd, List.takeWhile_cons] at hR
        rw [hd, List.getElem?_cons_zero]
        split at hR
        · rw [List.cons.injEq] at hR
          rw [hR.1]
        · cases hR
      have hidx : segments[partitionPoint (belowStart (.included lo)) segments]? = some x := by
        rw [← drop_partitionPoint, List.getElem?_drop, Nat.add_zero] at hhead
        exact hhead
      simp only [List.length_singleton, Nat.add_sub_cancel, hidx, Option.any_some]
      rw [if_pos ⟨Nat.succ_pos _, by simpa [belowStart, hx.2.2] using hx.2.1⟩]
    · exact absurd hbound (by simp)

/-- The start of the window is the number of segments below the start bound. -/
theorem startOf_eq (b : Bound Bytes) : startOf segments b = partitionPoint (belowStart b) segments := by
  cases b with
  | unbounded =>
    simp only [startOf, partitionPoint]
    cases segments <;> rfl
  | included lo => exact startOf_included hsorted hanti lo
  | excluded lo => exact startOf_included hsorted hanti lo

/-- On a range that holds a key, the selected segments are those past the
segments below the start, up to the first that begins after the end. -/
theorem selectSegments_window (tree : List (List (RowEntry Bytes V))) (hne : segments ≠ [])
    (hkey : ∃ k : Bytes, range.contains k = true) :
    selectSegments tree segments range =
      (segments.dropWhile (belowStart range.startBound)).takeWhile (beforeEnd range.endBound) := by
  -- a segment below the start lies below the range's key, so before the end
  have himp : ∀ s ∈ segments, belowStart range.startBound s = true → beforeEnd range.endBound s = true := by
    obtain ⟨k, hk⟩ := hkey
    rw [contains_eq, Bool.and_eq_true] at hk
    intro s _ hbelow
    exact endAdmits_of_le (le_of_belowStart hbelow hk.1) hk.2
  have hstop : partitionPoint (beforeEnd range.endBound) segments =
      partitionPoint (belowStart range.startBound) segments +
        ((segments.dropWhile (belowStart range.startBound)).takeWhile (beforeEnd range.endBound)).length := by
    rw [partitionPoint, takeWhile_eq_append himp, List.length_append, ← partitionPoint]
  rw [selectSegments, if_neg (by simpa using hne), overlappingSegmentIndices, startOf_eq hsorted hanti,
    stopOf_eq]
  by_cases hlt : partitionPoint (belowStart range.startBound) segments <
      partitionPoint (beforeEnd range.endBound) segments
  · rw [if_pos hlt]
    exact slice_partitionPoint himp
  · -- the window is empty
    rw [if_neg hlt]
    have hnil : (segments.dropWhile (belowStart range.startBound)).takeWhile (beforeEnd range.endBound) = [] :=
      List.eq_nil_of_length_eq_zero (by omega)
    rw [hnil]
    rfl

theorem selectSegments_eq_overlapping (tree : List (List (RowEntry Bytes V))) (range : BytesRange Bytes) :
    (segments = [] → selectSegments tree segments range = [⟨[], tree⟩]) ∧
    (segments ≠ [] →
      selectSegments tree segments range <:+: segments ∧
      SegmentsSorted (selectSegments tree segments range) ∧
      (∀ k : Bytes, range.contains k = true → ∀ s ∈ segments, s.prefixBytes <+: k →
        s ∈ selectSegments tree segments range) ∧
      ((∃ k : Bytes, range.contains k = true) →
        ∀ s, s ∈ selectSegments tree segments range ↔ s ∈ segments ∧ Overlaps range s)) := by
  refine ⟨fun hnil => by rw [hnil]; rfl, fun hne => ?_⟩
  have hrun : selectSegments tree segments range <:+: segments := selectSegments_infix tree hne
  -- on a range that holds a key, the window is the overlapping segments
  have hmem : (∃ k : Bytes, range.contains k = true) →
      ∀ s, s ∈ selectSegments tree segments range ↔ s ∈ segments ∧ Overlaps range s := by
    intro hkey s
    rw [selectSegments_window hsorted hanti tree hne hkey, overlaps_iff hkey,
      mem_takeWhile_dropWhile (belowStart_pairwise hsorted hanti _) (beforeEnd_pairwise hsorted _)]
  refine ⟨hrun, hsorted.sublist hrun.sublist, ?_, hmem⟩
  intro k hk s hs hpk
  exact (hmem ⟨k, hk⟩ s).mpr ⟨hs, k, hk, hpk⟩

end Sorted

/-- Three segments, one of them two bytes long. -/
def sampleSegments : List (Segment Nat) := [⟨[1], []⟩, ⟨[2, 5], []⟩, ⟨[3], []⟩]

theorem selectSegments_sample_overlapping :
    SegmentsSorted sampleSegments ∧ IsAntichain (· <+: ·) (segmentPrefixes sampleSegments) ∧
      ∀ s, s ∈ selectSegments [] sampleSegments ⟨.included [2], .excluded [3]⟩ ↔
        s ∈ sampleSegments ∧ Overlaps ⟨.included [2], .excluded [3]⟩ s := by
  have hpw : (sampleSegments.map (·.prefixBytes)).Pairwise (· < ·) := by decide
  have hchain : (sampleSegments.map (·.prefixBytes)).IsChain fun a b => ¬a <+: b := by decide
  have hsorted : SegmentsSorted sampleSegments := (segmentsSorted_iff _).mpr hpw
  have hanti : IsAntichain (· <+: ·) (segmentPrefixes sampleSegments) := by
    rw [segmentPrefixes_eq]
    exact isAntichain_of_isChain hpw hchain
  have hne : sampleSegments ≠ [] := by simp [sampleSegments]
  exact ⟨hsorted, hanti,
    ((selectSegments_eq_overlapping hsorted hanti [] _).2 hne).2.2.2 ⟨[2], by decide⟩⟩

/-- The range after [1] and before [1, 0]. -/
def keylessRange : BytesRange Bytes := ⟨.excluded [1], .excluded [1, 0]⟩

/-- The range after [1] and before [1, 0] passes the check of
BytesRange::new yet holds no key: every key after [1] extends it, so is at
least [1, 0]. The segment [1] is still selected for it. -/
theorem selectSegments_keyless_range :
    keylessRange.nonEmpty = true ∧
    selectSegments [] [⟨[1], []⟩] keylessRange = [(⟨[1], []⟩ : Segment Nat)] ∧
    ∀ k : Bytes, keylessRange.contains k = false := by
  refine ⟨by decide, by decide, fun k => ?_⟩
  rw [contains_eq, Bool.and_eq_false_iff]
  by_cases hk : ([1] : Bytes) < k
  · right
    have hle : ([1, 0] : Bytes) ≤ k := append_le_of_lt (fun _ => UInt8.zero_le) hk
    simp only [keylessRange, endAdmits, decide_eq_false_iff_not]
    exact not_lt_of_ge hle
  · left
    simp only [keylessRange, startAdmits, decide_eq_false_iff_not]
    exact hk

end ManifestCore

end SlateDb
