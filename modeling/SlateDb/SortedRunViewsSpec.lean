import SlateDb.SortedRunViews

/-!
# Finding the views of a sorted run that meet a range

On views whose start keys ascend, view `j` meets a nonempty range exactly
when two things hold (`intersectsAt_iff`): the range's end admits the view's
start key, which holds of a leading run of views, and the range's start lies
below the end of the view's slot, which holds from some view on. So the
views that meet a range form a window, and the binary searches and the walk
back of `table_idx_covering_range` and `point_table_idx_covering_key` return
exactly that window (`tableIdxCoveringRange_isWindow`,
`pointTableIdxCoveringKey_isWindow`), and the lookups return the views that
meet the range as one slice of the run.

When moreover no view holds a key past the next view's start key (`Ordered`),
a view that holds a key of the range meets it through its slot, so no lookup
and no scan misses a view that holds a key it asks for.
-/

namespace SlateDb

open SortedSearch KeyLine

variable {K : Type} [LinearOrder K]

namespace RunView

theorem startPos_effectiveRange (v : RunView K) :
    v.effectiveRange.startBound.startPos = point v.compactedEffectiveStartKey 1 := by
  rw [v.start_eq, Bound.startPos_included]

theorem start_le_endPos (v : RunView K) :
    point v.compactedEffectiveStartKey 1 ≤ v.effectiveRange.endBound.endPos := by
  rw [← startPos_effectiveRange]
  exact (BytesRange.nonEmpty_iff _).mp v.range_nonEmpty

theorem contains_start (v : RunView K) :
    v.effectiveRange.contains v.compactedEffectiveStartKey = true := by
  rw [BytesRange.contains_iff, startPos_effectiveRange]
  exact ⟨le_rfl, v.start_le_endPos⟩

/-- A view cut at `endBound` meets a range when the interval from its start
key to the cut meets the range. -/
theorem intersectsRange_iff (v : RunView K) (endBound : Bound K) (range : BytesRange K) :
    v.intersectsRange endBound range = true ↔
      max (point v.compactedEffectiveStartKey 1) range.startBound.startPos ≤
        min endBound.endPos range.endBound.endPos := by
  unfold intersectsRange
  split
  next sstRange hsst =>
    -- the cut view starts where the view starts
    have hstart := (BytesRange.intersect_eq_some hsst).1
    simp only [Bound.startPos_unbounded, bot_le, max_eq_right, startPos_effectiveRange] at hstart
    rw [BytesRange.isSome_intersect_iff, hstart]
  next hnone =>
    -- the cut view is empty only when the cut lies below the start key
    have hcut := BytesRange.isSome_intersect_iff ⟨.unbounded, endBound⟩ v.effectiveRange
    simp only [hnone, Option.isSome_none, Bool.false_eq_true, false_iff, Bound.startPos_unbounded,
      bot_le, max_eq_right, startPos_effectiveRange, le_min_iff, not_and] at hcut
    rw [Bool.false_eq_true, false_iff]
    intro h
    exact hcut ((le_max_left _ _).trans (h.trans (min_le_left _ _))) v.start_le_endPos

end RunView

namespace SortedRunViews

variable {views : List (RunView K)} {range : BytesRange K}

/-- The start keys of the views strictly ascend. -/
def StartsAscend (views : List (RunView K)) : Prop :=
  views.Pairwise fun a b => a.compactedEffectiveStartKey < b.compactedEffectiveStartKey

instance instDecidableStartsAscend (views : List (RunView K)) : Decidable (StartsAscend views) :=
  inferInstanceAs (Decidable (List.Pairwise _ _))

theorem StartsAscend.lt (hs : StartsAscend views) {i j : Nat} (hij : i < j) (hj : j < views.length) :
    views[i].compactedEffectiveStartKey < views[j].compactedEffectiveStartKey :=
  List.pairwise_iff_getElem.mp hs i j (by omega) hj hij

theorem StartsAscend.le (hs : StartsAscend views) {i j : Nat} (hij : i ≤ j) (hj : j < views.length) :
    views[i].compactedEffectiveStartKey ≤ views[j].compactedEffectiveStartKey := by
  rcases Nat.lt_or_eq_of_le hij with hij | rfl
  · exact (hs.lt hij hj).le
  · exact le_rfl

/-! ### The slot of a view -/

theorem tableEndBound_of_lt {idx : Nat} (h : idx + 1 < views.length) :
    tableEndBound views idx =
      if views[idx].effectiveRange.contains views[idx + 1].compactedEffectiveStartKey then
        .included views[idx + 1].compactedEffectiveStartKey
      else .excluded views[idx + 1].compactedEffectiveStartKey := by
  simp [tableEndBound, List.getElem?_eq_getElem (Nat.lt_of_succ_lt h), List.getElem?_eq_getElem h]

theorem tableEndBound_of_le {idx : Nat} (h : views.length ≤ idx + 1) :
    tableEndBound views idx = .unbounded := by
  unfold tableEndBound
  split
  next _ _ _ hnext =>
    have := (List.getElem?_eq_some_iff.mp hnext).1
    omega
  next => rfl

/-- A slot ends at the latest at the next view's start key. -/
theorem endPos_tableEndBound_le {idx : Nat} (h : idx + 1 < views.length) :
    (tableEndBound views idx).endPos ≤ point views[idx + 1].compactedEffectiveStartKey 1 := by
  rw [tableEndBound_of_lt h]
  split <;> simp

/-- A slot holds its view's start key. -/
theorem start_le_endPos_tableEndBound (hs : StartsAscend views) {idx : Nat} (h : idx < views.length) :
    point views[idx].compactedEffectiveStartKey 1 ≤ (tableEndBound views idx).endPos := by
  by_cases hnext : idx + 1 < views.length
  · have hlt := hs.lt (Nat.lt_succ_self idx) hnext
    rw [tableEndBound_of_lt hnext]
    split <;> simp [hlt, hlt.le]
  · rw [tableEndBound_of_le (by omega)]
    exact le_top

/-- Slots end in the order of their views. -/
theorem endPos_tableEndBound_mono (hs : StartsAscend views) {i j : Nat} (hij : i ≤ j)
    (hj : j < views.length) : (tableEndBound views i).endPos ≤ (tableEndBound views j).endPos := by
  rcases Nat.lt_or_eq_of_le hij with hij | rfl
  · calc (tableEndBound views i).endPos
        _ ≤ point views[i + 1].compactedEffectiveStartKey 1 := endPos_tableEndBound_le (by omega)
        _ ≤ point views[j].compactedEffectiveStartKey 1 := by simpa using hs.le hij hj
        _ ≤ (tableEndBound views j).endPos := start_le_endPos_tableEndBound hs hj
  · exact le_rfl

/-! ### Which views meet a range -/

theorem intersectsAt_of_le {idx : Nat} (h : views.length ≤ idx) : intersectsAt views range idx = false := by
  simp [intersectsAt, List.getElem?_eq_none h]

/-- View `j` meets a nonempty range when the range's start lies below the end
of its slot and the range's end admits its start key. -/
theorem intersectsAt_iff (hs : StartsAscend views) (hr : range.nonEmpty = true) {j : Nat}
    (hj : j < views.length) :
    intersectsAt views range j = true ↔
      range.startBound.startPos ≤ (tableEndBound views j).endPos ∧
        point views[j].compactedEffectiveStartKey 1 ≤ range.endBound.endPos := by
  simp only [intersectsAt, List.getElem?_eq_getElem hj, RunView.intersectsRange_iff, max_le_iff,
    le_min_iff]
  have hslot := start_le_endPos_tableEndBound hs hj
  have hrange := (BytesRange.nonEmpty_iff range).mp hr
  tauto

/-- Whether the range's end admits a view's start key. -/
def startWithinEnd (range : BytesRange K) (v : RunView K) : Bool :=
  decide (point v.compactedEffectiveStartKey 1 ≤ range.endBound.endPos)

theorem startWithinEnd_pairwise (hs : StartsAscend views) (range : BytesRange K) :
    views.Pairwise fun a b => startWithinEnd range b = true → startWithinEnd range a = true := by
  refine hs.imp fun {a b} hab hb => ?_
  simp only [startWithinEnd, decide_eq_true_eq] at hb ⊢
  exact le_trans (by simpa using hab.le) hb

/-- The views whose start key the range's end admits are those before the
partition point. -/
theorem startWithinEnd_iff (hs : StartsAscend views) {j : Nat} (hj : j < views.length) :
    point views[j].compactedEffectiveStartKey 1 ≤ range.endBound.endPos ↔
      j < partitionPoint (startWithinEnd range) views := by
  rw [← getElem_iff_lt_partitionPoint (startWithinEnd_pairwise hs range) hj, startWithinEnd,
    decide_eq_true_eq]

/-- The views that meet a range are a window that ends where the views that
start within its end do: a view before that point that meets the range is
followed by views that meet it, up to that point. -/
theorem intersectsAt_window (hs : StartsAscend views) (hr : range.nonEmpty = true) :
    (∀ i j, i ≤ j → j < partitionPoint (startWithinEnd range) views →
      intersectsAt views range i = true → intersectsAt views range j = true) ∧
    ∀ j, partitionPoint (startWithinEnd range) views ≤ j → intersectsAt views range j = false := by
  have hlen := partitionPoint_le_length (startWithinEnd range) views
  constructor
  · intro i j hij hjm hi
    have hjlen : j < views.length := by omega
    obtain ⟨hstart, -⟩ := (intersectsAt_iff hs hr (by omega)).mp hi
    exact (intersectsAt_iff hs hr hjlen).mpr
      ⟨hstart.trans (endPos_tableEndBound_mono hs hij hjlen), (startWithinEnd_iff hs hjlen).mpr hjm⟩
  · intro j hmj
    by_cases hj : j < views.length
    · rw [Bool.eq_false_iff]
      intro hjr
      have := (startWithinEnd_iff hs hj).mp ((intersectsAt_iff hs hr hj).mp hjr).2
      omega
    · exact intersectsAt_of_le (by omega)

/-- The index range `r` lies within the views and holds exactly the views
that meet `range`. -/
def IsWindow (views : List (RunView K)) (range : BytesRange K) (r : Nat × Nat) : Prop :=
  r.1 ≤ r.2 ∧ r.2 ≤ views.length ∧ ∀ j, intersectsAt views range j = true ↔ r.1 ≤ j ∧ j < r.2

theorem isWindow_zero (hnone : ∀ j, intersectsAt views range j = false) :
    IsWindow views range (0, 0) :=
  ⟨le_rfl, Nat.zero_le _, fun j => by simp [hnone j]⟩

/-- The walk back from `m₀` finds the window of views that meet the range,
when all views from `m₀` to the window's end meet it. -/
theorem isWindow_walkDown (hs : StartsAscend views) (hr : range.nonEmpty = true) {m₀ : Nat}
    (hm₀ : m₀ ≤ partitionPoint (startWithinEnd range) views)
    (hfrom : ∀ j, m₀ ≤ j → j < partitionPoint (startWithinEnd range) views →
      intersectsAt views range j = true) :
    IsWindow views range
      (walkDown (intersectsAt views range) m₀, partitionPoint (startWithinEnd range) views) :=
  ⟨(walkDown_le _).trans hm₀, partitionPoint_le_length _ _,
    walkDown_window hm₀ (intersectsAt_window hs hr).1 hfrom (intersectsAt_window hs hr).2⟩

/-- If the last view that starts within the range's end misses the range, no
view meets it. -/
theorem intersectsAt_eq_false (hs : StartsAscend views) (hr : range.nonEmpty = true)
    (hlast : intersectsAt views range (partitionPoint (startWithinEnd range) views - 1) = false)
    (j : Nat) : intersectsAt views range j = false := by
  rw [Bool.eq_false_iff]
  intro hj
  by_cases hjm : j < partitionPoint (startWithinEnd range) views
  · have := (intersectsAt_window hs hr).1 j (partitionPoint (startWithinEnd range) views - 1)
      (by omega) (by omega) hj
    rw [hlast] at this
    cases this
  · rw [(intersectsAt_window hs hr).2 j (by omega)] at hj
    cases hj

/-! ### `table_idx_covering_range` -/

theorem maxIdx_eq (hne : views ≠ []) (range : BytesRange K) :
    maxIdx views range =
      if partitionPoint (startWithinEnd range) views = 0 then none
      else some (partitionPoint (startWithinEnd range) views - 1) := by
  unfold maxIdx
  split
  next hi hend =>
    have hp : (fun sst : RunView K => decide (sst.compactedEffectiveStartKey ≤ hi)) =
        startWithinEnd range := by
      funext sst
      simp [startWithinEnd, hend]
    rw [hp]
  next hi hend =>
    have hp : (fun sst : RunView K => decide (sst.compactedEffectiveStartKey < hi)) =
        startWithinEnd range := by
      funext sst
      simp [startWithinEnd, hend]
    rw [hp]
  next hend =>
    -- every view starts within an unbounded end
    have hall : partitionPoint (startWithinEnd range) views = views.length := by
      rw [partitionPoint, List.takeWhile_eq_self_iff.mpr]
      intro sst _
      simp [startWithinEnd, hend]
    rw [hall, if_neg (by simpa using hne)]

/-- A start bound at `lo` admits the keys above `lo` and no key below it. -/
theorem startPos_of_lo {b : Bound K} (lo : K) (hb : b = .included lo ∨ b = .excluded lo) :
    point lo 1 ≤ b.startPos ∧ ∀ s, lo < s → b.startPos ≤ point s 1 := by
  rcases hb with rfl | rfl
  · exact ⟨by simp, fun s hs => by simpa using hs.le⟩
  · exact ⟨by simp, fun s hs => by simpa using hs⟩

theorem startCandidate_of_lo (lo : K) (hb : range.startBound = .included lo ∨ range.startBound = .excluded lo) :
    startCandidate views range =
      let p := partitionPoint (fun sst => decide (sst.compactedEffectiveStartKey ≤ lo)) views
      if p = 0 then none else some (p - 1) := by
  unfold startCandidate
  rcases hb with hb | hb <;> simp [hb]

theorem startCandidate_of_unbounded (hb : range.startBound = .unbounded) :
    startCandidate views range = none := by
  simp [startCandidate, hb]

/-- Where the walk back starts: at most the end of the window, and every view
from there to the end of the window meets the range. -/
theorem minIdx_spec (hs : StartsAscend views) (hr : range.nonEmpty = true)
    (hlast : intersectsAt views range (partitionPoint (startWithinEnd range) views - 1) = true) :
    minIdx views range ≤ partitionPoint (startWithinEnd range) views ∧
      ∀ j, minIdx views range ≤ j → j < partitionPoint (startWithinEnd range) views →
        intersectsAt views range j = true := by
  obtain ⟨hup, hbelow⟩ := intersectsAt_window hs hr
  have hlen := partitionPoint_le_length (startWithinEnd range) views
  have hm : 0 < partitionPoint (startWithinEnd range) views := by
    by_contra h0
    rw [hbelow _ (by omega)] at hlast
    cases hlast
  -- a view inside the window whose start key the range's start admits meets the range
  have hmeets : ∀ j (hj : j < partitionPoint (startWithinEnd range) views),
      range.startBound.startPos ≤ point views[j].compactedEffectiveStartKey 1 →
        intersectsAt views range j = true := fun j hj hstart =>
    (intersectsAt_iff hs hr (by omega)).mpr
      ⟨hstart.trans (start_le_endPos_tableEndBound hs _), (startWithinEnd_iff hs (by omega)).mpr hj⟩
  unfold minIdx
  cases hstart : range.startBound with
  | unbounded =>
    rw [startCandidate_of_unbounded hstart]
    exact ⟨Nat.zero_le _, fun j _ hj => hmeets j hj (by simp [hstart])⟩
  | included lo | excluded lo =>
    obtain ⟨hlo, habove⟩ := startPos_of_lo (b := range.startBound) lo (by simp [hstart])
    -- the views from the candidate on start above `lo`
    have hpp : ∀ {j} (hj : j < views.length), views[j].compactedEffectiveStartKey ≤ lo ↔
        j < partitionPoint (fun sst => decide (sst.compactedEffectiveStartKey ≤ lo)) views :=
      fun hj => by
        rw [← getElem_iff_lt_partitionPoint (hs.imp fun {a b} hab hb => by
          simp only [decide_eq_true_eq] at hb ⊢; exact hab.le.trans hb) hj, decide_eq_true_eq]
    have hafter : ∀ j (hj : j < partitionPoint (startWithinEnd range) views),
        partitionPoint (fun sst => decide (sst.compactedEffectiveStartKey ≤ lo)) views ≤ j →
          intersectsAt views range j = true := fun j hj hc => by
      have hlt : lo < views[j].compactedEffectiveStartKey := by
        exact lt_of_not_ge fun hle => absurd ((hpp (by omega)).mp hle) (by omega)
      exact hmeets j hj (habove _ hlt)
    rw [startCandidate_of_lo lo (by simp [hstart])]
    dsimp only
    set c := partitionPoint (fun sst => decide (sst.compactedEffectiveStartKey ≤ lo)) views
    by_cases hc : c = 0
    · simp only [hc, if_true]
      exact ⟨Nat.zero_le _, fun j _ hj => hafter j hj (by omega)⟩
    · simp only [hc, if_false]
      have hclen : c ≤ views.length := partitionPoint_le_length _ _
      have hidx : views[c - 1].compactedEffectiveStartKey ≤ lo := (hpp (by omega)).mpr (by omega)
      -- the candidate starts within the range's end, which lies at or above `lo`
      have hcand : c - 1 < partitionPoint (startWithinEnd range) views := by
        have hend := (BytesRange.nonEmpty_iff range).mp hr
        refine (startWithinEnd_iff hs (by omega)).mp (le_trans ?_ (hlo.trans hend))
        simpa using hidx
      split
      next hmeet =>
        exact ⟨by omega, fun j hj hjm => hup (c - 1) j hj hjm hmeet⟩
      next =>
        exact ⟨by omega, fun j hj hjm => hafter j hjm (by omega)⟩

/-- A run whose first two views share the boundary key 3. -/
def sampleViews : List (RunView Nat) :=
  [⟨⟨.included 1, .included 3⟩, 1, rfl, by decide⟩,
    ⟨⟨.included 3, .included 6⟩, 3, rfl, by decide⟩,
    ⟨⟨.included 8, .unbounded⟩, 8, rfl, by decide⟩]

theorem tableIdxCoveringRange_isWindow (hs : StartsAscend views) (hr : range.nonEmpty = true) :
    IsWindow views range (tableIdxCoveringRange views range) := by
  unfold tableIdxCoveringRange
  split
  next hnil =>
    rw [List.isEmpty_iff] at hnil
    subst hnil
    exact isWindow_zero fun j => intersectsAt_of_le (Nat.zero_le j)
  next hne =>
    rw [List.isEmpty_iff] at hne
    rw [maxIdx_eq hne]
    by_cases hm : partitionPoint (startWithinEnd range) views = 0
    · simp only [hm, if_true]
      exact isWindow_zero fun j => (intersectsAt_window hs hr).2 j (by omega)
    · simp only [hm, if_false]
      split
      next hlast => exact isWindow_zero (intersectsAt_eq_false hs hr (by simpa using hlast))
      next hlast =>
        have hlast : intersectsAt views range (partitionPoint (startWithinEnd range) views - 1) =
            true := by simpa using hlast
        obtain ⟨hmin, hfrom⟩ := minIdx_spec hs hr hlast
        rw [Nat.sub_add_cancel (Nat.pos_of_ne_zero hm)]
        exact isWindow_walkDown hs hr hmin hfrom

-- a range that starts just past the shared key leaves out the view that ends at it
example : tableIdxCoveringRange sampleViews ⟨.excluded 3, .excluded 8⟩ = (1, 2) := by decide

/-! ### `point_table_idx_covering_key` -/

theorem closed_nonEmpty (key : K) : (BytesRange.closed key key).nonEmpty = true := by
  simp [BytesRange.closed, BytesRange.nonEmpty]

theorem findLastSstWithRangeCoveringKey_eq (key : K) :
    findLastSstWithRangeCoveringKey views key =
      if partitionPoint (startWithinEnd (BytesRange.closed key key)) views = 0 then none
      else some (partitionPoint (startWithinEnd (BytesRange.closed key key)) views - 1) := by
  have hp : (fun sst : RunView K => decide (sst.compactedEffectiveStartKey ≤ key)) =
      startWithinEnd (BytesRange.closed key key) := by
    funext sst
    simp [startWithinEnd, BytesRange.closed]
  dsimp only [findLastSstWithRangeCoveringKey]
  rw [hp]
  by_cases h0 : partitionPoint (startWithinEnd (BytesRange.closed key key)) views = 0
  · simp [h0]
  · simp [h0, Nat.pos_of_ne_zero h0]

theorem pointTableIdxCoveringKey_isWindow (hs : StartsAscend views) (key : K) :
    IsWindow views (BytesRange.closed key key) (pointTableIdxCoveringKey views key) := by
  have hr := closed_nonEmpty key
  unfold pointTableIdxCoveringKey
  rw [findLastSstWithRangeCoveringKey_eq]
  by_cases hm : partitionPoint (startWithinEnd (BytesRange.closed key key)) views = 0
  · simp only [hm, if_true]
    exact isWindow_zero fun j => (intersectsAt_window hs hr).2 j (by omega)
  · simp only [hm, if_false]
    split
    next hlast => exact isWindow_zero (intersectsAt_eq_false hs hr (by simpa using hlast))
    next hlast =>
      have hlast : intersectsAt views (BytesRange.closed key key)
          (partitionPoint (startWithinEnd (BytesRange.closed key key)) views - 1) = true := by
        simpa using hlast
      rw [Nat.sub_add_cancel (Nat.pos_of_ne_zero hm)]
      -- the walk back starts at the last view of the window
      refine isWindow_walkDown hs hr (Nat.sub_le _ _) fun j hj hjm => ?_
      obtain rfl : j = partitionPoint (startWithinEnd (BytesRange.closed key key)) views - 1 := by
        omega
      exact hlast

-- both views that hold the shared key are read
example : pointTableIdxCoveringKey sampleViews 3 = (0, 2) := by decide

/-! ### The views a lookup returns -/

/-- Distinct positions hold distinct views. -/
theorem StartsAscend.getElem_inj (hs : StartsAscend views) {i j : Nat} (hi : i < views.length)
    (hj : j < views.length) (h : views[i] = views[j]) : i = j := by
  by_contra hne
  rcases Nat.lt_or_gt_of_ne hne with hlt | hlt
  · have hstart := hs.lt hlt hj
    rw [h] at hstart
    exact lt_irrefl _ hstart
  · have hstart := hs.lt hlt hi
    rw [h] at hstart
    exact lt_irrefl _ hstart

theorem sliceRange_of_isWindow {r : Nat × Nat} (hw : IsWindow views range r) :
    sliceRange views r = some (views.extract r.1 r.2) := by
  simp [sliceRange, hw.1, hw.2.1]

/-- A view lies in the slice of a window exactly when it meets the range. -/
theorem getElem_mem_extract_iff (hs : StartsAscend views) {r : Nat × Nat} (hw : IsWindow views range r)
    {j : Nat} (hj : j < views.length) :
    views[j] ∈ views.extract r.1 r.2 ↔ intersectsAt views range j = true := by
  obtain ⟨hle, hlen, hiff⟩ := hw
  rw [hiff j, List.extract_eq_take_drop, List.mem_iff_getElem]
  constructor
  · rintro ⟨k, hk, hkj⟩
    simp only [List.length_take, List.length_drop, lt_inf_iff] at hk
    simp only [List.getElem_take, List.getElem_drop] at hkj
    have := hs.getElem_inj (by omega) hj hkj
    omega
  · rintro ⟨hlo, hhi⟩
    refine ⟨j - r.1, by simp; omega, ?_⟩
    simp only [List.getElem_take, List.getElem_drop, Nat.add_sub_cancel' hlo]

theorem extract_isInfix (views : List (RunView K)) (lo hi : Nat) : views.extract lo hi <:+: views := by
  rw [List.extract_eq_take_drop]
  exact (List.take_prefix _ _).isInfix.trans (List.drop_suffix _ _).isInfix

theorem tablesCoveringRange_meeting (hs : StartsAscend views) (hr : range.nonEmpty = true) :
    ∃ tables, tablesCoveringRange views range = some tables ∧ tables <:+: views ∧
      ∀ j (hj : j < views.length), views[j] ∈ tables ↔ intersectsAt views range j = true := by
  have hw := tableIdxCoveringRange_isWindow hs hr
  refine ⟨_, ?_, extract_isInfix _ _ _, fun j hj => getElem_mem_extract_iff hs hw hj⟩
  rw [tablesCoveringRange, if_pos hr, sliceRange_of_isWindow hw]

theorem tablesCoveringRange_meeting_sample :
    StartsAscend sampleViews ∧ (BytesRange.mk (.excluded 3) (.excluded 8) : BytesRange Nat).nonEmpty = true ∧
      ∃ tables, tablesCoveringRange sampleViews ⟨.excluded 3, .excluded 8⟩ = some tables ∧
        tables <:+: sampleViews ∧ ∀ j (hj : j < sampleViews.length),
          sampleViews[j] ∈ tables ↔ intersectsAt sampleViews ⟨.excluded 3, .excluded 8⟩ j = true :=
  ⟨by decide, by decide, tablesCoveringRange_meeting (by decide) (by decide)⟩

theorem tablesCoveringPointKey_meeting (hs : StartsAscend views) (key : K) :
    ∃ tables, tablesCoveringPointKey views key = some tables ∧ tables <:+: views ∧
      ∀ j (hj : j < views.length),
        views[j] ∈ tables ↔ intersectsAt views (BytesRange.closed key key) j = true := by
  have hw := pointTableIdxCoveringKey_isWindow hs key
  exact ⟨_, sliceRange_of_isWindow hw, extract_isInfix _ _ _, fun j hj => getElem_mem_extract_iff hs hw hj⟩

theorem tablesCoveringPointKey_meeting_sample :
    StartsAscend sampleViews ∧
      ∃ tables, tablesCoveringPointKey sampleViews 3 = some tables ∧ tables <:+: sampleViews ∧
        ∀ j (hj : j < sampleViews.length),
          sampleViews[j] ∈ tables ↔ intersectsAt sampleViews (BytesRange.closed 3 3) j = true :=
  ⟨by decide, tablesCoveringPointKey_meeting (by decide) 3⟩

/-! ### No lookup misses a view that holds a key it asks for -/

/-- The views of a sorted run in key order: start keys strictly ascend, and
no view holds a key past the next view's start key. -/
structure Ordered (views : List (RunView K)) : Prop where
  starts : StartsAscend views
  within : ∀ i (h : i + 1 < views.length) x, views[i].effectiveRange.contains x = true →
    x ≤ views[i + 1].compactedEffectiveStartKey

theorem sampleViews_ordered : Ordered sampleViews where
  starts := by decide
  within i h x hx := by
    have hi : i = 0 ∨ i = 1 := by simp [sampleViews] at h; omega
    rcases hi with rfl | rfl <;> simp [sampleViews, BytesRange.contains] at hx ⊢ <;> omega

/-- A key of a view lies in the view's slot. -/
theorem Ordered.le_endPos_tableEndBound (ho : Ordered views) {j : Nat} (hj : j < views.length) {x : K}
    (hx : views[j].effectiveRange.contains x = true) :
    point x 1 ≤ (tableEndBound views j).endPos := by
  by_cases hnext : j + 1 < views.length
  · have hle := ho.within j hnext x hx
    rw [tableEndBound_of_lt hnext]
    split
    next => simpa using hle
    next hnot =>
      -- the view does not hold the next start key, so the key lies below it
      have hne : x ≠ views[j + 1].compactedEffectiveStartKey := fun heq => hnot (heq ▸ hx)
      simpa using lt_of_le_of_ne hle hne
  · rw [tableEndBound_of_le (by omega)]
    exact le_top

/-- A view that holds a key of a range meets the range. -/
theorem Ordered.intersectsAt_of_contains (ho : Ordered views) {j : Nat} (hj : j < views.length) {x : K}
    (hx : views[j].effectiveRange.contains x = true) (hxr : range.contains x = true) :
    intersectsAt views range j = true := by
  have hslot := ho.le_endPos_tableEndBound hj hx
  rw [BytesRange.contains_iff, RunView.startPos_effectiveRange] at hx
  rw [BytesRange.contains_iff] at hxr
  simp only [intersectsAt, List.getElem?_eq_getElem hj, RunView.intersectsRange_iff]
  exact (max_le hx.1 hxr.1).trans (le_min hslot hxr.2)

theorem tablesCoveringRange_complete (ho : Ordered views) (hr : range.nonEmpty = true) :
    ∃ tables, tablesCoveringRange views range = some tables ∧
      ∀ v ∈ views, ∀ x, v.effectiveRange.contains x = true → range.contains x = true → v ∈ tables := by
  have hw := tableIdxCoveringRange_isWindow ho.starts hr
  refine ⟨_, by rw [tablesCoveringRange, if_pos hr, sliceRange_of_isWindow hw], ?_⟩
  intro v hv x hx hxr
  obtain ⟨j, hj, rfl⟩ := List.getElem_of_mem hv
  exact (getElem_mem_extract_iff ho.starts hw hj).mpr (ho.intersectsAt_of_contains hj hx hxr)

theorem tablesCoveringRange_complete_sample :
    Ordered sampleViews ∧ (BytesRange.mk (.included 2) (.included 3) : BytesRange Nat).nonEmpty = true ∧
      ∃ tables, tablesCoveringRange sampleViews ⟨.included 2, .included 3⟩ = some tables ∧
        ∀ v ∈ sampleViews, ∀ x, v.effectiveRange.contains x = true →
          (BytesRange.mk (.included 2) (.included 3)).contains x = true → v ∈ tables :=
  ⟨sampleViews_ordered, by decide, tablesCoveringRange_complete sampleViews_ordered (by decide)⟩

theorem tablesCoveringPointKey_complete (ho : Ordered views) (key : K) :
    ∃ tables, tablesCoveringPointKey views key = some tables ∧
      ∀ v ∈ views, v.effectiveRange.contains key = true → v ∈ tables := by
  have hw := pointTableIdxCoveringKey_isWindow ho.starts key
  refine ⟨_, sliceRange_of_isWindow hw, fun v hv hkey => ?_⟩
  obtain ⟨j, hj, rfl⟩ := List.getElem_of_mem hv
  exact (getElem_mem_extract_iff ho.starts hw hj).mpr
    (ho.intersectsAt_of_contains hj hkey (by simp))

theorem tablesCoveringPointKey_complete_sample :
    Ordered sampleViews ∧ ∃ tables, tablesCoveringPointKey sampleViews 3 = some tables ∧
      ∀ v ∈ sampleViews, v.effectiveRange.contains 3 = true → v ∈ tables :=
  ⟨sampleViews_ordered, tablesCoveringPointKey_complete sampleViews_ordered 3⟩

/-- A key of any view lies below the end of the run's last view. -/
theorem Ordered.le_endPos_last (ho : Ordered views) {j : Nat} (hj : j < views.length) {x : K}
    (hx : views[j].effectiveRange.contains x = true) :
    point x 1 ≤ (views[views.length - 1].effectiveRange.endBound).endPos := by
  by_cases hlast : j + 1 < views.length
  · -- the key lies at most at the next view's start, which the last view holds
    have hle : x ≤ views[views.length - 1].compactedEffectiveStartKey :=
      (ho.within j hlast x hx).trans (ho.starts.le (by omega) (by omega))
    exact le_trans (by simpa using hle) (views[views.length - 1].start_le_endPos)
  · obtain rfl : j = views.length - 1 := by omega
    exact ((BytesRange.contains_iff _ _).mp hx).2

/-- A key of any view lies within the run's span, from the first view's
start to the last view's end. -/
theorem Ordered.span_contains (ho : Ordered views) {j : Nat} (hj : j < views.length) {x : K}
    (hx : views[j].effectiveRange.contains x = true) :
    (BytesRange.mk views[0].effectiveRange.startBound
      views[views.length - 1].effectiveRange.endBound).contains x = true := by
  have hstart := ho.starts.le (Nat.zero_le j) hj
  have hkey := ((BytesRange.contains_iff _ _).mp hx).1
  rw [RunView.startPos_effectiveRange] at hkey
  rw [BytesRange.contains_iff, RunView.startPos_effectiveRange]
  exact ⟨le_trans (by simpa using hstart) hkey, ho.le_endPos_last hj hx⟩

theorem overlapsRange_complete (ho : Ordered views) (range : BytesRange K) :
    ∃ b, overlapsRange views range = some b ∧
      ∀ v ∈ views, ∀ x, v.effectiveRange.contains x = true → range.contains x = true → b = true := by
  by_cases hnil : views = []
  · subst hnil
    exact ⟨false, rfl, fun v hv => absurd hv List.not_mem_nil⟩
  have hlen : 0 < views.length := List.length_pos_iff.mpr hnil
  -- the span holds the last view's start key, so it is nonempty
  have hspan := ho.span_contains (j := views.length - 1) (by omega)
    views[views.length - 1].contains_start
  unfold overlapsRange
  rw [List.head?_eq_getElem?, List.getLast?_eq_getElem?, List.getElem?_eq_getElem hlen,
    List.getElem?_eq_getElem (by omega)]
  simp only [BytesRange.nonEmpty_of_contains hspan, if_true]
  refine ⟨_, rfl, fun v hv x hx hxr => ?_⟩
  obtain ⟨j, hj, rfl⟩ := List.getElem_of_mem hv
  exact BytesRange.isSome_intersect_of_contains (ho.span_contains hj hx) hxr

theorem overlapsRange_complete_sample :
    Ordered sampleViews ∧ ∃ b, overlapsRange sampleViews ⟨.excluded 6, .excluded 8⟩ = some b ∧
      ∀ v ∈ sampleViews, ∀ x, v.effectiveRange.contains x = true →
        (BytesRange.mk (.excluded 6) (.excluded 8)).contains x = true → b = true :=
  ⟨sampleViews_ordered, overlapsRange_complete sampleViews_ordered _⟩

end SortedRunViews

end SlateDb
