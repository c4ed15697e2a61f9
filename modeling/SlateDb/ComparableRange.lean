import SlateDb.Types

/-!
# Comparable ranges

`ComparableRange` orders start bounds and end bounds by `cmp_bound` and
intersects two ranges by the greater start and the lesser end.

To reason about them we place every bound on a line of keys. A key `k` is
the point `(k, 1)`; an excluded start sits just above it at `(k, 2)`, an
excluded end just below it at `(k, 0)`, and the unbounded sides are the ends
of the line. Then `cmp_bound` is the order of the line
(`cmpBound_start_ne_gt_iff`, `cmpBound_end_ne_gt_iff`), a range holds the
keys between its two points (`BytesRange.contains_iff`), it is nonempty when
its start is not past its end (`BytesRange.nonEmpty_iff`), and the
intersection runs from the greater start to the lesser end
(`BytesRange.intersect_eq_some`).
-/

namespace SlateDb

variable {K : Type} [LinearOrder K]

/-- `cmp_bound`: start bounds (`start`) ordered by where they start, end
bounds by where they end; an unbounded side is the least start and the
greatest end. -/
def cmpBound : Bound K → Bound K → Bool → Ordering
  | .included a, .included b, _ => compare a b
  | .excluded a, .excluded b, _ => compare a b
  | .included a, .excluded b, start =>
    match compare a b with
    | .eq => if start then .lt else .gt
    | other => other
  | .excluded a, .included b, start =>
    match compare a b with
    | .eq => if start then .gt else .lt
    | other => other
  | .unbounded, .unbounded, _ => .eq
  | .unbounded, _, start => if start then .lt else .gt
  | _, .unbounded, start => if start then .gt else .lt

namespace Bound

/-- `max` of two `StartBound`s: the second unless the first is greater. -/
def maxStart (a b : Bound K) : Bound K :=
  match cmpBound a b true with
  | .gt => a
  | _ => b

/-- `min` of two `EndBound`s: the first unless it is greater. -/
def minEnd (a b : Bound K) : Bound K :=
  match cmpBound a b false with
  | .gt => b
  | _ => a

end Bound

namespace BytesRange

/-- `ComparableRange::intersect`, which `BytesRange::intersect` wraps. -/
def intersect (r s : BytesRange K) : Option (BytesRange K) :=
  let intersection : BytesRange K :=
    ⟨r.startBound.maxStart s.startBound, r.endBound.minEnd s.endBound⟩
  if intersection.nonEmpty then some intersection else none

end BytesRange

/-! ### The line of keys -/

/-- The line the bounds sit on. -/
abbrev KeyLine (K : Type) := WithBot (WithTop (K ×ₗ ℕ))

section Points

variable {K : Type}

/-- The point `(k, i)` of the line. -/
def KeyLine.point (k : K) (i : ℕ) : KeyLine K := ((toLex (k, i) : K ×ₗ ℕ) : WithTop (K ×ₗ ℕ))

@[simp] theorem KeyLine.point_ne_bot {k : K} {i : ℕ} : KeyLine.point k i ≠ ⊥ := by
  simp [KeyLine.point]

@[simp] theorem KeyLine.point_ne_top {k : K} {i : ℕ} : KeyLine.point k i ≠ ⊤ := by
  simp [KeyLine.point]

namespace Bound

/-- Where a start bound starts. -/
def startPos : Bound K → KeyLine K
  | .included k => KeyLine.point k 1
  | .excluded k => KeyLine.point k 2
  | .unbounded => ⊥

/-- Where an end bound ends. -/
def endPos : Bound K → KeyLine K
  | .included k => KeyLine.point k 1
  | .excluded k => KeyLine.point k 0
  | .unbounded => ⊤

@[simp] theorem startPos_included (k : K) : (included k).startPos = KeyLine.point k 1 := rfl
@[simp] theorem startPos_excluded (k : K) : (excluded k).startPos = KeyLine.point k 2 := rfl
@[simp] theorem startPos_unbounded : (unbounded : Bound K).startPos = ⊥ := rfl
@[simp] theorem endPos_included (k : K) : (included k).endPos = KeyLine.point k 1 := rfl
@[simp] theorem endPos_excluded (k : K) : (excluded k).endPos = KeyLine.point k 0 := rfl
@[simp] theorem endPos_unbounded : (unbounded : Bound K).endPos = ⊤ := rfl

end Bound

end Points

@[simp] theorem KeyLine.point_le_point {k k' : K} {i i' : ℕ} :
    KeyLine.point k i ≤ KeyLine.point k' i' ↔ if i ≤ i' then k ≤ k' else k < k' := by
  simp only [KeyLine.point, WithBot.coe_le_coe, WithTop.coe_le_coe, Prod.Lex.toLex_le_toLex]
  split
  next hi =>
    simp only [hi, and_true]
    exact le_iff_lt_or_eq.symm
  next hi => simp only [hi, and_false, or_false]

open KeyLine

/-! ### `cmp_bound` is the order of the line -/

theorem cmpBound_start_ne_gt_iff (a b : Bound K) :
    cmpBound a b true ≠ .gt ↔ a.startPos ≤ b.startPos := by
  cases a <;> cases b <;> simp only [cmpBound, Bound.startPos, if_true]
  case included.included a b | excluded.excluded a b => simp [compare_le_iff_le]
  case included.excluded a b =>
    -- an included start is below the excluded start at the same key
    split
    next h => simp [compare_eq_iff_eq.mp h]
    next h => simp [compare_le_iff_le]
  case excluded.included a b =>
    split
    next h => simp [compare_eq_iff_eq.mp h]
    next h =>
      rw [compare_le_iff_le, point_le_point, if_neg (by omega)]
      exact ⟨fun hab => lt_of_le_of_ne hab fun heq => h (compare_eq_iff_eq.mpr heq), le_of_lt⟩
  all_goals simp

theorem cmpBound_end_ne_gt_iff (a b : Bound K) :
    cmpBound a b false ≠ .gt ↔ a.endPos ≤ b.endPos := by
  cases a <;> cases b <;> simp only [cmpBound, Bound.endPos, Bool.false_eq_true, if_false]
  case included.included a b | excluded.excluded a b => simp [compare_le_iff_le]
  case included.excluded a b =>
    -- an included end is above the excluded end at the same key
    split
    next h => simp [compare_eq_iff_eq.mp h]
    next h =>
      rw [compare_le_iff_le, point_le_point, if_neg (by omega)]
      exact ⟨fun hab => lt_of_le_of_ne hab fun heq => h (compare_eq_iff_eq.mpr heq), le_of_lt⟩
  case excluded.included a b =>
    split
    next h => simp [compare_eq_iff_eq.mp h]
    next h => simp [compare_le_iff_le]
  all_goals simp

namespace Bound

@[simp] theorem startPos_maxStart (a b : Bound K) :
    (a.maxStart b).startPos = max a.startPos b.startPos := by
  unfold maxStart
  split
  next h =>
    have hba : b.startPos < a.startPos :=
      lt_of_not_ge fun hab => (cmpBound_start_ne_gt_iff a b).mpr hab h
    exact (max_eq_left hba.le).symm
  next h =>
    have hab : a.startPos ≤ b.startPos := (cmpBound_start_ne_gt_iff a b).mp h
    exact (max_eq_right hab).symm

@[simp] theorem endPos_minEnd (a b : Bound K) :
    (a.minEnd b).endPos = min a.endPos b.endPos := by
  unfold minEnd
  split
  next h =>
    have hba : b.endPos < a.endPos :=
      lt_of_not_ge fun hab => (cmpBound_end_ne_gt_iff a b).mpr hab h
    exact (min_eq_right hba.le).symm
  next h =>
    have hab : a.endPos ≤ b.endPos := (cmpBound_end_ne_gt_iff a b).mp h
    exact (min_eq_left hab).symm

end Bound

namespace BytesRange

/-! ### Ranges as intervals of the line -/

theorem contains_iff (r : BytesRange K) (k : K) :
    r.contains k = true ↔ r.startBound.startPos ≤ point k 1 ∧ point k 1 ≤ r.endBound.endPos := by
  obtain ⟨startBound, endBound⟩ := r
  cases startBound <;> cases endBound <;> simp [contains]

theorem nonEmpty_iff (r : BytesRange K) :
    r.nonEmpty = true ↔ r.startBound.startPos ≤ r.endBound.endPos := by
  obtain ⟨startBound, endBound⟩ := r
  cases startBound <;> cases endBound <;> simp [nonEmpty]

theorem nonEmpty_of_contains {r : BytesRange K} {k : K} (h : r.contains k = true) :
    r.nonEmpty = true := by
  rw [contains_iff] at h
  exact (nonEmpty_iff r).mpr (h.1.trans h.2)

/-- The intersection runs from the greater start to the lesser end. -/
theorem intersect_eq_some {r s t : BytesRange K} (h : r.intersect s = some t) :
    t.startBound.startPos = max r.startBound.startPos s.startBound.startPos ∧
      t.endBound.endPos = min r.endBound.endPos s.endBound.endPos := by
  simp only [intersect] at h
  split at h
  next => cases h; simp
  next => cases h

theorem isSome_intersect_iff (r s : BytesRange K) :
    (r.intersect s).isSome ↔
      max r.startBound.startPos s.startBound.startPos ≤ min r.endBound.endPos s.endBound.endPos := by
  simp only [intersect]
  split
  next h => simpa [nonEmpty_iff] using h
  next h => simpa [nonEmpty_iff] using h

/-- Two ranges that share a key intersect. -/
theorem isSome_intersect_of_contains {r s : BytesRange K} {k : K} (hr : r.contains k = true)
    (hs : s.contains k = true) : (r.intersect s).isSome := by
  rw [contains_iff] at hr hs
  rw [isSome_intersect_iff]
  exact (max_le hr.1 hs.1).trans (le_min hr.2 hs.2)

end BytesRange

end SlateDb
