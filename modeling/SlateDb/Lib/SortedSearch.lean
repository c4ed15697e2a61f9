import Mathlib.Data.Finset.Sort

/-!
# Searches in sorted sequences

An ordered set iterates its members in ascending order (`ascending`, an
insertion sort, which evaluates by `decide`; it is `Finset.sort`). A range
query from either end is a filter of that order: `lastAtMost s a` is the greatest member
at most `a` (a `range(..=a)` read from the back) and `firstAbove s a` the least
member above `a` (a range that excludes `a`, read from the front).

`binarySearchBy f l` is what a binary search returns on a list that `f` maps
to `lt`s, then at most one `eq`, then `gt`s: `ok i` at the element that `f`
maps to `eq`, else `error i` with `i` the position where such an element would
be inserted. On such a list every binary search returns this, whichever
midpoints it probes; the definition finds it by a scan from the front.
Inserting at that position keeps the list sorted (`pairwise_insertIdx`).

`walkDown p m` steps down from `m` while the index below satisfies `p`. On a
predicate that holds on a window ending at `m` and upward of each index where
it holds, a walk started inside the window stops at its start
(`walkDown_window`).
-/

namespace SortedSearch

section OrderedSet

variable {α : Type} [LinearOrder α] {s : Finset α} {a q r : α}

/-- The members of `s` in ascending order. -/
def ascending (s : Finset α) : List α :=
  Quot.liftOn s.val (List.insertionSort (· ≤ ·)) fun l₁ l₂ (h : l₁.Perm l₂) =>
    (((List.perm_insertionSort _ l₁).trans h).trans (List.perm_insertionSort _ l₂).symm).eq_of_pairwise
      (fun _ _ _ _ hab hba => le_antisymm hab hba) (List.pairwise_insertionSort _ l₁)
      (List.pairwise_insertionSort _ l₂)

theorem ascending_eq_sort (s : Finset α) : ascending s = s.sort := by
  rcases s with ⟨⟨l⟩, hl⟩
  have hperm : (ascending ⟨⟦l⟧, hl⟩).Perm (Finset.sort ⟨⟦l⟧, hl⟩) :=
    (List.perm_insertionSort _ l).trans (List.mergeSort_perm l _).symm
  exact hperm.eq_of_pairwise (fun _ _ _ _ hab hba => le_antisymm hab hba)
    (List.pairwise_insertionSort _ l) (Finset.pairwise_sort _ _)

theorem pairwise_ascending (s : Finset α) : (ascending s).Pairwise (· < ·) := by
  rw [ascending_eq_sort]
  exact (Finset.sortedLT_sort s).pairwise

@[simp] theorem mem_ascending : a ∈ ascending s ↔ a ∈ s := by
  rw [ascending_eq_sort, Finset.mem_sort]

@[simp] theorem ascending_eq_nil : ascending s = [] ↔ s = ∅ := by
  rw [List.eq_nil_iff_forall_not_mem, Finset.eq_empty_iff_forall_notMem]
  simp

/-- The greatest member at most `a`. -/
def lastAtMost (s : Finset α) (a : α) : Option α := ((ascending s).filter (· ≤ a)).getLast?

/-- The least member above `a`. -/
def firstAbove (s : Finset α) (a : α) : Option α := ((ascending s).filter (a < ·)).head?

theorem pairwise_filter_sort (p : α → Bool) : (s.sort.filter p).Pairwise (· < ·) :=
  (Finset.sortedLT_sort s).pairwise.filter p

theorem mem_of_lastAtMost (h : lastAtMost s a = some q) : q ∈ s ∧ q ≤ a := by
  rw [lastAtMost, ascending_eq_sort] at h
  obtain ⟨ys, hys⟩ := List.getLast?_eq_some_iff.mp h
  have hq : q ∈ s.sort.filter (· ≤ a) := by simp [hys]
  simpa using hq

theorem le_lastAtMost (hr : r ∈ s) (hra : r ≤ a) : ∃ q ∈ lastAtMost s a, r ≤ q := by
  have hmem : r ∈ s.sort.filter (· ≤ a) := by simpa using ⟨hr, hra⟩
  obtain ⟨ys, q, hys⟩ := List.eq_nil_or_concat (s.sort.filter (· ≤ a)) |>.resolve_left
    (List.ne_nil_of_mem hmem)
  refine ⟨q, by simp [lastAtMost, ascending_eq_sort, hys, List.concat_eq_append], ?_⟩
  -- the filter ascends, so its last element is at least each of its elements
  have hsorted := pairwise_filter_sort (s := s) (· ≤ a)
  rw [hys, List.concat_eq_append] at hsorted hmem
  rcases List.mem_append.mp hmem with hr | hr
  · exact (List.pairwise_append.mp hsorted).2.2 r hr q (List.mem_singleton_self q) |>.le
  · exact (List.mem_singleton.mp hr) ▸ le_rfl

theorem lastAtMost_of_mem (ha : a ∈ s) : lastAtMost s a = some a := by
  obtain ⟨q, hq, haq⟩ := le_lastAtMost ha le_rfl
  have hqa := (mem_of_lastAtMost hq).2
  rw [le_antisymm hqa haq] at hq
  exact hq

theorem mem_of_firstAbove (h : firstAbove s a = some q) : q ∈ s ∧ a < q := by
  rw [firstAbove, ascending_eq_sort] at h
  obtain ⟨ys, hys⟩ := List.head?_eq_some_iff.mp h
  have hq : q ∈ s.sort.filter (a < ·) := by simp [hys]
  simpa using hq

theorem firstAbove_le (hr : r ∈ s) (har : a < r) : ∃ q ∈ firstAbove s a, q ≤ r := by
  have hmem : r ∈ s.sort.filter (a < ·) := by simpa using ⟨hr, har⟩
  obtain ⟨q, ys, hys⟩ := List.exists_cons_of_ne_nil (List.ne_nil_of_mem hmem)
  refine ⟨q, by simp [firstAbove, ascending_eq_sort, hys], ?_⟩
  -- the filter ascends, so its first element is at most each of its elements
  have hsorted := pairwise_filter_sort (s := s) (a < ·)
  rw [hys] at hsorted hmem
  rcases List.mem_cons.mp hmem with rfl | hr
  · exact le_rfl
  · exact ((List.pairwise_cons.mp hsorted).1 r hr).le

end OrderedSet

section BinarySearch

variable {β : Type}

/-- The result of a binary search by `f`. -/
def binarySearchBy (f : β → Ordering) : List β → Except Nat Nat
  | [] => .error 0
  | b :: l =>
    match f b with
    | .lt =>
      match binarySearchBy f l with
      | .ok i => .ok (i + 1)
      | .error i => .error (i + 1)
    | .eq => .ok 0
    | .gt => .error 0

variable {κ : Type} [LinearOrder κ] (key : β → κ) (t : κ)

theorem binarySearchBy_eq_ok : ∀ {l : List β} {i : Nat},
    binarySearchBy (fun b => compare (key b) t) l = .ok i → ∃ h : i < l.length, key l[i] = t
  | [], _, h => by cases h
  | b :: l, i, h => by
    unfold binarySearchBy at h
    split at h
    · split at h <;> cases h
      rename_i i' hrec
      obtain ⟨hlt, hkey⟩ := binarySearchBy_eq_ok hrec
      exact ⟨by simp [hlt], hkey⟩
    · cases h
      rename_i heq
      exact ⟨by simp, compare_eq_iff_eq.mp heq⟩
    · cases h

/-- On a list with ascending keys, a miss stops where every key before is
below `t` and every key from there on is above it. -/
theorem binarySearchBy_eq_error : ∀ {l : List β} {i : Nat}, l.Pairwise (fun b c => key b < key c) →
    binarySearchBy (fun b => compare (key b) t) l = .error i →
    i ≤ l.length ∧ (∀ b ∈ l.take i, key b < t) ∧ ∀ b ∈ l.drop i, t < key b
  | [], _, _, h => by
    cases h
    simp
  | b :: l, i, hl, h => by
    unfold binarySearchBy at h
    split at h
    · -- `b` is below `t`: the search goes on in the rest, one position further
      rename_i hlt
      split at h <;> cases h
      rename_i i' hrec
      obtain ⟨hle, hbefore, hafter⟩ := binarySearchBy_eq_error (List.pairwise_cons.mp hl).2 hrec
      refine ⟨by simp [hle], ?_, by simpa using hafter⟩
      intro c hc
      rcases List.mem_cons.mp (by simpa using hc) with rfl | hc
      · exact compare_lt_iff_lt.mp hlt
      · exact hbefore c hc
    · cases h
    · -- `b` is above `t`, and so is every key after it
      cases h
      rename_i hgt
      refine ⟨by simp, by simp, ?_⟩
      have htb : t < key b := compare_gt_iff_gt.mp hgt
      intro c hc
      rcases List.mem_cons.mp (by simpa using hc) with rfl | hc
      · exact htb
      · exact htb.trans ((List.pairwise_cons.mp hl).1 c hc)

theorem ne_of_binarySearchBy_eq_error {l : List β} {i : Nat} (hl : l.Pairwise (fun b c => key b < key c))
    (h : binarySearchBy (fun b => compare (key b) t) l = .error i) : ∀ b ∈ l, key b ≠ t := by
  obtain ⟨-, hbefore, hafter⟩ := binarySearchBy_eq_error key t hl h
  intro b hb hbt
  rw [← List.take_append_drop i l] at hb
  rcases List.mem_append.mp hb with hb | hb
  · exact (hbefore b hb).ne hbt
  · exact (hafter b hb).ne' hbt

/-- On a miss, the element at the insertion point is the least with a key
above `t`. -/
theorem binarySearchBy_eq_error_next {l : List β} {i : Nat} (hl : l.Pairwise (fun b c => key b < key c))
    (h : binarySearchBy (fun b => compare (key b) t) l = .error i) :
    (∀ b ∈ l[i]?, t < key b) ∧ ∀ r ∈ l, t < key r → ∃ b ∈ l[i]?, key b ≤ key r := by
  obtain ⟨-, hbefore, hafter⟩ := binarySearchBy_eq_error key t hl h
  rw [← List.head?_drop]
  refine ⟨fun b hb => hafter b (List.mem_of_mem_head? hb), fun r hr htr => ?_⟩
  -- `r` is above `t`, so it is not before the insertion point
  have hr' : r ∈ l.drop i := by
    rw [← List.take_append_drop i l] at hr
    exact (List.mem_append.mp hr).resolve_left fun hr => lt_asymm htr (hbefore r hr)
  have hsorted : (l.drop i).Pairwise (fun b c => key b < key c) := hl.sublist (List.drop_sublist i l)
  obtain ⟨b, rest, hdrop⟩ := List.exists_cons_of_ne_nil (List.ne_nil_of_mem hr')
  rw [hdrop] at hr' hsorted ⊢
  refine ⟨b, rfl, ?_⟩
  rcases List.mem_cons.mp hr' with rfl | hr'
  · exact le_rfl
  · exact ((List.pairwise_cons.mp hsorted).1 r hr').le

/-- On a miss, the element before the insertion point is the greatest with a
key below `t`. -/
theorem binarySearchBy_eq_error_prev {l : List β} {i : Nat} (hl : l.Pairwise (fun b c => key b < key c))
    (h : binarySearchBy (fun b => compare (key b) t) l = .error i) :
    (∀ b ∈ (if 0 < i then l[i - 1]? else none), key b < t) ∧
      ∀ r ∈ l, key r < t → ∃ b ∈ (if 0 < i then l[i - 1]? else none), key r ≤ key b := by
  obtain ⟨hle, hbefore, hafter⟩ := binarySearchBy_eq_error key t hl h
  -- the element before the insertion point is the last one before it
  have hprev : (if 0 < i then l[i - 1]? else none) = (l.take i).getLast? := by
    rw [List.getLast?_take]
    by_cases hi : i = 0
    · simp [hi]
    · have hlt : i - 1 < l.length := by omega
      simp [hi, Nat.pos_of_ne_zero hi, List.getElem?_eq_getElem hlt]
  rw [hprev]
  refine ⟨fun b hb => hbefore b (List.mem_of_getLast? hb), fun r hr hrt => ?_⟩
  -- `r` is below `t`, so it is before the insertion point
  have hr' : r ∈ l.take i := by
    rw [← List.take_append_drop i l] at hr
    exact (List.mem_append.mp hr).resolve_right fun hr => lt_asymm hrt (hafter r hr)
  have hsorted : (l.take i).Pairwise (fun b c => key b < key c) := hl.sublist (List.take_sublist i l)
  obtain ⟨ys, b, htake⟩ := List.eq_nil_or_concat (l.take i) |>.resolve_left (List.ne_nil_of_mem hr')
  rw [htake, List.concat_eq_append] at hr' hsorted ⊢
  refine ⟨b, by simp, ?_⟩
  rcases List.mem_append.mp hr' with hr' | hr'
  · exact ((List.pairwise_append.mp hsorted).2.2 r hr' b (List.mem_singleton_self b)).le
  · exact (List.mem_singleton.mp hr') ▸ le_rfl

end BinarySearch

section PartitionPoint

variable {β : Type} {p q : β → Bool}

/-- What `slice::partition_point` returns on a slice that `p` partitions: the
number of leading elements that satisfy `p`. -/
def partitionPoint (p : β → Bool) (l : List β) : Nat := (l.takeWhile p).length

theorem partitionPoint_le_length (p : β → Bool) (l : List β) : partitionPoint p l ≤ l.length :=
  (List.takeWhile_sublist _).length_le

theorem drop_partitionPoint (l : List β) : l.drop (partitionPoint p l) = l.dropWhile p :=
  calc l.drop (partitionPoint p l)
      _ = (l.takeWhile p ++ l.dropWhile p).drop (l.takeWhile p).length := by
        rw [List.takeWhile_append_dropWhile]
        rfl
      _ = l.dropWhile p := List.drop_left

theorem take_partitionPoint (l : List β) : l.take (partitionPoint p l) = l.takeWhile p :=
  (List.prefix_iff_eq_take.mp (List.takeWhile_prefix p)).symm

/-- When `p` implies `q` along the list, the leading elements that satisfy `q`
are those that satisfy `p`, then the leading ones after them that satisfy `q`. -/
theorem takeWhile_eq_append : ∀ {l : List β}, (∀ a ∈ l, p a = true → q a = true) →
    l.takeWhile q = l.takeWhile p ++ (l.dropWhile p).takeWhile q
  | [], _ => rfl
  | a :: l, h => by
    by_cases ha : p a = true
    · rw [List.takeWhile_cons_of_pos (h a List.mem_cons_self ha), List.takeWhile_cons_of_pos ha,
        List.dropWhile_cons_of_pos ha, takeWhile_eq_append fun b hb => h b (List.mem_cons_of_mem _ hb)]
      rfl
    · rw [List.takeWhile_cons_of_neg ha, List.dropWhile_cons_of_neg ha]
      rfl

/-- The slice between two partition points, the first for a predicate that
implies the second's. -/
theorem slice_partitionPoint {l : List β} (h : ∀ a ∈ l, p a = true → q a = true) :
    (l.drop (partitionPoint p l)).take (partitionPoint q l - partitionPoint p l) =
      (l.dropWhile p).takeWhile q := by
  rw [drop_partitionPoint, partitionPoint, partitionPoint, takeWhile_eq_append h, List.length_append,
    Nat.add_sub_cancel_left]
  exact take_partitionPoint _

/-- On a list along which `q` holds of everything before an element that
satisfies it, the leading elements that satisfy `q` are all that do. -/
theorem mem_takeWhile_iff : ∀ {l : List β}, l.Pairwise (fun a b => q b = true → q a = true) →
    ∀ {x : β}, x ∈ l.takeWhile q ↔ x ∈ l ∧ q x = true
  | [], _, _ => by simp
  | a :: l, hq, x => by
    by_cases ha : q a = true
    · rw [List.takeWhile_cons_of_pos ha, List.mem_cons, List.mem_cons,
        mem_takeWhile_iff (List.pairwise_cons.mp hq).2]
      constructor
      · rintro (rfl | ⟨hx, hqx⟩)
        · exact ⟨.inl rfl, ha⟩
        · exact ⟨.inr hx, hqx⟩
      · rintro ⟨rfl | hx, hqx⟩
        · exact .inl rfl
        · exact .inr ⟨hx, hqx⟩
    · rw [List.takeWhile_cons_of_neg ha]
      simp only [List.not_mem_nil, false_iff, not_and, List.mem_cons]
      rintro (rfl | hx) hqx
      · exact ha hqx
      · exact ha ((List.pairwise_cons.mp hq).1 x hx hqx)

/-- Between the partition points of two such predicates lie exactly the
elements that satisfy the second and not the first. -/
theorem mem_takeWhile_dropWhile : ∀ {l : List β}, l.Pairwise (fun a b => p b = true → p a = true) →
    l.Pairwise (fun a b => q b = true → q a = true) → ∀ {x : β},
      x ∈ (l.dropWhile p).takeWhile q ↔ x ∈ l ∧ p x = false ∧ q x = true
  | [], _, _, _ => by simp
  | a :: l, hp, hq, x => by
    by_cases ha : p a = true
    · rw [List.dropWhile_cons_of_pos ha,
        mem_takeWhile_dropWhile (List.pairwise_cons.mp hp).2 (List.pairwise_cons.mp hq).2, List.mem_cons]
      constructor
      · rintro ⟨hx, hpx, hqx⟩
        exact ⟨.inr hx, hpx, hqx⟩
      · rintro ⟨rfl | hx, hpx, hqx⟩
        · rw [ha] at hpx
          cases hpx
        · exact ⟨hx, hpx, hqx⟩
    · -- nothing from `a` on satisfies `p`
      have hnone : ∀ y ∈ a :: l, p y = false := by
        intro y hy
        rcases List.mem_cons.mp hy with rfl | hy
        · simpa using ha
        · exact Bool.eq_false_iff.mpr fun hpy => ha ((List.pairwise_cons.mp hp).1 y hy hpy)
      rw [List.dropWhile_cons_of_neg ha, mem_takeWhile_iff hq]
      constructor
      · rintro ⟨hx, hqx⟩
        exact ⟨hx, hnone x hx, hqx⟩
      · rintro ⟨hx, -, hqx⟩
        exact ⟨hx, hqx⟩

/-- Along a list on which `p` holds of everything before an element that
satisfies it, `p` holds exactly of the elements before the partition point. -/
theorem getElem_iff_lt_partitionPoint : ∀ {l : List β}, l.Pairwise (fun a b => p b = true → p a = true) →
    ∀ {j : Nat} (hj : j < l.length), p l[j] = true ↔ j < partitionPoint p l
  | [], _, j, hj => absurd hj (Nat.not_lt_zero _)
  | a :: l, hp, j, hj => by
    by_cases ha : p a = true
    · cases j with
      | zero => simp [partitionPoint, List.takeWhile_cons_of_pos ha, ha]
      | succ j =>
        rw [List.getElem_cons_succ, getElem_iff_lt_partitionPoint (List.pairwise_cons.mp hp).2]
        simp [partitionPoint, List.takeWhile_cons_of_pos ha]
    · -- nothing from `a` on satisfies `p`
      rw [partitionPoint, List.takeWhile_cons_of_neg ha, List.length_nil]
      simp only [Nat.not_lt_zero, iff_false]
      cases j with
      | zero => simpa using ha
      | succ j => exact fun hpj => ha ((List.pairwise_cons.mp hp).1 _ (List.getElem_mem _) hpj)

/-- On such a list, what follows the leading elements that satisfy `p` is
every element that does not. -/
theorem dropWhile_eq_filter : ∀ {l : List β}, l.Pairwise (fun a b => p b = true → p a = true) →
    l.dropWhile p = l.filter (fun a => !p a)
  | [], _ => rfl
  | a :: l, hp => by
    by_cases ha : p a = true
    · rw [List.dropWhile_cons_of_pos ha, List.filter_cons_of_neg (by simp [ha]),
        dropWhile_eq_filter (List.pairwise_cons.mp hp).2]
    · -- nothing from `a` on satisfies `p`
      rw [List.dropWhile_cons_of_neg ha, eq_comm, List.filter_eq_self]
      intro y hy
      rcases List.mem_cons.mp hy with rfl | hy
      · simpa using ha
      · simpa using fun hpy => ha ((List.pairwise_cons.mp hp).1 y hy hpy)

/-- On such a list, the leading elements that satisfy `p` are every element
that does. -/
theorem takeWhile_eq_filter : ∀ {l : List β}, l.Pairwise (fun a b => p b = true → p a = true) →
    l.takeWhile p = l.filter p
  | [], _ => rfl
  | a :: l, hp => by
    by_cases ha : p a = true
    · rw [List.takeWhile_cons_of_pos ha, List.filter_cons_of_pos ha,
        takeWhile_eq_filter (List.pairwise_cons.mp hp).2]
    · -- nothing from `a` on satisfies `p`
      rw [List.takeWhile_cons_of_neg ha, eq_comm, List.filter_eq_nil_iff]
      intro y hy
      rcases List.mem_cons.mp hy with rfl | hy
      · exact ha
      · exact fun hpy => ha ((List.pairwise_cons.mp hp).1 y hy hpy)

end PartitionPoint

section WalkDown

variable {p : Nat → Bool}

/-- From `m`, step down while the index below satisfies `p`. -/
def walkDown (p : Nat → Bool) : Nat → Nat
  | 0 => 0
  | m + 1 => if p m then walkDown p m else m + 1

theorem walkDown_le : ∀ m, walkDown p m ≤ m
  | 0 => le_rfl
  | m + 1 => by
    simp only [walkDown]
    split
    · exact (walkDown_le m).trans (Nat.le_succ m)
    · exact le_rfl

/-- Every index the walk stepped over satisfies `p`. -/
theorem walkDown_passed : ∀ m j, walkDown p m ≤ j → j < m → p j = true
  | 0, j, _, hj => absurd hj (Nat.not_lt_zero j)
  | m + 1, j, hw, hj => by
    simp only [walkDown] at hw
    split at hw
    next hm =>
      rcases Nat.lt_succ_iff_lt_or_eq.mp hj with hj | rfl
      · exact walkDown_passed m j hw hj
      · exact hm
    next => omega

/-- The walk stops at zero or right above an index that fails `p`. -/
theorem walkDown_stop : ∀ m, walkDown p m = 0 ∨ p (walkDown p m - 1) = false
  | 0 => .inl rfl
  | m + 1 => by
    simp only [walkDown]
    split
    next => exact walkDown_stop m
    next hm => exact .inr (by simpa using hm)

/-- Let `p` fail from `m` on, hold on `[m₀, m)`, and hold upward of any index
where it holds below `m`. Then `p` holds exactly on the window from where the
walk down from `m₀` stops to `m`. -/
theorem walkDown_window {m₀ m : Nat} (hm : m₀ ≤ m)
    (hup : ∀ i j, i ≤ j → j < m → p i = true → p j = true)
    (hfrom : ∀ j, m₀ ≤ j → j < m → p j = true)
    (hbelow : ∀ j, m ≤ j → p j = false) (j : Nat) :
    p j = true ↔ walkDown p m₀ ≤ j ∧ j < m := by
  have hw := walkDown_le (p := p) m₀
  constructor
  · intro hj
    have hjm : j < m := by
      by_contra hmj
      rw [hbelow j (Nat.le_of_not_lt hmj)] at hj
      cases hj
    refine ⟨Nat.le_of_not_lt fun hlt => ?_, hjm⟩
    -- `p` would then hold at the index where the walk stopped
    rcases walkDown_stop (p := p) m₀ with h0 | hstop
    · omega
    · have hheld := hup j (walkDown p m₀ - 1) (by omega) (by omega) hj
      rw [hstop] at hheld
      cases hheld
  · rintro ⟨hwj, hjm⟩
    by_cases hj : j < m₀
    · exact walkDown_passed m₀ j hwj hj
    · exact hfrom j (Nat.le_of_not_lt hj) hjm

end WalkDown

/-- Inserting where every element before is related to the new one and the
new one to every element after keeps a list pairwise related. -/
theorem pairwise_insertIdx {β : Type} {R : β → β → Prop} {x : β} :
    ∀ {i : Nat} {l : List β}, i ≤ l.length → l.Pairwise R → (∀ b ∈ l.take i, R b x) →
      (∀ b ∈ l.drop i, R x b) → (l.insertIdx i x).Pairwise R
  | 0, l, _, hl, _, hafter => by
    rw [List.insertIdx_zero]
    exact List.pairwise_cons.mpr ⟨by simpa using hafter, hl⟩
  | i + 1, [], h, _, _, _ => absurd h (by simp)
  | i + 1, b :: l, h, hl, hbefore, hafter => by
    rw [List.insertIdx_succ_cons]
    have hi : i ≤ l.length := by simpa using h
    refine List.pairwise_cons.mpr ⟨fun c hc => ?_, ?_⟩
    · rcases (List.mem_insertIdx hi).mp hc with rfl | hc
      · exact hbefore b (by simp)
      · exact (List.pairwise_cons.mp hl).1 c hc
    · exact pairwise_insertIdx hi (List.pairwise_cons.mp hl).2
        (fun c hc => hbefore c (by simp [hc])) (fun c hc => hafter c (by simpa using hc))

end SortedSearch
