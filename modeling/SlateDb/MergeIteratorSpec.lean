import SlateDb.MergeIterator

/-!
# What the merge iterator yields

Children sorted by key in the iteration order and, within a key, by sequence
number descending (`EntryLe`) are merged into one stream in that order. The
invariant of a running merge (`Inv`): each child's entries still to come are
sorted, and the current entry is at or before the head of every child on the
heap, so it is at or before every entry still to come. `advance` then
returns a least entry, and the entries `advance` returns one after another
are a sorted permutation of the children's entries (`Inv.run`).

With dedup on, each entry that is not a merge operand is followed by the loop
that skips the rest of its key (`skipKey_spec`): the output is that sorted
stream with every key cut after its first version that is not a merge operand
(`dedupStream`, `throughBarrier`).

Which of several least entries the heap pops is not fixed: every result holds
for every `pop` that takes out a least entry.
-/

namespace SlateDb

variable {K V : Type} [LinearOrder K]

/-- Keys in the iteration order. -/
def KeyBefore : IterationOrder → K → K → Prop
  | .ascending, a, b => a < b
  | .descending, a, b => b < a

/-- The stream order: what `cmp` puts at or before another. -/
def EntryLe (order : IterationOrder) (a b : RowEntry K V) : Prop := compareEntries order a b ≠ .gt

instance (order : IterationOrder) : DecidableRel (EntryLe (K := K) (V := V) order) :=
  fun a b => inferInstanceAs (Decidable (compareEntries order a b ≠ .gt))

section Order

variable {order : IterationOrder}

theorem keyBefore_asymm {a b : K} (h : KeyBefore order a b) : ¬KeyBefore order b a := by
  cases order <;> simp only [KeyBefore] at * <;> exact not_lt_of_gt h

theorem ne_of_keyBefore {a b : K} (h : KeyBefore order a b) : a ≠ b := by
  rintro rfl
  exact keyBefore_asymm h h

theorem keyBefore_trans {a b c : K} (hab : KeyBefore order a b) (hbc : KeyBefore order b c) :
    KeyBefore order a c := by
  cases order with
  | ascending => exact lt_trans hab hbc
  | descending => exact lt_trans hbc hab

theorem keyBefore_or {a b : K} (h : a ≠ b) : KeyBefore order a b ∨ KeyBefore order b a := by
  cases order with
  | ascending => exact lt_or_gt_of_ne h
  | descending => exact (lt_or_gt_of_ne h).symm

theorem entryLe_iff {a b : RowEntry K V} :
    EntryLe order a b ↔ KeyBefore order a.key b.key ∨ (a.key = b.key ∧ b.seq ≤ a.seq) := by
  unfold EntryLe compareEntries
  -- the keys decide unless they are equal; then the sequence numbers, higher first
  rcases lt_trichotomy a.key b.key with h | h | h
  · cases order <;> simp [KeyBefore, compare_lt_iff_lt.mpr h, compare_gt_iff_gt.mpr h, h, h.ne,
      not_lt.mpr h.le]
  · cases order <;> simp [KeyBefore, h, Nat.compare_eq_gt]
  · cases order <;> simp [KeyBefore, compare_lt_iff_lt.mpr h, compare_gt_iff_gt.mpr h, h, h.ne',
      not_lt.mpr h.le]

theorem entryLe_refl (a : RowEntry K V) : EntryLe order a a :=
  entryLe_iff.mpr (.inr ⟨rfl, Nat.le_refl _⟩)

theorem EntryLe.keyBefore_or_eq {a b : RowEntry K V} (h : EntryLe order a b) :
    KeyBefore order a.key b.key ∨ a.key = b.key :=
  (entryLe_iff.mp h).imp_right And.left

instance : Std.Total (EntryLe (K := K) (V := V) order) where
  total a b := by
    by_cases hkey : a.key = b.key
    · rcases Nat.le_total a.seq b.seq with h | h
      · exact .inr (entryLe_iff.mpr (.inr ⟨hkey.symm, h⟩))
      · exact .inl (entryLe_iff.mpr (.inr ⟨hkey, h⟩))
    · rcases keyBefore_or hkey with h | h
      · exact .inl (entryLe_iff.mpr (.inl h))
      · exact .inr (entryLe_iff.mpr (.inl h))

instance : IsTrans (RowEntry K V) (EntryLe order) where
  trans a b c hab hbc := by
    rw [entryLe_iff] at hab hbc ⊢
    rcases hab with hab | ⟨hab, hsab⟩ <;> rcases hbc with hbc | ⟨hbc, hsbc⟩
    · exact .inl (keyBefore_trans hab hbc)
    · exact .inl (hbc ▸ hab)
    · exact .inl (hab ▸ hbc)
    · exact .inr ⟨hab.trans hbc, Nat.le_trans hsbc hsab⟩

instance : Std.Total (MergeIteratorHeapEntry.Le (K := K) (V := V) order) where
  total a b := Std.Total.total (r := EntryLe order) a.nextKv b.nextKv

instance : IsTrans (MergeIteratorHeapEntry K V) (MergeIteratorHeapEntry.Le order) where
  trans a b c := trans_of (EntryLe order) (a := a.nextKv) (b := b.nextKv) (c := c.nextKv)

end Order

/-! ### Versions down to the first that is not a merge operand -/

/-- Versions of a key, newest first, down to and including the first that is
not a merge operand; all of them when every one is. -/
def throughBarrier : List (RowEntry K V) → List (RowEntry K V)
  | [] => []
  | e :: l => if e.value.isMerge then e :: throughBarrier l else [e]

/-- A stream with each key cut after its first version that is not a merge
operand, what `next` with dedup on makes of the entries `advance` returns. -/
def dedupStream : List (RowEntry K V) → List (RowEntry K V)
  | [] => []
  | x :: l => x :: dedupStream (if x.value.isMerge then l else l.dropWhile (fun y => y.key = x.key))
termination_by l => l.length
decreasing_by
  split
  · simp
  · exact Nat.lt_succ_of_le (List.dropWhile_suffix _).length_le

theorem dedupStream_cons (x : RowEntry K V) (l : List (RowEntry K V)) :
    dedupStream (x :: l) =
      x :: dedupStream (if x.value.isMerge then l else l.dropWhile (fun y => y.key = x.key)) := by
  rw [dedupStream]

theorem dedupStream_sublist (s : List (RowEntry K V)) : (dedupStream s).Sublist s := by
  induction s using dedupStream.induct with
  | case1 => simp [dedupStream]
  | case2 x l ih =>
    rw [dedupStream_cons]
    refine ih.trans ?_ |>.cons_cons x
    split
    · exact List.Sublist.refl _
    · exact (List.dropWhile_suffix _).sublist

/-- Dropping the entries of another key keeps the entries of `k`. -/
theorem filter_dropWhile_key_ne {k k' : K} (hk : k ≠ k') (l : List (RowEntry K V)) :
    (l.dropWhile (fun y => y.key = k')).filter (fun y => y.key = k) = l.filter (fun y => y.key = k) := by
  induction l with
  | nil => rfl
  | cons y l ih =>
    by_cases hy : y.key = k'
    · rw [List.dropWhile_cons_of_pos (by simpa using hy), ih, List.filter_cons_of_neg]
      simpa [hy] using hk.symm
    · rw [List.dropWhile_cons_of_neg (by simpa using hy)]

variable {order : IterationOrder}

/-- In a sorted stream the versions of a key come together: after the first
one, dropping the versions of that key leaves none of them. -/
theorem filter_dropWhile_key {x : RowEntry K V} {l : List (RowEntry K V)}
    (hs : (x :: l).Pairwise (EntryLe order)) :
    (l.dropWhile (fun y => y.key = x.key)).filter (fun y => y.key = x.key) = [] := by
  induction l with
  | nil => rfl
  | cons y l ih =>
    by_cases hy : y.key = x.key
    · rw [List.dropWhile_cons_of_pos (by simpa using hy)]
      exact ih (hs.sublist (List.Sublist.cons_cons x (List.sublist_cons_self y l)))
    · rw [List.dropWhile_cons_of_neg (by simpa using hy), List.filter_eq_nil_iff]
      -- every later version is after `y`, whose key is after `x`'s
      have hxy : KeyBefore order x.key y.key :=
        ((List.rel_of_pairwise_cons hs List.mem_cons_self).keyBefore_or_eq).resolve_right
          (Ne.symm hy)
      intro z hz hzx
      have hzx : z.key = x.key := by simpa using hzx
      rcases List.mem_cons.mp hz with rfl | hz
      · exact hy hzx
      · have hyz := (List.rel_of_pairwise_cons hs.of_cons hz).keyBefore_or_eq
        rw [hzx] at hyz
        rcases hyz with hyz | hyz
        · exact keyBefore_asymm hxy hyz
        · exact hy hyz

/-- Each key of a cut stream keeps its versions down to the first that is
not a merge operand. -/
theorem dedupStream_filter {s : List (RowEntry K V)} (hs : s.Pairwise (EntryLe order)) (k : K) :
    (dedupStream s).filter (fun y => y.key = k) = throughBarrier (s.filter (fun y => y.key = k)) := by
  induction s using dedupStream.induct with
  | case1 => simp [dedupStream, throughBarrier]
  | case2 x l ih =>
    simp only [dite_eq_ite] at ih
    have hl : l.Pairwise (EntryLe order) := hs.of_cons
    have hl' : (if x.value.isMerge then l else l.dropWhile (fun y => y.key = x.key)).Pairwise
        (EntryLe order) := by
      split
      · exact hl
      · exact hl.sublist (List.dropWhile_suffix _).sublist
    rw [dedupStream_cons]
    by_cases hxk : x.key = k
    · -- a version of `k`: kept, and the rest of `k` kept only after a merge operand
      subst hxk
      rw [List.filter_cons_of_pos (by simp), List.filter_cons_of_pos (by simp)]
      by_cases hmerge : x.value.isMerge = true
      · rw [ih hl']
        simp [throughBarrier, hmerge]
      · have hnil : (dedupStream (l.dropWhile (fun y => y.key = x.key))).filter
            (fun y => y.key = x.key) = [] :=
          List.sublist_nil.mp (filter_dropWhile_key hs ▸ (dedupStream_sublist _).filter _)
        simp only [hmerge, Bool.false_eq_true, if_false, hnil, throughBarrier]
    · -- another key: the versions of `k` are untouched
      rw [List.filter_cons_of_neg (by simpa using hxk), List.filter_cons_of_neg (by simpa using hxk),
        ih hl']
      split
      · rfl
      · rw [filter_dropWhile_key_ne (Ne.symm hxk)]

/-! ### The invariant of a running merge -/

namespace MergeIterator

variable {order : IterationOrder} {dedup : Bool}

/-- A head is at or before the rest of its child. -/
theorem le_of_mem_entries {h : MergeIteratorHeapEntry K V} (hs : h.entries.Pairwise (EntryLe order))
    {y : RowEntry K V} (hy : y ∈ h.entries) : EntryLe order h.nextKv y := by
  rcases List.mem_cons.mp hy with rfl | hy
  · exact entryLe_refl _
  · exact List.rel_of_pairwise_cons hs hy

/-- A running merge: `init` ran, each child's entries still to come are
sorted, and the current entry is at or before the head of every child on the
heap, which is empty when there is no current entry. -/
structure Inv (order : IterationOrder) (dedup : Bool) (it : MergeIterator K V) : Prop where
  initialized : it.initialized = true
  order_eq : it.order = order
  dedup_eq : it.dedup = dedup
  pending : it.pendingIterators = []
  sorted : ∀ h ∈ it.current.toList ++ it.iterators, h.entries.Pairwise (EntryLe order)
  current_le : ∀ c ∈ it.current, ∀ h ∈ it.iterators, EntryLe order c.nextKv h.nextKv
  empty : it.current = none → it.iterators = []

theorem Inv.contents_eq_nil {it : MergeIterator K V} (hinv : Inv order dedup it)
    (hcur : it.current = none) : it.contents = [] := by
  simp [contents, hcur, hinv.empty hcur, hinv.pending]

/-- The current entry is at or before every entry still to come. -/
theorem Inv.current_le_contents {it : MergeIterator K V} (hinv : Inv order dedup it)
    {c : MergeIteratorHeapEntry K V} (hcur : it.current = some c) :
    ∀ y ∈ it.contents, EntryLe order c.nextKv y := by
  intro y hy
  simp only [contents, hcur, hinv.pending, Option.toList_some, List.singleton_append,
    List.flatMap_cons, List.map_nil, List.flatten_nil, List.append_nil, List.mem_append,
    List.mem_flatMap] at hy
  have hc : c.entries.Pairwise (EntryLe order) := hinv.sorted c (by simp [hcur])
  rcases hy with hy | ⟨h, hh, hy⟩
  · exact le_of_mem_entries hc hy
  · have hs : h.entries.Pairwise (EntryLe order) := hinv.sorted h (by simp [hh])
    exact trans_of (EntryLe order) (hinv.current_le c hcur h hh) (le_of_mem_entries hs hy)

/-- Where the loop that skips `k` stops, with the current entry of another
key or none, no entry of `k` is left, provided every entry is at or after
`k`. -/
theorem Inv.key_ne_of_stop {it : MergeIterator K V} (hinv : Inv order dedup it) {k : K}
    (hafter : ∀ y ∈ it.contents, KeyBefore order k y.key ∨ k = y.key)
    (hstop : ∀ c ∈ it.current, c.nextKv.key ≠ k) : ∀ y ∈ it.contents, y.key ≠ k := by
  intro y hy hyk
  cases hcur : it.current with
  | none =>
    rw [hinv.contents_eq_nil hcur] at hy
    cases hy
  | some c =>
    have hc := hstop c hcur
    have hcy := (hinv.current_le_contents hcur y hy).keyBefore_or_eq
    rw [hyk] at hcy
    rcases hcy with hcy | hcy
    · rcases hafter c.nextKv (mem_contents_of_current hcur) with hkc | hkc
      · exact keyBefore_asymm hkc hcy
      · exact hc hkc.symm
    · exact hc hcy

/-! ### Seeks -/

theorem atOrAfter_of_entryLe {t : K} {a b : RowEntry K V} (hab : EntryLe order a b)
    (ha : atOrAfter order t a.key = true) : atOrAfter order t b.key = true := by
  rcases hab.keyBefore_or_eq with h | h
  · cases order <;> simp only [atOrAfter, KeyBefore, decide_eq_true_eq] at ha h ⊢
    · exact ha.trans h.le
    · exact h.le.trans ha
  · rw [← h]
    exact ha

/-- Along a list on which `q`, once true, stays true, skipping the elements
that fail `q` keeps exactly those that pass it. -/
theorem dropWhile_not_eq_filter {α : Type} {q : α → Bool} :
    ∀ {l : List α}, l.Pairwise (fun a b => q a = true → q b = true) →
      l.dropWhile (fun a => !q a) = l.filter q
  | [], _ => rfl
  | a :: l, hl => by
    by_cases ha : q a = true
    · rw [List.dropWhile_cons_of_neg (by simpa using ha), List.filter_cons_of_pos ha,
        List.filter_eq_self.mpr fun b hb => List.rel_of_pairwise_cons hl hb ha]
    · rw [List.dropWhile_cons_of_pos (by simpa using ha), List.filter_cons_of_neg ha]
      exact dropWhile_not_eq_filter (List.pairwise_cons.mp hl).2

/-- A child sorted in the order goes on, after a seek, with exactly its
entries at or after the target. -/
theorem seekChild_eq_filter {t : K} {child : List (RowEntry K V)}
    (hs : child.Pairwise (EntryLe order)) :
    seekChild order t child = child.filter fun e => atOrAfter order t e.key :=
  dropWhile_not_eq_filter (hs.imp fun hab => atOrAfter_of_entryLe hab)

/-- In ascending order, the seek of a heap entry over sorted entries keeps
exactly its entries at or after the target. -/
theorem MergeIteratorHeapEntry.seek_ascending {h : MergeIteratorHeapEntry K V}
    (hs : h.entries.Pairwise (EntryLe .ascending)) (t : K) :
    (h.seek .ascending t).toList.flatMap MergeIteratorHeapEntry.entries =
      h.entries.filter fun e => atOrAfter .ascending t e.key := by
  unfold MergeIteratorHeapEntry.seek
  by_cases hkeep : t ≤ h.nextKv.key
  · -- every entry is at or above the next one, so at or after the target
    rw [if_pos hkeep]
    have hall : ∀ e ∈ h.entries, atOrAfter .ascending t e.key = true :=
      fun e he => atOrAfter_of_entryLe (le_of_mem_entries hs he) (by simpa [atOrAfter] using hkeep)
    simp [List.filter_eq_self.mpr hall]
  · -- the next entry is below the target, and the child seeks past it
    rw [if_neg hkeep]
    have hfilter : (h.entries.filter fun e => atOrAfter .ascending t e.key) =
        seekChild .ascending t h.iterator := by
      rw [seekChild_eq_filter (List.pairwise_cons.mp hs).2, MergeIteratorHeapEntry.entries,
        List.filter_cons_of_neg (by simpa [atOrAfter] using hkeep)]
    rw [hfilter]
    cases seekChild .ascending t h.iterator with
    | nil => rfl
    | cons nextKv iterator => simp [MergeIteratorHeapEntry.entries]

section Lawful

variable {pop : IterationOrder → List (MergeIteratorHeapEntry K V) →
  Option (MergeIteratorHeapEntry K V × List (MergeIteratorHeapEntry K V))}
variable (hpop : ∀ order, PriorityQueue.IsMinPop (MergeIteratorHeapEntry.Le order) (pop order))
include hpop

/-- `advance` on a running merge returns the current entry, which is at or
before every entry left, and keeps the merge running. -/
theorem Inv.advance_spec {it : MergeIterator K V} (hinv : Inv order dedup it)
    {c : MergeIteratorHeapEntry K V} (hcur : it.current = some c) :
    ∃ it', advance pop it = (some c.nextKv, it') ∧ Inv order dedup it' ∧
      it.contents.Perm (c.nextKv :: it'.contents) ∧ ∀ y ∈ it'.contents, EntryLe order c.nextKv y := by
  have hadv := advance_of_current pop hinv.initialized hcur
  have hperm := contents_advance hpop hinv.initialized hadv
  refine ⟨_, hadv, ?_, hperm,
    fun y hy => hinv.current_le_contents hcur y (hperm.symm.subset (List.mem_cons_of_mem _ hy))⟩
  have hc : c.entries.Pairwise (EntryLe order) := hinv.sorted c (by simp [hcur])
  refine ⟨by simp [hinv.initialized], by simp [hinv.order_eq], by simp [hinv.dedup_eq],
    by simp [hinv.pending], fun h hh => ?_, ?_, popCurrent_current_eq_none hpop⟩
  · -- the current entry's child goes back on the heap with the rest of its entries
    have hpushed := (popCurrent_perm hpop).subset hh
    cases hiter : c.iterator with
    | nil =>
      rw [hiter] at hpushed
      exact hinv.sorted h (by simp [hpushed])
    | cons nextKv iterator =>
      rw [hiter] at hpushed
      rcases List.mem_cons.mp hpushed with rfl | hpushed
      · have htail := hc.of_cons
        rwa [hiter] at htail
      · exact hinv.sorted h (by simp [hpushed])
  · intro c' hc' h hh
    have hle := popCurrent_le hpop _ c' hc' h hh
    simp only [hinv.order_eq] at hle
    exact hle

/-- The loop that skips `k` takes out, in order, the entries of `k` that come
first and keeps the merge running; given a call for each entry still to
come, it leaves no entry of `k` when every entry is at or after `k`. -/
theorem Inv.skipKey_spec (k : K) :
    ∀ (fuel : Nat) {it : MergeIterator K V}, Inv order dedup it → it.remaining ≤ fuel →
      (∀ y ∈ it.contents, KeyBefore order k y.key ∨ k = y.key) →
      ∃ dropped, Inv order dedup (skipKey pop k fuel it) ∧
        it.contents.Perm (dropped ++ (skipKey pop k fuel it).contents) ∧
        (∀ x ∈ dropped, x.key = k) ∧ dropped.Pairwise (EntryLe order) ∧
        (∀ x ∈ dropped, ∀ y ∈ (skipKey pop k fuel it).contents, EntryLe order x y) ∧
        ∀ y ∈ (skipKey pop k fuel it).contents, y.key ≠ k := by
  -- where the loop stops, nothing is taken out
  have hstop : ∀ {it : MergeIterator K V}, Inv order dedup it →
      (∀ y ∈ it.contents, KeyBefore order k y.key ∨ k = y.key) →
      (∀ c ∈ it.current, c.nextKv.key ≠ k) →
      ∃ dropped, Inv order dedup it ∧ it.contents.Perm (dropped ++ it.contents) ∧
        (∀ x ∈ dropped, x.key = k) ∧ dropped.Pairwise (EntryLe order) ∧
        (∀ x ∈ dropped, ∀ y ∈ it.contents, EntryLe order x y) ∧ ∀ y ∈ it.contents, y.key ≠ k :=
    fun hinv hafter hne => ⟨[], hinv, List.Perm.refl _, by simp, List.Pairwise.nil, by simp,
      hinv.key_ne_of_stop hafter hne⟩
  intro fuel
  induction fuel with
  | zero =>
    intro it hinv hrem hafter
    have hnil : it.contents = [] := List.eq_nil_of_length_eq_zero (Nat.le_zero.mp hrem)
    exact hstop hinv hafter (fun c hc => absurd (hnil ▸ mem_contents_of_current hc) List.not_mem_nil)
  | succ fuel ih =>
    intro it hinv hrem hafter
    cases hcur : it.current with
    | none =>
      have heq : skipKey pop k (fuel + 1) it = it := by simp [skipKey, peek, hcur]
      rw [heq]
      exact hstop hinv hafter (by simp [hcur])
    | some c =>
      by_cases hck : c.nextKv.key = k
      · -- the current entry is of `k`: it goes out, and the loop goes on
        obtain ⟨it₁, hadv, hinv₁, hperm, hle⟩ := hinv.advance_spec hpop hcur
        have heq : skipKey pop k (fuel + 1) it = skipKey pop k fuel it₁ := by
          simp [skipKey, peek, hcur, hck, hadv]
        rw [heq]
        have hrem₁ : it₁.remaining ≤ fuel := by
          have := remaining_advance hpop hinv.initialized hadv
          omega
        obtain ⟨dropped, hinv', hperm', hkeys, hsorted, hle', hne⟩ :=
          ih hinv₁ hrem₁ (fun y hy => hafter y (hperm.symm.subset (List.mem_cons_of_mem _ hy)))
        refine ⟨c.nextKv :: dropped, hinv', hperm.trans (hperm'.cons _), ?_, ?_, ?_, hne⟩
        · intro x hx
          rcases List.mem_cons.mp hx with rfl | hx
          · exact hck
          · exact hkeys x hx
        · exact List.Pairwise.cons (fun x hx => hle x (hperm'.symm.subset (List.mem_append_left _ hx)))
            hsorted
        · intro x hx y hy
          rcases List.mem_cons.mp hx with rfl | hx
          · exact hle y (hperm'.symm.subset (List.mem_append_right _ hy))
          · exact hle' x hx y hy
      · have heq : skipKey pop k (fuel + 1) it = it := by simp [skipKey, peek, hcur, hck]
        rw [heq]
        exact hstop hinv hafter (by simpa [hcur] using hck)

/-- What can be drained from a running merge: a sorted arrangement of the
entries still to come, cut by `dedupStream` when dedup is on. -/
def Drains (order : IterationOrder) (dedup : Bool) (it : MergeIterator K V)
    (out : List (RowEntry K V)) : Prop :=
  ∃ s, s.Perm it.contents ∧ s.Pairwise (EntryLe order) ∧ out = if dedup then dedupStream s else s

/-- One call of `next` that returns an entry keeps the merge running, and
puts its entry in front of what is drained after it. -/
theorem Inv.drains_of_emit {it it' : MergeIterator K V} {b : RowEntry K V}
    (hinv : Inv order dedup it) (h : step pop it = .emit b it') :
    Inv order dedup it' ∧ ∀ out, Drains order dedup it' out → Drains order dedup it (b :: out) := by
  obtain ⟨-, it₁, hadv, hcases⟩ := next_cases pop (step_emit pop h)
  cases hcur : it.current with
  | none => rw [advance_of_none pop hinv.initialized hcur] at hadv; cases hadv
  | some c =>
    obtain ⟨it₁', hadv', hinv₁, hperm, hle⟩ := hinv.advance_spec hpop hcur
    rw [hadv', Prod.mk.injEq, Option.some.injEq] at hadv
    obtain ⟨rfl, rfl⟩ := hadv
    rcases hcases with ⟨hkeep, rfl⟩ | ⟨hdedup, hmerge, rfl⟩
    · -- `advance` alone: the entry goes in front
      refine ⟨hinv₁, fun out ⟨s', hperm', hsorted', hout⟩ => ⟨c.nextKv :: s', ?_, ?_, ?_⟩⟩
      · exact (hperm'.cons _).trans hperm.symm
      · exact List.Pairwise.cons (fun y hy => hle y (hperm'.subset hy)) hsorted'
      · rw [hinv.dedup_eq] at hkeep
        cases dedup with
        | false => simp [hout]
        | true =>
          have hm : c.nextKv.value.isMerge = true := hkeep.resolve_left (by simp)
          simp [hout, dedupStream_cons, hm]
    · -- then the loop that skips the key of a value or tombstone
      rw [hinv.dedup_eq] at hdedup
      subst hdedup
      obtain ⟨dropped, hinv', hperm₁, hkeys, hsorted, hle', hne⟩ :=
        hinv₁.skipKey_spec hpop c.nextKv.key it₁'.remaining (Nat.le_refl _)
          (fun y hy => (hle y hy).keyBefore_or_eq)
      refine ⟨hinv', fun out ⟨s', hperm', hsorted', hout⟩ => ⟨c.nextKv :: (dropped ++ s'), ?_, ?_, ?_⟩⟩
      · exact ((hperm'.append_left dropped).trans hperm₁.symm |>.cons _).trans hperm.symm
      · refine List.Pairwise.cons (fun y hy => hle y ?_) ?_
        · exact hperm₁.symm.subset (List.mem_append.mpr
            ((List.mem_append.mp hy).imp id (fun hy => hperm'.subset hy)))
        · exact List.pairwise_append.mpr ⟨hsorted, hsorted', fun x hx y hy => hle' x hx y (hperm'.subset hy)⟩
      · -- the skipped entries are of the key, and no entry after them is
        have hdrop : (dropped ++ s').dropWhile (fun y => y.key = c.nextKv.key) = s' := by
          rw [List.dropWhile_append_of_pos (fun x hx => by simpa using hkeys x hx)]
          cases s' with
          | nil => rfl
          | cons y t =>
            exact List.dropWhile_cons_of_neg (by simpa using hne y (hperm'.subset List.mem_cons_self))
        simp [hout, dedupStream_cons, hmerge, hdrop]

/-- A running merge drains, and what it drains is a sorted arrangement of its
entries, cut by `dedupStream` when dedup is on. -/
theorem Inv.run {it : MergeIterator K V} (hinv : Inv order dedup it) :
    ∃ out, (machine hpop).run it = .ok out ∧ Drains order dedup it out := by
  refine Machine.run_spec (M := machine hpop) (Inv order dedup) (Drains order dedup)
    (fun hinv h => hinv.drains_of_emit hpop h) (fun _ h => ?_) (fun {s} hinv h => ?_)
    (fun hinv => step_ne_fail pop hinv.initialized _) it hinv
  · -- `next` never skips
    simp only [machine, step] at h
    split at h <;> cases h
  · -- the end of the stream: nothing was left
    obtain ⟨s', hnext⟩ := step_done pop h
    obtain ⟨-, hadv⟩ := next_none pop hnext
    have hcur : s.current = none := by
      cases hcur : s.current with
      | none => rfl
      | some c => rw [advance_of_current pop hinv.initialized hcur] at hadv; cases hadv
    exact ⟨[], by simp [hinv.contents_eq_nil hcur], List.Pairwise.nil, by cases dedup <;> simp [dedupStream]⟩

/-- `init` on a new merge of sorted children starts a running merge of all
their entries. -/
theorem inv_init (order : IterationOrder) (dedup : Bool) {children : List (List (RowEntry K V))}
    (hsorted : ∀ child ∈ children, child.Pairwise (EntryLe order)) :
    Inv order dedup (init pop ((newWithOrder children order).withDedup dedup)) ∧
      (init pop ((newWithOrder children order).withDedup dedup)).contents.Perm children.flatten := by
  let pending := children.zipIdx.map fun p => (p.2, p.1)
  have hchildren : pending.map Prod.snd = children := by
    simp [pending, List.map_map, Function.comp_def, List.zipIdx_map_fst]
  let pushed : MergeIterator K V := ⟨none, pushFirst [] pending, [], dedup, true, order⟩
  have hinit : init pop ((newWithOrder children order).withDedup dedup) = popCurrent pop pushed := rfl
  rw [hinit]
  refine ⟨⟨by simp [pushed], by simp [pushed], by simp [pushed], by simp [pushed], ?_, ?_,
    popCurrent_current_eq_none hpop⟩, ?_⟩
  · -- every child on the heap is one of the children, whole
    intro h hh
    rcases mem_pushFirst [] pending ((popCurrent_perm hpop).subset hh) with hh | ⟨p, hp, he⟩
    · cases hh
    · rw [he]
      exact hsorted p.2 (hchildren ▸ List.mem_map_of_mem hp)
  · exact popCurrent_le hpop pushed
  · refine (contents_popCurrent hpop rfl).trans ?_
    have hperm := flatMap_pushFirst [] pending
    simp only [List.flatMap_nil, List.nil_append, hchildren] at hperm
    simpa [contents, pushed] using hperm

/-- In ascending order a seek keeps the merge running, over exactly the
entries still to come at or after the target. -/
theorem Inv.seek_ascending {it : MergeIterator K V} (hinv : Inv .ascending dedup it) (t : K) :
    ∃ it', seek pop it t = .ok it' ∧ Inv .ascending dedup it' ∧
      it'.contents.Perm (it.contents.filter fun e => atOrAfter .ascending t e.key) := by
  let seeked := (it.current.toList ++ it.iterators).filterMap fun h => h.seek it.order t
  let it₀ : MergeIterator K V := { it with current := none, iterators := seeked }
  have hseek : seek pop it t = .ok (popCurrent pop it₀) := by
    simp [seek, hinv.initialized, it₀, seeked]
  -- each heap entry that seeks keeps its entries at or after the target
  have hentries : ∀ h ∈ it.current.toList ++ it.iterators,
      (h.seek it.order t).toList.flatMap MergeIteratorHeapEntry.entries =
        h.entries.filter fun e => atOrAfter .ascending t e.key := fun h hh => by
    rw [hinv.order_eq]
    exact MergeIteratorHeapEntry.seek_ascending (hinv.sorted h hh) t
  have hsorted : ∀ h ∈ seeked, h.entries.Pairwise (EntryLe .ascending) := by
    intro h hh
    obtain ⟨g, hg, hgh⟩ := List.mem_filterMap.mp hh
    have hg' := hentries g hg
    rw [hgh] at hg'
    simp only [Option.toList_some, List.flatMap_cons, List.flatMap_nil, List.append_nil] at hg'
    rw [hg']
    exact (hinv.sorted g hg).filter _
  have hcontents : it₀.contents = it.contents.filter fun e => atOrAfter .ascending t e.key := by
    simp only [contents, it₀, seeked, hinv.pending, List.map_nil, List.flatten_nil,
      List.append_nil, Option.toList_none, List.nil_append, List.filterMap_eq_flatMap_toList,
      List.flatMap_assoc, List.filter_flatMap]
    exact List.flatMap_congr hentries
  refine ⟨popCurrent pop it₀, hseek, ⟨?_, ?_, ?_, ?_, ?_, ?_, popCurrent_current_eq_none hpop⟩, ?_⟩
  · simpa [it₀] using hinv.initialized
  · simpa [it₀] using hinv.order_eq
  · simpa [it₀] using hinv.dedup_eq
  · simpa [it₀] using hinv.pending
  · intro h hh
    exact hsorted h ((popCurrent_perm hpop).subset hh)
  · have hle := popCurrent_le hpop it₀
    rw [show it₀.order = .ascending from hinv.order_eq] at hle
    exact hle
  · rw [← hcontents]
    exact contents_popCurrent hpop rfl

end Lawful

/-- A merge of children sorted by key in the iteration order and, within a
key, by sequence number descending, driven by `next` until it returns
nothing, yields, with dedup off, all their entries in that order; with dedup
on, the entries in that order with each key's versions, from the newest, cut
after the first that is not a merge operand. This holds for every heap `pop`
that takes out a least entry. -/
theorem run_merges_children
    {pop : IterationOrder → List (MergeIteratorHeapEntry K V) →
      Option (MergeIteratorHeapEntry K V × List (MergeIteratorHeapEntry K V))}
    (hpop : ∀ order, PriorityQueue.IsMinPop (MergeIteratorHeapEntry.Le order) (pop order))
    (order : IterationOrder) (dedup : Bool) (children : List (List (RowEntry K V)))
    (hsorted : ∀ child ∈ children, child.Pairwise (EntryLe order)) :
    ∃ out, (machine hpop).run (init pop ((newWithOrder children order).withDedup dedup)) = .ok out ∧
      (dedup = false → out.Perm children.flatten ∧ out.Pairwise (EntryLe order)) ∧
      (dedup = true → out.Pairwise (EntryLe order) ∧
        ∃ s : List (RowEntry K V), s.Perm children.flatten ∧ s.Pairwise (EntryLe order) ∧
          ∀ k, out.filter (fun e => e.key = k) = throughBarrier (s.filter (fun e => e.key = k))) := by
  obtain ⟨hinv, hcontents⟩ := inv_init hpop order dedup hsorted
  obtain ⟨out, hrun, s, hperm, hs, hout⟩ := hinv.run hpop
  refine ⟨out, hrun, fun hdedup => ?_, fun hdedup => ?_⟩
  · subst hdedup
    simp only [Bool.false_eq_true, if_false] at hout
    subst hout
    exact ⟨hperm.trans hcontents, hs⟩
  · subst hdedup
    simp only [if_true] at hout
    subst hout
    exact ⟨hs.sublist (dedupStream_sublist s), s, hperm.trans hcontents, hs,
      fun k => dedupStream_filter hs k⟩

/-- Two children with versions of key 1 on both sides: a merge operand over a
value, and an older value under it. -/
def sampleChildren : List (List (RowEntry Nat Nat)) :=
  [[⟨1, .merge 5, 3, none, none⟩, ⟨1, .value 4, 1, none, none⟩],
   [⟨1, .value 9, 2, none, none⟩, ⟨2, .tombstone, 1, none, none⟩]]

theorem run_merges_children_sample :
    (∀ child ∈ sampleChildren, child.Pairwise (EntryLe .ascending)) ∧
    ∃ out, (@machine Nat Nat (fun o => PriorityQueue.selectMin (MergeIteratorHeapEntry.Le o)) _
        (fun _ => PriorityQueue.isMinPop_selectMin)).run
        (init (fun o => PriorityQueue.selectMin (MergeIteratorHeapEntry.Le o))
          ((newWithOrder sampleChildren .ascending).withDedup true)) = .ok out ∧
      (true = false → out.Perm sampleChildren.flatten ∧ out.Pairwise (EntryLe .ascending)) ∧
      (true = true → out.Pairwise (EntryLe .ascending) ∧
        ∃ s : List (RowEntry Nat Nat), s.Perm sampleChildren.flatten ∧
          s.Pairwise (EntryLe .ascending) ∧
          ∀ k, out.filter (fun e => e.key = k) = throughBarrier (s.filter (fun e => e.key = k))) :=
  ⟨by decide, run_merges_children (fun _ => PriorityQueue.isMinPop_selectMin) .ascending true
    sampleChildren (by decide)⟩

-- the older value of key 1 is dropped under the newer one, the operand kept
example : (@machine Nat Nat (fun o => PriorityQueue.selectMin (MergeIteratorHeapEntry.Le o)) _
        (fun _ => PriorityQueue.isMinPop_selectMin)).runFuel 10
        (init (fun o => PriorityQueue.selectMin (MergeIteratorHeapEntry.Le o))
          ((newWithOrder sampleChildren .ascending).withDedup true)) =
      .ok [⟨1, .merge 5, 3, none, none⟩, ⟨1, .value 9, 2, none, none⟩,
        ⟨2, .tombstone, 1, none, none⟩] := by
  decide

/-- In ascending order, a seek on a running merge leaves exactly the entries
still to come at or after the target: the merge then drains a sorted
arrangement of them, cut as `next` cuts when dedup is on. This holds for every
heap `pop` that takes out a least entry. -/
theorem seek_ascending_drains
    {pop : IterationOrder → List (MergeIteratorHeapEntry K V) →
      Option (MergeIteratorHeapEntry K V × List (MergeIteratorHeapEntry K V))}
    (hpop : ∀ order, PriorityQueue.IsMinPop (MergeIteratorHeapEntry.Le order) (pop order))
    {dedup : Bool} {it : MergeIterator K V} (hinv : Inv .ascending dedup it) (t : K) :
    ∃ it', seek pop it t = .ok it' ∧ ∃ out, (machine hpop).run it' = .ok out ∧
      ∃ s : List (RowEntry K V), s.Perm (it.contents.filter fun e => atOrAfter .ascending t e.key) ∧
        s.Pairwise (EntryLe .ascending) ∧ out = if dedup then dedupStream s else s := by
  obtain ⟨it', hseek, hinv', hperm⟩ := hinv.seek_ascending hpop t
  obtain ⟨out, hrun, s, hs, hsorted, hout⟩ := hinv'.run hpop
  exact ⟨it', hseek, out, hrun, s, hs.trans hperm, hsorted, hout⟩

/-- The heap's `pop` as the selection of a least entry. -/
def selectMinPop (order : IterationOrder) : List (MergeIteratorHeapEntry K V) →
    Option (MergeIteratorHeapEntry K V × List (MergeIteratorHeapEntry K V)) :=
  PriorityQueue.selectMin (MergeIteratorHeapEntry.Le order)

theorem isMinPop_selectMinPop (order : IterationOrder) :
    PriorityQueue.IsMinPop (MergeIteratorHeapEntry.Le order) (selectMinPop (K := K) (V := V) order) :=
  PriorityQueue.isMinPop_selectMin

theorem seek_ascending_drains_sample :
    ∃ it', seek selectMinPop (init selectMinPop ((newWithOrder sampleChildren .ascending).withDedup true)) 2 =
        .ok it' ∧ ∃ out, (machine isMinPop_selectMinPop).run it' = .ok out ∧
      ∃ s : List (RowEntry Nat Nat),
        s.Perm ((init selectMinPop ((newWithOrder sampleChildren .ascending).withDedup true)).contents.filter
          fun e => atOrAfter .ascending 2 e.key) ∧
        s.Pairwise (EntryLe .ascending) ∧ out = if true then dedupStream s else s :=
  seek_ascending_drains isMinPop_selectMinPop (inv_init isMinPop_selectMinPop .ascending true (by decide)).1 2

/-- One child in descending order: key 5, then key 3. -/
def descendingChild : List (RowEntry Nat Nat) :=
  [⟨5, .value 50, 1, none, none⟩, ⟨3, .value 30, 1, none, none⟩]

/-- In descending order a seek to 4 keeps the child's entry of key 5, on the
far side of the target, and the merge yields it; of the child's entries, only
the one of key 3 is at or after 4 in that order. -/
theorem seek_descending_yields_key_above_target :
    ∃ it, seek selectMinPop (init selectMinPop (newWithOrder [descendingChild] .descending)) 4 = .ok it ∧
      (machine isMinPop_selectMinPop).run it = .ok descendingChild ∧
      descendingChild.filter (fun e => atOrAfter .descending 4 e.key) = [⟨3, .value 30, 1, none, none⟩] := by
  refine ⟨_, rfl, ?_, by decide⟩
  rw [← Machine.runFuel_eq _ 10 _ (by decide)]
  decide

end MergeIterator

end SlateDb
