import SlateDb.MemTable
import SlateDb.DbSpec
import SlateDb.MergeIteratorSpec

/-!
# What the memtable iterator yields

A memtable's rows are sorted by key and then by sequence number descending.
The internal range of a user range holds exactly the rows whose key lies in
it, since every sequence number fits a `u64` (`contains_ofRange`).

In ascending order the rows still to come are the entry held ahead and the
rest of the skip list's range (`ascRemaining`); each call of `next` returns
the first of them, and `seek` drops those below the target. In descending
order the skip list's range is read from the back, which gives each key's
versions lowest sequence number first; `next` regroups each key on the stack
(`regroup`), so the rows come by key descending and then sequence number
descending (`descRemaining`).
-/

namespace SlateDb

variable {K V : Type}

/-! ### Entries keyed by their rows -/

/-- Each entry of the skip list is keyed by its row's key. -/
def KeyedByRow (l : List (SequencedKey K × RowEntry K V)) : Prop := ∀ p ∈ l, p.1.userKey = p.2.key

theorem KeyedByRow.sublist {l l' : List (SequencedKey K × RowEntry K V)} (h : KeyedByRow l) (hsub : l'.Sublist l) :
    KeyedByRow l' :=
  fun p hp => h p (hsub.subset hp)

section Runs

variable [DecidableEq K]

theorem KeyedByRow.map_snd_takeWhile {l : List (SequencedKey K × RowEntry K V)} (h : KeyedByRow l) (k : K) :
    (l.takeWhile (·.1.userKey = k)).map Prod.snd = (l.map Prod.snd).takeWhile (·.key = k) := by
  induction l with
  | nil => rfl
  | cons p l ih =>
    have hp := h p List.mem_cons_self
    have hl : KeyedByRow l := fun q hq => h q (List.mem_cons_of_mem _ hq)
    by_cases hk : p.2.key = k
    · simp [hp, hk, ih hl]
    · simp [hp, hk]

theorem KeyedByRow.map_snd_dropWhile {l : List (SequencedKey K × RowEntry K V)} (h : KeyedByRow l) (k : K) :
    (l.dropWhile (·.1.userKey = k)).map Prod.snd = (l.map Prod.snd).dropWhile (·.key = k) := by
  induction l with
  | nil => rfl
  | cons p l ih =>
    have hp := h p List.mem_cons_self
    have hl : KeyedByRow l := fun q hq => h q (List.mem_cons_of_mem _ hq)
    by_cases hk : p.2.key = k
    · simp [hp, hk, ih hl]
    · simp [hp, hk]

end Runs

/-- The entry held ahead and the ones after it. -/
theorem toList_map_head?_append {α β : Type} (f : α → β) (l : List α) :
    (l.head?.map f).toList ++ l.tail.map f = l.map f := by
  cases l <;> rfl

/-- The entry taken from the back and the ones before it, read from the back. -/
theorem toList_map_getLast?_append {α β : Type} (f : α → β) (l : List α) :
    (l.getLast?.map f).toList ++ (l.dropLast.map f).reverse = (l.map f).reverse := by
  induction l using List.reverseRecOn with
  | nil => rfl
  | append_singleton l x _ => simp

variable [LinearOrder K]

namespace KVTableInternalKeyRange

section Sentinels

variable {seq : Nat}

theorem cmp_max_ne_gt (s k : K) (hseq : seq ≤ u64Max) :
    (SequencedKey.cmp ⟨s, u64Max⟩ ⟨k, seq⟩ != .gt) = decide (s ≤ k) := by
  rw [Bool.eq_iff_iff, bne_iff_ne, ne_eq, SequencedKey.cmp_eq_gt, decide_eq_true_iff]
  dsimp only
  constructor
  · intro h
    exact not_lt.mp fun hlt => h (.inl hlt)
  · rintro h (hlt | ⟨-, hmax⟩)
    · exact absurd h (not_le.mpr hlt)
    · omega

theorem cmp_zero_eq_lt (s k : K) : (SequencedKey.cmp ⟨s, 0⟩ ⟨k, seq⟩ == .lt) = decide (s < k) := by
  rw [Bool.eq_iff_iff, beq_iff_eq, SequencedKey.cmp_eq_lt, decide_eq_true_iff]
  dsimp only
  constructor
  · rintro (hlt | ⟨-, hzero⟩)
    · exact hlt
    · omega
  · exact .inl

theorem cmp_zero_ne_gt (k e : K) : (SequencedKey.cmp ⟨k, seq⟩ ⟨e, 0⟩ != .gt) = decide (k ≤ e) := by
  rw [Bool.eq_iff_iff, bne_iff_ne, ne_eq, SequencedKey.cmp_eq_gt, decide_eq_true_iff]
  dsimp only
  constructor
  · intro h
    exact not_lt.mp fun hlt => h (.inl hlt)
  · rintro h (hlt | ⟨-, hzero⟩)
    · exact absurd h (not_le.mpr hlt)
    · omega

theorem cmp_max_eq_lt (k e : K) (hseq : seq ≤ u64Max) :
    (SequencedKey.cmp ⟨k, seq⟩ ⟨e, u64Max⟩ == .lt) = decide (k < e) := by
  rw [Bool.eq_iff_iff, beq_iff_eq, SequencedKey.cmp_eq_lt, decide_eq_true_iff]
  dsimp only
  constructor
  · rintro (hlt | ⟨-, hmax⟩)
    · exact hlt
    · omega
  · exact .inl

/-- The sentinels `u64::MAX` and `0` take every version of a bounding key in
or out together. -/
theorem contains_ofRange (range : BytesRange K) (k : K) (hseq : seq ≤ u64Max) :
    (ofRange range).contains ⟨k, seq⟩ = range.contains k := by
  obtain ⟨startBound, endBound⟩ := range
  cases startBound <;> cases endBound <;>
    simp only [contains, ofRange, BytesRange.contains, cmp_max_ne_gt _ _ hseq, cmp_zero_eq_lt,
      cmp_zero_ne_gt, cmp_max_eq_lt _ _ hseq]

end Sentinels

end KVTableInternalKeyRange

namespace MemTableIterator

/-- A drain returns the rows still to come, for any account of them of which
each call returns the first and leaves the rest. -/
theorem drain_of_nextSync (I : MemTableIterator K V → Prop) (rem : MemTableIterator K V → List (RowEntry K V))
    (hnext : ∀ s, I s → s.nextSync.1 = (rem s).head? ∧ I s.nextSync.2 ∧ rem s.nextSync.2 = (rem s).tail)
    {it : MemTableIterator K V} (h : I it) : it.drain = .ok (rem it) := by
  obtain ⟨out, hrun, hout⟩ := machine.run_spec I (fun s out => out = rem s)
    (fun {s b s'} hs hstep => by
      simp only [machine, step] at hstep
      obtain ⟨hfst, hinv, hrest⟩ := hnext s hs
      split at hstep
      · rename_i e s'' hsync
        cases hstep
        rw [hsync] at hfst hinv hrest
        refine ⟨hinv, fun out hout => ?_⟩
        rw [hout, hrest]
        exact List.cons_head?_tail (Option.mem_def.mpr hfst.symm)
      · cases hstep)
    (fun {s s'} _ hstep => by
      simp only [machine, step] at hstep
      split at hstep <;> cases hstep)
    (fun {s} hs hstep => by
      simp only [machine, step] at hstep
      obtain ⟨hfst, -, -⟩ := hnext s hs
      split at hstep
      · cases hstep
      · rename_i hsync
        rw [hsync] at hfst
        exact (List.head?_eq_none_iff.mp hfst.symm).symm)
    (fun {s e} _ hstep => by
      simp only [machine, step] at hstep
      split at hstep <;> cases hstep)
    it h
  rw [MemTableIterator.drain, hrun, hout]

/-! ### Ascending order -/

/-- The rows an ascending iterator has still to return. -/
def ascRemaining (it : MemTableIterator K V) : List (RowEntry K V) := it.item.toList ++ it.inner.map Prod.snd

/-- An ascending iterator after its priming call: nothing is held back once
the entry ahead is gone. -/
structure AscInv (it : MemTableIterator K V) : Prop where
  ordering : it.ordering = .ascending
  stack : it.descendingStack = []
  inner_nil : it.item = none → it.inner = []

/-- One call in ascending order returns the first row still to come and
leaves the others. -/
theorem AscInv.nextSync {it : MemTableIterator K V} (h : it.AscInv) :
    it.nextSync.1 = (ascRemaining it).head? ∧ it.nextSync.2.AscInv ∧
      ascRemaining it.nextSync.2 = (ascRemaining it).tail := by
  have hnext : it.nextSync = it.nextAscending := by simp [MemTableIterator.nextSync, h.ordering]
  rw [hnext]
  cases hitem : it.item with
  | none =>
    have hinner := h.inner_nil hitem
    refine ⟨by simp [nextAscending, ascRemaining, hitem, hinner], ⟨h.ordering, h.stack, ?_⟩, ?_⟩ <;>
      simp [nextAscending, ascRemaining, hitem, hinner]
  | some x =>
    refine ⟨by simp [nextAscending, ascRemaining, hitem], ⟨h.ordering, h.stack, ?_⟩, ?_⟩
    · cases hinner : it.inner <;> simp [nextAscending, hinner]
    · simp only [nextAscending, ascRemaining, hitem, Option.toList_some, List.cons_append, List.tail_cons]
      exact toList_map_head?_append _ _

theorem AscInv.drain {it : MemTableIterator K V} (h : it.AscInv) : it.drain = .ok (ascRemaining it) :=
  drain_of_nextSync AscInv ascRemaining (fun _ hs => hs.nextSync) h

/-- A seek in ascending order drops the rows still to come up to the first
at or after the target. -/
theorem AscInv.seek {it : MemTableIterator K V} (h : it.AscInv) (nextKey : K) :
    (it.seek nextKey).AscInv ∧
      ascRemaining (it.seek nextKey) = seekChild .ascending nextKey (ascRemaining it) := by
  fun_induction it.seek nextKey with
  | case1 it record hitem hlt _ ih =>
    obtain ⟨-, hinv, hrest⟩ := h.nextSync
    obtain ⟨hinv', hrem⟩ := ih hinv
    refine ⟨hinv', ?_⟩
    rw [hrem, hrest]
    simp [seekChild, atOrAfter, ascRemaining, hitem, hlt]
  | case2 it record hitem hlt =>
    refine ⟨h, ?_⟩
    simp [seekChild, atOrAfter, ascRemaining, hitem, hlt]
  | case3 it hitem =>
    refine ⟨h, ?_⟩
    simp [seekChild, ascRemaining, hitem, h.inner_nil hitem]

/-- Calls in ascending order keep the invariant and leave a suffix of the rows
still to come. -/
theorem AscInv.call {it : MemTableIterator K V} (h : it.AscInv) (c : Call K) :
    (it.call c).AscInv ∧ ascRemaining (it.call c) <:+ ascRemaining it := by
  cases c with
  | next =>
    obtain ⟨-, hinv, hrest⟩ := h.nextSync
    exact ⟨hinv, hrest ▸ List.tail_suffix _⟩
  | seek nextKey =>
    obtain ⟨hinv, hrem⟩ := h.seek nextKey
    exact ⟨hinv, hrem ▸ List.dropWhile_suffix _⟩

theorem AscInv.calls : ∀ (calls : List (Call K)) {it : MemTableIterator K V}, it.AscInv →
    (calls.foldl MemTableIterator.call it).AscInv ∧
      ascRemaining (calls.foldl MemTableIterator.call it) <:+ ascRemaining it
  | [], _, h => ⟨h, List.suffix_refl _⟩
  | c :: calls, it, h => by
    obtain ⟨hinv, hsuffix⟩ := h.call c
    obtain ⟨hinv', hsuffix'⟩ := AscInv.calls calls hinv
    exact ⟨hinv', hsuffix'.trans hsuffix⟩

/-! ### Descending order -/

/-- Rows read from the back, each key's run turned around: the order in which
a descending iterator returns them. -/
def regroup : List (RowEntry K V) → List (RowEntry K V)
  | [] => []
  | first :: rest =>
    (first :: rest.takeWhile (·.key = first.key)).reverse ++ regroup (rest.dropWhile (·.key = first.key))
termination_by l => l.length
decreasing_by exact Nat.lt_succ_of_le (List.length_dropWhile_le _ _)

/-- The rows a descending iterator has still to return: the rest of the
current key on the stack, then the others regrouped from the back. -/
def descRemaining (it : MemTableIterator K V) : List (RowEntry K V) :=
  it.descendingStack ++ regroup (it.item.toList ++ (it.inner.map Prod.snd).reverse)

/-- A descending iterator after its priming call. -/
structure DescInv (it : MemTableIterator K V) : Prop where
  ordering : it.ordering = .descending
  inner_nil : it.item = none → it.inner = []
  keyed : KeyedByRow it.inner

/-- A call with nothing on the stack collects the key of the entry held
ahead: the first group of `regroup`. -/
theorem DescInv.nextSync_of_item {it : MemTableIterator K V} (h : it.DescInv) (hstack : it.descendingStack = [])
    {first : RowEntry K V} (hitem : it.item = some first) :
    it.nextSync.1 = (descRemaining it).head? ∧ it.nextSync.2.DescInv ∧
      descRemaining it.nextSync.2 = (descRemaining it).tail := by
  have hkeyed : KeyedByRow it.inner.reverse := fun p hp => h.keyed p (List.mem_reverse.mp hp)
  have htake := hkeyed.map_snd_takeWhile first.key
  have hdrop := hkeyed.map_snd_dropWhile first.key
  have hsuffix := List.dropWhile_suffix (fun p : SequencedKey K × RowEntry K V => decide (p.1.userKey = first.key))
    (l := it.inner.reverse)
  set T := it.inner.reverse.takeWhile (·.1.userKey = first.key)
  set D := it.inner.reverse.dropWhile (·.1.userKey = first.key)
  obtain ⟨top, stack, hpush⟩ : ∃ top stack, (T.map Prod.snd).reverse ++ [first] = top :: stack :=
    List.exists_cons_of_ne_nil (by simp)
  have hnext : it.nextSync = (some top,
      { it with inner := D.tail.reverse, item := D.head?.map Prod.snd, descendingStack := stack }) := by
    simp only [MemTableIterator.nextSync, h.ordering, nextDescending, hstack, hitem, fillDescendingStack_eq]
    simp only [T, D] at hpush ⊢
    rw [hpush]
  -- the first group of the rows read from the back is the run of `first`'s key
  have hrem : descRemaining it = top :: stack ++ regroup (D.map Prod.snd) := by
    rw [descRemaining, hstack, hitem, Option.toList_some, List.nil_append, List.singleton_append,
      ← List.map_reverse, regroup, ← htake, ← hdrop, List.reverse_cons, hpush]
  rw [hnext, hrem]
  refine ⟨rfl, ⟨h.ordering, fun hnone => ?_, fun p hp => ?_⟩, ?_⟩
  · simp only [Option.map_eq_none_iff, List.head?_eq_none_iff] at hnone
    simp [hnone]
  · exact hkeyed p (hsuffix.subset (List.mem_of_mem_tail (List.mem_reverse.mp hp)))
  · rw [descRemaining, List.map_reverse, List.reverse_reverse, toList_map_head?_append]
    rfl

theorem DescInv.nextSync {it : MemTableIterator K V} (h : it.DescInv) :
    it.nextSync.1 = (descRemaining it).head? ∧ it.nextSync.2.DescInv ∧
      descRemaining it.nextSync.2 = (descRemaining it).tail := by
  have hnext : it.nextSync = it.nextDescending := by simp [MemTableIterator.nextSync, h.ordering]
  cases hstack : it.descendingStack with
  | cons top stack =>
    rw [hnext]
    simp only [nextDescending, hstack]
    exact ⟨by simp [descRemaining, hstack], ⟨h.ordering, h.inner_nil, h.keyed⟩, by simp [descRemaining, hstack]⟩
  | nil =>
    cases hitem : it.item with
    | some first => exact h.nextSync_of_item hstack hitem
    | none =>
      have hinner := h.inner_nil hitem
      rw [hnext]
      simp only [nextDescending, hstack, hitem, hinner, nextBack, List.getLast?_nil, List.dropLast_nil,
        Option.map_none]
      refine ⟨by simp [descRemaining, hstack, hitem, hinner, regroup], ⟨h.ordering, fun _ => rfl, ?_⟩, ?_⟩
      · intro p hp
        cases hp
      · simp [descRemaining, hstack, hitem, hinner, regroup]

theorem DescInv.drain {it : MemTableIterator K V} (h : it.DescInv) : it.drain = .ok (descRemaining it) :=
  drain_of_nextSync DescInv descRemaining (fun _ hs => hs.nextSync) h

theorem regroup_perm (l : List (RowEntry K V)) : (regroup l).Perm l := by
  fun_induction regroup l with
  | case1 => exact .nil
  | case2 first rest ih =>
    refine ((List.reverse_perm _).append ih).trans ?_
    rw [List.cons_append, List.takeWhile_append_dropWhile]

/-- Past the run of the first key, rows with keys descending lie below it. -/
theorem key_lt_of_mem_dropWhile {k : K} : ∀ {rest : List (RowEntry K V)},
    rest.Pairwise (fun a b => b.key ≤ a.key) → (∀ b ∈ rest, b.key ≤ k) →
      ∀ b ∈ rest.dropWhile (·.key = k), b.key < k
  | [], _, _, _, hb => by simp at hb
  | x :: xs, hsorted, hle, b, hb => by
    rw [List.pairwise_cons] at hsorted
    by_cases hx : x.key = k
    · rw [List.dropWhile_cons_of_pos (by simpa using hx)] at hb
      exact key_lt_of_mem_dropWhile hsorted.2 (fun c hc => hle c (List.mem_cons_of_mem _ hc)) b hb
    · rw [List.dropWhile_cons_of_neg (by simpa using hx)] at hb
      have hxk : x.key < k := lt_of_le_of_ne (hle x List.mem_cons_self) hx
      rcases List.mem_cons.mp hb with rfl | hb
      · exact hxk
      · exact lt_of_le_of_lt (hsorted.1 b hb) hxk

/-- Rows in the memtable's order read from the back come out of `regroup` in
the merge iterator's descending order. -/
theorem regroup_pairwise (l : List (RowEntry K V)) :
    l.Pairwise (fun a b => EntryLt b a) → (regroup l).Pairwise (EntryLe .descending) := by
  fun_induction regroup l with
  | case1 => exact fun _ => .nil
  | case2 first rest ih =>
    intro hl
    have hsorted : (first :: rest).Pairwise (fun a b => b.key ≤ a.key) :=
      hl.imp fun hab => by rcases hab with hlt | ⟨heq, -⟩ <;> [exact hlt.le; exact heq.le]
    rw [List.pairwise_cons] at hl hsorted
    -- the group shares `first`'s key, so it is ordered by sequence number alone
    have hgroup : ∀ a ∈ first :: rest.takeWhile (·.key = first.key), a.key = first.key := by
      intro a ha
      rcases List.mem_cons.mp ha with rfl | ha
      · rfl
      · simpa using List.mem_takeWhile_imp ha
    have hgroupSorted : (first :: rest.takeWhile (·.key = first.key)).Pairwise (fun a b => EntryLt b a) :=
      (List.pairwise_cons.mpr hl).sublist ((List.takeWhile_prefix _).sublist.cons_cons first)
    rw [List.pairwise_append, List.pairwise_reverse]
    refine ⟨hgroupSorted.imp_of_mem fun ha hb hab => ?_, ih (hl.2.sublist (List.dropWhile_sublist _)), ?_⟩
    · rcases hab with hlt | ⟨heq, hseq⟩
      · exact absurd ((hgroup _ hb).trans (hgroup _ ha).symm) hlt.ne
      · exact entryLe_iff.mpr (.inr ⟨heq, hseq.le⟩)
    · intro a ha b hb
      have hb' := (regroup_perm _).subset hb
      have hlt := key_lt_of_mem_dropWhile hsorted.2 hsorted.1 b hb'
      refine entryLe_iff.mpr (.inl ?_)
      show b.key < a.key
      rw [hgroup a (List.mem_reverse.mp ha)]
      exact hlt

end MemTableIterator

namespace KVTable

open MemTableIterator

theorem keyedByRow_filter {t : KVTable K V} (ht : t.WellFormed) (p : SequencedKey K × RowEntry K V → Bool) :
    KeyedByRow (t.map.filter p) :=
  fun q hq => by rw [ht.keys q (List.mem_filter.mp hq).1]

/-- The skip list's range over a well-formed memtable holds the rows whose key
lies in the user range. -/
theorem map_snd_filter_ofRange {t : KVTable K V} (ht : t.WellFormed) (hseq : ∀ e ∈ t.rows, e.seq ≤ u64Max)
    (range : BytesRange K) :
    (t.map.filter fun p => (KVTableInternalKeyRange.ofRange range).contains p.1).map Prod.snd =
      t.rows.filter fun e => range.contains e.key := by
  rw [rows, List.filter_map]
  congr 1
  refine List.filter_congr fun p hp => ?_
  rw [ht.keys p hp, Function.comp_apply]
  exact KVTableInternalKeyRange.contains_ofRange range p.2.key (hseq p.2 (List.mem_map_of_mem hp))

section Range

variable {t : KVTable K V} (ht : t.WellFormed) (hseq : ∀ e ∈ t.rows, e.seq ≤ u64Max) (range : BytesRange K)
include ht hseq

theorem range_ascending :
    (t.range range .ascending).AscInv ∧
      ascRemaining (t.range range .ascending) = t.rows.filter fun e => range.contains e.key := by
  rw [← map_snd_filter_ofRange ht hseq range]
  dsimp only [KVTable.range]
  generalize t.map.filter _ = F
  refine ⟨⟨rfl, rfl, fun hnone => ?_⟩, toList_map_head?_append _ _⟩
  simp only [MemTableIterator.nextSync, nextAscending, Option.map_eq_none_iff, List.head?_eq_none_iff] at hnone ⊢
  simp [hnone]

theorem range_descending :
    (t.range range .descending).DescInv ∧
      descRemaining (t.range range .descending) = regroup (t.rows.filter fun e => range.contains e.key).reverse := by
  rw [← map_snd_filter_ofRange ht hseq range]
  have hkeyed := keyedByRow_filter ht fun p => (KVTableInternalKeyRange.ofRange range).contains p.1
  dsimp only [KVTable.range]
  generalize t.map.filter _ = F at hkeyed ⊢
  refine ⟨⟨rfl, fun hnone => ?_, hkeyed.sublist (List.dropLast_sublist F)⟩, ?_⟩
  · simp only [MemTableIterator.nextSync, nextDescending, nextBack, Option.map_eq_none_iff,
      List.getLast?_eq_none_iff] at hnone ⊢
    simp [hnone]
  · simp only [MemTableIterator.nextSync, nextDescending, nextBack, descRemaining, List.nil_append]
    rw [toList_map_getLast?_append]

/-- `KVTable::range` yields the stored rows whose key lies in the range, in
either order sorted as the merge iterator expects of a child: by key in the
order, then by sequence number descending. -/
theorem range_drain_of_wellFormed (order : IterationOrder) :
    ∃ out, (t.range range order).drain = .ok out ∧
      out.Perm (t.rows.filter fun e => range.contains e.key) ∧ out.Pairwise (EntryLe order) := by
  have hsorted : (t.rows.filter fun e => range.contains e.key).Pairwise EntryLt :=
    ht.sortedStream.sublist List.filter_sublist
  cases order with
  | ascending =>
    obtain ⟨hinv, hrem⟩ := range_ascending ht hseq range
    refine ⟨_, hinv.drain.trans (congrArg _ hrem), .refl _, hsorted.imp fun hab => ?_⟩
    rcases hab with hlt | ⟨heq, hlt⟩
    · exact entryLe_iff.mpr (.inl hlt)
    · exact entryLe_iff.mpr (.inr ⟨heq, hlt.le⟩)
  | descending =>
    obtain ⟨hinv, hrem⟩ := range_descending ht hseq range
    refine ⟨_, hinv.drain.trans (congrArg _ hrem), (regroup_perm _).trans (List.reverse_perm _), ?_⟩
    exact regroup_pairwise _ (List.pairwise_reverse.mpr hsorted)

end Range

/-! ### Memtables built by puts -/

theorem seq_le_of_mem_rows_foldl_put {puts : List (RowEntry K V)} (hseq : ∀ e ∈ puts, e.seq ≤ u64Max) :
    ∀ e ∈ (puts.foldl put new).rows, e.seq ≤ u64Max := fun e he => by
  rcases DbInner.mem_rows_foldl_put he with he | he
  · exact hseq e he
  · simp [new, rows] at he

/-- Puts at keys `1` and `3`. -/
def twoKeyPuts : List (RowEntry Nat Nat) := [⟨1, .value 10, 1, none, none⟩, ⟨3, .value 30, 1, none, none⟩]

/-- The range of all keys. -/
def wholeRange : BytesRange Nat := ⟨.unbounded, .unbounded⟩

/-- After any puts, `KVTable::range` yields exactly the stored rows whose key
lies in the range: in ascending order by key and then sequence number
descending, in descending order by key descending and then sequence number
descending. -/
theorem range_yields_rows_in_order {puts : List (RowEntry K V)} (hseq : ∀ e ∈ puts, e.seq ≤ u64Max)
    (range : BytesRange K) (order : IterationOrder) :
    ∃ out, ((puts.foldl put new).range range order).drain = .ok out ∧
      out.Perm ((puts.foldl put new).rows.filter fun e => range.contains e.key) ∧
      out.Pairwise (EntryLe order) :=
  range_drain_of_wellFormed (DbInner.wellFormed_foldl_put wellFormed_new puts)
    (seq_le_of_mem_rows_foldl_put hseq) range order

theorem twoKeyPuts_range_descending :
    ∃ out, ((twoKeyPuts.foldl put new).range wholeRange .descending).drain = .ok out ∧
      out.Perm ((twoKeyPuts.foldl put new).rows.filter fun e => wholeRange.contains e.key) ∧
      out.Pairwise (EntryLe .descending) :=
  range_yields_rows_in_order (by decide) wholeRange .descending

/-- In ascending order, a seek after any calls of `next` and `seek` leaves
exactly the rows still to come whose key is at or after the target. -/
theorem seek_ascending_restricts {puts : List (RowEntry K V)} (hseq : ∀ e ∈ puts, e.seq ≤ u64Max)
    (range : BytesRange K) (calls : List (MemTableIterator.Call K)) (nextKey : K) :
    ((calls.foldl MemTableIterator.call ((puts.foldl put new).range range .ascending)).seek nextKey).drain =
      (calls.foldl MemTableIterator.call ((puts.foldl put new).range range .ascending)).drain.map
        (List.filter fun e => atOrAfter .ascending nextKey e.key) := by
  have ht := DbInner.wellFormed_foldl_put wellFormed_new puts
  obtain ⟨hstart, hrem⟩ := range_ascending ht (seq_le_of_mem_rows_foldl_put hseq) range
  obtain ⟨hinv, hsuffix⟩ := MemTableIterator.AscInv.calls calls hstart
  obtain ⟨hseek, hseekRem⟩ := hinv.seek nextKey
  -- what is still to come is a suffix of the sorted rows of the range
  have hsorted : (MemTableIterator.ascRemaining (calls.foldl MemTableIterator.call
      ((puts.foldl put new).range range .ascending))).Pairwise (EntryLe .ascending) := by
    refine ((ht.sortedStream.sublist List.filter_sublist).sublist (hrem ▸ hsuffix.sublist)).imp fun hab => ?_
    rcases hab with hlt | ⟨heq, hlt⟩
    · exact entryLe_iff.mpr (.inl hlt)
    · exact entryLe_iff.mpr (.inr ⟨heq, hlt.le⟩)
  rw [hseek.drain, hinv.drain, hseekRem, MergeIterator.seekChild_eq_filter hsorted]
  rfl

theorem twoKeyPuts_seek_ascending :
    (([MemTableIterator.Call.next].foldl MemTableIterator.call
        ((twoKeyPuts.foldl put new).range wholeRange .ascending)).seek 2).drain =
      ([MemTableIterator.Call.next].foldl MemTableIterator.call
        ((twoKeyPuts.foldl put new).range wholeRange .ascending)).drain.map
        (List.filter fun e => atOrAfter .ascending 2 e.key) :=
  seek_ascending_restricts (by decide) wholeRange [.next] 2

/-- In descending order `seek` still skips while the entry held ahead lies
below the target. `seek 4` finds key `3` ahead and calls `next` until nothing
is held, dropping both rows though both lie at or after `4`; `seek 2` finds
key `3` ahead and stops, so key `3` still comes. -/
theorem seek_descending_drops_rows :
    ((twoKeyPuts.foldl put new).range wholeRange .descending).drain =
        .ok [⟨3, .value 30, 1, none, none⟩, ⟨1, .value 10, 1, none, none⟩] ∧
      (((twoKeyPuts.foldl put new).range wholeRange .descending).seek 4).drain = .ok [] ∧
      (((twoKeyPuts.foldl put new).range wholeRange .descending).seek 2).drain =
        .ok [⟨3, .value 30, 1, none, none⟩, ⟨1, .value 10, 1, none, none⟩] ∧
      ([(⟨3, .value 30, 1, none, none⟩ : RowEntry Nat Nat), ⟨1, .value 10, 1, none, none⟩].filter
        fun e => atOrAfter .descending 4 e.key).length = 2 :=
  ⟨by decide +kernel, by decide +kernel, by decide +kernel, by decide⟩

end KVTable

end SlateDb
