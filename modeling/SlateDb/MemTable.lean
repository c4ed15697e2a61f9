import SlateDb.WriteBatch
import SlateDb.Lib.Machine

/-!
# The memtable iterator

`KVTable::range` (mem_table.rs) turns a range of user keys into a range of
sequenced keys, with `u64::MAX` and `0` at the bounds so that every version of
a bounding key is in or out, and iterates the skip list over it. The skip
list's range iterator is the list of the entries in the range not yet taken
from either end: `next` takes the first, `next_back` the last.

`MemTableIterator` holds one entry ahead in `item`. In ascending order `next`
returns `item` and takes the next entry. In descending order the skip list
yields a key's versions lowest sequence number first, so `next` collects a
whole key behind `item` on a stack and pops it, highest sequence number
first; a call with nothing on the stack and no `item` takes the last entry
into `item` and returns `None`, which is the priming call of `range`. `seek`
calls `next` while `item` lies below the target.
-/

namespace SlateDb

variable {K V : Type}

def u64Max : Nat := 2 ^ 64 - 1

structure KVTableInternalKeyRange (K : Type) where
  startBound : Bound (SequencedKey K)
  endBound : Bound (SequencedKey K)

namespace KVTableInternalKeyRange

/-- `From<T: RangeBounds<Bytes>>`: an included start takes the key's newest
version on, an excluded start its oldest version off; the end the other way
round. -/
def ofRange (range : BytesRange K) : KVTableInternalKeyRange K where
  startBound := match range.startBound with
    | .included key => .included ⟨key, u64Max⟩
    | .excluded key => .excluded ⟨key, 0⟩
    | .unbounded => .unbounded
  endBound := match range.endBound with
    | .included key => .included ⟨key, 0⟩
    | .excluded key => .excluded ⟨key, u64Max⟩
    | .unbounded => .unbounded

variable [Ord K]

/-- `RangeBounds::contains` in the order of sequenced keys. -/
def contains (r : KVTableInternalKeyRange K) (k : SequencedKey K) : Bool :=
  (match r.startBound with
    | .included s => SequencedKey.cmp s k != .gt
    | .excluded s => SequencedKey.cmp s k == .lt
    | .unbounded => true) &&
  (match r.endBound with
    | .included e => SequencedKey.cmp k e != .gt
    | .excluded e => SequencedKey.cmp k e == .lt
    | .unbounded => true)

end KVTableInternalKeyRange

/-- `DoubleEndedIterator::next_back` on the entries not yet taken. -/
def nextBack {α : Type} (l : List α) : Option α × List α := (l.getLast?, l.dropLast)

theorem reverse_of_nextBack {α : Type} {l l' : List α} {x : α} (h : nextBack l = (some x, l')) :
    l.reverse = x :: l'.reverse := by
  simp only [nextBack, Prod.mk.injEq] at h
  obtain ⟨hlast, rfl⟩ := h
  obtain ⟨ys, rfl⟩ := List.getLast?_eq_some_iff.mp hlast
  rw [List.dropLast_concat, List.reverse_append]
  rfl

theorem length_lt_of_nextBack {α : Type} {l l' : List α} {x : α} (h : nextBack l = (some x, l')) :
    l'.length < l.length := by
  simp only [nextBack, Prod.mk.injEq] at h
  obtain ⟨hlast, rfl⟩ := h
  obtain ⟨ys, rfl⟩ := List.getLast?_eq_some_iff.mp hlast
  rw [List.dropLast_concat, List.length_append, List.length_singleton]
  exact Nat.lt_succ_self _

/-- `MemTableIterator`: the skip list's range iterator, the order, the entry
held ahead, and the stack of a key's versions in descending order, top
first. -/
structure MemTableIterator (K V : Type) where
  inner : List (SequencedKey K × RowEntry K V)
  ordering : IterationOrder
  item : Option (RowEntry K V)
  descendingStack : List (RowEntry K V)

namespace MemTableIterator

/-- The entries the iterator holds, wherever they are. -/
def size (it : MemTableIterator K V) : Nat :=
  it.inner.length + it.item.toList.length + it.descendingStack.length

def nextAscending (it : MemTableIterator K V) : Option (RowEntry K V) × MemTableIterator K V :=
  (it.item, { it with inner := it.inner.tail, item := it.inner.head?.map Prod.snd })

section Descending

variable [DecidableEq K]

/-- `fill_descending_stack`: the versions of `currentKey` from the back onto
the stack; the first entry of another key, or none, becomes `item`. -/
def fillDescendingStack (currentKey : K) (it : MemTableIterator K V) : MemTableIterator K V :=
  match hback : nextBack it.inner with
  | (some (key, row), inner) =>
    if key.userKey = currentKey then
      have := length_lt_of_nextBack hback
      fillDescendingStack currentKey { it with inner, descendingStack := row :: it.descendingStack }
    else { it with inner, item := some row }
  | (none, inner) => { it with inner, item := none }
termination_by it.inner.length
decreasing_by exact this

def nextDescending (it : MemTableIterator K V) : Option (RowEntry K V) × MemTableIterator K V :=
  match it.descendingStack with
  | top :: stack => (some top, { it with descendingStack := stack })
  | [] =>
    match it.item with
    | some first =>
      let it := fillDescendingStack first.key { it with descendingStack := [first] }
      match it.descendingStack with
      | top :: stack => (some top, { it with descendingStack := stack })
      | [] => (none, it)
    | none =>
      let (next, inner) := nextBack it.inner
      (none, { it with inner, item := next.map Prod.snd })

def nextSync (it : MemTableIterator K V) : Option (RowEntry K V) × MemTableIterator K V :=
  match it.ordering with
  | .ascending => it.nextAscending
  | .descending => it.nextDescending

/-- What the loop of `fill_descending_stack` leaves: read from the back, the
leading run of `currentKey` is pushed, the entry after it is held ahead. -/
theorem fillDescendingStack_eq (currentKey : K) (it : MemTableIterator K V) :
    fillDescendingStack currentKey it =
      { it with
        inner := (it.inner.reverse.dropWhile (·.1.userKey = currentKey)).tail.reverse
        item := (it.inner.reverse.dropWhile (·.1.userKey = currentKey)).head?.map Prod.snd
        descendingStack :=
          ((it.inner.reverse.takeWhile (·.1.userKey = currentKey)).map Prod.snd).reverse ++
            it.descendingStack } := by
  fun_induction fillDescendingStack currentKey it with
  | case1 it key row inner h hkey _ ih =>
    rw [reverse_of_nextBack h, List.dropWhile_cons_of_pos (by simpa using hkey),
      List.takeWhile_cons_of_pos (by simpa using hkey), ih]
    simp
  | case2 it key row inner h hkey =>
    rw [reverse_of_nextBack h, List.dropWhile_cons_of_neg (by simpa using hkey),
      List.takeWhile_cons_of_neg (by simpa using hkey)]
    simp
  | case3 it inner h =>
    simp only [nextBack, Prod.mk.injEq, List.getLast?_eq_none_iff] at h
    obtain ⟨hnil, rfl⟩ := h
    simp [hnil]

/-- A call with an entry held ahead or on the stack returns one, and holds one
fewer. -/
theorem nextSync_of_item {it : MemTableIterator K V}
    (h : it.item.isSome ∨ (it.ordering = .descending ∧ it.descendingStack ≠ [])) :
    ∃ e, it.nextSync.1 = some e ∧ it.nextSync.2.size + 1 = it.size := by
  unfold nextSync
  split
  · rename_i hord
    obtain ⟨x, hx⟩ : ∃ x, it.item = some x := by
      rcases h with h | ⟨h, -⟩
      · exact Option.isSome_iff_exists.mp h
      · rw [hord] at h
        cases h
    refine ⟨x, hx, ?_⟩
    cases hinner : it.inner <;> simp [nextAscending, size, hx, hinner] <;> omega
  · unfold nextDescending
    split
    · rename_i top stack hstack
      exact ⟨top, rfl, by simp [size, hstack]; omega⟩
    · rename_i hstack
      obtain ⟨first, hfirst⟩ : ∃ x, it.item = some x := by
        rcases h with h | ⟨-, h⟩
        · exact Option.isSome_iff_exists.mp h
        · exact absurd hstack h
      -- the stack holds `first` under the run of its key that the loop pushed
      simp only [hfirst, fillDescendingStack_eq]
      generalize hT : it.inner.reverse.takeWhile (·.1.userKey = first.key) = T
      generalize hR : it.inner.reverse.dropWhile (·.1.userKey = first.key) = R
      have hsplit : T ++ R = it.inner.reverse := hT ▸ hR ▸ List.takeWhile_append_dropWhile
      have hlen := congrArg List.length hsplit
      rw [List.length_append, List.length_reverse] at hlen
      obtain ⟨top, stack, hpush⟩ : ∃ top stack, (T.map Prod.snd).reverse ++ [first] = top :: stack :=
        List.exists_cons_of_ne_nil (by simp)
      have hstackLen := congrArg List.length hpush
      simp only [List.length_append, List.length_reverse, List.length_map, List.length_cons,
        List.length_nil] at hstackLen
      simp only [hpush]
      refine ⟨top, rfl, ?_⟩
      cases R <;> simp [size, hfirst, hstack] at hlen ⊢ <;> omega

/-- Only an entry held ahead or on the stack in descending order is returned. -/
theorem item_or_stack_of_nextSync {it it' : MemTableIterator K V} {e : RowEntry K V}
    (h : it.nextSync = (some e, it')) :
    it.item.isSome ∨ (it.ordering = .descending ∧ it.descendingStack ≠ []) := by
  unfold nextSync at h
  split at h
  · simp only [nextAscending, Prod.mk.injEq] at h
    simp [h.1]
  · rename_i hord
    unfold nextDescending at h
    split at h
    · exact .inr ⟨hord, by simp [*]⟩
    · split at h
      · exact .inl (by simp [*])
      · cases h

/-- `next` as a step machine, ranked by the entries held. -/
def step (it : MemTableIterator K V) : Machine.Step (MemTableIterator K V) (RowEntry K V) SlateDBError :=
  match it.nextSync with
  | (some e, it') => .emit e it'
  | (none, _) => .done

def machine : Machine (MemTableIterator K V) (RowEntry K V) SlateDBError where
  step := step
  rank := size
  rank_emit := fun {it e it'} h => by
    unfold step at h
    split at h
    · rename_i e' it'' hnext
      cases h
      obtain ⟨e'', he'', hsize⟩ := nextSync_of_item (item_or_stack_of_nextSync hnext)
      rw [hnext] at hsize
      simp only at hsize
      omega
    · cases h
  rank_skip := fun h => by
    unfold step at h
    split at h <;> cases h

/-- The rows a reader gets by calling `next` until it returns `None`. -/
def drain (it : MemTableIterator K V) : Except SlateDBError (List (RowEntry K V)) :=
  machine.run it

end Descending

section Seek

variable [DecidableEq K] [LT K] [DecidableLT K]

/-- `MemTableIterator::seek`: `next` while the entry held ahead lies below
the target. -/
def seek (it : MemTableIterator K V) (nextKey : K) : MemTableIterator K V :=
  match h : it.item with
  | some record =>
    if record.key < nextKey then
      have := (nextSync_of_item (.inl (Option.isSome_iff_exists.mpr ⟨record, h⟩))).choose_spec.2
      seek it.nextSync.2 nextKey
    else it
  | none => it
termination_by it.size
decreasing_by omega

/-- The calls a reader makes on an iterator. -/
inductive Call (K : Type) where
  | next
  | seek (nextKey : K)

def call (it : MemTableIterator K V) : Call K → MemTableIterator K V
  | .next => it.nextSync.2
  | .seek nextKey => it.seek nextKey

end Seek

end MemTableIterator

/-- `KVTable::range`: the skip list's iterator over the internal range, after
the priming call of `next`. -/
def KVTable.range [LinearOrder K] (t : KVTable K V) (range : BytesRange K) (ordering : IterationOrder) :
    MemTableIterator K V :=
  let internalRange := KVTableInternalKeyRange.ofRange range
  (MemTableIterator.nextSync ⟨t.map.filter (fun p => internalRange.contains p.1), ordering, none, []⟩).2

end SlateDb
