import SlateDb.MergeOperator
import SlateDb.Lib.PriorityQueue

/-!
# The merge iterator

`MergeIterator` (merge_iterator.rs) merges child iterators through a heap of
their next entries. It pops the entry that comes first by key in the
iteration order and, within a key, by the higher sequence number. With dedup
on, `next` returns an entry and, unless it is a merge operand, then skips the
entries of its key that the children still hold.

A child is the list of the entries it has still to return; its `init` and
`next` cannot fail. The heap is its content, a list, with a `pop` that takes
out an entry that `cmp` puts at or before every other
(`PriorityQueue.IsMinPop`): the code's `BinaryHeap` of `Reverse` entries is
one such `pop`. The order each heap entry carries is the iterator's, and is
passed to the comparison here. The bytes-processed counter is left out.

`machine` is `next` as a step machine, ranked by the number of entries still
to come (`remaining`), which every emitting call lowers
(`remaining_next_lt`).
-/

namespace SlateDb

variable {K V : Type}

/-- `MergeIteratorHeapEntry`: a child's next entry, the child's index, and
the child with the entries after that one. -/
structure MergeIteratorHeapEntry (K V : Type) where
  nextKv : RowEntry K V
  index : Nat
  iterator : List (RowEntry K V)

/-- The entries a heap entry stands for: its next entry and the rest of its
child. -/
def MergeIteratorHeapEntry.entries (h : MergeIteratorHeapEntry K V) : List (RowEntry K V) :=
  h.nextKv :: h.iterator

section Order

variable [LinearOrder K]

/-- The order of `MergeIteratorHeapEntry::cmp` on two entries: keys in the
iteration order, then the higher sequence number first. -/
def compareEntries (order : IterationOrder) (a b : RowEntry K V) : Ordering :=
  let keyOrd := match order with
    | .ascending => compare a.key b.key
    | .descending => compare b.key a.key
  match keyOrd with
  | .eq => compare b.seq a.seq
  | ord => ord

namespace MergeIteratorHeapEntry

def cmp (order : IterationOrder) (a b : MergeIteratorHeapEntry K V) : Ordering :=
  compareEntries order a.nextKv b.nextKv

/-- What the heap may pop: an entry that `cmp` puts at or before another. -/
def Le (order : IterationOrder) (a b : MergeIteratorHeapEntry K V) : Prop := a.cmp order b ≠ .gt

instance (order : IterationOrder) : DecidableRel (Le (K := K) (V := V) order) :=
  fun a b => inferInstanceAs (Decidable (a.cmp order b ≠ .gt))

end MergeIteratorHeapEntry

/-- Whether key `k` lies at or after the target `t` in the iteration order. -/
def atOrAfter (order : IterationOrder) (t k : K) : Bool :=
  match order with
  | .ascending => decide (t ≤ k)
  | .descending => decide (k ≤ t)

/-- A child's `seek`: it goes on from its first entry at or after the target
in the order. -/
def seekChild (order : IterationOrder) (t : K) (child : List (RowEntry K V)) : List (RowEntry K V) :=
  child.dropWhile fun e => !atOrAfter order t e.key

/-- `MergeIteratorHeapEntry::seek`: the entry stays when its key is at least
the target; otherwise its child seeks and the entry takes the child's next
one, or leaves the heap when there is none. -/
def MergeIteratorHeapEntry.seek (order : IterationOrder) (h : MergeIteratorHeapEntry K V) (nextKey : K) :
    Option (MergeIteratorHeapEntry K V) :=
  if nextKey ≤ h.nextKv.key then some h
  else
    match seekChild order nextKey h.iterator with
    | nextKv :: iterator => some ⟨nextKv, h.index, iterator⟩
    | [] => none

end Order

/-- `MergeIterator`: the entry popped last, the heap, the children not yet
read, whether to deduplicate, whether `init` ran, and the order. -/
structure MergeIterator (K V : Type) where
  current : Option (MergeIteratorHeapEntry K V)
  iterators : List (MergeIteratorHeapEntry K V)
  pendingIterators : List (Nat × List (RowEntry K V))
  dedup : Bool
  initialized : Bool
  order : IterationOrder

namespace MergeIterator

/-- `MergeIterator::new_with_order`: the children with their indices, dedup
on. -/
def newWithOrder (iterators : List (List (RowEntry K V))) (order : IterationOrder) :
    MergeIterator K V :=
  ⟨none, [], iterators.zipIdx.map (fun p => (p.2, p.1)), true, false, order⟩

def new (iterators : List (List (RowEntry K V))) : MergeIterator K V :=
  newWithOrder iterators .ascending

def withDedup (it : MergeIterator K V) (dedup : Bool) : MergeIterator K V := { it with dedup := dedup }

/-- The first entry of each child, pushed onto the heap in turn. -/
def pushFirst (heap : List (MergeIteratorHeapEntry K V)) :
    List (Nat × List (RowEntry K V)) → List (MergeIteratorHeapEntry K V)
  | [] => heap
  | (_, []) :: pending => pushFirst heap pending
  | (index, nextKv :: iterator) :: pending => pushFirst (⟨nextKv, index, iterator⟩ :: heap) pending

theorem mem_pushFirst (heap : List (MergeIteratorHeapEntry K V))
    (pending : List (Nat × List (RowEntry K V))) {h : MergeIteratorHeapEntry K V}
    (hh : h ∈ pushFirst heap pending) : h ∈ heap ∨ ∃ p ∈ pending, h.entries = p.2 := by
  induction pending generalizing heap with
  | nil => exact .inl hh
  | cons p pending ih =>
    obtain ⟨index, _ | ⟨nextKv, iterator⟩⟩ := p
    · rcases ih heap hh with hh | ⟨p, hp, he⟩
      · exact .inl hh
      · exact .inr ⟨p, List.mem_cons_of_mem _ hp, he⟩
    · rcases ih _ hh with hh | ⟨p, hp, he⟩
      · rcases List.mem_cons.mp hh with rfl | hh
        · exact .inr ⟨_, List.mem_cons_self, rfl⟩
        · exact .inl hh
      · exact .inr ⟨p, List.mem_cons_of_mem _ hp, he⟩

/-- Pushing the first entry of each child moves every entry of the children
onto the heap. -/
theorem flatMap_pushFirst :
    ∀ (heap : List (MergeIteratorHeapEntry K V)) (pending : List (Nat × List (RowEntry K V))),
      ((pushFirst heap pending).flatMap MergeIteratorHeapEntry.entries).Perm
        (heap.flatMap MergeIteratorHeapEntry.entries ++ (pending.map Prod.snd).flatten)
  | heap, [] => by simp [pushFirst]
  | heap, (_, []) :: pending => by simpa [pushFirst] using flatMap_pushFirst heap pending
  | heap, (index, nextKv :: iterator) :: pending => by
    have hperm := flatMap_pushFirst (⟨nextKv, index, iterator⟩ :: heap) pending
    simp only [pushFirst, List.flatMap_cons, MergeIteratorHeapEntry.entries, List.map_cons,
      List.flatten_cons] at hperm ⊢
    -- the child's entries move from the front of the heap to their place among the children
    rw [← List.append_assoc]
    exact hperm.trans (List.perm_append_comm.append_right _)

def peek (it : MergeIterator K V) : Option (RowEntry K V) := it.current.map (·.nextKv)

/-- The entries still to come: those of the current entry and the heap, then
those of the children not yet read. -/
def contents (it : MergeIterator K V) : List (RowEntry K V) :=
  (it.current.toList ++ it.iterators).flatMap MergeIteratorHeapEntry.entries ++
    (it.pendingIterators.map Prod.snd).flatten

def remaining (it : MergeIterator K V) : Nat := it.contents.length

theorem mem_contents_of_current {it : MergeIterator K V} {c : MergeIteratorHeapEntry K V}
    (hcur : it.current = some c) : c.nextKv ∈ it.contents := by
  simp [contents, hcur, MergeIteratorHeapEntry.entries]

section Heap

variable (pop : IterationOrder → List (MergeIteratorHeapEntry K V) →
  Option (MergeIteratorHeapEntry K V × List (MergeIteratorHeapEntry K V)))

/-- `self.current = self.iterators.pop()`. -/
def popCurrent (it : MergeIterator K V) : MergeIterator K V :=
  match pop it.order it.iterators with
  | some (current, iterators) => { it with current := some current, iterators := iterators }
  | none => { it with current := none }

/-- `MergeIterator::initialize` (a keyword here), which `init` and
`ensure_initialized` call. -/
def initializeHeap (it : MergeIterator K V) : MergeIterator K V :=
  if it.initialized then it
  else
    popCurrent pop { it with
      iterators := pushFirst it.iterators it.pendingIterators
      pendingIterators := []
      initialized := true }

def init (it : MergeIterator K V) : MergeIterator K V := initializeHeap pop it

/-- `MergeIterator::advance`: the current entry, with its child pushed back
with its next entry and the heap popped again. -/
def advance (it : MergeIterator K V) : Option (RowEntry K V) × MergeIterator K V :=
  let it := initializeHeap pop it
  match it.current with
  | none => (none, it)
  | some state =>
    let it := { it with current := none }
    let it := match state.iterator with
      | nextKv :: iterator =>
        { it with iterators := { state with nextKv := nextKv, iterator := iterator } :: it.iterators }
      | [] => it
    (some state.nextKv, popCurrent pop it)

/-! ### What each call does to the entries still to come -/

@[simp] theorem popCurrent_order (it : MergeIterator K V) : (popCurrent pop it).order = it.order := by
  unfold popCurrent; split <;> rfl

@[simp] theorem popCurrent_dedup (it : MergeIterator K V) : (popCurrent pop it).dedup = it.dedup := by
  unfold popCurrent; split <;> rfl

@[simp] theorem popCurrent_initialized (it : MergeIterator K V) :
    (popCurrent pop it).initialized = it.initialized := by
  unfold popCurrent; split <;> rfl

@[simp] theorem popCurrent_pendingIterators (it : MergeIterator K V) :
    (popCurrent pop it).pendingIterators = it.pendingIterators := by
  unfold popCurrent; split <;> rfl

theorem initializeHeap_of_initialized {it : MergeIterator K V} (h : it.initialized = true) :
    initializeHeap pop it = it := by
  simp [initializeHeap, h]

/-- `advance` on an iterator that `init` ran on: the current entry goes out,
its child's next entry goes onto the heap, and the heap is popped. -/
theorem advance_of_current {it : MergeIterator K V} (h : it.initialized = true)
    {state : MergeIteratorHeapEntry K V} (hcur : it.current = some state) :
    advance pop it = (some state.nextKv, popCurrent pop { it with
      current := none
      iterators := match state.iterator with
        | nextKv :: iterator => { state with nextKv := nextKv, iterator := iterator } :: it.iterators
        | [] => it.iterators }) := by
  rw [advance, initializeHeap_of_initialized pop h]
  simp only [hcur]
  cases state.iterator <;> rfl

theorem advance_of_none {it : MergeIterator K V} (h : it.initialized = true) (hcur : it.current = none) :
    advance pop it = (none, it) := by
  rw [advance, initializeHeap_of_initialized pop h]
  simp only [hcur]

theorem advance_order {it : MergeIterator K V} (h : it.initialized = true) :
    (advance pop it).2.order = it.order := by
  cases hcur : it.current with
  | none => rw [advance_of_none pop h hcur]
  | some state => rw [advance_of_current pop h hcur]; simp

theorem advance_dedup {it : MergeIterator K V} (h : it.initialized = true) :
    (advance pop it).2.dedup = it.dedup := by
  cases hcur : it.current with
  | none => rw [advance_of_none pop h hcur]
  | some state => rw [advance_of_current pop h hcur]; simp

theorem advance_initialized {it : MergeIterator K V} (h : it.initialized = true) :
    (advance pop it).2.initialized = true := by
  cases hcur : it.current with
  | none => rw [advance_of_none pop h hcur, h]
  | some state => rw [advance_of_current pop h hcur]; simpa using h

theorem advance_pendingIterators {it : MergeIterator K V} (h : it.initialized = true) :
    (advance pop it).2.pendingIterators = it.pendingIterators := by
  cases hcur : it.current with
  | none => rw [advance_of_none pop h hcur]
  | some state => rw [advance_of_current pop h hcur]; simp

variable [LinearOrder K]

/-- The loop of `next` that skips the other versions of `key`, within `fuel`
calls of `advance`. -/
def skipKey (key : K) : Nat → MergeIterator K V → MergeIterator K V
  | 0, it => it
  | fuel + 1, it =>
    match peek it with
    | some entry => if entry.key ≠ key then it else skipKey key fuel (advance pop it).2
    | none => it

/-- `MergeIterator::next`. The loop that skips a key is given a call for each
entry still to come, more than it can use. -/
def next (it : MergeIterator K V) : Except SlateDBError (Option (RowEntry K V) × MergeIterator K V) :=
  if !it.initialized then .error .iteratorNotInitialized
  else if !it.dedup then .ok (advance pop it)
  else
    match advance pop it with
    | (none, it) => .ok (none, it)
    | (some currentKv, it) =>
      if currentKv.value.isMerge then .ok (some currentKv, it)
      else .ok (some currentKv, skipKey pop currentKv.key it.remaining it)

/-- `MergeIterator::seek`: the current entry and every heap entry seek, those
left go back onto the heap, and the heap is popped. The heap is drained in no
particular order; its content is what matters. -/
def seek (it : MergeIterator K V) (nextKey : K) : Except SlateDBError (MergeIterator K V) :=
  if !it.initialized then .error .iteratorNotInitialized
  else
    let seeked := (it.current.toList ++ it.iterators).filterMap fun h => h.seek it.order nextKey
    .ok (popCurrent pop { it with current := none, iterators := seeked })

def step (it : MergeIterator K V) : Machine.Step (MergeIterator K V) (RowEntry K V) SlateDBError :=
  match next pop it with
  | .ok (some entry, it') => .emit entry it'
  | .ok (none, _) => .done
  | .error e => .fail e

/-- What a call of `next` that returns an entry did: one `advance`, and with
dedup on and an entry that is not a merge operand, the loop that skips its
key. -/
theorem next_cases {it it' : MergeIterator K V} {x : RowEntry K V}
    (h : next pop it = .ok (some x, it')) :
    it.initialized = true ∧ ∃ it₁, advance pop it = (some x, it₁) ∧
      ((it.dedup = false ∨ x.value.isMerge = true) ∧ it' = it₁ ∨
        it.dedup = true ∧ x.value.isMerge = false ∧ it' = skipKey pop x.key it₁.remaining it₁) := by
  unfold next at h
  by_cases hinit : it.initialized = true
  · refine ⟨hinit, ?_⟩
    by_cases hdedup : it.dedup = true
    · simp only [hinit, hdedup, Bool.not_true, Bool.false_eq_true, if_false] at h
      rcases hadv : advance pop it with ⟨_ | y, it₁⟩
      · rw [hadv] at h; cases h
      · rw [hadv] at h
        simp only at h
        by_cases hmerge : y.value.isMerge = true
        · rw [if_pos hmerge, Except.ok.injEq, Prod.mk.injEq, Option.some.injEq] at h
          obtain ⟨rfl, rfl⟩ := h
          exact ⟨it₁, rfl, .inl ⟨.inr hmerge, rfl⟩⟩
        · rw [if_neg hmerge, Except.ok.injEq, Prod.mk.injEq, Option.some.injEq] at h
          obtain ⟨rfl, rfl⟩ := h
          exact ⟨it₁, rfl, .inr ⟨hdedup, by simpa using hmerge, rfl⟩⟩
    · have hdedup' : it.dedup = false := by simpa using hdedup
      simp only [hinit, Bool.not_true, Bool.false_eq_true, if_false, hdedup', Bool.not_false, if_true,
        Except.ok.injEq] at h
      exact ⟨it', h, .inl ⟨.inl hdedup', rfl⟩⟩
  · simp [hinit] at h

/-- A call of `next` that returns nothing made one `advance` that returned
nothing. -/
theorem next_none {it it' : MergeIterator K V} (h : next pop it = .ok (none, it')) :
    it.initialized = true ∧ advance pop it = (none, it') := by
  unfold next at h
  by_cases hinit : it.initialized = true
  · refine ⟨hinit, ?_⟩
    by_cases hdedup : it.dedup = true
    · simp only [hinit, hdedup, Bool.not_true, Bool.false_eq_true, if_false] at h
      rcases hadv : advance pop it with ⟨_ | y, it₁⟩
      · rw [hadv] at h
        simpa using h
      · rw [hadv] at h
        simp only at h
        split at h <;> cases h
    · simpa [hinit, hdedup] using h
  · simp [hinit] at h

theorem next_ne_error {it : MergeIterator K V} (h : it.initialized = true) (e : SlateDBError) :
    next pop it ≠ .error e := by
  unfold next
  simp only [h, Bool.not_true, Bool.false_eq_true, if_false]
  split
  · simp
  · split
    · simp
    · split <;> simp

theorem step_emit {it it' : MergeIterator K V} {b : RowEntry K V} (h : step pop it = .emit b it') :
    next pop it = .ok (some b, it') := by
  unfold step at h
  split at h
  · cases h
    assumption
  · cases h
  · cases h

theorem step_done {it : MergeIterator K V} (h : step pop it = .done) :
    ∃ it', next pop it = .ok (none, it') := by
  unfold step at h
  split at h
  · cases h
  · exact ⟨_, ‹_›⟩
  · cases h

theorem step_ne_fail {it : MergeIterator K V} (h : it.initialized = true) (e : SlateDBError) :
    step pop it ≠ .fail e := by
  unfold step
  split
  · simp
  · simp
  · exact absurd ‹_› (next_ne_error pop h _)

section Lawful

variable {pop}
variable (hpop : ∀ order, PriorityQueue.IsMinPop (MergeIteratorHeapEntry.Le order) (pop order))
include hpop

/-- Popping the heap into the current entry moves no heap entry in or out. -/
theorem popCurrent_perm {it : MergeIterator K V} :
    ((popCurrent pop it).current.toList ++ (popCurrent pop it).iterators).Perm it.iterators := by
  unfold popCurrent
  split
  case h_1 current iterators hpop' => exact ((hpop it.order).perm hpop').symm
  case h_2 => rfl

theorem contents_popCurrent {it : MergeIterator K V} (hcur : it.current = none) :
    (popCurrent pop it).contents.Perm it.contents := by
  have hperm := (@popCurrent_perm K V pop _ hpop it).flatMap_right MergeIteratorHeapEntry.entries
  simp only [contents, hcur, Option.toList_none, List.nil_append, popCurrent_pendingIterators]
  exact hperm.append_right _

/-- The popped entry is at or before every entry left on the heap. -/
theorem popCurrent_le (it : MergeIterator K V) :
    ∀ c ∈ (popCurrent pop it).current, ∀ h ∈ (popCurrent pop it).iterators,
      MergeIteratorHeapEntry.Le it.order c h := by
  unfold popCurrent
  split
  case h_1 current iterators hpop' =>
    intro c hc h hh
    cases hc
    exact (hpop it.order).le_rest hpop' h hh
  case h_2 => intro c hc; cases hc

/-- The heap is empty once nothing is popped. -/
theorem popCurrent_current_eq_none {it : MergeIterator K V}
    (h : (popCurrent pop it).current = none) : (popCurrent pop it).iterators = [] := by
  unfold popCurrent at h ⊢
  split at h
  case h_1 => cases h
  case h_2 hnone => exact ((hpop it.order).eq_none_iff _).mp hnone

/-- `advance` returns one entry still to come and leaves the others. -/
theorem contents_advance {it : MergeIterator K V} (h : it.initialized = true) {x : RowEntry K V}
    {it' : MergeIterator K V} (hadv : advance pop it = (some x, it')) :
    it.contents.Perm (x :: it'.contents) := by
  cases hcur : it.current with
  | none => rw [advance_of_none pop h hcur] at hadv; cases hadv
  | some state =>
    rw [advance_of_current pop h hcur, Prod.mk.injEq, Option.some.injEq] at hadv
    obtain ⟨rfl, rfl⟩ := hadv
    refine List.Perm.trans ?_ ((contents_popCurrent hpop rfl).symm.cons _)
    -- the current entry's child goes back whole, less the entry returned
    cases hiter : state.iterator with
    | nil =>
      simp [contents, hcur, MergeIteratorHeapEntry.entries, hiter]
    | cons nextKv iterator =>
      simp [contents, hcur, MergeIteratorHeapEntry.entries, hiter]

theorem remaining_advance {it : MergeIterator K V} (h : it.initialized = true) {x : RowEntry K V}
    {it' : MergeIterator K V} (hadv : advance pop it = (some x, it')) :
    it'.remaining + 1 = it.remaining := by
  simp [remaining, (contents_advance hpop h hadv).length_eq]

/-- Skipping a key only ever takes entries out. -/
theorem remaining_skipKey_le (key : K) :
    ∀ (fuel : Nat) {it : MergeIterator K V}, it.initialized = true →
      (skipKey pop key fuel it).remaining ≤ it.remaining
  | 0, _, _ => Nat.le_refl _
  | fuel + 1, it, h => by
    unfold skipKey
    cases hcur : it.current with
    | none => simp [peek, hcur]
    | some state =>
      simp only [peek, hcur, Option.map_some]
      split
      · exact Nat.le_refl _
      · -- the current entry has the key: one `advance`, then the loop again
        obtain ⟨it₁, hadv⟩ : ∃ it₁, advance pop it = (some state.nextKv, it₁) :=
          ⟨_, advance_of_current pop h hcur⟩
        have hinit₁ := advance_initialized pop h
        rw [hadv] at hinit₁ ⊢
        dsimp only at hinit₁ ⊢
        have hlt := remaining_advance hpop h hadv
        have hle := remaining_skipKey_le key fuel hinit₁
        omega

theorem remaining_next_lt {it it' : MergeIterator K V} {x : RowEntry K V}
    (h : next pop it = .ok (some x, it')) : it'.remaining < it.remaining := by
  obtain ⟨hinit, it₁, hadv, hcases⟩ := next_cases pop h
  have hlt := remaining_advance hpop hinit hadv
  have hinit₁ : it₁.initialized = true := by simpa [hadv] using advance_initialized pop hinit
  rcases hcases with ⟨-, rfl⟩ | ⟨-, -, rfl⟩
  · omega
  · have := remaining_skipKey_le hpop x.key it₁.remaining hinit₁
    omega

/-- `next` as a step machine, ranked by the entries still to come. -/
def machine : Machine (MergeIterator K V) (RowEntry K V) SlateDBError where
  step := step pop
  rank := remaining
  rank_emit := fun h => remaining_next_lt hpop (step_emit pop h)
  rank_skip := fun {s s'} h => by
    unfold step at h
    split at h <;> cases h

end Lawful

end Heap

end MergeIterator

end SlateDb
