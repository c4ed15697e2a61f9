import SlateDb.MergeOperator
import SlateDb.Resolution
import SlateDb.Lib.SortedMap

/-!
# Write batches and their commit

A `WriteBatch` keeps its ops in an ordered map keyed by `SequencedKey`, the
user key with the op's index in the batch, ordered by key and then by index
descending, so that the newest op of a key comes first. `put` and `delete`
drop the key's earlier ops; `merge` keeps them. At commit every op becomes a
row with the batch's one sequence number, the clock tick as creation time and
the expiry its TTL option gives; a merge operator, when one is configured,
then folds each key's ops through a `MergeOperatorIterator` that does not
merge across expiry timestamps and has no snapshot barrier. `write_batch`
appends the rows to the WAL and puts them into the memtable, whose `put`
replaces a row with the same key and sequence number.
-/

namespace SlateDb

variable {K V : Type}

/-! ### Time to live -/

inductive Ttl where
  | default
  | noExpiry
  | expireAfter (ttl : Nat)
  | expireAt (ts : Int)
  deriving DecidableEq, Repr

def i64Max : Int := 2 ^ 63 - 1

def i64Min : Int := -2 ^ 63

/-- Addition of two `i64`s as a release build does it, wrapping on overflow. -/
def wrappingAddI64 (a b : Int) : Int := (a + b + 2 ^ 63) % 2 ^ 64 - 2 ^ 63

def checkedExpireTs (now : Int) (ttl : Nat) : Option Int :=
  -- on overflow the source assumes no TTL
  if i64Max < ttl then none
  else
    let expireTs := wrappingAddI64 now ttl
    if expireTs < now then none else some expireTs

/-- The expiry timestamp a TTL option gives a write at `now`; the put and the
merge options compute it alike. -/
def Ttl.expireTsFrom (ttl : Ttl) (defaultTtl : Option Nat) (now : Int) : Option Int :=
  match ttl with
  | .default =>
    match defaultTtl with
    | none => none
    | some defaultTtl => checkedExpireTs now defaultTtl
  | .noExpiry => none
  | .expireAfter ttl => checkedExpireTs now ttl
  | .expireAt ts => some ts

structure PutOptions where
  ttl : Ttl := .default
  deriving DecidableEq, Repr

structure MergeOptions where
  ttl : Ttl := .default
  deriving DecidableEq, Repr

def PutOptions.expireTsFrom (o : PutOptions) (defaultTtl : Option Nat) (now : Int) : Option Int :=
  o.ttl.expireTsFrom defaultTtl now

def MergeOptions.expireTsFrom (o : MergeOptions) (defaultTtl : Option Nat) (now : Int) :
    Option Int :=
  o.ttl.expireTsFrom defaultTtl now

/-! ### Batches -/

inductive WriteOp (K V : Type) where
  | put (key : K) (value : V) (options : PutOptions)
  | delete (key : K)
  | merge (key : K) (value : V) (options : MergeOptions)
  deriving DecidableEq, Repr

def WriteOp.isMerge : WriteOp K V → Bool
  | .merge .. => true
  | _ => false

def WriteOp.toRowEntry (op : WriteOp K V) (seq : Nat) (createTs expireTs : Option Int) :
    RowEntry K V :=
  match op with
  | .put key value _ => ⟨key, .value value, seq, createTs, expireTs⟩
  | .delete key => ⟨key, .tombstone, seq, createTs, expireTs⟩
  | .merge key value _ => ⟨key, .merge value, seq, createTs, expireTs⟩

structure SequencedKey (K : Type) where
  userKey : K
  seq : Nat
  deriving DecidableEq, Repr

/-- User key ascending, then sequence number descending. -/
def SequencedKey.cmp [Ord K] (a b : SequencedKey K) : Ordering :=
  (compare a.userKey b.userKey).then (compare a.seq b.seq).swap

instance [Ord K] [Std.ReflCmp (compare : K → K → Ordering)] :
    Std.ReflCmp (SequencedKey.cmp (K := K)) where
  compare_self := by simp [SequencedKey.cmp, Std.ReflCmp.compare_self]

section Lawful

variable [LinearOrder K]

theorem SequencedKey.cmp_eq_lt {a b : SequencedKey K} :
    SequencedKey.cmp a b = .lt ↔ a.userKey < b.userKey ∨ (a.userKey = b.userKey ∧ b.seq < a.seq) := by
  simp [SequencedKey.cmp, Ordering.then_eq_lt, compare_lt_iff_lt, Ordering.swap_eq_lt,
    Nat.compare_eq_gt]

theorem SequencedKey.cmp_eq_gt {a b : SequencedKey K} :
    SequencedKey.cmp a b = .gt ↔ b.userKey < a.userKey ∨ (a.userKey = b.userKey ∧ a.seq < b.seq) := by
  simp [SequencedKey.cmp, Ordering.then_eq_gt, compare_gt_iff_gt, Ordering.swap_eq_gt,
    Nat.compare_eq_lt]

theorem SequencedKey.cmp_eq_eq {a b : SequencedKey K} : SequencedKey.cmp a b = .eq ↔ a = b := by
  obtain ⟨ka, sa⟩ := a
  obtain ⟨kb, sb⟩ := b
  simp [SequencedKey.cmp, Ordering.then_eq_eq, Ordering.swap_eq_eq]

/-- Under a linear order of the user keys the order of sequenced keys is a
lawful comparison: the map of a memtable is an ordered map. -/
instance : Std.LawfulEqCmp (SequencedKey.cmp (K := K)) where
  eq_of_compare h := SequencedKey.cmp_eq_eq.mp h

instance : Std.TransCmp (SequencedKey.cmp (K := K)) where
  eq_swap {a b} := by
    cases h : SequencedKey.cmp b a with
    | lt =>
      rcases SequencedKey.cmp_eq_lt.mp h with h | ⟨h, h'⟩
      · exact SequencedKey.cmp_eq_gt.mpr (.inl h)
      · exact SequencedKey.cmp_eq_gt.mpr (.inr ⟨h.symm, h'⟩)
    | eq =>
      rw [SequencedKey.cmp_eq_eq.mp h]
      exact SequencedKey.cmp_eq_eq.mpr rfl
    | gt =>
      rcases SequencedKey.cmp_eq_gt.mp h with h | ⟨h, h'⟩
      · exact SequencedKey.cmp_eq_lt.mpr (.inl h)
      · exact SequencedKey.cmp_eq_lt.mpr (.inr ⟨h.symm, h'⟩)
  isLE_trans {a b c} hab hbc := by
    simp only [Ordering.isLE_iff_ne_gt, SequencedKey.cmp_eq_gt, not_or, not_and, not_lt] at *
    obtain ⟨hab₁, hab₂⟩ := hab
    obtain ⟨hbc₁, hbc₂⟩ := hbc
    refine ⟨le_trans hab₁ hbc₁, fun hac => ?_⟩
    -- equal outer keys force the middle key to be equal too
    have hab' : a.userKey = b.userKey := le_antisymm hab₁ (by rw [hac]; exact hbc₁)
    have hs₁ := hab₂ hab'
    have hs₂ := hbc₂ (hab'.symm.trans hac)
    omega

end Lawful

structure WriteBatch (K V : Type) where
  ops : List (SequencedKey K × WriteOp K V)
  writeIdx : Nat
  mergeOpCount : Nat

namespace WriteBatch

variable [Ord K] (b : WriteBatch K V)

def new : WriteBatch K V := ⟨[], 0, 0⟩

/-- Drops every op of `key`, counting the merges among them out. -/
def removeOpsByKey (key : K) : WriteBatch K V :=
  let removed := b.ops.filter (fun p => compare p.1.userKey key == .eq)
  { b with
    ops := b.ops.filter (fun p => compare p.1.userKey key != .eq)
    mergeOpCount := b.mergeOpCount - (removed.filter (·.2.isMerge)).length }

def putBytesWithOptions (key : K) (value : V) (options : PutOptions) : WriteBatch K V :=
  -- a put overwrites the key, so its earlier ops go
  let b := b.removeOpsByKey key
  { b with
    ops := SortedMap.insert SequencedKey.cmp ⟨key, b.writeIdx⟩ (.put key value options) b.ops
    writeIdx := b.writeIdx + 1 }

def putWithOptions (key : K) (value : V) (options : PutOptions) : WriteBatch K V :=
  b.putBytesWithOptions key value options

def put (key : K) (value : V) : WriteBatch K V := b.putWithOptions key value {}

def mergeWithOptions (key : K) (value : V) (options : MergeOptions) : WriteBatch K V :=
  { b with
    ops := SortedMap.insert SequencedKey.cmp ⟨key, b.writeIdx⟩ (.merge key value options) b.ops
    mergeOpCount := b.mergeOpCount + 1
    writeIdx := b.writeIdx + 1 }

def merge (key : K) (value : V) : WriteBatch K V := b.mergeWithOptions key value {}

def delete (key : K) : WriteBatch K V :=
  let b := b.removeOpsByKey key
  { b with
    ops := SortedMap.insert SequencedKey.cmp ⟨key, b.writeIdx⟩ (.delete key) b.ops
    writeIdx := b.writeIdx + 1 }

def hasMergeOps : Bool := 0 < b.mergeOpCount

/-- The call that records `op`. -/
def applyCall : WriteOp K V → WriteBatch K V
  | .put key value options => b.putWithOptions key value options
  | .delete key => b.delete key
  | .merge key value options => b.mergeWithOptions key value options

/-- The batch a client builds by a sequence of calls, each given by the op it records. -/
def build (calls : List (WriteOp K V)) : WriteBatch K V := calls.foldl applyCall new

end WriteBatch

/-- The rows of a batch over its whole key range in ascending order, with the
commit's sequence number, creation time and expiry. -/
def WriteBatchIterator.newWithSeqAndTtl (batch : WriteBatch K V) (seq : Nat) (now : Int)
    (defaultTtl : Option Nat) : List (RowEntry K V) :=
  batch.ops.map fun (_, op) =>
    let expireTs := match op with
      | .put _ _ opts => opts.expireTsFrom defaultTtl now
      | .merge _ _ opts => opts.expireTsFrom defaultTtl now
      | .delete _ => none
    op.toRowEntry seq (some now) expireTs

theorem WriteBatchIterator.seq_of_mem_newWithSeqAndTtl {batch : WriteBatch K V} {seq : Nat}
    {now : Int} {defaultTtl : Option Nat} {e : RowEntry K V}
    (he : e ∈ WriteBatchIterator.newWithSeqAndTtl batch seq now defaultTtl) : e.seq = seq := by
  obtain ⟨⟨_, op⟩, -, rfl⟩ := List.mem_map.mp he
  cases op <;> rfl

/-- The rows a batch commits at `seq`; no segment extractor is configured. -/
def WriteBatch.extractEntries [Ord K] [DecidableEq K] (b : WriteBatch K V) (seq : Nat) (now : Int)
    (defaultTtl : Option Nat) (merger : Option (MergeOperator K V)) :
    Except SlateDBError (List (RowEntry K V)) :=
  if merger.isNone && b.hasMergeOps then .error .mergeOperatorMissing
  else
    let entries := WriteBatchIterator.newWithSeqAndTtl b seq now defaultTtl
    match merger with
    | some mergeOperator => (MergeOperatorIterator.mk mergeOperator false none).drain entries
    | none => .ok entries

/-! ### The memtable -/

/-- The rows of a memtable, in the order of their `SequencedKey`s, and the
largest creation timestamp put into it. -/
structure KVTable (K V : Type) where
  map : List (SequencedKey K × RowEntry K V)
  lastTick : Int

namespace KVTable

variable [Ord K]

def new : KVTable K V := ⟨[], i64Min⟩

/-- Inserts a row; a row with the same key and sequence number is replaced. -/
def put (t : KVTable K V) (row : RowEntry K V) : KVTable K V :=
  { map := SortedMap.insert SequencedKey.cmp ⟨row.key, row.seq⟩ row t.map
    lastTick := match row.createTs with
      | some createTs => max t.lastTick createTs
      | none => t.lastTick }

/-- The rows an iterator over the whole table returns. -/
def rows (t : KVTable K V) : List (RowEntry K V) := t.map.map Prod.snd

/-- A put lands at its own key and sequence number, whatever was there. -/
theorem find?_put [Std.ReflCmp (compare : K → K → Ordering)] (t : KVTable K V)
    (row : RowEntry K V) :
    SortedMap.find? SequencedKey.cmp ⟨row.key, row.seq⟩ (t.put row).map = some row :=
  SortedMap.find?_insert_self _ _ _

/-- The map is keyed by each row's own key and sequence number, in ascending
order of the keys. -/
structure WellFormed (t : KVTable K V) : Prop where
  keys : ∀ p ∈ t.map, p.1 = ⟨p.2.key, p.2.seq⟩
  sorted : SortedMap.Sorted SequencedKey.cmp t.map

theorem wellFormed_new : (new : KVTable K V).WellFormed := ⟨by simp [new], List.Pairwise.nil⟩

section Lawful

variable {K : Type} [LinearOrder K]

theorem WellFormed.put {t : KVTable K V} (h : t.WellFormed) (row : RowEntry K V) :
    (t.put row).WellFormed where
  keys p hp := by
    rcases SortedMap.mem_insert hp with rfl | hp
    · rfl
    · exact h.keys p hp
  sorted := SortedMap.sorted_insert _ _ h.sorted

/-- A row of the memtable after a put is the new row or an old one. -/
theorem mem_rows_put {t : KVTable K V} {row e : RowEntry K V} (he : e ∈ (t.put row).rows) :
    e = row ∨ e ∈ t.rows := by
  obtain ⟨p, hp, rfl⟩ := List.mem_map.mp he
  rcases SortedMap.mem_insert hp with rfl | hp
  · exact .inl rfl
  · exact .inr (List.mem_map_of_mem hp)

/-- The rows of a well-formed memtable are a sorted stream. -/
theorem WellFormed.sortedStream {t : KVTable K V} (h : t.WellFormed) : SortedStream t.rows := by
  unfold SortedStream rows
  rw [List.pairwise_map]
  refine h.sorted.imp_of_mem (fun hp hq hpq => ?_)
  rw [h.keys _ hp, h.keys _ hq, SequencedKey.cmp_eq_lt] at hpq
  exact hpq

end Lawful

end KVTable

end SlateDb
