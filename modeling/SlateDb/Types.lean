import Mathlib

/-!
# Rows, values and key ranges

`RowEntry` is one version of a key as every iterator of the storage engine
passes it on: the key, a value that is a plain value, a merge operand or a
tombstone, the sequence number of the write and the optional creation and
expiry timestamps. Keys and values are left abstract; the engine's `Bytes`
keys are compared lexicographically, which any linear order stands for here.

`BytesRange` is a pair of bounds over the keys, with the membership test of
Rust's `RangeBounds::contains`.
-/

namespace SlateDb

inductive ValueDeletable (V : Type) where
  | value (v : V)
  | merge (v : V)
  | tombstone
  deriving DecidableEq, Repr

namespace ValueDeletable

variable {V : Type}

def isTombstone : ValueDeletable V → Bool
  | tombstone => true
  | _ => false

def isMerge : ValueDeletable V → Bool
  | merge _ => true
  | _ => false

/-- The payload of a value or a merge operand; a tombstone has none. -/
def asBytes : ValueDeletable V → Option V
  | value v => some v
  | merge v => some v
  | tombstone => none

@[simp] theorem isTombstone_value (v : V) : (value v).isTombstone = false := rfl
@[simp] theorem isTombstone_merge (v : V) : (merge v).isTombstone = false := rfl
@[simp] theorem isTombstone_tombstone : (tombstone : ValueDeletable V).isTombstone = true := rfl
@[simp] theorem isMerge_value (v : V) : (value v).isMerge = false := rfl
@[simp] theorem isMerge_merge (v : V) : (merge v).isMerge = true := rfl
@[simp] theorem isMerge_tombstone : (tombstone : ValueDeletable V).isMerge = false := rfl
@[simp] theorem asBytes_value (v : V) : (value v).asBytes = some v := rfl
@[simp] theorem asBytes_merge (v : V) : (merge v).asBytes = some v := rfl
@[simp] theorem asBytes_tombstone : (tombstone : ValueDeletable V).asBytes = none := rfl

/-- Only a tombstone has no payload. -/
theorem asBytes_isSome (v : ValueDeletable V) : v.asBytes.isSome = !v.isTombstone := by
  cases v <;> rfl

theorem isMerge_eq_true {v : ValueDeletable V} : v.isMerge = true ↔ ∃ x, v = merge x := by
  cases v <;> simp

/-- A value that is not a merge operand is what a read stops at. -/
theorem eq_of_isMerge_eq_false {v : ValueDeletable V} (h : v.isMerge = false) :
    v = tombstone ∨ ∃ x, v = value x := by
  cases v <;> simp_all

end ValueDeletable

structure RowEntry (K V : Type) where
  key : K
  value : ValueDeletable V
  seq : Nat
  createTs : Option Int
  expireTs : Option Int
  deriving DecidableEq, Repr

inductive Bound (K : Type) where
  | included (k : K)
  | excluded (k : K)
  | unbounded
  deriving DecidableEq, Repr

structure BytesRange (K : Type) where
  startBound : Bound K
  endBound : Bound K
  deriving DecidableEq, Repr

namespace BytesRange

variable {K : Type} [LinearOrder K]

def contains (r : BytesRange K) (k : K) : Bool :=
  (match r.startBound with
    | .included s => decide (s ≤ k)
    | .excluded s => decide (s < k)
    | .unbounded => true) &&
  (match r.endBound with
    | .included e => decide (k ≤ e)
    | .excluded e => decide (k < e)
    | .unbounded => true)

/-- `ComparableRange::non_empty`, the check of `BytesRange::new`. -/
def nonEmpty (r : BytesRange K) : Bool :=
  match r.startBound, r.endBound with
  | .included a, .included b => decide (a ≤ b)
  | .included a, .excluded b => decide (a < b)
  | .excluded a, .excluded b => decide (a < b)
  | .excluded a, .included b => decide (a < b)
  | .unbounded, _ => true
  | _, .unbounded => true

/-- The closed interval `[first, last]`. -/
def closed (first last : K) : BytesRange K := ⟨.included first, .included last⟩

@[simp] theorem contains_closed (first last k : K) :
    (closed first last).contains k = (decide (first ≤ k) && decide (k ≤ last)) := rfl

end BytesRange

/-- `IterationOrder`: the direction of an iterator over keys. -/
inductive IterationOrder where
  | ascending
  | descending
  deriving DecidableEq, Repr

end SlateDb
