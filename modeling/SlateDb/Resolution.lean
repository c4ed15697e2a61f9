import SlateDb.Types
import SlateDb.Lib.MergeFold

/-!
# Reading a key from a stream of versions

A stream holds versions of keys. A read of key `k` at sequence number `s`
sees the versions of `k` with a sequence number at most `s`, newest first,
and takes them down to the first value or tombstone, folding the merge
operands above it onto it; a tombstone, or no version at all, stands for no
value. `applyVersions` is what a newest-first list of versions does to the
value below it, so that reading a concatenation is reading the front over the
back.

Expiry at a timestamp `T` turns every value whose expiry timestamp is at most
`T` into a tombstone and deletes every such merge operand. Streams are sorted
by key ascending and, within a key, by sequence number strictly descending.

These are the specifications the iterators are compared with; nothing here is
translated from the code.
-/

namespace SlateDb

variable {K V : Type}

section Versions

variable (f : Option V → V → V)

/-- The value below a newest-first list of versions, seen through it. -/
def applyVersions : List (ValueDeletable V) → Option V → Option V
  | [], r => r
  | .value v :: _, _ => some v
  | .tombstone :: _, _ => none
  | .merge x :: rest, r => some (f (applyVersions rest r) x)

@[simp] theorem applyVersions_nil (r : Option V) : applyVersions f [] r = r := rfl

@[simp] theorem applyVersions_value (v : V) (l : List (ValueDeletable V)) (r : Option V) :
    applyVersions f (.value v :: l) r = some v := rfl

@[simp] theorem applyVersions_tombstone (l : List (ValueDeletable V)) (r : Option V) :
    applyVersions f (.tombstone :: l) r = none := rfl

@[simp] theorem applyVersions_merge (x : V) (l : List (ValueDeletable V)) (r : Option V) :
    applyVersions f (.merge x :: l) r = some (f (applyVersions f l r) x) := rfl

theorem applyVersions_append (a b : List (ValueDeletable V)) (r : Option V) :
    applyVersions f (a ++ b) r = applyVersions f a (applyVersions f b r) := by
  induction a with
  | nil => rfl
  | cons v a ih => cases v <;> simp [ih]

/-- Merge operands over a value are the fold of the operands, oldest first. -/
theorem applyVersions_merges (xs : List V) (r : Option V) :
    applyVersions f (xs.map .merge) r = MergeFold.foldl f r xs.reverse := by
  induction xs with
  | nil => rfl
  | cons x xs ih => simp [ih, MergeFold.foldl_append]

/-- A value or tombstone reads as its payload, whatever lies below it. -/
theorem applyVersions_base {v : ValueDeletable V} (hv : v.isMerge = false)
    (l : List (ValueDeletable V)) (r : Option V) : applyVersions f (v :: l) r = v.asBytes := by
  cases v <;> simp_all

theorem applyVersions_tombstones {l : List (ValueDeletable V)}
    (hl : ∀ v ∈ l, v = .tombstone) : applyVersions f l none = none := by
  cases l with
  | nil => rfl
  | cons v l => rw [hl v List.mem_cons_self]; rfl

end Versions

/-- The key and sequence number of an entry: all that orders a stream. -/
def keySeq (e : RowEntry K V) : K × Nat := (e.key, e.seq)

/-- A read of `k` at `s` that a retention bound `m` must keep: at or above
`m`, or, with no bound, at or above every version of `k` in the stream. -/
def ProtectedRead (m : Option Nat) (l : List (RowEntry K V)) (k : K) (s : Nat) : Prop :=
  match m with
  | some m => m ≤ s
  | none => ∀ e ∈ l, e.key = k → e.seq ≤ s

/-- Every entry of a stream whose keys and sequence numbers are a sublist of
another's has a counterpart there. -/
theorem exists_keySeq_of_sublist {l l' : List (RowEntry K V)}
    (h : (l'.map keySeq).Sublist (l.map keySeq)) : ∀ e ∈ l', ∃ e₀ ∈ l, keySeq e₀ = keySeq e :=
  fun _ he => List.mem_map.mp (h.subset (List.mem_map_of_mem he))

theorem ProtectedRead.mono {m : Option Nat} {l l' : List (RowEntry K V)} {k : K} {s : Nat}
    (h : ∀ e ∈ l', ∃ e₀ ∈ l, keySeq e₀ = keySeq e) (hr : ProtectedRead m l k s) :
    ProtectedRead m l' k s := by
  cases m with
  | some m => exact hr
  | none =>
    intro e he hk
    obtain ⟨e₀, he₀, hks⟩ := h e he
    simp only [keySeq, Prod.mk.injEq] at hks
    rw [← hks.2]
    exact hr e₀ he₀ (hks.1.trans hk)

section Read

variable [DecidableEq K]

/-- The versions of `k` that a read at sequence number `s` sees. -/
def visible (k : K) (s : Nat) (l : List (RowEntry K V)) : List (ValueDeletable V) :=
  (l.filter (fun e => e.key = k ∧ e.seq ≤ s)).map (·.value)

/-- The value a read of `k` at sequence number `s` returns from the stream. -/
def resolve (merge : K → Option V → V → V) (k : K) (s : Nat) (l : List (RowEntry K V)) :
    Option V :=
  applyVersions (merge k) (visible k s l) none

@[simp] theorem visible_nil (k : K) (s : Nat) : visible k s ([] : List (RowEntry K V)) = [] := rfl

theorem visible_append (k : K) (s : Nat) (a b : List (RowEntry K V)) :
    visible k s (a ++ b) = visible k s a ++ visible k s b := by
  simp [visible]

theorem visible_cons (k : K) (s : Nat) (e : RowEntry K V) (l : List (RowEntry K V)) :
    visible k s (e :: l) =
      (if e.key = k ∧ e.seq ≤ s then [e.value] else []) ++ visible k s l := by
  by_cases h : e.key = k ∧ e.seq ≤ s <;> simp [visible, h]

/-- A read sees every version of a list that holds only visible versions of its key. -/
theorem visible_of_forall {k : K} {s : Nat} {l : List (RowEntry K V)}
    (hl : ∀ e ∈ l, e.key = k ∧ e.seq ≤ s) : visible k s l = l.map (·.value) := by
  rw [visible, List.filter_eq_self.mpr (fun e he => by simpa using hl e he)]

/-- A read of `k` looks only at the versions of `k`. -/
theorem visible_filter_key (k : K) (s : Nat) (l : List (RowEntry K V)) :
    visible k s (l.filter (·.key = k)) = visible k s l := by
  simp only [visible, List.filter_filter]
  congr 2
  funext e
  by_cases h : e.key = k <;> simp [h]

theorem resolve_filter_key (merge : K → Option V → V → V) (k : K) (s : Nat)
    (l : List (RowEntry K V)) : resolve merge k s (l.filter (·.key = k)) = resolve merge k s l := by
  rw [resolve, resolve, visible_filter_key]

theorem visible_of_key_ne {k : K} (s : Nat) {l : List (RowEntry K V)}
    (hl : ∀ e ∈ l, e.key ≠ k) : visible k s l = [] := by
  simp only [visible, List.map_eq_nil_iff, List.filter_eq_nil_iff, decide_eq_true_eq, not_and]
  exact fun e he hk => absurd hk (hl e he)

end Read

/-- An entry after expiry at `T`: an expired value becomes a tombstone without
expiry, and an expired merge operand is deleted. -/
def expireAt (T : Int) (e : RowEntry K V) : Option (RowEntry K V) :=
  match e.expireTs with
  | some t =>
    if t ≤ T then
      if e.value.isMerge then none else some { e with value := .tombstone, expireTs := none }
    else some e
  | none => some e

/-- The stream after expiry at `T`. -/
def expire (T : Int) (l : List (RowEntry K V)) : List (RowEntry K V) :=
  l.filterMap (expireAt T)

theorem expire_append (T : Int) (a b : List (RowEntry K V)) :
    expire T (a ++ b) = expire T a ++ expire T b :=
  List.filterMap_append

theorem expireAt_of_not_expired {T : Int} {e : RowEntry K V}
    (h : ∀ t, e.expireTs = some t → T < t) : expireAt T e = some e := by
  unfold expireAt
  split
  · rename_i t ht
    rw [if_neg (Int.not_le.mpr (h t ht))]
  · rfl

theorem expireAt_of_expired {T t : Int} {e : RowEntry K V} (ht : e.expireTs = some t) (hT : t ≤ T) :
    expireAt T e =
      if e.value.isMerge then none else some { e with value := .tombstone, expireTs := none } := by
  simp [expireAt, ht, hT]

theorem expire_of_not_expired {T : Int} {l : List (RowEntry K V)}
    (h : ∀ e ∈ l, ∀ t, e.expireTs = some t → T < t) : expire T l = l := by
  induction l with
  | nil => rfl
  | cons e l ih =>
    simp only [expire, List.filterMap_cons, expireAt_of_not_expired (h e List.mem_cons_self)]
    rw [← expire, ih (fun e' he' => h e' (List.mem_cons_of_mem e he'))]

theorem expire_of_expired_merges {T t : Int} {l : List (RowEntry K V)}
    (hl : ∀ e ∈ l, e.value.isMerge = true ∧ e.expireTs = some t) (hT : t ≤ T) : expire T l = [] := by
  refine List.filterMap_eq_nil_iff.mpr (fun e he => ?_)
  obtain ⟨hm, ht⟩ := hl e he
  simp [expireAt_of_expired ht hT, hm]

theorem keySeq_of_expireAt {T : Int} {e e' : RowEntry K V} (h : expireAt T e = some e') :
    keySeq e' = keySeq e := by
  unfold expireAt at h
  split at h
  · split at h
    · split at h
      · cases h
      · cases h; rfl
    · cases h; rfl
  · cases h; rfl

theorem expire_filter_key [DecidableEq K] (T : Int) (k : K) (l : List (RowEntry K V)) :
    expire T (l.filter (·.key = k)) = (expire T l).filter (·.key = k) := by
  induction l with
  | nil => rfl
  | cons e l ih =>
    have hk : ∀ e', expireAt T e = some e' → e'.key = e.key := fun e' h =>
      congrArg Prod.fst (keySeq_of_expireAt h)
    simp only [expire] at ih ⊢
    cases hx : expireAt T e with
    | none => by_cases he : e.key = k <;> simp [he, hx, ih]
    | some e' => by_cases he : e.key = k <;> simp [he, hx, hk e' hx, ih]

theorem keySeq_expire_sublist (T : Int) :
    ∀ l : List (RowEntry K V), ((expire T l).map keySeq).Sublist (l.map keySeq)
  | [] => List.Sublist.slnil
  | e :: l => by
    have ih := keySeq_expire_sublist T l
    simp only [expire, List.filterMap_cons] at ih ⊢
    cases hx : expireAt T e with
    | none => exact ih.cons _
    | some e' =>
      rw [List.map_cons, List.map_cons, keySeq_of_expireAt hx]
      exact ih.cons_cons _

theorem mem_expire {T : Int} {l : List (RowEntry K V)} {e : RowEntry K V} (he : e ∈ expire T l) :
    ∃ e₀ ∈ l, keySeq e₀ = keySeq e := by
  obtain ⟨e₀, he₀, hx⟩ := List.mem_filterMap.mp he
  exact ⟨e₀, he₀, (keySeq_of_expireAt hx).symm⟩

section Order

variable [LinearOrder K]

/-- Stream order: keys ascending, sequence numbers strictly descending within a key. -/
def EntryLt (a b : RowEntry K V) : Prop :=
  a.key < b.key ∨ (a.key = b.key ∧ b.seq < a.seq)

def SortedStream (l : List (RowEntry K V)) : Prop :=
  l.Pairwise EntryLt

instance : DecidableRel (EntryLt (K := K) (V := V)) :=
  fun a b => inferInstanceAs (Decidable (a.key < b.key ∨ (a.key = b.key ∧ b.seq < a.seq)))

instance (l : List (RowEntry K V)) : Decidable (SortedStream l) :=
  inferInstanceAs (Decidable (l.Pairwise EntryLt))

/-- A stream whose keys and sequence numbers are a sublist of a sorted
stream's is sorted. -/
theorem SortedStream.of_keySeq_sublist {l l' : List (RowEntry K V)}
    (h : (l'.map keySeq).Sublist (l.map keySeq)) (hl : SortedStream l) : SortedStream l' := by
  let R : K × Nat → K × Nat → Prop := fun p q => p.1 < q.1 ∨ (p.1 = q.1 ∧ q.2 < p.2)
  have hR : (l.map keySeq).Pairwise R := List.pairwise_map.mpr hl
  have hR' : (l'.map keySeq).Pairwise R := hR.sublist h
  exact (List.pairwise_map (f := keySeq)).mp hR'

theorem EntryLt.key_le {a b : RowEntry K V} (h : EntryLt a b) : a.key ≤ b.key := by
  rcases h with h | ⟨h, -⟩
  · exact le_of_lt h
  · exact le_of_eq h

theorem SortedStream.tail {e : RowEntry K V} {l : List (RowEntry K V)} (h : SortedStream (e :: l)) :
    SortedStream l :=
  List.Pairwise.of_cons h

theorem SortedStream.append_right {a b : List (RowEntry K V)} (h : SortedStream (a ++ b)) :
    SortedStream b :=
  (List.pairwise_append.mp h).2.1

/-- In a sorted stream a version before `e` of `e`'s key is newer than `e`. -/
theorem SortedStream.seq_lt_of_append {a rest : List (RowEntry K V)} {e : RowEntry K V}
    (h : SortedStream (a ++ e :: rest)) {v : RowEntry K V} (hv : v ∈ a) (hk : v.key = e.key) :
    e.seq < v.seq := by
  rcases (List.pairwise_append.mp h).2.2 v hv e List.mem_cons_self with hlt | ⟨-, hseq⟩
  · exact absurd hk (ne_of_lt hlt)
  · exact hseq

theorem SortedStream.seq_lt {e : RowEntry K V} {l : List (RowEntry K V)}
    (hl : SortedStream (e :: l)) {e' : RowEntry K V} (he' : e' ∈ l) (hk : e'.key = e.key) :
    e'.seq < e.seq := by
  rcases List.rel_of_pairwise_cons hl he' with hlt | ⟨-, hseq⟩
  · exact absurd hk (ne_of_gt hlt)
  · exact hseq

end Order

end SlateDb
