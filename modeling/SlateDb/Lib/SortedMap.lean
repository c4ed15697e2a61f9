import Mathlib.Order.Basic

/-!
# Ordered maps as sorted association lists

An ordered map under a comparison function, kept as the list of its bindings
in the order an in-order walk of a search tree visits them. `insert` puts a
new key before the first key above it, and gives a key that compares equal
the new value while keeping the stored key, as an ordered map's insert does;
`find?` looks a key up by the same comparison.

Under a lawful comparison, one that is transitive and identifies only equal
keys, an insert keeps the keys strictly ascending (`sorted_insert`), and every
binding after it is the new one or an old one (`mem_insert`).
-/

namespace SortedMap

variable {κ α : Type} (cmp : κ → κ → Ordering)

def insert (k : κ) (a : α) : List (κ × α) → List (κ × α)
  | [] => [(k, a)]
  | (k', a') :: rest =>
    match cmp k k' with
    | .lt => (k, a) :: (k', a') :: rest
    | .eq => (k', a) :: rest
    | .gt => (k', a') :: insert k a rest

def find? (k : κ) : List (κ × α) → Option α
  | [] => none
  | (k', a) :: rest => if cmp k k' = .eq then some a else find? k rest

/-- The keys of the bindings strictly ascend. -/
def Sorted (l : List (κ × α)) : Prop :=
  l.Pairwise (fun p q => cmp p.1 q.1 = .lt)

variable {cmp}

/-- A lookup of the key just inserted finds the new value, whatever the key
held before: an insert at a present key replaces. -/
theorem find?_insert_self [Std.ReflCmp cmp] (k : κ) (a : α) :
    ∀ l, find? cmp k (insert cmp k a l) = some a
  | [] => by simp [insert, find?, Std.ReflCmp.compare_self]
  | (k', a') :: rest => by
    cases h : cmp k k' with
    | lt => simp [insert, find?, h, Std.ReflCmp.compare_self]
    | eq => simp [insert, find?, h]
    | gt => simp [insert, find?, h, find?_insert_self k a rest]

theorem mem_insert [Std.LawfulEqCmp cmp] {k : κ} {a : α} {q : κ × α} :
    ∀ {l : List (κ × α)}, q ∈ insert cmp k a l → q = (k, a) ∨ q ∈ l
  | [], h => by simpa [insert] using h
  | (k', a') :: rest, h => by
    cases hc : cmp k k' with
    | lt =>
      simp only [insert, hc, List.mem_cons] at h
      rcases h with h | h
      · exact .inl h
      · exact .inr (List.mem_cons.mpr h)
    | eq =>
      -- the stored key is the new one, since only equal keys compare equal
      obtain rfl : k = k' := Std.LawfulEqCmp.eq_of_compare hc
      simp only [insert, hc, List.mem_cons] at h
      rcases h with h | h
      · exact .inl h
      · exact .inr (List.mem_cons_of_mem _ h)
    | gt =>
      simp only [insert, hc, List.mem_cons] at h
      rcases h with h | h
      · exact .inr (h ▸ List.mem_cons_self)
      · rcases mem_insert h with h | h
        · exact .inl h
        · exact .inr (List.mem_cons_of_mem _ h)

theorem sorted_insert [Std.TransCmp cmp] [Std.LawfulEqCmp cmp] (k : κ) (a : α) :
    ∀ {l : List (κ × α)}, Sorted cmp l → Sorted cmp (insert cmp k a l)
  | [], _ => List.pairwise_singleton _ _
  | (k', a') :: rest, h => by
    unfold Sorted at h ⊢
    have hhead : ∀ q ∈ rest, cmp k' q.1 = .lt := fun q hq => List.rel_of_pairwise_cons h hq
    cases hc : cmp k k' with
    | lt =>
      simp only [insert, hc]
      refine List.Pairwise.cons (fun q hq => ?_) h
      rcases List.mem_cons.mp hq with rfl | hq
      · exact hc
      · exact Std.TransCmp.lt_trans hc (hhead q hq)
    | eq =>
      simp only [insert, hc]
      exact List.Pairwise.cons hhead h.of_cons
    | gt =>
      simp only [insert, hc]
      refine List.Pairwise.cons (fun q hq => ?_) (sorted_insert k a h.of_cons)
      rcases mem_insert hq with rfl | hq
      · exact Std.OrientedCmp.gt_iff_lt.mp hc
      · exact hhead q hq

end SortedMap
