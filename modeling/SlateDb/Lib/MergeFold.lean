import Mathlib.Data.Option.Basic

/-!
# Left folds of a merge function

A merge function combines an optional existing value with one operand, and a
batch of operands is merged by a left fold from the existing value. `Lawful`
is associativity of the merge, with no existing value as its left unit. Under
it a nonempty batch may be merged on its own first and its result merged in
its place: `foldl_append_of_foldl_none`. This is what makes merging operands
in batches of any size, then merging the batches' results, equal to one fold.
-/

namespace MergeFold

variable {V : Type} (f : Option V → V → V)

/-- Associativity of a merge function whose first argument is optional. -/
structure Lawful : Prop where
  none_merge : ∀ x, f none x = x
  assoc : ∀ a x y, f (some (f a x)) y = f a (f (some x) y)

/-- The left fold of the merge over the operands, oldest first. -/
def foldl (a : Option V) (xs : List V) : Option V :=
  xs.foldl (fun acc x => some (f acc x)) a

@[simp] theorem foldl_nil (a : Option V) : foldl f a [] = a := rfl

@[simp] theorem foldl_cons (a : Option V) (x : V) (xs : List V) :
    foldl f a (x :: xs) = foldl f (some (f a x)) xs := rfl

theorem foldl_append (a : Option V) (xs ys : List V) :
    foldl f a (xs ++ ys) = foldl f (foldl f a xs) ys :=
  List.foldl_append

theorem foldl_some_isSome : ∀ (v : V) (xs : List V), (foldl f (some v) xs).isSome
  | _, [] => rfl
  | v, x :: xs => foldl_some_isSome (f (some v) x) xs

theorem foldl_isSome_of_ne_nil (a : Option V) {xs : List V} (hxs : xs ≠ []) :
    (foldl f a xs).isSome := by
  obtain ⟨x, xs, rfl⟩ := List.exists_cons_of_ne_nil hxs
  exact foldl_some_isSome f _ xs

variable {f}

theorem foldl_some_merge (hf : Lawful f) (a : Option V) :
    ∀ (x : V) (xs : List V), foldl f (some (f a x)) xs = (foldl f (some x) xs).map (f a)
  | _, [] => rfl
  | x, y :: ys => by
    rw [foldl_cons, foldl_cons, hf.assoc, foldl_some_merge hf a (f (some x) y) ys]

/-- A nonempty batch folded from `a` is `a` merged with the batch's own result. -/
theorem foldl_eq_map_foldl_none (hf : Lawful f) (a : Option V) {xs : List V} (hxs : xs ≠ []) :
    foldl f a xs = (foldl f none xs).map (f a) := by
  obtain ⟨x, xs, rfl⟩ := List.exists_cons_of_ne_nil hxs
  rw [foldl_cons, foldl_cons, hf.none_merge, foldl_some_merge hf]

/-- A batch at the front of the operands may be replaced by its result. -/
theorem foldl_append_of_foldl_none (hf : Lawful f) (a : Option V) {xs ys : List V} {r : V}
    (h : foldl f none xs = some r) : foldl f a (xs ++ ys) = foldl f a (r :: ys) := by
  have hxs : xs ≠ [] := by
    rintro rfl
    simp at h
  rw [foldl_append, foldl_eq_map_foldl_none hf a hxs, h, foldl_cons]
  rfl

end MergeFold
