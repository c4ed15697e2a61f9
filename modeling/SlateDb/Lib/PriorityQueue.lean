import Mathlib.Data.List.Perm.Basic
import Mathlib.Order.Defs.Unbundled

/-!
# Priority queues by what `pop` returns

A priority queue is modelled by its content, a list whose order means
nothing, and its `pop`, which takes out an element that is below every
element left. A binary heap, a sorted list or a scan for the least element
all satisfy `IsMinPop`; results proved from `IsMinPop` hold for each of them,
whichever of several least elements it returns. `selectMin` is one such
`pop`, by a scan, that makes a model run.
-/

namespace PriorityQueue

variable {α : Type} (le : α → α → Prop)

/-- `pop` takes out an element that is below every element left, and
returns nothing only on an empty queue. -/
structure IsMinPop (pop : List α → Option (α × List α)) : Prop where
  eq_none_iff : ∀ l, pop l = none ↔ l = []
  perm : ∀ {l a r}, pop l = some (a, r) → l.Perm (a :: r)
  le_rest : ∀ {l a r}, pop l = some (a, r) → ∀ b ∈ r, le a b

/-- The first least element by a scan from the back, and the others. -/
def selectMin [DecidableRel le] : List α → Option (α × List α)
  | [] => none
  | a :: l =>
    match selectMin l with
    | none => some (a, [])
    | some (b, r) => if le a b then some (a, b :: r) else some (b, a :: r)

variable {le}

theorem selectMin_eq_none_iff [DecidableRel le] (l : List α) : selectMin le l = none ↔ l = [] := by
  cases l with
  | nil => simp [selectMin]
  | cons a l =>
    simp only [reduceCtorEq, iff_false]
    unfold selectMin
    split
    · simp
    · split <;> simp

/-- `selectMin` is a `pop` of a priority queue for a total preorder. -/
theorem isMinPop_selectMin [DecidableRel le] [Std.Total le] [IsTrans α le] :
    IsMinPop le (selectMin le) := by
  -- both laws at once, by induction on the queue
  have hlaws : ∀ (l : List α) a r, selectMin le l = some (a, r) →
      l.Perm (a :: r) ∧ ∀ b ∈ r, le a b := by
    intro l
    induction l with
    | nil => intro a r h; cases h
    | cons x l ih =>
      intro a r h
      rcases hs : selectMin le l with _ | ⟨b, r'⟩
      · -- the last element: alone in the queue
        have hl : l = [] := (selectMin_eq_none_iff l).mp hs
        subst hl
        simp only [selectMin, Option.some.injEq, Prod.mk.injEq] at h
        obtain ⟨rfl, rfl⟩ := h
        exact ⟨List.Perm.refl _, by simp⟩
      · obtain ⟨hperm, hle⟩ := ih b r' hs
        simp only [selectMin, hs] at h
        by_cases hxb : le x b
        · -- `x` is below the least of the rest
          simp only [if_pos hxb, Option.some.injEq, Prod.mk.injEq] at h
          obtain ⟨rfl, rfl⟩ := h
          refine ⟨hperm.cons x, ?_⟩
          intro c hc
          rcases List.mem_cons.mp hc with rfl | hc
          · exact hxb
          · exact trans_of le hxb (hle c hc)
        · -- the least of the rest stays the least
          simp only [if_neg hxb, Option.some.injEq, Prod.mk.injEq] at h
          obtain ⟨rfl, rfl⟩ := h
          have hbx : le b x := (Std.Total.total x b).resolve_left hxb
          refine ⟨(hperm.cons x).trans (List.Perm.swap b x r'), ?_⟩
          intro c hc
          rcases List.mem_cons.mp hc with rfl | hc
          · exact hbx
          · exact hle c hc
  exact ⟨selectMin_eq_none_iff, fun h => (hlaws _ _ _ h).1, fun h => (hlaws _ _ _ h).2⟩

end PriorityQueue
