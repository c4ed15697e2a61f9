import Mathlib.Data.List.Infix
import Mathlib.Data.List.Nodup

/-!
# Blocks of a list

A block is a run of consecutive elements of a list. The lemmas here are the
list facts behind replacing a block by one element that holds all of it:
an order between every element of an earlier list and every element of a later
one survives the merge of a block (`pairwise_flatten_block`); a block sharing
nothing with another block lies wholly on one side of it, and so stays a block
when the other is replaced (`infix_append_append_of_disjoint`); two nonempty
suffixes of one list meet in its last element (`exists_mem_of_isSuffix`).
Elements are found by a key that no two of them share.
-/

namespace List

variable {α β : Type}

/-- Merging a block into one list keeps the order between earlier and later
lists: nothing inside the block is compared any more. -/
theorem pairwise_flatten_block {R : α → α → Prop} {A B C : List (List α)}
    (h : (A ++ B ++ C).Pairwise (fun a b => ∀ x ∈ a, ∀ y ∈ b, R x y)) :
    (A ++ [B.flatten] ++ C).Pairwise (fun a b => ∀ x ∈ a, ∀ y ∈ b, R x y) := by
  rw [pairwise_append, pairwise_append] at h ⊢
  obtain ⟨⟨hA, -, hAB⟩, hC, hABC⟩ := h
  refine ⟨⟨hA, pairwise_singleton _ _, ?_⟩, hC, ?_⟩
  · intro a ha b hb x hx y hy
    rw [mem_singleton] at hb
    subst hb
    obtain ⟨b, hb, hy⟩ := mem_flatten.mp hy
    exact hAB a ha b hb x hx y hy
  · intro a ha c hc x hx y hy
    rcases mem_append.mp ha with ha | ha
    · exact hABC a (mem_append_left _ ha) c hc x hx y hy
    · rw [mem_singleton] at ha
      subst ha
      obtain ⟨b, hb, hx⟩ := mem_flatten.mp hx
      exact hABC b (mem_append_right _ hb) c hc x hx y hy

/-- Two lists that agree after differing nonempty fronts begin alike. -/
theorem head_mem_of_append_eq {xs ys S T : List α} (hxs : xs ≠ []) (hys : ys ≠ [])
    (h : xs ++ S = ys ++ T) : ∃ x ∈ xs, x ∈ ys := by
  obtain ⟨x, xs', rfl⟩ := exists_cons_of_ne_nil hxs
  obtain ⟨y, ys', rfl⟩ := exists_cons_of_ne_nil hys
  rw [cons_append, cons_append, cons.injEq] at h
  exact ⟨x, mem_cons_self, h.1 ▸ mem_cons_self⟩

/-- A nonempty block that shares nothing with a nonempty block `W` lies wholly
before it or wholly after it. -/
theorem infix_or_infix_of_disjoint {xs A W C : List α} (hxs : xs ≠ []) (hW : W ≠ [])
    (h : xs <:+: A ++ W ++ C) (hdisj : ∀ x ∈ xs, x ∉ W) : xs <:+: A ∨ xs <:+: C := by
  obtain ⟨P, S, hPS⟩ := h
  rw [append_assoc, append_assoc, append_eq_append_iff] at hPS
  rcases hPS with ⟨as, hA, hrest⟩ | ⟨bs, hP, hrest⟩
  · -- the block starts inside `A`; it cannot reach into `W`
    rw [append_eq_append_iff] at hrest
    rcases hrest with ⟨as', rfl, -⟩ | ⟨bs', hxs', hrest⟩
    · exact .inl ⟨P, as', by rw [hA, append_assoc]⟩
    · by_cases hbs' : bs' = []
      · subst hbs'
        rw [append_nil] at hxs'
        subst hxs'
        exact .inl ⟨P, [], by rw [hA, append_nil]⟩
      · obtain ⟨w, hw, hw'⟩ := head_mem_of_append_eq hW hbs' hrest
        exact absurd hw (hdisj w (hxs' ▸ mem_append_right _ hw'))
  · -- the block starts after `A`; it cannot start inside `W`
    rw [append_eq_append_iff] at hrest
    rcases hrest with ⟨as, -, hC⟩ | ⟨bs', hWeq, hrest⟩
    · exact .inr ⟨as, S, by rw [hC, append_assoc]⟩
    · by_cases hbs' : bs' = []
      · subst hbs'
        rw [nil_append] at hrest
        exact .inr ⟨[], S, by rw [nil_append, hrest]⟩
      · obtain ⟨x, hx, hx'⟩ := head_mem_of_append_eq hxs hbs' hrest
        exact absurd (hWeq ▸ mem_append_right _ hx') (hdisj x hx)

/-- A block disjoint from `W` stays a block when `W` is replaced. -/
theorem infix_append_append_of_disjoint {xs A W C : List α} (hxs : xs ≠ []) (hW : W ≠ [])
    (h : xs <:+: A ++ W ++ C) (hdisj : ∀ x ∈ xs, x ∉ W) (o : List α) : xs <:+: A ++ o ++ C := by
  rcases infix_or_infix_of_disjoint hxs hW h hdisj with hA | hC
  · rw [append_assoc]
    exact hA.trans (prefix_append A (o ++ C)).isInfix
  · exact hC.trans (suffix_append (A ++ o) C).isInfix

/-- Two nonempty suffixes of a list share its last element. -/
theorem exists_mem_of_isSuffix {S₁ S₂ l : List α} (h₁ : S₁ <:+ l) (h₂ : S₂ <:+ l) (hne₁ : S₁ ≠ [])
    (hne₂ : S₂ ≠ []) : ∃ x ∈ S₁, x ∈ S₂ := by
  refine ⟨S₁.getLast hne₁, getLast_mem hne₁, ?_⟩
  rw [h₁.getLast hne₁, ← h₂.getLast hne₂]
  exact getLast_mem hne₂

/-- Pairs zipped from two lists are related as their sides are. -/
theorem pairwise_zip {R : α → α → Prop} {S : β → β → Prop} :
    ∀ {l₁ : List α} {l₂ : List β}, l₁.Pairwise R → l₂.Pairwise S →
      (l₁.zip l₂).Pairwise (fun p q => R p.1 q.1 ∧ S p.2 q.2)
  | [], _, _, _ => by rw [zip_nil_left]; exact .nil
  | _ :: _, [], _, _ => by rw [zip_nil_right]; exact .nil
  | a :: l₁, b :: l₂, h₁, h₂ => by
    rw [pairwise_cons] at h₁ h₂
    rw [zip_cons_cons, pairwise_cons]
    refine ⟨fun q hq => ?_, pairwise_zip h₁.2 h₂.2⟩
    obtain ⟨hq₁, hq₂⟩ := of_mem_zip hq
    exact ⟨h₁.1 q.1 hq₁, h₂.1 q.2 hq₂⟩

section Keys

variable [BEq β] [LawfulBEq β] {f : α → β}

/-- With keys that no two elements share, a lookup by an element's key finds it. -/
theorem find?_key_eq_some {l : List α} {x : α} (hnodup : (l.map f).Nodup) (hx : x ∈ l) :
    l.find? (fun y => f y == f x) = some x := by
  induction l with
  | nil => exact absurd hx not_mem_nil
  | cons a l ih =>
    rw [map_cons, nodup_cons] at hnodup
    rcases mem_cons.mp hx with rfl | hx
    · simp
    · -- the head has another key than every element after it
      have hne : f a ≠ f x := fun heq => hnodup.1 (heq ▸ mem_map_of_mem hx)
      simp [hne, ih hnodup.2 hx]

/-- Dropping the elements whose key is among a block's keys leaves what came
before the block. -/
theorem filter_not_contains_append {L S : List α} (hnodup : ((L ++ S).map f).Nodup) :
    (L ++ S).filter (fun v => !(S.map f).contains (f v)) = L := by
  rw [map_append, nodup_append] at hnodup
  rw [filter_append, filter_eq_self.mpr, filter_eq_nil_iff.mpr, append_nil]
  · intro v hv
    simpa using mem_map_of_mem hv
  · intro v hv
    have hdisj := hnodup.2.2 (f v) (mem_map_of_mem hv)
    simpa [contains_eq_mem] using fun w hw heq => hdisj (f w) (mem_map_of_mem hw) heq.symm

end Keys

end List
