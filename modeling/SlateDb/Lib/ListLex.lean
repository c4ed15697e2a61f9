import Mathlib.Data.List.Chain
import Mathlib.Data.List.Lex
import Mathlib.Order.Antichain

/-!
# The lexicographic order on lists

Facts about Mathlib's lexicographic order on lists over a linear order, which
is the order of byte strings: the empty list is least, a prefix is at most the
list, and two lists with a common head compare as their tails do.

Between a list and one of its extensions lie only extensions of the list
(`isPrefix_of_le_of_le`). So in a set of lists none of which extends another,
a nesting with a list `p` shows at the members next to `p` in the order: a
member that `p` extends is the greatest member at most `p`, and a member that
extends `p` makes the least member above `p` extend it too.
-/

/-- Bytes in the order of their values. -/
instance instLinearOrderUInt8 : LinearOrder UInt8 where
  le_refl := UInt8.le_refl
  le_trans _ _ _ := UInt8.le_trans
  le_antisymm _ _ := UInt8.le_antisymm
  le_total := UInt8.le_total
  lt_iff_le_not_ge a b := by simp only [UInt8.lt_iff_toNat_lt, UInt8.le_iff_toNat_le]; omega
  toDecidableLE := inferInstance
  toDecidableLT := inferInstance
  toDecidableEq := inferInstance
  compare_eq_compareOfLessAndEq a b := by simp only [compare, compareOfLessAndEq, UInt8.lt_iff_toNat_lt]

namespace ListLex

theorem uint8_compare_eq_lt (a b : UInt8) : compare a b = .lt ↔ a < b := by
  simp only [compare, compareOfLessAndEq]
  split_ifs <;> simp_all

theorem uint8_compare_eq_eq (a b : UInt8) : compare a b = .eq ↔ a = b := by
  simp only [compare, compareOfLessAndEq]
  split_ifs with hlt <;> simp_all
  exact ne_of_lt hlt

variable {α : Type} [LinearOrder α]

theorem lt_iff_lex {l₁ l₂ : List α} : l₁ < l₂ ↔ List.Lex (· < ·) l₁ l₂ := Iff.rfl

theorem nil_le (l : List α) : [] ≤ l := by
  cases l with
  | nil => exact le_rfl
  | cons a l => exact le_of_lt List.Lex.nil

theorem nil_lt_cons (a : α) (l : List α) : [] < a :: l := List.Lex.nil

theorem not_cons_le_nil (a : α) (l : List α) : ¬a :: l ≤ [] := by
  rw [le_iff_lt_or_eq, lt_iff_lex]
  rintro (h | h)
  · cases h
  · cases h

theorem cons_lt_cons_iff {a : α} {l₁ l₂ : List α} : a :: l₁ < a :: l₂ ↔ l₁ < l₂ :=
  List.lex_cons_iff

theorem cons_le_cons_iff {a : α} {l₁ l₂ : List α} : a :: l₁ ≤ a :: l₂ ↔ l₁ ≤ l₂ := by
  rw [le_iff_lt_or_eq, le_iff_lt_or_eq, cons_lt_cons_iff, List.cons.injEq]
  simp

/-- Lists that differ at their heads compare as their heads do. -/
theorem lt_of_cons_le_cons {a b : α} {l₁ l₂ : List α} (h : a :: l₁ ≤ b :: l₂) (hab : a ≠ b) :
    a < b := by
  rcases le_iff_lt_or_eq.mp h with h | h
  · cases h with
    | cons _ => exact absurd rfl hab
    | rel h => exact h
  · exact absurd (List.cons.inj h).1 hab

theorem cons_lt_cons_of_lt {a b : α} (l₁ l₂ : List α) (h : a < b) : a :: l₁ < b :: l₂ :=
  List.Lex.rel h

/-- `compareLex` over an element comparison that decides the order is the
lexicographic order. -/
theorem compareLex_eq_lt_iff {cmp : α → α → Ordering} (hlt : ∀ a b, cmp a b = .lt ↔ a < b)
    (heq : ∀ a b, cmp a b = .eq ↔ a = b) :
    ∀ l₁ l₂ : List α, l₁.compareLex cmp l₂ = .lt ↔ l₁ < l₂
  | [], [] => ⟨(fun h => nomatch h), fun h => absurd h (lt_irrefl _)⟩
  | [], _ :: _ => ⟨fun _ => nil_lt_cons _ _, fun _ => rfl⟩
  | _ :: _, [] => ⟨(fun h => nomatch h), fun h => absurd h.le (not_cons_le_nil _ _)⟩
  | a :: l₁, b :: l₂ => by
    rw [List.compareLex_cons_cons]
    rcases lt_trichotomy a b with hab | rfl | hab
    · rw [(hlt a b).mpr hab]
      exact ⟨fun _ => cons_lt_cons_of_lt _ _ hab, fun _ => rfl⟩
    · -- equal heads: the tails decide
      rw [(heq a a).mpr rfl, cons_lt_cons_iff]
      exact compareLex_eq_lt_iff hlt heq l₁ l₂
    · have hgt : cmp a b = .gt := by
        cases h : cmp a b
        · exact absurd ((hlt a b).mp h) (not_lt.mpr hab.le)
        · exact absurd ((heq a b).mp h) hab.ne'
        · rfl
      rw [hgt]
      exact ⟨(fun h => nomatch h), fun h => absurd (cons_lt_cons_of_lt l₂ l₁ hab) (not_lt.mpr h.le)⟩

theorem isPrefix_le : ∀ {l₁ l₂ : List α}, l₁ <+: l₂ → l₁ ≤ l₂
  | [], l₂, _ => nil_le l₂
  | a :: l₁, _, h => by
    obtain ⟨t, rfl⟩ := h
    exact List.cons_le_cons a (isPrefix_le (List.prefix_append l₁ t))

/-- A list between a list and one of its extensions extends it too. -/
theorem isPrefix_of_le_of_le : ∀ {l₁ l₂ l₃ : List α}, l₁ <+: l₃ → l₁ ≤ l₂ → l₂ ≤ l₃ → l₁ <+: l₂
  | [], _, _, _, _, _ => List.nil_prefix
  | a :: l₁, l₂, _, h₁₃, h₁₂, h₂₃ => by
    obtain ⟨t, rfl⟩ := h₁₃
    cases l₂ with
    | nil => exact absurd h₁₂ (not_cons_le_nil a l₁)
    | cons b l₂ =>
      -- the heads agree: the middle list is at least the first and at most the third
      have hab : a = b := by
        by_contra hne
        exact lt_asymm (lt_of_cons_le_cons h₁₂ hne) (lt_of_cons_le_cons h₂₃ (Ne.symm hne))
      subst hab
      have ih := isPrefix_of_le_of_le (List.prefix_append l₁ t) (cons_le_cons_iff.mp h₁₂)
        (cons_le_cons_iff.mp h₂₃)
      exact List.cons_prefix_cons.mpr ⟨rfl, ih⟩

/-- Two lists are nested when one extends the other. -/
def Nested (l₁ l₂ : List α) : Prop := l₁ <+: l₂ ∨ l₂ <+: l₁

instance [DecidableEq α] (l₁ l₂ : List α) : Decidable (Nested l₁ l₂) :=
  inferInstanceAs (Decidable (l₁ <+: l₂ ∨ l₂ <+: l₁))

omit [LinearOrder α] in
theorem Nested.symm {l₁ l₂ : List α} (h : Nested l₁ l₂) : Nested l₂ l₁ := Or.symm h

/-- Extensions of two lists that do not nest compare as the lists do. -/
theorem lt_of_isPrefix_of_not_nested : ∀ {l₁ l₂ : List α}, l₁ < l₂ → ¬Nested l₁ l₂ →
    ∀ {m₁ m₂ : List α}, l₁ <+: m₁ → l₂ <+: m₂ → m₁ < m₂
  | [], _, _, hnest, _, _, _, _ => absurd (.inl List.nil_prefix) hnest
  | _ :: _, [], hlt, _, _, _, _, _ => absurd hlt (not_lt_of_ge (nil_le _))
  | a :: l₁, b :: l₂, hlt, hnest, m₁, m₂, h₁, h₂ => by
    obtain ⟨t₁, rfl⟩ := h₁
    obtain ⟨t₂, rfl⟩ := h₂
    by_cases hab : a = b
    · -- a common head: the tails do not nest and compare as the lists do
      subst hab
      have htails : ¬Nested l₁ l₂ := fun h =>
        hnest (h.imp (List.cons_prefix_cons.mpr ⟨rfl, ·⟩) (List.cons_prefix_cons.mpr ⟨rfl, ·⟩))
      exact cons_lt_cons_iff.mpr (lt_of_isPrefix_of_not_nested (cons_lt_cons_iff.mp hlt) htails
        (List.prefix_append l₁ t₁) (List.prefix_append l₂ t₂))
    · exact cons_lt_cons_of_lt _ _ (lt_of_cons_le_cons hlt.le hab)

/-- The extensions of a list at most `lo` that `lo` does not extend all lie
below `lo`. -/
theorem lt_of_isPrefix_of_not_isPrefix {p lo k : List α} (hp : p ≤ lo) (hnot : ¬p <+: lo)
    (hk : p <+: k) : k < lo := by
  have hne : p ≠ lo := fun h => hnot (h ▸ List.prefix_refl p)
  have hnest : ¬Nested p lo := by
    rintro (h | h)
    · exact hnot h
    · exact hne (le_antisymm hp (isPrefix_le h))
  exact lt_of_isPrefix_of_not_nested (lt_of_le_of_ne hp hne) hnest hk (List.prefix_refl lo)

/-- A list is below itself followed by anything. -/
theorem lt_append_singleton (a : α) : ∀ l : List α, l < l ++ [a]
  | [] => nil_lt_cons a []
  | _ :: l => cons_lt_cons_iff.mpr (lt_append_singleton a l)

/-- A list followed by a least element is the next list after it: at most
every list above it. -/
theorem append_le_of_lt {a : α} (hmin : ∀ b, a ≤ b) : ∀ {l k : List α}, l < k → l ++ [a] ≤ k
  | [], [], hlt => absurd hlt (lt_irrefl _)
  | [], b :: k, _ => by
    rcases (hmin b).lt_or_eq with hab | rfl
    · exact (cons_lt_cons_of_lt _ _ hab).le
    · exact cons_le_cons_iff.mpr (nil_le k)
  | _ :: _, [], hlt => absurd hlt (not_lt_of_ge (nil_le _))
  | c :: l, b :: k, hlt => by
    by_cases hcb : c = b
    · subst hcb
      exact cons_le_cons_iff.mpr (append_le_of_lt hmin (cons_lt_cons_iff.mp hlt))
    · exact (cons_lt_cons_of_lt _ _ (lt_of_cons_le_cons hlt.le hcb)).le

section Antichain

variable {s : Set (List α)}

/-- In a set none of whose members extends another, a member that `p` extends
is the greatest member at most `p`. -/
theorem eq_of_isPrefix_of_le (hs : IsAntichain List.IsPrefix s) {t q p : List α} (ht : t ∈ s)
    (hq : q ∈ s) (htp : t <+: p) (htq : t ≤ q) (hqp : q ≤ p) : q = t := by
  by_contra hne
  exact hs ht hq (Ne.symm hne) (isPrefix_of_le_of_le htp htq hqp)

/-- The nestings of `p` with such a set show at the members next to it: the
greatest member at most `p` and the least member above `p`. -/
theorem nested_neighbour (hs : IsAntichain List.IsPrefix s) {t p : List α} (ht : t ∈ s)
    (hne : t ≠ p) (hnest : Nested t p) {pred succ : Option (List α)}
    (hpred : ∀ q ∈ pred, q ∈ s ∧ q ≤ p) (hpred_max : ∀ r ∈ s, r ≤ p → ∃ q ∈ pred, r ≤ q)
    (hsucc : ∀ q ∈ succ, q ∈ s ∧ p < q) (hsucc_min : ∀ r ∈ s, p < r → ∃ q ∈ succ, q ≤ r) :
    (∃ q ∈ pred, q <+: p) ∨ ∃ q ∈ succ, p <+: q := by
  rcases hnest with htp | hpt
  · -- `t` is below `p`, so the greatest member at most `p` is `t` itself
    obtain ⟨q, hq, htq⟩ := hpred_max t ht (isPrefix_le htp)
    obtain ⟨hqs, hqp⟩ := hpred q hq
    exact .inl ⟨q, hq, eq_of_isPrefix_of_le hs ht hqs htp htq hqp ▸ htp⟩
  · -- `t` is above `p`, and the least member above `p` lies between them
    have hlt : p < t := lt_of_le_of_ne (isPrefix_le hpt) (Ne.symm hne)
    obtain ⟨q, hq, hqt⟩ := hsucc_min t ht hlt
    exact .inr ⟨q, hq, isPrefix_of_le_of_le hpt (hsucc q hq).2.le hqt⟩

/-- Two members of such a set that one list extends are the same member. -/
theorem eq_of_isPrefix_of_isPrefix (hs : IsAntichain List.IsPrefix s) {q₁ q₂ l : List α}
    (hq₁ : q₁ ∈ s) (hq₂ : q₂ ∈ s) (h₁ : q₁ <+: l) (h₂ : q₂ <+: l) : q₁ = q₂ := by
  by_contra hne
  rcases List.prefix_or_prefix_of_prefix h₁ h₂ with h | h
  · exact hs hq₁ hq₂ hne h
  · exact hs hq₂ hq₁ (Ne.symm hne) h

/-- A member below another member extends to no list at or above one that the
other extends to. -/
theorem not_isPrefix_of_lt (hs : IsAntichain List.IsPrefix s) {q p l l' : List α} (hq : q ∈ s)
    (hp : p ∈ s) (hqp : q < p) (hpl : p <+: l) (hll' : l ≤ l') : ¬q <+: l' := by
  intro hql'
  have hnest : ¬Nested q p := by
    rintro (h | h)
    · exact hs hq hp (ne_of_lt hqp) h
    · exact hs hp hq (ne_of_gt hqp) h
  exact not_lt_of_ge hll' (lt_of_isPrefix_of_not_nested hqp hnest hql' hpl)

/-- A list can join a set without breaking its antichain: it is a member, or it
nests with none. -/
def Admits (s : Set (List α)) (p : List α) : Prop := p ∈ s ∨ ∀ t ∈ s, ¬Nested t p

omit [LinearOrder α] in
theorem Admits.mono {t : Set (List α)} (hs : IsAntichain List.IsPrefix s) (hts : t ⊆ s) {p : List α}
    (h : Admits s p) : Admits t p := by
  by_cases hpt : p ∈ t
  · exact .inl hpt
  refine .inr fun x hx hnest => ?_
  rcases h with hps | hnone
  · -- both are members of the antichain, and they differ
    have hne : x ≠ p := fun h => hpt (h ▸ hx)
    rcases hnest with h | h
    · exact hs (hts hx) hps hne h
    · exact hs hps (hts hx) (Ne.symm hne) h
  · exact hnone x (hts hx) hnest

omit [LinearOrder α] in
/-- Checking a list against two sources in turn, where a list the first holds
needs no second check, is checking it against their union. -/
theorem admits_union_iff {t : Set (List α)} (hst : IsAntichain List.IsPrefix (s ∪ t)) {p : List α} :
    Admits (s ∪ t) p ↔ Admits s p ∧ (p ∉ s → Admits t p) := by
  constructor
  · intro h
    exact ⟨h.mono hst Set.subset_union_left, fun _ => h.mono hst Set.subset_union_right⟩
  · rintro ⟨hps | hnone, ht⟩
    · exact .inl (.inl hps)
    by_cases hps : p ∈ s
    · exact .inl (.inl hps)
    rcases ht hps with hpt | hnone'
    · exact .inl (.inr hpt)
    · exact .inr fun u hu => hu.elim (hnone u) (hnone' u)

omit [LinearOrder α] in
/-- Adding a set to an antichain keeps it one exactly when the added set is one
and the antichain admits each of its members. -/
theorem isAntichain_union_iff (hs : IsAntichain List.IsPrefix s) {b : Set (List α)} :
    IsAntichain List.IsPrefix (s ∪ b) ↔ IsAntichain List.IsPrefix b ∧ ∀ p ∈ b, Admits s p := by
  constructor
  · intro h
    refine ⟨h.subset Set.subset_union_right, fun p hp => ?_⟩
    by_cases hps : p ∈ s
    · exact .inl hps
    · refine .inr fun t ht hnest => ?_
      have hne : t ≠ p := fun h => hps (h ▸ ht)
      rcases hnest with hnest | hnest
      · exact h (.inl ht) (.inr hp) hne hnest
      · exact h (.inr hp) (.inl ht) (Ne.symm hne) hnest
  · rintro ⟨hb, hadmits⟩ x hx y hy hne hxy
    -- a pair across the two sets nests only if the member of `b` is in `s`
    have across : ∀ {u v : List α}, u ∈ s → v ∈ b → u ≠ v → Nested u v → False := by
      intro u v hu hv huv hnest
      rcases hadmits v hv with hvs | hnone
      · rcases hnest with h | h
        · exact hs hu hvs huv h
        · exact hs hvs hu (Ne.symm huv) h
      · exact hnone u hu hnest
    rcases hx with hx | hx <;> rcases hy with hy | hy
    · exact hs hx hy hne hxy
    · exact across hx hy hne (.inl hxy)
    · exact across hy hx (Ne.symm hne) (.inr hxy)
    · exact hb hx hy hne hxy

/-- A strictly ascending list in which no element is extended by the next has
no element extended by any other. -/
theorem isAntichain_of_isChain : ∀ {l : List (List α)}, l.Pairwise (· < ·) →
    l.IsChain (fun a b => ¬a <+: b) → IsAntichain List.IsPrefix {x | x ∈ l}
  | [], _, _ => by simp [IsAntichain]
  | a :: l, hl, hchain => by
    have hrest := isAntichain_of_isChain (List.pairwise_cons.mp hl).2 hchain.tail
    have hset : {x | x ∈ a :: l} = insert a {x | x ∈ l} := by ext; simp
    rw [hset, isAntichain_insert]
    refine ⟨hrest, fun b hb hab => ⟨fun hpre => ?_, fun hpre => ?_⟩⟩
    · -- `a` would extend to the element after it, which lies between `a` and `b`
      cases l with
      | nil => cases hb
      | cons c l =>
        have hac : ¬a <+: c := List.isChain_cons_cons.mp hchain |>.1
        have hcb : c ≤ b := by
          rcases List.mem_cons.mp hb with rfl | hb
          · exact le_rfl
          · exact ((List.pairwise_cons.mp (List.pairwise_cons.mp hl).2).1 b hb).le
        have hlt : a < c := (List.pairwise_cons.mp hl).1 c List.mem_cons_self
        exact hac (isPrefix_of_le_of_le hpre hlt.le hcb)
    · -- `b` comes after `a`, so it is above `a` and cannot be extended by it
      exact not_le_of_gt ((List.pairwise_cons.mp hl).1 b hb) (isPrefix_le hpre)

/-- A strictly ascending list none of whose elements extends another has no
element extended by the next. -/
theorem isChain_of_isAntichain : ∀ {l : List (List α)}, l.Pairwise (· < ·) →
    IsAntichain List.IsPrefix {x | x ∈ l} → l.IsChain (fun a b => ¬a <+: b)
  | [], _, _ => .nil
  | [_], _, _ => .singleton _
  | a :: b :: l, hl, hs => by
    have hab : a ≠ b := ne_of_lt ((List.pairwise_cons.mp hl).1 b List.mem_cons_self)
    refine List.IsChain.cons_cons (hs (by simp) (by simp) hab) ?_
    exact isChain_of_isAntichain (List.pairwise_cons.mp hl).2
      (hs.subset (fun x hx => List.mem_cons_of_mem a hx))

end Antichain

end ListLex
