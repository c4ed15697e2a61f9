import Mathlib.Data.Option.Basic
import Mathlib.Logic.Relation

/-!
# Labelled transition systems

A system is an initial-state predicate together with a labelled step relation.
`Reachable` collects the states of every finite run, and `Invariant.reachable`
is the induction rule behind each run-wide safety statement: holding initially
and being kept by every step, a predicate holds everywhere.

`Runs` relates a state to every state that finitely many steps reach from it,
and `Runs.preserve` carries a predicate along such a run, so a statement can
start from any reachable state and not only from an initial one.

A functional step `f : σ → α → Option σ` executes a list of actions through
`runFrom`. When `f` is sound for the relation, every state that a run reaches
is reachable, so a concrete interleaving can be evaluated and then used as a
reachable state.
-/

namespace Transition

structure System (σ α : Type*) where
  init : σ → Prop
  step : σ → α → σ → Prop

namespace System

variable {σ α : Type*} (S : System σ α)

inductive Reachable : σ → Prop
  | init {s : σ} : S.init s → Reachable s
  | step {s s' : σ} {a : α} : Reachable s → S.step s a s' → Reachable s'

/-- A predicate that holds in every initial state and is kept by every step. -/
structure Invariant (P : σ → Prop) : Prop where
  init : ∀ s, S.init s → P s
  step : ∀ s a s', P s → S.step s a s' → P s'

variable {S}

theorem Invariant.reachable {P : σ → Prop} (h : S.Invariant P) {s : σ}
    (hs : S.Reachable s) : P s := by
  induction hs with
  | init hi => exact h.init _ hi
  | step _ hst ih => exact h.step _ _ _ ih hst

theorem Invariant.and {P Q : σ → Prop} (hP : S.Invariant P) (hQ : S.Invariant Q) :
    S.Invariant (fun s => P s ∧ Q s) where
  init s hs := ⟨hP.init s hs, hQ.init s hs⟩
  step s a s' h hst := ⟨hP.step s a s' h.1 hst, hQ.step s a s' h.2 hst⟩

variable (S) in
/-- `s'` is reached from `s` by finitely many steps. -/
def Runs (s s' : σ) : Prop := Relation.ReflTransGen (fun t t' => ∃ a, S.step t a t') s s'

theorem Runs.preserve {P : σ → Prop} (hP : ∀ t a t', P t → S.step t a t' → P t') {s s' : σ}
    (hrun : S.Runs s s') (hs : P s) : P s' := by
  induction hrun with
  | refl => exact hs
  | tail _ hst ih =>
      obtain ⟨a, hst⟩ := hst
      exact hP _ a _ ih hst

/-- Executes a functional step along a list of actions, failing when a step does. -/
def runFrom (f : σ → α → Option σ) : σ → List α → Option σ
  | s, [] => some s
  | s, a :: as => (f s a).bind (fun s' => runFrom f s' as)

@[simp] theorem runFrom_nil (f : σ → α → Option σ) (s : σ) : runFrom f s [] = some s := rfl

theorem runFrom_cons (f : σ → α → Option σ) (s : σ) (a : α) (as : List α) :
    runFrom f s (a :: as) = (f s a).bind (fun s' => runFrom f s' as) := rfl

/-- A run of a step function that is sound for the relation stays reachable. -/
theorem reachable_runFrom {f : σ → α → Option σ}
    (hf : ∀ s a s', f s a = some s' → S.step s a s') :
    ∀ (as : List α) {s s' : σ}, S.Reachable s → runFrom f s as = some s' → S.Reachable s'
  | [], s, s', hs, h => by
      cases h
      exact hs
  | a :: as, s, s', hs, h => by
      rw [runFrom_cons] at h
      cases hfa : f s a with
      | none => simp [hfa] at h
      | some t =>
          rw [hfa, Option.bind_some] at h
          exact reachable_runFrom hf as (hs.step (hf s a t hfa)) h

end System

/-- A predicate kept by every step of a fold in `Option` holds where the fold
ends. -/
theorem foldlM_invariant {σ β : Type*} {P : σ → Prop} {f : σ → β → Option σ}
    (hf : ∀ s b s', P s → f s b = some s' → P s') :
    ∀ (l : List β) {s s' : σ}, P s → l.foldlM f s = some s' → P s'
  | [], s, s', hs, h => by
    cases h
    exact hs
  | b :: l, s, s', hs, h => by
    rw [List.foldlM_cons] at h
    cases hb : f s b with
    | none => simp [hb] at h
    | some t =>
      rw [hb] at h
      exact foldlM_invariant hf l (hf s b t hs hb) h

end Transition
