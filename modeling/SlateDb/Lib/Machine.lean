import Mathlib.Order.Basic

/-!
# Pull iterators as step machines

An iterator driven until it reports the end of its stream is a step function
on its state: a step emits an element, moves on without emitting, ends the
stream or fails. A rank that every emitting or silent step lowers makes the
drained stream a total function of the starting state, `Machine.run`.

`run` is defined by well-founded recursion on the rank, so that facts about a
whole run are proved one step at a time with `run_spec`: an invariant of the
states and a relation between a state and what is drained from it, each
checked against a single step; `run_ok_spec` is the same rule for the runs
that succeed, with no step to be shown not to fail. `runFuel` is the same drain, structural on a
fuel bound, for evaluating a machine on a concrete state; `runFuel_eq` says
that fuel above the rank gives the drain itself.
-/

namespace Machine

inductive Step (σ β ε : Type) where
  | emit (b : β) (s : σ)
  | skip (s : σ)
  | done
  | fail (e : ε)

end Machine

/-- A step function with a rank that each emitting or silent step lowers. -/
structure Machine (σ β ε : Type) where
  step : σ → Machine.Step σ β ε
  rank : σ → Nat
  rank_emit : ∀ {s b s'}, step s = .emit b s' → rank s' < rank s
  rank_skip : ∀ {s s'}, step s = .skip s' → rank s' < rank s

namespace Machine

variable {σ β ε : Type} (M : Machine σ β ε)

/-- Everything the machine emits from `s` on, or the failure that stops it. -/
def run (s : σ) : Except ε (List β) :=
  match h : M.step s with
  | .emit b s' =>
      have := M.rank_emit h
      (run s').map (b :: ·)
  | .skip s' =>
      have := M.rank_skip h
      run s'
  | .done => .ok []
  | .fail e => .error e
termination_by M.rank s

variable {M} {s s' : σ} {b : β}

theorem run_of_emit (h : M.step s = .emit b s') : M.run s = (M.run s').map (b :: ·) := by
  rw [run]
  split <;> simp_all

theorem run_of_skip (h : M.step s = .skip s') : M.run s = M.run s' := by
  rw [run]
  split <;> simp_all

theorem run_of_done (h : M.step s = .done) : M.run s = .ok [] := by
  rw [run]
  split <;> simp_all

theorem run_of_fail {e : ε} (h : M.step s = .fail e) : M.run s = .error e := by
  rw [run]
  split <;> simp_all

/-- The run rule: an invariant `I` that no step from it fails, kept by the
steps that go on, and a relation `R` that the empty output satisfies at the
end of the stream and that each step extends backwards. -/
theorem run_spec (I : σ → Prop) (R : σ → List β → Prop)
    (emit : ∀ {s b s'}, I s → M.step s = .emit b s' → I s' ∧ ∀ out, R s' out → R s (b :: out))
    (skip : ∀ {s s'}, I s → M.step s = .skip s' → I s' ∧ ∀ out, R s' out → R s out)
    (done : ∀ {s}, I s → M.step s = .done → R s [])
    (fail : ∀ {s e}, I s → M.step s ≠ .fail e) :
    ∀ s, I s → ∃ out, M.run s = .ok out ∧ R s out := by
  intro s hs
  induction hr : M.rank s using Nat.strongRecOn generalizing s with
  | ind n ih =>
    cases hstep : M.step s with
    | emit b s' =>
      obtain ⟨hs', hR⟩ := emit hs hstep
      obtain ⟨out, hrun, hout⟩ := ih _ (hr ▸ M.rank_emit hstep) s' hs' rfl
      refine ⟨b :: out, ?_, hR out hout⟩
      rw [run_of_emit hstep, hrun]
      rfl
    | skip s' =>
      obtain ⟨hs', hR⟩ := skip hs hstep
      obtain ⟨out, hrun, hout⟩ := ih _ (hr ▸ M.rank_skip hstep) s' hs' rfl
      exact ⟨out, by rw [run_of_skip hstep, hrun], hR out hout⟩
    | done => exact ⟨[], run_of_done hstep, done hs hstep⟩
    | fail e => exact absurd hstep (fail hs)

/-- The run rule for the runs that succeed: an invariant kept by the steps
that go on and a relation that each step extends backwards hold of every drain
that does not fail. -/
theorem run_ok_spec (I : σ → Prop) (R : σ → List β → Prop)
    (emit : ∀ {s b s'}, I s → M.step s = .emit b s' → I s' ∧ ∀ out, R s' out → R s (b :: out))
    (skip : ∀ {s s'}, I s → M.step s = .skip s' → I s' ∧ ∀ out, R s' out → R s out)
    (done : ∀ {s}, I s → M.step s = .done → R s []) :
    ∀ s, I s → ∀ out, M.run s = .ok out → R s out := by
  intro s hs
  induction hr : M.rank s using Nat.strongRecOn generalizing s with
  | ind n ih =>
    intro out hrun
    cases hstep : M.step s with
    | emit b s' =>
      obtain ⟨hs', hR⟩ := emit hs hstep
      rw [run_of_emit hstep] at hrun
      -- the drain from the next state succeeded with the rest of the output
      cases hrun' : M.run s' with
      | error e => simp [hrun', Except.map] at hrun
      | ok out' =>
        simp only [hrun', Except.map, Except.ok.injEq] at hrun
        subst hrun
        exact hR out' (ih _ (hr ▸ M.rank_emit hstep) s' hs' rfl out' hrun')
    | skip s' =>
      obtain ⟨hs', hR⟩ := skip hs hstep
      rw [run_of_skip hstep] at hrun
      exact hR out (ih _ (hr ▸ M.rank_skip hstep) s' hs' rfl out hrun)
    | done =>
      rw [run_of_done hstep, Except.ok.injEq] at hrun
      exact hrun ▸ done hs hstep
    | fail e => simp [run_of_fail hstep] at hrun

variable (M)

/-- The drain with at most `fuel` steps; out of fuel it ends the stream. -/
def runFuel : Nat → σ → Except ε (List β)
  | 0, _ => .ok []
  | fuel + 1, s =>
    match M.step s with
    | .emit b s' => (runFuel fuel s').map (b :: ·)
    | .skip s' => runFuel fuel s'
    | .done => .ok []
    | .fail e => .error e

/-- Fuel above the rank of the state is enough for the whole drain. -/
theorem runFuel_eq : ∀ fuel s, M.rank s < fuel → M.runFuel fuel s = M.run s
  | 0, _, h => absurd h (Nat.not_lt_zero _)
  | fuel + 1, s, h => by
    cases hstep : M.step s with
    | emit b s' =>
      have hlt : M.rank s' < fuel := by have := M.rank_emit hstep; omega
      simp only [runFuel, hstep, run_of_emit hstep, runFuel_eq fuel s' hlt]
    | skip s' =>
      have hlt : M.rank s' < fuel := by have := M.rank_skip hstep; omega
      simp only [runFuel, hstep, run_of_skip hstep, runFuel_eq fuel s' hlt]
    | done => simp only [runFuel, hstep, run_of_done hstep]
    | fail e => simp only [runFuel, hstep, run_of_fail hstep]

end Machine
