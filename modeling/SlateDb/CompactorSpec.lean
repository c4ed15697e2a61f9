import SlateDb.Compactor
import SlateDb.Lib.ListBlock

/-!
# What a finished compaction does to the tree

`finish_compaction` drops the compaction's L0 views, puts the output run in id
order among the sorted runs and drops the runs it replaced. Two shapes of
compaction come out of the size-tiered scheduler. One reads the oldest L0
views, a suffix of the L0 list, into a run above every other; its output goes
in front of the runs (`insertOutputSr_fresh`). The other reads a window of
consecutive runs into the last and lowest of them; its output takes the
window's place (`insertOutputSr_window`). In both the sources' versions, read
as one source, stand where the sources stood, so the recency of the tree is
kept (`recency_finish_l0`, `recency_finish_srs`) and the runs stay in id
order, which is what the code asserts.

A started compaction's input is the sources' versions, looked up by id
(`sourceVersions_sstView`, `sourceVersions_sortedRun`); `validateCompaction`
passes a spec only if it is a window of the read order into its lowest run,
and an L0-only spec only into a run above every other
(`validateCompaction_eq_ok`).
-/

namespace SlateDb

variable {K : Type}

theorem compactedInIdOrder_iff {compacted : List (SortedRun K)} :
    compactedInIdOrder compacted = true ↔ compacted.Pairwise (fun a b => b.id < a.id) := by
  simp [compactedInIdOrder]

/-- Run ids in descending order are distinct. -/
theorem nodup_ids_of_ordered {compacted : List (SortedRun K)}
    (h : compacted.Pairwise (fun a b => b.id < a.id)) : (compacted.map (·.id)).Nodup :=
  List.pairwise_map.mpr (h.imp Nat.ne_of_gt)

/-! ### Placing the output run -/

section InsertOutputSr

variable (outputSr : SortedRun K) (compactionSrs : List Nat)

/-- Once the output is placed, the loop only drops the replaced runs. -/
theorem insertOutputSr_true (l : List (SortedRun K)) :
    insertOutputSr outputSr compactionSrs true l = l.filter (fun sr => !compactionSrs.contains sr.id) := by
  induction l with
  | nil => rfl
  | cons sr rest ih =>
    rw [insertOutputSr, List.filter_cons]
    cases compactionSrs.contains sr.id <;> simp [ih]

/-- Runs above the output are passed over. -/
theorem insertOutputSr_append_of_lt {A : List (SortedRun K)} (hA : ∀ sr ∈ A, outputSr.id < sr.id)
    (l : List (SortedRun K)) :
    insertOutputSr outputSr compactionSrs false (A ++ l) =
      A.filter (fun sr => !compactionSrs.contains sr.id) ++ insertOutputSr outputSr compactionSrs false l := by
  induction A with
  | nil => rfl
  | cons sr A ih =>
    have hgt : decide (sr.id ≤ outputSr.id) = false := decide_eq_false (Nat.not_le_of_lt (hA sr List.mem_cons_self))
    rw [List.cons_append, insertOutputSr]
    simp only [Bool.not_false, Bool.true_and, Bool.false_or, hgt, Bool.false_eq_true, if_false, List.nil_append]
    rw [ih fun sr' h => hA sr' (List.mem_cons_of_mem _ h), List.filter_cons]
    cases compactionSrs.contains sr.id <;> simp

/-- The output goes before the first run not above it. -/
theorem insertOutputSr_cons_of_le {sr : SortedRun K} (hle : sr.id ≤ outputSr.id) (rest : List (SortedRun K)) :
    insertOutputSr outputSr compactionSrs false (sr :: rest) =
      outputSr :: (sr :: rest).filter (fun sr => !compactionSrs.contains sr.id) := by
  rw [insertOutputSr]
  simp only [Bool.not_false, Bool.true_and, Bool.false_or, decide_eq_true hle, if_true]
  rw [insertOutputSr_true, List.filter_cons]
  cases compactionSrs.contains sr.id <;> simp

end InsertOutputSr

/-- The output of an L0 compaction into a run above every other goes in
front. -/
theorem insertOutputSr_fresh {compacted : List (SortedRun K)} {dst : Nat} (hdst : ∀ sr ∈ compacted, sr.id < dst)
    (versions : List (K × Nat)) :
    insertOutputSr ⟨dst, versions⟩ [dst] false compacted = ⟨dst, versions⟩ :: compacted := by
  cases compacted with
  | nil => rfl
  | cons sr rest =>
    rw [insertOutputSr_cons_of_le _ _ (Nat.le_of_lt (hdst sr List.mem_cons_self)), List.filter_eq_self.mpr]
    intro sr' hsr'
    simpa using Nat.ne_of_lt (hdst sr' hsr')

/-- The output of a window of runs into its last takes the window's place. -/
theorem insertOutputSr_window {A W C : List (SortedRun K)} {last : SortedRun K}
    (hord : (A ++ W ++ C).Pairwise (fun a b => b.id < a.id)) (hlast : W.getLast? = some last)
    (versions : List (K × Nat)) :
    insertOutputSr ⟨last.id, versions⟩ (W.map (·.id) ++ [last.id]) false (A ++ W ++ C) =
      A ++ [⟨last.id, versions⟩] ++ C := by
  obtain ⟨W₀, rfl⟩ := List.getLast?_eq_some_iff.mp hlast
  simp only [List.pairwise_append, List.mem_append, List.mem_singleton] at hord
  obtain ⟨⟨hA, ⟨hW₀, -, hW₀last⟩, hAW⟩, -, hAWC⟩ := hord
  -- the runs before the window's last are above it, and those after below
  have habove : ∀ sr ∈ A ++ W₀, last.id < sr.id := by
    intro sr hsr
    rcases List.mem_append.mp hsr with hsr | hsr
    · exact hAW sr hsr last (.inr rfl)
    · exact hW₀last sr hsr last rfl
  have hbelow : ∀ sr ∈ C, sr.id < last.id := fun sr hsr => hAWC last (.inr (.inr rfl)) sr hsr
  rw [show A ++ (W₀ ++ [last]) ++ C = (A ++ W₀) ++ last :: C by simp,
    insertOutputSr_append_of_lt ⟨last.id, versions⟩ _ habove,
    insertOutputSr_cons_of_le ⟨last.id, versions⟩ _ (Nat.le_refl last.id)]
  have hkeepA : A.filter (fun sr => !(W₀.map (·.id) ++ [last.id] ++ [last.id]).contains sr.id) = A := by
    refine List.filter_eq_self.mpr fun sr hsr => ?_
    -- a run above the window has another id than every run of it
    have hne : ∀ w ∈ W₀, w.id ≠ sr.id := fun w hw => Nat.ne_of_lt (hAW sr hsr w (.inl hw))
    simpa [List.contains_eq_mem] using
      ⟨fun w hw heq => hne w hw heq, Nat.ne_of_gt (habove sr (List.mem_append_left _ hsr))⟩
  have hdropW₀ : W₀.filter (fun sr => !(W₀.map (·.id) ++ [last.id] ++ [last.id]).contains sr.id) = [] :=
    List.filter_eq_nil_iff.mpr fun sr hsr => by
      simp only [List.contains_eq_mem, List.mem_append, List.mem_map, List.mem_singleton]
      simpa using fun h => absurd rfl (h sr hsr)
  have hkeepC : C.filter (fun sr => !(W₀.map (·.id) ++ [last.id] ++ [last.id]).contains sr.id) = C := by
    refine List.filter_eq_self.mpr fun sr hsr => ?_
    have hne : ∀ w ∈ W₀, w.id ≠ sr.id := fun w hw => Nat.ne_of_gt (hAWC w (.inr (.inl hw)) sr hsr)
    simpa [List.contains_eq_mem] using ⟨fun w hw heq => hne w hw heq, Nat.ne_of_lt (hbelow sr hsr)⟩
  rw [List.map_append, List.map_singleton, List.filter_append, hkeepA, hdropW₀, List.filter_cons,
    if_neg (by simp), hkeepC]
  simp

/-! ### Id order after a finish -/

theorem ordered_fresh {compacted : List (SortedRun K)} {dst : Nat}
    (hord : compacted.Pairwise (fun a b => b.id < a.id)) (hdst : ∀ sr ∈ compacted, sr.id < dst)
    (versions : List (K × Nat)) :
    ((⟨dst, versions⟩ : SortedRun K) :: compacted).Pairwise (fun a b => b.id < a.id) :=
  List.pairwise_cons.mpr ⟨hdst, hord⟩

theorem ordered_window {A W C : List (SortedRun K)} {last : SortedRun K}
    (hord : (A ++ W ++ C).Pairwise (fun a b => b.id < a.id)) (hlast : W.getLast? = some last)
    (versions : List (K × Nat)) :
    (A ++ [(⟨last.id, versions⟩ : SortedRun K)] ++ C).Pairwise (fun a b => b.id < a.id) := by
  have hmem : last ∈ W := List.mem_of_getLast? hlast
  simp only [List.pairwise_append, List.mem_append, List.mem_singleton] at hord ⊢
  obtain ⟨⟨hA, -, hAW⟩, hC, hAWC⟩ := hord
  refine ⟨⟨hA, List.pairwise_singleton _ _, fun a ha b hb => hb ▸ hAW a ha last hmem⟩, hC, ?_⟩
  rintro a (ha | rfl) c hc
  · exact hAWC a (.inl ha) c hc
  · exact hAWC last (.inr hmem) c hc

/-! ### Recency after a finish -/

section Recency

variable [DecidableEq K]

/-- The oldest L0 views, merged into a run in front of every other, keep the
tree's recency. -/
theorem recency_finish_l0 {watermark watermark' : Option Nat} {L S : List (SstView K)}
    {compacted : List (SortedRun K)} (h : RecencyInvariant ⟨watermark, L ++ S, compacted⟩) (dst : Nat) :
    RecencyInvariant ⟨watermark', L, ⟨dst, S.flatMap (·.versions)⟩ :: compacted⟩ := by
  have h' : (L.map (·.versions) ++ S.map (·.versions) ++ compacted.map (·.versions)).Pairwise
      (fun a b => ∀ v ∈ a, ∀ w ∈ b, v.1 = w.1 → w.2 < v.2) := by
    rw [← List.map_append]
    exact h
  have hblock := List.pairwise_flatten_block h'
  rw [← List.flatMap_def] at hblock
  simpa only [RecencyInvariant, LsmTreeState.sources, List.map_cons, List.append_assoc, List.singleton_append]
    using hblock

/-- A window of runs, merged into one run in its place, keeps the tree's
recency. -/
theorem recency_finish_srs {watermark : Option Nat} {l0 : List (SstView K)} {A W C : List (SortedRun K)}
    (h : RecencyInvariant ⟨watermark, l0, A ++ W ++ C⟩) (dst : Nat) :
    RecencyInvariant ⟨watermark, l0, A ++ [⟨dst, W.flatMap (·.versions)⟩] ++ C⟩ := by
  have h' : (l0.map (·.versions) ++ A.map (·.versions) ++ W.map (·.versions) ++ C.map (·.versions)).Pairwise
      (fun a b => ∀ v ∈ a, ∀ w ∈ b, v.1 = w.1 → w.2 < v.2) := by
    simpa only [RecencyInvariant, LsmTreeState.sources, List.map_append, List.append_assoc] using h
  have hblock := List.pairwise_flatten_block h'
  rw [← List.flatMap_def] at hblock
  simpa only [RecencyInvariant, LsmTreeState.sources, List.map_append, List.map_singleton, List.append_assoc]
    using hblock

end Recency

/-! ### Looking sources up -/

namespace CompactorState

variable (s : CompactorState K)

theorem sourceVersions_sstView (hnodup : (s.tree.l0.map (·.id)).Nodup) {view : SstView K}
    (hview : view ∈ s.tree.l0) : s.sourceVersions (.sstView view.id) = view.versions := by
  rw [sourceVersions, List.find?_key_eq_some hnodup hview, Option.map_some, Option.getD_some]

theorem sourceVersions_sortedRun (hord : s.tree.compacted.Pairwise (fun a b => b.id < a.id))
    {sr : SortedRun K} (hsr : sr ∈ s.tree.compacted) : s.sourceVersions (.sortedRun sr.id) = sr.versions := by
  rw [sourceVersions, List.find?_key_eq_some (nodup_ids_of_ordered hord) hsr, Option.map_some,
    Option.getD_some]

/-- What `validateCompaction` passes: a nonempty window of the read order into
its lowest run, where an L0-only spec writes above every run. -/
theorem validateCompaction_eq_ok {spec : CompactionSpec} (h : s.validateCompaction spec = .ok ()) :
    spec.sources ≠ [] ∧
      (spec.hasL0Sources = true → spec.hasSrSources = false → ∀ sr ∈ s.tree.compacted, sr.id < spec.destination) ∧
      SizeTieredCompactionScheduler.validate s.tree spec = .ok () := by
  unfold validateCompaction at h
  dsimp only at h
  split_ifs at h with hempty hmissing hl0 hoverwrite hrunning
  refine ⟨fun hnil => by simp [hnil] at hempty, fun hhasL0 hhasSr sr hsr => ?_, h⟩
  -- the L0-only check: the destination is at least one above every run
  have hle : sr.id ≤ ((s.tree.compacted.map (·.id)).max?).getD 0 :=
    List.le_max?_getD_of_mem (List.mem_map_of_mem hsr)
  simp only [hhasL0, hhasSr, Bool.not_false, Bool.true_and, decide_eq_true_eq, Nat.not_lt] at hl0
  cases hmax : (s.tree.compacted.map (·.id)).max? with
  | none => simp [hmax] at hle; exact absurd hsr (by simp_all)
  | some m => simp [hmax] at hle hl0; omega

end CompactorState

/-- `windows(..).any` finds only windows of consecutive elements. -/
theorem isInfix_of_windowsAnyEq {α : Type} [DecidableEq α] {xs : List α} :
    ∀ {l : List α}, windowsAnyEq xs l = true → xs.IsInfix l
  | [], h => by simp [windowsAnyEq] at h
  | y :: ys, h => by
    rw [windowsAnyEq, Bool.or_eq_true, beq_iff_eq] at h
    rcases h with h | h
    · exact h ▸ (List.take_prefix _ _).isInfix
    · exact (isInfix_of_windowsAnyEq h).trans (List.suffix_cons y ys).isInfix

/-- What the scheduler's own check passes. -/
theorem validate_eq_ok {t : LsmTreeState K} {spec : CompactionSpec}
    (h : SizeTieredCompactionScheduler.validate t spec = .ok ()) :
    spec.sources.IsInfix (t.l0.map (SourceId.sstView ·.id) ++ t.compacted.map (SourceId.sortedRun ·.id)) ∧
      ∀ minSr, (spec.sources.filterMap SourceId.maybeUnwrapSortedRun).min? = some minSr →
        spec.destination = minSr := by
  unfold SizeTieredCompactionScheduler.validate at h
  dsimp only at h
  split_ifs at h with hwin
  refine ⟨isInfix_of_windowsAnyEq (by simpa using hwin), fun minSr hminSr => ?_⟩
  rw [hminSr] at h
  dsimp only at h
  split_ifs at h with hdst
  exact not_not.mp hdst

end SlateDb
