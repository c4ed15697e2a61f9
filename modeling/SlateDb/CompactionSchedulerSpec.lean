import SlateDb.CompactionScheduler

/-!
# What the size-tiered scheduler proposes

A compaction occupies its sources and its destination run, its `footprint`.
The conflict checker of `propose` holds the footprints of the active
compactions and of the picks so far, and passes a pick only when its footprint
avoids them all; so the proposals avoid the active compactions and one
another (`proposeLoop_spec`).

A pick is either the oldest L0 views, a suffix of the L0 list, into the next
fresh id, or a window of consecutive sorted runs into the last of them. With
the runs in descending id order, the last run of a window has the lowest id,
so every pick passes the scheduler's own `validate`. With at least one source
asked for at each end, no pick is empty and the `expect` never fires.
-/

namespace SlateDb

variable {K : Type}

/-- The sources a compaction reads and the run it writes. -/
def CompactionSpec.footprint (spec : CompactionSpec) : List SourceId :=
  spec.sources ++ [.sortedRun spec.destination]

/-- Nothing of the footprint is in `used`. -/
def CompactionSpec.Avoids (spec : CompactionSpec) (used : List SourceId) : Prop :=
  ∀ x ∈ spec.footprint, x ∉ used

theorem CompactionSpec.Avoids.mono {spec : CompactionSpec} {used used' : List SourceId}
    (h : spec.Avoids used) (hsub : used' ⊆ used) : spec.Avoids used' :=
  fun x hx hx' => h x hx (hsub hx')

/-! ### The conflict checker -/

namespace ConflictChecker

@[simp] theorem sourcesUsed_addCompaction (checker : ConflictChecker) (spec : CompactionSpec) :
    (checker.addCompaction spec).sourcesUsed = checker.sourcesUsed ++ spec.footprint := by
  simp [addCompaction, CompactionSpec.footprint]

theorem sourcesUsed_foldl (specs : List CompactionSpec) :
    ∀ checker : ConflictChecker,
      (specs.foldl addCompaction checker).sourcesUsed = checker.sourcesUsed ++ specs.flatMap (·.footprint) := by
  induction specs with
  | nil => simp
  | cons spec specs ih =>
    intro checker
    rw [List.foldl_cons, ih, sourcesUsed_addCompaction, List.flatMap_cons, List.append_assoc]

@[simp] theorem sourcesUsed_new (specs : List CompactionSpec) :
    (ConflictChecker.new specs).sourcesUsed = specs.flatMap (·.footprint) := by
  rw [ConflictChecker.new, sourcesUsed_foldl, List.nil_append]

/-- The check passes exactly when the compaction it would create avoids what
is in use. -/
theorem checkCompaction_iff {checker : ConflictChecker} {sources : List CompactionSource} {dst : Nat} :
    checker.checkCompaction sources dst = true ↔
      (SizeTieredCompactionScheduler.createCompaction sources dst).Avoids checker.sourcesUsed := by
  simp only [checkCompaction, Bool.and_eq_true, List.all_eq_true, Bool.not_eq_true',
    List.contains_eq_mem, decide_eq_false_iff_not, CompactionSpec.Avoids, CompactionSpec.footprint,
    SizeTieredCompactionScheduler.createCompaction, List.mem_append, List.mem_map, List.mem_singleton]
  constructor
  · rintro ⟨hsources, hdst⟩ x (⟨source, hsource, rfl⟩ | rfl)
    · exact hsources source hsource
    · exact hdst
  · intro h
    exact ⟨fun source hsource => h _ (.inl ⟨source, hsource, rfl⟩), h _ (.inr rfl)⟩

end ConflictChecker

/-! ### Series of sorted runs -/

section Series

variable (sizeThreshold : Float32)

/-- The loop takes a leading part of the runs it is given. -/
theorem buildCompactableRunLoop_eq_take (checker : Option TreeState) :
    ∀ (l acc : List CompactionSource) (maybeMinSz : Option UInt64),
      ∃ k, buildCompactableRunLoop sizeThreshold checker l acc maybeMinSz = acc ++ l.take k
  | [], acc, _ => ⟨0, by simp [buildCompactableRunLoop]⟩
  | src :: rest, acc, maybeMinSz => by
    -- after `src` joins, the loop takes a leading part of `rest`
    have hjoin : ∀ minSz, (∃ k, buildCompactableRunLoop sizeThreshold checker rest (acc ++ [src]) minSz =
        acc ++ [src] ++ rest.take k) → ∃ k, buildCompactableRunLoop sizeThreshold checker rest (acc ++ [src]) minSz =
          acc ++ (src :: rest).take k := by
      rintro minSz ⟨k, hk⟩
      exact ⟨k + 1, by rw [hk, List.take_succ_cons, List.append_assoc, List.singleton_append]⟩
    cases hmin : nextMinSz sizeThreshold src maybeMinSz with
    | none => exact ⟨0, by simp [buildCompactableRunLoop, hmin]⟩
    | some minSz =>
      cases checker with
      | none =>
        simp only [buildCompactableRunLoop, hmin]
        exact hjoin _ (buildCompactableRunLoop_eq_take none rest _ _)
      | some checker =>
        simp only [buildCompactableRunLoop, hmin]
        split
        · exact ⟨0, by simp⟩
        · exact hjoin _ (buildCompactableRunLoop_eq_take (some checker) rest _ _)

/-- The series from run `startIdx` on is a window of consecutive runs. -/
theorem buildCompactableRun_isInfix (sources : List CompactionSource) (startIdx : Nat)
    (checker : Option TreeState) :
    (buildCompactableRun sizeThreshold sources startIdx checker).IsInfix sources := by
  obtain ⟨k, hk⟩ := buildCompactableRunLoop_eq_take sizeThreshold checker (sources.drop startIdx) [] none
  rw [buildCompactableRun, hk, List.nil_append]
  exact (List.take_prefix k _).isInfix.trans (List.drop_suffix startIdx sources).isInfix

/-- A series whose compaction into its last run passes the conflict check. -/
def ConflictFree (tree : TreeState) (run : List CompactionSource) : Prop :=
  ∀ last, run.getLast? = some last → tree.conflicts.checkCompaction run last.source.unwrapSortedRun = true

/-- With a checker, every series the loop keeps passed the check when its last
run joined. -/
theorem buildCompactableRunLoop_conflictFree (tree : TreeState) :
    ∀ (l acc : List CompactionSource) (maybeMinSz : Option UInt64), ConflictFree tree acc →
      ConflictFree tree (buildCompactableRunLoop sizeThreshold (some tree) l acc maybeMinSz)
  | [], acc, _, hacc => hacc
  | src :: rest, acc, maybeMinSz, hacc => by
    cases hmin : nextMinSz sizeThreshold src maybeMinSz with
    | none => simpa [buildCompactableRunLoop, hmin] using hacc
    | some minSz =>
      simp only [buildCompactableRunLoop, hmin]
      split
      · rwa [List.dropLast_concat]
      · rename_i hcheck
        -- the series with `src` last passed both checks
        have hjoined : ConflictFree tree (acc ++ [src]) := by
          intro last hlast
          rw [List.getLast?_concat, Option.some.injEq] at hlast
          subst hlast
          simp only [Bool.not_eq_true', Bool.not_eq_false, TreeState.checkCompaction, Bool.and_eq_true] at hcheck
          exact hcheck.1
        exact buildCompactableRunLoop_conflictFree tree rest _ _ hjoined

end Series

/-! ### The scheduler's own check -/

/-- A nonempty window of consecutive elements is found by `windows(..).any`. -/
theorem windowsAnyEq_of_isInfix {α : Type} [DecidableEq α] {xs l : List α} (hne : xs ≠ []) (h : xs.IsInfix l) :
    windowsAnyEq xs l = true := by
  obtain ⟨before, after, rfl⟩ := h
  induction before with
  | nil =>
    obtain ⟨y, ys, rfl⟩ := List.exists_cons_of_ne_nil hne
    simp [windowsAnyEq]
  | cons a before ih =>
    rw [List.cons_append, List.cons_append, windowsAnyEq, ih, Bool.or_true]

/-- On ids in descending order the least is the last. -/
theorem min?_eq_getLast?_of_pairwise {l : List Nat} (h : l.Pairwise (fun a b => b < a)) : l.min? = l.getLast? := by
  cases hlast : l.getLast? with
  | none => rw [List.getLast?_eq_none_iff.mp hlast]; rfl
  | some x =>
    obtain ⟨init, rfl⟩ := List.getLast?_eq_some_iff.mp hlast
    refine List.min?_eq_some_iff.mpr ⟨List.mem_append_right _ (List.mem_singleton_self x), fun b hb => ?_⟩
    rcases List.mem_append.mp hb with hb | hb
    · exact Nat.le_of_lt ((List.pairwise_append.mp h).2.2 b hb x (List.mem_singleton_self x))
    · exact Nat.le_of_eq (List.mem_singleton.mp hb).symm

/-! ### Picks -/

namespace SizeTieredCompactionScheduler

variable (sched : SizeTieredCompactionScheduler)

theorem clampMin_eq_some {sources sources' : List CompactionSource} (h : sched.clampMin sources = some sources') :
    sources' = sources ∧ sched.options.minCompactionSources ≤ sources.length := by
  unfold clampMin at h
  split_ifs at h with hlt
  exact ⟨(Option.some.inj h).symm, Nat.le_of_not_lt hlt⟩

/-- Clamping keeps the newest part of a series of at least one source, at most
`max_compaction_sources` of it, and its last source. -/
theorem clampMax_spec (hmax : 0 < sched.options.maxCompactionSources) {sources : List CompactionSource}
    (hne : sources ≠ []) :
    (sched.clampMax sources).IsSuffix sources ∧ sched.clampMax sources ≠ [] ∧
      (sched.clampMax sources).length ≤ sched.options.maxCompactionSources ∧
      (sched.clampMax sources).getLast? = sources.getLast? := by
  have hpos : 0 < sources.length := List.length_pos_iff.mpr hne
  have hlen : (sched.clampMax sources).length = sources.length - (sources.length - sched.options.maxCompactionSources) :=
    List.length_drop
  refine ⟨List.drop_suffix _ _, fun hnil => ?_, by omega, ?_⟩
  · rw [hnil, List.length_nil] at hlen
    omega
  · rw [clampMax, List.getLast?_drop, if_neg (by omega)]

/-- The shape of a pick on the tree's sources: the oldest L0 views into a run
numbered from `fresh` on, or a window of consecutive sorted runs into the last
of them; at least one and at most `max_compaction_sources` sources. -/
inductive PickShape (tree : TreeState) (fresh : Nat) : CompactionSpec → Prop
  | l0 {sources : List CompactionSource} {dst : Nat} : sources.IsSuffix tree.l0 → sources ≠ [] →
      sources.length ≤ sched.options.maxCompactionSources → fresh ≤ dst →
      PickShape tree fresh (createCompaction sources dst)
  | srs {sources : List CompactionSource} {last : CompactionSource} : sources.IsInfix tree.srs →
      sources.getLast? = some last → sources.length ≤ sched.options.maxCompactionSources →
      PickShape tree fresh (createCompaction sources last.source.unwrapSortedRun)

variable {sched}

theorem PickShape.mono {tree tree' : TreeState} {fresh fresh' : Nat} {spec : CompactionSpec}
    (h : sched.PickShape tree fresh' spec) (hl0 : tree'.l0 = tree.l0) (hsrs : tree'.srs = tree.srs)
    (hfresh : fresh ≤ fresh') : sched.PickShape tree' fresh spec := by
  cases h with
  | l0 hsuffix hne hlen hdst => exact .l0 (hl0 ▸ hsuffix) hne hlen (Nat.le_trans hfresh hdst)
  | srs hseg hlast hlen => exact .srs (hsrs ▸ hseg) hlast hlen

/-- A compaction of fewer sources into the same run avoids what the bigger one
avoids. -/
theorem avoids_createCompaction_of_subset {sources sources' : List CompactionSource} {dst : Nat}
    {used : List SourceId} (h : (createCompaction sources dst).Avoids used) (hsub : sources' ⊆ sources) :
    (createCompaction sources' dst).Avoids used := by
  intro x hx
  apply h x
  simp only [CompactionSpec.footprint, createCompaction, List.mem_append, List.mem_map,
    List.mem_singleton] at hx ⊢
  rcases hx with ⟨source, hsource, rfl⟩ | rfl
  · exact .inl ⟨source, hsub hsource, rfl⟩
  · exact .inr rfl

variable (sched)

/-- With at least one source asked for at each end, the loop over the sorted
runs never panics, and what it picks has the shape of a pick and avoids what is
in use. -/
theorem pickSrCompaction_spec (hmin : 0 < sched.options.minCompactionSources)
    (hmax : 0 < sched.options.maxCompactionSources) (tree : TreeState) (fresh : Nat) :
    ∀ is : List Nat, ∃ pick, sched.pickSrCompaction tree is = some pick ∧
      ∀ spec, pick = some spec → sched.PickShape tree fresh spec ∧ spec.Avoids tree.conflicts.sourcesUsed
  | [] => ⟨none, rfl, fun _ h => by cases h⟩
  | i :: is => by
    rw [pickSrCompaction]
    cases hclamp : sched.clampMin (buildCompactableRun sched.options.includeSizeThreshold tree.srs i (some tree)) with
    | none => exact pickSrCompaction_spec hmin hmax tree fresh is
    | some run =>
      obtain ⟨rfl, hlen⟩ := sched.clampMin_eq_some hclamp
      have hne : buildCompactableRun sched.options.includeSizeThreshold tree.srs i (some tree) ≠ [] :=
        List.ne_nil_of_length_pos (by omega)
      obtain ⟨hsuffix, hne', hlen', hlast⟩ := sched.clampMax_spec hmax hne
      obtain ⟨last, hlast'⟩ := Option.ne_none_iff_exists'.mp
        (mt List.getLast?_eq_none_iff.mp hne')
      simp only [hlast']
      refine ⟨_, rfl, fun spec hspec => ?_⟩
      cases hspec
      refine ⟨.srs (hsuffix.isInfix.trans (buildCompactableRun_isInfix _ _ _ _)) hlast' hlen', ?_⟩
      -- the whole series passed the check into its last run, the same as the clamped one's
      have hfree := buildCompactableRunLoop_conflictFree sched.options.includeSizeThreshold tree
        (tree.srs.drop i) [] none (fun _ h => by cases h) last (hlast ▸ hlast')
      exact avoids_createCompaction_of_subset (ConflictChecker.checkCompaction_iff.mp hfree) hsuffix.subset

/-- A pick, if any, has the shape of a pick and avoids what is in use; the next
fresh id does not go down. -/
theorem pickNextCompaction_spec (hmin : 0 < sched.options.minCompactionSources)
    (hmax : 0 < sched.options.maxCompactionSources) (tree : TreeState) {fresh : Nat} (hfresh : fresh ≤ u32Max) :
    ∃ pick fresh', sched.pickNextCompaction tree fresh = some (pick, fresh') ∧ fresh ≤ fresh' ∧ fresh' ≤ u32Max ∧
      ∀ spec, pick = some spec → sched.PickShape tree fresh spec ∧ spec.Avoids tree.conflicts.sourcesUsed := by
  obtain ⟨pick, hpick, hspec⟩ := sched.pickSrCompaction_spec hmin hmax tree fresh (List.range tree.srs.length)
  have hsrs : (sched.pickSrCompaction tree (List.range tree.srs.length)).map (·, fresh) = some (pick, fresh) := by
    rw [hpick]
    rfl
  unfold pickNextCompaction
  dsimp only
  cases hclamp : sched.clampMin tree.l0 with
  | none => exact ⟨pick, fresh, hsrs, Nat.le_refl _, hfresh, hspec⟩
  | some l0 =>
    obtain ⟨rfl, hlen⟩ := sched.clampMin_eq_some hclamp
    dsimp only
    split
    · -- the oldest views, clamped, go into the next fresh run
      rename_i hcheck
      obtain ⟨hsuffix, hne, hlen', -⟩ :=
        sched.clampMax_spec hmax (List.ne_nil_of_length_pos (show 0 < tree.l0.length by omega))
      simp only [TreeState.checkCompaction, Bool.and_eq_true] at hcheck
      refine ⟨_, _, rfl, Nat.le_min.mpr ⟨Nat.le_succ fresh, hfresh⟩, Nat.min_le_right _ _, fun spec hspec => ?_⟩
      cases hspec
      exact ⟨.l0 hsuffix hne hlen' (Nat.le_refl _), ConflictChecker.checkCompaction_iff.mp hcheck.1⟩
    · exact ⟨pick, fresh, hsrs, Nat.le_refl _, hfresh, hspec⟩

/-- The loop of `propose`: within the budget, every pick has the shape of a pick
on the tree, avoids what was in use at the start, and avoids the picks before
it. -/
theorem proposeLoop_spec (hmin : 0 < sched.options.minCompactionSources)
    (hmax : 0 < sched.options.maxCompactionSources) :
    ∀ (budget : Nat) (tree : TreeState) {fresh : Nat} (compactions : List CompactionSpec), fresh ≤ u32Max →
      ∃ specs, sched.proposeLoop budget tree fresh compactions = some (compactions ++ specs) ∧
        specs.length ≤ budget ∧
        (∀ spec ∈ specs, sched.PickShape tree fresh spec ∧ spec.Avoids tree.conflicts.sourcesUsed) ∧
        specs.Pairwise (fun a b => b.Avoids a.footprint)
  | 0, _, _, compactions, _ =>
    ⟨[], by rw [proposeLoop, List.append_nil], Nat.le_refl 0, fun _ h => absurd h List.not_mem_nil, .nil⟩
  | budget + 1, tree, fresh, compactions, hfresh => by
    obtain ⟨pick, fresh', hpick, hle, hfresh', hspec⟩ := sched.pickNextCompaction_spec hmin hmax tree hfresh
    rw [proposeLoop, hpick]
    cases pick with
    | none => exact ⟨[], by rw [List.append_nil], Nat.zero_le _, fun _ h => absurd h List.not_mem_nil, .nil⟩
    | some compaction =>
      obtain ⟨hshape, havoids⟩ := hspec compaction rfl
      obtain ⟨specs, hloop, hlen, hrest, hpairwise⟩ :=
        proposeLoop_spec hmin hmax budget { tree with conflicts := tree.conflicts.addCompaction compaction }
          (compactions ++ [compaction]) hfresh'
      -- the rest avoid what was in use and this pick, which is now in use too
      have hused : { tree with conflicts := tree.conflicts.addCompaction compaction }.conflicts.sourcesUsed =
          tree.conflicts.sourcesUsed ++ compaction.footprint := ConflictChecker.sourcesUsed_addCompaction _ _
      refine ⟨compaction :: specs, by dsimp only; rw [hloop, List.append_assoc, List.singleton_append],
        Nat.succ_le_succ hlen, ?_, ?_⟩
      · intro spec hspec'
        rcases List.mem_cons.mp hspec' with rfl | hspec'
        · exact ⟨hshape, havoids⟩
        · obtain ⟨hshape', havoids'⟩ := hrest spec hspec'
          exact ⟨hshape'.mono rfl rfl hle, havoids'.mono (hused ▸ List.subset_append_left _ _)⟩
      · refine List.pairwise_cons.mpr ⟨fun spec hspec' => ?_, hpairwise⟩
        exact (hrest spec hspec').2.mono (hused ▸ List.subset_append_right _ _)

variable {sched}

@[simp] theorem createCompaction_sources (sources : List CompactionSource) (dst : Nat) :
    (createCompaction sources dst).sources = sources.map (·.source) := rfl

@[simp] theorem createCompaction_destination (sources : List CompactionSource) (dst : Nat) :
    (createCompaction sources dst).destination = dst := rfl

/-- The two conditions of the scheduler's check: a nonempty window of the read
order, into the least sorted run among the sources if there is one. -/
theorem validate_eq_ok {t : LsmTreeState K} {spec : CompactionSpec} (hne : spec.sources ≠ [])
    (hseg : spec.sources.IsInfix (t.l0.map (SourceId.sstView ·.id) ++ t.compacted.map (SourceId.sortedRun ·.id)))
    (hdst : ∀ minSr, (spec.sources.filterMap SourceId.maybeUnwrapSortedRun).min? = some minSr →
      spec.destination = minSr) :
    SizeTieredCompactionScheduler.validate t spec = .ok () := by
  unfold SizeTieredCompactionScheduler.validate
  dsimp only
  rw [windowsAnyEq_of_isInfix hne hseg, Bool.not_true, if_neg Bool.false_ne_true]
  split
  · rename_i minSr hminSr
    rw [if_neg (not_not.mpr (hdst minSr hminSr))]
  · rfl

/-- A pick on the sources of a tree whose runs are in descending id order
passes the scheduler's own check. -/
theorem validate_of_pickShape (estimateSize : SourceId → UInt64) {t : LsmTreeState K}
    (hids : compactedInIdOrder t.compacted = true) {tree : TreeState}
    (hl0 : tree.l0 = (compactionSources estimateSize t).1) (hsrs : tree.srs = (compactionSources estimateSize t).2)
    {fresh : Nat} {spec : CompactionSpec} (h : sched.PickShape tree fresh spec) :
    SizeTieredCompactionScheduler.validate t spec = .ok () := by
  cases h with
  | l0 hsuffix hne hlen hdst =>
    rename_i sources dst
    have hviews : tree.l0.map (·.source) = t.l0.map (SourceId.sstView ·.id) := by
      simp [hl0, compactionSources]
    have hseg : (sources.map (·.source)).IsInfix (t.l0.map (SourceId.sstView ·.id)) :=
      hviews ▸ hsuffix.isInfix.map _
    -- the views carry no sorted run, so there is no least one
    obtain ⟨views, -, hsources⟩ := List.infix_map_iff.mp hseg
    refine validate_eq_ok (by simpa using hne) (hseg.trans (List.prefix_append _ _).isInfix) fun minSr hminSr => ?_
    have hnone : views.filterMap (fun _ => (none : Option Nat)) = [] := List.filterMap_eq_nil_iff.mpr fun _ _ => rfl
    simp [hsources, List.filterMap_map, Function.comp_def, SourceId.maybeUnwrapSortedRun, hnone] at hminSr
  | srs hseg hlast hlen =>
    rename_i sources last
    have hne : sources ≠ [] := fun hnil => by rw [hnil] at hlast; cases hlast
    have hruns : tree.srs.map (·.source) = t.compacted.map (SourceId.sortedRun ·.id) := by
      simp [hsrs, compactionSources]
    have hseg' : (sources.map (·.source)).IsInfix (t.compacted.map (SourceId.sortedRun ·.id)) :=
      hruns ▸ hseg.map _
    obtain ⟨runs, hwindow, hsources⟩ := List.infix_map_iff.mp hseg'
    refine validate_eq_ok (by simpa using hne) (hseg'.trans (List.suffix_append _ _).isInfix) fun minSr hminSr => ?_
    -- the window's run ids descend, so the least is the last
    have hpairwise : (runs.map (·.id)).Pairwise (fun a b => b < a) :=
      List.pairwise_map.mpr (List.Pairwise.sublist hwindow.sublist (by simpa [compactedInIdOrder] using hids))
    have hunwrap : (runs.map fun sr => SourceId.sortedRun sr.id).filterMap SourceId.maybeUnwrapSortedRun =
        runs.map (·.id) := by
      simp [List.filterMap_map, SourceId.maybeUnwrapSortedRun, Function.comp_def]
    rw [createCompaction_sources, hsources, hunwrap, min?_eq_getLast?_of_pairwise hpairwise,
      List.getLast?_map, Option.map_eq_some_iff] at hminSr
    obtain ⟨lastRun, hlastRun, rfl⟩ := hminSr
    have hlastSource : (sources.map (·.source)).getLast? = some last.source := by
      rw [List.getLast?_map, hlast, Option.map_some]
    rw [hsources, List.getLast?_map, hlastRun, Option.map_some, Option.some.injEq] at hlastSource
    simp [← hlastSource, SourceId.unwrapSortedRun, SourceId.maybeUnwrapSortedRun]

end SizeTieredCompactionScheduler

/-! ### Proposals -/

/-- The next fresh id saturates at `u32::MAX`. -/
theorem nextGlobalSrId_le (dbState : LsmTreeState K) (activeCompactions : List (Compaction K)) :
    nextGlobalSrId dbState activeCompactions ≤ u32Max := by
  unfold nextGlobalSrId
  dsimp only
  split
  · exact Nat.min_le_right _ _
  · exact Nat.zero_le _

namespace SizeTieredCompactionScheduler

variable (sched : SizeTieredCompactionScheduler)

/-- The tree `propose` plans on. -/
def proposeTree (estimateSize : SourceId → UInt64) (s : CompactorState K) : TreeState :=
  ⟨(compactionSources estimateSize s.tree).1, (compactionSources estimateSize s.tree).2,
    ConflictChecker.new (s.activeCompactions.map (·.spec)),
    BackpressureChecker.new sched.options.includeSizeThreshold sched.options.maxCompactionSources
      (compactionSources estimateSize s.tree).2⟩

theorem propose_eq (estimateSize : SourceId → UInt64) (s : CompactorState K) :
    sched.propose estimateSize s =
      sched.proposeLoop (sched.maxConcurrentCompactions - s.activeCompactions.length) (sched.proposeTree estimateSize s)
        (nextGlobalSrId s.tree s.activeCompactions) [] := rfl

/-- `propose` never panics with at least one source asked for at each end; its
proposals fit the budget, have the shape of picks on the compactor's tree, and
avoid the active compactions and one another. -/
theorem propose_picks (hmin : 0 < sched.options.minCompactionSources)
    (hmax : 0 < sched.options.maxCompactionSources) (estimateSize : SourceId → UInt64) (s : CompactorState K) :
    ∃ specs, sched.propose estimateSize s = some specs ∧
      specs.length ≤ sched.maxConcurrentCompactions - s.activeCompactions.length ∧
      (∀ spec ∈ specs, sched.PickShape (sched.proposeTree estimateSize s) (nextGlobalSrId s.tree s.activeCompactions) spec ∧
        ∀ c ∈ s.activeCompactions, spec.Avoids c.spec.footprint) ∧
      specs.Pairwise (fun a b => b.Avoids a.footprint) := by
  obtain ⟨specs, hloop, hlen, hspecs, hpairwise⟩ := sched.proposeLoop_spec hmin hmax
    (sched.maxConcurrentCompactions - s.activeCompactions.length) (sched.proposeTree estimateSize s) []
    (nextGlobalSrId_le s.tree s.activeCompactions)
  refine ⟨specs, by rw [propose_eq, hloop, List.nil_append], hlen, fun spec hspec => ?_, hpairwise⟩
  obtain ⟨hshape, havoids⟩ := hspecs spec hspec
  -- what is in use at the start is the footprints of the active compactions
  refine ⟨hshape, fun c hc => havoids.mono fun x hx => ?_⟩
  simp only [proposeTree, ConflictChecker.sourcesUsed_new, List.mem_flatMap, List.mem_map]
  exact ⟨c.spec, ⟨c, hc, rfl⟩, hx⟩

/-- What the scheduler guarantees of each of its proposals on a compactor state. -/
structure ValidProposal (s : CompactorState K) (spec : CompactionSpec) : Prop where
  /-- the scheduler's own check on the tree passes -/
  validate : SizeTieredCompactionScheduler.validate s.tree spec = .ok ()
  nonempty : spec.sources ≠ []
  bounded : spec.sources.length ≤ sched.options.maxCompactionSources
  /-- no source or destination of an active compaction is touched -/
  avoidsActive : ∀ c ∈ s.activeCompactions, spec.Avoids c.spec.footprint

variable {sched}

theorem PickShape.sources_ne_nil {tree : TreeState} {fresh : Nat} {spec : CompactionSpec}
    (h : sched.PickShape tree fresh spec) : spec.sources ≠ [] := by
  cases h with
  | l0 _ hne => simpa using hne
  | srs _ hlast =>
    rename_i sources last
    intro hnil
    rw [createCompaction_sources, List.map_eq_nil_iff] at hnil
    rw [hnil] at hlast
    cases hlast

theorem PickShape.sources_length_le {tree : TreeState} {fresh : Nat} {spec : CompactionSpec}
    (h : sched.PickShape tree fresh spec) : spec.sources.length ≤ sched.options.maxCompactionSources := by
  cases h with
  | l0 _ _ hlen => simpa using hlen
  | srs _ _ hlen => simpa using hlen

variable (sched)

theorem propose_spec (hmin : 0 < sched.options.minCompactionSources)
    (hmax : 0 < sched.options.maxCompactionSources) (estimateSize : SourceId → UInt64) (s : CompactorState K)
    (hids : compactedInIdOrder s.tree.compacted = true) :
    ∃ specs, sched.propose estimateSize s = some specs ∧
      specs.length ≤ sched.maxConcurrentCompactions - s.activeCompactions.length ∧
      (∀ spec ∈ specs, sched.ValidProposal s spec) ∧ specs.Pairwise (fun a b => b.Avoids a.footprint) := by
  obtain ⟨specs, hpropose, hlen, hspecs, hpairwise⟩ := sched.propose_picks hmin hmax estimateSize s
  refine ⟨specs, hpropose, hlen, fun spec hspec => ?_, hpairwise⟩
  obtain ⟨hshape, havoids⟩ := hspecs spec hspec
  exact ⟨validate_of_pickShape estimateSize hids rfl rfl hshape, hshape.sources_ne_nil,
    hshape.sources_length_le, havoids⟩

theorem propose_spec_default :
    0 < default.options.minCompactionSources ∧ 0 < default.options.maxCompactionSources ∧
      compactedInIdOrder ([] : List (SortedRun Nat)) = true ∧
      ∃ specs, default.propose (fun _ => 1)
          ⟨⟨none, [⟨4, [(0, 4)]⟩, ⟨3, [(0, 3)]⟩, ⟨2, [(0, 2)]⟩, ⟨1, [(0, 1)]⟩], []⟩, [], 4⟩ = some specs ∧
        specs.length ≤ default.maxConcurrentCompactions - 0 ∧
        (∀ spec ∈ specs, default.ValidProposal
          ⟨⟨none, [⟨4, [(0, 4)]⟩, ⟨3, [(0, 3)]⟩, ⟨2, [(0, 2)]⟩, ⟨1, [(0, 1)]⟩], []⟩, [], 4⟩ spec) ∧
        specs.Pairwise (fun a b => b.Avoids a.footprint) :=
  ⟨by decide, by decide, by decide,
    propose_spec default (by decide) (by decide) (fun _ => 1)
      ⟨⟨none, [⟨4, [(0, 4)]⟩, ⟨3, [(0, 3)]⟩, ⟨2, [(0, 2)]⟩, ⟨1, [(0, 1)]⟩], []⟩, [], 4⟩ (by decide)⟩

/-- Four L0 views of one size are one proposal, of all four into a new run. -/
example : default.propose (fun _ => 1)
    ⟨⟨none, [⟨4, [(0, 4)]⟩, ⟨3, [(0, 3)]⟩, ⟨2, [(0, 2)]⟩, ⟨1, [(0, 1)]⟩], []⟩, [], 4⟩ =
      some [⟨[.sstView 4, .sstView 3, .sstView 2, .sstView 1], 0⟩] := by
  decide

end SizeTieredCompactionScheduler

end SlateDb
