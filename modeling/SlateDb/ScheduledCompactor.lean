import SlateDb.CompactionSchedulerSpec
import SlateDb.CompactorSpec

/-!
# The compactor driven by the size-tiered scheduler

`overlapping_compactions_break_recency` shows two specs sharing a run, each
valid on its own, that break the tree's recency once both finish. Specs that
the compactor's own scheduler proposes do not: here every compaction comes
from `maybe_schedule_compactions`, under fresh ids, and the writer adds new L0
views, fresh and newer than the tree. On every run of that system the tree
keeps its recency and its runs their id order, and a running compaction always
finishes: the assertion of `finish_compaction` never fires.

The invariant says where each compaction's sources stand. A proposed L0
compaction reads a suffix of the L0 list; once running, it reads the same
views, into a run above every other. A running run compaction reads a window
of consecutive runs into the last of them. Active compactions share no source
or destination, so one finishing leaves the others' sources in place: two L0
compactions cannot be active at once, since both would read the oldest view,
and a window disjoint from the finished one stays a window.
-/

namespace SlateDb

variable {K : Type}

/-- The compactor's events when the size-tiered scheduler plans every
compaction. -/
inductive ScheduledEvent (K : Type) where
  /-- `maybe_schedule_compactions`, with the ids it gives the new compactions -/
  | schedule (ids : List Nat)
  | startCompaction (compactionId : Nat)
  | finishCompaction (compactionId : Nat)
  | writerMerge (newViews : List (SstView K))

/-- What the writer's new L0 views bring: fresh ids, none the watermark's, and
versions newer than the tree's. -/
structure WriterViews [DecidableEq K] (t : LsmTreeState K) (newViews : List (SstView K)) : Prop where
  recency : RecencyInvariant { t with l0 := newViews ++ t.l0 }
  nodup : ((newViews ++ t.l0).map (·.id)).Nodup
  aboveWatermark : ∀ id, t.lastCompactedL0SstViewId = some id → id ∉ newViews.map (·.id)

/-- The compactor from a tree, its compactions all proposed by `sched`. -/
def scheduledSystem [DecidableEq K] (sched : SizeTieredCompactionScheduler) (estimateSize : SourceId → UInt64)
    (tree : LsmTreeState K) : Transition.System (CompactorState K) (ScheduledEvent K) where
  init := (· = ⟨tree, [], sched.maxConcurrentCompactions⟩)
  step s e s' := match e with
    | .schedule ids => (ids.Nodup ∧ ∀ id ∈ ids, id ∉ s.compactions.map (·.id)) ∧
        s.maybeScheduleCompactions sched estimateSize ids = some s'
    | .startCompaction compactionId => s.step (.startCompaction compactionId) = some s'
    | .finishCompaction compactionId => s.step (.finishCompaction compactionId) = some s'
    | .writerMerge newViews => WriterViews s.tree newViews ∧ s.step (.writerMerge newViews) = some s'

/-! ### Where the sources stand -/

/-- A proposed compaction: the oldest L0 views, or sorted runs. -/
inductive Proposed (t : LsmTreeState K) : CompactionSpec → Prop
  | l0 {sources : List SourceId} {dst : Nat} : sources ≠ [] →
      sources.IsSuffix (t.l0.map (SourceId.sstView ·.id)) → Proposed t ⟨sources, dst⟩
  | srs {ids : List Nat} {dst : Nat} : ids ≠ [] → Proposed t ⟨ids.map .sortedRun, dst⟩

/-- A running compaction's sources stand in the tree as when it started: the
oldest L0 views, into a run above every other, or a window of runs, into the
last of them. -/
inductive Running (t : LsmTreeState K) : CompactionSpec → List (K × Nat) → Prop
  | l0 {views : List (SstView K)} {dst : Nat} : views ≠ [] → views.IsSuffix t.l0 →
      (∀ sr ∈ t.compacted, sr.id < dst) →
      Running t ⟨views.map (SourceId.sstView ·.id), dst⟩ (views.flatMap (·.versions))
  | srs {runs : List (SortedRun K)} {last : SortedRun K} : runs.IsInfix t.compacted →
      runs.getLast? = some last →
      Running t ⟨runs.map (SourceId.sortedRun ·.id), last.id⟩ (runs.flatMap (·.versions))

/-- A compaction as its status requires. -/
def Compaction.Placed (t : LsmTreeState K) (c : Compaction K) : Prop :=
  match c.status with
  | .submitted => Proposed t c.spec
  | .running => Running t c.spec c.input
  | .completed | .failed => True

/-- No two active compactions share a source or a destination. -/
def ActiveDisjoint (compactions : List (Compaction K)) : Prop :=
  ∀ a ∈ compactions, ∀ b ∈ compactions, a.status.active = true → b.status.active = true → a.id ≠ b.id →
    b.spec.Avoids a.spec.footprint

structure TreeInv [DecidableEq K] (t : LsmTreeState K) : Prop where
  recency : RecencyInvariant t
  ordered : t.compacted.Pairwise (fun a b => b.id < a.id)
  viewIds : (t.l0.map (·.id)).Nodup
  watermark : ∀ id, t.lastCompactedL0SstViewId = some id → id ∉ t.l0.map (·.id)

structure ScheduledInv [DecidableEq K] (s : CompactorState K) : Prop where
  tree : TreeInv s.tree
  ids : (s.compactions.map (·.id)).Nodup
  placed : ∀ c ∈ s.compactions, c.Placed s.tree
  disjoint : ActiveDisjoint s.compactions

theorem CompactionSpec.Avoids.symm {a b : CompactionSpec} (h : a.Avoids b.footprint) : b.Avoids a.footprint :=
  fun x hb ha => h x ha hb

theorem Proposed.sources_ne_nil {t : LsmTreeState K} {spec : CompactionSpec} (h : Proposed t spec) :
    spec.sources ≠ [] := by
  cases h with
  | l0 hne => exact hne
  | srs hne => simpa using hne

theorem Running.sources_ne_nil {t : LsmTreeState K} {spec : CompactionSpec} {input : List (K × Nat)}
    (h : Running t spec input) : spec.sources ≠ [] := by
  cases h with
  | l0 hne => simpa using hne
  | srs _ hlast =>
    intro hnil
    rw [List.map_eq_nil_iff] at hnil
    rw [hnil] at hlast
    cases hlast

/-- Two L0 compactions, each reading a suffix of the L0 list, share its oldest
view. -/
theorem not_avoids_of_suffix {t : LsmTreeState K} {a b : CompactionSpec} (ha : a.sources ≠ [])
    (hb : b.sources ≠ []) (hsa : a.sources.IsSuffix (t.l0.map (SourceId.sstView ·.id)))
    (hsb : b.sources.IsSuffix (t.l0.map (SourceId.sstView ·.id))) : ¬b.Avoids a.footprint := by
  intro havoids
  obtain ⟨x, hxa, hxb⟩ := List.exists_mem_of_isSuffix hsa hsb ha hb
  exact havoids x (List.mem_append_left _ hxb) (List.mem_append_left _ hxa)

/-! ### Updating one compaction -/

namespace CompactorState

variable (s : CompactorState K)

@[simp] theorem updateCompaction_tree (compactionId : Nat) (f : Compaction K → Compaction K) :
    (s.updateCompaction compactionId f).tree = s.tree := rfl

theorem mem_updateCompaction {compactionId : Nat} {f : Compaction K → Compaction K} {c' : Compaction K} :
    c' ∈ (s.updateCompaction compactionId f).compactions ↔
      ∃ c ∈ s.compactions, c' = if c.id = compactionId then f c else c := by
  simp only [updateCompaction, List.mem_map]
  exact ⟨fun ⟨c, hc, h⟩ => ⟨c, hc, h.symm⟩, fun ⟨c, hc, h⟩ => ⟨c, hc, h.symm⟩⟩

variable {s}

/-- An update that keeps ids and specs, and makes nothing active, keeps the
ids distinct and the active compactions disjoint. -/
theorem ids_updateCompaction {compactionId : Nat} {f : Compaction K → Compaction K}
    (hid : ∀ c, (f c).id = c.id) :
    (s.updateCompaction compactionId f).compactions.map (·.id) = s.compactions.map (·.id) := by
  simp only [updateCompaction, List.map_map]
  refine List.map_congr_left fun c _ => ?_
  by_cases h : c.id = compactionId <;> simp [h, hid]

theorem activeDisjoint_updateCompaction {compactionId : Nat} {f : Compaction K → Compaction K}
    (h : ActiveDisjoint s.compactions) (hid : ∀ c, (f c).id = c.id) (hspec : ∀ c, (f c).spec = c.spec)
    (hactive : ∀ c ∈ s.compactions, c.id = compactionId → (f c).status.active = true → c.status.active = true) :
    ActiveDisjoint (s.updateCompaction compactionId f).compactions := by
  -- an updated compaction has the id and spec it had, and was active if it is
  have hback : ∀ c' ∈ (s.updateCompaction compactionId f).compactions, c'.status.active = true →
      ∃ c ∈ s.compactions, c.status.active = true ∧ c'.id = c.id ∧ c'.spec = c.spec := by
    intro c' hc' hact
    obtain ⟨c, hc, rfl⟩ := (mem_updateCompaction s).mp hc'
    split_ifs at hact ⊢ with hcid
    · exact ⟨c, hc, hactive c hc hcid hact, hid c, hspec c⟩
    · exact ⟨c, hc, hact, rfl, rfl⟩
  intro a' ha' b' hb' hacta hactb hne
  obtain ⟨a, ha, hacta, hida, hspeca⟩ := hback a' ha' hacta
  obtain ⟨b, hb, hactb, hidb, hspecb⟩ := hback b' hb' hactb
  rw [hspeca, hspecb]
  exact h a ha b hb hacta hactb (hida ▸ hidb ▸ hne)

theorem find?_id_eq_some {compactionId : Nat} {c : Compaction K}
    (h : s.compactions.find? (·.id == compactionId) = some c) : c ∈ s.compactions ∧ c.id = compactionId :=
  ⟨List.mem_of_find?_eq_some h, by simpa using List.find?_some h⟩

theorem find?_id_of_mem (hids : (s.compactions.map (·.id)).Nodup) {c : Compaction K} (hc : c ∈ s.compactions) :
    s.compactions.find? (·.id == c.id) = some c :=
  List.find?_key_eq_some hids hc

/-! ### What each event does -/

theorem addCompaction_eq_ok {c : Compaction K} {s' : CompactorState K} (hfresh : c.id ∉ s.compactions.map (·.id))
    (h : s.addCompaction c = .ok s') : s' = { s with compactions := s.compactions ++ [c] } := by
  unfold addCompaction at h
  split_ifs at h
  cases h
  -- no compaction has the new id, so the filter keeps them all
  have hkeep : s.compactions.filter (fun x => x.id != c.id) = s.compactions := by
    refine List.filter_eq_self.mpr fun c' hc' => ?_
    have hne : c'.id ≠ c.id := fun heq => hfresh (heq ▸ List.mem_map_of_mem hc')
    simpa using hne
  rw [hkeep]

/-- A scheduled compaction with a fresh id is added or skipped. -/
theorem scheduleCompaction_eq {spec : CompactionSpec} {id : Nat} (hfresh : id ∉ s.compactions.map (·.id)) :
    s.scheduleCompaction spec id = s ∨
      s.scheduleCompaction spec id = { s with compactions := s.compactions ++ [⟨id, spec, .submitted, []⟩] } := by
  unfold scheduleCompaction
  split
  · rename_i s' h
    exact .inr (addCompaction_eq_ok hfresh h)
  · exact .inl rfl

theorem startSubmittedCompaction_eq_some {compactionId : Nat} {s' : CompactorState K}
    (h : s.startSubmittedCompaction compactionId = some s') :
    s' = s ∨ ∃ c ∈ s.compactions, c.id = compactionId ∧ c.status = .submitted ∧
      (s' = s.updateCompaction compactionId ({ · with status := .failed }) ∨
        s.validateCompaction c.spec = .ok () ∧
          s' = s.updateCompaction compactionId
            ({ · with status := .running, input := c.spec.sources.flatMap s.sourceVersions })) := by
  unfold startSubmittedCompaction at h
  split at h
  · rename_i c hfind
    obtain ⟨hc, hid⟩ := find?_id_eq_some hfind
    split_ifs at h with hstatus hfull
    · exact .inl (Option.some.inj h).symm
    · refine .inr ⟨c, hc, hid, not_not.mp hstatus, ?_⟩
      split at h
      · exact .inl (Option.some.inj h).symm
      · rename_i hvalid
        exact .inr ⟨hvalid, (Option.some.inj h).symm⟩
  · cases h

theorem step_finishCompaction_eq_some {compactionId : Nat} {s' : CompactorState K}
    (h : s.step (.finishCompaction compactionId) = some s') :
    ∃ c ∈ s.compactions, c.id = compactionId ∧ c.status = .running ∧
      s.finishCompaction compactionId ⟨c.spec.destination, c.input⟩ = some s' := by
  simp only [step] at h
  split at h
  · rename_i c hfind
    obtain ⟨hc, hid⟩ := find?_id_eq_some hfind
    split_ifs at h with hrunning
    exact ⟨c, hc, hid, by simpa using hrunning, h⟩
  · cases h

/-- An L0 compaction finishes into a run in front of every other, and its
newest view becomes the watermark. -/
theorem finishCompaction_l0 {compactionId : Nat} {c : Compaction K}
    (hfind : s.compactions.find? (·.id == compactionId) = some c) {L views : List (SstView K)} {dst : Nat}
    (hspec : c.spec = ⟨views.map (SourceId.sstView ·.id), dst⟩) (hl0 : s.tree.l0 = L ++ views) (hne : views ≠ [])
    (hdst : ∀ sr ∈ s.tree.compacted, sr.id < dst) (hnodup : (s.tree.l0.map (·.id)).Nodup)
    (hord : s.tree.compacted.Pairwise (fun a b => b.id < a.id)) (versions : List (K × Nat)) :
    s.finishCompaction compactionId ⟨dst, versions⟩ =
      some ({ s with tree := ⟨some (views.head hne).id, L, ⟨dst, versions⟩ :: s.tree.compacted⟩ }.updateCompaction
        compactionId ({ · with status := .completed })) := by
  have hviews : (views.map (SourceId.sstView ·.id)).filterMap SourceId.maybeUnwrapSstView = views.map (·.id) := by
    simp [List.filterMap_map, Function.comp_def, SourceId.maybeUnwrapSstView]
  have hsrs : (views.map (SourceId.sstView ·.id) ++ [SourceId.sortedRun dst]).filterMap
      SourceId.maybeUnwrapSortedRun = [dst] := by
    simp [List.filterMap_map, Function.comp_def, SourceId.maybeUnwrapSortedRun]
  have hL : s.tree.l0.filter (fun view => !(views.map (·.id)).contains view.id) = L := by
    rw [hl0] at hnodup ⊢
    exact List.filter_not_contains_append hnodup
  have hhead : (views.map (SourceId.sstView ·.id)).head? = some (.sstView (views.head hne).id) := by
    rw [List.head?_map, List.head?_eq_some_head hne, Option.map_some]
  have hordered : compactedInIdOrder ((⟨dst, versions⟩ : SortedRun K) :: s.tree.compacted) = true :=
    compactedInIdOrder_iff.mpr (ordered_fresh hord hdst versions)
  unfold finishCompaction
  simp only [hfind, hspec, hviews, hsrs, hL, hhead, insertOutputSr_fresh hdst, hordered, Bool.not_true,
    Bool.false_eq_true, if_false]

/-- A window of runs finishes into one run in its place. -/
theorem finishCompaction_srs {compactionId : Nat} {c : Compaction K}
    (hfind : s.compactions.find? (·.id == compactionId) = some c) {A runs C : List (SortedRun K)}
    {last : SortedRun K} (hspec : c.spec = ⟨runs.map (SourceId.sortedRun ·.id), last.id⟩)
    (hcompacted : s.tree.compacted = A ++ runs ++ C) (hlast : runs.getLast? = some last)
    (hord : s.tree.compacted.Pairwise (fun a b => b.id < a.id)) (versions : List (K × Nat)) :
    s.finishCompaction compactionId ⟨last.id, versions⟩ =
      some ({ s with tree := ⟨s.tree.lastCompactedL0SstViewId, s.tree.l0,
        A ++ [(⟨last.id, versions⟩ : SortedRun K)] ++ C⟩ }.updateCompaction
        compactionId ({ · with status := .completed })) := by
  have hruns : (runs.map (SourceId.sortedRun ·.id)).filterMap SourceId.maybeUnwrapSstView = [] := by
    simp [List.filterMap_map, Function.comp_def, SourceId.maybeUnwrapSstView]
  have hsrs : (runs.map (SourceId.sortedRun ·.id) ++ [SourceId.sortedRun last.id]).filterMap
      SourceId.maybeUnwrapSortedRun = runs.map (·.id) ++ [last.id] := by
    simp [List.filterMap_map, Function.comp_def, SourceId.maybeUnwrapSortedRun]
  rw [hcompacted] at hord
  have hordered : compactedInIdOrder (A ++ [(⟨last.id, versions⟩ : SortedRun K)] ++ C) = true :=
    compactedInIdOrder_iff.mpr (ordered_window hord hlast versions)
  unfold finishCompaction
  -- the newest source is a run, so the watermark stays
  simp only [hfind, hspec, hruns, hsrs, hcompacted, insertOutputSr_window hord hlast versions, hordered,
    Bool.not_true, Bool.false_eq_true, if_false, List.head?_map]
  simp

/-- With fresh views above the watermark, the merge puts the writer's views in
front of the compactor's. -/
theorem step_writerMerge [DecidableEq K] {newViews : List (SstView K)} (hviews : WriterViews s.tree newViews)
    (hwatermark : ∀ id, s.tree.lastCompactedL0SstViewId = some id → id ∉ s.tree.l0.map (·.id)) :
    s.step (.writerMerge newViews) = some { s with tree := { s.tree with l0 := newViews ++ s.tree.l0 } } := by
  simp only [step, LsmTreeState.mergeWriterAndCompactor, Option.some.injEq]
  split
  · rename_i id hid
    rw [List.takeWhile_eq_self_iff.mpr]
    intro view hview
    have hnot : view.id ≠ id := fun heq => by
      rcases List.mem_append.mp hview with hview | hview
      · exact hviews.aboveWatermark id hid (heq ▸ List.mem_map_of_mem hview)
      · exact hwatermark id hid (heq ▸ List.mem_map_of_mem hview)
    simpa using hnot
  · rfl

end CompactorState

/-! ### Proposals stand in the tree -/

namespace SizeTieredCompactionScheduler

variable {sched : SizeTieredCompactionScheduler}

/-- A pick on the tree `propose` builds stands in the compactor's tree: the
oldest views, or sorted runs. -/
theorem proposed_of_pickShape {estimateSize : SourceId → UInt64} {s : CompactorState K} {fresh : Nat}
    {spec : CompactionSpec} (h : sched.PickShape (sched.proposeTree estimateSize s) fresh spec) :
    Proposed s.tree spec := by
  cases h with
  | @l0 sources dst hsuffix hne _ _ =>
    have hviews : (compactionSources estimateSize s.tree).1.map (·.source) = s.tree.l0.map (SourceId.sstView ·.id) := by
      simp [compactionSources]
    refine .l0 (by simpa using hne) ?_
    rw [← hviews]
    exact hsuffix.map _
  | @srs sources last hseg hlast _ =>
    have hruns : (compactionSources estimateSize s.tree).2.map (·.source) =
        s.tree.compacted.map (SourceId.sortedRun ·.id) := by
      simp [compactionSources]
    have hseg' : (sources.map (·.source)).IsInfix (s.tree.compacted.map (SourceId.sortedRun ·.id)) := by
      rw [← hruns]
      exact hseg.map _
    obtain ⟨runs, -, hsources⟩ := List.infix_map_iff.mp hseg'
    have hne : runs ≠ [] := fun hnil => by
      rw [hnil, List.map_nil, List.map_eq_nil_iff] at hsources
      rw [hsources] at hlast
      cases hlast
    have hspec : createCompaction sources last.source.unwrapSortedRun =
        ⟨(runs.map (·.id)).map .sortedRun, last.source.unwrapSortedRun⟩ := by
      rw [createCompaction, hsources, List.map_map]
      rfl
    rw [hspec]
    exact .srs (by simpa using hne)

end SizeTieredCompactionScheduler

/-- A compaction stays placed when the tree changes in a way that keeps the
proposals and the running compactions in place. -/
theorem Compaction.Placed.of {t t' : LsmTreeState K} {c : Compaction K} (h : c.Placed t)
    (hsubmitted : c.status = .submitted → Proposed t c.spec → Proposed t' c.spec)
    (hrunning : c.status = .running → Running t c.spec c.input → Running t' c.spec c.input) :
    c.Placed t' := by
  unfold Compaction.Placed at h ⊢
  cases hs : c.status with
  | submitted => rw [hs] at h; exact hsubmitted hs h
  | running => rw [hs] at h; exact hrunning hs h
  | completed | failed => trivial

/-! ### Other compactions across a finish -/

/-- The compaction reads a suffix of the L0 views. -/
def ReadsOldestViews (t : LsmTreeState K) (spec : CompactionSpec) : Prop :=
  spec.sources ≠ [] ∧ spec.sources.IsSuffix (t.l0.map (SourceId.sstView ·.id))

section Transfer

variable {t t' : LsmTreeState K} {spec : CompactionSpec}

/-- Across an L0 finish, which puts a run in front, a compaction that does not
read the oldest views stays in place. -/
theorem Proposed.finish_l0 (h : Proposed t spec) (hviews : ¬ReadsOldestViews t spec) : Proposed t' spec := by
  cases h with
  | l0 hne hsuffix => exact absurd ⟨hne, hsuffix⟩ hviews
  | srs hne => exact .srs hne

theorem Running.finish_l0 {input : List (K × Nat)} (h : Running t spec input) (hviews : ¬ReadsOldestViews t spec)
    (hcompacted : t.compacted.IsInfix t'.compacted) : Running t' spec input := by
  cases h with
  | l0 hne hsuffix => exact absurd ⟨by simpa using hne, hsuffix.map _⟩ hviews
  | srs hseg hlast => exact .srs (hseg.trans hcompacted) hlast

/-- New views in front of the L0 list keep every suffix of it. -/
theorem Proposed.of_l0_suffix (h : Proposed t spec) (hl0 : t.l0.IsSuffix t'.l0) : Proposed t' spec := by
  cases h with
  | l0 hne hsuffix => exact .l0 hne (hsuffix.trans (hl0.map _))
  | srs hne => exact .srs hne

theorem Running.of_l0_suffix {input : List (K × Nat)} (h : Running t spec input) (hl0 : t.l0.IsSuffix t'.l0)
    (hcompacted : t'.compacted = t.compacted) : Running t' spec input := by
  cases h with
  | l0 hne hsuffix hdst => exact .l0 hne (hsuffix.trans hl0) (hcompacted ▸ hdst)
  | srs hseg hlast => exact .srs (hcompacted ▸ hseg) hlast

/-- Across a finish of the window `W` into `out`, the L0 list is kept, and a
compaction whose sources avoid the window stays in place. -/
theorem Running.finish_srs {input : List (K × Nat)} (h : Running t spec input) {A W C : List (SortedRun K)}
    {out : SortedRun K} (hl0 : t'.l0 = t.l0) (hcompacted : t.compacted = A ++ W ++ C)
    (hcompacted' : t'.compacted = A ++ [out] ++ C) (hW : W ≠ []) (hout : ∃ w ∈ W, out.id = w.id)
    (hdisj : ∀ w ∈ W, SourceId.sortedRun w.id ∉ spec.sources) : Running t' spec input := by
  cases h with
  | l0 hne hsuffix hdst =>
    refine .l0 hne (hl0 ▸ hsuffix) fun sr hsr => ?_
    -- every run after the finish is a run before, or has the id of one
    rw [hcompacted] at hdst
    rw [hcompacted', List.mem_append, List.mem_append, List.mem_singleton] at hsr
    rcases hsr with (hsr | rfl) | hsr
    · exact hdst sr (List.mem_append_left _ (List.mem_append_left _ hsr))
    · obtain ⟨w, hw, hid⟩ := hout
      exact hid ▸ hdst w (List.mem_append_left _ (List.mem_append_right _ hw))
    · exact hdst sr (List.mem_append_right _ hsr)
  | @srs runs last hseg hlast =>
    have hne : runs ≠ [] := fun hnil => by rw [hnil] at hlast; cases hlast
    rw [hcompacted] at hseg
    refine .srs ?_ hlast
    rw [hcompacted']
    exact List.infix_append_append_of_disjoint hne hW hseg (fun r hr hrW => hdisj r hrW (List.mem_map_of_mem hr)) [out]

end Transfer

/-! ### The invariant, event by event -/

section Invariant

variable [DecidableEq K]

namespace ScheduledInv

variable {s : CompactorState K}

/-- An update that keeps ids and specs, makes nothing newly active, and leaves
the updated compaction placed keeps the invariant. -/
theorem updateCompaction (hinv : ScheduledInv s) {compactionId : Nat} {f : Compaction K → Compaction K}
    (hid : ∀ c, (f c).id = c.id) (hspec : ∀ c, (f c).spec = c.spec)
    (hf : ∀ c ∈ s.compactions, c.id = compactionId →
      (f c).Placed s.tree ∧ ((f c).status.active = true → c.status.active = true)) :
    ScheduledInv (s.updateCompaction compactionId f) where
  tree := hinv.tree
  ids := by rw [CompactorState.ids_updateCompaction hid]; exact hinv.ids
  placed c' hc' := by
    obtain ⟨c, hc, rfl⟩ := (CompactorState.mem_updateCompaction s).mp hc'
    split_ifs with hcid
    · exact (hf c hc hcid).1
    · exact hinv.placed c hc
  disjoint := CompactorState.activeDisjoint_updateCompaction hinv.disjoint hid hspec
    fun c hc hcid => (hf c hc hcid).2

/-- A scheduled compaction stands in the tree, avoids the active ones and has a
fresh id: adding it keeps the invariant, and the tree. -/
theorem scheduleCompaction (hinv : ScheduledInv s) {spec : CompactionSpec} {id : Nat}
    (hproposed : Proposed s.tree spec)
    (havoids : ∀ c ∈ s.compactions, c.status.active = true → spec.Avoids c.spec.footprint)
    (hfresh : id ∉ s.compactions.map (·.id)) :
    ScheduledInv (s.scheduleCompaction spec id) ∧ (s.scheduleCompaction spec id).tree = s.tree ∧
      ∀ c ∈ (s.scheduleCompaction spec id).compactions, c ∈ s.compactions ∨ c = ⟨id, spec, .submitted, []⟩ := by
  rcases CompactorState.scheduleCompaction_eq hfresh with h | h <;> rw [h]
  · exact ⟨hinv, rfl, fun c hc => .inl hc⟩
  refine ⟨⟨hinv.tree, ?_, ?_, ?_⟩, rfl, fun c hc => ?_⟩
  · simp only [List.map_append, List.map_cons, List.map_nil, List.nodup_append]
    refine ⟨hinv.ids, List.nodup_singleton _, fun a ha b hb heq => hfresh ?_⟩
    rw [List.mem_singleton.mp hb] at heq
    exact heq ▸ ha
  · intro c hc
    rcases List.mem_append.mp hc with hc | hc
    · exact hinv.placed c hc
    · rw [List.mem_singleton.mp hc]
      exact hproposed
  · -- the new compaction avoids every active one, and they it
    intro a ha b hb hacta hactb hne
    rcases List.mem_append.mp ha with ha | ha <;> rcases List.mem_append.mp hb with hb | hb
    · exact hinv.disjoint a ha b hb hacta hactb hne
    · rw [List.mem_singleton.mp hb]
      exact havoids a ha hacta
    · rw [List.mem_singleton.mp ha]
      exact (havoids b hb hactb).symm
    · rw [List.mem_singleton.mp ha, List.mem_singleton.mp hb] at hne
      exact absurd rfl hne
  · simpa using hc

/-- The fold of `maybe_schedule_compactions` over proposals that stand in the
tree, avoid the active compactions and one another, under fresh ids. -/
theorem foldl_scheduleCompaction :
    ∀ (ps : List (CompactionSpec × Nat)) {s : CompactorState K}, ScheduledInv s →
      (∀ p ∈ ps, Proposed s.tree p.1 ∧
        (∀ c ∈ s.compactions, c.status.active = true → p.1.Avoids c.spec.footprint) ∧
        p.2 ∉ s.compactions.map (·.id)) →
      ps.Pairwise (fun p q => q.1.Avoids p.1.footprint ∧ p.2 ≠ q.2) →
      ScheduledInv (ps.foldl (fun s p => s.scheduleCompaction p.1 p.2) s)
  | [], _, hinv, _, _ => hinv
  | p :: ps, s, hinv, hps, hpairwise => by
    rw [List.pairwise_cons] at hpairwise
    obtain ⟨hproposed, havoids, hfresh⟩ := hps p List.mem_cons_self
    obtain ⟨hinv', htree, hmem⟩ := hinv.scheduleCompaction hproposed havoids hfresh
    rw [List.foldl_cons]
    refine foldl_scheduleCompaction ps hinv' (fun q hq => ?_) hpairwise.2
    obtain ⟨hproposed', havoids', hfresh'⟩ := hps q (List.mem_cons_of_mem _ hq)
    -- the compaction just added is one more to avoid, with another id
    refine ⟨htree ▸ hproposed', fun c hc hact => ?_, fun hmem' => ?_⟩
    · rcases hmem c hc with hc | rfl
      · exact havoids' c hc hact
      · exact (hpairwise.1 q hq).1
    · obtain ⟨c, hc, hcid⟩ := List.mem_map.mp hmem'
      rcases hmem c hc with hc | rfl
      · exact hfresh' (hcid ▸ List.mem_map_of_mem hc)
      · exact (hpairwise.1 q hq).2 hcid

/-- A scheduling pass keeps the invariant. -/
theorem maybeScheduleCompactions (hinv : ScheduledInv s) {sched : SizeTieredCompactionScheduler}
    (hmin : 0 < sched.options.minCompactionSources) (hmax : 0 < sched.options.maxCompactionSources)
    {estimateSize : SourceId → UInt64} {ids : List Nat} (hids : ids.Nodup)
    (hfresh : ∀ id ∈ ids, id ∉ s.compactions.map (·.id)) {s' : CompactorState K}
    (h : s.maybeScheduleCompactions sched estimateSize ids = some s') : ScheduledInv s' := by
  unfold CompactorState.maybeScheduleCompactions at h
  dsimp only at h
  split_ifs at h
  · cases h
    exact hinv
  obtain ⟨specs, hpropose, -, hspecs, hpairwise⟩ := sched.propose_picks hmin hmax estimateSize s
  rw [hpropose, Option.map_some, Option.some.injEq] at h
  subst h
  refine hinv.foldl_scheduleCompaction _ (fun p hp => ?_)
    (List.pairwise_zip (hpairwise.sublist (List.take_sublist _ _)) hids)
  obtain ⟨hspec, hid⟩ := List.of_mem_zip (show (p.1, p.2) ∈ _ from hp)
  obtain ⟨hshape, havoids⟩ := hspecs p.1 (List.mem_of_mem_take hspec)
  refine ⟨SizeTieredCompactionScheduler.proposed_of_pickShape hshape, fun c hc hact => ?_, hfresh p.2 hid⟩
  exact havoids c (by simp [CompactorState.activeCompactions, hc, hact])

/-- A proposed compaction that passes `validate_compaction` runs on sources
that stand in the tree. -/
theorem running_of_validate (hinv : ScheduledInv s) {spec : CompactionSpec} (hproposed : Proposed s.tree spec)
    (hvalid : s.validateCompaction spec = .ok ()) : Running s.tree spec (spec.sources.flatMap s.sourceVersions) := by
  obtain ⟨-, hl0only, hvalidate⟩ := s.validateCompaction_eq_ok hvalid
  cases hproposed with
  | @l0 sources dst hne hsuffix =>
    obtain ⟨views, hviews, rfl⟩ := List.suffix_map_iff.mp hsuffix
    have hne' : views ≠ [] := by simpa using hne
    -- an L0-only spec writes above every run
    have hdst : ∀ sr ∈ s.tree.compacted, sr.id < dst :=
      hl0only (by simpa [CompactionSpec.hasL0Sources, SourceId.maybeUnwrapSstView] using List.exists_mem_of_ne_nil _ hne')
        (by simp [CompactionSpec.hasSrSources, SourceId.maybeUnwrapSortedRun])
    have hinput : (views.map (SourceId.sstView ·.id)).flatMap s.sourceVersions = views.flatMap (·.versions) := by
      rw [List.flatMap_map]
      exact List.flatMap_congr fun v hv => s.sourceVersions_sstView hinv.tree.viewIds (hviews.subset hv)
    rw [hinput]
    exact .l0 hne' hviews hdst
  | @srs ids dst hne =>
    obtain ⟨hseg, hmin⟩ := validate_eq_ok hvalidate
    -- runs stand after every view in the read order
    have hseg' : (ids.map SourceId.sortedRun).IsInfix (s.tree.compacted.map (SourceId.sortedRun ·.id)) := by
      by_cases hl0 : s.tree.l0 = []
      · simpa [hl0] using hseg
      · have hseg0 : (ids.map SourceId.sortedRun).IsInfix
            ([] ++ s.tree.l0.map (SourceId.sstView ·.id) ++ s.tree.compacted.map (SourceId.sortedRun ·.id)) := by
          simpa using hseg
        rcases List.infix_or_infix_of_disjoint (by simpa using hne) (mt List.map_eq_nil_iff.mp hl0) hseg0
          (by simp) with hnil | hruns
        · exact absurd (List.eq_nil_of_infix_nil hnil) (by simpa using hne)
        · exact hruns
    obtain ⟨runs, hruns, hmap⟩ := List.infix_map_iff.mp hseg'
    have hids : ids = runs.map (·.id) := by
      refine List.map_injective_iff.mpr (fun _ _ h => SourceId.sortedRun.inj h) ?_
      rw [hmap, List.map_map]
      rfl
    subst hids
    obtain ⟨last, hlast⟩ : ∃ last, runs.getLast? = some last :=
      Option.ne_none_iff_exists'.mp (mt List.getLast?_eq_none_iff.mp (by simpa using hne))
    -- the runs' ids descend, so the least is the last
    have hdst : dst = last.id := by
      have hpairwise : (runs.map (·.id)).Pairwise (fun a b => b < a) :=
        List.pairwise_map.mpr (List.Pairwise.sublist hruns.sublist hinv.tree.ordered)
      have hunwrap : ((runs.map (·.id)).map SourceId.sortedRun).filterMap SourceId.maybeUnwrapSortedRun =
          runs.map (·.id) := by
        simp [List.filterMap_map, Function.comp_def, SourceId.maybeUnwrapSortedRun]
      apply hmin
      rw [hunwrap, min?_eq_getLast?_of_pairwise hpairwise, List.getLast?_map, hlast, Option.map_some]
    subst hdst
    have hinput : ((runs.map (·.id)).map SourceId.sortedRun).flatMap s.sourceVersions = runs.flatMap (·.versions) := by
      rw [List.map_map, List.flatMap_map]
      exact List.flatMap_congr fun r hr => s.sourceVersions_sortedRun hinv.tree.ordered (hruns.subset hr)
    rw [hinput, List.map_map]
    exact .srs hruns hlast

/-- A start keeps the invariant: a compaction that fails validation is no longer
active, and one that passes runs on sources that stand in the tree. -/
theorem startSubmittedCompaction (hinv : ScheduledInv s) {compactionId : Nat} {s' : CompactorState K}
    (h : s.startSubmittedCompaction compactionId = some s') : ScheduledInv s' := by
  rcases CompactorState.startSubmittedCompaction_eq_some h with rfl | ⟨c, hc, rfl, hsubmitted, rfl | ⟨hvalid, rfl⟩⟩
  · exact hinv
  · exact hinv.updateCompaction (fun _ => rfl) (fun _ => rfl) fun _ _ _ =>
      ⟨by simp [Compaction.Placed], fun h => by simp [CompactionStatus.active] at h⟩
  · refine hinv.updateCompaction (fun _ => rfl) (fun _ => rfl) fun c' hc' hid => ?_
    -- the compaction with this id is the submitted one
    obtain rfl : c' = c := List.inj_on_of_nodup_map hinv.ids hc' hc hid
    refine ⟨?_, fun _ => by simp [hsubmitted, CompactionStatus.active]⟩
    have hproposed : Proposed s.tree c'.spec := by simpa [Compaction.Placed, hsubmitted] using hinv.placed c' hc'
    simpa [Compaction.Placed] using hinv.running_of_validate hproposed hvalid

/-- Two active compactions cannot both read oldest L0 views. -/
theorem not_both_l0 (hinv : ScheduledInv s) {c c' : Compaction K} (hc : c ∈ s.compactions)
    (hc' : c' ∈ s.compactions) (hact : c.status.active = true) (hact' : c'.status.active = true)
    (hid : c'.id ≠ c.id) (hne : c.spec.sources ≠ []) (hne' : c'.spec.sources ≠ [])
    (hsuffix : c.spec.sources.IsSuffix (s.tree.l0.map (SourceId.sstView ·.id)))
    (hsuffix' : c'.spec.sources.IsSuffix (s.tree.l0.map (SourceId.sstView ·.id))) : False :=
  not_avoids_of_suffix hne hne' hsuffix hsuffix' (hinv.disjoint c hc c' hc' hact hact' (Ne.symm hid))

/-- Finishing a compaction into the tree `t'` keeps the invariant once `t'`
keeps the tree's and every other compaction stays placed in it. -/
theorem finish (hinv : ScheduledInv s) {c : Compaction K} {t' : LsmTreeState K} (htree : TreeInv t')
    (hothers : ∀ c' ∈ s.compactions, c'.id ≠ c.id → c'.Placed s.tree → c'.Placed t') :
    ScheduledInv ({ s with tree := t' }.updateCompaction c.id ({ · with status := .completed })) where
  tree := htree
  ids := by
    rw [CompactorState.ids_updateCompaction (f := fun c => { c with status := .completed }) (fun _ => rfl)]
    exact hinv.ids
  placed c' hc' := by
    obtain ⟨c₀, hc₀, rfl⟩ := (CompactorState.mem_updateCompaction _).mp hc'
    split_ifs with hid
    · simp [Compaction.Placed]
    · exact hothers c₀ hc₀ hid (hinv.placed c₀ hc₀)
  disjoint := CompactorState.activeDisjoint_updateCompaction hinv.disjoint (fun _ => rfl) (fun _ => rfl)
    fun _ _ _ h => by simp [CompactionStatus.active] at h

/-- An L0 compaction finishing keeps the invariant: no other active compaction
reads L0 views, so the others read runs, and a run in front leaves them in
place. -/
theorem finish_l0 (hinv : ScheduledInv s) {c : Compaction K} (hc : c ∈ s.compactions)
    (hrunning : c.status = .running) {L views : List (SstView K)} {dst : Nat}
    (hspec : c.spec = ⟨views.map (SourceId.sstView ·.id), dst⟩) (hl0 : L ++ views = s.tree.l0) (hne : views ≠ [])
    (hdst : ∀ sr ∈ s.tree.compacted, sr.id < dst) :
    ScheduledInv ({ s with tree := ⟨some (views.head hne).id, L,
      (⟨dst, views.flatMap SstView.versions⟩ : SortedRun K) :: s.tree.compacted⟩ }.updateCompaction
        c.id ({ · with status := .completed })) := by
  have hrec : RecencyInvariant ⟨s.tree.lastCompactedL0SstViewId, L ++ views, s.tree.compacted⟩ := by
    rw [hl0]
    exact hinv.tree.recency
  have hnodup := hinv.tree.viewIds
  rw [← hl0, List.map_append, List.nodup_append] at hnodup
  have hsuffix : c.spec.sources.IsSuffix (s.tree.l0.map (SourceId.sstView ·.id)) := by
    rw [hspec, ← hl0, List.map_append]
    exact List.suffix_append _ _
  have hcne : c.spec.sources ≠ [] := by simpa [hspec] using hne
  have hact : c.status.active = true := by simp [hrunning, CompactionStatus.active]
  -- an active compaction other than this one does not read the oldest views
  have hviews : ∀ c' ∈ s.compactions, c'.id ≠ c.id → c'.status.active = true → ¬ReadsOldestViews s.tree c'.spec :=
    fun c' hc' hid hact' hreads => hinv.not_both_l0 hc hc' hact hact' hid hcne hreads.1 hsuffix hreads.2
  refine hinv.finish ⟨recency_finish_l0 hrec dst, ordered_fresh hinv.tree.ordered hdst _, hnodup.1, ?_⟩
    fun c' hc' hid hplaced => hplaced.of
      (fun hs hp => hp.finish_l0 (hviews c' hc' hid (by simp [hs, CompactionStatus.active])))
      (fun hs hr => hr.finish_l0 (hviews c' hc' hid (by simp [hs, CompactionStatus.active]))
        (List.suffix_cons _ _).isInfix)
  -- the newest view finished becomes the watermark, and no view left has its id
  intro id hid hmem
  rw [Option.some.injEq] at hid
  exact hnodup.2.2 id hmem id (hid ▸ List.mem_map_of_mem (List.head_mem hne)) rfl

/-- A window of runs finishing keeps the invariant: the other active
compactions avoid its runs, so their windows stay windows. -/
theorem finish_srs (hinv : ScheduledInv s) {c : Compaction K} (hc : c ∈ s.compactions)
    (hrunning : c.status = .running) {A runs C : List (SortedRun K)} {last : SortedRun K}
    (hspec : c.spec = ⟨runs.map (SourceId.sortedRun ·.id), last.id⟩) (hcompacted : A ++ runs ++ C = s.tree.compacted)
    (hlast : runs.getLast? = some last) :
    ScheduledInv ({ s with tree := ⟨s.tree.lastCompactedL0SstViewId, s.tree.l0,
        A ++ [(⟨last.id, runs.flatMap SortedRun.versions⟩ : SortedRun K)] ++ C⟩ }.updateCompaction c.id
          ({ · with status := .completed })) := by
  have hrec : RecencyInvariant ⟨s.tree.lastCompactedL0SstViewId, s.tree.l0, A ++ runs ++ C⟩ := by
    rw [hcompacted]
    exact hinv.tree.recency
  have hord := hinv.tree.ordered
  rw [← hcompacted] at hord
  have hne : runs ≠ [] := fun hnil => by rw [hnil] at hlast; cases hlast
  have hact : c.status.active = true := by simp [hrunning, CompactionStatus.active]
  -- an active compaction other than this one reads none of its runs
  have hdisj : ∀ c' ∈ s.compactions, c'.id ≠ c.id → c'.status.active = true →
      ∀ w ∈ runs, SourceId.sortedRun w.id ∉ c'.spec.sources := by
    intro c' hc' hid hact' w hw hmem
    have havoids := hinv.disjoint c hc c' hc' hact hact' (Ne.symm hid)
    refine havoids _ (List.mem_append_left _ hmem) (List.mem_append_left _ ?_)
    rw [hspec]
    exact List.mem_map_of_mem hw
  refine hinv.finish ⟨recency_finish_srs hrec last.id, ordered_window hord hlast _, hinv.tree.viewIds,
    hinv.tree.watermark⟩ fun c' hc' hid hplaced => hplaced.of (fun _ hp => hp.of_l0_suffix (List.suffix_refl _))
      fun hs hr => hr.finish_srs rfl hcompacted.symm rfl hne ⟨last, List.mem_of_getLast? hlast, rfl⟩
        (hdisj c' hc' hid (by simp [hs, CompactionStatus.active]))

/-- A finish keeps the invariant, and the assertion of `finish_compaction`
holds on the way. -/
theorem finishCompaction (hinv : ScheduledInv s) {compactionId : Nat} {s' : CompactorState K}
    (h : s.step (.finishCompaction compactionId) = some s') : ScheduledInv s' := by
  obtain ⟨c, hc, rfl, hrunning, hfinish⟩ := CompactorState.step_finishCompaction_eq_some h
  have hfind := CompactorState.find?_id_of_mem hinv.ids hc
  have hplaced : Running s.tree c.spec c.input := by simpa [Compaction.Placed, hrunning] using hinv.placed c hc
  -- the shape of the running compaction decides the finished tree
  generalize hspec : c.spec = spec at hplaced hfinish
  generalize hinput : c.input = input at hplaced hfinish
  cases hplaced with
  | @l0 views dst hne hsuffix hdst =>
    obtain ⟨L, hL⟩ := hsuffix
    rw [CompactorState.finishCompaction_l0 hfind hspec hL.symm hne hdst hinv.tree.viewIds hinv.tree.ordered,
      Option.some.injEq] at hfinish
    subst hfinish
    exact hinv.finish_l0 hc hrunning hspec hL hne hdst
  | @srs runs last hseg hlast =>
    obtain ⟨A, C, hAC⟩ := hseg
    rw [CompactorState.finishCompaction_srs hfind hspec hAC.symm hlast hinv.tree.ordered, Option.some.injEq] at hfinish
    subst hfinish
    exact hinv.finish_srs hc hrunning hspec hAC hlast

/-- The writer's views go in front of the L0 list, which keeps every suffix of
it and every run in place. -/
theorem writerMerge (hinv : ScheduledInv s) {newViews : List (SstView K)} (hviews : WriterViews s.tree newViews)
    {s' : CompactorState K} (h : s.step (.writerMerge newViews) = some s') : ScheduledInv s' := by
  rw [CompactorState.step_writerMerge hviews hinv.tree.watermark, Option.some.injEq] at h
  subst h
  refine ⟨⟨hviews.recency, hinv.tree.ordered, hviews.nodup, fun id hid hmem => ?_⟩, hinv.ids,
    fun c hc => (hinv.placed c hc).of (fun _ hp => hp.of_l0_suffix (List.suffix_append _ _))
      (fun _ hr => hr.of_l0_suffix (List.suffix_append _ _) rfl), hinv.disjoint⟩
  rw [List.map_append, List.mem_append] at hmem
  exact hmem.elim (hviews.aboveWatermark id hid) (hinv.tree.watermark id hid)

end ScheduledInv

end Invariant

/-! ### Every run -/

namespace SizeTieredCompactionScheduler

variable [DecidableEq K] (sched : SizeTieredCompactionScheduler)

/-- With at least one source asked for at each end, the invariant holds from a
tree that keeps its own and is kept by every event. -/
theorem scheduledInv_invariant (hmin : 0 < sched.options.minCompactionSources)
    (hmax : 0 < sched.options.maxCompactionSources) (estimateSize : SourceId → UInt64) {tree : LsmTreeState K}
    (htree : TreeInv tree) : (scheduledSystem sched estimateSize tree).Invariant ScheduledInv where
  init s hs := by
    subst hs
    exact ⟨htree, List.nodup_nil, fun _ h => absurd h List.not_mem_nil, fun _ h => absurd h List.not_mem_nil⟩
  step s e s' hinv hstep := by
    cases e with
    | schedule ids => exact hinv.maybeScheduleCompactions hmin hmax hstep.1.1 hstep.1.2 hstep.2
    | startCompaction compactionId => exact hinv.startSubmittedCompaction hstep
    | finishCompaction compactionId => exact hinv.finishCompaction hstep
    | writerMerge newViews => exact hinv.writerMerge hstep.1 hstep.2

theorem scheduled_recency (hmin : 0 < sched.options.minCompactionSources)
    (hmax : 0 < sched.options.maxCompactionSources) (estimateSize : SourceId → UInt64) {tree : LsmTreeState K}
    (htree : TreeInv tree) {s : CompactorState K} (hs : (scheduledSystem sched estimateSize tree).Reachable s) :
    RecencyInvariant s.tree ∧ compactedInIdOrder s.tree.compacted = true ∧ ActiveDisjoint s.compactions := by
  have hinv := (sched.scheduledInv_invariant hmin hmax estimateSize htree).reachable hs
  exact ⟨hinv.tree.recency, compactedInIdOrder_iff.mpr hinv.tree.ordered, hinv.disjoint⟩

theorem scheduled_recency_default :
    0 < default.options.minCompactionSources ∧ 0 < default.options.maxCompactionSources ∧
      TreeInv (⟨none, [⟨4, [(0, 4)]⟩, ⟨3, [(0, 3)]⟩, ⟨2, [(0, 2)]⟩, ⟨1, [(0, 1)]⟩], []⟩ : LsmTreeState Nat) ∧
      (scheduledSystem default (fun _ => 1)
        (⟨none, [⟨4, [(0, 4)]⟩, ⟨3, [(0, 3)]⟩, ⟨2, [(0, 2)]⟩, ⟨1, [(0, 1)]⟩], []⟩ : LsmTreeState Nat)).Reachable
        (⟨⟨none, [⟨4, [(0, 4)]⟩, ⟨3, [(0, 3)]⟩, ⟨2, [(0, 2)]⟩, ⟨1, [(0, 1)]⟩], []⟩,
          [⟨0, ⟨[.sstView 4, .sstView 3, .sstView 2, .sstView 1], 0⟩, .running, [(0, 4), (0, 3), (0, 2), (0, 1)]⟩],
          4⟩ : CompactorState Nat) ∧
      RecencyInvariant (⟨none, [⟨4, [(0, 4)]⟩, ⟨3, [(0, 3)]⟩, ⟨2, [(0, 2)]⟩, ⟨1, [(0, 1)]⟩], []⟩ : LsmTreeState Nat) ∧
      compactedInIdOrder ([] : List (SortedRun Nat)) = true ∧
      ActiveDisjoint [(⟨0, ⟨[.sstView 4, .sstView 3, .sstView 2, .sstView 1], 0⟩, .running,
        [(0, 4), (0, 3), (0, 2), (0, 1)]⟩ : Compaction Nat)] := by
  have htree : TreeInv (⟨none, [⟨4, [(0, 4)]⟩, ⟨3, [(0, 3)]⟩, ⟨2, [(0, 2)]⟩, ⟨1, [(0, 1)]⟩], []⟩ : LsmTreeState Nat) :=
    ⟨by decide, by decide, by decide, by simp⟩
  refine ⟨by decide, by decide, htree, ?hs, scheduled_recency default (by decide) (by decide) (fun _ => 1) htree ?hs⟩
  -- a scheduling pass proposes the four views, and the start runs them
  exact .step (a := .startCompaction 0) (.step (a := .schedule [0]) (.init rfl) ⟨⟨by decide, by decide⟩, rfl⟩) rfl

theorem finishCompaction_succeeds (hmin : 0 < sched.options.minCompactionSources)
    (hmax : 0 < sched.options.maxCompactionSources) (estimateSize : SourceId → UInt64) {tree : LsmTreeState K}
    (htree : TreeInv tree) {s : CompactorState K} (hs : (scheduledSystem sched estimateSize tree).Reachable s)
    {c : Compaction K} (hc : c ∈ s.compactions) (hrunning : c.status = .running) :
    ∃ s', s.step (.finishCompaction c.id) = some s' ∧
      ((∃ views L, views ≠ [] ∧ c.spec.sources = views.map (SourceId.sstView ·.id) ∧
          s.tree.l0 = L ++ views ∧ s'.tree.l0 = L ∧
          s'.tree.compacted = (⟨c.spec.destination, c.input⟩ : SortedRun K) :: s.tree.compacted) ∨
        (∃ A runs C, c.spec.sources = runs.map (SourceId.sortedRun ·.id) ∧
          s.tree.compacted = A ++ runs ++ C ∧ s'.tree.l0 = s.tree.l0 ∧
          s'.tree.compacted = A ++ [(⟨c.spec.destination, c.input⟩ : SortedRun K)] ++ C)) := by
  have hinv := (sched.scheduledInv_invariant hmin hmax estimateSize htree).reachable hs
  have hfind := CompactorState.find?_id_of_mem hinv.ids hc
  have hplaced : Running s.tree c.spec c.input := by simpa [Compaction.Placed, hrunning] using hinv.placed c hc
  -- the step looks the running compaction up by its id and finishes it
  have hstep : s.step (.finishCompaction c.id) = s.finishCompaction c.id ⟨c.spec.destination, c.input⟩ := by
    simp [CompactorState.step, hfind, hrunning]
  rw [hstep]
  generalize hspec : c.spec = spec at hplaced ⊢
  generalize c.input = input at hplaced ⊢
  cases hplaced with
  | @l0 views dst hne hsuffix hdst =>
    -- the output goes in front of every sorted run, and the views leave L0
    obtain ⟨L, hL⟩ := hsuffix
    refine ⟨_, CompactorState.finishCompaction_l0 hfind hspec hL.symm hne hdst hinv.tree.viewIds
      hinv.tree.ordered _, .inl ⟨views, L, hne, rfl, hL.symm, rfl, rfl⟩⟩
  | @srs runs last hseg hlast =>
    -- the output takes the place of the window of runs
    obtain ⟨A, C, hAC⟩ := hseg
    exact ⟨_, CompactorState.finishCompaction_srs hfind hspec hAC.symm hlast hinv.tree.ordered _,
      .inr ⟨A, runs, C, rfl, hAC.symm, rfl, rfl⟩⟩

theorem finishCompaction_succeeds_default :
    0 < default.options.minCompactionSources ∧ 0 < default.options.maxCompactionSources ∧
      TreeInv (⟨none, [⟨4, [(0, 4)]⟩, ⟨3, [(0, 3)]⟩, ⟨2, [(0, 2)]⟩, ⟨1, [(0, 1)]⟩], []⟩ : LsmTreeState Nat) ∧
      (scheduledSystem default (fun _ => 1)
        (⟨none, [⟨4, [(0, 4)]⟩, ⟨3, [(0, 3)]⟩, ⟨2, [(0, 2)]⟩, ⟨1, [(0, 1)]⟩], []⟩ : LsmTreeState Nat)).Reachable
        (⟨⟨none, [⟨4, [(0, 4)]⟩, ⟨3, [(0, 3)]⟩, ⟨2, [(0, 2)]⟩, ⟨1, [(0, 1)]⟩], []⟩,
          [⟨0, ⟨[.sstView 4, .sstView 3, .sstView 2, .sstView 1], 0⟩, .running, [(0, 4), (0, 3), (0, 2), (0, 1)]⟩],
          4⟩ : CompactorState Nat) ∧
      ∃ s', (⟨⟨none, [⟨4, [(0, 4)]⟩, ⟨3, [(0, 3)]⟩, ⟨2, [(0, 2)]⟩, ⟨1, [(0, 1)]⟩], []⟩,
          [⟨0, ⟨[.sstView 4, .sstView 3, .sstView 2, .sstView 1], 0⟩, .running, [(0, 4), (0, 3), (0, 2), (0, 1)]⟩],
          4⟩ : CompactorState Nat).step (.finishCompaction 0) = some s' ∧
        ((∃ views L, views ≠ [] ∧
            [.sstView 4, .sstView 3, .sstView 2, .sstView 1] = views.map (SourceId.sstView ·.id) ∧
            [⟨4, [(0, 4)]⟩, ⟨3, [(0, 3)]⟩, ⟨2, [(0, 2)]⟩, ⟨1, [(0, 1)]⟩] = L ++ views ∧
            s'.tree.l0 = L ∧ s'.tree.compacted = [⟨0, [(0, 4), (0, 3), (0, 2), (0, 1)]⟩]) ∨
          (∃ A runs C, [.sstView 4, .sstView 3, .sstView 2, .sstView 1] = runs.map (SourceId.sortedRun ·.id) ∧
            ([] : List (SortedRun Nat)) = A ++ runs ++ C ∧
            s'.tree.l0 = [⟨4, [(0, 4)]⟩, ⟨3, [(0, 3)]⟩, ⟨2, [(0, 2)]⟩, ⟨1, [(0, 1)]⟩] ∧
            s'.tree.compacted = A ++ [⟨0, [(0, 4), (0, 3), (0, 2), (0, 1)]⟩] ++ C)) := by
  have htree : TreeInv (⟨none, [⟨4, [(0, 4)]⟩, ⟨3, [(0, 3)]⟩, ⟨2, [(0, 2)]⟩, ⟨1, [(0, 1)]⟩], []⟩ : LsmTreeState Nat) :=
    ⟨by decide, by decide, by decide, by simp⟩
  refine ⟨by decide, by decide, htree, ?hs,
    finishCompaction_succeeds default (by decide) (by decide) (fun _ => 1) htree ?hs List.mem_cons_self rfl⟩
  exact .step (a := .startCompaction 0) (.step (a := .schedule [0]) (.init rfl) ⟨⟨by decide, by decide⟩, rfl⟩) rfl

end SizeTieredCompactionScheduler

end SlateDb
