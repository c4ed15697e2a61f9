import SlateDb.Segments
import SlateDb.DbSpec

/-!
# The segment prefixes stay an antichain

Every check of `validate_segment_antichain` looks at neighbours only: the
batch's own prefixes pair by pair in order, and each prefix against the
greatest member at most it and the least member above it in a source. On a
source that is an antichain, a nesting always shows at a neighbour
(`ListLex.nested_neighbour`), so each check passes exactly when the source
admits the prefix. Chained over the sources, validation passes exactly when
the writer's prefixes together with the batch's stay an antichain
(`validateSegmentAntichain_eq_ok_iff`).

Over every run, the prefixes the writer knows stay an antichain and the
manifest's segments stay sorted (`Inv`), and each memtable's rows extend its
touched segments. On such a memtable the walk of a flush never runs out of
prefixes and builds, for each touched segment that keeps an entry, one SST of
exactly the entries whose keys extend its prefix (`buildImmSsts_eq`).
-/

namespace SlateDb

open ListLex SortedSearch

variable {V : Type}

theorem except_bind_eq_ok {ε α β : Type} {x : Except ε α} {f : α → Except ε β} {b : β} :
    (x >>= f) = .ok b ↔ ∃ a, x = .ok a ∧ f a = .ok b := by
  cases x <;> simp [bind, Except.bind]

/-! ### The batch's own prefixes -/

theorem checkBatchAntichainFrom_some_eq_ok : ∀ (p : Bytes) (l : List Bytes),
    checkBatchAntichainFrom (some p) l = .ok () ↔ (p :: l).IsChain (fun a b : Bytes => ¬a <+: b)
  | p, [] => by simp [checkBatchAntichainFrom]
  | p, cur :: rest => by
    rw [List.isChain_cons_cons, ← checkBatchAntichainFrom_some_eq_ok cur rest]
    by_cases h : p <+: cur <;> simp [checkBatchAntichainFrom, h]

theorem checkBatchAntichain_eq_ok_iff (prefixes : Finset Bytes) :
    checkBatchAntichain prefixes = .ok () ↔ IsAntichain (· <+: ·) (prefixes : Set Bytes) := by
  have hset : (prefixes : Set Bytes) = {x | x ∈ ascending prefixes} := by
    ext
    simp
  have hchain : checkBatchAntichainFrom none (ascending prefixes) = .ok () ↔
      (ascending prefixes).IsChain (fun a b : Bytes => ¬a <+: b) := by
    cases ascending prefixes with
    | nil => simp [checkBatchAntichainFrom, List.IsChain.nil]
    | cons cur rest => rw [checkBatchAntichainFrom, checkBatchAntichainFrom_some_eq_ok]
  rw [checkBatchAntichain, hchain, hset]
  exact ⟨isAntichain_of_isChain (pairwise_ascending prefixes),
    isChain_of_isAntichain (pairwise_ascending prefixes)⟩

/-! ### One memtable's touched segments -/

theorem checkBelow_eq_ok {p : Bytes} {pred : Option Bytes} :
    checkBelow p pred = .ok () ↔ ∀ q ∈ pred, ¬q <+: p := by
  cases pred with
  | none => simp [checkBelow]
  | some q => by_cases h : q <+: p <;> simp [checkBelow, h]

theorem checkAbove_eq_ok {p : Bytes} {succ : Option Bytes} :
    checkAbove p succ = .ok () ↔ ∀ q ∈ succ, ¬p <+: q := by
  cases succ with
  | none => simp [checkAbove]
  | some q => by_cases h : p <+: q <;> simp [checkAbove, h]

variable {T : Finset Bytes} {p : Bytes}

theorem ensureValidSegment_of_mem (hp : p ∈ T) : ensureValidSegment T p = .ok true := by
  have hne : T ≠ ∅ := Finset.ne_empty_of_mem hp
  simp [ensureValidSegment, hne, lastAtMost_of_mem hp]

/-- Past the two shortcuts, `ensure_valid_segment` passes exactly when neither
neighbour nests with `p`, and then answers `false`. -/
theorem ensureValidSegment_of_not_mem (hT : T ≠ ∅) (hp : p ∉ T) {b : Bool} :
    ensureValidSegment T p = .ok b ↔ b = false ∧
      (∀ q ∈ lastAtMost T p, ¬q <+: p) ∧ ∀ q ∈ firstAbove T p, ¬p <+: q := by
  have hlast : lastAtMost T p ≠ some p := fun h => hp (mem_of_lastAtMost h).1
  simp only [ensureValidSegment, hT, hlast, if_false, except_bind_eq_ok]
  constructor
  · rintro ⟨⟨⟩, hbelow, ⟨⟩, habove, hb⟩
    exact ⟨(Except.ok.inj hb).symm, checkBelow_eq_ok.mp hbelow, checkAbove_eq_ok.mp habove⟩
  · rintro ⟨rfl, hbelow, habove⟩
    exact ⟨(), checkBelow_eq_ok.mpr hbelow, (), checkAbove_eq_ok.mpr habove, rfl⟩

/-- On a touched set that is an antichain, `ensure_valid_segment` passes
exactly when the set admits `p`, and answers whether the set holds it. -/
theorem ensureValidSegment_eq_ok_iff (hT : IsAntichain (· <+: ·) (T : Set Bytes)) {b : Bool} :
    ensureValidSegment T p = .ok b ↔ Admits (T : Set Bytes) p ∧ (b = true ↔ p ∈ T) := by
  by_cases hp : p ∈ T
  · rw [ensureValidSegment_of_mem hp]
    simp only [Except.ok.injEq, hp, iff_true]
    exact ⟨fun h => ⟨.inl hp, h.symm⟩, fun h => h.2.symm⟩
  by_cases hempty : T = ∅
  · subst hempty
    simp only [ensureValidSegment, if_true, Except.ok.injEq, Finset.notMem_empty, iff_false]
    exact ⟨fun h => ⟨.inr fun t ht => absurd ht (Finset.notMem_empty t), by simp [← h]⟩,
      fun h => by simpa using h.2⟩
  rw [ensureValidSegment_of_not_mem hempty hp]
  constructor
  · rintro ⟨rfl, hbelow, habove⟩
    refine ⟨.inr fun t ht hnest => ?_, by simp [hp]⟩
    have hne : t ≠ p := fun h => hp (h ▸ ht)
    -- a nesting would show at one of the two neighbours, which both pass
    rcases nested_neighbour hT ht hne hnest (fun q hq => mem_of_lastAtMost hq)
        (fun r hr hrp => le_lastAtMost hr hrp) (fun q hq => mem_of_firstAbove hq)
        (fun r hr hpr => firstAbove_le hr hpr) with ⟨q, hq, hqp⟩ | ⟨q, hq, hpq⟩
    · exact hbelow q hq hqp
    · exact habove q hq hpq
  · rintro ⟨hadmits, hb⟩
    have hnone : ∀ t ∈ T, ¬Nested t p := hadmits.resolve_left hp
    refine ⟨by simpa [hp] using hb, fun q hq hqp => ?_, fun q hq hpq => ?_⟩
    · exact hnone q (mem_of_lastAtMost hq).1 (.inl hqp)
    · exact hnone q (mem_of_firstAbove hq).1 (.inr hpq)

/-- The removals that end `check_segment_prefix_antichain`. -/
theorem mem_foldl_erase {q : Bytes} : ∀ {R : Finset Bytes} {l : List Bytes},
    q ∈ l.foldl Finset.erase R ↔ q ∈ R ∧ q ∉ l
  | R, [] => by simp
  | R, c :: l => by
    rw [List.foldl_cons, mem_foldl_erase, Finset.mem_erase, List.mem_cons]
    tauto

/-- The loop of the write path's check over the candidates `l`: every candidate
must be admitted, and those the table holds are collected for removal. -/
theorem foldlM_ensureValidSegment (hT : IsAntichain (· <+: ·) (T : Set Bytes)) :
    ∀ (l : List Bytes) (acc out : List Bytes),
      l.foldlM (fun toRemove c => do
          let hit ← ensureValidSegment T c
          pure (if hit then toRemove ++ [c] else toRemove)) acc = .ok out ↔
        (∀ c ∈ l, Admits (T : Set Bytes) c) ∧ out = acc ++ l.filter (· ∈ T)
  | [], acc, out => by simp [pure, Except.pure, eq_comm]
  | c :: l, acc, out => by
    rw [List.foldlM_cons, except_bind_eq_ok]
    constructor
    · rintro ⟨acc', hstep, hrest⟩
      obtain ⟨hit, hvalid, hacc'⟩ := except_bind_eq_ok.mp hstep
      obtain ⟨hadmits, hhit⟩ := (ensureValidSegment_eq_ok_iff hT).mp hvalid
      obtain ⟨hl, rfl⟩ := (foldlM_ensureValidSegment hT l acc' out).mp hrest
      cases Except.ok.inj hacc'
      refine ⟨fun d hd => ?_, ?_⟩
      · rcases List.mem_cons.mp hd with rfl | hd
        · exact hadmits
        · exact hl d hd
      · by_cases hc : c ∈ T
        · simp [hc, hhit.mpr hc]
        · simp [hc, Bool.eq_false_iff.mpr (hhit.not.mpr hc)]
    · rintro ⟨hl, rfl⟩
      have hc := hl c List.mem_cons_self
      refine ⟨if c ∈ T then acc ++ [c] else acc, ?_, ?_⟩
      · refine except_bind_eq_ok.mpr ⟨decide (c ∈ T), (ensureValidSegment_eq_ok_iff hT).mpr
          ⟨hc, by simp⟩, ?_⟩
        by_cases hcT : c ∈ T <;> simp [hcT, pure, Except.pure]
      · refine (foldlM_ensureValidSegment hT l _ _).mpr ⟨fun d hd => hl d (List.mem_cons_of_mem c hd), ?_⟩
        by_cases hcT : c ∈ T <;> simp [hcT]

/-- On a touched set that is an antichain, the write path's check passes
exactly when the set admits every remaining prefix, and leaves those the set
does not hold. -/
theorem checkSegmentPrefixAntichain_eq_ok_iff (hT : IsAntichain (· <+: ·) (T : Set Bytes))
    {R R' : Finset Bytes} :
    checkSegmentPrefixAntichain R T = .ok R' ↔
      (∀ c ∈ R, Admits (T : Set Bytes) c) ∧ R' = R.filter (· ∉ T) := by
  simp only [checkSegmentPrefixAntichain, except_bind_eq_ok, foldlM_ensureValidSegment hT,
    List.nil_append, mem_ascending]
  constructor
  · rintro ⟨toRemove, ⟨hadmits, rfl⟩, hR'⟩
    refine ⟨hadmits, ?_⟩
    rw [← Except.ok.inj hR']
    ext q
    simp only [mem_foldl_erase, List.mem_filter, mem_ascending, decide_eq_true_eq,
      Finset.mem_filter]
    tauto
  · rintro ⟨hadmits, rfl⟩
    refine ⟨_, ⟨hadmits, rfl⟩, ?_⟩
    congr 1
    ext q
    simp only [mem_foldl_erase, List.mem_filter, mem_ascending, decide_eq_true_eq,
      Finset.mem_filter]
    tauto

/-! ### The manifest's segments -/

/-- The prefixes of the manifest's segments. -/
def segmentPrefixes (segments : List (Segment V)) : Set Bytes := {p | ∃ s ∈ segments, s.prefixBytes = p}

/-- The manifest's segments strictly ascend by prefix. -/
def SegmentsSorted (segments : List (Segment V)) : Prop :=
  segments.Pairwise fun a b => a.prefixBytes < b.prefixBytes

theorem segmentPrefixes_eq (segments : List (Segment V)) :
    segmentPrefixes segments = {p | p ∈ segments.map (·.prefixBytes)} := by
  ext
  simp [segmentPrefixes]

theorem segmentsSorted_iff (segments : List (Segment V)) :
    SegmentsSorted segments ↔ (segments.map (·.prefixBytes)).Pairwise (· < ·) := by
  rw [SegmentsSorted, List.pairwise_map]

variable {segments : List (Segment V)} {c : Bytes}

/-- On sorted segments whose prefixes are an antichain, the manifest's check
passes exactly when the segments admit the candidate. -/
theorem ManifestCore.checkSegmentPrefixAntichain_eq_ok_iff (hsorted : SegmentsSorted segments)
    (hanti : IsAntichain (· <+: ·) (segmentPrefixes segments)) :
    ManifestCore.checkSegmentPrefixAntichain segments c = .ok () ↔
      Admits (segmentPrefixes segments) c := by
  unfold ManifestCore.checkSegmentPrefixAntichain
  split
  · -- the candidate is a segment
    rename_i idx hfound
    obtain ⟨hidx, hkey⟩ := binarySearchBy_eq_ok Segment.prefixBytes c hfound
    exact ⟨fun _ => .inl ⟨_, List.getElem_mem hidx, hkey⟩, fun _ => rfl⟩
  rename_i idx hmiss
  have hnot : c ∉ segmentPrefixes segments := fun ⟨s, hs, hsc⟩ =>
    ne_of_binarySearchBy_eq_error Segment.prefixBytes c hsorted hmiss s hs hsc
  -- the segments next to the insertion point are the candidate's neighbours
  obtain ⟨hnext, hnext_min⟩ := binarySearchBy_eq_error_next Segment.prefixBytes c hsorted hmiss
  obtain ⟨hprev, hprev_max⟩ := binarySearchBy_eq_error_prev Segment.prefixBytes c hsorted hmiss
  have hpred : (if 0 < idx then segments[idx - 1]?.map (·.prefixBytes) else none) =
      (if 0 < idx then segments[idx - 1]? else none).map (·.prefixBytes) := by
    split <;> rfl
  have hsucc : ∀ q ∈ segments[idx]?.map (·.prefixBytes), q ∈ segmentPrefixes segments ∧ c < q := by
    intro q hq
    obtain ⟨b, hb, rfl⟩ := Option.mem_map.mp hq
    exact ⟨⟨b, List.mem_of_getElem? hb, rfl⟩, hnext b hb⟩
  have hsucc_min : ∀ r ∈ segmentPrefixes segments, c < r →
      ∃ q ∈ segments[idx]?.map (·.prefixBytes), q ≤ r := by
    rintro r ⟨s, hs, rfl⟩ hcr
    obtain ⟨b, hb, hle⟩ := hnext_min s hs hcr
    exact ⟨b.prefixBytes, Option.mem_map_of_mem _ hb, hle⟩
  have hpred_mem : ∀ q ∈ (if 0 < idx then segments[idx - 1]? else none).map (·.prefixBytes),
      q ∈ segmentPrefixes segments ∧ q ≤ c := by
    intro q hq
    obtain ⟨b, hb, rfl⟩ := Option.mem_map.mp hq
    have hbs : b ∈ segments := by
      split at hb
      · exact List.mem_of_getElem? hb
      · cases hb
    exact ⟨⟨b, hbs, rfl⟩, (hprev b hb).le⟩
  have hpred_max : ∀ r ∈ segmentPrefixes segments, r ≤ c →
      ∃ q ∈ (if 0 < idx then segments[idx - 1]? else none).map (·.prefixBytes), r ≤ q := by
    rintro r ⟨s, hs, rfl⟩ hrc
    have hlt : s.prefixBytes < c := lt_of_le_of_ne hrc fun h => hnot ⟨s, hs, h⟩
    obtain ⟨b, hb, hle⟩ := hprev_max s hs hlt
    exact ⟨b.prefixBytes, Option.mem_map_of_mem _ hb, hle⟩
  rw [hpred, except_bind_eq_ok]
  constructor
  · rintro ⟨⟨⟩, habove, hbelow⟩
    refine .inr fun t ht hnest => ?_
    have hne : t ≠ c := fun h => hnot (h ▸ ht)
    rcases nested_neighbour hanti ht hne hnest hpred_mem hpred_max hsucc hsucc_min with
      ⟨q, hq, hqc⟩ | ⟨q, hq, hcq⟩
    · exact checkBelow_eq_ok.mp hbelow q hq hqc
    · exact checkAbove_eq_ok.mp habove q hq hcq
  · intro hadmits
    have hnone := hadmits.resolve_left hnot
    refine ⟨(), checkAbove_eq_ok.mpr fun q hq hcq => ?_, checkBelow_eq_ok.mpr fun q hq hqc => ?_⟩
    · exact hnone q (hsucc q hq).1 (.inr hcq)
    · exact hnone q (hpred_mem q hq).1 (.inl hqc)

/-- `maybe_insert_tree` keeps the segments sorted, adds the prefix to them, and
returns the position of its segment. -/
theorem maybeInsertTree_spec (hsorted : SegmentsSorted segments) {p : Bytes} {idx : Nat}
    {segments' : List (Segment V)} (h : ManifestCore.maybeInsertTree segments p = .ok (idx, segments')) :
    SegmentsSorted segments' ∧ segmentPrefixes segments' = insert p (segmentPrefixes segments) ∧
      ∃ hidx : idx < segments'.length, segments'[idx].prefixBytes = p := by
  unfold ManifestCore.maybeInsertTree at h
  split at h
  · -- the segment exists
    rename_i i hfound
    cases h
    obtain ⟨hidx, hkey⟩ := binarySearchBy_eq_ok Segment.prefixBytes p hfound
    have hmem : p ∈ segmentPrefixes segments := ⟨_, List.getElem_mem hidx, hkey⟩
    exact ⟨hsorted, (Set.insert_eq_of_mem hmem).symm, hidx, hkey⟩
  · -- a new segment at the insertion point, between the smaller and the larger prefixes
    rename_i i hmiss
    obtain ⟨⟨⟩, -, hpure⟩ := except_bind_eq_ok.mp h
    simp only [pure, Except.pure, Except.ok.injEq, Prod.mk.injEq] at hpure
    obtain ⟨rfl, rfl⟩ := hpure
    obtain ⟨hle, hbefore, hafter⟩ := binarySearchBy_eq_error Segment.prefixBytes p hsorted hmiss
    refine ⟨pairwise_insertIdx hle hsorted hbefore hafter, ?_, ?_⟩
    · ext q
      simp only [segmentPrefixes, Set.mem_insert_iff, Set.mem_ofPred_eq, List.mem_insertIdx hle]
      constructor
      · rintro ⟨s, rfl | hs, rfl⟩
        · exact .inl rfl
        · exact .inr ⟨s, hs, rfl⟩
      · rintro (rfl | ⟨s, hs, rfl⟩)
        · exact ⟨⟨q, []⟩, .inl rfl, rfl⟩
        · exact ⟨s, .inr hs, rfl⟩
    · have hlen : i < (segments.insertIdx i ⟨p, []⟩).length := by
        rw [List.length_insertIdx_of_le_length hle]
        omega
      exact ⟨hlen, by rw [List.getElem_insertIdx_self]⟩

/-- Routing an SST changes no prefix but its own segment's tree. -/
theorem map_prefixBytes_modify (f : Segment V → Segment V) (hf : ∀ s, (f s).prefixBytes = s.prefixBytes) :
    ∀ (segments : List (Segment V)) (idx : Nat),
      (segments.modify idx f).map (·.prefixBytes) = segments.map (·.prefixBytes)
  | [], _ => by simp
  | s :: segments, 0 => by simp [hf]
  | s :: segments, idx + 1 => by simp [map_prefixBytes_modify f hf segments idx]

theorem routeSst_spec (hsorted : SegmentsSorted segments) {sst : EncodedSegmentSst V}
    {segments' : List (Segment V)} (h : routeSst segments sst = .ok segments') :
    SegmentsSorted segments' ∧ segmentPrefixes segments' = insert sst.prefixBytes (segmentPrefixes segments) := by
  obtain ⟨⟨idx, inserted⟩, hinsert, hpure⟩ := except_bind_eq_ok.mp h
  cases hpure
  obtain ⟨hs, hp, -⟩ := maybeInsertTree_spec hsorted hinsert
  have hmap := map_prefixBytes_modify (fun s => { s with tree := sst.encoded :: s.tree })
    (fun _ => rfl) inserted idx
  rw [segmentsSorted_iff, hmap, ← segmentsSorted_iff, segmentPrefixes_eq, hmap, ← segmentPrefixes_eq]
  exact ⟨hs, hp⟩

/-- Routing a memtable's SSTs keeps the segments sorted and adds no prefix
but theirs, whether it completes or stops at a failure. -/
theorem routeSsts_spec : ∀ (segments : List (Segment V)) (ssts : List (EncodedSegmentSst V)),
    SegmentsSorted segments → SegmentsSorted (routeSsts segments ssts).2 ∧
      segmentPrefixes (routeSsts segments ssts).2 ⊆
        segmentPrefixes segments ∪ {p | ∃ sst ∈ ssts, sst.prefixBytes = p}
  | segments, [], h => ⟨h, Set.subset_union_left⟩
  | segments, sst :: ssts, h => by
    unfold routeSsts
    split
    · rename_i segments' hroute
      obtain ⟨hs', hp'⟩ := routeSst_spec h hroute
      obtain ⟨hs'', hp''⟩ := routeSsts_spec segments' ssts hs'
      refine ⟨hs'', hp''.trans ?_⟩
      rw [hp']
      rintro q ((rfl | hq) | ⟨s, hs, rfl⟩)
      · exact .inr ⟨sst, List.mem_cons_self, rfl⟩
      · exact .inl hq
      · exact .inr ⟨s, List.mem_cons_of_mem _ hs, rfl⟩
    · exact ⟨h, Set.subset_union_left⟩

/-! ### The walk of a flush -/

/-- The SST of segment `p` holding `rows`, when there is a row. -/
def groupOf (p : Bytes) (rows : List (RowEntry Bytes V)) : List (EncodedSegmentSst V) :=
  if rows.isEmpty then [] else [⟨p, rows⟩]

/-- One SST per prefix, in their order, holding exactly the entries whose keys
extend it; none for a prefix that no entry extends. -/
def segmentGroups (entries : List (RowEntry Bytes V)) (prefixes : List Bytes) :
    List (EncodedSegmentSst V) :=
  prefixes.flatMap fun p => groupOf p (entries.filter fun e => p <+: e.key)

@[simp] theorem groupOf_nil (p : Bytes) : groupOf p ([] : List (RowEntry Bytes V)) = [] := rfl

theorem segmentGroups_cons (entries : List (RowEntry Bytes V)) (p : Bytes) (prefixes : List Bytes) :
    segmentGroups entries (p :: prefixes) =
      groupOf p (entries.filter fun e => p <+: e.key) ++ segmentGroups entries prefixes := by
  simp [segmentGroups]

theorem segmentGroups_append (entries : List (RowEntry Bytes V)) (l₁ l₂ : List Bytes) :
    segmentGroups entries (l₁ ++ l₂) = segmentGroups entries l₁ ++ segmentGroups entries l₂ := by
  simp [segmentGroups]

theorem segmentGroups_nil (prefixes : List Bytes) :
    segmentGroups ([] : List (RowEntry Bytes V)) prefixes = [] := by
  simp [segmentGroups]

/-- Prefixes that an entry does not extend group the entries after it alone. -/
theorem segmentGroups_cons_of_not_isPrefix {e : RowEntry Bytes V} {entries : List (RowEntry Bytes V)}
    {prefixes : List Bytes} (h : ∀ q ∈ prefixes, ¬q <+: e.key) :
    segmentGroups (e :: entries) prefixes = segmentGroups entries prefixes := by
  unfold segmentGroups
  refine List.flatMap_congr fun q hq => ?_
  simp [h q hq]

/-- Prefixes that no entry extends group nothing. -/
theorem segmentGroups_eq_nil {entries : List (RowEntry Bytes V)} {prefixes : List Bytes}
    (h : ∀ q ∈ prefixes, ∀ e ∈ entries, ¬q <+: e.key) : segmentGroups entries prefixes = [] := by
  simp only [segmentGroups, List.flatMap_eq_nil_iff, groupOf]
  intro q hq
  have hfilter : entries.filter (fun e : RowEntry Bytes V => decide (q <+: e.key)) = [] :=
    List.filter_eq_nil_iff.mpr fun e he => by simpa using h q hq e he
  simp [hfilter]

/-- The inner loop stops at the first prefix the key extends; a prefix it
leaves behind is built into an SST when it received an entry. -/
theorem advanceCursor_spec (key : Bytes) : ∀ (cur : Bytes) (rest : List Bytes)
    (builder : List (RowEntry Bytes V)) (out : List (EncodedSegmentSst V)),
    (∃ q ∈ cur :: rest, q <+: key) → ¬cur <+: key →
    ∃ (skipped : List Bytes) (p : Bytes) (ps : List Bytes), rest = skipped ++ p :: ps ∧
      (∀ q ∈ skipped, ¬q <+: key) ∧ p <+: key ∧
      advanceCursor key cur rest builder (!builder.isEmpty) out =
        .ok ⟨p, ps, [], false, out ++ groupOf cur builder⟩
  | cur, [], _, _, ⟨q, hq, hqk⟩, hcur => by
    obtain rfl : q = cur := List.mem_singleton.mp hq
    exact absurd hqk hcur
  | cur, next :: rest, builder, out, ⟨q, hq, hqk⟩, hcur => by
    have hout : (if !builder.isEmpty then out ++ [⟨cur, builder⟩] else out) = out ++ groupOf cur builder := by
      cases builder <;> simp [groupOf]
    by_cases hnext : next <+: key
    · -- the next prefix is the one
      refine ⟨[], next, rest, rfl, by simp, hnext, ?_⟩
      rw [advanceCursor, if_neg hcur, hout]
      dsimp only
      rw [advanceCursor, if_pos hnext]
    · -- the key extends a prefix further on, found by the loop from the next one
      have hq' : q ∈ next :: rest := by
        rcases List.mem_cons.mp hq with rfl | hq
        · exact absurd hqk hcur
        · exact hq
      obtain ⟨skipped, p, ps, hrest, hskipped, hp, hadvance⟩ :=
        advanceCursor_spec key next rest [] (out ++ groupOf cur builder) ⟨q, hq', hqk⟩ hnext
      refine ⟨next :: skipped, p, ps, by rw [hrest, List.cons_append], ?_, hp, ?_⟩
      · intro r hr
        rcases List.mem_cons.mp hr with rfl | hr
        · exact hnext
        · exact hskipped r hr
      · rw [advanceCursor, if_neg hcur, hout]
        simpa using hadvance

/-- The walk over the entries left: the open SST of the current prefix collects
the entries that extend it, and each later prefix those that extend it. This
holds when the prefixes ascend and none extends another, and the entries
ascend by key and each extends a prefix. -/
theorem walkEntries_spec : ∀ (entries : List (RowEntry Bytes V)) (cur : Bytes) (rest : List Bytes)
    (builder : List (RowEntry Bytes V)) (out : List (EncodedSegmentSst V)),
    (cur :: rest).Pairwise (· < ·) → IsAntichain (· <+: ·) {x | x ∈ cur :: rest} →
    entries.Pairwise (fun a b => a.key ≤ b.key) → (∀ e ∈ entries, ∃ q ∈ cur :: rest, q <+: e.key) →
    walkEntries ⟨cur, rest, builder, !builder.isEmpty, out⟩ entries =
      .ok (out ++ groupOf cur (builder ++ entries.filter fun e : RowEntry Bytes V => cur <+: e.key) ++
        segmentGroups entries rest)
  | [], cur, rest, builder, out, _, _, _, _ => by
    cases builder <;> simp [walkEntries, groupOf, segmentGroups_nil]
  | e :: entries, cur, rest, builder, out, hsorted, hanti, hkeys, hcover => by
    have hkeys' := (List.pairwise_cons.mp hkeys).2
    have hle : ∀ f ∈ e :: entries, e.key ≤ f.key := by
      intro f hf
      rcases List.mem_cons.mp hf with rfl | hf
      · exact le_rfl
      · exact (List.pairwise_cons.mp hkeys).1 f hf
    by_cases hcur : cur <+: e.key
    · -- the entry goes into the open SST, and extends no later prefix
      have hadv : advanceCursor e.key cur rest builder (!builder.isEmpty) out =
          .ok ⟨cur, rest, builder, !builder.isEmpty, out⟩ := by
        rw [advanceCursor, if_pos hcur]
      have hnot : ∀ q ∈ rest, ¬q <+: e.key := fun q hq hqe =>
        ne_of_lt ((List.pairwise_cons.mp hsorted).1 q hq)
          (eq_of_isPrefix_of_isPrefix hanti List.mem_cons_self (List.mem_cons_of_mem _ hq) hcur hqe)
      have ih := walkEntries_spec entries cur rest (builder ++ [e]) out hsorted hanti hkeys'
        (fun f hf => hcover f (List.mem_cons_of_mem _ hf))
      rw [show (!(builder ++ [e]).isEmpty) = true by simp] at ih
      simp only [walkEntries, hadv, bind, Except.bind]
      rw [ih, segmentGroups_cons_of_not_isPrefix hnot, List.filter_cons_of_pos (by simpa using hcur)]
      simp
    · -- the cursor moves on to the prefix `p` the entry extends
      obtain ⟨skipped, p, ps, rfl, -, hp, hadv⟩ :=
        advanceCursor_spec e.key cur rest builder out (hcover e List.mem_cons_self) hcur
      have hpmem : p ∈ cur :: (skipped ++ p :: ps) := by simp
      have hsorted' : (skipped ++ p :: ps).Pairwise (· < ·) := (List.pairwise_cons.mp hsorted).2
      have hbelow : ∀ q ∈ cur :: skipped, q < p := by
        intro q hq
        rcases List.mem_cons.mp hq with rfl | hq
        · exact (List.pairwise_cons.mp hsorted).1 p (List.mem_append_right _ List.mem_cons_self)
        · exact (List.pairwise_append.mp hsorted').2.2 q hq p List.mem_cons_self
      have hqmem : ∀ q ∈ cur :: skipped, q ∈ cur :: (skipped ++ p :: ps) := by
        intro q hq
        rcases List.mem_cons.mp hq with rfl | hq
        · exact List.mem_cons_self
        · exact List.mem_cons_of_mem _ (List.mem_append_left _ hq)
      -- from this entry on, the keys are at least one that extends `p`
      have hnone : ∀ q ∈ cur :: skipped, ∀ f ∈ e :: entries, ¬q <+: f.key := fun q hq f hf =>
        not_isPrefix_of_lt hanti (hqmem q hq) hpmem (hbelow q hq) hp (hle f hf)
      have hps : ∀ q ∈ ps, ¬q <+: e.key := fun q hq hqe => by
        have hpq : p < q := (List.pairwise_cons.mp (List.pairwise_append.mp hsorted').2.1).1 q hq
        exact ne_of_lt hpq (eq_of_isPrefix_of_isPrefix hanti hpmem
          (List.mem_cons_of_mem _ (List.mem_append_right _ (List.mem_cons_of_mem _ hq))) hp hqe)
      have hcover' : ∀ f ∈ entries, ∃ q ∈ p :: ps, q <+: f.key := by
        intro f hf
        obtain ⟨q, hq, hqf⟩ := hcover f (List.mem_cons_of_mem _ hf)
        refine ⟨q, ?_, hqf⟩
        have hq' : q ∈ cur :: skipped ∨ q ∈ p :: ps := by
          simp only [List.mem_cons, List.mem_append] at hq ⊢
          tauto
        exact hq'.resolve_left fun hq => hnone q hq f (List.mem_cons_of_mem _ hf) hqf
      have ih := walkEntries_spec entries p ps [e] (out ++ groupOf cur builder)
        (List.pairwise_append.mp hsorted').2.1
        (hanti.subset fun x hx => List.mem_cons_of_mem _ (List.mem_append_right _ hx))
        hkeys' hcover'
      have hfilter : (e :: entries).filter (fun f : RowEntry Bytes V => decide (cur <+: f.key)) = [] :=
        List.filter_eq_nil_iff.mpr fun f hf => by simpa using hnone cur List.mem_cons_self f hf
      have hskipped : segmentGroups (e :: entries) skipped = [] :=
        segmentGroups_eq_nil fun q hq => hnone q (List.mem_cons_of_mem _ hq)
      simp only [walkEntries, hadv, bind, Except.bind, List.nil_append]
      rw [show (!List.isEmpty [e]) = true from rfl] at ih
      rw [ih, hfilter, segmentGroups_append, hskipped, segmentGroups_cons,
        segmentGroups_cons_of_not_isPrefix hps, List.filter_cons_of_pos (by simpa using hp)]
      simp


/-- On an antichain of touched segments, over entries that ascend by key and
each extend a touched segment, the walk never runs out of prefixes and builds
the SSTs of `segmentGroups`. -/
theorem buildImmSegmentSsts_eq {entries : List (RowEntry Bytes V)} {T : Finset Bytes}
    (hT : IsAntichain (· <+: ·) (T : Set Bytes)) (hne : T ≠ ∅)
    (hkeys : entries.Pairwise (fun a b => a.key ≤ b.key))
    (hcover : ∀ e ∈ entries, ∃ q ∈ T, q <+: e.key) :
    buildImmSegmentSsts entries T = .ok (segmentGroups entries (ascending T)) := by
  unfold buildImmSegmentSsts
  split
  · rename_i hnil
    exact absurd (ascending_eq_nil.mp hnil) hne
  rename_i cur rest hasc
  have hmem : ∀ q, q ∈ cur :: rest ↔ q ∈ T := fun q => by rw [← hasc, mem_ascending]
  have hset : {x | x ∈ cur :: rest} = (T : Set Bytes) := by
    ext q
    exact hmem q
  have hcover' : ∀ e ∈ entries, ∃ q ∈ cur :: rest, q <+: e.key := by
    intro e he
    obtain ⟨q, hq, hqe⟩ := hcover e he
    exact ⟨q, (hmem q).mpr hq, hqe⟩
  have hwalk := walkEntries_spec entries cur rest [] [] (hasc ▸ pairwise_ascending T) (hset ▸ hT)
    hkeys hcover'
  refine hwalk.trans ?_
  rw [hasc, segmentGroups_cons]
  simp

/-- An SST of `segmentGroups` is a prefix of the list with exactly the entries
that extend it, of which there is one. -/
theorem mem_segmentGroups {entries : List (RowEntry Bytes V)} {prefixes : List Bytes}
    {sst : EncodedSegmentSst V} :
    sst ∈ segmentGroups entries prefixes ↔ sst.prefixBytes ∈ prefixes ∧
      sst.encoded = entries.filter (fun e : RowEntry Bytes V => sst.prefixBytes <+: e.key) ∧
        sst.encoded ≠ [] := by
  obtain ⟨q, rows⟩ := sst
  simp only [segmentGroups, groupOf, List.mem_flatMap]
  constructor
  · rintro ⟨p, hp, hmem⟩
    split at hmem
    · cases hmem
    · rename_i hne
      obtain ⟨rfl, rfl⟩ := by simpa using hmem
      exact ⟨hp, rfl, by simpa using hne⟩
  · rintro ⟨hq, hrows, hne⟩
    refine ⟨q, hq, ?_⟩
    rw [← hrows, if_neg (by simpa using hne)]
    exact List.mem_singleton_self _

/-- A memtable whose rows each extend one of its touched segments. -/
structure SegmentedTable.Routed (t : SegmentedTable V) : Prop where
  wellFormed : t.table.WellFormed
  covered : ∀ e ∈ t.table.rows, ∃ p ∈ t.touchedSegments, p <+: e.key

/-- A flush of a routed memtable, given a stream of its rows as the merge and
retention stages leave them, builds the SSTs of `segmentGroups`. -/
theorem buildImmSsts_eq {immTable : SegmentedTable V} (hrouted : immTable.Routed)
    (hT : IsAntichain (· <+: ·) (immTable.touchedSegments : Set Bytes))
    {entries : List (RowEntry Bytes V)}
    (hsub : (entries.map keySeq).Sublist (immTable.table.rows.map keySeq)) :
    buildImmSsts immTable entries = .ok (segmentGroups entries (ascending immTable.touchedSegments)) := by
  -- the entries ascend by key, and each has the key of a row
  have hsorted : SortedStream entries :=
    SortedStream.of_keySeq_sublist hsub hrouted.wellFormed.sortedStream
  have hcover : ∀ e ∈ entries, ∃ q ∈ immTable.touchedSegments, q <+: e.key := by
    intro e he
    obtain ⟨r, hr, hre⟩ := List.mem_map.mp (hsub.subset (List.mem_map_of_mem he))
    obtain ⟨q, hq, hqr⟩ := hrouted.covered r hr
    have hkey : r.key = e.key := congrArg Prod.fst hre
    exact ⟨q, hq, hkey ▸ hqr⟩
  unfold buildImmSsts
  split
  · -- no touched segment, so no row and no entry
    rename_i hempty
    have hrows : immTable.table.rows = [] := List.eq_nil_iff_forall_not_mem.mpr fun r hr => by
      obtain ⟨q, hq, -⟩ := hrouted.covered r hr
      simp [hempty] at hq
    have hmap : immTable.table.map = [] := List.map_eq_nil_iff.mp hrows
    rw [hempty, hmap]
    simp [segmentGroups]
  · rename_i hne
    exact buildImmSegmentSsts_eq hT hne (hsorted.imp EntryLt.key_le) hcover


/-! ### Validation over every source -/

theorem forM_eq_ok_iff {ε α : Type} {f : α → Except ε Unit} :
    ∀ {l : List α}, l.forM f = .ok () ↔ ∀ a ∈ l, f a = .ok ()
  | [] => by simp [List.forM, pure, Except.pure]
  | a :: l => by
    rw [show (a :: l).forM f = (f a >>= fun _ => l.forM f) from rfl, except_bind_eq_ok, forM_eq_ok_iff]
    constructor
    · rintro ⟨⟨⟩, ha, hl⟩
      exact List.forall_mem_cons.mpr ⟨ha, hl⟩
    · intro h
      exact ⟨(), h a List.mem_cons_self, fun b hb => h b (List.mem_cons_of_mem _ hb)⟩

/-- The touched segments of the immutable memtables. -/
def immPrefixes (imms : List (SegmentedTable V)) : Set Bytes :=
  {p | ∃ imm ∈ imms, p ∈ imm.touchedSegments}

@[simp] theorem mem_immPrefixes {imms : List (SegmentedTable V)} :
    p ∈ immPrefixes imms ↔ ∃ imm ∈ imms, p ∈ imm.touchedSegments := Iff.rfl

@[simp] theorem immPrefixes_nil : immPrefixes ([] : List (SegmentedTable V)) = ∅ := by
  simp [immPrefixes]

theorem immPrefixes_cons (imm : SegmentedTable V) (imms : List (SegmentedTable V)) :
    immPrefixes (imm :: imms) = ↑imm.touchedSegments ∪ immPrefixes imms := by
  ext p
  simp [immPrefixes]

/-- Over the immutable memtables, newest first, the check passes exactly when
their touched segments together admit every remaining prefix, and leaves
those that none of them holds. Stopping once none remains changes nothing. -/
theorem checkImmMemtables_eq_ok_iff : ∀ {imms : List (SegmentedTable V)} {R R' : Finset Bytes},
    IsAntichain (· <+: ·) (immPrefixes imms) →
    (SegmentedDb.checkImmMemtables R imms = .ok R' ↔
      (∀ c ∈ R, Admits (immPrefixes imms) c) ∧
        R' = R.filter fun c => ∀ imm ∈ imms, c ∉ imm.touchedSegments)
  | [], R, R', _ => by
    rw [immPrefixes_nil]
    have hnone : ∀ c : Bytes, Admits (∅ : Set Bytes) c :=
      fun c => .inr fun t ht => (Set.notMem_empty t ht).elim
    simp [SegmentedDb.checkImmMemtables, hnone, eq_comm]
  | imm :: imms, R, R', hanti => by
    rw [immPrefixes_cons] at hanti ⊢
    have hT : IsAntichain (· <+: ·) (imm.touchedSegments : Set Bytes) :=
      hanti.subset Set.subset_union_left
    have hrest := hanti.subset Set.subset_union_right
    -- the prefixes the newest memtable does not hold go on to the next ones
    have hfilter : (R.filter (· ∉ imm.touchedSegments)).filter
          (fun c => ∀ imm ∈ imms, c ∉ imm.touchedSegments) =
        R.filter fun c => ∀ imm' ∈ imm :: imms, c ∉ imm'.touchedSegments := by
      rw [Finset.filter_filter]
      simp only [List.forall_mem_cons]
    rw [SegmentedDb.checkImmMemtables, except_bind_eq_ok]
    simp only [checkSegmentPrefixAntichain_eq_ok_iff hT]
    constructor
    · rintro ⟨R₁, ⟨hadmits, rfl⟩, hnext⟩
      split at hnext
      · -- the newest memtable holds every remaining prefix
        rename_i hempty
        cases hnext
        have hall : ∀ c ∈ R, c ∈ imm.touchedSegments := fun c hc => by
          by_contra hcT
          have hmem : c ∈ R.filter (· ∉ imm.touchedSegments) := Finset.mem_filter.mpr ⟨hc, hcT⟩
          simp [hempty] at hmem
        refine ⟨fun c hc => .inl (.inl (hall c hc)), ?_⟩
        ext c
        simp only [Finset.notMem_empty, Finset.mem_filter, List.forall_mem_cons, false_iff]
        exact fun ⟨hc, hnot, _⟩ => hnot (hall c hc)
      · obtain ⟨hadmits', rfl⟩ := (checkImmMemtables_eq_ok_iff hrest).mp hnext
        refine ⟨fun c hc => (admits_union_iff hanti).mpr ⟨hadmits c hc, fun hcT => ?_⟩, hfilter⟩
        exact hadmits' c (Finset.mem_filter.mpr ⟨hc, hcT⟩)
    · rintro ⟨hadmits, rfl⟩
      have hadmitsT : ∀ c ∈ R, Admits (imm.touchedSegments : Set Bytes) c :=
        fun c hc => ((admits_union_iff hanti).mp (hadmits c hc)).1
      refine ⟨_, ⟨hadmitsT, rfl⟩, ?_⟩
      split
      · rename_i hempty
        rw [← hfilter, hempty, Finset.filter_empty]
        rfl
      · refine (checkImmMemtables_eq_ok_iff hrest).mpr ⟨fun c hc => ?_, hfilter.symm⟩
        obtain ⟨hcR, hcT⟩ := Finset.mem_filter.mp hc
        exact ((admits_union_iff hanti).mp (hadmits c hcR)).2 hcT

/-- The prefixes of a batch's entries cover each entry's key. -/
theorem touchedSegmentsOf_covers {extractor : PrefixExtractor} :
    ∀ {entries : List (RowEntry Bytes V)} {B : Finset Bytes},
      touchedSegmentsOf extractor entries = .ok B → ∀ e ∈ entries, ∃ p ∈ B, p <+: e.key
  | [], _, _, e, he => absurd he List.not_mem_nil
  | entry :: entries, B, h, e, he => by
    unfold touchedSegmentsOf at h
    split at h
    · cases h
    · cases h
    · rename_i n _
      obtain ⟨B', hB', hpure⟩ := except_bind_eq_ok.mp h
      cases hpure
      rcases List.mem_cons.mp he with rfl | he
      · exact ⟨_, Finset.mem_insert_self _ _, List.take_prefix _ _⟩
      · obtain ⟨p, hp, hpe⟩ := touchedSegmentsOf_covers hB' e he
        exact ⟨p, Finset.mem_insert_of_mem hp, hpe⟩

theorem WriteBatch.extractSegmentedEntries_covers {b : WriteBatch Bytes V} {seq : Nat} {now : Int}
    {defaultTtl : Option Nat} {merger : Option (MergeOperator Bytes V)} {extractor : PrefixExtractor}
    {entries : List (RowEntry Bytes V)} {B : Finset Bytes}
    (h : b.extractSegmentedEntries seq now defaultTtl merger extractor = .ok (entries, B)) :
    ∀ e ∈ entries, ∃ p ∈ B, p <+: e.key := by
  obtain ⟨entries', -, hrest⟩ := except_bind_eq_ok.mp h
  obtain ⟨B', hB', hpure⟩ := except_bind_eq_ok.mp hrest
  cases hpure
  exact touchedSegmentsOf_covers hB'

/-! ### The writer's prefixes -/

namespace SegmentedDb

variable {db : SegmentedDb V}

/-- Every prefix the writer knows: the active memtable's touched segments,
the immutable memtables', and the manifest's segments. -/
def prefixes (db : SegmentedDb V) : Set Bytes :=
  ↑db.memtable.touchedSegments ∪ immPrefixes db.immMemtable ∪ segmentPrefixes db.segments

/-- On a writer whose prefixes are an antichain and whose segments are sorted,
validation passes exactly when the batch's prefixes keep the antichain. -/
theorem validateSegmentAntichain_eq_ok_iff (hanti : IsAntichain (· <+: ·) db.prefixes)
    (hsorted : SegmentsSorted db.segments) (B : Finset Bytes) :
    db.validateSegmentAntichain B = .ok () ↔ IsAntichain (· <+: ·) (db.prefixes ∪ (B : Set Bytes)) := by
  have hMI := hanti.subset (Set.subset_union_left (t := segmentPrefixes db.segments))
  have hM : IsAntichain (· <+: ·) (db.memtable.touchedSegments : Set Bytes) :=
    hMI.subset Set.subset_union_left
  have hI := hMI.subset Set.subset_union_right
  have hS := hanti.subset Set.subset_union_right
  -- the sources are checked in turn, and a prefix that one holds is not checked further
  have hadmits : ∀ c : Bytes, Admits db.prefixes c ↔ Admits (db.memtable.touchedSegments : Set Bytes) c ∧
      (c ∉ db.memtable.touchedSegments → Admits (immPrefixes db.immMemtable) c) ∧
      (c ∉ db.memtable.touchedSegments → c ∉ immPrefixes db.immMemtable →
        Admits (segmentPrefixes db.segments) c) := by
    intro c
    have h₁ : Admits db.prefixes c ↔
        Admits ((db.memtable.touchedSegments : Set Bytes) ∪ immPrefixes db.immMemtable) c ∧
          (c ∉ (db.memtable.touchedSegments : Set Bytes) ∪ immPrefixes db.immMemtable →
            Admits (segmentPrefixes db.segments) c) :=
      admits_union_iff hanti
    have h₂ : Admits ((db.memtable.touchedSegments : Set Bytes) ∪ immPrefixes db.immMemtable) c ↔
        Admits (db.memtable.touchedSegments : Set Bytes) c ∧
          (c ∉ (db.memtable.touchedSegments : Set Bytes) → Admits (immPrefixes db.immMemtable) c) :=
      admits_union_iff hMI
    rw [h₁, h₂]
    simp only [Set.mem_union, Finset.mem_coe, not_or, and_imp, and_assoc]
  have hunion : IsAntichain (· <+: ·) (db.prefixes ∪ (B : Set Bytes)) ↔
      IsAntichain (· <+: ·) (B : Set Bytes) ∧ ∀ c ∈ (B : Set Bytes), Admits db.prefixes c :=
    isAntichain_union_iff hanti
  rw [hunion, validateSegmentAntichain]
  split
  · rename_i hB
    subst hB
    simp
    exact IsAntichain.empty
  rw [except_bind_eq_ok]
  constructor
  · rintro ⟨⟨⟩, hbatch, hrest⟩
    refine ⟨(checkBatchAntichain_eq_ok_iff B).mp hbatch, fun (c : Bytes) hc => ?_⟩
    obtain ⟨R₁, h₁, h₂⟩ := except_bind_eq_ok.mp hrest
    obtain ⟨hadmitsM, rfl⟩ := (checkSegmentPrefixAntichain_eq_ok_iff hM).mp h₁
    by_cases hcM : c ∈ db.memtable.touchedSegments
    · exact .inl (.inl (.inl hcM))
    have hc₁ : c ∈ B.filter (· ∉ db.memtable.touchedSegments) := Finset.mem_filter.mpr ⟨hc, hcM⟩
    split at h₂
    · rename_i hempty
      simp [hempty] at hc₁
    obtain ⟨R₂, h₃, h₄⟩ := except_bind_eq_ok.mp h₂
    obtain ⟨hadmitsI, rfl⟩ := (checkImmMemtables_eq_ok_iff hI).mp h₃
    refine (hadmits c).mpr ⟨hadmitsM c hc, fun _ => hadmitsI c hc₁, fun _ hcI => ?_⟩
    have hc₂ : c ∈ (B.filter (· ∉ db.memtable.touchedSegments)).filter
        (fun c => ∀ imm ∈ db.immMemtable, c ∉ imm.touchedSegments) :=
      Finset.mem_filter.mpr ⟨hc₁, by simpa using hcI⟩
    exact (ManifestCore.checkSegmentPrefixAntichain_eq_ok_iff hsorted hS).mp
      (forM_eq_ok_iff.mp h₄ c (mem_ascending.mpr hc₂))
  · rintro ⟨hbatch, hall⟩
    have hM' : ∀ c ∈ B, Admits (db.memtable.touchedSegments : Set Bytes) c :=
      fun (c : Bytes) hc => ((hadmits c).mp (hall c hc)).1
    refine ⟨(), (checkBatchAntichain_eq_ok_iff B).mpr hbatch, except_bind_eq_ok.mpr
      ⟨_, (checkSegmentPrefixAntichain_eq_ok_iff hM).mpr ⟨hM', rfl⟩, ?_⟩⟩
    split
    · rfl
    refine except_bind_eq_ok.mpr ⟨_, (checkImmMemtables_eq_ok_iff hI).mpr ⟨fun (c : Bytes) hc => ?_, rfl⟩, ?_⟩
    · obtain ⟨hcB, hcM⟩ := Finset.mem_filter.mp hc
      exact ((hadmits c).mp (hall c hcB)).2.1 hcM
    · refine forM_eq_ok_iff.mpr fun (c : Bytes) hc => ?_
      obtain ⟨hc₁, hcI⟩ := Finset.mem_filter.mp (mem_ascending.mp hc)
      obtain ⟨hcB, hcM⟩ := Finset.mem_filter.mp hc₁
      exact (ManifestCore.checkSegmentPrefixAntichain_eq_ok_iff hsorted hS).mpr
        (((hadmits c).mp (hall c hcB)).2.2 hcM (by simpa using hcI))

/-! ### Every run -/

/-- What every run keeps: the prefixes stay an antichain, the segments stay
sorted, and each memtable's rows extend its touched segments. -/
structure Inv (db : SegmentedDb V) : Prop where
  antichain : IsAntichain (· <+: ·) db.prefixes
  sorted : SegmentsSorted db.segments
  memtable : db.memtable.Routed
  imm : ∀ imm ∈ db.immMemtable, imm.Routed

theorem inv_init (extractor : PrefixExtractor) (mergeOperator : Option (MergeOperator Bytes V))
    (defaultTtl : Option Nat) : (init extractor mergeOperator defaultTtl).Inv where
  antichain := by
    have hempty : (init extractor mergeOperator defaultTtl).prefixes = ∅ := by
      simp [prefixes, init, segmentPrefixes]
    rw [hempty]
    exact IsAntichain.empty
  sorted := List.Pairwise.nil
  memtable := ⟨KVTable.wellFormed_new, fun e he => by simp [init, KVTable.new, KVTable.rows] at he⟩
  imm _ h := by simp [init] at h

/-- A write that passes validation adds the batch's prefixes to the active
memtable's; one that fails changes nothing. -/
theorem Inv.writeBatch (h : db.Inv) (batch : WriteBatch Bytes V) (seq : Nat) (now : Int) :
    (db.writeBatch batch seq now).2.Inv := by
  unfold SegmentedDb.writeBatch
  split
  · exact h
  rename_i entries B hextract
  split
  · exact h
  rename_i hvalid
  have hanti := (validateSegmentAntichain_eq_ok_iff h.antichain h.sorted B).mp hvalid
  have hprefixes : ({ db with memtable := db.writeEntriesToMemtable entries B } : SegmentedDb V).prefixes =
      db.prefixes ∪ (B : Set Bytes) := by
    ext p
    simp only [prefixes, writeEntriesToMemtable, Finset.coe_union, Set.mem_union]
    tauto
  refine ⟨hprefixes ▸ hanti, h.sorted,
    ⟨DbInner.wellFormed_foldl_put h.memtable.wellFormed entries, fun e he => ?_⟩, h.imm⟩
  -- a row is one of the batch's, under one of its prefixes, or an old one
  rcases DbInner.mem_rows_foldl_put he with he | he
  · obtain ⟨p, hp, hpe⟩ := WriteBatch.extractSegmentedEntries_covers hextract e he
    exact ⟨p, Finset.mem_union_right _ hp, hpe⟩
  · obtain ⟨p, hp, hpe⟩ := h.memtable.covered e he
    exact ⟨p, Finset.mem_union_left _ hp, hpe⟩

/-- A freeze moves the active memtable's prefixes to the new immutable one. -/
theorem Inv.freezeMemtable (h : db.Inv) : db.freezeMemtable.Inv := by
  have hprefixes : db.freezeMemtable.prefixes = db.prefixes := by
    simp [prefixes, SegmentedDb.freezeMemtable, immPrefixes_cons, Set.union_assoc]
  refine ⟨hprefixes ▸ h.antichain, h.sorted, ⟨KVTable.wellFormed_new, fun e he => ?_⟩, fun imm himm => ?_⟩
  · simp [SegmentedDb.freezeMemtable, KVTable.new, KVTable.rows] at he
  · rcases List.mem_cons.mp himm with rfl | himm
    · exact h.memtable
    · exact h.imm imm himm

/-- A flush routes the oldest memtable's SSTs into segments of its own
prefixes and drops it, so no prefix is new. -/
theorem Inv.flushImmMemtable (h : db.Inv) {entries : List (RowEntry Bytes V)}
    (hsub : ∃ immTable ∈ db.immMemtable.getLast?,
      (entries.map keySeq).Sublist (immTable.table.rows.map keySeq))
    {result : Except SlateDBError Unit} {db' : SegmentedDb V}
    (hflush : db.flushImmMemtable entries = some (result, db')) : db'.Inv := by
  obtain ⟨immTable, hlast, hsub⟩ := hsub
  have himm : immTable ∈ db.immMemtable := List.mem_of_getLast? hlast
  have hT : IsAntichain (· <+: ·) (immTable.touchedSegments : Set Bytes) :=
    h.antichain.subset fun p hp => .inl (.inr ⟨immTable, himm, hp⟩)
  obtain ⟨hsorted, hroute⟩ := routeSsts_spec db.segments
    (segmentGroups entries (ascending immTable.touchedSegments)) h.sorted
  unfold SegmentedDb.flushImmMemtable at hflush
  rw [hlast] at hflush
  dsimp only at hflush
  rw [buildImmSsts_eq (h.imm immTable himm) hT hsub] at hflush
  simp only [Option.some.injEq, Prod.mk.injEq] at hflush
  obtain ⟨-, rfl⟩ := hflush
  have himms : ∀ imm ∈ db.immMemtable.dropLast, imm ∈ db.immMemtable :=
    fun imm himm => List.dropLast_subset _ himm
  -- the new segments' prefixes were the oldest memtable's
  have hsegments : segmentPrefixes (routeSsts db.segments
      (segmentGroups entries (ascending immTable.touchedSegments))).2 ⊆ db.prefixes := by
    intro p hp
    rcases hroute hp with hp | ⟨sst, hsst, rfl⟩
    · exact .inr hp
    · have hmem := (mem_segmentGroups.mp hsst).1
      exact .inl (.inr ⟨immTable, himm, mem_ascending.mp hmem⟩)
  refine ⟨h.antichain.subset ?_, hsorted, h.memtable, fun imm himm => h.imm imm (himms imm himm)⟩
  rintro p ((hp | ⟨imm, himm, hp⟩) | hp)
  · exact .inl (.inl hp)
  · exact .inl (.inr ⟨imm, himms imm himm, hp⟩)
  · exact hsegments hp

theorem Inv.step (h : db.Inv) {e : SegmentedDbEvent V} {db' : SegmentedDb V} (hs : db.Step e db') :
    db'.Inv := by
  cases e with
  | writeBatch batch seq now => exact hs ▸ h.writeBatch batch seq now
  | freezeMemtable => exact hs ▸ h.freezeMemtable
  | flushImmMemtable entries =>
    obtain ⟨hsub, result, hflush⟩ := hs
    exact h.flushImmMemtable hsub hflush

theorem inv_invariant (extractor : PrefixExtractor) (mergeOperator : Option (MergeOperator Bytes V))
    (defaultTtl : Option Nat) : (system extractor mergeOperator defaultTtl).Invariant Inv where
  init _ h := h ▸ inv_init extractor mergeOperator defaultTtl
  step _ _ _ h hs := h.step hs

variable {extractor : PrefixExtractor} {mergeOperator : Option (MergeOperator Bytes V)}
  {defaultTtl : Option Nat}

/-- On every run, the prefixes of the manifest's segments and of every
memtable's touched segments are an antichain. Validation passes a batch
exactly when its prefixes keep it one, and a batch that would break it fails
with nothing written. The segments are sorted and `maybe_insert_tree` keeps
them so. A flush of an immutable memtable, given the rows the merge and
retention stages leave, builds for each touched segment with an entry one
SST of exactly the entries under its prefix, without reaching its `expect`. -/
theorem prefixes_antichain_of_reachable
    (hdb : (system extractor mergeOperator defaultTtl).Reachable db) :
    IsAntichain (· <+: ·) db.prefixes ∧
    (∀ (batch : WriteBatch Bytes V) (seq : Nat) (now : Int) (entries : List (RowEntry Bytes V))
        (B : Finset Bytes),
      batch.extractSegmentedEntries seq now db.defaultTtl db.mergeOperator db.extractor =
          .ok (entries, B) →
        (db.validateSegmentAntichain B = .ok () ↔ IsAntichain (· <+: ·) (db.prefixes ∪ (B : Set Bytes))) ∧
        (¬IsAntichain (· <+: ·) (db.prefixes ∪ (B : Set Bytes)) →
          ∃ e, db.writeBatch batch seq now = (.error e, db))) ∧
    SegmentsSorted db.segments ∧
    (∀ (p : Bytes) (idx : Nat) (segments' : List (Segment V)),
      ManifestCore.maybeInsertTree db.segments p = .ok (idx, segments') → SegmentsSorted segments') ∧
    ∀ immTable ∈ db.immMemtable, ∀ (pipeline : DbInner Bytes V) (currentSystemTs : Int)
      (rows : List (RowEntry Bytes V)),
      pipeline.iterImmTable immTable.table currentSystemTs = .ok rows →
        buildImmSsts immTable rows = .ok (segmentGroups rows (ascending immTable.touchedSegments)) := by
  have h := (inv_invariant extractor mergeOperator defaultTtl).reachable hdb
  refine ⟨h.antichain, fun batch seq now entries B hextract => ⟨?_, fun hbreak => ?_⟩, h.sorted,
    fun p idx segments' hinsert => (maybeInsertTree_spec h.sorted hinsert).1, ?_⟩
  · exact validateSegmentAntichain_eq_ok_iff h.antichain h.sorted B
  · -- validation fails, so the write stops before the memtable
    have hfail : db.validateSegmentAntichain B ≠ .ok () :=
      fun hok => hbreak ((validateSegmentAntichain_eq_ok_iff h.antichain h.sorted B).mp hok)
    unfold SegmentedDb.writeBatch
    rw [hextract]
    dsimp only
    split
    · rename_i e _
      exact ⟨e, rfl⟩
    · contradiction
  · intro immTable himm pipeline currentSystemTs rows hrows
    have hrouted := h.imm immTable himm
    have hT : IsAntichain (· <+: ·) (immTable.touchedSegments : Set Bytes) :=
      h.antichain.subset fun p hp => .inl (.inr ⟨immTable, himm, hp⟩)
    exact buildImmSsts_eq hrouted hT
      (DbInner.iterImmTable_keySeq_sublist hrouted.wellFormed.sortedStream hrows)

end SegmentedDb

/-- A segment of the first byte of each key, or of its first two bytes when
the key is longer than two. -/
def shortOrLongExtractor : PrefixExtractor where
  prefixLen key := some (min key.length (if 2 < key.length then 2 else 1))
  prefixLen_le key n h := by
    obtain rfl := Option.some.inj h.symm
    exact min_le_left _ _

/-- A put of the key `[0, 1]`, whose segment is `[0]`. -/
def shortKeyBatch : WriteBatch Bytes Nat := WriteBatch.new.put [0, 1] 1

def shortKeyDb : SegmentedDb Nat :=
  ((SegmentedDb.init shortOrLongExtractor none none).writeBatch shortKeyBatch 1 0).2

theorem shortKeyDb_reachable :
    (SegmentedDb.system shortOrLongExtractor none none).Reachable shortKeyDb :=
  .step (a := .writeBatch shortKeyBatch 1 0) (.init rfl) rfl

theorem shortKeyDb_prefixes_antichain : IsAntichain (· <+: ·) shortKeyDb.prefixes :=
  (SegmentedDb.prefixes_antichain_of_reachable shortKeyDb_reachable).1

/-- A key under `[0, 1]` would nest with the segment `[0]`: rejected. -/
example : (shortKeyDb.writeBatch (WriteBatch.new.put [0, 1, 2] 2) 2 0).1.isOk = false := by decide

/-- Another key under `[0]` is accepted. -/
example : (shortKeyDb.writeBatch (WriteBatch.new.put [0, 2] 2) 2 0).1.isOk = true := by decide

end SlateDb
