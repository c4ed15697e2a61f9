import SlateDb.MergeOperator
import SlateDb.Resolution

/-!
# What the merge operator iterator computes

Each call of `next` consumes a nonempty prefix of the stream, its chunk, and
returns one entry with the key and the sequence number of the chunk's first
entry. Either the entry is the chunk's only entry, passed on unchanged, or the
chunk is a run of merge operands of one key, at or below the snapshot barrier,
possibly closed by a base value or tombstone, and the returned entry reads as
the whole chunk: over any older value it gives what the chunk's versions give
(`NextChunk`). The batching of `merge_with_older_entries` is accounted for by
the loop invariant `RunInv`: the results of the merged batches followed by the
pending batch fold, for a lawful merge operator, to the fold of every operand
consumed.

For a sorted stream the tracker never sees a sequence number above the run's
first, no batch is empty and a run is never empty, so the iterator does not
fail and never ends early. With `merge_different_expire_ts` unset every entry
of a chunk has the returned entry's expiry timestamp, so expiry treats the
chunk and the returned entry alike, and the drained stream reads like its
input after expiry, for every read the snapshot barrier protects.
-/

set_option linter.unusedSectionVars false

namespace SlateDb

variable {K V : Type}

/-- The payloads of the merge operands and values of a list of entries. -/
def operandsOf (l : List (RowEntry K V)) : List V :=
  l.filterMap (·.value.asBytes)

theorem operandsOf_append (a b : List (RowEntry K V)) :
    operandsOf (a ++ b) = operandsOf a ++ operandsOf b :=
  List.filterMap_append

theorem operandsOf_reverse (l : List (RowEntry K V)) :
    operandsOf l.reverse = (operandsOf l).reverse :=
  List.filterMap_reverse

/-- Adding an operand to the newest end puts it last in oldest-first order. -/
theorem operandsOf_append_merge {l : List (RowEntry K V)} {e : RowEntry K V} {x : V}
    (he : e.value = .merge x) : (operandsOf (l ++ [e])).reverse = x :: (operandsOf l).reverse := by
  simp [operandsOf, he]

/-- A list of merge operands is the list of its payloads as merge operands. -/
theorem map_value_of_merges {l : List (RowEntry K V)} (hl : ∀ e ∈ l, e.value.isMerge = true) :
    l.map (·.value) = (operandsOf l).map .merge := by
  induction l with
  | nil => rfl
  | cons e l ih =>
    obtain ⟨x, hx⟩ := ValueDeletable.isMerge_eq_true.mp (hl e List.mem_cons_self)
    simp [operandsOf, hx, ih (fun e' he' => hl e' (List.mem_cons_of_mem e he'))]

theorem operandsOf_ne_nil {l : List (RowEntry K V)} (hl : ∀ e ∈ l, e.value.isMerge = true)
    (hne : l ≠ []) : operandsOf l ≠ [] := by
  intro h
  have := map_value_of_merges hl
  rw [h, List.map_nil, List.map_eq_nil_iff] at this
  exact hne this

/-- The counter of the trait's documentation is a lawful merge operator. -/
theorem counterMergeOperator_lawful (k : Nat) : MergeFold.Lawful (counterMergeOperator.merge k) where
  none_merge x := by simp [counterMergeOperator]
  assoc a x y := by simp [counterMergeOperator, Nat.add_assoc]

/-! ### The tracker -/

theorem mergeOptions_min_of_eq_or_none {x y : Option Int} (h : x = y ∨ x = none) :
    mergeOptions x y min = y := by
  rcases h with rfl | rfl
  · cases x <;> simp [mergeOptions]
  · cases y <;> simp [mergeOptions]

theorem MergeTracker.update_of_le {t : MergeTracker} {e : RowEntry K V} (h : e.seq ≤ t.seq) :
    t.update e = .ok ⟨mergeOptions t.maxCreateTs e.createTs max,
      mergeOptions t.minExpireTs e.expireTs min, t.seq⟩ := by
  simp [MergeTracker.update, Nat.not_lt.mpr h, Nat.max_eq_left h]

/-- Folding entries at or below the tracker's sequence number into it never
fails and keeps that sequence number; if they all expire at `y`, so does the
tracker afterwards. -/
theorem MergeTracker.foldlM_update :
    ∀ (l : List (RowEntry K V)) (t : MergeTracker), (∀ e ∈ l, e.seq ≤ t.seq) →
      ∃ t', l.foldlM (fun t e => t.update e) t = .ok t' ∧ t'.seq = t.seq ∧
        ∀ y, (∀ e ∈ l, e.expireTs = y) → (t.minExpireTs = y ∨ t.minExpireTs = none) →
          t'.minExpireTs = if l = [] then t.minExpireTs else y
  | [], t, _ => ⟨t, rfl, rfl, fun _ _ _ => by simp⟩
  | e :: l, t, hs => by
    obtain ⟨t', hfold, hseq, hexp⟩ := MergeTracker.foldlM_update l
      ⟨mergeOptions t.maxCreateTs e.createTs max, mergeOptions t.minExpireTs e.expireTs min, t.seq⟩
      (fun e' he' => hs e' (List.mem_cons_of_mem e he'))
    refine ⟨t', ?_, hseq, fun y hy ht => ?_⟩
    · rw [List.foldlM_cons, MergeTracker.update_of_le (hs e List.mem_cons_self)]
      exact hfold
    · have he : mergeOptions t.minExpireTs e.expireTs min = y := by
        rw [hy e List.mem_cons_self]
        exact mergeOptions_min_of_eq_or_none ht
      have := hexp y (fun e' he' => hy e' (List.mem_cons_of_mem e he')) (.inl he)
      split at this <;> simp_all

namespace MergeOperatorIterator

variable [DecidableEq K] (it : MergeOperatorIterator K V)

@[simp] theorem isMatchingEntry_eq_true {entry : RowEntry K V} {key : K} {firstExpireTs : Option Int} :
    it.isMatchingEntry entry key firstExpireTs = true ↔
      entry.key = key ∧ (it.mergeDifferentExpireTs = true ∨ firstExpireTs = entry.expireTs) := by
  simp [isMatchingEntry]

/-- A nonempty batch of operands at or below the tracker's sequence number
merges to the fold of its operands, oldest first. -/
theorem processBatch_spec (key : K) {batch : List (RowEntry K V)} {tracker : MergeTracker}
    (hb : batch ≠ []) (hm : ∀ e ∈ batch, e.value.isMerge = true)
    (hs : ∀ e ∈ batch, e.seq ≤ tracker.seq) :
    ∃ r t', it.processBatch key batch tracker = .ok (r, t') ∧
      MergeFold.foldl (it.mergeOperator.merge key) none (operandsOf batch).reverse = some r ∧
      t'.seq = tracker.seq ∧
      ∀ y, (∀ e ∈ batch, e.expireTs = y) → (tracker.minExpireTs = y ∨ tracker.minExpireTs = none) →
        t'.minExpireTs = y := by
  obtain ⟨t', hfold, hseq, hexp⟩ := MergeTracker.foldlM_update batch.reverse tracker
    (by simpa using hs)
  have hne : (operandsOf batch).reverse ≠ [] := by
    simpa using operandsOf_ne_nil hm hb
  obtain ⟨r, hr⟩ := Option.isSome_iff_exists.mp
    (MergeFold.foldl_isSome_of_ne_nil (it.mergeOperator.merge key) none hne)
  refine ⟨r, t', ?_, hr, hseq, fun y hy ht => by simpa [hb] using hexp y (by simpa using hy) ht⟩
  simp only [processBatch, hfold, MergeOperator.mergeBatch]
  rw [← operandsOf, operandsOf_reverse, hr]

section Loop

variable (key : K) (firstSeq : Nat) (firstExpireTs : Option Int)

/-- The invariant of the loop of `merge_with_older_entries`, for the operands
`consumed` so far, newest first. -/
structure RunInv (consumed : List (RowEntry K V)) (run : MergeRun K V) : Prop where
  batch_merge : ∀ e ∈ run.batch, e.value.isMerge = true
  batch_seq : ∀ e ∈ run.batch, e.seq ≤ firstSeq
  batch_expire : it.mergeDifferentExpireTs = false → ∀ e ∈ run.batch, e.expireTs = firstExpireTs
  tracker_seq : run.tracker.seq = firstSeq
  tracker_expire : it.mergeDifferentExpireTs = false →
    run.tracker.minExpireTs = if run.results = [] then none else firstExpireTs
  nonempty : consumed ≠ [] → run.batch ≠ [] ∨ run.results ≠ []
  fold : ∀ a, MergeFold.foldl (it.mergeOperator.merge key) a (operandsOf consumed).reverse =
    MergeFold.foldl (it.mergeOperator.merge key) a
      ((operandsOf run.batch).reverse ++ run.results.reverse)

theorem RunInv.init (tracker : MergeTracker) (h : tracker = ⟨none, none, firstSeq⟩) :
    RunInv it key firstSeq firstExpireTs [] ⟨[], [], tracker⟩ where
  batch_merge := by simp
  batch_seq := by simp
  batch_expire := by simp
  tracker_seq := by rw [h]
  tracker_expire := by simp [h]
  nonempty := by simp
  fold := by simp [operandsOf]

variable {it key firstSeq firstExpireTs}

/-- The tracker's expiry is the run's while the loop goes on. -/
theorem RunInv.tracker_expire_cases {consumed : List (RowEntry K V)} {run : MergeRun K V}
    (h : RunInv it key firstSeq firstExpireTs consumed run) (hd : it.mergeDifferentExpireTs = false) :
    run.tracker.minExpireTs = firstExpireTs ∨ run.tracker.minExpireTs = none := by
  rw [h.tracker_expire hd]
  split <;> simp

/-- The fold after one more operand joins the pending batch. -/
theorem RunInv.fold_push {consumed : List (RowEntry K V)} {run : MergeRun K V}
    (h : RunInv it key firstSeq firstExpireTs consumed run) {e : RowEntry K V} {x : V}
    (hx : e.value = .merge x) (a : Option V) :
    MergeFold.foldl (it.mergeOperator.merge key) a (operandsOf (consumed ++ [e])).reverse =
      MergeFold.foldl (it.mergeOperator.merge key) a
        ((operandsOf (run.batch ++ [e])).reverse ++ run.results.reverse) := by
  rw [operandsOf_append_merge hx, operandsOf_append_merge hx, List.cons_append,
    MergeFold.foldl_cons, MergeFold.foldl_cons, h.fold]

theorem RunInv.push {consumed : List (RowEntry K V)} {run : MergeRun K V}
    (h : RunInv it key firstSeq firstExpireTs consumed run) {e : RowEntry K V}
    (hm : e.value.isMerge = true) (hs : e.seq ≤ firstSeq)
    (hy : it.mergeDifferentExpireTs = false → e.expireTs = firstExpireTs) :
    RunInv it key firstSeq firstExpireTs (consumed ++ [e]) { run with batch := run.batch ++ [e] } where
  batch_merge := List.forall_mem_append.mpr ⟨h.batch_merge, List.forall_mem_singleton.mpr hm⟩
  batch_seq := List.forall_mem_append.mpr ⟨h.batch_seq, List.forall_mem_singleton.mpr hs⟩
  batch_expire := fun hd =>
    List.forall_mem_append.mpr ⟨h.batch_expire hd, List.forall_mem_singleton.mpr (hy hd)⟩
  tracker_seq := h.tracker_seq
  tracker_expire := h.tracker_expire
  nonempty := fun _ => .inl (by simp)
  fold := by
    obtain ⟨x, hx⟩ := ValueDeletable.isMerge_eq_true.mp hm
    exact h.fold_push hx

theorem RunInv.flush {consumed : List (RowEntry K V)} {run : MergeRun K V}
    (hf : MergeFold.Lawful (it.mergeOperator.merge key))
    (h : RunInv it key firstSeq firstExpireTs consumed run) {e : RowEntry K V}
    (hm : e.value.isMerge = true) {r : V} {t' : MergeTracker}
    (hr : MergeFold.foldl (it.mergeOperator.merge key) none
      (operandsOf (run.batch ++ [e])).reverse = some r)
    (hseq : t'.seq = run.tracker.seq)
    (hexp : it.mergeDifferentExpireTs = false → t'.minExpireTs = firstExpireTs) :
    RunInv it key firstSeq firstExpireTs (consumed ++ [e]) ⟨[], run.results ++ [r], t'⟩ where
  batch_merge := by simp
  batch_seq := by simp
  batch_expire := by simp
  tracker_seq := hseq.trans h.tracker_seq
  tracker_expire := fun hd => by simp [hexp hd]
  nonempty := fun _ => .inr (by simp)
  fold := fun a => by
    obtain ⟨x, hx⟩ := ValueDeletable.isMerge_eq_true.mp hm
    rw [h.fold_push hx, MergeFold.foldl_append_of_foldl_none hf a hr]
    simp [operandsOf]

/-- The loop consumes matching merge operands, then stops at the end of the
stream, at an entry that does not match or at a base, which it consumes. -/
theorem collectOperands_spec (hf : MergeFold.Lawful (it.mergeOperator.merge key)) :
    ∀ (l : List (RowEntry K V)) (run : MergeRun K V) (consumed : List (RowEntry K V)),
      RunInv it key firstSeq firstExpireTs consumed run →
      (∀ e ∈ l, it.isMatchingEntry e key firstExpireTs = true → e.seq ≤ firstSeq) →
      ∃ ops base run' rest,
        it.collectOperands key firstExpireTs l run = .ok (base, run', rest) ∧
        l = ops ++ base.toList ++ rest ∧
        (∀ e ∈ ops, it.isMatchingEntry e key firstExpireTs = true ∧ e.value.isMerge = true) ∧
        (∀ b ∈ base, it.isMatchingEntry b key firstExpireTs = true ∧ b.value.isMerge = false) ∧
        (base = none → ∀ e ∈ rest.head?, it.isMatchingEntry e key firstExpireTs = false) ∧
        RunInv it key firstSeq firstExpireTs (consumed ++ ops) run'
  | [], run, consumed, h, _ =>
    ⟨[], none, run, [], rfl, rfl, by simp, by simp, by simp, by simpa using h⟩
  | e :: l, run, consumed, h, hl => by
    by_cases hmatch : it.isMatchingEntry e key firstExpireTs = true
    case neg =>
      have hstop : ∀ e' ∈ (e :: l).head?, it.isMatchingEntry e' key firstExpireTs = false :=
        fun e' he' => by
          simp only [List.head?_cons, Option.mem_def, Option.some.injEq] at he'
          subst he'
          exact Bool.eq_false_iff.mpr hmatch
      refine ⟨[], none, run, e :: l, ?_, rfl, by simp, by simp, fun _ => hstop, by simpa using h⟩
      simp [collectOperands, hmatch]
    case pos =>
    have hs : e.seq ≤ firstSeq := hl e List.mem_cons_self hmatch
    have hl' : ∀ e' ∈ l, it.isMatchingEntry e' key firstExpireTs = true → e'.seq ≤ firstSeq :=
      fun e' he' => hl e' (List.mem_cons_of_mem e he')
    have hy : it.mergeDifferentExpireTs = false → e.expireTs = firstExpireTs := fun hd => by
      simp only [isMatchingEntry_eq_true, hd, Bool.false_eq_true, false_or] at hmatch
      exact hmatch.2.symm
    cases hm : e.value.isMerge
    case false =>
      have hbase : ∀ b ∈ some e, it.isMatchingEntry b key firstExpireTs = true ∧
          b.value.isMerge = false := fun b hb => by
        rw [Option.mem_def, Option.some.injEq] at hb
        subst hb
        exact ⟨hmatch, hm⟩
      refine ⟨[], some e, run, l, ?_, rfl, by simp, hbase, by simp, by simpa using h⟩
      simp [collectOperands, hmatch, hm]
    case true =>
    -- the operand joins the batch, which is merged on its own once full
    by_cases hfull : mergeBatchSize ≤ (run.batch ++ [e]).length
    case pos =>
      have hb : ∀ e' ∈ run.batch ++ [e], e'.value.isMerge = true :=
        List.forall_mem_append.mpr ⟨h.batch_merge, List.forall_mem_singleton.mpr hm⟩
      have hbs : ∀ e' ∈ run.batch ++ [e], e'.seq ≤ run.tracker.seq := by
        rw [h.tracker_seq]
        exact List.forall_mem_append.mpr ⟨h.batch_seq, List.forall_mem_singleton.mpr hs⟩
      obtain ⟨r, t', hproc, hr, hseq, hexp⟩ := it.processBatch_spec key (by simp) hb hbs
      have hexp' : it.mergeDifferentExpireTs = false → t'.minExpireTs = firstExpireTs := fun hd =>
        hexp _ (List.forall_mem_append.mpr ⟨h.batch_expire hd, List.forall_mem_singleton.mpr (hy hd)⟩)
          (h.tracker_expire_cases hd)
      obtain ⟨ops, base, run', rest, hc, rfl, hops, hbase, hstop, hinv⟩ :=
        collectOperands_spec hf l _ _ (h.flush hf hm hr hseq hexp') hl'
      refine ⟨e :: ops, base, run', rest, ?_, rfl, ?_, hbase, hstop, by simpa using hinv⟩
      · simp only [collectOperands, hmatch, hm, Bool.not_true, Bool.false_eq_true,
          if_false, if_pos hfull, hproc]
        exact hc
      · exact List.forall_mem_cons.mpr ⟨⟨hmatch, hm⟩, hops⟩
    case neg =>
      obtain ⟨ops, base, run', rest, hc, rfl, hops, hbase, hstop, hinv⟩ :=
        collectOperands_spec hf l _ _ (h.push hm hs hy) hl'
      refine ⟨e :: ops, base, run', rest, ?_, rfl, ?_, hbase, hstop, by simpa using hinv⟩
      · simp only [collectOperands, hmatch, hm, Bool.not_true, Bool.false_eq_true,
          if_false, if_neg hfull]
        exact hc
      · exact List.forall_mem_cons.mpr ⟨⟨hmatch, hm⟩, hops⟩

/-- After the loop the leftover batch is merged; the results then fold to
every operand of the run. -/
theorem finishBatch_spec (hf : MergeFold.Lawful (it.mergeOperator.merge key))
    {consumed : List (RowEntry K V)} {run : MergeRun K V}
    (h : RunInv it key firstSeq firstExpireTs consumed run) :
    ∃ results t', it.finishBatch key run = .ok (results, t') ∧ t'.seq = firstSeq ∧
      (it.mergeDifferentExpireTs = false →
        t'.minExpireTs = if results = [] then none else firstExpireTs) ∧
      (consumed ≠ [] → results ≠ []) ∧
      ∀ a, MergeFold.foldl (it.mergeOperator.merge key) a (operandsOf consumed).reverse =
        MergeFold.foldl (it.mergeOperator.merge key) a results.reverse := by
  by_cases hb : run.batch = []
  case pos =>
    refine ⟨run.results, run.tracker, by simp [finishBatch, hb], h.tracker_seq, h.tracker_expire,
      fun hc => ?_, fun a => ?_⟩
    · simpa [hb] using h.nonempty hc
    · simpa [hb, operandsOf] using h.fold a
  case neg =>
    obtain ⟨r, t', hproc, hr, hseq, hexp⟩ :=
      it.processBatch_spec key hb h.batch_merge (by rw [h.tracker_seq]; exact h.batch_seq)
    refine ⟨run.results ++ [r], t', ?_, hseq.trans h.tracker_seq, fun hd => ?_, fun _ => by simp,
      fun a => ?_⟩
    · simp [finishBatch, hb, hproc]
    · simpa using hexp _ (h.batch_expire hd) (h.tracker_expire_cases hd)
    · rw [h.fold a, MergeFold.foldl_append_of_foldl_none hf a hr]
      simp

end Loop

/-- `merge_with_older_entries` from a merge operand: it consumes the operands
of the run and its base, if any, and returns one entry, with the operand's key
and sequence number, that reads as all of them. -/
theorem mergeWithOlderEntries_spec {first : RowEntry K V} {rest : List (RowEntry K V)}
    (hf : MergeFold.Lawful (it.mergeOperator.merge first.key)) (hfm : first.value.isMerge = true)
    (hseq : ∀ e ∈ rest, it.isMatchingEntry e first.key first.expireTs = true → e.seq ≤ first.seq) :
    ∃ (ops : List (RowEntry K V)) (base : Option (RowEntry K V)) (rest' : List (RowEntry K V))
      (o : RowEntry K V), it.mergeWithOlderEntries first rest = .ok (some o, rest') ∧
      first :: rest = ops ++ base.toList ++ rest' ∧ ops ≠ [] ∧
      (∀ e ∈ ops, it.isMatchingEntry e first.key first.expireTs = true ∧ e.value.isMerge = true) ∧
      (∀ b ∈ base, it.isMatchingEntry b first.key first.expireTs = true ∧ b.value.isMerge = false) ∧
      (base = none → ∀ e ∈ rest'.head?, it.isMatchingEntry e first.key first.expireTs = false) ∧
      o.key = first.key ∧ o.seq = first.seq ∧ o.value.isMerge = base.isNone ∧
      o.value.isTombstone = false ∧ (it.mergeDifferentExpireTs = false → o.expireTs = first.expireTs) ∧
      ∀ r, applyVersions (it.mergeOperator.merge first.key) ((ops ++ base.toList).map (·.value)) r =
        applyVersions (it.mergeOperator.merge first.key) [o.value] r := by
  have hl : ∀ e ∈ first :: rest,
      it.isMatchingEntry e first.key first.expireTs = true → e.seq ≤ first.seq := by
    intro e he hm
    rcases List.mem_cons.mp he with rfl | he
    · exact Nat.le_refl _
    · exact hseq e he hm
  obtain ⟨ops, base, run, rest', hc, hsplit, hops, hbase, hstop, hinv⟩ :=
    it.collectOperands_spec hf (first :: rest) _ []
      (RunInv.init it first.key first.seq first.expireTs _ rfl) hl
  -- the run's first operand matches itself, so the loop consumes it
  have hops_ne : ops ≠ [] := by
    rintro rfl
    cases base with
    | none =>
      simp only [List.nil_append, Option.toList_none] at hsplit
      have := hstop rfl first (by rw [← hsplit]; rfl)
      rw [isMatchingEntry_self] at this
      cases this
    | some b =>
      simp only [List.nil_append, Option.toList_some, List.cons_append, List.cons.injEq] at hsplit
      have := (hbase b rfl).2
      rw [← hsplit.1, hfm] at this
      cases this
  obtain ⟨results, t', hfin, htseq, htexp, hres_ne, hfold⟩ := it.finishBatch_spec hf hinv
  have hres : results ≠ [] := hres_ne (by simpa using hops_ne)
  have hbase_mem : ∀ b ∈ base, b ∈ first :: rest := fun b hb => by
    rw [hsplit]
    simp [Option.mem_def.mp hb]
  -- the base's expiry and sequence number join the tracker's
  obtain ⟨t'', hupd, hseq'', hexp''⟩ : ∃ t'',
      base.elim (.ok t') t'.update = .ok t'' ∧ t''.seq = first.seq ∧
      (it.mergeDifferentExpireTs = false → t''.minExpireTs = first.expireTs) := by
    cases base with
    | none => exact ⟨t', rfl, htseq, fun hd => by simpa [hres] using htexp hd⟩
    | some b =>
      have hb := hbase b rfl
      have hbs : b.seq ≤ t'.seq := htseq ▸ hl b (hbase_mem b rfl) hb.1
      refine ⟨_, MergeTracker.update_of_le hbs, htseq, fun hd => ?_⟩
      have hbe : b.expireTs = first.expireTs := by
        have := hb.1
        simp only [isMatchingEntry_eq_true, hd, Bool.false_eq_true, false_or] at this
        exact this.2.symm
      show mergeOptions t'.minExpireTs b.expireTs min = first.expireTs
      rw [hbe]
      exact mergeOptions_min_of_eq_or_none (.inl (by simpa [hres] using htexp hd))
  have hres' : results.reverse ≠ [] := List.reverse_ne_nil_iff.mpr hres
  obtain ⟨final, hfinal⟩ := Option.isSome_iff_exists.mp
    (MergeFold.foldl_isSome_of_ne_nil (it.mergeOperator.merge first.key)
      (base.bind (·.value.asBytes)) hres')
  refine ⟨ops, base, rest', ⟨first.key, if base.isSome then .value final else .merge final,
    t''.seq, t''.maxCreateTs, t''.minExpireTs⟩, ?_, hsplit, hops_ne, hops, hbase, hstop, rfl, hseq'',
    ?_, ?_, hexp'', fun r => ?_⟩
  · have hempty : (results.isEmpty && (base.bind (·.value.asBytes)).isNone) = false := by
      simp [hres]
    have hbatch : it.mergeOperator.mergeBatch first.key (base.bind (·.value.asBytes))
        results.reverse = .ok final := by
      simp [MergeOperator.mergeBatch, hfinal]
    cases base with
    | none =>
      simp only [Option.elim_none, Except.ok.injEq] at hupd
      subst hupd
      simp only [mergeWithOlderEntries, hc, hfin, hempty, hbatch, Bool.false_eq_true, if_false]
    | some b =>
      simp only [Option.elim_some] at hupd
      simp only [mergeWithOlderEntries, hc, hfin, hupd, hempty, hbatch, Bool.false_eq_true,
        if_false]
  · cases base <;> rfl
  · cases base <;> rfl
  · -- the run reads as the fold of its operands onto its base
    have hfold' := hfold
    simp only [List.nil_append] at hfold'
    rw [List.map_append, map_value_of_merges (fun e he => (hops e he).2), applyVersions_append,
      applyVersions_merges]
    cases base with
    | none =>
      simp only [Option.bind_none] at hfinal
      simp only [Option.toList_none, List.map_nil, applyVersions_nil, hfold' r,
        MergeFold.foldl_eq_map_foldl_none hf r hres', hfinal]
      rfl
    | some b =>
      simp only [Option.bind_some] at hfinal
      simp only [Option.toList_some, List.map_cons, List.map_nil,
        applyVersions_base _ (hbase b rfl).2, hfold', hfinal]
      rfl

/-- One call of `next` that merged a run into one entry: the run is at or
below the snapshot barrier, made of merge operands and at most one base, and,
with `merge_different_expire_ts` unset, all of it expires with the entry. -/
structure MergedRun (chunk : List (RowEntry K V)) (o : RowEntry K V) : Prop where
  below_barrier : ∀ b, it.snapshotBarrierSeq = some b → o.seq ≤ b
  shape : ∃ ops base, chunk = ops ++ Option.toList base ∧ (∀ e ∈ ops, e.value.isMerge = true) ∧
    (∀ b ∈ base, b.value.isMerge = false) ∧ o.value.isMerge = base.isNone
  expire_eq : it.mergeDifferentExpireTs = false → ∀ e ∈ chunk, e.expireTs = o.expireTs

/-- One call of `next` consumed `chunk` and returned `o`. -/
structure NextChunk (chunk : List (RowEntry K V)) (o : RowEntry K V) : Prop where
  keySeq_head : ∃ e rest, chunk = e :: rest ∧ keySeq e = keySeq o
  key_eq : ∀ e ∈ chunk, e.key = o.key
  seq_le : ∀ e ∈ chunk, e.seq ≤ o.seq
  reads : ∀ r, applyVersions (it.mergeOperator.merge o.key) (chunk.map (·.value)) r =
    applyVersions (it.mergeOperator.merge o.key) [o.value] r
  single_or_merged : chunk = [o] ∨ it.MergedRun chunk o

theorem NextChunk.single (e : RowEntry K V) : it.NextChunk [e] e where
  keySeq_head := ⟨e, [], rfl, rfl⟩
  key_eq := by simp
  seq_le := by simp
  reads := fun _ => rfl
  single_or_merged := .inl rfl

variable {it} in
/-- Expiry treats a chunk and the entry it became alike, for a read that sees
the whole chunk. -/
theorem NextChunk.reads_expire {chunk : List (RowEntry K V)} {o : RowEntry K V}
    (h : it.NextChunk chunk o) (hd : it.mergeDifferentExpireTs = false) (T : Int) {k : K} {s : Nat}
    (hvis : o.key = k → chunk ≠ [o] → o.seq ≤ s) (r : Option V) :
    applyVersions (it.mergeOperator.merge k) (visible k s (expire T chunk)) r =
      applyVersions (it.mergeOperator.merge k) (visible k s (expire T [o])) r := by
  by_cases hsingle : chunk = [o]
  · rw [hsingle]
  obtain ⟨hbar, ⟨ops, base, hshape, hops, hbase, hmerge⟩, hexp⟩ :=
    h.single_or_merged.resolve_left hsingle
  have hkeys : ∀ e ∈ expire T chunk ++ expire T [o], keySeq e = keySeq o ∨
      ∃ e₀ ∈ chunk, keySeq e₀ = keySeq e := fun e he => by
    rcases List.mem_append.mp he with he | he
    · exact .inr (mem_expire he)
    · obtain ⟨e₀, he₀, hks⟩ := mem_expire he
      rw [List.mem_singleton.mp he₀] at hks
      exact .inl hks.symm
  by_cases hk : o.key = k
  case neg =>
    have hne : ∀ e ∈ expire T chunk ++ expire T [o], e.key ≠ k := fun e he => by
      rcases hkeys e he with hks | ⟨e₀, he₀, hks⟩
      · rw [show e.key = o.key from congrArg Prod.fst hks]
        exact hk
      · rw [← show e₀.key = e.key from congrArg Prod.fst hks, h.key_eq e₀ he₀]
        exact hk
    rw [visible_of_key_ne s (fun e he => hne e (List.mem_append_left _ he)),
      visible_of_key_ne s (fun e he => hne e (List.mem_append_right _ he))]
  case pos =>
    subst hk
    have hs := hvis rfl hsingle
    have hin : ∀ e ∈ expire T chunk ++ expire T [o], e.key = o.key ∧ e.seq ≤ s := fun e he => by
      rcases hkeys e he with hks | ⟨e₀, he₀, hks⟩
      · simp only [keySeq, Prod.mk.injEq] at hks
        exact ⟨hks.1, hks.2 ▸ hs⟩
      · simp only [keySeq, Prod.mk.injEq] at hks
        exact ⟨hks.1 ▸ h.key_eq e₀ he₀, hks.2 ▸ Nat.le_trans (h.seq_le e₀ he₀) hs⟩
    rw [visible_of_forall (fun e he => hin e (List.mem_append_left _ he)),
      visible_of_forall (fun e he => hin e (List.mem_append_right _ he))]
    by_cases hexpired : ∃ t, o.expireTs = some t ∧ t ≤ T
    case pos =>
      -- the whole run expired: its operands go, its base and the entry become tombstones
      obtain ⟨t, ht, hT⟩ := hexpired
      have hchunk : ∀ e ∈ chunk, e.expireTs = some t := fun e he => (hexp hd e he).trans ht
      have hops_gone : expire T ops = [] := expire_of_expired_merges
        (fun e he => ⟨hops e he, hchunk e (by rw [hshape]; exact List.mem_append_left _ he)⟩) hT
      rw [hshape, expire_append, hops_gone, List.nil_append]
      cases base with
      | none =>
        simp only [Option.isNone_none] at hmerge
        simp [expire, expireAt_of_expired ht hT, hmerge]
      | some b =>
        simp only [Option.isNone_some] at hmerge
        have hb : b.expireTs = some t := hchunk b (by rw [hshape]; simp)
        simp [expire, expireAt_of_expired ht hT, expireAt_of_expired hb hT, hmerge,
          hbase b rfl]
    case neg =>
      have hlive : ∀ e ∈ chunk ++ [o], ∀ t, e.expireTs = some t → T < t := fun e he t ht => by
        have heo : e.expireTs = o.expireTs := by
          rcases List.mem_append.mp he with he | he
          · exact hexp hd e he
          · rw [List.mem_singleton.mp he]
        exact Int.lt_of_not_ge (fun hle => hexpired ⟨t, heo ▸ ht, hle⟩)
      rw [expire_of_not_expired (fun e he => hlive e (List.mem_append_left _ he)),
        expire_of_not_expired (fun e he => hlive e (List.mem_append_right _ he))]
      exact h.reads r


end MergeOperatorIterator

/-! ### What a drain that succeeds keeps

On any input, sorted or not, a call of `next` that succeeds returns an entry
with the key and sequence number of the first entry it consumed, and leaves a
suffix of what followed. So every drain that succeeds keeps a sublist of the
keys and sequence numbers of its input; a batch's rows, which share one
sequence number, are such an input.
-/

namespace MergeOperatorIterator

variable [DecidableEq K] (it : MergeOperatorIterator K V)

theorem next_nil : it.next ([] : List (RowEntry K V)) = .ok (none, []) := rfl

theorem next_of_step_emit {l rest : List (RowEntry K V)} {o : RowEntry K V}
    (h : it.machine.step l = .emit o rest) : it.next l = .ok (some o, rest) := by
  simp only [machine, step] at h
  split at h
  · cases h
    assumption
  all_goals cases h

theorem next_of_step_done {l : List (RowEntry K V)} (h : it.machine.step l = .done) :
    ∃ rest, it.next l = .ok (none, rest) := by
  simp only [machine, step] at h
  split at h
  · cases h
  · exact ⟨_, by assumption⟩
  · cases h

theorem next_of_step_fail {l : List (RowEntry K V)} {e : SlateDBError}
    (h : it.machine.step l = .fail e) : it.next l = .error e := by
  simp only [machine, step] at h
  split at h
  · cases h
  · cases h
  · cases h
    assumption

theorem mergeWithOlderEntries_keySeq {first o : RowEntry K V} {l rest : List (RowEntry K V)}
    (h : it.mergeWithOlderEntries first l = .ok (some o, rest)) :
    keySeq o = keySeq first ∧ rest <:+ l := by
  have hrest := it.mergeWithOlderEntries_suffix h
  simp only [mergeWithOlderEntries] at h
  split at h
  · cases h
  rename_i base run rest' hc
  obtain ⟨hseq, -⟩ := it.collectOperands_ok hc
  split at h
  · cases h
  rename_i results t hfin
  have htseq := it.finishBatch_seq hfin
  split at h
  · cases h
  rename_i t' hupd
  -- the base, if any, joins the tracker without moving its sequence number
  have ht'seq : t'.seq = t.seq := by
    cases base with
    | none =>
      simp only [Except.ok.injEq] at hupd
      rw [hupd]
    | some b => exact MergeTracker.update_seq hupd
  split at h
  · cases h
  split at h
  · cases h
  simp only [Except.ok.injEq, Prod.mk.injEq, Option.some.injEq] at h
  obtain ⟨rfl, rfl⟩ := h
  exact ⟨by simp [keySeq, ht'seq, htseq, hseq], hrest⟩

theorem next_keySeq {l rest : List (RowEntry K V)} {o : RowEntry K V}
    (h : it.next l = .ok (some o, rest)) :
    ∃ e l', l = e :: l' ∧ keySeq o = keySeq e ∧ rest <:+ l' := by
  cases l with
  | nil => simp [next] at h
  | cons e l =>
    refine ⟨e, l, rfl, ?_⟩
    simp only [next] at h
    -- an entry passed on unchanged, or a merged run
    have hpass : ∀ {o' rest'}, (Except.ok (some e, l) : Except SlateDBError _) =
        .ok (some o', rest') → keySeq o' = keySeq e ∧ rest' <:+ l := fun h' => by
      simp only [Except.ok.injEq, Prod.mk.injEq, Option.some.injEq] at h'
      obtain ⟨rfl, rfl⟩ := h'
      exact ⟨rfl, List.suffix_refl _⟩
    split at h
    · split at h
      · split at h
        · exact hpass h
        · exact it.mergeWithOlderEntries_keySeq h
      · exact it.mergeWithOlderEntries_keySeq h
    · exact hpass h

theorem drain_keySeq_sublist {l out : List (RowEntry K V)} (h : it.drain l = .ok out) :
    (out.map keySeq).Sublist (l.map keySeq) := by
  refine Machine.run_ok_spec (fun _ => True)
    (fun l out => (out.map keySeq).Sublist (l.map keySeq)) ?emit ?skip ?done l trivial out h
  case emit =>
    intro l o rest _ hstep
    obtain ⟨e, l', rfl, hks, hsuf⟩ := it.next_keySeq (it.next_of_step_emit hstep)
    refine ⟨trivial, fun out hout => ?_⟩
    rw [List.map_cons, List.map_cons, hks]
    exact (hout.trans (hsuf.sublist.map keySeq)).cons_cons _
  case skip =>
    intro l l' _ hstep
    simp only [machine, step] at hstep
    split at hstep <;> cases hstep
  case done =>
    intro l _ _
    exact List.nil_sublist _

end MergeOperatorIterator


namespace MergeOperatorIterator

variable [LinearOrder K] (it : MergeOperatorIterator K V)

/-- On a sorted stream `next` returns an entry for every nonempty input, and
what it consumed is a chunk of it. -/
theorem next_spec (hf : ∀ k, MergeFold.Lawful (it.mergeOperator.merge k)) {e : RowEntry K V}
    {l : List (RowEntry K V)} (hl : SortedStream (e :: l)) :
    ∃ chunk o rest, it.next (e :: l) = .ok (some o, rest) ∧ e :: l = chunk ++ rest ∧
      it.NextChunk chunk o := by
  have hseq : ∀ e' ∈ l, it.isMatchingEntry e' e.key e.expireTs = true → e'.seq ≤ e.seq :=
    fun e' he' hm => Nat.le_of_lt (hl.seq_lt he' ((isMatchingEntry_eq_true it).mp hm).1)
  -- a merge operand at or below the barrier starts a run
  have hmerged : e.value.isMerge = true → (∀ b, it.snapshotBarrierSeq = some b → e.seq ≤ b) →
      ∃ chunk o rest, it.mergeWithOlderEntries e l = .ok (some o, rest) ∧
        e :: l = chunk ++ rest ∧ it.NextChunk chunk o := by
    intro hm hbar
    obtain ⟨ops, base, rest, o, hmw, hsplit, hne, hops, hbase, -, hkey, hseqo, hmergeo, -, hexpo,
      hreads⟩ := it.mergeWithOlderEntries_spec (hf e.key) hm hseq
    refine ⟨ops ++ base.toList, o, rest, hmw, by rw [hsplit, List.append_assoc], ?_⟩
    have hmem : ∀ x ∈ ops ++ base.toList,
        x ∈ e :: l ∧ it.isMatchingEntry x e.key e.expireTs = true := fun x hx => by
      refine ⟨by rw [hsplit]; exact List.mem_append_left _ hx, ?_⟩
      rcases List.mem_append.mp hx with hx | hx
      · exact (hops x hx).1
      · exact (hbase x (Option.mem_toList.mp hx)).1
    have hkey' : ∀ x ∈ ops ++ base.toList, x.key = e.key := fun x hx =>
      ((isMatchingEntry_eq_true it).mp (hmem x hx).2).1
    have hseq' : ∀ x ∈ ops ++ base.toList, x.seq ≤ e.seq := fun x hx => by
      rcases List.mem_cons.mp (hmem x hx).1 with rfl | hxl
      · exact Nat.le_refl _
      · exact hseq x hxl (hmem x hx).2
    obtain ⟨x, ops', rfl⟩ := List.exists_cons_of_ne_nil hne
    have hx : x = e := (List.cons.inj hsplit).1.symm
    subst hx
    exact {
      keySeq_head := ⟨x, ops' ++ base.toList, rfl, by simp [keySeq, hkey, hseqo]⟩
      key_eq := fun y hy => (hkey' y hy).trans hkey.symm
      seq_le := fun y hy => hseqo ▸ hseq' y hy
      reads := hkey ▸ hreads
      single_or_merged := .inr {
        below_barrier := hseqo ▸ hbar
        shape := ⟨x :: ops', base, rfl, fun y hy => (hops y hy).2, fun b hb => (hbase b hb).2,
          hmergeo⟩
        expire_eq := fun hd y hy => by
          have := ((isMatchingEntry_eq_true it).mp (hmem y hy).2).2
          simp only [hd, Bool.false_eq_true, false_or] at this
          rw [← this, hexpo hd] } }
  cases hv : e.value with
  | merge v =>
    have hm : e.value.isMerge = true := by rw [hv]; rfl
    cases hb : it.snapshotBarrierSeq with
    | none =>
      obtain ⟨chunk, o, rest, hmw, hsplit, hchunk⟩ := hmerged hm (by simp [hb])
      exact ⟨chunk, o, rest, by simp [next, hv, hb, hmw], hsplit, hchunk⟩
    | some b =>
      by_cases hlt : b < e.seq
      case pos =>
        exact ⟨[e], e, l, by simp [next, hv, hb, hlt], rfl, NextChunk.single it e⟩
      case neg =>
        obtain ⟨chunk, o, rest, hmw, hsplit, hchunk⟩ :=
          hmerged hm (fun b' hb' => by rw [hb] at hb'; cases hb'; exact Nat.le_of_not_lt hlt)
        exact ⟨chunk, o, rest, by simp [next, hv, hb, hlt, hmw], hsplit, hchunk⟩
  | value v => exact ⟨[e], e, l, by simp [next, hv], rfl, NextChunk.single it e⟩
  | tombstone => exact ⟨[e], e, l, by simp [next, hv], rfl, NextChunk.single it e⟩

/-- The merge operator iterator drains a sorted stream without failing; what
it returns has the keys and sequence numbers of a sublist of its input and,
with `merge_different_expire_ts` unset, reads like its input after expiry for
every read that the snapshot barrier protects. -/
theorem drain_spec (hf : ∀ k, MergeFold.Lawful (it.mergeOperator.merge k))
    (l : List (RowEntry K V)) (hl : SortedStream l) :
    ∃ out, it.drain l = .ok out ∧ (out.map keySeq).Sublist (l.map keySeq) ∧
      (it.mergeDifferentExpireTs = false → ∀ T k s, ProtectedRead it.snapshotBarrierSeq l k s →
        ∀ r, applyVersions (it.mergeOperator.merge k) (visible k s (expire T out)) r =
          applyVersions (it.mergeOperator.merge k) (visible k s (expire T l)) r) := by
  -- the keys and sequence numbers hold of every drain that succeeds; the run
  -- rule adds that the drain succeeds and keeps every protected read
  suffices h : ∃ out, it.drain l = .ok out ∧
      (it.mergeDifferentExpireTs = false → ∀ T k s, ProtectedRead it.snapshotBarrierSeq l k s →
        ∀ r, applyVersions (it.mergeOperator.merge k) (visible k s (expire T out)) r =
          applyVersions (it.mergeOperator.merge k) (visible k s (expire T l)) r) by
    obtain ⟨out, hrun, hreads⟩ := h
    exact ⟨out, hrun, it.drain_keySeq_sublist hrun, hreads⟩
  refine Machine.run_spec SortedStream (fun l out =>
      it.mergeDifferentExpireTs = false → ∀ T k s, ProtectedRead it.snapshotBarrierSeq l k s →
        ∀ r, applyVersions (it.mergeOperator.merge k) (visible k s (expire T out)) r =
          applyVersions (it.mergeOperator.merge k) (visible k s (expire T l)) r)
    ?emit ?skip ?done ?fail l hl
  case emit =>
    intro l o rest hl hstep
    have hn := it.next_of_step_emit hstep
    cases l with
    | nil => simp [next_nil] at hn
    | cons e l =>
    obtain ⟨chunk, o', rest', hnext, hsplit, hchunk⟩ := it.next_spec hf hl
    rw [hnext] at hn
    simp only [Except.ok.injEq, Prod.mk.injEq, Option.some.injEq] at hn
    obtain ⟨rfl, rfl⟩ := hn
    refine ⟨by rw [hsplit] at hl; exact (List.pairwise_append.mp hl).2.1, ?_⟩
    intro out hreads hd T k s hprot r
    obtain ⟨x, xs, hx, hks⟩ := hchunk.keySeq_head
    have hprot_rest : ProtectedRead it.snapshotBarrierSeq rest' k s :=
      hprot.mono (fun e he => ⟨e, by rw [hsplit]; exact List.mem_append_right _ he, rfl⟩)
    -- a merged run is visible to every protected read of its key
    have hvis : o'.key = k → chunk ≠ [o'] → o'.seq ≤ s := fun hk hne => by
      have hm := hchunk.single_or_merged.resolve_left hne
      cases hb : it.snapshotBarrierSeq with
      | none =>
        rw [hb] at hprot
        have hxl : x ∈ e :: l := by rw [hsplit, hx]; simp
        have hxs : x.seq = o'.seq := congrArg Prod.snd hks
        have hxk : x.key = o'.key := congrArg Prod.fst hks
        exact hxs ▸ hprot x hxl (hxk.trans hk)
      | some b =>
        rw [hb] at hprot
        exact Nat.le_trans (hm.below_barrier b hb) hprot
    rw [show o' :: out = [o'] ++ out from rfl, expire_append, visible_append,
      applyVersions_append, hreads hd T k s hprot_rest r, ← hchunk.reads_expire hd T hvis,
      ← applyVersions_append, ← visible_append, ← expire_append, ← hsplit]
  case skip =>
    intro l l' _ hstep
    simp only [machine, step] at hstep
    split at hstep <;> cases hstep
  case done =>
    intro l hl hstep
    obtain ⟨rest, hn⟩ := it.next_of_step_done hstep
    cases l with
    | nil => exact fun _ _ _ _ _ _ => rfl
    | cons e l =>
      obtain ⟨chunk, o, rest', hnext, -, -⟩ := it.next_spec hf hl
      rw [hnext] at hn
      simp at hn
  case fail =>
    intro l err hl hstep
    have hn := it.next_of_step_fail hstep
    cases l with
    | nil => simp [next_nil] at hn
    | cons e l =>
      obtain ⟨chunk, o, rest', hnext, -, -⟩ := it.next_spec hf hl
      rw [hnext] at hn
      cases hn

end MergeOperatorIterator

end SlateDb
