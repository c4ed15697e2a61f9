import SlateDb.RetentionIterator
import SlateDb.Resolution

/-!
# What the retention iterator computes

On a sorted upstream the buffer state machine of `RetentionIterator::next`
applies the retention filter to each maximal run of versions of one key, in
order: `drain_eq` says that draining it gives `filterKeyRuns` of the filter,
where `filterKeyRuns` groups a stream by key as `RetentionBuffer::push` does.
The proof is by the run rule with the abstraction `remaining`, the entries a
buffer state still owes, and the invariant `BufferInv`, which also rules out
the `unreachable!` of `pop`.

Seen one key at a time, `filterKeyRuns` is the filter applied to that key's
versions (`filter_filterKeyRuns`). Without a retention timeout, the filter keeps
the versions after expiry down to the first value or tombstone at or below the
retention bound, and the tombstones it trims are the oldest ones; neither
changes a read the bound protects (`resolve_applyRetentionFilter`).
-/

set_option linter.unusedSectionVars false

namespace SlateDb

variable {K V : Type}

section Runs

variable [DecidableEq K] (f : List (RowEntry K V) → List (RowEntry K V))

/-- `f` applied to each maximal run of entries of one key, where `cur` is the
run collected so far. -/
def filterKeyRuns : List (RowEntry K V) → List (RowEntry K V) → List (RowEntry K V)
  | cur, [] => f cur
  | [], e :: es => filterKeyRuns [e] es
  | c :: cs, e :: es =>
    if e.key = c.key then filterKeyRuns (c :: cs ++ [e]) es
    else f (c :: cs) ++ filterKeyRuns [e] es

@[simp] theorem filterKeyRuns_nil (cur : List (RowEntry K V)) : filterKeyRuns f cur [] = f cur := by
  cases cur <;> rfl

end Runs

/-- Inserting a version older than every version held appends it. -/
theorem insertVersion_of_lt {entry : RowEntry K V} :
    ∀ {versions : List (RowEntry K V)}, (∀ v ∈ versions, entry.seq < v.seq) →
      insertVersion entry versions = versions ++ [entry]
  | [], _ => rfl
  | v :: vs, h => by
    have hv := h v List.mem_cons_self
    simp only [insertVersion, Nat.not_lt.mpr (Nat.le_of_lt hv), Nat.ne_of_gt hv, if_false,
      List.cons_append]
    rw [insertVersion_of_lt (fun v' hv' => h v' (List.mem_cons_of_mem v hv'))]

section KeyRuns

variable [LinearOrder K] (f : List (RowEntry K V) → List (RowEntry K V))

/-- `f` keeps every entry within the key of its input. -/
def KeepsKey : Prop :=
  ∀ g k, (∀ e ∈ g, e.key = k) → ∀ e ∈ f g, e.key = k

variable {f}

/-- Filtering a run of one key by a key commutes with `f`. -/
theorem filter_single_key (hf : KeepsKey f) (hnil : f [] = []) {g : List (RowEntry K V)}
    (hg : ∀ x ∈ g, ∀ y ∈ g, x.key = y.key) (k : K) :
    (f g).filter (·.key = k) = f (g.filter (·.key = k)) := by
  cases g with
  | nil => simp [hnil]
  | cons c cs =>
    have hc : ∀ x ∈ c :: cs, x.key = c.key := fun x hx => hg x hx c List.mem_cons_self
    by_cases hk : c.key = k
    · have h1 : (f (c :: cs)).filter (·.key = k) = f (c :: cs) :=
        List.filter_eq_self.mpr (fun x hx => by simp [hf _ c.key hc x hx, hk])
      have h2 : (c :: cs).filter (·.key = k) = c :: cs :=
        List.filter_eq_self.mpr (fun x hx => by simp [hc x hx, hk])
      rw [h1, h2]
    · have h1 : (f (c :: cs)).filter (·.key = k) = [] :=
        List.filter_eq_nil_iff.mpr (fun x hx => by simp [hf _ c.key hc x hx, hk])
      have h2 : (c :: cs).filter (·.key = k) = [] :=
        List.filter_eq_nil_iff.mpr (fun x hx => by simp [hc x hx, hk])
      rw [h1, h2, hnil]

/-- Seen one key at a time, `filterKeyRuns` is `f` on that key's entries. -/
theorem filter_filterKeyRuns (hf : KeepsKey f) (hnil : f [] = []) :
    ∀ (l cur : List (RowEntry K V)), SortedStream (cur ++ l) →
      (∀ x ∈ cur, ∀ y ∈ cur, x.key = y.key) →
      ∀ k, (filterKeyRuns f cur l).filter (·.key = k) = f ((cur ++ l).filter (·.key = k))
  | [], cur, _, hcur, k => by simpa using filter_single_key hf hnil hcur k
  | e :: es, [], hs, _, k => by
    simpa [filterKeyRuns] using filter_filterKeyRuns hf hnil es [e] hs (by simp) k
  | e :: es, c :: cs, hs, hcur, k => by
    simp only [filterKeyRuns]
    split
    · -- the run goes on
      rename_i hkey
      have hcur' : ∀ x ∈ c :: cs ++ [e], ∀ y ∈ c :: cs ++ [e], x.key = y.key := by
        have hc : ∀ x ∈ c :: cs ++ [e], x.key = c.key := fun x hx => by
          rcases List.mem_append.mp hx with hx | hx
          · exact hcur x hx c List.mem_cons_self
          · rw [List.mem_singleton.mp hx]; exact hkey
        exact fun x hx y hy => (hc x hx).trans (hc y hy).symm
      simpa using filter_filterKeyRuns hf hnil es (c :: cs ++ [e]) (by simpa using hs) hcur' k
    · -- a new key starts: the finished run holds every entry of its key
      rename_i hkey
      have hrest := filter_filterKeyRuns hf hnil es [e] (by simpa using hs.append_right) (by simp) k
      have hlt : ∀ x ∈ e :: es, c.key < x.key := by
        have hce : c.key < e.key := by
          rcases (List.pairwise_append.mp hs).2.2 c List.mem_cons_self e List.mem_cons_self with
            h | ⟨h, -⟩
          · exact h
          · exact absurd h.symm hkey
        intro x hx
        rcases List.mem_cons.mp hx with rfl | hx
        · exact hce
        · exact lt_of_lt_of_le hce (List.rel_of_pairwise_cons hs.append_right hx).key_le
      rw [List.filter_append, filter_single_key hf hnil hcur k, hrest]
      show f ((c :: cs).filter (·.key = k)) ++ f ((e :: es).filter (·.key = k)) =
        f ((c :: cs ++ e :: es).filter (·.key = k))
      rw [List.filter_append]
      by_cases hk : c.key = k
      · have h0 : (e :: es).filter (·.key = k) = [] :=
          List.filter_eq_nil_iff.mpr (fun x hx => by simp [ne_of_gt (hk ▸ hlt x hx)])
        rw [h0, hnil, List.append_nil, List.append_nil]
      · have h0 : (c :: cs).filter (·.key = k) = [] :=
          List.filter_eq_nil_iff.mpr (fun x hx => by simp [hcur x hx c List.mem_cons_self, hk])
        rw [h0, hnil, List.nil_append, List.nil_append]

/-- If `f` keeps its input's keys and sequence numbers in order on every sorted
run of one key, so does `filterKeyRuns` on a sorted stream. -/
theorem keySeq_filterKeyRuns_sublist
    (hsub : ∀ g : List (RowEntry K V), SortedStream g → (∀ x ∈ g, ∀ y ∈ g, x.key = y.key) →
      ((f g).map keySeq).Sublist (g.map keySeq)) :
    ∀ (l cur : List (RowEntry K V)), SortedStream (cur ++ l) →
      (∀ x ∈ cur, ∀ y ∈ cur, x.key = y.key) →
      ((filterKeyRuns f cur l).map keySeq).Sublist ((cur ++ l).map keySeq)
  | [], cur, hs, hcur => by simpa using hsub cur (by simpa using hs) hcur
  | e :: es, [], hs, _ => by
    simpa [filterKeyRuns] using keySeq_filterKeyRuns_sublist hsub es [e] hs (by simp)
  | e :: es, c :: cs, hs, hcur => by
    simp only [filterKeyRuns]
    split
    · rename_i hkey
      have hcur' : ∀ x ∈ c :: cs ++ [e], ∀ y ∈ c :: cs ++ [e], x.key = y.key := by
        have hc : ∀ x ∈ c :: cs ++ [e], x.key = c.key := fun x hx => by
          rcases List.mem_append.mp hx with hx | hx
          · exact hcur x hx c List.mem_cons_self
          · rw [List.mem_singleton.mp hx]; exact hkey
        exact fun x hx y hy => (hc x hx).trans (hc y hy).symm
      simpa using keySeq_filterKeyRuns_sublist hsub es (c :: cs ++ [e]) (by simpa using hs) hcur'
    · rw [List.map_append, List.map_append]
      exact (hsub (c :: cs) (List.pairwise_append.mp hs).1 hcur).append
        (keySeq_filterKeyRuns_sublist hsub es [e] (by simpa using hs.append_right) (by simp))

end KeyRuns

namespace RetentionIterator

variable [LinearOrder K] (it : RetentionIterator)

/-- The entries a buffer state still owes its consumer. -/
def remaining (s : RetentionBuffer K V × List (RowEntry K V)) : List (RowEntry K V) :=
  if s.1.processed then
    s.1.currentVersions ++ (match s.1.next with
      | some e => filterKeyRuns it.applyRetentionFilter [e] s.2
      | none => [])
  else
    match s.1.next with
    | some e => it.applyRetentionFilter s.1.currentVersions ++ filterKeyRuns it.applyRetentionFilter [e] s.2
    | none => filterKeyRuns it.applyRetentionFilter s.1.currentVersions s.2

/-- What the buffer keeps between two turns of the loop of `next`. -/
structure BufferInv (s : RetentionBuffer K V × List (RowEntry K V)) : Prop where
  end_of_input : s.1.endOfInput = true → s.1.next = none ∧ s.2 = []
  processed : s.1.processed = true → s.1.endOfInput = true ∨ s.1.next.isSome = true
  sorted_rest : SortedStream (s.1.next.toList ++ s.2)
  sorted_current : s.1.processed = false → SortedStream (s.1.currentVersions ++ s.1.next.toList ++ s.2)
  one_key : s.1.processed = false → ∀ x ∈ s.1.currentVersions, ∀ y ∈ s.1.currentVersions, x.key = y.key

theorem BufferInv.new {upstream : List (RowEntry K V)} (h : SortedStream upstream) :
    BufferInv (RetentionBuffer.new, upstream) where
  end_of_input := by simp [RetentionBuffer.new]
  processed := by simp [RetentionBuffer.new]
  sorted_rest := by simpa [RetentionBuffer.new] using h
  sorted_current := fun _ => by simpa [RetentionBuffer.new] using h
  one_key := by simp [RetentionBuffer.new]

variable {it}

theorem push_spec {b : RetentionBuffer K V} {e : RowEntry K V} {rest : List (RowEntry K V)}
    (hst : b.state = .needPush) (hI : BufferInv (b, e :: rest)) :
    BufferInv (b.push e, rest) ∧ it.remaining (b, e :: rest) = it.remaining (b.push e, rest) := by
  obtain ⟨hp, he, hn⟩ := RetentionBuffer.state_needPush hst
  have hsorted : SortedStream (b.currentVersions ++ e :: rest) := by
    simpa [hn] using hI.sorted_current hp
  have hrest : SortedStream (e :: rest) := by simpa [hn] using hI.sorted_rest
  have hkeys := hI.one_key hp
  unfold RetentionBuffer.push
  split
  · -- the first version of a key
    rename_i hc
    refine ⟨⟨by simp [he], by simp [hp], ?_, fun _ => by simpa [insertVersion, hn] using hrest,
      by simp [insertVersion]⟩, ?_⟩
    · simpa [hn] using hrest.tail
    · simp [remaining, hp, hn, hc, insertVersion, filterKeyRuns]
  · rename_i c cs hc
    split
    · -- another key: the entry waits as `next`
      rename_i hne
      refine ⟨⟨by simp [he], by simp [hp], by simpa using hrest,
        fun _ => by simpa [hc] using hsorted, fun _ => by simpa [hc] using hkeys⟩, ?_⟩
      simp [remaining, hp, hn, hc, filterKeyRuns, hne]
    · -- the same key: the entry is the oldest version so far
      rename_i hkey
      have hkey : e.key = c.key := not_not.mp hkey
      have hlt : ∀ v ∈ b.currentVersions, e.seq < v.seq := fun v hv =>
        hsorted.seq_lt_of_append hv
          ((hkeys v hv c (by rw [hc]; exact List.mem_cons_self)).trans hkey.symm)
      rw [insertVersion_of_lt hlt]
      refine ⟨⟨by simp [he], by simp [hp], by simpa [hn] using hrest.tail,
        fun _ => by simpa [hn] using hsorted, fun _ => ?_⟩, ?_⟩
      · intro x hx y hy
        have hc' : c ∈ b.currentVersions := by rw [hc]; exact List.mem_cons_self
        have key_c : ∀ z ∈ b.currentVersions ++ [e], z.key = c.key := fun z hz => by
          rcases List.mem_append.mp hz with hz | hz
          · exact hkeys z hz c hc'
          · rw [List.mem_singleton.mp hz]; exact hkey
        exact (key_c x hx).trans (key_c y hy).symm
      · simp [remaining, hp, hn, hc, filterKeyRuns, hkey]

theorem markEndOfInput_spec {b : RetentionBuffer K V} (hst : b.state = .needPush)
    (hI : BufferInv (b, [])) :
    BufferInv (b.markEndOfInput, []) ∧ it.remaining (b, []) = it.remaining (b.markEndOfInput, []) := by
  obtain ⟨hp, -, hn⟩ := RetentionBuffer.state_needPush hst
  refine ⟨⟨fun _ => ⟨hn, rfl⟩, by simp [RetentionBuffer.markEndOfInput, hp],
    hI.sorted_rest, hI.sorted_current, hI.one_key⟩, rfl⟩

theorem processRetention_spec {b : RetentionBuffer K V} {up : List (RowEntry K V)}
    (hst : b.state = .needProcess) (hI : BufferInv (b, up)) :
    BufferInv (b.processRetention it.applyRetentionFilter, up) ∧
      it.remaining (b, up) = it.remaining (b.processRetention it.applyRetentionFilter, up) := by
  obtain ⟨hp, heon⟩ := RetentionBuffer.state_needProcess hst
  have hb : b.processRetention it.applyRetentionFilter =
      { b with currentVersions := it.applyRetentionFilter b.currentVersions, processed := true } := by
    simp [RetentionBuffer.processRetention, hp]
  rw [hb]
  refine ⟨⟨hI.end_of_input, fun _ => heon, hI.sorted_rest, by simp, by simp⟩, ?_⟩
  cases hn : b.next with
  | some e => simp [remaining, hp, hn]
  | none =>
    -- nothing waits, so the input has ended
    have hup : up = [] := (hI.end_of_input (by simpa [hn] using heon)).2
    simp [remaining, hp, hn, hup]

theorem pop_emit_spec {b b' : RetentionBuffer K V} {up : List (RowEntry K V)} {e : RowEntry K V}
    (hp : b.processed = true) (hpop : b.pop = .ok (some e, b')) (hI : BufferInv (b, up)) :
    BufferInv (b', up) ∧ it.remaining (b, up) = e :: it.remaining (b', up) := by
  obtain ⟨rest, hc, rfl⟩ := RetentionBuffer.pop_some hpop
  exact ⟨⟨hI.end_of_input, hI.processed, hI.sorted_rest, by simp [hp], by simp [hp]⟩,
    by simp [remaining, hp, hc]⟩

theorem pop_promote_spec {b b' : RetentionBuffer K V} {up : List (RowEntry K V)}
    (hst : b.state = .needPopAndContinue) (hpop : b.pop = .ok (none, b')) (hI : BufferInv (b, up)) :
    BufferInv (b', up) ∧ it.remaining (b, up) = it.remaining (b', up) := by
  obtain ⟨hp, he⟩ := RetentionBuffer.state_needPopAndContinue hst
  obtain ⟨hc, ⟨e, hn, rfl⟩ | ⟨-, he', -⟩⟩ := RetentionBuffer.pop_none hpop
  · have hsorted : SortedStream (e :: up) := by simpa [hn] using hI.sorted_rest
    refine ⟨⟨by simp [he], by simp, by simpa using hsorted.tail,
      fun _ => by simpa using hsorted, by simp⟩, ?_⟩
    simp [remaining, hp, hn, hc]
  · rw [he] at he'
    cases he'

theorem pop_done_spec {b b' : RetentionBuffer K V} {up : List (RowEntry K V)}
    (hst : b.state = .needPopAndQuit) (hpop : b.pop = .ok (none, b')) (hI : BufferInv (b, up)) :
    it.remaining (b, up) = [] := by
  obtain ⟨hp, he⟩ := RetentionBuffer.state_needPopAndQuit hst
  obtain ⟨hn, -⟩ := hI.end_of_input he
  obtain ⟨hc, -⟩ := RetentionBuffer.pop_none hpop
  simp only at hn
  simp [remaining, hp, hn, hc]

/-- The `unreachable!` of `pop` is unreachable from a buffer that keeps the invariant. -/
theorem pop_ne_error {b : RetentionBuffer K V} {up : List (RowEntry K V)} {msg : String}
    (hp : b.processed = true) (hI : BufferInv (b, up)) : b.pop ≠ .error msg := by
  intro hpop
  obtain ⟨-, hn, he⟩ := RetentionBuffer.pop_error hpop
  rcases hI.processed hp with he' | hn'
  · rw [he] at he'
    cases he'
  · simp [hn] at hn'

theorem step_emit_spec {s s' : RetentionBuffer K V × List (RowEntry K V)} {e : RowEntry K V}
    (hI : BufferInv s) (hstep : it.machine.step s = .emit e s') :
    BufferInv s' ∧ it.remaining s = e :: it.remaining s' := by
  obtain ⟨b, up⟩ := s
  simp only [machine, step] at hstep
  split at hstep
  next => split at hstep <;> cases hstep
  next hst =>
    split at hstep
    · rename_i b' hpop
      cases hstep
      exact pop_emit_spec (RetentionBuffer.state_needPopAndContinue hst).1 hpop hI
    all_goals cases hstep
  next hst =>
    split at hstep
    · rename_i b' hpop
      cases hstep
      exact pop_emit_spec (RetentionBuffer.state_needPopAndQuit hst).1 hpop hI
    all_goals cases hstep
  next => cases hstep

theorem step_skip_spec {s s' : RetentionBuffer K V × List (RowEntry K V)}
    (hI : BufferInv s) (hstep : it.machine.step s = .skip s') :
    BufferInv s' ∧ it.remaining s = it.remaining s' := by
  obtain ⟨b, up⟩ := s
  simp only [machine, step] at hstep
  split at hstep
  next hst =>
    split at hstep
    · cases hstep
      exact markEndOfInput_spec hst hI
    · cases hstep
      exact push_spec hst hI
  next hst =>
    split at hstep
    · cases hstep
    · rename_i b' hpop
      cases hstep
      exact pop_promote_spec hst hpop hI
    · cases hstep
  next => split at hstep <;> cases hstep
  next hst =>
    cases hstep
    exact processRetention_spec hst hI

theorem step_done_spec {s : RetentionBuffer K V × List (RowEntry K V)}
    (hI : BufferInv s) (hstep : it.machine.step s = .done) : it.remaining s = [] := by
  obtain ⟨b, up⟩ := s
  simp only [machine, step] at hstep
  split at hstep
  next => split at hstep <;> cases hstep
  next => split at hstep <;> cases hstep
  next hst =>
    split at hstep
    · cases hstep
    · rename_i b' hpop
      exact pop_done_spec hst hpop hI
    · cases hstep
  next => cases hstep

theorem step_ne_fail {s : RetentionBuffer K V × List (RowEntry K V)} {msg : String}
    (hI : BufferInv s) : it.machine.step s ≠ .fail msg := by
  obtain ⟨b, up⟩ := s
  intro hstep
  simp only [machine, step] at hstep
  split at hstep
  next => split at hstep <;> cases hstep
  next hst =>
    split at hstep
    · cases hstep
    · cases hstep
    · exact pop_ne_error (RetentionBuffer.state_needPopAndContinue hst).1 hI (by assumption)
  next hst =>
    split at hstep
    · cases hstep
    · cases hstep
    · exact pop_ne_error (RetentionBuffer.state_needPopAndQuit hst).1 hI (by assumption)
  next => cases hstep

variable (it)

/-- The retention iterator drains a sorted upstream without panicking, and
returns the retention filter of each run of one key, in order. -/
theorem drain_eq {upstream : List (RowEntry K V)} (h : SortedStream upstream) :
    it.drain upstream = .ok (filterKeyRuns it.applyRetentionFilter [] upstream) := by
  obtain ⟨out, hrun, hout⟩ := Machine.run_spec BufferInv (fun s out => out = it.remaining s)
    (fun hI hstep => ⟨(step_emit_spec hI hstep).1,
      fun out hout => by rw [(step_emit_spec hI hstep).2, hout]⟩)
    (fun hI hstep => ⟨(step_skip_spec hI hstep).1,
      fun out hout => by rw [(step_skip_spec hI hstep).2, hout]⟩)
    (fun hI hstep => (step_done_spec hI hstep).symm)
    (fun hI => step_ne_fail hI) _ (BufferInv.new h)
  rw [drain, hrun, hout]
  simp [remaining, RetentionBuffer.new]

/-! ### The retention filter on the versions of one key -/

/-- Whether the filter's walk goes on after keeping a version. -/
def continuesAfter (e : RowEntry K V) : Bool :=
  it.continueRetainByTime e.seq || it.continueRetainBySeq e.seq || e.value.isMerge

/-- What the filter keeps of the versions after expiry: those it walks past
and the one it stops at. -/
def keptVersions (x : List (RowEntry K V)) : List (RowEntry K V) :=
  x.takeWhile it.continuesAfter ++ (x.dropWhile it.continuesAfter).take 1

theorem keptVersions_cons (e : RowEntry K V) (rest : List (RowEntry K V)) :
    it.keptVersions (e :: rest) = if it.continuesAfter e then e :: it.keptVersions rest else [e] := by
  by_cases h : it.continuesAfter e <;> simp [keptVersions, h]

theorem keptVersions_prefix (x : List (RowEntry K V)) : it.keptVersions x <+: x := by
  have h := (List.prefix_append_right_inj (x.takeWhile it.continuesAfter)).mpr
    (List.take_prefix 1 (x.dropWhile it.continuesAfter))
  rwa [List.takeWhile_append_dropWhile] at h

/-- The expiry check of the filter is expiry at the compaction's start. -/
theorem expireEntry_eq (e : RowEntry K V) : it.expireEntry e = expireAt it.compactionStartTs e := rfl

theorem isMerge_of_expireEntry {e e' : RowEntry K V} (h : it.expireEntry e = some e') :
    e'.value.isMerge = e.value.isMerge := by
  unfold expireEntry at h
  split at h
  · split at h
    · split at h
      · cases h
      · rename_i hm
        cases h
        simp [hm]
    · cases h; rfl
  · cases h; rfl

/-- The loop of `apply_retention_filter` on versions newest first. -/
theorem retainVersions_eq :
    ∀ (vs acc : List (RowEntry K V)), vs.Pairwise (fun a b => b.seq < a.seq) →
      (∀ a ∈ acc, ∀ v ∈ vs, v.seq < a.seq) →
      it.retainVersions vs acc = acc ++ it.keptVersions (vs.filterMap it.expireEntry)
  | [], acc, _, _ => by simp [retainVersions, keptVersions]
  | v :: vs, acc, hvs, hacc => by
    have hvs' := (List.pairwise_cons.mp hvs).2
    have hacc' : ∀ a ∈ acc, ∀ w ∈ vs, w.seq < a.seq :=
      fun a ha w hw => hacc a ha w (List.mem_cons_of_mem v hw)
    simp only [retainVersions]
    cases hx : it.expireEntry v with
    | none =>
      simp only [List.filterMap_cons, hx]
      exact retainVersions_eq vs acc hvs' hacc'
    | some v' =>
      have hseq : v'.seq = v.seq := congrArg Prod.snd (keySeq_of_expireAt hx)
      have hins : insertVersion v' acc = acc ++ [v'] :=
        insertVersion_of_lt (fun a ha => hseq ▸ hacc a ha v List.mem_cons_self)
      have hcond : (it.continueRetainByTime v'.seq || it.continueRetainBySeq v'.seq ||
          v.value.isMerge) = it.continuesAfter v' := by
        rw [continuesAfter, it.isMerge_of_expireEntry hx]
      simp only [List.filterMap_cons, hx, hins, hcond, keptVersions_cons]
      split
      · -- the walk goes on, with the kept version older than none of the rest
        rw [retainVersions_eq vs (acc ++ [v']) hvs' (fun a ha w hw => ?_)]
        · simp
        rcases List.mem_append.mp ha with ha | ha
        · exact hacc' a ha w hw
        · rw [List.mem_singleton.mp ha, hseq]
          exact List.rel_of_pairwise_cons hvs hw
      · simp

/-- On the versions of one key, newest first, the filter keeps a prefix of
them after expiry, then trims its oldest tombstones if asked to. -/
theorem applyRetentionFilter_eq {g : List (RowEntry K V)} (hg : SortedStream g)
    (hkey : ∀ x ∈ g, ∀ y ∈ g, x.key = y.key) :
    it.applyRetentionFilter g =
      if it.filterTombstone then trimTombstones (it.keptVersions (expire it.compactionStartTs g))
      else it.keptVersions (expire it.compactionStartTs g) := by
  have hdesc : g.Pairwise (fun a b => b.seq < a.seq) := hg.imp_of_mem fun ha hb hab => by
    rcases hab with hlt | ⟨-, hseq⟩
    · exact absurd (hkey _ ha _ hb) (ne_of_lt hlt)
    · exact hseq
  simp only [applyRetentionFilter, it.retainVersions_eq g [] hdesc (by simp), List.nil_append]
  rfl

theorem mem_insertVersion {x e : RowEntry K V} :
    ∀ {l : List (RowEntry K V)}, e ∈ insertVersion x l → e = x ∨ e ∈ l
  | [], h => .inl (List.mem_singleton.mp h)
  | v :: vs, h => by
    simp only [insertVersion] at h
    split at h
    · exact List.mem_cons.mp h
    split at h
    · rcases List.mem_cons.mp h with h | h
      · exact .inl h
      · exact .inr (List.mem_cons_of_mem v h)
    · rcases List.mem_cons.mp h with h | h
      · exact .inr (h ▸ List.mem_cons_self)
      · rcases mem_insertVersion h with h | h
        · exact .inl h
        · exact .inr (List.mem_cons_of_mem v h)

theorem mem_retainVersions {e : RowEntry K V} :
    ∀ {vs acc : List (RowEntry K V)}, e ∈ it.retainVersions vs acc →
      e ∈ acc ∨ ∃ v ∈ vs, it.expireEntry v = some e
  | [], _, h => .inl h
  | v :: vs, acc, h => by
    simp only [retainVersions] at h
    split at h
    · rcases mem_retainVersions h with h | ⟨w, hw, hx⟩
      · exact .inl h
      · exact .inr ⟨w, List.mem_cons_of_mem v hw, hx⟩
    · rename_i v' hx
      have hsplit : ∀ {e}, e ∈ insertVersion v' acc → e ∈ acc ∨ ∃ w ∈ v :: vs, it.expireEntry w = some e :=
        fun he => (mem_insertVersion he).elim (fun h => .inr ⟨v, List.mem_cons_self, h ▸ hx⟩) .inl
      split at h
      · rcases mem_retainVersions h with h | ⟨w, hw, hx'⟩
        · exact hsplit h
        · exact .inr ⟨w, List.mem_cons_of_mem v hw, hx'⟩
      · exact hsplit h

theorem trimTombstones_sublist (l : List (RowEntry K V)) : (trimTombstones l).Sublist l := by
  have h := ((List.dropWhile_suffix (fun e : RowEntry K V => e.value.isTombstone)
    (l := l.reverse)).sublist).reverse
  rwa [List.reverse_reverse] at h

theorem mem_trimTombstones {e : RowEntry K V} {l : List (RowEntry K V)}
    (h : e ∈ trimTombstones l) : e ∈ l := by
  simp only [trimTombstones, List.mem_reverse] at h
  exact List.mem_reverse.mp ((List.dropWhile_suffix _).subset h)

/-- Every version the filter returns is one of its input's after expiry. -/
theorem mem_applyRetentionFilter {e : RowEntry K V} {g : List (RowEntry K V)}
    (h : e ∈ it.applyRetentionFilter g) : ∃ v ∈ g, it.expireEntry v = some e := by
  simp only [applyRetentionFilter] at h
  split at h
  · exact (it.mem_retainVersions (mem_trimTombstones h)).resolve_left List.not_mem_nil
  · exact (it.mem_retainVersions h).resolve_left List.not_mem_nil

theorem applyRetentionFilter_keepsKey : KeepsKey (K := K) (V := V) it.applyRetentionFilter := by
  intro g k hk e he
  obtain ⟨v, hv, hx⟩ := it.mem_applyRetentionFilter he
  rw [← hk v hv]
  exact congrArg Prod.fst (keySeq_of_expireAt hx)

theorem applyRetentionFilter_nil : it.applyRetentionFilter ([] : List (RowEntry K V)) = [] := by
  simp [applyRetentionFilter, retainVersions, trimTombstones]

/-! ### Reads through the filter -/

/-- Dropping the oldest tombstones changes no read. -/
theorem resolve_trimTombstones [DecidableEq K] (merge : K → Option V → V → V) (k : K) (s : Nat)
    (l : List (RowEntry K V)) : resolve merge k s (trimTombstones l) = resolve merge k s l := by
  obtain ⟨T, hT⟩ : ∃ T, T = (l.reverse.takeWhile (·.value.isTombstone)).reverse := ⟨_, rfl⟩
  have hl : l = trimTombstones l ++ T := by
    simp only [trimTombstones, hT, ← List.reverse_append, List.takeWhile_append_dropWhile,
      List.reverse_reverse]
  have htomb : ∀ v ∈ visible k s T, v = .tombstone := by
    intro v hv
    obtain ⟨e, he, rfl⟩ := List.mem_map.mp hv
    have he' : e ∈ l.reverse.takeWhile (·.value.isTombstone) :=
      List.mem_reverse.mp (hT ▸ (List.mem_filter.mp he).1)
    have ht : e.value.isTombstone = true :=
      List.mem_takeWhile_imp (p := fun x : RowEntry K V => x.value.isTombstone) he'
    cases hv : e.value with
    | tombstone => rfl
    | value x => rw [hv] at ht; cases ht
    | merge x => rw [hv] at ht; cases ht
  have hl' : resolve merge k s l = resolve merge k s (trimTombstones l ++ T) := congrArg _ hl
  rw [hl', resolve, resolve, visible_append, applyVersions_append,
    applyVersions_tombstones _ htomb]

variable {it}

/-- Without a retention timeout a read that the retention bound protects stops
within the versions the filter keeps. -/
theorem resolve_keptVersions [DecidableEq K] (hto : it.retentionTimeout = none)
    {x : List (RowEntry K V)} {k : K} {s : Nat} (hkey : ∀ e ∈ x, e.key = k)
    (hprot : ProtectedRead it.retentionMinSeq x k s) (merge : K → Option V → V → V) :
    resolve merge k s (it.keptVersions x) = resolve merge k s x := by
  have hx := List.takeWhile_append_dropWhile (p := it.continuesAfter) (l := x)
  cases hD : x.dropWhile it.continuesAfter with
  | nil =>
    have hx' : x.takeWhile it.continuesAfter = x := by rwa [hD, List.append_nil] at hx
    rw [keptVersions, hD, List.take_nil, List.append_nil, hx']
  | cons b Q =>
    -- the walk stopped at `b`: a value or tombstone at or below the bound
    have hb : it.continuesAfter b = false := by
      have := List.head_dropWhile_not it.continuesAfter (l := x) (by simp [hD])
      simpa [hD] using this
    have hbx : b ∈ x := (List.dropWhile_suffix it.continuesAfter).subset (by rw [hD]; simp)
    simp only [continuesAfter, continueRetainByTime, hto, Bool.false_or, Bool.or_eq_false_iff]
      at hb
    obtain ⟨hseq, hmerge⟩ := hb
    have hbs : b.seq ≤ s := by
      cases hm : it.retentionMinSeq with
      | none =>
        rw [hm] at hprot
        exact hprot b hbx (hkey b hbx)
      | some m =>
        rw [hm] at hprot
        simp only [continueRetainBySeq, hm, decide_eq_false_iff_not, Nat.not_lt] at hseq
        exact Nat.le_trans hseq hprot
    have hvis : visible k s (b :: Q) = b.value :: visible k s Q := by
      simp [visible_cons, hkey b hbx, hbs]
    have hx' : resolve merge k s x = resolve merge k s (x.takeWhile it.continuesAfter ++ b :: Q) := by
      rw [← hD, hx]
    rw [hx', keptVersions, hD, resolve, resolve, visible_append, visible_append, hvis,
      applyVersions_append, applyVersions_append, List.take_succ_cons, List.take_zero]
    simp [visible_cons, hkey b hbx, hbs, applyVersions_base _ hmerge]

/-- On the versions of one key, the retention filter without timeout changes no
read that the retention bound protects, against the versions after expiry. -/
theorem resolve_applyRetentionFilter (hto : it.retentionTimeout = none)
    {g : List (RowEntry K V)} {k : K} {s : Nat} (hg : SortedStream g) (hkey : ∀ e ∈ g, e.key = k)
    (hprot : ProtectedRead it.retentionMinSeq g k s) (merge : K → Option V → V → V) :
    resolve merge k s (it.applyRetentionFilter g) =
      resolve merge k s (expire it.compactionStartTs g) := by
  have hkeys : ∀ x ∈ g, ∀ y ∈ g, x.key = y.key := fun x hx y hy => (hkey x hx).trans (hkey y hy).symm
  have hx : ∀ e ∈ expire it.compactionStartTs g, e.key = k := fun e he => by
    obtain ⟨e₀, he₀, hks⟩ := mem_expire he
    have hk : e₀.key = e.key := congrArg Prod.fst hks
    rw [← hk]
    exact hkey e₀ he₀
  have hprot' : ProtectedRead it.retentionMinSeq (expire it.compactionStartTs g) k s :=
    hprot.mono (fun e he => mem_expire he)
  rw [it.applyRetentionFilter_eq hg hkeys]
  split
  · rw [resolve_trimTombstones, resolve_keptVersions hto hx hprot']
  · rw [resolve_keptVersions hto hx hprot']

variable (it)

/-- On a sorted run of one key the filter keeps its keys and sequence numbers
in order. -/
theorem keySeq_applyRetentionFilter_sublist {g : List (RowEntry K V)} (hg : SortedStream g)
    (hkey : ∀ x ∈ g, ∀ y ∈ g, x.key = y.key) :
    ((it.applyRetentionFilter g).map keySeq).Sublist (g.map keySeq) := by
  have hkept : ((it.keptVersions (expire it.compactionStartTs g)).map keySeq).Sublist
      (g.map keySeq) :=
    ((it.keptVersions_prefix _).sublist.map keySeq).trans (keySeq_expire_sublist _ g)
  rw [it.applyRetentionFilter_eq hg hkey]
  split
  · exact ((trimTombstones_sublist _).map keySeq).trans hkept
  · exact hkept

/-- The retention iterator without a timeout drains a sorted stream without
panicking; its output keeps the input's keys and sequence numbers in order and
reads like the input after expiry at the compaction's start, for every read
that the retention bound protects. -/
theorem drain_spec (hto : it.retentionTimeout = none) {l : List (RowEntry K V)}
    (hl : SortedStream l) :
    ∃ out, it.drain l = .ok out ∧ (out.map keySeq).Sublist (l.map keySeq) ∧
      ∀ merge k s, ProtectedRead it.retentionMinSeq l k s →
        resolve merge k s out = resolve merge k s (expire it.compactionStartTs l) := by
  refine ⟨_, it.drain_eq hl, ?_, fun merge k s hprot => ?_⟩
  · exact keySeq_filterKeyRuns_sublist
      (fun g hg hkey => it.keySeq_applyRetentionFilter_sublist hg hkey) l [] hl (by simp)
  · -- one key at a time: its versions form one run, which the filter sees whole
    have hrun := filter_filterKeyRuns it.applyRetentionFilter_keepsKey it.applyRetentionFilter_nil
      l [] hl (by simp) k
    rw [List.nil_append] at hrun
    have hg : SortedStream (l.filter (·.key = k)) := hl.sublist List.filter_sublist
    have hkey : ∀ e ∈ l.filter (·.key = k), e.key = k := fun e he => by
      simpa using (List.mem_filter.mp he).2
    have hprot' : ProtectedRead it.retentionMinSeq (l.filter (·.key = k)) k s :=
      hprot.mono (fun e he => ⟨e, (List.mem_filter.mp he).1, rfl⟩)
    rw [← resolve_filter_key, hrun, resolve_applyRetentionFilter hto hg hkey hprot',
      expire_filter_key, resolve_filter_key]

end RetentionIterator

end SlateDb
