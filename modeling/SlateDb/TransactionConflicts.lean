import SlateDb.TransactionManager

/-!
# What the conflict check sees over every interleaving

A committing transaction should conflict with exactly those commits that
committed after it started and wrote a key it wrote, read or scanned. The
conflict loops compute this over the queue of recent committed states
(`checkHasConflict_spec`), so the question is what the queue holds.

`ManagerStep` says once what one operation can do to the manager, and every
run-wide statement is derived from it. The queue only holds committed states
(`QueueInv`), so the check never panics, and its garbage collection never drops
a state that an active transaction, then or later, could conflict with
(`queue_keeps_conflicting`). What the queue misses is a commit whose
transaction was dropped before the writer recorded it: its batch is written,
but `track_recent_committed_txn` finds no active transaction to queue
(`checkHasConflict_misses_dropped_commit`).
-/

set_option linter.unusedSectionVars false

namespace SlateDb

variable {Id K : Type} [DecidableEq Id] [LinearOrder K]

/-- `c` committed after `startedSeq` and wrote one of `writeKeys`. -/
def WriteHit (writeKeys : Finset K) (startedSeq : Nat) (c : TransactionState K) : Prop :=
  ∃ o, c.committedSeq = some o ∧ startedSeq < o ∧ ¬ Disjoint writeKeys c.writeKeys

/-- `c` committed after `startedSeq` and wrote a read key or a key in a read range. -/
def ReadHit (readKeys : Finset K) (readRanges : List (BytesRange K)) (startedSeq : Nat)
    (c : TransactionState K) : Prop :=
  ∃ o, c.committedSeq = some o ∧ startedSeq < o ∧
    (¬ Disjoint readKeys c.writeKeys ∨ ∃ r ∈ readRanges, ∃ k ∈ c.writeKeys, r.contains k = true)

def ConflictsWith (t c : TransactionState K) : Prop :=
  WriteHit t.writeKeys t.startedSeq c ∨ ReadHit t.readKeys t.readRanges t.startedSeq c

namespace TransactionManagerInner

theorem writeConflictLoop_spec (writeKeys : Finset K) (startedSeq : Nat) :
    ∀ l : List (TransactionState K), (∀ c ∈ l, c.committedSeq.isSome) →
      ∃ b, writeConflictLoop writeKeys startedSeq l = some b ∧
        (b = true ↔ ∃ c ∈ l, WriteHit writeKeys startedSeq c)
  | [], _ => ⟨false, rfl, by simp⟩
  | c :: cs, hl => by
      obtain ⟨o, ho⟩ := Option.isSome_iff_exists.mp (hl c List.mem_cons_self)
      by_cases hhit : startedSeq < o ∧ ¬ Disjoint writeKeys c.writeKeys
      · refine ⟨true, by simp only [writeConflictLoop, ho, if_pos hhit], ?_⟩
        exact iff_of_true rfl ⟨c, List.mem_cons_self, o, ho, hhit⟩
      · obtain ⟨b, hb, hiff⟩ := writeConflictLoop_spec writeKeys startedSeq cs
          (fun c' hc' => hl c' (List.mem_cons_of_mem c hc'))
        refine ⟨b, by simp only [writeConflictLoop, ho, if_neg hhit, hb], ?_⟩
        rw [hiff]
        constructor
        · rintro ⟨c', hc', hw⟩
          exact ⟨c', List.mem_cons_of_mem c hc', hw⟩
        · rintro ⟨c', hc', o', ho', hw⟩
          rcases List.mem_cons.mp hc' with rfl | hc'
          · rw [ho] at ho'
            cases ho'
            exact absurd hw hhit
          · exact ⟨c', hc', o', ho', hw⟩

theorem rangeHit_iff (readRanges : List (BytesRange K)) (writeKeys : Finset K) :
    rangeHit readRanges writeKeys = true ↔
      ∃ r ∈ readRanges, ∃ k ∈ writeKeys, r.contains k = true := by
  simp [rangeHit]

theorem readConflictLoop_spec (readKeys : Finset K) (readRanges : List (BytesRange K))
    (startedSeq : Nat) :
    ∀ l : List (TransactionState K), (∀ c ∈ l, c.committedSeq.isSome) →
      ∃ b, readConflictLoop readKeys readRanges startedSeq l = some b ∧
        (b = true ↔ ∃ c ∈ l, ReadHit readKeys readRanges startedSeq c)
  | [], _ => ⟨false, rfl, by simp⟩
  | c :: cs, hl => by
      obtain ⟨o, ho⟩ := Option.isSome_iff_exists.mp (hl c List.mem_cons_self)
      have hhit : ReadHit readKeys readRanges startedSeq c ↔
          startedSeq < o ∧ (¬ Disjoint readKeys c.writeKeys ∨
            rangeHit readRanges c.writeKeys = true) := by
        rw [rangeHit_iff]
        constructor
        · rintro ⟨o', ho', hlt, hr⟩
          rw [ho] at ho'
          cases ho'
          exact ⟨hlt, hr⟩
        · rintro ⟨hlt, hr⟩
          exact ⟨o, ho, hlt, hr⟩
      obtain ⟨b, hb, hiff⟩ := readConflictLoop_spec readKeys readRanges startedSeq cs
        (fun c' hc' => hl c' (List.mem_cons_of_mem c hc'))
      have htail : (∃ c' ∈ c :: cs, ReadHit readKeys readRanges startedSeq c') ↔
          ReadHit readKeys readRanges startedSeq c ∨
            ∃ c' ∈ cs, ReadHit readKeys readRanges startedSeq c' := by
        simp only [List.mem_cons, exists_eq_or_imp]
      by_cases hc : ReadHit readKeys readRanges startedSeq c
      · obtain ⟨hlt, hr⟩ := hhit.mp hc
        refine ⟨true, ?_, iff_of_true rfl (htail.mpr (Or.inl hc))⟩
        by_cases hd : Disjoint readKeys c.writeKeys
        · have hrange : rangeHit readRanges c.writeKeys = true := hr.resolve_left (not_not.mpr hd)
          simp only [readConflictLoop, ho, if_pos hlt, hd, not_true_eq_false, if_false, hrange,
            if_true]
        · simp only [readConflictLoop, ho, if_pos hlt, if_pos hd]
      · refine ⟨b, ?_, by rw [htail, hiff, or_iff_right hc]⟩
        by_cases hlt : startedSeq < o
        · have hr : ¬ (¬ Disjoint readKeys c.writeKeys ∨ rangeHit readRanges c.writeKeys = true) :=
            fun hr => hc (hhit.mpr ⟨hlt, hr⟩)
          push Not at hr
          simp only [readConflictLoop, ho, if_pos hlt, hr.1, not_true_eq_false, if_false, hr.2,
            Bool.false_eq_true, hb]
        · simp only [readConflictLoop, ho, if_neg hlt, hb]

variable (m : TransactionManagerInner Id K)

theorem hasWriteWriteConflict_spec (writeKeys : Finset K) (startedSeq : Nat)
    (h : ∀ c ∈ m.recentCommittedTxns, c.committedSeq.isSome) :
    ∃ b, m.hasWriteWriteConflict writeKeys startedSeq = some b ∧
      (b = true ↔ ∃ c ∈ m.recentCommittedTxns, WriteHit writeKeys startedSeq c) := by
  by_cases hw : writeKeys = ∅
  · refine ⟨false, by simp only [hasWriteWriteConflict, if_pos hw], ?_⟩
    simp only [Bool.false_eq_true, false_iff, not_exists, not_and]
    rintro c - ⟨o, -, -, hd⟩
    exact hd (by simp [hw])
  · simpa only [hasWriteWriteConflict, if_neg hw] using
      writeConflictLoop_spec writeKeys startedSeq m.recentCommittedTxns h

theorem hasReadWriteConflict_spec (readKeys : Finset K) (readRanges : List (BytesRange K))
    (startedSeq : Nat) (h : ∀ c ∈ m.recentCommittedTxns, c.committedSeq.isSome) :
    ∃ b, m.hasReadWriteConflict readKeys readRanges startedSeq = some b ∧
      (b = true ↔ ∃ c ∈ m.recentCommittedTxns, ReadHit readKeys readRanges startedSeq c) := by
  by_cases he : readKeys = ∅ ∧ readRanges = []
  · refine ⟨false, by simp only [hasReadWriteConflict, if_pos he], ?_⟩
    simp only [Bool.false_eq_true, false_iff, not_exists, not_and]
    rintro c - ⟨o, -, -, hd | ⟨r, hr, -⟩⟩
    · exact hd (by simp [he.1])
    · simp [he.2] at hr
  · simpa only [hasReadWriteConflict, if_neg he] using
      readConflictLoop_spec readKeys readRanges startedSeq m.recentCommittedTxns h

/-- On a queue of committed states, `check_has_conflict` returns, without
panicking, whether some queued state conflicts with the transaction. -/
theorem checkHasConflict_spec {txnId : Id} {t : TransactionState K}
    (h : ∀ c ∈ m.recentCommittedTxns, c.committedSeq.isSome)
    (ht : m.activeTxns.lookup txnId = some t) :
    ∃ b, m.checkHasConflict txnId = some b ∧
      (b = true ↔ ∃ c ∈ m.recentCommittedTxns, ConflictsWith t c) := by
  obtain ⟨w, hw, hwiff⟩ := m.hasWriteWriteConflict_spec t.writeKeys t.startedSeq h
  obtain ⟨r, hr, hriff⟩ := m.hasReadWriteConflict_spec t.readKeys t.readRanges t.startedSeq h
  refine ⟨w || r, ?_, ?_⟩
  · cases w <;> simp [checkHasConflict, ht, hw, hr]
  · rw [Bool.or_eq_true, hwiff, hriff]
    constructor
    · rintro (⟨c, hc, hh⟩ | ⟨c, hc, hh⟩)
      · exact ⟨c, hc, Or.inl hh⟩
      · exact ⟨c, hc, Or.inr hh⟩
    · rintro ⟨c, hc, hh | hh⟩
      · exact Or.inl ⟨c, hc, hh⟩
      · exact Or.inr ⟨c, hc, hh⟩

/-! ### How each operation moves the active set and the queue -/

theorem mem_removeActive {txnId : Id} {p : Id × TransactionState K}
    (hp : p ∈ m.removeActive txnId) : p ∈ m.activeTxns :=
  (List.mem_filter.mp hp).1

theorem mem_modifyActive (txnId : Id) (f : TransactionState K → TransactionState K)
    (hf : ∀ t, (f t).startedSeq = t.startedSeq) {p : Id × TransactionState K}
    (hp : p ∈ m.modifyActive txnId f) : ∃ q ∈ m.activeTxns, q.2.startedSeq = p.2.startedSeq := by
  obtain ⟨q, hq, rfl⟩ := List.mem_map.mp hp
  refine ⟨q, hq, ?_⟩
  split_ifs <;> simp [hf]

theorem minConflictCheckSeq_le {minSeq : Nat} (hmin : m.minConflictCheckSeq = some minSeq)
    {p : Id × TransactionState K} (hp : p ∈ m.activeTxns) : minSeq ≤ p.2.startedSeq :=
  (List.min?_eq_some_iff.mp hmin).2 _ (List.mem_map_of_mem hp)

theorem minConflictCheckSeq_isSome {p : Id × TransactionState K} (hp : p ∈ m.activeTxns) :
    m.minConflictCheckSeq.isSome :=
  List.isSome_min?_of_mem (List.mem_map_of_mem hp)

@[simp] theorem recycle_activeTxns : m.recycleRecentCommittedTxns.activeTxns = m.activeTxns := by
  unfold recycleRecentCommittedTxns
  split <;> rfl

@[simp] theorem recycle_oracle : m.recycleRecentCommittedTxns.oracle = m.oracle := by
  unfold recycleRecentCommittedTxns
  split <;> rfl

theorem recycle_recent_sub {c : TransactionState K}
    (hc : c ∈ m.recycleRecentCommittedTxns.recentCommittedTxns) :
    c ∈ m.recentCommittedTxns := by
  unfold recycleRecentCommittedTxns at hc
  split at hc
  · exact (List.mem_filter.mp hc).1
  · simp at hc

/-- Recycling keeps every queued state that committed at or after the start of
some active transaction. -/
theorem recycle_keeps {c : TransactionState K} (hc : c ∈ m.recentCommittedTxns) {o : Nat}
    (ho : c.committedSeq = some o) {p : Id × TransactionState K} (hp : p ∈ m.activeTxns)
    (hle : p.2.startedSeq ≤ o) : c ∈ m.recycleRecentCommittedTxns.recentCommittedTxns := by
  obtain ⟨minSeq, hmin⟩ := Option.isSome_iff_exists.mp (m.minConflictCheckSeq_isSome hp)
  have hle := m.minConflictCheckSeq_le hmin hp
  simp only [recycleRecentCommittedTxns, hmin, List.mem_filter, ho, decide_eq_true_eq]
  exact ⟨hc, by omega⟩

@[simp] theorem trackState_activeTxns (st : TransactionState K) :
    (m.trackRecentCommittedState st).activeTxns = m.activeTxns := by
  simp only [trackRecentCommittedState]
  split <;> rfl

@[simp] theorem trackState_oracle (st : TransactionState K) :
    (m.trackRecentCommittedState st).oracle = m.oracle := by
  simp only [trackRecentCommittedState]
  split <;> rfl

theorem trackState_recent_sub {st c : TransactionState K}
    (hc : c ∈ (m.trackRecentCommittedState st).recentCommittedTxns) :
    c ∈ m.recentCommittedTxns ∨ c = st := by
  simp only [trackRecentCommittedState] at hc
  split at hc
  · simp at hc
  · simpa using hc

theorem trackState_recent_of_active (st : TransactionState K) {p : Id × TransactionState K}
    (hp : p ∈ m.activeTxns) :
    (m.trackRecentCommittedState st).recentCommittedTxns = m.recentCommittedTxns ++ [st] := by
  have hsome := m.minConflictCheckSeq_isSome hp
  simp only [trackRecentCommittedState]
  rw [if_neg (by simpa [minConflictCheckSeq] using hsome)]

end TransactionManagerInner

/-! ### One operation on the manager -/

/-- What one operation can do to the manager: the published sequence number
only grows; a transaction active afterwards was active before, with the same
start, or has just started at the published sequence number; the queue drops a
state only when every transaction left active started after it committed, and
gains only committed states whose sequence number is published. -/
structure ManagerStep (m m' : TransactionManagerInner Id K) : Prop where
  committed_le : m.oracle.lastCommittedSeq ≤ m'.oracle.lastCommittedSeq
  active : ∀ p ∈ m'.activeTxns, (∃ q ∈ m.activeTxns, q.2.startedSeq = p.2.startedSeq) ∨
    p.2.startedSeq = m.oracle.lastCommittedSeq
  dropped : ∀ c ∈ m.recentCommittedTxns, c ∉ m'.recentCommittedTxns →
    ∀ o, c.committedSeq = some o → ∀ p ∈ m'.activeTxns, o < p.2.startedSeq
  added : ∀ c ∈ m'.recentCommittedTxns, c ∈ m.recentCommittedTxns ∨
    ∃ o, c.committedSeq = some o ∧ o ≤ m'.oracle.lastCommittedSeq

namespace ManagerStep

open TransactionManagerInner

variable (m : TransactionManagerInner Id K)

/-- An operation that keeps the queue, keeps each active start and does not
move the published sequence number back. -/
theorem of_queue_eq {m' : TransactionManagerInner Id K}
    (hrec : m'.recentCommittedTxns = m.recentCommittedTxns)
    (hora : m.oracle.lastCommittedSeq ≤ m'.oracle.lastCommittedSeq)
    (hact : ∀ p ∈ m'.activeTxns, ∃ q ∈ m.activeTxns, q.2.startedSeq = p.2.startedSeq) :
    ManagerStep m m' where
  committed_le := hora
  active p hp := .inl (hact p hp)
  dropped _ hc hc' := absurd (hrec ▸ hc) hc'
  added _ hc := .inl (hrec ▸ hc)

theorem newTransaction (txnId : Id) : ManagerStep m (m.newTransaction txnId).1 where
  committed_le := le_rfl
  active p hp := by
    rcases List.mem_cons.mp hp with rfl | hp
    · exact .inr rfl
    · exact .inl ⟨p, m.mem_removeActive hp, rfl⟩
  dropped c hc hc' := absurd hc hc'
  added c hc := .inl hc

theorem modifyActive (txnId : Id) (f : TransactionState K → TransactionState K)
    (hf : ∀ t, (f t).startedSeq = t.startedSeq) :
    ManagerStep m { m with activeTxns := m.modifyActive txnId f } :=
  of_queue_eq m rfl le_rfl (fun _ hp => m.mem_modifyActive txnId f hf hp)

theorem dropTxn (txnId : Id) : ManagerStep m (m.dropTxn txnId) where
  committed_le := by simp [TransactionManagerInner.dropTxn]
  active p hp := by
    simp only [TransactionManagerInner.dropTxn, recycle_activeTxns] at hp
    exact .inl ⟨p, m.mem_removeActive hp, rfl⟩
  dropped c hc hc' o ho p hp := by
    simp only [TransactionManagerInner.dropTxn, recycle_activeTxns] at hp
    -- recycling drops `c` only when every remaining transaction started after it
    by_contra hle
    exact hc' (recycle_keeps _ hc ho hp (by omega))
  added _ hc := .inl (recycle_recent_sub { m with activeTxns := m.removeActive txnId } hc)

/-- Queueing a committed state, with the active set shrunk to `act`, and
publishing its sequence number. -/
theorem track (act : List (Id × TransactionState K)) (hact : ∀ p ∈ act, p ∈ m.activeTxns)
    (st : TransactionState K) (seq : Nat) (hst : st.committedSeq = some seq) :
    ManagerStep m { ({ m with activeTxns := act }.trackRecentCommittedState st) with
      oracle := m.oracle.advanceCommittedSeq seq } where
  committed_le := le_max_left _ _
  active p hp := by
    simp only [trackState_activeTxns] at hp
    exact .inl ⟨p, hact p hp, rfl⟩
  dropped c hc hc' o _ p hp := by
    simp only [trackState_activeTxns] at hp
    -- with a transaction left active the state is appended and nothing is dropped
    refine absurd ?_ hc'
    simp only [trackState_recent_of_active { m with activeTxns := act } st hp]
    exact List.mem_append_left _ hc
  added c hc := by
    rcases trackState_recent_sub _ hc with hc | rfl
    · exact .inl hc
    · exact .inr ⟨seq, hst, le_max_right _ _⟩

theorem trackRecentCommittedTxn (txnId : Id) (seq : Nat) :
    ManagerStep m (m.trackRecentCommittedTxn txnId seq) := by
  cases hl : m.activeTxns.lookup txnId with
  | none =>
      -- a transaction no longer active leaves the queue as it is
      simp only [TransactionManagerInner.trackRecentCommittedTxn, hl]
      exact of_queue_eq m rfl (le_max_left _ _) (fun p hp => ⟨p, hp, rfl⟩)
  | some t =>
      simp only [TransactionManagerInner.trackRecentCommittedTxn, hl, trackState_oracle]
      exact track m _ (fun _ hp => m.mem_removeActive hp) _ seq rfl

theorem trackRecentCommittedWriteBatch (keys : Finset K) (seq : Nat) :
    ManagerStep m (m.trackRecentCommittedWriteBatch keys seq) := by
  simp only [TransactionManagerInner.trackRecentCommittedWriteBatch, trackState_oracle]
  exact track m m.activeTxns (fun _ hp => hp) _ seq rfl

/-- One operation keeps a committed state queued, or leaves every active
transaction started at or after it committed. -/
theorem keeps {m' : TransactionManagerInner Id K} (h : ManagerStep m m') {c : TransactionState K}
    {o : Nat} (ho : c.committedSeq = some o) (hle : o ≤ m.oracle.lastCommittedSeq)
    (hc : c ∈ m.recentCommittedTxns ∨ ∀ q ∈ m.activeTxns, o ≤ q.2.startedSeq) :
    c ∈ m'.recentCommittedTxns ∨ ∀ q ∈ m'.activeTxns, o ≤ q.2.startedSeq := by
  by_cases hc' : c ∈ m'.recentCommittedTxns
  · exact .inl hc'
  · right
    intro q hq
    rcases hc with hc | hall
    · exact (h.dropped c hc hc' o ho q hq).le
    · rcases h.active q hq with ⟨q₀, hq₀, heq⟩ | heq
      · exact heq ▸ hall q₀ hq₀
      · exact heq ▸ hle

end ManagerStep

namespace WriterState

theorem commitSeqFor_lastCommittedSeq {s : WriterState Id K} {seqnum commitSeq : Nat}
    {o : DbOracle} (hc : s.commitSeqFor seqnum = some (commitSeq, o)) :
    o.lastCommittedSeq = s.manager.oracle.lastCommittedSeq := by
  unfold WriterState.commitSeqFor at hc
  split_ifs at hc <;> cases hc <;> rfl

/-- Every event of the writer or of a transaction is one operation on the
manager. -/
theorem managerStep {s s' : WriterState Id K} {e : TxnEvent Id K} (hs : s.step e = some s') :
    ManagerStep s.manager s'.manager := by
  have hsame : ManagerStep s.manager s.manager :=
    ManagerStep.of_queue_eq _ rfl le_rfl (fun p hp => ⟨p, hp, rfl⟩)
  cases e with
  | newTransaction txnId =>
      cases hs
      exact ManagerStep.newTransaction _ txnId
  | trackWriteKeys txnId keys =>
      cases hs
      exact ManagerStep.modifyActive _ txnId _ (by simp)
  | trackReadKeys txnId keys =>
      cases hs
      exact ManagerStep.modifyActive _ txnId _ (by simp)
  | trackReadRange txnId range =>
      cases hs
      exact ManagerStep.modifyActive _ txnId _ (by simp)
  | dropTxn txnId =>
      cases hs
      exact ManagerStep.dropTxn _ txnId
  | assignSeq txnId keys seqnum =>
      simp only [step] at hs
      split at hs
      · rename_i commitSeq oracle _ hc
        cases hs
        exact ManagerStep.of_queue_eq _ rfl (commitSeqFor_lastCommittedSeq hc).ge
          (fun p hp => ⟨p, hp, rfl⟩)
      · cases hs
  | checkConflict =>
      simp only [step] at hs
      split at hs
      · split_ifs at hs
        split at hs
        · cases hs
          exact hsame
        · split at hs <;> cases hs <;> exact hsame
      · cases hs
  | failWrite =>
      simp only [step] at hs
      split at hs
      · cases hs
        exact hsame
      · cases hs
  | commitWrite =>
      simp only [step] at hs
      split at hs
      · rename_i p _
        split_ifs at hs
        split at hs
        · cases hs
          exact ManagerStep.trackRecentCommittedTxn _ _ p.commitSeq
        · cases hs
          exact ManagerStep.trackRecentCommittedWriteBatch _ p.keys p.commitSeq
      · cases hs

end WriterState

/-! ### The queue over every run -/

/-- The queue holds committed states only, none past the published sequence
number. -/
structure QueueInv (m : TransactionManagerInner Id K) : Prop where
  recent_some : ∀ c ∈ m.recentCommittedTxns, c.committedSeq.isSome
  recent_le : ∀ c ∈ m.recentCommittedTxns, ∀ o, c.committedSeq = some o →
    o ≤ m.oracle.lastCommittedSeq

theorem ManagerStep.queueInv {m m' : TransactionManagerInner Id K} (h : ManagerStep m m')
    (hi : QueueInv m) : QueueInv m' where
  recent_some c hc := by
    rcases h.added c hc with hc | ⟨o, ho, -⟩
    · exact hi.recent_some c hc
    · simp [ho]
  recent_le c hc o ho := by
    rcases h.added c hc with hc | ⟨o', ho', hle⟩
    · exact (hi.recent_le c hc o ho).trans h.committed_le
    · rw [ho] at ho'
      cases ho'
      exact hle

theorem queueInv_invariant :
    (writer : Transition.System (WriterState Id K) (TxnEvent Id K)).Invariant
      (fun s => QueueInv s.manager) where
  init s hs := by
    obtain ⟨-, hrec, -⟩ := hs
    exact ⟨by simp [hrec], by simp [hrec]⟩
  step _ _ _ h hs := (WriterState.managerStep hs).queueInv h

/-- On every reachable state the conflict check of an active transaction
returns, without panicking, whether some queued state conflicts with it. -/
theorem checkHasConflict_queue {s : WriterState Id K} (hs : writer.Reachable s) {txnId : Id}
    {t : TransactionState K} (ht : s.manager.activeTxns.lookup txnId = some t) :
    ∃ b, s.manager.checkHasConflict txnId = some b ∧
      (b = true ↔ ∃ c ∈ s.manager.recentCommittedTxns, ConflictsWith t c) :=
  s.manager.checkHasConflict_spec (queueInv_invariant.reachable hs).recent_some ht

/-- Garbage collection never discards a queued state that a transaction could
still conflict with: from any reachable state, along any run, a queued state
stays queued while some active transaction started before it committed. -/
theorem queue_keeps_conflicting {s s' : WriterState Id K} (hs : writer.Reachable s)
    (hrun : writer.Runs s s') {c : TransactionState K} (hc : c ∈ s.manager.recentCommittedTxns)
    {o : Nat} (ho : c.committedSeq = some o) {p : Id × TransactionState K}
    (hp : p ∈ s'.manager.activeTxns) (hlt : p.2.startedSeq < o) :
    c ∈ s'.manager.recentCommittedTxns := by
  have hle : o ≤ s.manager.oracle.lastCommittedSeq :=
    (queueInv_invariant.reachable hs).recent_le c hc o ho
  -- carried along the run: `o` stays published, and `c` stays queued until every
  -- active transaction started at or after it
  have hrun' := hrun.preserve
    (fun t _ t' (ht : o ≤ t.manager.oracle.lastCommittedSeq ∧
        (c ∈ t.manager.recentCommittedTxns ∨
          ∀ q ∈ t.manager.activeTxns, o ≤ q.2.startedSeq)) hst =>
      have hstep := WriterState.managerStep hst
      ⟨ht.1.trans hstep.committed_le, hstep.keeps _ ho ht.1 ht.2⟩)
    ⟨hle, .inl hc⟩
  rcases hrun'.2 with hc' | hall
  · exact hc'
  · exact absurd (hall p hp) (by omega)

/-! ### A commit the queue misses -/

/-- Transaction `2` begins and writes key `5`. Transaction `1` begins, writes key
`5` and sends its batch; its commit future is then cancelled, and its `Drop`
removes it from the manager. The writer takes the batch, gives it sequence
number `1`, finds no conflict for the unknown transaction and writes it. -/
def droppedCommit : List (TxnEvent Nat Nat) :=
  [.newTransaction 2, .trackWriteKeys 2 {5}, .newTransaction 1, .trackWriteKeys 1 {5},
    .dropTxn 1, .assignSeq (some 1) {5} 0, .checkConflict, .commitWrite]

def emptyWriter : WriterState Nat Nat := ⟨⟨[], [], ⟨0, 0⟩⟩, none, []⟩

def afterDroppedCommit : WriterState Nat Nat :=
  (Transition.System.runFrom WriterState.step emptyWriter droppedCommit).getD emptyWriter

theorem afterDroppedCommit_reachable : writer.Reachable afterDroppedCommit :=
  Transition.System.reachable_runFrom (fun _ _ _ h => h) droppedCommit
    (show writer.Reachable emptyWriter from .init ⟨rfl, rfl, rfl, rfl, le_rfl⟩) rfl

/-- After that run transaction `2` is still active and its check passes, though
the batch written at sequence number `1` wrote key `5`, which transaction `2`,
started at `0`, also wrote. -/
theorem checkHasConflict_misses_dropped_commit :
    writer.Reachable afterDroppedCommit ∧
    afterDroppedCommit.manager.activeTxns.lookup 2 =
      some ((TransactionState.new 0).trackWriteKeys {5}) ∧
    afterDroppedCommit.manager.checkHasConflict 2 = some false ∧
    ∃ c ∈ afterDroppedCommit.committed,
      ConflictsWith ((TransactionState.new 0).trackWriteKeys {5} : TransactionState Nat) c := by
  have hcommitted : afterDroppedCommit.committed = [WriterState.batchState {5} 1] := rfl
  refine ⟨afterDroppedCommit_reachable, rfl, rfl, WriterState.batchState {5} 1, ?_, ?_⟩
  · rw [hcommitted]
    exact List.mem_singleton_self _
  · exact .inl ⟨1, rfl, by decide, by decide⟩

end SlateDb
