import SlateDb.Types
import SlateDb.Lib.Machine

/-!
# The retention iterator

`RetentionIterator` collects all versions of a key from its upstream iterator
in a `RetentionBuffer`, applies the retention filter to them and hands them
out newest first. The filter walks the versions from the newest: an expired
merge operand is skipped, an expired value becomes a tombstone, and every
other version is kept; after a kept version the walk goes on only while the
version is inside the retention window by time or by sequence number, or is
a merge operand. With `filter_tombstone` the tombstones at the old end of
what was kept are dropped.

The buffer's `BTreeMap<Reverse<u64>, RowEntry>` is a list ordered by sequence
number, newest first, where inserting a sequence number already present
replaces that version. The upstream iterator is the list of entries it has
still to return; the sequence tracker's `find_ts` with `RoundUp` and the
system clock's reading are parameters. The `unreachable!` of `pop` is a
failure of the step machine carrying its message.
-/

namespace SlateDb

variable {K V : Type}

/-- Insertion into `BTreeMap<Reverse<u64>, RowEntry>`. -/
def insertVersion (entry : RowEntry K V) : List (RowEntry K V) → List (RowEntry K V)
  | [] => [entry]
  | v :: vs =>
    if v.seq < entry.seq then entry :: v :: vs
    else if v.seq = entry.seq then entry :: vs
    else v :: insertVersion entry vs

theorem length_insertVersion_le (entry : RowEntry K V) :
    ∀ versions : List (RowEntry K V), (insertVersion entry versions).length ≤ versions.length + 1
  | [] => by simp [insertVersion]
  | v :: vs => by
    have ih := length_insertVersion_le entry vs
    simp only [insertVersion]
    split
    · simp
    split
    · simp
    · simp only [List.length_cons]; omega

/-- `pop_last` while the oldest version is a tombstone. -/
def trimTombstones (filtered : List (RowEntry K V)) : List (RowEntry K V) :=
  (filtered.reverse.dropWhile (·.value.isTombstone)).reverse

theorem length_trimTombstones_le (filtered : List (RowEntry K V)) :
    (trimTombstones filtered).length ≤ filtered.length := by
  simp only [trimTombstones, List.length_reverse]
  exact Nat.le_trans (List.dropWhile_suffix _).length_le (Nat.le_of_eq List.length_reverse)

structure RetentionIterator where
  retentionTimeout : Option Nat
  retentionMinSeq : Option Nat
  filterTombstone : Bool
  compactionStartTs : Int
  currentSystemTs : Int
  findTs : Nat → Option Int

namespace RetentionIterator

variable (it : RetentionIterator)

def continueRetainByTime (entrySeq : Nat) : Bool :=
  match it.retentionTimeout with
  | some timeout =>
    let createSysTs := (it.findTs entrySeq).getD it.currentSystemTs
    decide (it.currentSystemTs < createSysTs + timeout)
  | none => false

def continueRetainBySeq (entrySeq : Nat) : Bool :=
  match it.retentionMinSeq with
  | some minSeq => decide (minSeq < entrySeq)
  | none => false

/-- A version after the expiry check of `apply_retention_filter`; `none` is
an expired merge operand, which the loop skips. -/
def expireEntry (entry : RowEntry K V) : Option (RowEntry K V) :=
  match entry.expireTs with
  | some expireTs =>
    if expireTs ≤ it.compactionStartTs then
      if entry.value.isMerge then none
      else some { entry with value := .tombstone, expireTs := none }
    else some entry
  | none => some entry

/-- The loop of `apply_retention_filter` over the versions, newest first. -/
def retainVersions : List (RowEntry K V) → List (RowEntry K V) → List (RowEntry K V)
  | [], filtered => filtered
  | entry :: versions, filtered =>
    let isMerge := entry.value.isMerge
    match it.expireEntry entry with
    | none => retainVersions versions filtered
    | some entry =>
      let filtered := insertVersion entry filtered
      if it.continueRetainByTime entry.seq || it.continueRetainBySeq entry.seq || isMerge then
        retainVersions versions filtered
      else filtered

def applyRetentionFilter (versions : List (RowEntry K V)) : List (RowEntry K V) :=
  let filtered := it.retainVersions versions []
  if it.filterTombstone then trimTombstones filtered else filtered

theorem length_retainVersions_le :
    ∀ versions filtered : List (RowEntry K V),
      (it.retainVersions versions filtered).length ≤ versions.length + filtered.length
  | [], filtered => by simp [retainVersions]
  | entry :: versions, filtered => by
    simp only [retainVersions]
    split
    · have := length_retainVersions_le versions filtered
      simp only [List.length_cons]; omega
    · rename_i kept _
      have hins := length_insertVersion_le kept filtered
      split
      · have := length_retainVersions_le versions (insertVersion kept filtered)
        simp only [List.length_cons]; omega
      · simp only [List.length_cons]; omega

theorem length_applyRetentionFilter_le (versions : List (RowEntry K V)) :
    (it.applyRetentionFilter versions).length ≤ versions.length := by
  have h := it.length_retainVersions_le versions []
  simp only [List.length_nil, Nat.add_zero] at h
  simp only [applyRetentionFilter]
  split
  · exact Nat.le_trans (length_trimTombstones_le _) h
  · exact h

end RetentionIterator

structure RetentionBuffer (K V : Type) where
  currentVersions : List (RowEntry K V)
  next : Option (RowEntry K V)
  processed : Bool
  endOfInput : Bool

inductive RetentionBufferState where
  | needPush
  | needPopAndContinue
  | needPopAndQuit
  | needProcess
  deriving DecidableEq, Repr

namespace RetentionBuffer

def new : RetentionBuffer K V := ⟨[], none, false, false⟩

def state (b : RetentionBuffer K V) : RetentionBufferState :=
  if b.processed then
    if b.endOfInput then .needPopAndQuit else .needPopAndContinue
  else if b.endOfInput || b.next.isSome then .needProcess
  else .needPush

def markEndOfInput (b : RetentionBuffer K V) : RetentionBuffer K V :=
  { b with endOfInput := true }

/-- An entry of another key than the current versions' is kept as `next`. -/
def push [DecidableEq K] (b : RetentionBuffer K V) (entry : RowEntry K V) : RetentionBuffer K V :=
  match b.currentVersions with
  | [] => { b with currentVersions := insertVersion entry [] }
  | current :: _ =>
    if entry.key ≠ current.key then { b with next := some entry }
    else { b with currentVersions := insertVersion entry b.currentVersions }

def processRetention (b : RetentionBuffer K V) (f : List (RowEntry K V) → List (RowEntry K V)) :
    RetentionBuffer K V :=
  if b.processed then b
  else { b with currentVersions := f b.currentVersions, processed := true }

/-- Pops the newest version; once none is left, promotes `next`. -/
def pop (b : RetentionBuffer K V) : Except String (Option (RowEntry K V) × RetentionBuffer K V) :=
  match b.currentVersions with
  | entry :: rest => .ok (some entry, { b with currentVersions := rest })
  | [] =>
    match b.next with
    | some entry =>
      .ok (none, { b with currentVersions := insertVersion entry [], next := none, processed := false })
    | none =>
      if b.endOfInput then .ok (none, b)
      else .error "No next entry but not at end of input - this shouldn\x27t happen"

theorem state_needPush {b : RetentionBuffer K V} (h : b.state = .needPush) :
    b.processed = false ∧ b.endOfInput = false ∧ b.next = none := by
  simp only [state] at h
  split_ifs at h with hp he
  simp_all

theorem state_needPopAndContinue {b : RetentionBuffer K V} (h : b.state = .needPopAndContinue) :
    b.processed = true ∧ b.endOfInput = false := by
  simp only [state] at h
  split_ifs at h with hp he
  simp_all

theorem state_needPopAndQuit {b : RetentionBuffer K V} (h : b.state = .needPopAndQuit) :
    b.processed = true ∧ b.endOfInput = true := by
  simp only [state] at h
  split_ifs at h with hp he
  simp_all

theorem state_needProcess {b : RetentionBuffer K V} (h : b.state = .needProcess) :
    b.processed = false ∧ (b.endOfInput = true ∨ b.next.isSome) := by
  simp only [state] at h
  split_ifs at h with hp he
  simp_all

theorem pop_some {b b' : RetentionBuffer K V} {e : RowEntry K V}
    (h : b.pop = .ok (some e, b')) :
    ∃ rest, b.currentVersions = e :: rest ∧ b' = { b with currentVersions := rest } := by
  unfold pop at h
  split at h
  · rename_i entry rest hc
    simp only [Except.ok.injEq, Prod.mk.injEq, Option.some.injEq] at h
    obtain ⟨rfl, rfl⟩ := h
    exact ⟨rest, hc, rfl⟩
  · split at h
    · simp at h
    · split at h
      · simp at h
      · cases h

/-- A pop that returns nothing either promotes `next` or finds the end of input. -/
theorem pop_none {b b' : RetentionBuffer K V} (h : b.pop = .ok (none, b')) :
    b.currentVersions = [] ∧
      ((∃ e, b.next = some e ∧
        b' = { b with currentVersions := [e], next := none, processed := false }) ∨
      (b.next = none ∧ b.endOfInput = true ∧ b' = b)) := by
  unfold pop at h
  split at h
  · simp at h
  · rename_i hc
    split at h
    · rename_i e he
      simp only [Except.ok.injEq, Prod.mk.injEq, true_and] at h
      exact ⟨hc, .inl ⟨e, he, by rw [← h]; rfl⟩⟩
    · rename_i hn
      split at h
      · simp only [Except.ok.injEq, Prod.mk.injEq, true_and] at h
        exact ⟨hc, .inr ⟨hn, by assumption, h.symm⟩⟩
      · cases h

/-- `pop` panics only with no version, no `next` and the input not at its end. -/
theorem pop_error {b : RetentionBuffer K V} {msg : String} (h : b.pop = .error msg) :
    b.currentVersions = [] ∧ b.next = none ∧ b.endOfInput = false := by
  unfold pop at h
  split at h
  · cases h
  · split at h
    · cases h
    · split at h
      · cases h
      · simp_all

end RetentionBuffer

namespace RetentionIterator

variable [DecidableEq K] (it : RetentionIterator)

/-- One turn of the loop of `next`. -/
def step : RetentionBuffer K V × List (RowEntry K V) →
    Machine.Step (RetentionBuffer K V × List (RowEntry K V)) (RowEntry K V) String
  | (b, upstream) =>
    match b.state with
    | .needPush =>
      match upstream with
      | [] => .skip (b.markEndOfInput, [])
      | entry :: rest => .skip (b.push entry, rest)
    | .needPopAndContinue =>
      match b.pop with
      | .ok (some entry, b) => .emit entry (b, upstream)
      | .ok (none, b) => .skip (b, upstream)
      | .error msg => .fail msg
    | .needPopAndQuit =>
      match b.pop with
      | .ok (some entry, b) => .emit entry (b, upstream)
      | .ok (none, _) => .done
      | .error msg => .fail msg
    | .needProcess => .skip (b.processRetention it.applyRetentionFilter, upstream)

/-- A measure of the work left: pulling an upstream entry may add a version
or fill `next`, processing never adds versions, and promoting `next` adds
one version but reopens processing. -/
def rank (s : RetentionBuffer K V × List (RowEntry K V)) : Nat :=
  4 * s.2.length + 3 * (if s.1.next.isSome then 1 else 0) + s.1.currentVersions.length +
    (if s.1.processed then 0 else 1) + (if s.1.endOfInput then 0 else 1)

theorem rank_push {b : RetentionBuffer K V} (hn : b.next = none) (entry : RowEntry K V)
    (rest : List (RowEntry K V)) : rank (b.push entry, rest) < rank (b, entry :: rest) := by
  have hins := length_insertVersion_le entry b.currentVersions
  simp only [RetentionBuffer.push]
  split
  · rename_i hc
    simp [rank, insertVersion, hn, hc]
    omega
  · split
    · simp [rank, hn]
      omega
    · simp [rank, hn]
      omega

theorem rank_emit {s s' : RetentionBuffer K V × List (RowEntry K V)} {e : RowEntry K V}
    (h : it.step s = .emit e s') : rank s' < rank s := by
  obtain ⟨b, up⟩ := s
  have hpop : ∀ {b' : RetentionBuffer K V}, b.pop = .ok (some e, b') →
      rank (b', up) < rank (b, up) := fun hp => by
    obtain ⟨rest, hc, rfl⟩ := RetentionBuffer.pop_some hp
    simp [rank, hc]
  simp only [step] at h
  split at h
  next => split at h <;> cases h
  next =>
    split at h
    · cases h
      exact hpop (by assumption)
    all_goals cases h
  next =>
    split at h
    · cases h
      exact hpop (by assumption)
    all_goals cases h
  next => cases h

theorem rank_skip {s s' : RetentionBuffer K V × List (RowEntry K V)}
    (h : it.step s = .skip s') : rank s' < rank s := by
  obtain ⟨b, up⟩ := s
  simp only [step] at h
  split at h
  next hst =>
    obtain ⟨-, he, hn⟩ := RetentionBuffer.state_needPush hst
    split at h
    · cases h
      simp [rank, RetentionBuffer.markEndOfInput, he, hn]
    · cases h
      exact rank_push hn _ _
  next hst =>
    obtain ⟨hp, he⟩ := RetentionBuffer.state_needPopAndContinue hst
    split at h
    · cases h
    · rename_i b' hpop
      cases h
      obtain ⟨hc, ⟨e, hn, rfl⟩ | ⟨-, he', -⟩⟩ := RetentionBuffer.pop_none hpop
      · simp [rank, hc, hn, hp]
      · simp_all
    · cases h
  next => split at h <;> cases h
  next hst =>
    obtain ⟨hp, -⟩ := RetentionBuffer.state_needProcess hst
    cases h
    have := it.length_applyRetentionFilter_le b.currentVersions
    simp [rank, RetentionBuffer.processRetention, hp]
    omega

def machine : Machine (RetentionBuffer K V × List (RowEntry K V)) (RowEntry K V) String where
  step := it.step
  rank := rank
  rank_emit := it.rank_emit
  rank_skip := it.rank_skip

/-- The entries a consumer gets by calling `next` until it returns `None`. -/
def drain (upstream : List (RowEntry K V)) : Except String (List (RowEntry K V)) :=
  it.machine.run (RetentionBuffer.new, upstream)

/-- A drain ends within four calls per upstream entry and three more. -/
theorem drain_eq_runFuel (upstream : List (RowEntry K V)) :
    it.drain upstream = it.machine.runFuel (4 * upstream.length + 3) (RetentionBuffer.new, upstream) :=
  (it.machine.runFuel_eq _ _ (by simp [machine, rank, RetentionBuffer.new])).symm

end RetentionIterator

end SlateDb
