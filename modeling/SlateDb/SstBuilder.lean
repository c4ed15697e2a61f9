import SlateDb.Lib.ListLex
import SlateDb.Types

/-!
# Building an SST: blocks and their index keys

`EncodedSsTableBuilder` (sst_builder.rs) cuts a stream of row entries into
blocks, and records for each block an index key computed by
`compute_index_key` (utils.rs) from the last key of the block before and the
first key of the block. Keys are byte strings, here lists over a linear order
compared lexicographically (`ListLex`).

Of a block format the builder asks only whether an entry still fits
(`would_fit`), and both formats take any entry into an empty block
(`BlockLayout`); how a block is encoded is left to the block formats.
Compression, filters and statistics do not touch the index and are left out.

The main result is that for sorted entries with non-empty keys the index
partitions the key space (`Indexed`): the first block has the empty key, and
every later block's key separates it from the block before (`Separates`).
-/

namespace SlateDb

variable {α V : Type}

/-- How adding to an SST stops: the block builder's `EmptyKey` error, or a
panic of an assertion or of indexing a key past its end. -/
inductive SstBuildFailure where
  | emptyKey
  | panic (message : String)
  deriving DecidableEq, Repr

section IndexKey

variable [DecidableEq α]

/-- The loop of `compute_lower_bound` with what follows it, read from the
first byte: the first byte where the keys differ ends the bound; keys that
agree to the end give the whole second key, and a first key that is a proper
prefix gives one more byte of the second. Reading the second key past its end
panics. -/
def lowerBoundScan : List α → List α → Except SstBuildFailure (List α)
  | [], [] => .ok []
  | [], t :: _ => .ok [t]
  | _ :: _, [] => .error (.panic "index out of bounds")
  | p :: ps, t :: ts => if p ≠ t then .ok [t] else (lowerBoundScan ps ts).map (t :: ·)

/-- `compute_lower_bound`: both keys must be non-empty. -/
def computeLowerBound (prevBlockLastKey thisBlockFirstKey : List α) :
    Except SstBuildFailure (List α) :=
  if prevBlockLastKey.isEmpty || thisBlockFirstKey.isEmpty then
    .error (.panic "assertion failed: !prev_block_last_key.is_empty() && !this_block_first_key.is_empty()")
  else lowerBoundScan prevBlockLastKey thisBlockFirstKey

/-- `compute_index_key`: the first block of an SST gets the empty key. -/
def computeIndexKey (prevBlockLastKey : Option (List α)) (thisBlockFirstKey : List α) :
    Except SstBuildFailure (List α) :=
  match prevBlockLastKey with
  | some prevKey => computeLowerBound prevKey thisBlockFirstKey
  | none => .ok []

end IndexKey

/-! ### Valid index keys -/

section Separates

variable {K : Type} [LinearOrder K]

/-- An index key `k` between a block that ends at `last` and the next block,
which starts at `first`: at least `last`, at most `first`, and above `last`
when the two keys differ, so that a read of a key below `k` can skip the
next block. -/
def Separates (last k first : K) : Prop :=
  last ≤ k ∧ k ≤ first ∧ (last ≠ first → last < k)

/-- Blocks `bs` with index keys `ks`, after a block ending at `last` (none
before the first block): every block is non-empty and its key separates it
from the block before. -/
def IndexedFrom : Option K → List (Option K) → List (List (RowEntry K V)) → Prop
  | _, [], [] => True
  | last, some k :: ks, b :: bs =>
    ∃ f l, b.head? = some f ∧ b.getLast? = some l ∧ (∀ p ∈ last, Separates p k f.key) ∧
      IndexedFrom (some l.key) ks bs
  | _, _, _ => False

theorem IndexedFrom.length_eq :
    ∀ {last : Option K} {ks : List (Option K)} {bs : List (List (RowEntry K V))},
      IndexedFrom last ks bs → ks.length = bs.length
  | _, [], [], _ => rfl
  | _, some _ :: _, _ :: _, ⟨_, _, _, _, _, h⟩ => congrArg (· + 1) h.length_eq
  | _, [], _ :: _, h => nomatch h
  | _, some _ :: _, [], h => nomatch h
  | _, none :: _, _, h => nomatch h

/-- Extending the last block keeps the index valid. -/
theorem IndexedFrom.extend_last (e : RowEntry K V) :
    ∀ {last : Option K} {ks : List (Option K)} {bs : List (List (RowEntry K V))} {k b},
      IndexedFrom last (ks ++ [k]) (bs ++ [b]) → IndexedFrom last (ks ++ [k]) (bs ++ [b ++ [e]])
  | _, [], [], some _, _, ⟨f, _, hf, _, hsep, _⟩ =>
    ⟨f, e, by simp [List.head?_append, hf], by simp, hsep, trivial⟩
  | _, [], _ :: _, _, _, h => absurd h.length_eq (by simp)
  | _, _ :: _, [], _, _, h => absurd h.length_eq (by simp)
  | _, some _ :: _, _ :: _, _, _, ⟨f, l, hf, hl, hsep, h⟩ =>
    ⟨f, l, hf, hl, hsep, IndexedFrom.extend_last e h⟩
  | _, none :: _, _ :: _, _, _, h => nomatch h

/-- Starting a new block with `e` keeps the index valid when its key `k'`
separates it from the last block. -/
theorem IndexedFrom.push (e : RowEntry K V) (k' : K) :
    ∀ {last : Option K} {ks : List (Option K)} {bs : List (List (RowEntry K V))} {k b},
      IndexedFrom last (ks ++ [k]) (bs ++ [b]) → (∀ l ∈ b.getLast?, Separates l.key k' e.key) →
      IndexedFrom last (ks ++ [k] ++ [some k']) (bs ++ [b] ++ [[e]])
  | _, [], [], some _, _, ⟨f, l, hf, hl, hsep, _⟩, hnew =>
    ⟨f, l, hf, hl, hsep, e, e, rfl, rfl, fun p hp => by
      cases hp
      exact hnew l hl, trivial⟩
  | _, [], _ :: _, _, _, h, _ => absurd h.length_eq (by simp)
  | _, _ :: _, [], _, _, h, _ => absurd h.length_eq (by simp)
  | _, some _ :: _, _ :: _, _, _, ⟨f, l, hf, hl, hsep, h⟩, hnew =>
    ⟨f, l, hf, hl, hsep, IndexedFrom.push e k' h hnew⟩
  | _, none :: _, _ :: _, _, _, h, _ => nomatch h

end Separates

section Indexed

variable [LinearOrder α]

/-- The index of an SST partitions the key space: the first block has the
empty key (`EMPTY_KEY`), and each later block's key separates it from the
block before. -/
def Indexed (ks : List (Option (List α))) (bs : List (List (RowEntry (List α) V))) : Prop :=
  (∀ k ∈ ks.head?, k = some []) ∧ IndexedFrom none ks bs

theorem Indexed.extend_last (e : RowEntry (List α) V) {ks : List (Option (List α))}
    {bs : List (List (RowEntry (List α) V))} {k b}
    (h : Indexed (ks ++ [k]) (bs ++ [b])) : Indexed (ks ++ [k]) (bs ++ [b ++ [e]]) :=
  ⟨h.1, h.2.extend_last e⟩

theorem Indexed.push (e : RowEntry (List α) V) (k' : List α) {ks : List (Option (List α))}
    {bs : List (List (RowEntry (List α) V))} {k b}
    (h : Indexed (ks ++ [k]) (bs ++ [b])) (hnew : ∀ l ∈ b.getLast?, Separates l.key k' e.key) :
    Indexed (ks ++ [k] ++ [some k']) (bs ++ [b] ++ [[e]]) := by
  refine ⟨?_, h.2.push e k' hnew⟩
  rw [List.head?_append_of_ne_nil _ (by simp)]
  exact h.1

theorem indexed_singleton (e : RowEntry (List α) V) : Indexed [some []] [[e]] :=
  ⟨by simp, e, e, rfl, rfl, (fun _ hp => nomatch hp), trivial⟩

/-! ### The separator -/

/-- The bound of `lowerBoundScan` is a prefix of the second key and lies at
or above the first, strictly when the keys differ. -/
theorem lowerBoundScan_spec : ∀ {prev this : List α}, prev ≤ this →
    ∃ k, lowerBoundScan prev this = .ok k ∧ k <+: this ∧ prev ≤ k ∧ (prev ≠ this → prev < k)
  | [], [], _ => ⟨[], rfl, List.prefix_refl _, le_rfl, fun h => absurd rfl h⟩
  | [], t :: ts, _ => ⟨[t], rfl, ⟨ts, rfl⟩, ListLex.nil_le _, fun _ => ListLex.nil_lt_cons t []⟩
  | p :: ps, [], h => absurd h (ListLex.not_cons_le_nil p ps)
  | p :: ps, t :: ts, h => by
    by_cases hpt : p = t
    · -- equal bytes: the bound continues with the rest of both keys
      subst hpt
      obtain ⟨k, hk, hpre, hle, hlt⟩ := lowerBoundScan_spec (ListLex.cons_le_cons_iff.mp h)
      refine ⟨p :: k, by simp [lowerBoundScan, hk, Except.map], (List.prefix_cons_inj p).mpr hpre,
        List.cons_le_cons p hle, fun hne => ListLex.cons_lt_cons_iff.mpr (hlt ?_)⟩
      rintro rfl
      exact hne rfl
    · -- the first differing byte ends the bound, and decides the order
      have hlt : p :: ps < [t] := ListLex.cons_lt_cons_of_lt ps [] (ListLex.lt_of_cons_le_cons h hpt)
      exact ⟨[t], by simp [lowerBoundScan, hpt], ⟨ts, rfl⟩, hlt.le, fun _ => hlt⟩

/-- `compute_lower_bound` of two non-empty sorted keys succeeds with a key
that separates them. -/
theorem computeLowerBound_separates {prev this : List α} (hprev : prev ≠ []) (hthis : this ≠ [])
    (h : prev ≤ this) : ∃ k, computeLowerBound prev this = .ok k ∧ Separates prev k this := by
  obtain ⟨k, hk, hpre, hle, hlt⟩ := lowerBoundScan_spec h
  have hguard : (prev.isEmpty || this.isEmpty) = false := by
    simp [hprev, hthis]
  exact ⟨k, by rw [computeLowerBound, hguard, if_neg Bool.false_ne_true, hk],
    hle, ListLex.isPrefix_le hpre, hlt⟩

end Indexed

/-! ### The builder -/

/-- What the SST builder asks of a block format (`BlockBuilder::would_fit`):
whether an entry fits into a block holding the given entries. Both formats
accept any entry into an empty block. -/
structure BlockLayout (K V : Type) where
  wouldFit : List (RowEntry K V) → RowEntry K V → Bool
  wouldFit_nil : ∀ e, wouldFit [] e = true

/-- `BlockBuilder::add` (both formats): an empty key is an error, an entry
that does not fit is refused with `false`, any other is appended. -/
def BlockLayout.add (layout : BlockLayout (List α) V) (entries : List (RowEntry (List α) V))
    (entry : RowEntry (List α) V) : Except SstBuildFailure (List (RowEntry (List α) V) × Bool) :=
  if entry.key.isEmpty then .error .emptyKey
  else if !layout.wouldFit entries entry then .ok (entries, false)
  else .ok (entries ++ [entry], true)

theorem BlockLayout.add_of_fits (layout : BlockLayout (List α) V) {entries} {entry : RowEntry (List α) V}
    (he : entry.key ≠ []) (hfit : layout.wouldFit entries entry = true) :
    layout.add entries entry = .ok (entries ++ [entry], true) := by
  simp [BlockLayout.add, List.isEmpty_iff, he, hfit]

/-- The state of `EncodedSsTableBuilder` that the index depends on: the
entries of the block being filled, its index key (`first_key`), the first and
last keys of the SST, the last key added (`current_block_max_key`), and the
finished blocks with their index keys (`block_meta`). -/
structure EncodedSsTableBuilder (α V : Type) where
  builder : List (RowEntry (List α) V)
  firstKey : Option (List α)
  sstFirstKey : Option (List α)
  sstLastKey : Option (List α)
  currentBlockMaxKey : Option (List α)
  blockMeta : List (Option (List α))
  blocks : List (List (RowEntry (List α) V))

/-- What `build` puts in the SST info and index: the first and last keys
(`first_entry`, `last_entry`) and each block with its index key. -/
structure EncodedSsTable (α V : Type) where
  firstEntry : Option (List α)
  lastEntry : Option (List α)
  blockMeta : List (Option (List α))
  blocks : List (List (RowEntry (List α) V))

namespace EncodedSsTableBuilder

def new : EncodedSsTableBuilder α V := ⟨[], none, none, none, none, [], []⟩

/-- `finish_block`: a non-empty block moves to the finished blocks, with the
index key recorded for it. -/
def finishBlock (b : EncodedSsTableBuilder α V) : EncodedSsTableBuilder α V :=
  if b.builder.isEmpty then b
  else { b with builder := [], blockMeta := b.blockMeta ++ [b.firstKey],
                blocks := b.blocks ++ [b.builder], firstKey := none }

section Add

variable [DecidableEq α]

/-- `EncodedSsTableBuilder::add`. The index key is computed from the last key
added before the entry (`current_block_max_key.take()`, set again below), and
recorded when the entry opens a block: when it does not fit the current one,
or when it is the first entry of the SST. -/
def add (layout : BlockLayout (List α) V) (b : EncodedSsTableBuilder α V)
    (entry : RowEntry (List α) V) : Except SstBuildFailure (EncodedSsTableBuilder α V) := do
  let indexKey ← computeIndexKey b.currentBlockMaxKey entry.key
  let isSstFirstKey := b.sstFirstKey.isNone
  let b :=
    if !layout.wouldFit b.builder entry then { b.finishBlock with firstKey := some indexKey }
    else if isSstFirstKey then { b with firstKey := some indexKey }
    else b
  let b := if isSstFirstKey then { b with sstFirstKey := some entry.key } else b
  let b := { b with sstLastKey := some entry.key, currentBlockMaxKey := some entry.key }
  let (builder, _) ← layout.add b.builder entry
  return { b with builder := builder }

end Add

/-- `build`: the last block is finished and the footer records the SST's
first and last keys and the index. -/
def build (b : EncodedSsTableBuilder α V) : EncodedSsTable α V :=
  let b := b.finishBlock
  ⟨b.sstFirstKey, b.sstLastKey, b.blockMeta, b.blocks⟩

theorem finishBlock_of_ne_nil {b : EncodedSsTableBuilder α V} (h : b.builder ≠ []) :
    b.finishBlock = { b with builder := [], blockMeta := b.blockMeta ++ [b.firstKey],
                             blocks := b.blocks ++ [b.builder], firstKey := none } := by
  simp [finishBlock, List.isEmpty_iff, h]

section Add

variable [DecidableEq α] {layout : BlockLayout (List α) V} {b : EncodedSsTableBuilder α V}
  {entry : RowEntry (List α) V} {k : List α}

/-- `add` of an entry that fits the current block. -/
theorem add_of_fits (hk : computeIndexKey b.currentBlockMaxKey entry.key = .ok k)
    (he : entry.key ≠ []) (hfit : layout.wouldFit b.builder entry = true) :
    b.add layout entry = .ok { b with
      firstKey := if b.sstFirstKey.isNone then some k else b.firstKey,
      sstFirstKey := if b.sstFirstKey.isNone then some entry.key else b.sstFirstKey,
      sstLastKey := some entry.key, currentBlockMaxKey := some entry.key,
      builder := b.builder ++ [entry] } := by
  cases hfirst : b.sstFirstKey.isNone <;>
    simp [add, hk, hfit, hfirst, layout.add_of_fits he hfit, bind, Except.bind, pure, Except.pure]

/-- `add` of an entry that does not fit: the current block is finished and
the entry opens the next one under the index key. -/
theorem add_of_not_fits (hk : computeIndexKey b.currentBlockMaxKey entry.key = .ok k)
    (he : entry.key ≠ []) (hfit : layout.wouldFit b.builder entry = false) :
    b.add layout entry = .ok { b.finishBlock with
      firstKey := some k,
      sstFirstKey := if b.sstFirstKey.isNone then some entry.key else b.sstFirstKey,
      sstLastKey := some entry.key, currentBlockMaxKey := some entry.key,
      builder := [entry] } := by
  -- an empty block takes every entry, so the current block is not empty
  have hne : b.builder ≠ [] := by
    rintro hnil
    rw [hnil, layout.wouldFit_nil] at hfit
    cases hfit
  have hadd := layout.add_of_fits he (layout.wouldFit_nil entry)
  cases hfirst : b.sstFirstKey.isNone <;>
    simp [add, hk, hfit, hfirst, finishBlock_of_ne_nil hne, hadd, bind, Except.bind, pure,
      Except.pure]

end Add

/-! ### Every run of the builder -/

section Run

variable [LinearOrder α] (layout : BlockLayout (List α) V)

/-- What holds of the builder after the entries `added` went in: the blocks
and the block being filled hold them in order, the SST's first and last keys
and the last key added are read off them, the builder is empty only before the
first entry, and the index with the key of the block being filled is valid. -/
structure Inv (b : EncodedSsTableBuilder α V) (added : List (RowEntry (List α) V)) : Prop where
  contents : b.blocks.flatten ++ b.builder = added
  sstFirstKey_eq : b.sstFirstKey = added.head?.map (·.key)
  sstLastKey_eq : b.sstLastKey = added.getLast?.map (·.key)
  currentBlockMaxKey_eq : b.currentBlockMaxKey = added.getLast?.map (·.key)
  empty : b.builder = [] → b.blocks = [] ∧ b.blockMeta = []
  indexed : b.builder ≠ [] → Indexed (b.blockMeta ++ [b.firstKey]) (b.blocks ++ [b.builder])

theorem inv_new : Inv (new : EncodedSsTableBuilder α V) [] :=
  ⟨rfl, rfl, rfl, rfl, fun _ => ⟨rfl, rfl⟩, fun h => absurd rfl h⟩

variable {b : EncodedSsTableBuilder α V} {added : List (RowEntry (List α) V)}
  {e : RowEntry (List α) V}

/-- The first entry opens the first block under the empty key. -/
theorem Inv.add_first (hinv : Inv b added) (hnil : b.builder = []) (he : e.key ≠ []) :
    ∃ b', b.add layout e = .ok b' ∧ Inv b' (added ++ [e]) := by
  obtain ⟨hblocks, hmeta⟩ := hinv.empty hnil
  have hadded : added = [] := by simpa [hnil, hblocks] using hinv.contents.symm
  subst hadded
  have hk : computeIndexKey b.currentBlockMaxKey e.key = .ok [] := by
    simp [hinv.currentBlockMaxKey_eq, computeIndexKey]
  have hfit : layout.wouldFit b.builder e = true := hnil ▸ layout.wouldFit_nil e
  have hfirst : b.sstFirstKey = none := hinv.sstFirstKey_eq
  refine ⟨_, add_of_fits hk he hfit, ?_⟩
  constructor <;> simp [hfirst, hnil, hblocks, hmeta, indexed_singleton]

section Later

variable (hinv : Inv b added) (hne : b.builder ≠ []) {k : List α}
include hinv hne

theorem Inv.getLast?_eq : added.getLast? = b.builder.getLast? := by
  rw [← hinv.contents, List.getLast?_append_of_ne_nil _ hne]

theorem Inv.ne_nil : added ≠ [] := by
  rw [← hinv.contents]
  simp [hne]

theorem Inv.isNone_sstFirstKey : b.sstFirstKey.isNone = false := by
  obtain ⟨x, xs, rfl⟩ := List.exists_cons_of_ne_nil (hinv.ne_nil hne)
  simp [hinv.sstFirstKey_eq]

/-- After the first entry the SST's first key stays as it is. -/
theorem Inv.sstFirstKey_append :
    (if b.sstFirstKey.isNone then some e.key else b.sstFirstKey) =
      (added ++ [e]).head?.map (·.key) := by
  rw [hinv.isNone_sstFirstKey hne, hinv.sstFirstKey_eq,
    List.head?_append_of_ne_nil _ (hinv.ne_nil hne)]
  rfl

/-- An entry that fits goes to the end of the current block. -/
theorem Inv.add_fits (hk : computeIndexKey b.currentBlockMaxKey e.key = .ok k)
    (he : e.key ≠ []) (hfit : layout.wouldFit b.builder e = true) :
    ∃ b', b.add layout e = .ok b' ∧ Inv b' (added ++ [e]) := by
  refine ⟨_, add_of_fits hk he hfit, ?_⟩
  refine ⟨?_, hinv.sstFirstKey_append hne, ?_, ?_, ?_, ?_⟩
  · simp [← hinv.contents]
  · simp
  · simp
  · simp
  · intro _
    simpa [hinv.isNone_sstFirstKey hne] using (hinv.indexed hne).extend_last e

/-- An entry that does not fit closes the current block and opens the next
one under an index key that separates it from the last entry. -/
theorem Inv.add_not_fits (hk : computeIndexKey b.currentBlockMaxKey e.key = .ok k)
    (hsep : ∀ l ∈ added.getLast?, Separates l.key k e.key)
    (he : e.key ≠ []) (hfit : layout.wouldFit b.builder e = false) :
    ∃ b', b.add layout e = .ok b' ∧ Inv b' (added ++ [e]) := by
  refine ⟨_, add_of_not_fits hk he hfit, ?_⟩
  have hidx := (hinv.indexed hne).push e k (hinv.getLast?_eq hne ▸ hsep)
  refine ⟨?_, hinv.sstFirstKey_append hne, ?_, ?_, ?_, ?_⟩
  · simp [finishBlock_of_ne_nil hne, ← hinv.contents]
  · simp
  · simp
  · simp
  · intro _
    simpa [finishBlock_of_ne_nil hne] using hidx

end Later

/-- One step of the builder: an entry with a non-empty key, at or above every
key added before, is added and keeps the invariant. -/
theorem Inv.add (hinv : Inv b added) (hkeys : ∀ x ∈ added, x.key ≠ [])
    (hsorted : ∀ x ∈ added, x.key ≤ e.key) (he : e.key ≠ []) :
    ∃ b', b.add layout e = .ok b' ∧ Inv b' (added ++ [e]) := by
  by_cases hne : b.builder = []
  · exact hinv.add_first layout hne he
  -- the index key separates the last entry added from this one
  obtain ⟨last, hlast⟩ : ∃ last, added.getLast? = some last := by
    rw [hinv.getLast?_eq hne]
    exact Option.isSome_iff_exists.mp (List.getLast?_isSome.mpr hne)
  have hmem : last ∈ added := List.mem_of_getLast? hlast
  obtain ⟨k, hk, hsep⟩ := computeLowerBound_separates (hkeys last hmem) he (hsorted last hmem)
  have hk' : computeIndexKey b.currentBlockMaxKey e.key = .ok k := by
    simp [hinv.currentBlockMaxKey_eq, hlast, computeIndexKey, hk]
  have hsep' : ∀ l ∈ added.getLast?, Separates l.key k e.key := by
    intro l hl
    rw [hlast, Option.mem_some_iff] at hl
    exact hl ▸ hsep
  cases hfit : layout.wouldFit b.builder e with
  | false => exact hinv.add_not_fits layout hne hk' hsep' he hfit
  | true => exact hinv.add_fits layout hne hk' he hfit

/-- A run: adding sorted entries with non-empty keys one after another never
fails and keeps the invariant. -/
theorem Inv.foldlM_add : ∀ (rest : List (RowEntry (List α) V)) {b : EncodedSsTableBuilder α V}
    {added : List (RowEntry (List α) V)}, Inv b added →
    (∀ x ∈ added ++ rest, x.key ≠ []) → (added ++ rest).Pairwise (fun x y => x.key ≤ y.key) →
    ∃ b', rest.foldlM (EncodedSsTableBuilder.add layout) b = .ok b' ∧ Inv b' (added ++ rest)
  | [], b, _, hinv, _, _ => ⟨b, rfl, by simpa using hinv⟩
  | e :: rest, _, added, hinv, hkeys, hsorted => by
    have hbefore : ∀ x ∈ added, x.key ≤ e.key := fun x hx =>
      (List.pairwise_append.mp hsorted).2.2 x hx e (by simp)
    obtain ⟨b', hb', hinv'⟩ :=
      hinv.add layout (fun x hx => hkeys x (List.mem_append_left _ hx)) hbefore (hkeys e (by simp))
    obtain ⟨b'', hb'', hinv''⟩ :=
      Inv.foldlM_add rest hinv' (by simpa using hkeys) (by simpa using hsorted)
    exact ⟨b'', by simp [List.foldlM_cons, hb', hb'', bind, Except.bind], by simpa using hinv''⟩

end Run

/-- Building an SST from sorted entries with non-empty keys, with either
block format: adding never fails, the blocks hold the entries in order, the
index partitions the key space, and the SST info's first and last keys are
the first and last keys added. -/
theorem build_indexed [LinearOrder α] (layout : BlockLayout (List α) V)
    (entries : List (RowEntry (List α) V)) (hkeys : ∀ e ∈ entries, e.key ≠ [])
    (hsorted : entries.Pairwise (fun x y => x.key ≤ y.key)) :
    ∃ b, entries.foldlM (add layout) new = .ok b ∧ b.build.blocks.flatten = entries ∧
      Indexed b.build.blockMeta b.build.blocks ∧
      b.build.firstEntry = entries.head?.map (·.key) ∧
      b.build.lastEntry = entries.getLast?.map (·.key) := by
  obtain ⟨b, hrun, hinv⟩ :=
    Inv.foldlM_add layout entries inv_new (by simpa using hkeys) (by simpa using hsorted)
  rw [List.nil_append] at hinv
  refine ⟨b, hrun, ?_⟩
  by_cases hne : b.builder = []
  · -- no entries: there is no block to finish
    obtain ⟨hblocks, hmeta⟩ := hinv.empty hne
    have hentries : entries = [] := by simpa [hne, hblocks] using hinv.contents.symm
    subst hentries
    simp [build, finishBlock, hne, hblocks, hmeta, hinv.sstFirstKey_eq, hinv.sstLastKey_eq,
      Indexed, IndexedFrom]
  · refine ⟨?_, ?_, ?_, ?_⟩
    · simp [build, finishBlock_of_ne_nil hne, ← hinv.contents]
    · simpa [build, finishBlock_of_ne_nil hne] using hinv.indexed hne
    · simp [build, finishBlock_of_ne_nil hne, hinv.sstFirstKey_eq]
    · simp [build, finishBlock_of_ne_nil hne, hinv.sstLastKey_eq]

/-- A block format that holds two entries per block. -/
def twoPerBlock : BlockLayout (List Nat) Nat :=
  ⟨fun entries _ => decide (entries.length < 2), fun _ => rfl⟩

/-- Sorted entries with a duplicate key, which ends up on both sides of a
block boundary. -/
def sampleEntries : List (RowEntry (List Nat) Nat) :=
  [⟨[1], .value 10, 4, none, none⟩, ⟨[1, 2], .value 20, 3, none, none⟩,
   ⟨[1, 2], .tombstone, 2, none, none⟩, ⟨[1, 3], .value 30, 1, none, none⟩]

theorem build_indexed_sample :
    (∀ e ∈ sampleEntries, e.key ≠ []) ∧ sampleEntries.Pairwise (fun x y => x.key ≤ y.key) ∧
    ∃ b, sampleEntries.foldlM (add twoPerBlock) new = .ok b ∧
      b.build.blocks.flatten = sampleEntries ∧ Indexed b.build.blockMeta b.build.blocks ∧
      b.build.firstEntry = sampleEntries.head?.map (·.key) ∧
      b.build.lastEntry = sampleEntries.getLast?.map (·.key) :=
  ⟨by decide, by decide, build_indexed twoPerBlock sampleEntries (by decide) (by decide)⟩

-- equal keys across a boundary give the whole key as the index key
example : (sampleEntries.foldlM (add twoPerBlock) new).map (fun b => b.build.blockMeta) =
    .ok [some [], some [1, 2]] := by
  decide

end EncodedSsTableBuilder

end SlateDb
