import SlateDb.SeqTracker

/-!
# What the Gorilla codec gives back

The encoder writes each value after the first as its delta-of-delta (`dods`),
and the decoder rebuilds the values from the delta-of-deltas it reads
(`rebuild`); on `Int64` the two are inverse (`rebuild_dods`). Every code but
the widest holds its delta-of-delta exactly; the widest writes it as a `u32`,
so the decoder reads back its low 32 bits, sign-extended (`keptDod`). So
decoding what the encoder wrote gives `gorillaDecoded` of the values
(`decodeGorillaI64WithLength_encodeGorillaI64`), which is the values
themselves exactly when every delta-of-delta lies in the `i32` range.

The bit-level proof follows the data: the encoder appends `dodBits` of each
delta-of-delta to the writer's bits (`encodeDeltas_spec`), and the decoder
takes the same bits from the front of the reader's (`decodeDeltas_spec`).
-/

namespace SlateDb

open BitStream

/-! ### Delta-of-deltas -/

/-- The delta-of-deltas of the values after `prevVal`, starting from the
delta `prevDelta`. -/
def dods : Int64 → Int64 → List Int64 → List Int64
  | _, _, [] => []
  | prevVal, prevDelta, val :: values => (val - prevVal - prevDelta) :: dods val (val - prevVal) values

/-- The values rebuilt from delta-of-deltas, as the decoder does. -/
def rebuild : Int64 → Int64 → List Int64 → List Int64
  | _, _, [] => []
  | prevVal, prevDelta, dod :: ds =>
    (prevVal + (prevDelta + dod)) :: rebuild (prevVal + (prevDelta + dod)) (prevDelta + dod) ds

/-- A delta-of-delta as the decoder gets it back: its low 32 bits,
sign-extended. -/
def keptDod (dod : Int64) : Int64 := Int64.ofInt (toSigned 32 dod.toInt)

/-- The values that decoding the Gorilla encoding of `values` gives back. -/
def gorillaDecoded : List Int64 → List Int64
  | [] => []
  | first :: rest => first :: rebuild first 0 ((dods first 0 rest).map keptDod)

@[simp] theorem length_dods (prevVal prevDelta : Int64) (values : List Int64) :
    (dods prevVal prevDelta values).length = values.length := by
  induction values generalizing prevVal prevDelta with
  | nil => rfl
  | cons val values ih => simp [dods, ih]

@[simp] theorem length_rebuild (prevVal prevDelta : Int64) (ds : List Int64) :
    (rebuild prevVal prevDelta ds).length = ds.length := by
  induction ds generalizing prevVal prevDelta with
  | nil => rfl
  | cons dod ds ih => simp [rebuild, ih]

@[simp] theorem length_gorillaDecoded (values : List Int64) : (gorillaDecoded values).length = values.length := by
  cases values with
  | nil => rfl
  | cons first rest => simp [gorillaDecoded]

/-- Rebuilding from the exact delta-of-deltas gives the values back. -/
theorem rebuild_dods (prevVal prevDelta : Int64) (values : List Int64) :
    rebuild prevVal prevDelta (dods prevVal prevDelta values) = values := by
  induction values generalizing prevVal prevDelta with
  | nil => rfl
  | cons val values ih =>
    have hdelta : prevDelta + (val - prevVal - prevDelta) = val - prevVal := by grind
    have hval : prevVal + (val - prevVal) = val := by grind
    rw [dods, rebuild, hdelta, hval, ih]

/-- A delta-of-delta in the `i32` range comes back whole. -/
theorem keptDod_of_mem {dod : Int64} (hlo : -2 ^ 31 ≤ dod.toInt) (hhi : dod.toInt < 2 ^ 31) : keptDod dod = dod := by
  rw [keptDod, toSigned_of_mem (by decide) (by omega) (by omega), Int64.ofInt_toInt]

/-- When every delta-of-delta lies in the `i32` range, the values come back. -/
theorem gorillaDecoded_eq_self {first : Int64} {rest : List Int64}
    (h : ∀ dod ∈ dods first 0 rest, -2 ^ 31 ≤ dod.toInt ∧ dod.toInt < 2 ^ 31) :
    gorillaDecoded (first :: rest) = first :: rest := by
  have hkept : (dods first 0 rest).map keptDod = dods first 0 rest := by
    have hcongr : (dods first 0 rest).map keptDod = (dods first 0 rest).map id :=
      List.map_congr_left fun dod hdod => keptDod_of_mem (h dod hdod).1 (h dod hdod).2
    rw [hcongr, List.map_id]
  rw [gorillaDecoded, hkept, rebuild_dods]

/-! ### The code of a delta-of-delta -/

/-- The number of ones that open the code of a delta-of-delta: none for zero,
then one more for each wider payload. -/
def dodCount (dod : Int64) : Nat :=
  if dod = 0 then 0
  else if -63 ≤ dod ∧ dod ≤ 63 then 1
  else if -255 ≤ dod ∧ dod ≤ 255 then 2
  else if -2047 ≤ dod ∧ dod ≤ 2047 then 3
  else 4

/-- A prefix of `count` ones, closed by a zero below four. -/
def prefixBits (count : Nat) : List Bool := List.replicate count true ++ if count < 4 then [false] else []

/-- The payload width after `count` ones. -/
def payloadWidth (count : Nat) : Nat := gorillaPrefixBytes.getD count 0

/-- The bits of a delta-of-delta: its prefix, then its low bits in the
payload's width. -/
def dodBits (dod : Int64) : List Bool :=
  prefixBits (dodCount dod) ++ bitsMSB (payloadWidth (dodCount dod)) (toUnsigned (payloadWidth (dodCount dod)) dod.toInt)

theorem dodCount_le (dod : Int64) : dodCount dod ≤ 4 := by
  unfold dodCount
  split_ifs <;> decide

/-- A prefix and a payload, pushed one after the other. -/
theorem pushCode_spec {w : BitWriter} (h : w.WF) (pre len payload k : Nat) :
    ((w.push32 pre len).push32 payload k).WF ∧
      ((w.push32 pre len).push32 payload k).bits = w.bits ++ (bitsMSB len pre ++ bitsMSB k payload) := by
  obtain ⟨h₁, hbits₁⟩ := BitWriter.pushBits_spec h pre len
  obtain ⟨h₂, hbits₂⟩ := BitWriter.pushBits_spec h₁ payload k
  refine ⟨h₂, ?_⟩
  rw [BitWriter.push32, BitWriter.push32, hbits₂, hbits₁, List.append_assoc]

/-- The payload of a narrow code is the mask of the `u32` cast. -/
theorem toUnsigned_and_mask_eq (k : Nat) (mask : Nat) (hmask : mask = 2 ^ k - 1) (hk : k ≤ 32) (z : Int) :
    toUnsigned 32 z &&& mask = toUnsigned k z := by
  rw [hmask, toUnsigned_and_mask hk]

theorem encodeDod_spec {w : BitWriter} (h : w.WF) (dod : Int64) :
    (encodeDod w dod).WF ∧ (encodeDod w dod).bits = w.bits ++ dodBits dod := by
  unfold encodeDod dodBits dodCount
  split_ifs
  · exact BitWriter.push_spec h false
  · rw [toUnsigned_and_mask_eq 7 0x7F rfl (by decide)]
    exact pushCode_spec h _ _ _ _
  · rw [toUnsigned_and_mask_eq 9 0x1FF rfl (by decide)]
    exact pushCode_spec h _ _ _ _
  · rw [toUnsigned_and_mask_eq 12 0xFFF rfl (by decide)]
    exact pushCode_spec h _ _ _ _
  · exact pushCode_spec h _ _ _ _

theorem encodeDeltas_spec {w : BitWriter} (h : w.WF) (prevVal prevDelta : Int64) (values : List Int64) :
    (encodeDeltas w prevVal prevDelta values).WF ∧
      (encodeDeltas w prevVal prevDelta values).bits = w.bits ++ (dods prevVal prevDelta values).flatMap dodBits := by
  induction values generalizing w prevVal prevDelta with
  | nil => exact ⟨h, by simp [encodeDeltas, dods]⟩
  | cons val values ih =>
    obtain ⟨h₁, hbits₁⟩ := encodeDod_spec h (val - prevVal - prevDelta)
    obtain ⟨h₂, hbits₂⟩ := ih h₁ val (val - prevVal)
    refine ⟨h₂, ?_⟩
    rw [encodeDeltas, hbits₂, hbits₁, dods, List.flatMap_cons, List.append_assoc]

/-- The bits of the Gorilla encoding: the count, the first value, the codes of
the delta-of-deltas. -/
def gorillaBits : List Int64 → List Bool
  | [] => bitsMSB 32 0
  | first :: rest =>
    bitsMSB 32 (toUnsigned 32 (rest.length + 1)) ++ bitsMSB 64 (toUnsigned 64 first.toInt) ++
      (dods first 0 rest).flatMap dodBits

/-- The writer `encode_gorilla_i64` finishes holds the bits of the encoding. -/
theorem encodeGorillaI64_writer (values : List Int64) :
    ∃ w : BitWriter, w.WF ∧ w.bits = gorillaBits values ∧ encodeGorillaI64 values = w.finish := by
  obtain ⟨h₀, hbits₀⟩ := BitWriter.pushBits_spec BitWriter.wf_new (toUnsigned 32 values.length) 32
  cases values with
  | nil => exact ⟨_, h₀, by rw [hbits₀, BitWriter.bits_new, List.nil_append]; rfl, rfl⟩
  | cons first rest =>
    obtain ⟨h₁, hbits₁⟩ := BitWriter.pushBits_spec h₀ (toUnsigned 64 first.toInt) 64
    obtain ⟨h₂, hbits₂⟩ := encodeDeltas_spec h₁ first 0 rest
    refine ⟨_, h₂, ?_, rfl⟩
    rw [hbits₂, hbits₁, hbits₀, BitWriter.bits_new, List.nil_append,
      gorillaBits, List.length_cons, Nat.cast_add, Nat.cast_one]

/-! ### Decoding -/

/-- The ones of a prefix after the first, and its closing zero below four. -/
theorem readPrefix_of_rest : ∀ (fuel count m : Nat) {r : BitReader} {l : List Bool} (bitsRead : Nat),
    r.WF → m ≤ fuel → r.rest = List.replicate m true ++ ((if m < fuel then [false] else []) ++ l) →
    ∃ r', readPrefix fuel count r bitsRead = .ok (count + m, r', bitsRead + m + if m < fuel then 1 else 0) ∧
      r'.WF ∧ r'.rest = l
  | 0, count, m, r, l, bitsRead, h, hm, hr => by
    obtain rfl : m = 0 := by omega
    exact ⟨r, rfl, h, by simpa using hr⟩
  | fuel + 1, count, 0, r, l, bitsRead, h, _, hr => by
    obtain ⟨r', hread, h', hr'⟩ := BitReader.readBit_of_rest_cons h (by simpa using hr)
    exact ⟨r', by simp [readPrefix, hread], h', hr'⟩
  | fuel + 1, count, m + 1, r, l, bitsRead, h, hm, hr => by
    obtain ⟨r₁, hread, h₁, hr₁⟩ := BitReader.readBit_of_rest_cons h (by rw [hr, List.replicate_succ, List.cons_append])
    simp only [Nat.add_lt_add_iff_right] at hr₁ ⊢
    obtain ⟨r', hloop, h', hr'⟩ := readPrefix_of_rest fuel (count + 1) m (bitsRead + 1) h₁ (by omega) hr₁
    refine ⟨r', ?_, h', hr'⟩
    rw [readPrefix, hread]
    dsimp only
    rw [hloop, show count + (m + 1) = count + 1 + m by omega, show bitsRead + (m + 1) = bitsRead + 1 + m by omega]

/-- A delta-of-delta that is not zero has a payload that holds it, as far as
its low 32 bits go. -/
theorem toSigned_payloadWidth {dod : Int64} (h : dodCount dod ≠ 0) :
    toSigned (payloadWidth (dodCount dod)) dod.toInt = toSigned 32 dod.toInt := by
  have hval : ∀ k : Nat, 0 < k → k ≤ 32 → (-(2 ^ (k - 1) : Int) < dod.toInt ∧ dod.toInt < 2 ^ (k - 1)) →
      toSigned k dod.toInt = toSigned 32 dod.toInt := by
    intro k hk hk32 hmem
    have hpow : (2 : Int) ^ (k - 1) ≤ 2 ^ 31 := pow_le_pow_right₀ (by norm_num) (by omega)
    rw [toSigned_of_mem hk, toSigned_of_mem (by decide)] <;> rw [two_pow_eq_two_mul (by omega)] <;> omega
  unfold dodCount at h ⊢
  split_ifs at h ⊢ with h0 h1 h2 h3
  · exact absurd rfl h
  all_goals first
    | rfl
    | apply hval _ (by decide) (by decide)
      simp only [Int64.le_iff_toInt_le] at *
      have : (-63 : Int64).toInt = -63 ∧ (-255 : Int64).toInt = -255 ∧ (-2047 : Int64).toInt = -2047 ∧
        (63 : Int64).toInt = 63 ∧ (255 : Int64).toInt = 255 ∧ (2047 : Int64).toInt = 2047 := by decide
      simp only [payloadWidth, gorillaPrefixBytes, List.getD_cons_succ, List.getD_cons_zero]
      omega

theorem dodCount_eq_zero {dod : Int64} (h : dodCount dod = 0) : dod = 0 := by
  unfold dodCount at h
  split_ifs at h with h0
  exact h0

theorem payloadWidth_pos {c : Nat} (h0 : c ≠ 0) (h4 : c ≤ 4) : 0 < payloadWidth c ∧ payloadWidth c ≤ 32 := by
  obtain rfl | rfl | rfl | rfl : c = 1 ∨ c = 2 ∨ c = 3 ∨ c = 4 := by omega
  all_goals decide

theorem prefixBits_succ (c : Nat) :
    prefixBits (c + 1) = true :: (List.replicate c true ++ if c < 3 then [false] else []) := by
  by_cases hc : c < 3
  · simp [prefixBits, List.replicate_succ, hc]
  · simp [prefixBits, List.replicate_succ, hc]
    omega

/-- The decoder reads back a delta-of-delta from its code, as `keptDod`. -/
theorem decodeDod_of_rest {r : BitReader} (h : r.WF) (dod : Int64) {l : List Bool}
    (hr : r.rest = dodBits dod ++ l) (bitsRead : Nat) :
    ∃ r', decodeDod r bitsRead = .ok (keptDod dod, r', bitsRead + (dodBits dod).length) ∧ r'.WF ∧ r'.rest = l := by
  by_cases hzero : dodCount dod = 0
  · -- a single zero bit
    have hbits : dodBits dod = [false] := by
      rw [dodBits, hzero]
      rfl
    rw [hbits] at hr ⊢
    obtain ⟨r', hread, h', hr'⟩ := BitReader.readBit_of_rest_cons h hr
    refine ⟨r', ?_, h', hr'⟩
    rw [decodeDod, hread, dodCount_eq_zero hzero, show keptDod 0 = 0 by decide]
    rfl
  · -- a prefix of ones, then the payload
    obtain ⟨hk0, hk32⟩ := payloadWidth_pos hzero (dodCount_le dod)
    obtain ⟨c, hc⟩ : ∃ c, dodCount dod = c + 1 := ⟨dodCount dod - 1, by omega⟩
    have hc3 : c ≤ 3 := by have := dodCount_le dod; omega
    have hr₀ : r.rest = true :: (List.replicate c true ++ ((if c < 3 then [false] else []) ++
        (bitsMSB (payloadWidth (c + 1)) (toUnsigned (payloadWidth (c + 1)) dod.toInt) ++ l))) := by
      rw [hr, dodBits, hc, prefixBits_succ, List.cons_append, List.cons_append, List.append_assoc,
        List.append_assoc]
    rw [hc] at hk0 hk32
    obtain ⟨r₁, hread, h₁, hr₁⟩ := BitReader.readBit_of_rest_cons h hr₀
    obtain ⟨r₂, hpre, h₂, hr₂⟩ := readPrefix_of_rest 3 1 c (bitsRead + 1) h₁ hc3 hr₁
    obtain ⟨r₃, hraw, h₃, hr₃⟩ := BitReader.readLoop_bitsMSB (by decide : 0 < 32) hk32 (toUnsigned_lt _ _) h₂ hr₂
    refine ⟨r₃, ?_, h₃, hr₃⟩
    have hvalue : Int64.ofInt (signExtend (toUnsigned (payloadWidth (c + 1)) dod.toInt) (payloadWidth (c + 1))) =
        keptDod dod := by
      rw [signExtend_eq hk0 hk32 (toUnsigned_lt _ _), toSigned_natCast_toUnsigned, ← hc, toSigned_payloadWidth hzero]
      rfl
    have hlen : (dodBits dod).length = bitsRead + 1 + c + (if c < 3 then 1 else 0) + payloadWidth (c + 1) - bitsRead := by
      rw [dodBits, hc, prefixBits_succ]
      split_ifs <;> simp <;> omega
    rw [decodeDod, hread]
    dsimp only
    rw [hpre]
    simp only [bind, Except.bind, Nat.add_comm 1 c]
    rw [show gorillaPrefixBytes.getD (c + 1) 0 = payloadWidth (c + 1) from rfl, BitReader.read32, hraw]
    dsimp only
    rw [hvalue, hlen]
    congr 3
    omega

theorem decodeDeltas_of_rest : ∀ (ds : List Int64) {r : BitReader} {l : List Bool} (bitsRead : Nat)
    (prevVal prevDelta : Int64) (values : List Int64), r.WF → r.rest = ds.flatMap dodBits ++ l →
    ∃ r', decodeDeltas ds.length r bitsRead prevVal prevDelta values =
        .ok (r', bitsRead + (ds.flatMap dodBits).length, values ++ rebuild prevVal prevDelta (ds.map keptDod)) ∧
      r'.WF ∧ r'.rest = l
  | [], r, l, bitsRead, _, _, values, h, hr => ⟨r, by simp [decodeDeltas, rebuild], h, by simpa using hr⟩
  | dod :: ds, r, l, bitsRead, prevVal, prevDelta, values, h, hr => by
    obtain ⟨r₁, hdod, h₁, hr₁⟩ := decodeDod_of_rest h dod (by rw [hr, List.flatMap_cons, List.append_assoc]) bitsRead
    obtain ⟨r', hloop, h', hr'⟩ := decodeDeltas_of_rest ds _ (prevVal + (prevDelta + keptDod dod))
      (prevDelta + keptDod dod) (values ++ [prevVal + (prevDelta + keptDod dod)]) h₁ hr₁
    refine ⟨r', ?_, h', hr'⟩
    simp only [List.length_cons, decodeDeltas, hdod, bind, Except.bind]
    rw [hloop, List.flatMap_cons, List.length_append, List.map_cons, rebuild, List.append_assoc,
      List.singleton_append, Nat.add_assoc]

/-- The first value comes back from its `u64` cast. -/
theorem ofNat_toUnsigned_toInt (x : Int64) : Int64.ofNat (toUnsigned 64 x.toInt) = x := by
  rw [← Int64.ofInt_eq_ofNat, natCast_toUnsigned, ← Int64.toInt_inj, Int64.toInt_ofInt,
    show (Int64.size : Nat) = 2 ^ 64 from rfl, ← natCast_two_pow, Int.emod_bmod]
  exact toSigned_of_mem (by decide) (by have := x.le_toInt; omega) (by have := x.toInt_lt; omega)

/-- Decoding what `encode_gorilla_i64` wrote, with any bytes after it, reads
exactly its bytes and gives `gorillaDecoded` of the values. -/
theorem decodeGorillaI64WithLength_encodeGorillaI64 (values : List Int64) (hlen : values.length < 2 ^ 32)
    (more : List UInt8) :
    decodeGorillaI64WithLength (encodeGorillaI64 values ++ more) =
      .ok ((encodeGorillaI64 values).length, gorillaDecoded values) := by
  obtain ⟨w, hw, hbits, henc⟩ := encodeGorillaI64_writer values
  have hrest : (BitReader.new (encodeGorillaI64 values ++ more)).rest =
      gorillaBits values ++ (List.replicate ((8 - w.n) % 8) false ++ unpack more) := by
    rw [BitReader.rest_new, henc, unpack_append, BitWriter.unpack_finish hw, hbits, List.append_assoc]
  have hbytes : (encodeGorillaI64 values).length = ((gorillaBits values).length + 7) / 8 := by
    rw [henc, BitWriter.length_finish hw, hbits]
  cases values with
  | nil =>
    obtain ⟨r, hread, -, -⟩ := BitReader.readLoop_bitsMSB (by decide : 0 < 32) le_rfl (Nat.two_pow_pos 32)
      (BitReader.wf_new _) hrest
    rw [decodeGorillaI64WithLength, BitReader.read32, hread, hbytes]
    rfl
  | cons first rest =>
    have hcount : toUnsigned 32 ((rest.length : Int) + 1) = rest.length + 1 := by
      rw [← Nat.cast_succ]
      exact toUnsigned_natCast hlen
    rw [gorillaBits, hcount, List.append_assoc, List.append_assoc] at hrest
    obtain ⟨r₁, hread₁, h₁, hr₁⟩ := BitReader.readLoop_bitsMSB (by decide : 0 < 32) le_rfl hlen
      (BitReader.wf_new _) hrest
    obtain ⟨r₂, hread₂, h₂, hr₂⟩ := BitReader.readLoop_bitsMSB (by decide : 0 < 64) le_rfl (toUnsigned_lt _ _) h₁ hr₁
    obtain ⟨r₃, hloop, -, -⟩ := decodeDeltas_of_rest (dods first 0 rest) (32 + 64) first 0 [first] h₂ hr₂
    rw [length_dods] at hloop
    rw [decodeGorillaI64WithLength, BitReader.read32, hread₁]
    dsimp only
    rw [if_pos (by simp), BitReader.read64, hread₂]
    dsimp only
    rw [ofNat_toUnsigned_toInt, List.length_cons, Nat.add_sub_cancel, hloop]
    simp only [bind, Except.bind, hbytes, gorillaBits, gorillaDecoded, List.length_append, length_bitsMSB,
      List.singleton_append]

/-! ### The tracker's bytes -/

namespace SequenceTracker

/-- `from_bytes` of `to_bytes`: the default configuration, with what the
Gorilla codec gives back of both lists. -/
theorem fromBytes_toBytes {t : SequenceTracker} (hlen : t.timestamps.length = t.sequenceNumbers.length)
    (hlt : t.sequenceNumbers.length < 2 ^ 32) :
    fromBytes t.toBytes = .ok { withConfig defaultCapacity defaultIntervalSecs with
      sequenceNumbers := (gorillaDecoded (t.sequenceNumbers.map UInt64.toInt64)).map Int64.toUInt64
      timestamps := gorillaDecoded t.timestamps } := by
  have hseqLen : (t.sequenceNumbers.map UInt64.toInt64).length < 2 ^ 32 := by rw [List.length_map]; exact hlt
  have hseqs := decodeGorillaI64WithLength_encodeGorillaI64 _ hseqLen (encodeTimestamps t.timestamps)
  have hts := decodeGorillaI64WithLength_encodeGorillaI64 t.timestamps (hlen ▸ hlt) []
  rw [List.append_nil] at hts
  have hcount : ByteCodec.ofLE (ByteCodec.putLE 4 t.sequenceNumbers.length) = t.sequenceNumbers.length := by
    rw [ByteCodec.ofLE_putLE, Nat.mod_eq_of_lt (by simpa using hlt)]
  -- the header is five bytes: the version and the count
  have hdrop : (toBytes t).drop 5 = encodeSequenceNumbers t.sequenceNumbers ++ encodeTimestamps t.timestamps := by
    rw [toBytes, List.append_assoc, List.append_assoc, List.singleton_append, List.drop_succ_cons,
      List.drop_append_of_le_length (by simp), List.drop_of_length_le (by simp), List.nil_append]
  have hheader : ((toBytes t).drop 1).take 4 = ByteCodec.putLE 4 t.sequenceNumbers.length := by
    rw [toBytes, List.append_assoc, List.append_assoc, List.singleton_append, List.drop_succ_cons, List.drop_zero,
      List.take_append_of_le_length (by simp), List.take_of_length_le (by simp)]
  have hlength : ¬(toBytes t).length < 1 + 4 := by simp [toBytes]
  have hsecond : (toBytes t).drop (5 + (encodeSequenceNumbers t.sequenceNumbers).length) =
      encodeTimestamps t.timestamps := by
    rw [← List.drop_drop, hdrop, List.drop_left]
  obtain ⟨rest, hcons⟩ : ∃ rest, toBytes t = serializationVersion :: rest := ⟨_, rfl⟩
  rw [hcons] at hheader hdrop hlength hsecond
  rw [hcons, fromBytes.eq_def]
  dsimp only
  rw [if_neg (by decide), if_neg hlength, hheader, hcount, hdrop]
  simp only [decodeSequenceNumbersWithLength, encodeSequenceNumbers, hseqs, bind, Except.bind, List.length_map,
    length_gorillaDecoded, ne_eq, not_true_eq_false, if_false]
  rw [← encodeSequenceNumbers, hsecond]
  simp only [decodeTimestamps, encodeTimestamps, hts, bind, Except.bind, length_gorillaDecoded, hlen,
    not_true_eq_false, if_false]

/-! ### Runs from `new` -/

/-- Appending an element no element is above keeps a chain sorted. -/
theorem pairwise_append_of_getLast {α : Type} {R : α → α → Prop} (htrans : ∀ {a b c}, R a b → R b c → R a c)
    {l : List α} {x : α} (hl : l.Pairwise R) (hlast : ∀ m ∈ l.getLast?, R m x) : (l ++ [x]).Pairwise R := by
  rw [List.pairwise_append]
  refine ⟨hl, List.pairwise_singleton R x, fun y hy z hz => ?_⟩
  rw [List.mem_singleton] at hz
  subst hz
  -- every element is at most the last one, which is at most `x`
  have hne : l ≠ [] := List.ne_nil_of_mem hy
  have hsplit := List.dropLast_append_getLast hne
  have hlastx := hlast _ (List.getLast?_eq_some_getLast hne)
  rw [← hsplit, List.mem_append, List.mem_singleton] at hy
  rcases hy with hy | rfl
  · rw [← hsplit, List.pairwise_append] at hl
    exact htrans (hl.2.2 y hy _ List.mem_cons_self) hlastx
  · exact hlastx

theorem length_everyOther {α : Type} : ∀ l : List α, (everyOther l).length = (l.length + 1) / 2
  | [] => by simp [everyOther]
  | [_] => by simp [everyOther]
  | _ :: _ :: l => by
    rw [everyOther, List.length_cons, length_everyOther l, List.length_cons, List.length_cons]
    omega

theorem everyOther_sublist {α : Type} : ∀ l : List α, (everyOther l).Sublist l
  | [] => .slnil
  | [_] => .refl _
  | a :: b :: l => ((everyOther_sublist l).cons b).cons_cons a

/-- An assertion that passed: no last element is above `x`. -/
theorem le_of_not_any {α : Type} [LE α] [DecidableRel (α := α) (· ≤ ·)] {o : Option α} {x : α}
    (h : ¬(o.any fun a => !decide (x ≥ a)) = true) : ∀ a ∈ o, a ≤ x := by
  intro a ha
  rw [Option.mem_def] at ha
  subst ha
  simpa using h

/-- What one `insert` can do: nothing, or append the pair, whose sequence
number and time are at least the last ones, and halve the tracker when it
then holds more than its capacity. -/
theorem insert_cases {t t' : SequenceTracker} {s : TrackedSeq} (h : t.insert s = some t') :
    t' = t ∨
    ((∀ last ∈ t.sequenceNumbers.getLast?, last ≤ s.seq) ∧ (∀ last ∈ t.timestamps.getLast?, last ≤ s.ts) ∧
      t'.capacity = t.capacity ∧
      ((t'.sequenceNumbers = t.sequenceNumbers ++ [s.seq] ∧ t'.timestamps = t.timestamps ++ [s.ts] ∧
          t.sequenceNumbers.length + 1 ≤ t.capacity.toNat) ∨
        (t'.sequenceNumbers = everyOther (t.sequenceNumbers ++ [s.seq]) ∧
          t'.timestamps = everyOther (t.timestamps ++ [s.ts]) ∧ t.capacity.toNat < t.sequenceNumbers.length + 1))) := by
  unfold insert at h
  dsimp only at h
  split_ifs at h with hinterval hseq hts hfull
  · exact .inl (Option.some.inj h).symm
  · cases h
    exact .inr ⟨le_of_not_any hseq, le_of_not_any hts, rfl, .inr ⟨rfl, rfl, by simpa using hfull⟩⟩
  · cases h
    exact .inr ⟨le_of_not_any hseq, le_of_not_any hts, rfl, .inl ⟨rfl, rfl, by simpa using hfull⟩⟩

/-- What every tracker from `new` keeps: one time per sequence number, at most
its capacity of them, both lists ascending. -/
structure Inv (t : SequenceTracker) : Prop where
  length_eq : t.timestamps.length = t.sequenceNumbers.length
  capacity_pos : 0 < t.capacity.toNat
  length_le : t.sequenceNumbers.length ≤ t.capacity.toNat
  seq_sorted : t.sequenceNumbers.Pairwise (· ≤ ·)
  ts_sorted : t.timestamps.Pairwise (· ≤ ·)

theorem inv_new : new.Inv := ⟨rfl, by decide, by decide, .nil, .nil⟩

theorem Inv.insert {t t' : SequenceTracker} {s : TrackedSeq} (hinv : t.Inv) (h : t.insert s = some t') : t'.Inv := by
  obtain rfl | ⟨hseq, hts, hcap, happend⟩ := insert_cases h
  · exact hinv
  have hseqs := pairwise_append_of_getLast (R := (· ≤ ·)) UInt64.le_trans hinv.seq_sorted hseq
  have htss := pairwise_append_of_getLast (R := (· ≤ ·)) Int64.le_trans hinv.ts_sorted hts
  have hlen := hinv.length_eq
  rcases happend with ⟨hs', ht', hfits⟩ | ⟨hs', ht', hover⟩
  · refine ⟨?_, hcap ▸ hinv.capacity_pos, ?_, hs' ▸ hseqs, ht' ▸ htss⟩
    · simp [hs', ht', hlen]
    · simpa [hs', hcap] using hfits
  · -- halving the tracker brings it back within its capacity
    have hle := hinv.length_le
    have hpos := hinv.capacity_pos
    refine ⟨?_, hcap ▸ hpos, ?_, hs' ▸ hseqs.sublist (everyOther_sublist _),
      ht' ▸ htss.sublist (everyOther_sublist _)⟩
    · simp [hs', ht', length_everyOther, hlen]
    · rw [hs', hcap, length_everyOther, List.length_append, List.length_singleton]
      omega

theorem Inv.extendFrom {representable : Int64 → Bool} {t other t' : SequenceTracker} (hinv : t.Inv)
    (h : t.extendFrom representable other = some t') : t'.Inv := by
  unfold SequenceTracker.extendFrom at h
  split_ifs at h
  · cases h
    exact hinv
  · refine Transition.foldlM_invariant (fun t₀ pair t₁ hinv₀ hstep => ?_) _ hinv h
    obtain ⟨seq, tsSecs⟩ := pair
    dsimp only at hstep
    split_ifs at hstep
    · exact hinv₀.insert hstep
    · cases hstep
      exact hinv₀

theorem inv_invariant (representable : Int64 → Bool) : (system representable).Invariant Inv where
  init t ht := ht ▸ inv_new
  step t e t' hinv hstep := by
    cases e with
    | insert s => exact hinv.insert hstep
    | extendFrom other => exact hinv.extendFrom hstep

theorem inv_of_reachable {representable : Int64 → Bool} {t : SequenceTracker}
    (h : (system representable).Reachable t) : t.Inv :=
  (inv_invariant representable).reachable h

theorem reachable_insert {representable : Int64 → Bool} {t t' : SequenceTracker}
    (ht : (system representable).Reachable t) (s : TrackedSeq) (h : t.insert s = some t') :
    (system representable).Reachable t' :=
  .step (a := .insert s) ht h

/-! ### Gaps below `2 ^ 31` -/

/-- A step up of less than `2 ^ 31`, as wrapping `i64` subtraction sees it. -/
def NarrowStep (a b : Int64) : Prop := 0 ≤ (b - a).toInt ∧ (b - a).toInt < 2 ^ 31

/-- Along steps up of less than `2 ^ 31`, every delta-of-delta is a difference
of two such steps, so it lies in the `i32` range. -/
theorem dods_mem_of_narrow : ∀ (values : List Int64) {prevVal prevDelta : Int64},
    0 ≤ prevDelta.toInt → prevDelta.toInt < 2 ^ 31 → (prevVal :: values).IsChain NarrowStep →
    ∀ dod ∈ dods prevVal prevDelta values, -2 ^ 31 ≤ dod.toInt ∧ dod.toInt < 2 ^ 31
  | [], _, _, _, _, _ => by simp [dods]
  | val :: values, prevVal, prevDelta, hlo, hhi, hchain => by
    rw [List.isChain_cons_cons] at hchain
    obtain ⟨⟨hdlo, hdhi⟩, hchain⟩ := hchain
    intro dod hdod
    rw [dods, List.mem_cons] at hdod
    rcases hdod with rfl | hdod
    · rw [Int64.toInt_sub, Int.bmod_eq_of_le (by omega) (by omega)]
      omega
    · exact dods_mem_of_narrow values hdlo hdhi hchain dod hdod

theorem gorillaDecoded_of_narrow {values : List Int64} (h : values.IsChain NarrowStep) :
    gorillaDecoded values = values := by
  cases values with
  | nil => rfl
  | cons first rest => exact gorillaDecoded_eq_self (dods_mem_of_narrow rest le_rfl (by decide) h)

theorem narrowStep_of_le {a b : Int64} (hle : a ≤ b) (hlt : b.toInt - a.toInt < 2 ^ 31) : NarrowStep a b := by
  have hle' := Int64.le_iff_toInt_le.mp hle
  unfold NarrowStep
  rw [Int64.toInt_sub, Int.bmod_eq_of_le (by omega) (by omega)]
  omega

/-- A sequence number cast to `i64` bit for bit. -/
theorem toInt_toInt64 (x : UInt64) : x.toInt64.toInt = (x.toNat : Int).bmod (2 ^ 64) := by
  rw [Int64.toInt, BitVec.toInt_eq_toNat_bmod]
  rfl

/-- Wrapping subtraction undoes the wrap of the casts. -/
theorem narrowStep_toInt64 {a b : UInt64} (hle : a ≤ b) (hlt : b.toNat - a.toNat < 2 ^ 31) :
    NarrowStep a.toInt64 b.toInt64 := by
  have hle' : a.toNat ≤ b.toNat := UInt64.le_iff_toNat_le.mp hle
  have hdiff : (b.toInt64 - a.toInt64).toInt = (b.toNat : Int) - a.toNat := by
    rw [Int64.toInt_sub, toInt_toInt64, toInt_toInt64, ← Int.sub_bmod, Int.bmod_eq_of_le (by omega) (by omega)]
  unfold NarrowStep
  omega

theorem isChain_and {α : Type} {R S : α → α → Prop} {l : List α} (hR : l.IsChain R) (hS : l.IsChain S) :
    l.IsChain fun a b => R a b ∧ S a b := by
  rw [List.isChain_iff_forall_rel_of_append_cons_cons] at hR hS ⊢
  exact fun _ _ _ _ h => ⟨hR h, hS h⟩

/-- A reachable tracker whose sequence numbers and times each step up by less
than `2 ^ 31` comes back from its bytes whole. -/
theorem fromBytes_toBytes_of_narrow_gaps {representable : Int64 → Bool} {t : SequenceTracker}
    (hreach : (system representable).Reachable t)
    (hseq : t.sequenceNumbers.IsChain fun a b => b.toNat - a.toNat < 2 ^ 31)
    (hts : t.timestamps.IsChain fun a b => b.toInt - a.toInt < 2 ^ 31) :
    ∃ t', fromBytes t.toBytes = .ok t' ∧ t'.sequenceNumbers = t.sequenceNumbers ∧
      t'.timestamps = t.timestamps := by
  have hinv := inv_of_reachable hreach
  have hlt : t.sequenceNumbers.length < 2 ^ 32 :=
    lt_of_le_of_lt hinv.length_le t.capacity.toNat_lt
  have hseqs : (t.sequenceNumbers.map UInt64.toInt64).IsChain NarrowStep := by
    rw [List.isChain_map]
    exact (isChain_and hinv.seq_sorted.isChain hseq).imp fun _ _ h => narrowStep_toInt64 h.1 h.2
  have htss : t.timestamps.IsChain NarrowStep :=
    (isChain_and hinv.ts_sorted.isChain hts).imp fun _ _ h => narrowStep_of_le h.1 h.2
  refine ⟨_, fromBytes_toBytes hinv.length_eq hlt, ?_, gorillaDecoded_of_narrow htss⟩
  dsimp only
  rw [gorillaDecoded_of_narrow hseqs, List.map_map]
  exact List.map_id'' UInt64.toUInt64_toInt64 _

/-- Sequence numbers `5, 7` written a minute apart. -/
def narrowGapTracker : SequenceTracker :=
  ⟨[5, 7], [0, 60], defaultCapacity, defaultIntervalSecs, some 60⟩

theorem narrowGapTracker_round_trip :
    ∃ t', fromBytes narrowGapTracker.toBytes = .ok t' ∧ t'.sequenceNumbers = [5, 7] ∧ t'.timestamps = [0, 60] :=
  fromBytes_toBytes_of_narrow_gaps
    (reachable_insert (reachable_insert (.init rfl) ⟨5, 0⟩ rfl) ⟨7, 60⟩ rfl : (system fun _ => true).Reachable _)
    (by decide) (by decide)

/-! ### A gap of `2 ^ 32` -/

/-- Two pairs a minute apart whose sequence numbers are `2 ^ 32` apart. -/
def wideGapTracker : SequenceTracker :=
  ⟨[0, 4294967296], [0, 60], defaultCapacity, defaultIntervalSecs, some 60⟩

theorem wideGapTracker_reachable (representable : Int64 → Bool) :
    (system representable).Reachable wideGapTracker :=
  reachable_insert (reachable_insert (.init rfl) ⟨0, 0⟩ rfl) ⟨4294967296, 60⟩ rfl

/-- The delta-of-delta `2 ^ 32` is written as its low 32 bits, zero, so the
second sequence number comes back as the first. -/
theorem fromBytes_toBytes_drops_wide_gap (representable : Int64 → Bool) :
    ∃ t t', (system representable).Reachable t ∧ fromBytes t.toBytes = .ok t' ∧
      t.sequenceNumbers = [0, 4294967296] ∧ t'.sequenceNumbers = [0, 0] := by
  refine ⟨wideGapTracker, _, wideGapTracker_reachable representable,
    fromBytes_toBytes (by decide) (by decide), rfl, ?_⟩
  decide

end SequenceTracker

end SlateDb
