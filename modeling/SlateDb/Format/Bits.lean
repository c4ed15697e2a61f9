import SlateDb.Lib.BitStream

/-!
# Bit-level writer and reader

`BitWriter` and `BitReader` (utils.rs) pack bits into bytes, most significant
bit first, and read them back; `sign_extend` widens the low bits of a `u32` to
an `i32`.

The writer's denotation is the bits it has written (`BitWriter.bits`): those of
the bytes it has filled, then the used bits of the byte it is filling, whose
unused bits stay zero (`BitWriter.WF`). A push appends one bit
(`BitWriter.push_spec`) and `push32`/`push64` the low bits of a value
(`BitWriter.pushBits_spec`); `finish` pads the last byte with zeros
(`BitWriter.unpack_finish`). The reader's denotation is the bits from its
cursor on (`BitReader.rest`), and every read takes them from the front
(`BitReader.readBit_of_rest_cons`, `BitReader.readLoop_of_rest`).

Registers are `Nat`s: a `u32` or `u64` value is a number below `2 ^ 32` or
`2 ^ 64`, and the reader's accumulator is kept below it with `% 2 ^ w`.
-/

namespace SlateDb

open BitStream

/-! ### The writer -/

/-- `BitWriter`: the filled bytes, the byte being filled and how many of its
bits are used. -/
structure BitWriter where
  buf : List UInt8
  cur : UInt8
  n : Nat
  deriving DecidableEq, Repr

namespace BitWriter

def new : BitWriter := ⟨[], 0, 0⟩

def flushByte (w : BitWriter) : BitWriter := ⟨w.buf ++ [w.cur], 0, 0⟩

/-- `push`: a one sets the next bit of the byte being filled, from the top. -/
def push (w : BitWriter) (bit : Bool) : BitWriter :=
  let cur := if bit then w.cur ||| (1 <<< UInt8.ofNat (7 - w.n)) else w.cur
  let n := w.n + 1
  if n = 8 then flushByte ⟨w.buf, cur, n⟩ else ⟨w.buf, cur, n⟩

/-- The loop of `push32` and `push64`: bit `i` of `value` for `i` from
`bits - 1` down to `0`. -/
def pushBits (w : BitWriter) (value : Nat) : Nat → BitWriter
  | 0 => w
  | i + 1 => (w.push ((value >>> i) &&& 1 != 0)).pushBits value i

/-- `push32`, of a `u32` value. -/
def push32 (w : BitWriter) (value bits : Nat) : BitWriter := w.pushBits value bits

/-- `push64`, of a `u64` value. -/
def push64 (w : BitWriter) (value bits : Nat) : BitWriter := w.pushBits value bits

/-- `finish`: the filled bytes, and the byte being filled when one of its bits
is used. -/
def finish (w : BitWriter) : List UInt8 := if w.n > 0 then w.buf ++ [w.cur] else w.buf

/-- The bits written so far. -/
def bits (w : BitWriter) : List Bool := unpack w.buf ++ (byteBits w.cur).take w.n

/-- Fewer than eight bits of the byte being filled are used, and its unused
bits are zero. -/
structure WF (w : BitWriter) : Prop where
  n_lt : w.n < 8
  unused : ∀ i, i + w.n < 8 → w.cur.toNat.testBit i = false

theorem wf_new : new.WF := ⟨by decide, fun i _ => by simp [new]⟩

@[simp] theorem bits_new : new.bits = [] := rfl

theorem toNat_one_shiftLeft {n : Nat} (h : n < 8) : ((1 : UInt8) <<< UInt8.ofNat (7 - n)).toNat = 2 ^ (7 - n) :=
  toNat_one_shiftLeft_ofNat (by omega)

/-- The byte being filled after a push, bit by bit. -/
theorem testBit_pushed {w : BitWriter} (h : w.n < 8) (bit : Bool) (i : Nat) :
    (if bit then w.cur ||| (1 <<< UInt8.ofNat (7 - w.n)) else w.cur).toNat.testBit i =
      (w.cur.toNat.testBit i || (bit && decide (i = 7 - w.n))) := by
  cases bit with
  | false => simp
  | true =>
    rw [if_pos rfl, UInt8.toNat_or, toNat_one_shiftLeft h, Nat.testBit_or, Nat.testBit_two_pow]
    simp [eq_comm]

/-- The first `n + 1` bits of a byte: the first `n`, then the next. -/
theorem take_byteBits_succ {c : UInt8} {n : Nat} (h : n < 8) :
    (byteBits c).take (n + 1) = (byteBits c).take n ++ [c.toNat.testBit (7 - n)] := by
  rw [List.take_add_one, List.getElem?_eq_getElem (by simpa using h), getElem_byteBits]
  rfl

/-- Two bytes that agree on their top `n` bits agree on their first `n` bits. -/
theorem take_byteBits_congr {c c' : UInt8} {n : Nat} (h : ∀ j < n, c.toNat.testBit (7 - j) = c'.toNat.testBit (7 - j)) :
    (byteBits c).take n = (byteBits c').take n := by
  apply List.ext_getElem (by simp)
  intro j hj _
  simp only [List.getElem_take, getElem_byteBits]
  exact h j (by simp at hj; omega)

theorem push_spec {w : BitWriter} (h : w.WF) (b : Bool) : (w.push b).WF ∧ (w.push b).bits = w.bits ++ [b] := by
  obtain ⟨hn, hunused⟩ := h
  set cur := if b then w.cur ||| (1 <<< UInt8.ofNat (7 - w.n)) else w.cur with hcur
  have htest := testBit_pushed hn b
  -- the written bits keep their value and the new one is `b`
  have htake : (byteBits cur).take (w.n + 1) = (byteBits w.cur).take w.n ++ [b] := by
    rw [take_byteBits_succ hn, htest, hunused _ (by omega), Bool.false_or]
    congr 1
    · apply take_byteBits_congr
      intro j hj
      rw [htest]
      simp
      omega
    · simp
  by_cases hfull : w.n + 1 = 8
  · have hpush : w.push b = flushByte ⟨w.buf, cur, w.n + 1⟩ := by simp [push, hfull, hcur]
    rw [hpush]
    refine ⟨⟨by simp [flushByte], fun i _ => by simp [flushByte]⟩, ?_⟩
    have hall : (byteBits cur).take (w.n + 1) = byteBits cur := List.take_of_length_le (by simp; omega)
    simp only [bits, flushByte, unpack_append, unpack_cons, unpack_nil, List.append_nil, List.take_zero]
    rw [← hall, htake, List.append_assoc]
  · have hpush : w.push b = ⟨w.buf, cur, w.n + 1⟩ := by simp [push, hfull, hcur]
    rw [hpush]
    refine ⟨⟨by simp; omega, fun i hi => ?_⟩, ?_⟩
    · simp only at hi ⊢
      rw [htest, hunused i (by omega)]
      simp
      omega
    · simp only [bits]
      rw [htake, List.append_assoc]

theorem shiftRight_and_one_ne_zero (value i : Nat) : (value >>> i &&& 1 != 0) = value.testBit i := by
  rw [Nat.testBit, Nat.land_comm]

theorem pushBits_spec {w : BitWriter} (h : w.WF) (value k : Nat) :
    (w.pushBits value k).WF ∧ (w.pushBits value k).bits = w.bits ++ bitsMSB k value := by
  induction k generalizing w with
  | zero => exact ⟨h, by simp [pushBits]⟩
  | succ k ih =>
    obtain ⟨hwf, hbits⟩ := push_spec h (value >>> k &&& 1 != 0)
    obtain ⟨hwf', hbits'⟩ := ih hwf
    refine ⟨hwf', ?_⟩
    rw [pushBits, hbits', hbits, bitsMSB_succ, shiftRight_and_one_ne_zero, List.append_assoc, List.singleton_append]

/-- The unused bits of the byte being filled are zeros. -/
theorem drop_byteBits_cur {w : BitWriter} (h : w.WF) : (byteBits w.cur).drop w.n = List.replicate (8 - w.n) false := by
  apply List.ext_getElem (by simp)
  intro j hj _
  simp only [List.getElem_drop, getElem_byteBits, List.getElem_replicate]
  exact h.unused _ (by simp at hj; omega)

/-- What `finish` returns is the bits written, padded with zeros to a whole byte. -/
theorem unpack_finish {w : BitWriter} (h : w.WF) :
    unpack w.finish = w.bits ++ List.replicate ((8 - w.n) % 8) false := by
  by_cases hn : w.n > 0
  · have hpad : (8 - w.n) % 8 = 8 - w.n := Nat.mod_eq_of_lt (by omega)
    rw [finish, if_pos hn, bits, unpack_append, unpack_cons, unpack_nil, List.append_nil, hpad,
      ← drop_byteBits_cur h, List.append_assoc, List.take_append_drop]
  · have hzero : w.n = 0 := by omega
    rw [finish, if_neg hn, bits, hzero]
    simp

theorem length_bits {w : BitWriter} (h : w.WF) : w.bits.length = 8 * w.buf.length + w.n := by
  rw [bits, List.length_append, length_unpack, List.length_take, length_byteBits, Nat.min_eq_left h.n_lt.le]

/-- `finish` returns the written bits rounded up to whole bytes. -/
theorem length_finish {w : BitWriter} (h : w.WF) : w.finish.length = (w.bits.length + 7) / 8 := by
  rw [length_bits h]
  have hn := h.n_lt
  by_cases hpos : w.n > 0
  · rw [finish, if_pos hpos, List.length_append, List.length_singleton]
    omega
  · rw [finish, if_neg hpos]
    omega

end BitWriter

/-! ### The reader -/

/-- `BitReader`: the bytes, the byte being read and the position in it of the
next bit, from the top. -/
structure BitReader where
  buf : List UInt8
  bytePos : Nat
  bitPos : Nat
  deriving DecidableEq, Repr

namespace BitReader

def new (buf : List UInt8) : BitReader := ⟨buf, 0, 0⟩

/-- `read_bit`: bit `7 - bit_pos` of the current byte, or `none` past the end. -/
def readBit (r : BitReader) : Option (Bool × BitReader) :=
  if h : r.bytePos < r.buf.length then
    let byte := r.buf[r.bytePos]
    let bit := (byte >>> UInt8.ofNat (7 - r.bitPos)) &&& 1 != 0
    let bitPos := r.bitPos + 1
    if bitPos = 8 then some (bit, ⟨r.buf, r.bytePos + 1, 0⟩) else some (bit, ⟨r.buf, r.bytePos, bitPos⟩)
  else none

/-- The loop of `read32` and `read64`: `bits` bits, most significant first,
shifted into a `width`-bit accumulator. -/
def readLoop (width : Nat) : Nat → Nat → BitReader → Option (Nat × BitReader)
  | 0, val, r => some (val, r)
  | k + 1, val, r =>
    match r.readBit with
    | some (bit, r) => readLoop width k (shiftIn width val bit) r
    | none => none

/-- `read32`: `bits` bits as the low bits of a `u32`. -/
def read32 (r : BitReader) (bits : Nat) : Option (Nat × BitReader) := readLoop 32 bits 0 r

/-- `read64`: `bits` bits as the low bits of a `u64`. -/
def read64 (r : BitReader) (bits : Nat) : Option (Nat × BitReader) := readLoop 64 bits 0 r

/-- The bits from the cursor on. -/
def rest (r : BitReader) : List Bool := (unpack r.buf).drop (8 * r.bytePos + r.bitPos)

/-- The cursor is inside a byte. -/
def WF (r : BitReader) : Prop := r.bitPos < 8

theorem wf_new (buf : List UInt8) : (new buf).WF := Nat.succ_pos 7

@[simp] theorem rest_new (buf : List UInt8) : (new buf).rest = unpack buf := rfl

theorem readBit_of_rest_nil {r : BitReader} (h : r.WF) (hr : r.rest = []) : r.readBit = none := by
  have hlen := List.drop_eq_nil_iff.mp hr
  rw [length_unpack] at hlen
  rw [readBit, dif_neg (by unfold WF at h; omega)]

theorem bne_zero_eq_toNat (x : UInt8) : (x != 0) = (x.toNat != 0) := by
  rw [Bool.eq_iff_iff, bne_iff_ne, bne_iff_ne, Ne, Ne, ← UInt8.toNat_inj]
  rfl

theorem toNat_shiftRight_and_one (byte : UInt8) {p : Nat} (hp : p < 8) :
    ((byte >>> UInt8.ofNat (7 - p)) &&& 1 != 0) = byte.toNat.testBit (7 - p) := by
  rw [bne_zero_eq_toNat, Nat.testBit, UInt8.toNat_and, UInt8.toNat_shiftRight, UInt8.toNat_ofNat',
    Nat.mod_eq_of_lt (show 7 - p < 2 ^ 8 by omega), Nat.mod_eq_of_lt (show 7 - p < 8 by omega), Nat.land_comm]
  rfl

theorem readBit_of_rest_cons {r : BitReader} (h : r.WF) {b : Bool} {l : List Bool} (hr : r.rest = b :: l) :
    ∃ r', r.readBit = some (b, r') ∧ r'.WF ∧ r'.rest = l := by
  unfold WF at h
  have hpos : r.bytePos < r.buf.length := by
    by_contra hge
    have hnil : r.rest = [] := List.drop_eq_nil_of_le (by rw [length_unpack]; omega)
    rw [hnil] at hr
    cases hr
  -- the bit under the cursor is bit `7 - bit_pos` of the current byte
  have hhead : b = r.buf[r.bytePos].toNat.testBit (7 - r.bitPos) := by
    rw [rest, drop_unpack hpos h.le, List.drop_eq_getElem_cons (by simpa using h)] at hr
    rw [← getElem_byteBits]
    exact (List.cons.inj hr).1.symm
  have hnext : ∀ r' : BitReader, r'.buf = r.buf → 8 * r'.bytePos + r'.bitPos = 8 * r.bytePos + r.bitPos + 1 →
      r'.rest = l := by
    intro r' hbuf hpos'
    rw [rest, hbuf, hpos', ← List.drop_drop, ← rest, hr, List.drop_one, List.tail_cons]
  simp only [readBit, dif_pos hpos, toNat_shiftRight_and_one _ h, ← hhead]
  by_cases hend : r.bitPos + 1 = 8
  · refine ⟨⟨r.buf, r.bytePos + 1, 0⟩, by simp [hend], Nat.succ_pos 7, hnext _ rfl ?_⟩
    show 8 * (r.bytePos + 1) + 0 = 8 * r.bytePos + r.bitPos + 1
    omega
  · refine ⟨⟨r.buf, r.bytePos, r.bitPos + 1⟩, by simp [hend], ?_, hnext _ rfl rfl⟩
    show r.bitPos + 1 < 8
    omega

/-- Reading `k` bits shifts in the first `k` bits from the cursor. -/
theorem readLoop_of_rest (width : Nat) :
    ∀ (bs : List Bool) {r : BitReader} {l : List Bool} (acc : Nat), r.WF → r.rest = bs ++ l →
      ∃ r', readLoop width bs.length acc r = some (bs.foldl (shiftIn width) acc, r') ∧ r'.WF ∧ r'.rest = l
  | [], r, l, acc, h, hr => ⟨r, rfl, h, by simpa using hr⟩
  | b :: bs, r, l, acc, h, hr => by
    obtain ⟨r₁, hread, h₁, hr₁⟩ := readBit_of_rest_cons h (by rw [hr, List.cons_append])
    obtain ⟨r', hloop, h', hr'⟩ := readLoop_of_rest width bs (shiftIn width acc b) h₁ hr₁
    exact ⟨r', by rw [List.length_cons, readLoop, hread]; exact hloop, h', hr'⟩

/-- Reading back the `k` low bits of a value below `2 ^ k`. -/
theorem readLoop_bitsMSB {width k v : Nat} (hw : 0 < width) (hk : k ≤ width) (hv : v < 2 ^ k) {r : BitReader}
    {l : List Bool} (h : r.WF) (hr : r.rest = bitsMSB k v ++ l) :
    ∃ r', readLoop width k 0 r = some (v, r') ∧ r'.WF ∧ r'.rest = l := by
  obtain ⟨r', hloop, h', hr'⟩ := readLoop_of_rest width (bitsMSB k v) 0 h hr
  rw [length_bitsMSB, shiftIn_bitsMSB hw k v (Nat.two_pow_pos width), Nat.zero_mul, Nat.zero_add,
    Nat.mod_eq_of_lt hv, Nat.mod_eq_of_lt (lt_of_lt_of_le hv (Nat.pow_le_pow_right (by decide) hk))] at hloop
  exact ⟨r', hloop, h', hr'⟩

end BitReader

/-! ### Sign extension -/

/-- `sign_extend`: the low `bits` of a `u32`, as an `i32`, by a shift to the
top, a cast to `i32` and an arithmetic shift back. -/
def signExtend (val bits : Nat) : Int :=
  let shift := 32 - bits
  toSigned 32 ((val <<< shift) % 2 ^ 32) >>> shift

theorem signExtend_eq {val bits : Nat} (h0 : 0 < bits) (h32 : bits ≤ 32) (hval : val < 2 ^ bits) :
    signExtend val bits = toSigned bits val := by
  obtain ⟨s, hs⟩ : ∃ s, 32 - bits = s := ⟨_, rfl⟩
  have hsplit : (2 : Int) ^ 32 = 2 ^ bits * 2 ^ s := by
    rw [← pow_add]
    congr 1
    omega
  have hpos : (0 : Int) < 2 ^ s := by positivity
  -- the shifted value is still below `2 ^ 32`
  have hshift : ((val <<< s : Nat) : Int) % 2 ^ 32 = (val : Int) * 2 ^ s := by
    have hlt : (val : Int) * 2 ^ s < 2 ^ 32 := by
      rw [hsplit]
      exact mul_lt_mul_of_pos_right (by exact_mod_cast hval) hpos
    rw [Nat.shiftLeft_eq, Nat.cast_mul, Nat.cast_pow, Nat.cast_ofNat, Int.emod_eq_of_lt (by positivity) hlt]
  have hbits := two_pow_eq_two_mul h0
  have h32' := two_pow_eq_two_mul (show 0 < 32 by decide)
  rw [signExtend, hs, hshift, Int.shiftRight_eq_div_pow, natCast_two_pow]
  by_cases hlow : 2 * (val : Int) < 2 ^ bits
  · -- nonnegative: both casts keep the value
    rw [toSigned_of_mem (by decide) (by nlinarith) (by nlinarith), toSigned_of_mem h0 (by omega) hlow,
      Int.mul_ediv_cancel _ hpos.ne']
  · -- negative: both casts subtract the modulus
    have hsub : ∀ (w : Nat) (z : Int), toSigned w z = toSigned w (z - 2 ^ w) := by
      intro w z
      rw [toSigned, toSigned, ← Int.emod_bmod, ← Int.emod_bmod (z - _), natCast_two_pow, Int.sub_emod_right]
    have hvpos : (val : Int) < 2 ^ bits := by exact_mod_cast hval
    rw [hsub 32, hsub bits, toSigned_of_mem (by decide) (by nlinarith) (by nlinarith),
      toSigned_of_mem h0 (by omega) (by omega), hsplit, ← Int.sub_mul, Int.mul_ediv_cancel _ hpos.ne']

end SlateDb
