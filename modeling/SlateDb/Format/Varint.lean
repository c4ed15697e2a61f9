import SlateDb.Format.Buf

/-!
# Varints of the `v2` rows

`encode_varint`, `decode_varint` and `varint_len` (utils.rs) write a `u32`
seven bits at a time, lowest first, with the high bit set on every byte but
the last (LEB128). The decoder ors each group into a `u32` at its shift; a
shift of 32 or more wraps, as in a release build, which a varint that
`encode_varint` wrote never reaches.

The main facts: the decoder gives back what the encoder wrote, with the
bytes after it (`decodeVarint_encodeVarint`), and `varint_len` is the length
the encoder writes (`length_encodeVarint`).
-/

namespace SlateDb

theorem UInt32.toNat_shiftRight_seven (value : UInt32) : (value >>> 7).toNat = value.toNat / 128 := by
  rw [UInt32.toNat_shiftRight, Nat.shiftRight_eq_div_pow]
  rfl

theorem UInt32.le_toNat_of_ge {value : UInt32} (h : value ≥ 0x80) : 128 ≤ value.toNat :=
  UInt32.le_iff_toNat_le.mp h

def encodeVarint (value : UInt32) : List UInt8 :=
  if value ≥ 0x80 then (value.toUInt8 ||| 0x80) :: encodeVarint (value >>> 7)
  else [value.toUInt8]
termination_by value.toNat
decreasing_by
  have h := UInt32.le_toNat_of_ge ‹_›
  rw [UInt32.toNat_shiftRight_seven]
  omega

/-- `varint_len`: the number of bytes `encode_varint` writes. -/
def varintLen (value : UInt32) : Nat :=
  if value ≥ 0x80 then varintLen (value >>> 7) + 1 else 1
termination_by value.toNat
decreasing_by
  have h := UInt32.le_toNat_of_ge ‹_›
  rw [UInt32.toNat_shiftRight_seven]
  omega

/-- The loop of `decode_varint`, from the bits read so far and the shift of
the next group. Reading past the end panics. -/
def decodeVarintLoop (result : UInt32) (shift : Nat) :
    List UInt8 → Except FormatError (UInt32 × List UInt8)
  | [] => .error (.panic "advance out of bounds")
  | byte :: buf =>
    let result := result ||| (byte &&& 0x7F).toUInt32 <<< shift.toUInt32
    if byte &&& 0x80 = 0 then .ok (result, buf) else decodeVarintLoop result (shift + 7) buf

/-- `decode_varint`: the number, and the bytes after it. -/
def decodeVarint (buf : List UInt8) : Except FormatError (UInt32 × List UInt8) :=
  decodeVarintLoop 0 0 buf

example : encodeVarint 300 = [0xAC, 0x02] := by decide +kernel

theorem length_encodeVarint (value : UInt32) : (encodeVarint value).length = varintLen value := by
  induction value using encodeVarint.induct with
  | case1 value hge ih => rw [encodeVarint, varintLen, if_pos hge, if_pos hge, List.length_cons, ih]
  | case2 value hlt => rw [encodeVarint, varintLen, if_neg hlt, if_neg hlt, List.length_singleton]

/-! ### Decoding what was encoded -/

/-- Or-ing a group into the bits below its shift adds it. -/
theorem toNat_or_shiftLeft {r g : UInt32} {shift : Nat} (hr : r.toNat < 2 ^ shift)
    (hg : g.toNat * 2 ^ shift < 2 ^ 32) :
    (r ||| g <<< shift.toUInt32).toNat = r.toNat + g.toNat * 2 ^ shift := by
  rcases Nat.eq_zero_or_pos g.toNat with h0 | hpos
  · have hg0 : g = 0 := UInt32.toNat_inj.mp h0
    subst hg0
    simp
  · -- a non-zero group lies below bit 32, so its shift is below 32
    have hshift : shift < 32 := by
      by_contra hge
      have : 2 ^ 32 ≤ 2 ^ shift := Nat.pow_le_pow_right (by norm_num) (by omega)
      have : 2 ^ shift ≤ g.toNat * 2 ^ shift := Nat.le_mul_of_pos_left _ hpos
      omega
    have hs : shift.toUInt32.toNat % 32 = shift := by
      rw [Buf.toNat_toUInt32_of_lt (by omega), Nat.mod_eq_of_lt hshift]
    rw [UInt32.toNat_or, UInt32.toNat_shiftLeft, hs, Nat.mod_eq_of_lt (by rwa [Nat.shiftLeft_eq]),
      Nat.lor_comm, ← Nat.shiftLeft_add_eq_or_of_lt hr, Nat.shiftLeft_eq, Nat.add_comm]

/-- The last byte of a varint: its group, and no continuation bit. -/
theorem lastByte {value : UInt32} (h : value.toNat < 128) :
    (value.toUInt8 &&& 0x7F).toUInt32 = value ∧ value.toUInt8 &&& 0x80 = 0 := by
  have hbyte : value.toUInt8.toNat = value.toNat := by
    rw [UInt32.toNat_toUInt8]
    omega
  constructor
  · apply UInt32.toNat_inj.mp
    rw [UInt8.toNat_toUInt32, UInt8.toNat_and, hbyte]
    exact Nat.and_two_pow_sub_one_of_lt_two_pow (n := 7) h
  · apply UInt8.toNat_inj.mp
    rw [UInt8.toNat_and, hbyte]
    exact ByteCodec.and_continuation_of_lt h

/-- A byte before the last: the low seven bits of the value, and the
continuation bit. -/
theorem nextByte (value : UInt32) :
    ((value.toUInt8 ||| 0x80) &&& 0x7F).toUInt32.toNat = value.toNat % 128 ∧
      (value.toUInt8 ||| 0x80) &&& 0x80 ≠ 0 := by
  have hbyte : (value.toUInt8 ||| 0x80).toNat = value.toNat % 256 ||| 128 := by
    rw [UInt8.toNat_or, UInt32.toNat_toUInt8]
    rfl
  constructor
  · rw [UInt8.toNat_toUInt32, UInt8.toNat_and, hbyte]
    rw [show (0x7F : UInt8).toNat = 127 from rfl, ByteCodec.or_continuation_and_low,
      Nat.mod_mod_of_dvd _ (by norm_num)]
  · intro h
    have h' := congrArg UInt8.toNat h
    rw [UInt8.toNat_and, hbyte, show (0x80 : UInt8).toNat = 128 from rfl,
      ByteCodec.or_continuation_and_continuation] at h'
    cases h'

/-- The loop reads back a varint that `encode_varint` wrote at any shift
where it fits, adding it to the bits below. -/
theorem decodeVarintLoop_encodeVarint (value : UInt32) :
    ∀ (result : UInt32) (shift : Nat) (rest : List UInt8), result.toNat < 2 ^ shift →
      value.toNat * 2 ^ shift < 2 ^ 32 →
      decodeVarintLoop result shift (encodeVarint value ++ rest) =
        .ok ((result.toNat + value.toNat * 2 ^ shift).toUInt32, rest) := by
  induction value using encodeVarint.induct with
  | case2 value hlt =>
    -- the last group
    intro result shift rest hr hv
    have hlt' : value.toNat < 128 := by
      simpa [UInt32.le_iff_toNat_le] using hlt
    obtain ⟨hlow, hflag⟩ := lastByte hlt'
    rw [encodeVarint, if_neg hlt, List.singleton_append, decodeVarintLoop, if_pos hflag, hlow]
    congr 2
    apply UInt32.toNat_inj.mp
    have hsum := toNat_or_shiftLeft hr hv
    rw [hsum, Buf.toNat_toUInt32_of_lt (hsum ▸ UInt32.toNat_lt _)]
  | case1 value hge ih =>
    -- a group with more to come: the low seven bits go in at this shift
    intro result shift rest hr hv
    have h128 := UInt32.le_toNat_of_ge hge
    obtain ⟨hlow, hflag⟩ := nextByte value
    rw [encodeVarint, if_pos hge, List.cons_append, decodeVarintLoop, if_neg hflag]
    have hgroup : ((value.toUInt8 ||| 0x80) &&& 0x7F).toUInt32.toNat * 2 ^ shift < 2 ^ 32 := by
      rw [hlow]
      exact lt_of_le_of_lt (Nat.mul_le_mul_right _ (by omega)) hv
    have hacc := toNat_or_shiftLeft hr hgroup
    rw [hlow] at hacc
    -- the bits read so far stay below the next shift, and the rest of the value fits above it
    have hr' : (result ||| ((value.toUInt8 ||| 0x80) &&& 0x7F).toUInt32 <<< shift.toUInt32).toNat <
        2 ^ (shift + 7) := by
      have hmod : value.toNat % 128 * 2 ^ shift ≤ 127 * 2 ^ shift := Nat.mul_le_mul_right _ (by omega)
      rw [hacc, Nat.pow_add, show (2 : Nat) ^ 7 = 128 from rfl]
      omega
    have hv' : (value >>> 7).toNat * 2 ^ (shift + 7) < 2 ^ 32 := by
      have hdiv : value.toNat / 128 * 128 * 2 ^ shift ≤ value.toNat * 2 ^ shift :=
        Nat.mul_le_mul_right _ (Nat.div_mul_le_self _ _)
      rw [UInt32.toNat_shiftRight_seven, Nat.pow_add, show (2 : Nat) ^ 7 = 128 from rfl,
        Nat.mul_comm (2 ^ shift) 128, ← Nat.mul_assoc]
      omega
    rw [ih _ (shift + 7) rest hr' hv', hacc, UInt32.toNat_shiftRight_seven]
    congr 3
    -- the two groups make up the value
    have hsplit : value.toNat = value.toNat % 128 + 128 * (value.toNat / 128) :=
      (Nat.mod_add_div _ _).symm
    conv_rhs => rw [hsplit]
    rw [Nat.pow_add]
    ring

theorem decodeVarint_encodeVarint (value : UInt32) (rest : List UInt8) :
    decodeVarint (encodeVarint value ++ rest) = .ok (value, rest) := by
  rw [decodeVarint, decodeVarintLoop_encodeVarint value 0 0 rest (by simp) (by simpa using value.toNat_lt)]
  simp

end SlateDb
