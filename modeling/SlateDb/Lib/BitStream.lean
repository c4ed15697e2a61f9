import Mathlib.Data.List.Basic
import Mathlib.Data.Nat.Bitwise
import Mathlib.Tactic.Linarith
import Mathlib.Tactic.Positivity
import Mathlib.Tactic.Ring

/-!
# Bit streams and two's complement

The layer under a bit-packed format. `bitsMSB k v` is the `k` low bits of `v`,
most significant first; a byte string reads as the bits of its bytes in turn
(`unpack`). Shifting `k` such bits into an accumulator gives back `v mod 2 ^ k`
(`shiftIn_bitsMSB`).

Machine integers are modelled over `Int`: `toUnsigned w z` is the cast of `z`
to an unsigned `w`-bit integer and `toSigned w z` its cast to a signed one,
which is also the result of wrapping `w`-bit arithmetic. The signed value is
`Int.bmod`, so the casts compose by the lemmas about it.
-/

namespace BitStream

/-! ### Bits of a number -/

/-- The `k` low bits of `v`, most significant first. -/
def bitsMSB : Nat → Nat → List Bool
  | 0, _ => []
  | k + 1, v => v.testBit k :: bitsMSB k v

@[simp] theorem bitsMSB_zero (v : Nat) : bitsMSB 0 v = [] := rfl

theorem bitsMSB_succ (k v : Nat) : bitsMSB (k + 1) v = v.testBit k :: bitsMSB k v := rfl

@[simp] theorem length_bitsMSB (k v : Nat) : (bitsMSB k v).length = k := by
  induction k with
  | zero => rfl
  | succ k ih => simp [bitsMSB_succ, ih]

theorem getElem_bitsMSB {k v j : Nat} (hj : j < (bitsMSB k v).length) :
    (bitsMSB k v)[j] = v.testBit (k - 1 - j) := by
  induction k generalizing j with
  | zero => simp at hj
  | succ k ih =>
    cases j with
    | zero => simp [bitsMSB_succ]
    | succ j =>
      simp only [bitsMSB_succ, List.getElem_cons_succ]
      rw [ih]
      congr 1
      simp at hj
      omega

/-- One more bit on top of the `k` low ones. -/
theorem testBit_toNat_add_mod (k v : Nat) : (v.testBit k).toNat * 2 ^ k + v % 2 ^ k = v % 2 ^ (k + 1) := by
  rw [Nat.toNat_testBit, Nat.mod_pow_succ]
  ring

/-- An accumulator of a `w`-bit register takes one bit: shifted left, then the
bit or-ed in. -/
def shiftIn (w acc : Nat) (b : Bool) : Nat :=
  if b then (acc <<< 1) % 2 ^ w ||| 1 else (acc <<< 1) % 2 ^ w

theorem two_mul_or_one (m : Nat) : 2 * m ||| 1 = 2 * m + 1 := by
  simpa [Nat.bit_val] using Nat.lor_bit false m true 0

theorem shiftIn_eq {w : Nat} (hw : 0 < w) (acc : Nat) (b : Bool) :
    shiftIn w acc b = (2 * acc + b.toNat) % 2 ^ w := by
  obtain ⟨v, rfl⟩ : ∃ v, w = v + 1 := ⟨w - 1, by omega⟩
  have hshift : (acc <<< 1) % 2 ^ (v + 1) = 2 * (acc % 2 ^ v) := by
    rw [Nat.shiftLeft_eq, pow_one, pow_succ', Nat.mul_comm acc, Nat.mul_mod_mul_left]
  -- the bit lands below the even part, which is below `2 ^ (v + 1)`
  have hsplit : 2 * acc + b.toNat = 2 * (acc % 2 ^ v) + b.toNat + 2 ^ (v + 1) * (acc / 2 ^ v) := by
    have hdiv := Nat.div_add_mod acc (2 ^ v)
    rw [pow_succ']
    linarith
  have hlt : 2 * (acc % 2 ^ v) + b.toNat < 2 ^ (v + 1) := by
    have hmod := Nat.mod_lt acc (Nat.two_pow_pos v)
    have hb := Bool.toNat_le b
    rw [pow_succ']
    omega
  rw [hsplit, Nat.add_mul_mod_self_left, Nat.mod_eq_of_lt hlt]
  cases b with
  | false => simp [shiftIn, hshift]
  | true => simp [shiftIn, hshift, two_mul_or_one]

/-- Shifting the bits of `v` into an accumulator appends them below it. -/
theorem shiftIn_bitsMSB {w : Nat} (hw : 0 < w) (k v : Nat) {acc : Nat} (hacc : acc < 2 ^ w) :
    (bitsMSB k v).foldl (shiftIn w) acc = (acc * 2 ^ k + v % 2 ^ k) % 2 ^ w := by
  induction k generalizing acc with
  | zero => rw [bitsMSB_zero, List.foldl_nil, pow_zero, Nat.mul_one, Nat.mod_one, Nat.add_zero,
      Nat.mod_eq_of_lt hacc]
  | succ k ih =>
    have hmod : ∀ a b c : Nat, (a % 2 ^ w * c + b) % 2 ^ w = (a * c + b) % 2 ^ w := by
      intro a b c
      rw [Nat.add_mod, Nat.mul_mod, Nat.mod_mod, ← Nat.mul_mod, ← Nat.add_mod]
    rw [bitsMSB_succ, List.foldl_cons, ih (shiftIn_eq hw acc _ ▸ Nat.mod_lt _ (Nat.two_pow_pos w)),
      shiftIn_eq hw, hmod, ← testBit_toNat_add_mod]
    congr 1
    ring

/-! ### Bits of a byte string -/

/-- The bits of a byte, most significant first. -/
def byteBits (b : UInt8) : List Bool := bitsMSB 8 b.toNat

/-- The bits of a byte string, byte after byte. -/
def unpack (bytes : List UInt8) : List Bool := bytes.flatMap byteBits

@[simp] theorem length_byteBits (b : UInt8) : (byteBits b).length = 8 := length_bitsMSB 8 _

theorem getElem_byteBits {b : UInt8} {j : Nat} (hj : j < (byteBits b).length) :
    (byteBits b)[j] = b.toNat.testBit (7 - j) := getElem_bitsMSB hj

@[simp] theorem unpack_nil : unpack [] = [] := rfl

@[simp] theorem unpack_append (l₁ l₂ : List UInt8) : unpack (l₁ ++ l₂) = unpack l₁ ++ unpack l₂ :=
  List.flatMap_append

@[simp] theorem unpack_cons (b : UInt8) (l : List UInt8) : unpack (b :: l) = byteBits b ++ unpack l :=
  List.flatMap_cons

@[simp] theorem length_unpack (l : List UInt8) : (unpack l).length = 8 * l.length := by
  induction l with
  | nil => rfl
  | cons b l ih =>
    rw [unpack_cons, List.length_append, ih, length_byteBits, List.length_cons]
    ring

/-- The bits from position `8 * i + j` on start inside byte `i`. -/
theorem drop_unpack {l : List UInt8} {i : Nat} (hi : i < l.length) {j : Nat} (hj : j ≤ 8) :
    (unpack l).drop (8 * i + j) = (byteBits l[i]).drop j ++ unpack (l.drop (i + 1)) := by
  conv_lhs => rw [← List.take_append_drop i l, List.drop_eq_getElem_cons hi]
  have hlen : (unpack (l.take i)).length = 8 * i := by
    rw [length_unpack, List.length_take, Nat.min_eq_left hi.le]
  rw [unpack_append, unpack_cons, List.drop_append, hlen, Nat.add_sub_cancel_left,
    List.drop_of_length_le (by omega), List.nil_append, List.drop_append_of_le_length (by simp; omega)]

/-! ### One bit of a byte -/

/-- The mask of bit `i` of a byte. -/
theorem toNat_one_shiftLeft_ofNat {i : Nat} (h : i < 8) : ((1 : UInt8) <<< UInt8.ofNat i).toNat = 2 ^ i := by
  rw [UInt8.toNat_shiftLeft, UInt8.toNat_ofNat', show (1 : UInt8).toNat = 1 from rfl,
    Nat.mod_eq_of_lt (show i < 2 ^ 8 by omega), Nat.mod_eq_of_lt (show i < 8 by omega),
    Nat.shiftLeft_eq, Nat.one_mul, Nat.mod_eq_of_lt (Nat.pow_lt_pow_right (by decide) (by omega))]

/-- Masking bit `i` leaves something exactly when the bit is set. -/
theorem and_two_pow_ne_zero_iff (n i : Nat) : n &&& 2 ^ i ≠ 0 ↔ n.testBit i = true := by
  constructor
  · intro h
    by_contra hb
    apply h
    apply Nat.eq_of_testBit_eq
    intro j
    rw [Nat.testBit_and, Nat.testBit_two_pow, Nat.zero_testBit]
    by_cases hij : i = j
    · subst hij
      simpa using hb
    · simp [hij]
  · intro hb h0
    have hbit := congrArg (Nat.testBit · i) h0
    simp [Nat.testBit_and, hb] at hbit

/-! ### Two's complement -/

/-- `z` cast to an unsigned `w`-bit integer: its residue modulo `2 ^ w`. -/
def toUnsigned (w : Nat) (z : Int) : Nat := (z % 2 ^ w).toNat

/-- `z` cast to a signed `w`-bit integer; also where wrapping `w`-bit
arithmetic lands. -/
def toSigned (w : Nat) (z : Int) : Int := z.bmod (2 ^ w)

variable {w : Nat} {z : Int}

theorem natCast_toUnsigned (w : Nat) (z : Int) : (toUnsigned w z : Int) = z % 2 ^ w := by
  rw [toUnsigned, Int.toNat_of_nonneg (Int.emod_nonneg _ (by positivity))]

theorem toUnsigned_lt (w : Nat) (z : Int) : toUnsigned w z < 2 ^ w := by
  have h : (toUnsigned w z : Int) < 2 ^ w := by
    rw [natCast_toUnsigned]
    exact Int.emod_lt_of_pos z (by positivity)
  exact_mod_cast h

theorem toUnsigned_natCast {n : Nat} (h : n < 2 ^ w) : toUnsigned w n = n := by
  have hcast := natCast_toUnsigned w n
  rw [Int.emod_eq_of_lt (by omega) (by exact_mod_cast h)] at hcast
  exact_mod_cast hcast

/-- Masking the low `k` bits of a wider cast is the `k`-bit cast. -/
theorem toUnsigned_and_mask {k : Nat} (hk : k ≤ w) (z : Int) :
    toUnsigned w z &&& (2 ^ k - 1) = toUnsigned k z := by
  rw [Nat.and_two_pow_sub_one_eq_mod]
  have hcast : ((toUnsigned w z % 2 ^ k : Nat) : Int) = toUnsigned k z := by
    rw [Int.natCast_emod, natCast_toUnsigned, natCast_toUnsigned, Nat.cast_pow, Nat.cast_ofNat,
      Int.emod_emod_of_dvd _ (pow_dvd_pow 2 hk)]
  exact_mod_cast hcast

theorem natCast_two_pow (w : Nat) : ((2 ^ w : Nat) : Int) = 2 ^ w := by
  rw [Nat.cast_pow, Nat.cast_ofNat]

theorem toSigned_natCast_toUnsigned (w : Nat) (z : Int) : toSigned w (toUnsigned w z) = toSigned w z := by
  rw [toSigned, toSigned, natCast_toUnsigned, ← natCast_two_pow, Int.emod_bmod]

/-- Half the range of `w` bits, for `0 < w`. -/
theorem two_pow_eq_two_mul (hw : 0 < w) : (2 : Int) ^ w = 2 * 2 ^ (w - 1) := by
  rw [← pow_succ']
  congr 1
  omega

/-- A value in the signed `w`-bit range is its own cast. -/
theorem toSigned_of_mem (hw : 0 < w) (hlo : -2 ^ w ≤ 2 * z) (hhi : 2 * z < 2 ^ w) : toSigned w z = z := by
  rw [two_pow_eq_two_mul hw] at hlo hhi
  apply Int.bmod_eq_of_le
  · rw [natCast_two_pow, two_pow_eq_two_mul hw, Int.mul_ediv_cancel_left _ (by norm_num)]
    omega
  · rw [natCast_two_pow, two_pow_eq_two_mul hw]
    omega

end BitStream
