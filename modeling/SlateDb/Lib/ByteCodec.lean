import Mathlib.Data.List.Basic
import Mathlib.Data.Nat.Bitwise
import Mathlib.Tactic.Ring

/-!
# Byte strings: fixed-width integers and seven-bit groups

Reading and writing numbers in byte strings, the layer every binary format
rests on: a number in a fixed number of bytes, most significant first, read
back by `getBE`; a run of bytes split off the front by `split`; and the facts
about the continuation bit of a seven-bit group (LEB128) that a varint decoder
tests. A read returns what it read with the bytes after it, and `none` when
the input is too short.
-/

namespace ByteCodec

/-- `n` in `w` bytes, most significant first; what lies above `256 ^ w` is
dropped. -/
def putBE : Nat → Nat → List UInt8
  | 0, _ => []
  | w + 1, n => putBE w (n / 256) ++ [UInt8.ofNat n]

/-- The number in the first `w` bytes, most significant first, and the bytes
after them. -/
def getBE (w : Nat) (data : List UInt8) : Option (Nat × List UInt8) :=
  if w ≤ data.length then
    some ((data.take w).foldl (fun acc b => acc * 256 + b.toNat) 0, data.drop w)
  else none

@[simp] theorem length_putBE : ∀ w n, (putBE w n).length = w
  | 0, _ => rfl
  | w + 1, n => by simp [putBE, length_putBE w]

theorem foldl_putBE : ∀ w n acc,
    (putBE w n).foldl (fun acc b => acc * 256 + b.toNat) acc = acc * 256 ^ w + n % 256 ^ w
  | 0, n, acc => by simp [putBE, Nat.mod_one]
  | w + 1, n, acc => by
    rw [putBE, List.foldl_append, foldl_putBE w (n / 256) acc]
    -- the low byte comes last: n mod 256 ^ (w + 1) splits at the lowest byte
    have hsplit : n % 256 ^ (w + 1) = n % 256 + 256 * (n / 256 % 256 ^ w) := by
      rw [Nat.pow_succ', Nat.mod_mul]
    simp only [List.foldl_cons, List.foldl_nil, UInt8.toNat_ofNat']
    rw [hsplit, Nat.pow_succ]
    ring

theorem getBE_putBE (w : Nat) {n : Nat} (h : n < 256 ^ w) (rest : List UInt8) :
    getBE w (putBE w n ++ rest) = some (n, rest) := by
  have hlen : w ≤ (putBE w n ++ rest).length := by simp
  rw [getBE, if_pos hlen, List.take_append_of_le_length (by simp), List.take_of_length_le (by simp),
    List.drop_append_of_le_length (by simp), List.drop_of_length_le (by simp), List.nil_append,
    foldl_putBE, Nat.zero_mul, Nat.zero_add, Nat.mod_eq_of_lt h]

/-- A read of zero bytes is zero. -/
theorem getBE_replicate_zero (w : Nat) {n : Nat} (h : w ≤ n) (rest : List UInt8) :
    getBE w (List.replicate n 0 ++ rest) = some (0, List.replicate (n - w) 0 ++ rest) := by
  have hfold : ∀ k, (List.replicate k (0 : UInt8)).foldl (fun acc b => acc * 256 + b.toNat) 0 = 0 := by
    intro k
    induction k with
    | zero => rfl
    | succ k ih =>
      rw [List.replicate_succ, List.foldl_cons]
      simpa using ih
  have hlen : w ≤ (List.replicate n (0 : UInt8) ++ rest).length := by simp; omega
  rw [getBE, if_pos hlen, List.take_append_of_le_length (by simpa using h),
    List.drop_append_of_le_length (by simpa using h), List.take_replicate, List.drop_replicate,
    Nat.min_eq_left h, hfold]

/-- `n` in `w` bytes, least significant first. -/
def putLE (w n : Nat) : List UInt8 := (putBE w n).reverse

/-- The number in a byte string, least significant byte first. -/
def ofLE (bytes : List UInt8) : Nat := bytes.reverse.foldl (fun acc b => acc * 256 + b.toNat) 0

@[simp] theorem length_putLE (w n : Nat) : (putLE w n).length = w := by
  rw [putLE, List.length_reverse, length_putBE]

theorem ofLE_putLE (w n : Nat) : ofLE (putLE w n) = n % 256 ^ w := by
  rw [ofLE, putLE, List.reverse_reverse, foldl_putBE, Nat.zero_mul, Nat.zero_add]

/-- The first `n` elements and the rest. -/
def split {α : Type} (n : Nat) (data : List α) : Option (List α × List α) :=
  if n ≤ data.length then some (data.take n, data.drop n) else none

theorem split_append {α : Type} (l rest : List α) : split l.length (l ++ rest) = some (l, rest) := by
  simp [split]

/-! ### The continuation bit of a seven-bit group -/

theorem or_continuation_and_low (x : Nat) : (x ||| 128) &&& 127 = x % 128 := by
  rw [Nat.and_or_distrib_right, show (127 : Nat) = 2 ^ 7 - 1 from rfl,
    Nat.and_two_pow_sub_one_eq_mod, Nat.and_two_pow_sub_one_eq_mod]
  simp

theorem or_continuation_and_continuation (x : Nat) : (x ||| 128) &&& 128 = 128 := by
  rw [show (128 : Nat) = 2 ^ 7 from rfl, Nat.and_two_pow, Nat.testBit_or, Nat.testBit_two_pow_self,
    Bool.or_true]
  rfl

theorem and_continuation_of_lt {x : Nat} (h : x < 128) : x &&& 128 = 0 := by
  rw [show (128 : Nat) = 2 ^ 7 from rfl, Nat.and_two_pow, Nat.testBit_lt_two_pow h]
  rfl

end ByteCodec
