import SlateDb.Format.Bits
import SlateDb.Lib.ByteCodec
import SlateDb.Lib.Transition

/-!
# The sequence tracker and its Gorilla encoding

`SequenceTracker` (seq_tracker.rs) keeps pairs of a sequence number and the
time it was written, at most one pair per interval, and halves itself by
dropping every other pair when it grows past its capacity. `to_bytes` writes it
as a version byte, the number of pairs, then each list in Gorilla encoding:
the first value in full, then for each next value the difference of its
difference from the previous one (the delta-of-delta), in one of five
prefix-coded widths. `from_bytes` reads it back.

Arithmetic on `i64` wraps, as in a release build, on `Int64`. A sequence
number is cast to `i64` bit for bit and back. The chrono conversion of
`extend_from`, `DateTime::from_timestamp`, is a parameter `representable`: the
timestamps that chrono can represent.
-/

namespace SlateDb

open BitStream

/-- `TrackedSeq`: a sequence number and the time it was written, as the
seconds of `DateTime::timestamp`. -/
structure TrackedSeq where
  seq : UInt64
  ts : Int64
  deriving DecidableEq, Repr

structure SequenceTracker where
  sequenceNumbers : List UInt64
  timestamps : List Int64
  capacity : UInt32
  intervalSecs : UInt64
  lastRecordedTs : Option Int64
  deriving DecidableEq, Repr

def defaultCapacity : UInt32 := 8192

def defaultIntervalSecs : UInt64 := 60

def serializationVersion : UInt8 := 1

namespace SequenceTracker

def withConfig (capacity : UInt32) (intervalSecs : UInt64) : SequenceTracker :=
  ⟨[], [], capacity, intervalSecs, none⟩

def new : SequenceTracker := withConfig defaultCapacity defaultIntervalSecs

/-- The entries at even positions, `(0..len).step_by(2)`. -/
def everyOther {α : Type} : List α → List α
  | [] => []
  | [a] => [a]
  | a :: _ :: l => a :: everyOther l

/-- `downsample`: every other entry of both lists, from the first. -/
def downsample (t : SequenceTracker) : SequenceTracker :=
  { t with sequenceNumbers := everyOther t.sequenceNumbers, timestamps := everyOther t.timestamps }

/-- `insert`: a pair that comes less than an interval after the last recorded
one is dropped; a sequence number or time below the last one fails an
assertion (`none`); else the pair is appended, and the tracker is halved when
it holds more than its capacity. -/
def insert (t : SequenceTracker) (s : TrackedSeq) : Option SequenceTracker :=
  let tsSecs := s.ts
  if t.lastRecordedTs.any fun lastTs => tsSecs - lastTs < t.intervalSecs.toInt64 then some t
  else if t.sequenceNumbers.getLast?.any fun lastSeq => !decide (s.seq ≥ lastSeq) then none
  else if t.timestamps.getLast?.any fun lastTs => !decide (tsSecs ≥ lastTs) then none
  else
    let t := { t with
      sequenceNumbers := t.sequenceNumbers ++ [s.seq]
      timestamps := t.timestamps ++ [tsSecs]
      lastRecordedTs := some tsSecs }
    if t.sequenceNumbers.length > t.capacity.toNat then some t.downsample else some t

/-- `extend_from`: every pair of `other` whose time chrono can represent,
inserted in turn. -/
def extendFrom (representable : Int64 → Bool) (t other : SequenceTracker) : Option SequenceTracker :=
  if other.sequenceNumbers.isEmpty then some t
  else (other.sequenceNumbers.zip other.timestamps).foldlM
    (fun t (seq, tsSecs) => if representable tsSecs then t.insert ⟨seq, tsSecs⟩ else some t) t

end SequenceTracker

/-! ### Gorilla encoding -/

/-- One delta-of-delta, in the widest of the five codes that holds it. -/
def encodeDod (w : BitWriter) (dod : Int64) : BitWriter :=
  if dod = 0 then w.push false
  else if -63 ≤ dod ∧ dod ≤ 63 then (w.push32 0b10 2).push32 (toUnsigned 32 dod.toInt &&& 0x7F) 7
  else if -255 ≤ dod ∧ dod ≤ 255 then (w.push32 0b110 3).push32 (toUnsigned 32 dod.toInt &&& 0x1FF) 9
  else if -2047 ≤ dod ∧ dod ≤ 2047 then (w.push32 0b1110 4).push32 (toUnsigned 32 dod.toInt &&& 0xFFF) 12
  else (w.push32 0b1111 4).push32 (toUnsigned 32 dod.toInt) 32

/-- The loop of `encode_gorilla_i64` over the values after the first. -/
def encodeDeltas : BitWriter → Int64 → Int64 → List Int64 → BitWriter
  | w, _, _, [] => w
  | w, prevVal, prevDelta, val :: values =>
    let delta := val - prevVal
    let dod := delta - prevDelta
    encodeDeltas (encodeDod w dod) val delta values

/-- `encode_gorilla_i64`: the count, the first value in full, then the
delta-of-deltas. -/
def encodeGorillaI64 (values : List Int64) : List UInt8 :=
  let w := BitWriter.new.push32 (toUnsigned 32 values.length) 32
  match values with
  | [] => w.finish
  | first :: rest => (encodeDeltas (w.push64 (toUnsigned 64 first.toInt) 64) first 0 rest).finish

/-- `GORILLA_PREFIX_BYTES`: the payload width of each prefix length. -/
def gorillaPrefixBytes : List Nat := [0, 7, 9, 12, 32]

/-- The inner loop of a prefix: further ones, up to four in all, with the bits
read so far. -/
def readPrefix : Nat → Nat → BitReader → Nat → Except String (Nat × BitReader × Nat)
  | 0, count, r, bitsRead => .ok (count, r, bitsRead)
  | fuel + 1, count, r, bitsRead =>
    match r.readBit with
    | some (true, r) => readPrefix fuel (count + 1) r (bitsRead + 1)
    | some (false, r) => .ok (count, r, bitsRead + 1)
    | none => .error "Unexpected EOF decoding Gorilla prefix"

/-- One delta-of-delta: a zero bit, or a prefix of ones and the payload of its
width, sign-extended. -/
def decodeDod (r : BitReader) (bitsRead : Nat) : Except String (Int64 × BitReader × Nat) :=
  match r.readBit with
  | none => .error "Unexpected EOF reading prefix"
  | some (false, r) => .ok (0, r, bitsRead + 1)
  | some (true, r) => do
    let (count, r, bitsRead) ← readPrefix 3 1 r (bitsRead + 1)
    let bits := gorillaPrefixBytes.getD count 0
    match r.read32 bits with
    | none => .error ("Unexpected EOF reading " ++ toString bits ++ "-bit delta-of-delta")
    | some (raw, r) => .ok (Int64.ofInt (signExtend raw bits), r, bitsRead + bits)

/-- The loop of `decode_gorilla_i64_with_length` over the `remaining` values. -/
def decodeDeltas : Nat → BitReader → Nat → Int64 → Int64 → List Int64 →
    Except String (BitReader × Nat × List Int64)
  | 0, r, bitsRead, _, _, values => .ok (r, bitsRead, values)
  | remaining + 1, r, bitsRead, prevVal, prevDelta, values => do
    let (dod, r, bitsRead) ← decodeDod r bitsRead
    let delta := prevDelta + dod
    let val := prevVal + delta
    decodeDeltas remaining r bitsRead val delta (values ++ [val])

/-- `decode_gorilla_i64_with_length`: the bytes read, rounded up, and the
values. -/
def decodeGorillaI64WithLength (buf : List UInt8) : Except String (Nat × List Int64) :=
  match (BitReader.new buf).read32 32 with
  | none => .error "Expected count first"
  | some (remaining, r) =>
    if 0 < remaining then
      match r.read64 64 with
      | none => .error "Unexpected EOF: first value should be 64 bit"
      | some (firstBits, r) => do
        let first := Int64.ofNat firstBits
        let (_, bitsRead, values) ← decodeDeltas (remaining - 1) r (32 + 64) first 0 [first]
        .ok ((bitsRead + 7) / 8, values)
    else .ok ((32 + 7) / 8, [])

/-- `encode_sequence_numbers`: cast to `i64` bit for bit. -/
def encodeSequenceNumbers (sequences : List UInt64) : List UInt8 :=
  encodeGorillaI64 (sequences.map UInt64.toInt64)

def decodeSequenceNumbersWithLength (buf : List UInt8) : Except String (Nat × List UInt64) := do
  let (bytesConsumed, values) ← decodeGorillaI64WithLength buf
  .ok (bytesConsumed, values.map Int64.toUInt64)

def encodeTimestamps (timestamps : List Int64) : List UInt8 := encodeGorillaI64 timestamps

def decodeTimestamps (buf : List UInt8) : Except String (List Int64) := do
  let (_, timestamps) ← decodeGorillaI64WithLength buf
  .ok timestamps

namespace SequenceTracker

/-- `to_bytes` (`encode_sequence_tracker`): the version, the number of pairs
as a little-endian `u32`, the sequence numbers, the timestamps. -/
def toBytes (t : SequenceTracker) : List UInt8 :=
  [serializationVersion] ++ ByteCodec.putLE 4 t.sequenceNumbers.length ++
    encodeSequenceNumbers t.sequenceNumbers ++ encodeTimestamps t.timestamps

/-- `from_bytes` (`decode_sequence_tracker`): the tracker has the default
configuration and no last recorded time. -/
def fromBytes (buf : List UInt8) : Except String SequenceTracker :=
  match buf with
  | [] => .error "Empty buffer"
  | version :: _ =>
    if version ≠ serializationVersion then .error ("Unsupported version: " ++ toString version)
    else if buf.length < 1 + 4 then .error "Buffer too small for length"
    else do
      let len := ByteCodec.ofLE ((buf.drop 1).take 4)
      let (encodedSeqLen, sequenceNumbers) ← decodeSequenceNumbersWithLength (buf.drop 5)
      if sequenceNumbers.length ≠ len then
        .error ("Expected " ++ toString len ++ " sequence numbers, got " ++ toString sequenceNumbers.length)
      else do
        let timestamps ← decodeTimestamps (buf.drop (5 + encodedSeqLen))
        if timestamps.length ≠ len then
          .error ("Expected " ++ toString len ++ " timestamps, got " ++ toString timestamps.length)
        else .ok { withConfig defaultCapacity defaultIntervalSecs with sequenceNumbers, timestamps }

/-! ### Runs from `new` -/

/-- The calls that change a tracker. -/
inductive Event where
  | insert (s : TrackedSeq)
  | extendFrom (other : SequenceTracker)

def step (representable : Int64 → Bool) (t : SequenceTracker) : Event → Option SequenceTracker
  | .insert s => t.insert s
  | .extendFrom other => t.extendFrom representable other

/-- Trackers from `new`, by the calls that do not fail an assertion. -/
def system (representable : Int64 → Bool) : Transition.System SequenceTracker Event where
  init t := t = new
  step t e t' := step representable t e = some t'

end SequenceTracker

end SlateDb
