import NeuralNetwork.Lib.Cpp
import NeuralNetwork.Lib.Loop

/-!
# The token encoder and decoder

`matrix/matrix_encoder_decoder.h` with the tensor shapes of `matrix/tensor_factory.h`: a byte string
is cut into words of `vocab_bit_width` bits (`BitStreamReader`), each word becomes a one-hot block of
`2 ^ vocab_bit_width` logits, and the blocks fill a matrix; the decoder takes the argmax of each
block and repacks the words (`BitStream`). The logit type `F` is a parameter: only `0`, `1` and `<`
are used. Memory exhaustion is left out.
-/

namespace MatrixCodec

open Cpp Loop

def charBit : Nat := 8

/-! ## Bit streams -/

structure BitStreamReader where
  data : List Byte
  offset : Nat

def readBitAt (data : List Byte) (idx : Nat) : Except Fault Bool :=
  if idx ≥ data.length * charBit then .error .abort
  else
    let word := data.getD (idx / charBit) 0
    .ok ((word >>> (idx % charBit)) &&& 1 != 0)

/-- The `read_bit_sz` bits before `actual_last`, the last one read first. -/
def readBits (data : List Byte) (actualLast readBitSz : Nat) : Except Fault (BitVec 64) :=
  forLoop (fun i (result : BitVec 64) => do
    let bit ← readBitAt data (actualLast - (i + 1))
    .ok ((result <<< 1) ||| (BitVec.ofBool bit).setWidth 64)) readBitSz 0

def BitStreamReader.readUint64 (r : BitStreamReader) (bitWidth : Nat) :
    Except Fault (Option (BitVec 64) × BitStreamReader) :=
  if bitWidth > 64 then
    .error (.invalidArgument "bad bit width, max 64 bits for uint64_t")
  else if bitWidth = 0 then .ok (some 0, r)
  else
    let maxLast := r.data.length * charBit
    let tentativeLast := r.offset + bitWidth
    let actualLast := min tentativeLast maxLast
    let readBitSz := actualLast - r.offset
    if readBitSz = 0 then .ok (none, r)
    else do
      let result ← readBits r.data actualLast readBitSz
      .ok (some result, { r with offset := actualLast })

/-- The bytes written so far; the last one may be partly filled. -/
structure BitStream where
  streamContainer : List Byte
  offset : Nat
  size_eq : streamContainer.length = (offset + 7) / charBit

def BitStream.empty : BitStream := ⟨[], 0, rfl⟩

/-- The container with a byte for the next bit. -/
def BitStream.room (s : BitStream) : List Byte :=
  if s.offset / charBit = s.streamContainer.length then s.streamContainer ++ [0]
  else s.streamContainer

theorem BitStream.length_room (s : BitStream) :
    s.room.length = (s.offset + 1 + 7) / charBit := by
  have h := s.size_eq
  unfold room
  split
  · simp only [List.length_append, List.length_singleton, charBit] at *; omega
  · simp only [charBit] at *; omega

/-- `push_bit`. The toggler is or-ed in without looking at the value. -/
def BitStream.pushBit (s : BitStream) (_value : Bool) : BitStream :=
  let offsetSlot := s.offset / charBit
  let byteValue := s.room.getD offsetSlot 0
  let toggler := 1#8 <<< (s.offset % charBit)
  ⟨s.room.set offsetSlot (byteValue ||| toggler), s.offset + 1, by
    rw [List.length_set, s.length_room]⟩

def BitStream.writeUint64 (s : BitStream) (word : BitVec 64) : Nat → BitStream
  | 0 => s
  | bitSz + 1 => (s.pushBit (word.getLsbD 0)).writeUint64 (word >>> 1) bitSz

def BitStream.get (s : BitStream) : List Byte := s.streamContainer

/-! ## The tensor -/

def processUnitLogitVecDimensionSz : Nat := 2

def processGroupProcessUnitDimensionSz : Nat := 8

structure ProcessUnit (F : Type) where
  logitVec : Vector F processUnitLogitVecDimensionSz

structure ProcessGroup (F : Type) where
  processVec : Vector (ProcessUnit F) processGroupProcessUnitDimensionSz

structure BeingUnit (F : Type) where
  processGroupVecSz : Nat
  processGroupVec : Vector (ProcessGroup F) processGroupVecSz

structure Matrix (F : Type) where
  beingVecSz : Nat
  beingVec : Vector (BeingUnit F) beingVecSz

variable {F : Type}

def checkShape : List Nat → Except Fault Unit
  | [s0, s1, s2, s3] =>
    if s0 = 0 then .error (.invalidArgument "bad shape, empty space")
    else if s1 = 0 then .error (.invalidArgument "bad shape, empty space")
    else if s2 ≠ processGroupProcessUnitDimensionSz then
      .error (.invalidArgument "bad shape, incompatible process group size")
    else if s3 ≠ processUnitLogitVecDimensionSz then
      .error (.invalidArgument "bad shape, incompatible process unit size")
    else .ok ()
  | _ => .error (.invalidArgument "bad shape, incompatible dimension size")

/-- `input_vec[access_guard(ptr++, input_vec.size())]`, with the rest of the vector as the state. -/
def nextLogit : List F → Except Fault (F × List F)
  | [] => .error (.invalidArgument "out of bound access")
  | x :: xs => .ok (x, xs)

def readVector {α : Type} (read : List F → Except Fault (α × List F)) :
    (n : Nat) → List F → Except Fault (Vector α n × List F)
  | 0, xs => .ok (#v[], xs)
  | n + 1, xs => do
    let (v, xs) ← readVector read n xs
    let (a, xs) ← read xs
    .ok (v.push a, xs)

def readUnit (xs : List F) : Except Fault (ProcessUnit F × List F) := do
  let (v, xs) ← readVector nextLogit processUnitLogitVecDimensionSz xs
  .ok (⟨v⟩, xs)

def readGroup (xs : List F) : Except Fault (ProcessGroup F × List F) := do
  let (v, xs) ← readVector readUnit processGroupProcessUnitDimensionSz xs
  .ok (⟨v⟩, xs)

def readBeing (processGroupVecSz : Nat) (xs : List F) : Except Fault (BeingUnit F × List F) := do
  let (v, xs) ← readVector readGroup processGroupVecSz xs
  .ok (⟨processGroupVecSz, v⟩, xs)

def makeMatrixFromFlatVec (space : List Nat) (inputVec : List F) : Except Fault (Matrix F) :=
  match space with
  | [s0, s1, s2, s3] => do
    checkShape [s0, s1, s2, s3]
    let (v, _) ← readVector (readBeing s1) s0 inputVec
    .ok ⟨s0, v⟩
  | _ => .error (.invalidArgument "bad shape, incompatible dimension size")

def ProcessGroup.flat (g : ProcessGroup F) : List F :=
  g.processVec.toList.flatMap fun u => u.logitVec.toList

def BeingUnit.flat (b : BeingUnit F) : List F := b.processGroupVec.toList.flatMap ProcessGroup.flat

def flatten (m : Matrix F) : List F := m.beingVec.toList.flatMap BeingUnit.flat

/-! ## The encoder -/

section
variable [Zero F] [One F]

def binarize (enumerationIdx enumerationSz : Nat) : Except Fault (List F) :=
  if enumerationIdx ≥ enumerationSz then
    .error (.invalidArgument "bad enumeration, out of bound access")
  else .ok ((List.replicate enumerationSz 0).set enumerationIdx 1)

def floatVectorMaxSize : Nat := 2 ^ 61 - 1

structure FixedMatrixShaper where
  beingProcessGroupVecSz : Nat
  beingVecSz : Nat

def FixedMatrixShaper.expectedFlatSz (m : FixedMatrixShaper) : Nat :=
  sizeT (m.beingVecSz * m.beingProcessGroupVecSz * processGroupProcessUnitDimensionSz *
    processUnitLogitVecDimensionSz)

def FixedMatrixShaper.toMatrix (m : FixedMatrixShaper) (flatVec : List F) :
    Except Fault (Matrix F) :=
  if flatVec.length > m.expectedFlatSz then
    .error (.invalidArgument "overflow matrix conversion, logit size exceeded")
  else if m.expectedFlatSz > floatVectorMaxSize then .error (.lengthError "vector")
  else
    makeMatrixFromFlatVec [m.beingVecSz, m.beingProcessGroupVecSz,
        processGroupProcessUnitDimensionSz, processUnitLogitVecDimensionSz]
      (flatVec ++ List.replicate (m.expectedFlatSz - flatVec.length) 0)

/-- `size_t{1} << vocab_bit_width`. -/
def enumerationSz (vocabBitWidth : Nat) : Nat := sizeT (1 <<< vocabBitWidth)

def safeNonZeroAccess (sz : Nat) : Except Fault Nat :=
  if sz = 0 then .error (.invalidArgument "zero guard") else .ok sz

/-- The loop of `encode`. Every round but the last reads at least one bit, which bounds it. -/
def encodeLoop (vocabBitWidth : Nat) :
    Nat → BitStreamReader → List F → Except Fault (List F)
  | 0, _, _ => .error .outOfFuel
  | fuel + 1, r, flatTensorVec => do
    let (enumerationIdx, r) ← r.readUint64 vocabBitWidth
    match enumerationIdx with
    | none => .ok flatTensorVec
    | some idx =>
      let wordTensorVec ← binarize idx.toNat (enumerationSz vocabBitWidth)
      encodeLoop vocabBitWidth fuel r (flatTensorVec ++ wordTensorVec)

/-- `HolePunchEncoder(vocab_bit_width, being_process_group_vec_sz, being_vec_sz).encode(data)`. -/
def encode (vocabBitWidth : Nat) (m : FixedMatrixShaper) (data : List Byte) :
    Except Fault (Matrix F) := do
  let vocabBitWidth ← safeNonZeroAccess vocabBitWidth
  let flatTensorVec ← encodeLoop vocabBitWidth (data.length * charBit + 1) ⟨data, 0⟩ []
  m.toMatrix flatTensorVec

end

/-! ## The decoder -/

variable [LT F] [DecidableLT F]

/-- The rest of `std::max_element`: `best` is the place of the greatest element `m` so far. -/
def maxElementFrom : List F → (i best : Nat) → (m : F) → Nat
  | [], _, best, _ => best
  | y :: ys, i, best, m =>
    if m < y then maxElementFrom ys (i + 1) i y else maxElementFrom ys (i + 1) best m

def maxElement : List F → Nat
  | [] => 0
  | x :: xs => maxElementFrom xs 1 0 x

def decodeEnumeration (vocabBitWidth : Nat) (matrix : Option (Matrix F)) :
    Except Fault (List Nat) :=
  match matrix with
  | none => .error (.invalidArgument "bad matrix, null matrix")
  | some matrix =>
    let flat := flatten matrix
    let enumSz := enumerationSz vocabBitWidth
    let iterationSz := flat.length / enumSz + (decide (flat.length % enumSz ≠ 0)).toNat
    .ok ((List.range iterationSz).map fun i =>
      let first := i * enumSz
      let last := min (sizeT ((i + 1) * enumSz)) flat.length
      maxElement ((flat.drop first).take (last - first)))

def decodeStringLoop (vocabBitWidth : Nat) : List Nat → BitStream → Except Fault BitStream
  | [], s => .ok s
  | enumeration :: es, s =>
    if enumeration ≥ enumerationSz vocabBitWidth then
      .error (.invalidArgument "bad enumeration, max numerical value reached")
    else
      decodeStringLoop vocabBitWidth es (s.writeUint64 (BitVec.ofNat 64 enumeration) vocabBitWidth)

/-- `HolePunchMaxDecoder(vocab_bit_width).decode(matrix)`. -/
def decode (vocabBitWidth : Nat) (matrix : Option (Matrix F)) : Except Fault (List Byte) := do
  let vocabBitWidth ← safeNonZeroAccess vocabBitWidth
  let es ← decodeEnumeration vocabBitWidth matrix
  let s ← decodeStringLoop vocabBitWidth es .empty
  .ok s.get

end MatrixCodec
