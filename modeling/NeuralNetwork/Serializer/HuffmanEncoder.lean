import NeuralNetwork.Lib.ByteBits
import NeuralNetwork.Lib.CodeTree
import NeuralNetwork.Lib.Loop
import NeuralNetwork.Lib.StdHeap
import NeuralNetwork.Serializer.CompactSerializer

/-!
# The Huffman encoder

`serializer/huffman_encoder.h`. A node has both children or none, so the trees are `CodeTree`s; what
a pointer into a tree points to is given by the path to it. A buffer that is read is a byte list,
and reading past its end is a fault; a buffer that is written is the bytes written so far. Bit
positions do not wrap.
-/

namespace HuffmanEncoder

open Cpp LittleEndian Loop

abbrev Res := Except Fault

/-! ## Constants and types -/

def alphabetSize : Nat := 1
def alphabetBitSize : Nat := alphabetSize * 8
def dictSize : Nat := 2 ^ alphabetBitSize
def maxEncodingSzPerByte : Nat := 6
def maxEncodingOverhead : Nat := 32
def maxDecodingSzPerByte : Nat := alphabetSize * 8
def L : Bool := false
def R : Bool := true

/-- `word_type`, of `ALPHABET_SIZE` bytes. -/
abbrev Word := Byte

/-- `model::Node`. The word of an inner node is never read. -/
abbrev Node := CodeTree Word

/-- The `c` and the `delim_stat` of a `model::DelimNode`. -/
structure DelimWord where
  c : Word
  delimStat : Byte
deriving DecidableEq, Repr

abbrev DelimNode := CodeTree DelimWord

/-! ## utility, byte_array -/

/-- `n` rounds of `to_bit_deque`. -/
def bitDeque : Nat → Byte → List Bool
  | 0, _ => []
  | n + 1, val => (val &&& 1 != 0) :: bitDeque n (val >>> 1)

def toBitDeque (val : Byte) : List Bool := bitDeque 8 val

namespace ByteArray

def slot (idx : Nat) : Nat := idx / 8

def offs (idx : Nat) : Nat := idx % 8

def byteSize (bitSz : Nat) : Nat := if bitSz = 0 then 0 else slot (bitSz - 1) + 1

def trueToggle (offs : Nat) : Byte := 1#8 <<< offs

def read (op : List Byte) (idx : Nat) : Res Bool :=
  match op[slot idx]? with
  | some b => .ok (b &&& trueToggle (offs idx) != 0)
  | none => .error .outOfBounds

def readByte (op : List Byte) (idx : Nat) : Res Byte :=
  forLoop (fun i rs => do
    let bit ← read op (idx + (8 - i - 1))
    pure (rs <<< 1 ||| if bit then 1#8 else 0#8)) 8 0

end ByteArray

/-! ## bit_array, bit_stream -/

/-- `bit_array_type`: a `bit_container_type` and a size. -/
structure BitArray where
  container : BitVec 64
  size : Nat
deriving DecidableEq, Repr

namespace BitArray

def arrayCap : Nat := 64

/-- The value of a shift by `amount`, which is undefined for the width of the container or more. -/
def shifted (amount : Nat) (v : BitVec 64) : Res (BitVec 64) :=
  if amount < arrayCap then .ok v else .error .undefined

def append (lhs rhs : BitArray) : Res BitArray := do
  let moved ← shifted lhs.size (rhs.container <<< lhs.size)
  pure ⟨lhs.container ||| moved, lhs.size + rhs.size⟩

def split (inp : BitArray) (lhsSz : Nat) : Res (BitArray × BitArray) := do
  let rhsSz := inp.size - lhsSz
  let rhs ← shifted lhsSz (inp.container >>> lhsSz)
  let back ← shifted lhsSz (rhs <<< lhsSz)
  pure (⟨back ^^^ inp.container, lhsSz⟩, ⟨rhs, rhsSz⟩)

/-- `to_bit_array` of a `char`, which is signed. -/
def ofChar (c : Byte) : BitArray := ⟨c.signExtend 64, 8⟩

def ofBool (c : Bool) : BitArray := ⟨if c then 1#64 else 0#64, 1⟩

def toBitArray (vec : List Bool) : Res BitArray := do
  if ¬ vec.length ≤ arrayCap then throw .abort
  vec.foldlM (fun rs c => append rs (ofBool c)) ⟨0, 0⟩

end BitArray

namespace BitStream

/-- `dst` holds what is written so far. -/
def streamTo (dst : List Byte) (src streamBuf : BitArray) : Res (List Byte × BitArray) :=
  if streamBuf.size + src.size < BitArray.arrayCap then do
    let streamBuf ← streamBuf.append src
    pure (dst, streamBuf)
  else do
    let (l, r) ← src.split (BitArray.arrayCap - streamBuf.size)
    let streamBuf ← streamBuf.append l
    pure (dst ++ dump 8 streamBuf.container, r)

/-- The `n` low bytes of a container, and what is left of it. -/
def exhaustBytes : Nat → BitVec 64 → List Byte × BitVec 64
  | 0, v => ([], v)
  | n + 1, v =>
    let (bs, last) := exhaustBytes n (v >>> 8)
    ((v &&& 255).setWidth 8 :: bs, last)

def exhaustTo (dst : List Byte) (streamBuf : BitArray) : List Byte × BitArray :=
  let bsz := ByteArray.byteSize streamBuf.size
  if bsz = 8 then (dst ++ dump 8 streamBuf.container, ⟨streamBuf.container, 0⟩)
  else
    let (bs, last) := exhaustBytes bsz streamBuf.container
    (dst ++ bs, ⟨last, 0⟩)

def read (op : List Byte) (idx sz : Nat) : Res (BitVec 64) :=
  if ByteArray.slot idx + 8 ≤ op.length then
    let cursor := load 8 ((op.drop (ByteArray.slot idx)).take 8)
    .ok (cursor >>> ByteArray.offs idx &&& (1#64 <<< sz - 1))
  else .error .outOfBounds

def readPaddRequirement : Nat := 64

end BitStream

/-! ## make -/

inductive CounterNode where
  | leaf (count : Nat) (c : Word)
  | node (count : Nat) (l r : CounterNode)
deriving DecidableEq, Repr

def CounterNode.count : CounterNode → Nat
  | .leaf count _ => count
  | .node count _ _ => count

/-- The `std` heap of `build`. -/
abbrev Heap := StdHeap CounterNode.count

namespace Make

def count (buf : List Byte) : List Nat :=
  let cycles := buf.length / alphabetSize
  (buf.take cycles).foldl
    (fun counter numRep => counter.set numRep.toNat (sizeT (counter.getD numRep.toNat 0 + 1)))
    (List.replicate dictSize 0)

def clamp (counter : List Nat) : Res (List Nat) := do
  if counter.length ≠ dictSize then throw .abort
  if counter.any (· != 0) then return counter
  return counter.set 0 1

/-- The leaf of a byte, if it is counted. -/
def leafOf (counter : List Nat) (i : Nat) : Option CounterNode :=
  if counter.getD i 0 = 0 then none else some (.leaf (counter.getD i 0) (BitVec.ofNat 8 i))

def leaves (counter : List Nat) : List CounterNode :=
  (List.range dictSize).filterMap (leafOf counter)

/-- The `while` of `build`, of at most `n` rounds. -/
def merge (std : Heap) : Nat → List CounterNode → Res CounterNode
  | _, [root] => .ok root
  | 0, _ => .error .outOfFuel
  | n + 1, heap =>
    let heap := std.popHeap heap
    match heap.getLast? with
    | none => .error .undefined
    | some first =>
      let heap := std.popHeap heap.dropLast
      match heap.getLast? with
      | none => .error .undefined
      | some second =>
        let cnode := CounterNode.node (sizeT (first.count + second.count)) first second
        merge std n (std.pushHeap (heap.dropLast ++ [cnode]))

def build (std : Heap) (counter : List Nat) : Res CounterNode := do
  if counter.length ≠ dictSize then throw .abort
  let heap := std.makeHeap (leaves counter)
  merge std heap.length heap

def toModel : CounterNode → Node
  | .leaf _ c => .leaf c
  | .node _ l r => .node (toModel l) (toModel r)

def toDelimModel (root : Node) : DelimNode := root.map fun c => ⟨c, 0⟩

/-- A `std::vector<bool>` that is used as a stack. A `pop_back` of an empty one, which only moves
its end, is kept in `underflow`. -/
structure Trace where
  bits : List Bool
  underflow : Bool
deriving DecidableEq, Repr

def Trace.pushBack (trace : Trace) (b : Bool) : Trace := { trace with bits := trace.bits ++ [b] }

def Trace.popBack (trace : Trace) : Trace :=
  ⟨trace.bits.dropLast, trace.underflow || trace.bits.isEmpty⟩

/-- The recursion of `encode_dictionarize` and of `find_delim`. A leaf's trace goes to the slot
`slot w` of `op`, if it has one. -/
def traverse (slot : DelimWord → Option Nat) :
    DelimNode → List (List Bool) → Trace → List (List Bool) × Trace
  | .leaf w, op, trace =>
    (match slot w with
      | some i => op.set i trace.bits
      | none => op, trace.popBack)
  | .node l r, op, trace =>
    let (op, trace) := traverse slot l op (trace.pushBack L)
    let (op, trace) := traverse slot r op (trace.pushBack R)
    (op, trace.popBack)

/-- A leaf with a word is recorded under its word. -/
def wordSlot (w : DelimWord) : Option Nat := if w.delimStat = 0 then some w.c.toNat else none

/-- A leaf with a delimiter is recorded under its number. -/
def delimSlot (w : DelimWord) : Option Nat :=
  if w.delimStat ≠ 0 then some (w.delimStat.toNat - 1) else none

def encodeDictionarize (root : DelimNode) : List (List Bool) :=
  (traverse wordSlot root (List.replicate dictSize []) ⟨[], false⟩).1

/-- `cursor->l` or `cursor->r`; a leaf has none. -/
def child (cursor : DelimNode) (tape : Bool) : Res DelimNode :=
  match cursor with
  | .leaf _ => .error .undefined
  | .node l r => .ok (if tape = L then l else r)

/-- The `while` of `walk`, from `cursor` on; `initSz` is the size of the trace that the call began
with. -/
def walkFrom (root : DelimNode) (initSz : Nat) : DelimNode → List Bool → Res (List Byte × Nat)
  | _, [] => .ok ([], initSz)
  | cursor, cur :: trace => do
    let cursor ← child cursor cur
    match cursor with
    | .leaf w =>
      if w.delimStat ≠ 0 then return ([], initSz)
      let (byteRep, trailing) ← walkFrom root trace.length root trace
      if trailing = trace.length then return ([w.c], trace.length)
      return ([w.c] ++ byteRep, trailing)
    | .node l r => walkFrom root initSz (.node l r) trace

def walk (root : DelimNode) (trace : List Bool) : Res (List Byte × Nat) :=
  walkFrom root trace.length root trace

def decodeDictionarize (root : DelimNode) : Res (List (List Byte × Nat)) :=
  (List.range dictSize).mapM fun i => walk root (toBitDeque (BitVec.ofNat 8 i))

/-- The path to the leaf, and its depth. -/
def findMaxPathToLeaf : DelimNode → Nat → List Bool × Nat
  | .leaf _, depth => ([], depth)
  | .node l r, depth =>
    let (lLeaf, lDepth) := findMaxPathToLeaf l (depth + 1)
    let (rLeaf, rDepth) := findMaxPathToLeaf r (depth + 1)
    if lDepth > rDepth then (L :: lLeaf, lDepth) else (R :: rLeaf, rDepth)

/-- What becomes of the leaf that `to_delim_tree` finds in its round `i`. -/
def splitLeaf (i : Nat) (leaf : DelimWord) : DelimNode :=
  .node (.leaf ⟨leaf.c, leaf.delimStat⟩) (.leaf ⟨0, BitVec.ofNat 8 (i + 1)⟩)

def toDelimTree (huffmanTree : Node) : DelimNode :=
  (List.range alphabetSize).foldl (fun delimModel i =>
    let (path, _) := findMaxPathToLeaf delimModel 0
    match delimModel.follow path with
    | some (.leaf w) => CodeTree.graft (splitLeaf i w) delimModel path
    | _ => delimModel) (toDelimModel huffmanTree)

def findDelim (root : DelimNode) : List (List Bool) :=
  (traverse delimSlot root (List.replicate alphabetSize []) ⟨[], false⟩).1

end Make

/-! ## core -/

structure FastEngine where
  encodingDict : List BitArray
  delim : List BitArray
  delimTree : DelimNode
  decodingDict : List (List Byte × Nat)
deriving DecidableEq, Repr

/-- The variables of the loops of `decode_into`, which has no `bad_bit`, and `fast_decode_into`. The
cursor is the root if it is equal to it, as no tree is equal to a part of itself. -/
structure Decoding where
  bitOffs : Nat
  cursor : DelimNode
  badBit : Bool
  opBuf : List Byte

namespace FastEngine

variable (self : FastEngine)

/-- `encoding_dict[num_rep]`. -/
def bitRep (numRep : Byte) : BitArray := self.encodingDict.getD numRep.toNat ⟨0, 0⟩

def noexhaustEncodeInto (inp opBuf : List Byte) (rdbuf : BitArray) : Res (List Byte × BitArray) := do
  let cycles := inp.length / alphabetSize
  let rem := inp.length - cycles * alphabetSize
  let (opBuf, rdbuf) ← (inp.take cycles).foldlM
    (fun (opBuf, rdbuf) numRep => BitStream.streamTo opBuf (self.bitRep numRep) rdbuf) (opBuf, rdbuf)
  let (opBuf, rdbuf) ← BitStream.streamTo opBuf (self.delim.getD rem ⟨0, 0⟩) rdbuf
  ((inp.drop cycles).take rem).foldlM
    (fun (opBuf, rdbuf) c => BitStream.streamTo opBuf (BitArray.ofChar c) rdbuf) (opBuf, rdbuf)

def encodeInto (inp opBuf : List Byte) (rdbuf : BitArray) : Res (List Byte × BitArray) := do
  let (opBuf, rdbuf) ← self.noexhaustEncodeInto inp opBuf rdbuf
  pure (BitStream.exhaustTo opBuf rdbuf)

/-- What both decoders do with the next bit. -/
def walkBit (inpBuf : List Byte) (s : Decoding) : Res (ForInStep Decoding) := do
  let tape ← ByteArray.read inpBuf s.bitOffs
  let bitOffs := s.bitOffs + 1
  let cursor ← Make.child s.cursor tape
  match cursor with
  | .node l r => return .yield ⟨bitOffs, .node l r, false, s.opBuf⟩
  | .leaf w =>
    if w.delimStat ≠ 0 then
      let trailingSz := w.delimStat.toNat - 1
      let (bitOffs, opBuf) ← forLoop (fun _ ((bitOffs : Nat), (opBuf : List Byte)) => do
        let b ← ByteArray.readByte inpBuf bitOffs
        pure (bitOffs + 8, opBuf ++ [b])) trailingSz (bitOffs, s.opBuf)
      return .done ⟨bitOffs, .leaf w, false, opBuf⟩
    return .yield ⟨bitOffs, self.delimTree, false, s.opBuf ++ [w.c]⟩

/-- `decode_into`: the end bit and the output. Every round reads a bit of the buffer. -/
def decodeInto (inpBuf : List Byte) (bitOffs : Nat) : Res (Nat × List Byte) := do
  let s ← whileLoop .outOfFuel (self.walkBit inpBuf) (8 * inpBuf.length + 1)
    ⟨bitOffs, self.delimTree, false, []⟩
  pure (s.bitOffs, s.opBuf)

def fastStep (inpBuf : List Byte) (bitLast : Nat) (s : Decoding) : Res (ForInStep Decoding) :=
  if s.bitOffs + BitStream.readPaddRequirement < bitLast ∧ s.cursor = self.delimTree ∧
      s.badBit = false then do
    let tape ← BitStream.read inpBuf s.bitOffs alphabetBitSize
    let mappedBytes := self.decodingDict.getD tape.toNat ([], 0)
    pure (.yield ⟨s.bitOffs + (alphabetBitSize - mappedBytes.2), s.cursor,
      mappedBytes.2 = alphabetBitSize, s.opBuf ++ mappedBytes.1⟩)
  else self.walkBit inpBuf s

/-- `fast_decode_into`. Of two rounds at least one advances in the buffer. -/
def fastDecodeInto (inpBuf : List Byte) (bitOffs bitLast : Nat) : Res (Nat × List Byte) := do
  let s ← whileLoop .outOfFuel (self.fastStep inpBuf bitLast) (2 * (8 * inpBuf.length + 1))
    ⟨bitOffs, self.delimTree, false, []⟩
  pure (s.bitOffs, s.opBuf)

end FastEngine

/-- The encoders of a `RowEncodingEngine`. -/
structure RowEncodingEngine where
  encoders : List FastEngine

namespace RowEncodingEngine

variable (self : RowEncodingEngine)

def encodeInto (data : List (List Byte)) (buf : List Byte) : Res (List Byte) := do
  if data.length ≠ self.encoders.length then throw .abort
  let (buf, rdbuf) ← (self.encoders.zip data).foldlM
    (fun (buf, rdbuf) (encoder, column) => encoder.noexhaustEncodeInto column buf rdbuf)
    (buf, ⟨0, 0⟩)
  pure (BitStream.exhaustTo buf rdbuf).1

/-- Where the row ends, and the columns that are written to the `dataSize` outputs. -/
def decodeInto (buf : List Byte) (dataSize : Nat) : Res (Nat × List (List Byte)) := do
  if dataSize ≠ self.encoders.length then throw .abort
  let (bufBitOffs, data) ← self.encoders.foldlM
    (fun (bufBitOffs, data) encoder => do
      let (last, column) ← encoder.decodeInto buf bufBitOffs
      pure (last, data ++ [column])) ((0, []) : Nat × List (List Byte))
  pure (ByteArray.byteSize bufBitOffs, data)

end RowEncodingEngine

/-! ## serialization -/

structure SerializableModel where
  header : List Bool
  cVec : List Word
deriving DecidableEq, Repr

namespace Serialization

open Serializer CompactSerializer

def toSerializableModelInto : Node → SerializableModel → SerializableModel
  | .leaf c, op => ⟨op.header ++ [false], op.cVec ++ [c]⟩
  | .node l r, op =>
    toSerializableModelInto r (toSerializableModelInto l ⟨op.header ++ [true], op.cVec⟩)

def toSerializableModel (root : Node) : SerializableModel := toSerializableModelInto root ⟨[], []⟩

/-- `to_model_helper`, of a depth of less than `fuel`; every call reads a bit of the header. -/
def toModelFrom (model : SerializableModel) :
    (fuel bitCursor wordCursor : Nat) → HuffmanEncoder.Res (Node × Nat × Nat)
  | 0, _, _ => .error .outOfFuel
  | fuel + 1, bitCursor, wordCursor =>
    match model.header[bitCursor]? with
    | none => .error .outOfBounds
    | some false =>
      match model.cVec[wordCursor]? with
      | none => .error .outOfBounds
      | some word => .ok (.leaf word, bitCursor + 1, wordCursor + 1)
    | some true => do
      let (l, bitCursor, wordCursor) ← toModelFrom model fuel (bitCursor + 1) wordCursor
      let (r, bitCursor, wordCursor) ← toModelFrom model fuel bitCursor wordCursor
      pure (.node l r, bitCursor, wordCursor)

def toModel (model : SerializableModel) : HuffmanEncoder.Res Node := do
  let (root, _, _) ← toModelFrom model (model.header.length + 1) 0 0
  pure root

def wordBitSize : Nat := 32

/-- The header's bits of one `uint32_t`. -/
def packWord (header : List Bool) (slot : Nat) : BitVec 32 :=
  (List.range wordBitSize).foldl (fun word offs =>
    word ||| (if header.getD (slot * wordBitSize + offs) false then 1#32 else 0#32) <<< offs) 0

def unpackWord (word : BitVec 32) : List Bool :=
  (List.range wordBitSize).map fun offs => (1#32 <<< offs &&& word) != 0

def uint32 : IntType := ⟨.b4, false, true⟩

/-- `std::tuple<std::vector<uint32_t>, std::vector<char>, std::vector<word_type>>`. -/
abbrev modelTy : Ty :=
  .tuple (.cons (.cpyable .vector uint32) (.cons (.cpyable .vector .char)
    (.cons (.noncpyable .vector (.array (.int .char) alphabetSize)) .nil)))

/-- The tuple that `serialize_model` writes. -/
def toSerializable (model : SerializableModel) : Val modelTy :=
  let bitarrSz := model.header.length / wordBitSize
  let bitarr : List (BitVec 32) := (List.range bitarrSz).map (packWord model.header)
  let rem : List Byte := (model.header.drop (bitarrSz * wordBitSize)).map fun c => if c then 1 else 0
  (bitarr, rem, model.cVec.map fun c => (c, ()), ())

/-- `std::bit_cast<bool>`, of a byte that is no `bool` undefined. -/
def bitCastBool (c : Byte) : HuffmanEncoder.Res Bool :=
  if c = 0 then .ok false else if c = 1 then .ok true else .error .undefined

/-- The model that `deserialize_model` makes of the tuple. -/
def ofSerializable (serializable : Val modelTy) : HuffmanEncoder.Res SerializableModel := do
  let bitArr : List (BitVec 32) := serializable.1
  let rem ← (serializable.2.1 : List Byte).mapM bitCastBool
  let cVec : List (Byte × Unit) := serializable.2.2.1
  pure ⟨bitArr.flatMap unpackWord ++ rem, cVec.map Prod.fst⟩

variable (env : Env)

def serialize (root : Node) : CompactSerializer.Res (List Byte) :=
  integritySerialize env modelTy (toSerializable (toSerializableModel root)) 0

def deserialize (bstream : List Byte) : CompactSerializer.Res Node := do
  let serializable ← integrityDeserialize env modelTy bstream 0
  (ofSerializable serializable >>= toModel).mapError .fault

end Serialization

/-! ## The entry points -/

def build (std : Heap) (counter : List Nat) : Res Node := do
  let counter ← Make.clamp counter
  let counterNode ← Make.build std counter
  pure (Make.toModel counterNode)

def spawnFastEngine (huffmanTree : Node) : Res FastEngine := do
  let decodingTree := Make.toDelimTree huffmanTree
  let decodingDict ← Make.decodeDictionarize decodingTree
  let transformedEd ← (Make.encodeDictionarize decodingTree).mapM BitArray.toBitArray
  let transformedDl ← (Make.findDelim decodingTree).mapM BitArray.toBitArray
  pure ⟨transformedEd, transformedDl, decodingTree, decodingDict⟩

/-- The bytes that `encode_into` writes. -/
def encodeInto (src : List Byte) (huffmanTree : Node) : Res (List Byte) := do
  let engine ← spawnFastEngine huffmanTree
  let (dst, _) ← engine.encodeInto src [] ⟨0, 0⟩
  pure dst

/-- The bytes that `decode_into` writes. -/
def decodeInto (src : List Byte) (huffmanTree : Node) : Res (List Byte) := do
  let engine ← spawnFastEngine huffmanTree
  let (_, dst) ← engine.fastDecodeInto src 0 (src.length * 8)
  pure dst

section Strings

open Serializer CompactSerializer

/-- `std::pair<std::basic_string<char>, std::string>`. -/
abbrev messageTy : Ty := .pair (.cpyable .basicString .char) (.cpyable .basicString .char)

variable (std : Heap) (env : Env)

/-- A string of `sz` blanks whose front is overwritten, cut to what was written. -/
def fillString (sz : Nat) (bytes : HuffmanEncoder.Res (List Byte)) :
    CompactSerializer.Res (List Byte) := do
  grow env sz
  let bytes ← bytes.mapError .fault
  let msg ← writeInto (List.replicate sz 32) bytes
  pure (msg.take bytes.length)

def encode (inp : List Byte) : CompactSerializer.Res (List Byte) := do
  let model ← (build std (Make.count inp)).mapError .fault
  let modelStream ← Serialization.serialize env model
  let rsSz := sizeT (inp.length * maxEncodingSzPerByte + maxEncodingOverhead)
  let msg ← fillString env rsSz (HuffmanEncoder.encodeInto inp model)
  integritySerialize env messageTy (msg, modelStream, ()) 0

def decode (inp : List Byte) : CompactSerializer.Res (List Byte) := do
  let serializable ← integrityDeserialize env messageTy inp 0
  let msg : List Byte := serializable.1
  let modelStream : List Byte := serializable.2.1
  let model ← Serialization.deserialize env modelStream
  fillString env (sizeT (msg.length * maxDecodingSzPerByte)) (HuffmanEncoder.decodeInto msg model)

end Strings

end HuffmanEncoder
