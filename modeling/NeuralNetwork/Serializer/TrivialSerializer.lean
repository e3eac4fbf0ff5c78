import NeuralNetwork.Lib.LittleEndian
import NeuralNetwork.Serializer.Types

/-!
# The trivial serializer

The archives of `internal_rest/network_trivial_serializer.h`, of which
`serializer/trivial_serializer.h` is a copy: an encoding of fixed width, in which an optional and a
variant take the room of their largest value. A pointer is the list of the bytes from it to the end
of its object.
-/

namespace TrivialSerializer

open Cpp LittleEndian Serializer

/-! ## IsSerializable -/

-- the types for which the archives compile: those of `is_serializable`, with no variant of more
-- alternatives than a `uint8_t` counts
mutual
def isSerializable : Ty → Bool
  | .int _ => true
  | .float _ => true
  | .bool => true
  | .optional t => isSerializable t
  | .tuple ts => areSerializable ts
  | .reflectible ts => areSerializable ts
  | .variant ts => 0 < ts.length && ts.length ≤ 256 && areSerializable ts
  | _ => false
def areSerializable : Tys → Bool
  | .nil => true
  | .cons t ts => isSerializable t && areSerializable ts
end

/-! ## Counter -/

mutual
def count : (t : Ty) → Val t → Nat
  | .int i, _ => i.size.bytes
  | .float size, _ => size.bytes
  | .bool, _ => 1
  | .optional t, _ => 1 + count t (init t)
  | .tuple ts, vs => counts ts vs
  | .reflectible ts, vs => counts ts vs
  | .variant ts, _ => 1 + maxMany ts
  | _, _ => 0
def counts : (ts : Tys) → Vals ts → Nat
  | .nil, _ => 0
  | .cons t ts, (v, vs) => count t v + counts ts vs
/-- `max_many` over the alternatives. -/
def maxMany : Tys → Nat
  | .nil => 0
  | .cons t ts => max (count t (init t)) (maxMany ts)
end

/-! ## Forward -/

/-- What a write leaves: the bytes it passed over, as they are now, and those behind them. -/
abbrev Written := List Byte × List Byte

def writeBytes (bs mem : List Byte) : Except Fault Written :=
  if bs.length ≤ mem.length then .ok (bs, mem.drop bs.length) else .error .outOfBounds

/-- `buf += n` behind the bytes `bs`, which leaves the bytes between them and there as they were. -/
def advance (n : Nat) (bs mem : List Byte) : Except Fault Written :=
  if n ≤ mem.length then .ok (bs ++ (mem.take n).drop bs.length, mem.drop n)
  else .error .outOfBounds

def boolByte (b : Bool) : Byte := if b then 1 else 0

mutual
def Forward.put : (t : Ty) → Val t → List Byte → Except Fault Written
  | .int i, v, mem => writeBytes (dump i.size.bytes v) mem
  | .float size, v, mem => writeBytes (dump size.bytes v) mem
  | .bool, b, mem => writeBytes [boolByte b] mem
  | .optional t, none, mem => do
    let (status, _) ← writeBytes [boolByte false] mem
    advance (1 + count t (init t)) status mem
  | .optional t, some v, mem => do
    let (status, tmp) ← writeBytes [boolByte true] mem
    let (bs, _) ← Forward.put t v tmp
    advance (1 + count t (init t)) (status ++ bs) mem
  | .tuple ts, vs, mem => Forward.puts ts vs mem
  | .reflectible ts, vs, mem => Forward.puts ts vs mem
  -- `std::visit` throws out of a `noexcept` function
  | .variant _, none, _ => .error .abort
  | .variant ts, some a, mem => do
    let (index, tmp) ← writeBytes [BitVec.ofNat 8 a.index] mem
    let (bs, _) ← Forward.putAlt ts a tmp
    advance (1 + maxMany ts) (index ++ bs) mem
  | _, _, _ => .error .undefined
def Forward.puts : (ts : Tys) → Vals ts → List Byte → Except Fault Written
  | .nil, _, mem => .ok ([], mem)
  | .cons t ts, (v, vs), mem => do
    let (bs, mem) ← Forward.put t v mem
    let (cs, mem) ← Forward.puts ts vs mem
    pure (bs ++ cs, mem)
def Forward.putAlt : (ts : Tys) → Alts ts → List Byte → Except Fault Written
  | .cons t _, .inl v, mem => Forward.put t v mem
  | .cons _ ts, .inr a, mem => Forward.putAlt ts a mem
end

/-! ## Backward -/

def readBytes (n : Nat) (mem : List Byte) : Except Fault (List Byte × List Byte) :=
  if n ≤ mem.length then .ok (mem.take n, mem.drop n) else .error .outOfBounds

/-- `load<bool>`: a byte other than zero and one is no `bool`. -/
def getBool (mem : List Byte) : Except Fault (Bool × List Byte) := do
  let (bs, mem) ← readBytes 1 mem
  if bs = [0] then pure (false, mem)
  else if bs = [1] then pure (true, mem)
  else .error .undefined

mutual
def Backward.put : (t : Ty) → Val t → List Byte → Except Fault (Val t × List Byte)
  | .int i, _, mem => do
    let (bs, mem) ← readBytes i.size.bytes mem
    pure (load i.size.bytes bs, mem)
  | .float size, _, mem => do
    let (bs, mem) ← readBytes size.bytes mem
    pure (load size.bytes bs, mem)
  | .bool, _, mem => getBool mem
  | .optional t, _, mem => do
    let (status, tmp) ← getBool mem
    let v ← if status then do
        let (v, _) ← Backward.put t (init t) tmp
        pure (some v)
      else pure none
    let (_, rest) ← readBytes (1 + count t (init t)) mem
    pure (v, rest)
  | .tuple ts, data, mem => Backward.puts ts data mem
  | .reflectible ts, data, mem => Backward.puts ts data mem
  | .variant ts, data, mem => do
    let (bs, tmp) ← readBytes 1 mem
    -- `std::clamp(variant_idx, 0, VARIANT_COUNT - 1)`
    let variantIdx := min (value bs) (ts.length - 1)
    let a ← Backward.putAlt ts variantIdx tmp
    let (_, rest) ← readBytes (1 + maxMany ts) mem
    pure (a.orElse fun _ => data, rest)
  | _, _, _ => .error .undefined
def Backward.puts : (ts : Tys) → Vals ts → List Byte → Except Fault (Vals ts × List Byte)
  | .nil, _, mem => .ok ((), mem)
  | .cons t ts, (v, vs), mem => do
    let (v, mem) ← Backward.put t v mem
    let (vs, mem) ← Backward.puts ts vs mem
    pure ((v, vs), mem)
def Backward.putAlt : (ts : Tys) → Nat → List Byte → Except Fault (Option (Alts ts))
  | .nil, _, _ => .ok none
  | .cons t _, 0, mem => do
    let (v, _) ← Backward.put t (init t) mem
    pure (some (.inl v))
  | .cons _ ts, n + 1, mem => do
    let a ← Backward.putAlt ts n mem
    pure (a.map .inr)
end

/-! ## Entry points -/

/-- `size`, of which the result does not depend on the object. -/
def size (t : Ty) : Nat := count t (init t)

def serializeInto (t : Ty) (obj : Val t) (buf : List Byte) : Except Fault (List Byte) := do
  let (bs, rest) ← Forward.put t obj buf
  pure (bs ++ rest)

def deserializeInto (t : Ty) (obj : Val t) (buf : List Byte) : Except Fault (Val t) := do
  let (v, _) ← Backward.put t obj buf
  pure v

end TrivialSerializer
