import NeuralNetwork.Serializer.CompactSerializer
import NeuralNetwork.Serializer.TrivialSerializer
import NeuralNetwork.StlExtension.Stdx

/-!
# Flat buffers

`serializer/dg_buf.h`: a value is written behind a stream, which here is a `std::string`, as views of
fixed width: a container is the offset and the number of its elements, whose views the trivial
serializer writes side by side. An unordered container is written as a table of twice its size, probed
linearly. The pointer of a view, which `AutoSetter` sets in every view that is read, is the argument
`buf` of the functions that read.
-/

namespace DgBuf

open Cpp LittleEndian Serializer
open CompactSerializer (Res grow pushBack insertOrdered insertUnordered)

/-- What a program brings, and the hashers of its containers and `std::hash<std::string_view>`. -/
structure Env extends CompactSerializer.Env where
  hasher : Nat → (t : Ty) → Val t → Nat
  stringHash : List Byte → Nat

abbrev Stream := List Byte

/-! ## type_converter -/

abbrev vectorView : Ty := .reflectible (.cons (.int .uint64) (.cons (.int .uint64) .nil))

/-- It reflects its base, a `vector_view`. -/
abbrev strView : Ty := .reflectible (.cons vectorView .nil)

/-- `unordered_flat_map_view`, `unordered_flat_set_view`, `map_view` and `set_view`: the elements, and
their number. -/
abbrev sizedView : Ty := .reflectible (.cons vectorView (.cons (.int .uint64) .nil))

mutual
def convert : Ty → Ty
  | .unorderedMap _ _ _ => sizedView
  | .unorderedSet _ _ => sizedView
  | .map _ _ _ => sizedView
  | .set _ _ => sizedView
  | .cpyable .vector _ => vectorView
  | .noncpyable .vector _ => vectorView
  | .cpyable .basicString _ => strView
  | .tuple ts => .tuple (converts ts)
  | .optional t => .optional (convert t)
  | t => t
def converts : Tys → Tys
  | .nil => .nil
  | .cons t ts => .cons (convert t) (converts ts)
end

-- the types for which the overloads of `convert` compile, within `MAX_TEMPLATE_RECURSIVE_DEPTH`; a
-- tuple without fields is refused by the trivial serializer
mutual
def isConvertible : Ty → Bool
  | .int _ => true
  | .float _ => true
  | .bool => true
  | .optional t => isConvertible t
  | .tuple ts => 0 < ts.length && areConvertible ts
  | .cpyable .vector _ => true
  | .cpyable .basicString i => i = .char
  | .noncpyable .vector t => isConvertible t
  | .map _ k m => isConvertible k && isConvertible m
  | .set _ k => isConvertible k
  | .unorderedMap _ k m => isConvertible k && isConvertible m
  | .unorderedSet _ k => isConvertible k
  | _ => false
def areConvertible : Tys → Bool
  | .nil => true
  | .cons t ts => isConvertible t && areConvertible ts
end

/-! ## flattener -/

/-- The conversion of a `size_t` to `double`, to the nearest, of two to the even one. -/
def toDouble (n : Nat) : Nat :=
  let unit := 2 ^ (Nat.log2 n - 52)
  let q := n / unit
  let r := n % unit
  if unit < 2 * r ∨ unit = 2 * r ∧ q % 2 = 1 then unit * (q + 1) else unit * q

/-- `pow2_ceil(size * CAP_TO_SIZE_RATIO)`; `pow2_ceil` is `ceil2`. -/
def capacity (size : Nat) : Except Fault Nat :=
  if 2 * toDouble size < 2 ^ 64 then Stdx.ceil2 (2 * toDouble size) else .error .undefined

def bitwiseAndKeyToIdx (key cap : Nat) : Nat := key &&& subT cap 1

def maxSize : Nat := 2 ^ 63 - 1

variable (env : Env)

/-- Memory for `n` characters or elements. -/
def allocate (n : Nat) : Res Unit :=
  if n ≤ maxSize then grow env.toEnv n else .error (.fault (.lengthError "basic_string::_M_create"))

/-- The loop over the slots of one key. -/
def placeLoop {α : Type} (hashed : Nat) (kv : α) : Nat → Nat → List (Option α) → Res (List (Option α))
  | 0, _, _ => .error (.fault .abort)
  | n + 1, i, buckets =>
    let slot := bitwiseAndKeyToIdx (sizeT (hashed + i)) buckets.length
    match buckets[slot]? with
    | some none => pure (buckets.set slot (some kv))
    | some (some _) => placeLoop hashed kv n (i + 1) buckets
    | none => .error (.fault .outOfBounds)

/-- `flatten` of an unordered container, in the order of its iteration. -/
def flatten {α : Type} (hasher : α → Nat) (kvs : List α) : Res (List (Option α)) := do
  let cap ← (capacity kvs.length).mapError .fault
  allocate env cap
  kvs.foldlM (fun buckets kv => placeLoop (hasher kv) kv cap 0 buckets) (List.replicate cap none)

/-! ## serializer -/

def resizeStreamable (streamable : Stream) (expectedSz : Nat) : Res Stream := do
  if streamable.length < expectedSz then
    let nxtCapacity ← (Stdx.ceil2 streamable.length).mapError .fault
    allocate env nxtCapacity
  allocate env expectedSz
  pure (streamable.take expectedSz ++ List.replicate (expectedSz - streamable.length) 0)

/-- `serialize_into` from an offset of the stream on. -/
def writeAt (t : Ty) (obj : Val t) (streamable : Stream) (offset : Nat) : Res Stream := do
  let mem ← (TrivialSerializer.serializeInto t obj (streamable.drop offset)).mapError .fault
  pure (streamable.take offset ++ mem)

def copyAt (bs : List Byte) (streamable : Stream) (offset : Nat) : Res Stream :=
  if offset + bs.length ≤ streamable.length then
    pure (streamable.take offset ++ bs ++ streamable.drop (offset + bs.length))
  else .error (.fault .outOfBounds)

/-- The loop over the elements of a vector, from the `i`-th on. -/
def serializeLoop {α : Type} (t : Ty) (f : α → Stream → Res (Val t × Stream)) (offset : Nat) :
    Nat → List α → Stream → Res Stream
  | _, [], streamable => pure streamable
  | i, e :: es, streamable => do
    let (serialized, streamable) ← f e streamable
    let streamable ← writeAt t serialized streamable (offset + TrivialSerializer.size t * i)
    serializeLoop t f offset (i + 1) es streamable

/-- `serialize` of a vector whose elements are converted to `t`. -/
def serializeVector {α : Type} (t : Ty) (f : α → Stream → Res (Val t × Stream)) (obj : List α)
    (streamable : Stream) : Res (Val vectorView × Stream) := do
  let vaddr := streamable.length
  let totalSz := sizeT (TrivialSerializer.size t * obj.length)
  let streamable ← resizeStreamable env streamable (sizeT (vaddr + totalSz))
  let streamable ← serializeLoop t f vaddr 0 obj streamable
  pure ((BitVec.ofNat _ vaddr, BitVec.ofNat _ obj.length, ()), streamable)

/-- `serialize` of a string of the characters `bs`. -/
def serializeString (bs : List Byte) (streamable : Stream) : Res (Val strView × Stream) := do
  let vaddr := streamable.length
  let streamable ← resizeStreamable env streamable (sizeT (vaddr + bs.length))
  let streamable ← copyAt bs streamable vaddr
  pure (((BitVec.ofNat _ vaddr, BitVec.ofNat _ bs.length, ()), ()), streamable)

/-- A view of the elements of a container of `size` elements. -/
def serializeSized {α : Type} (t : Ty) (f : α → Stream → Res (Val t × Stream)) (flattened : List α)
    (size : Nat) (streamable : Stream) : Res (Val sizedView × Stream) := do
  let (serialized, streamable) ← serializeVector env t f flattened streamable
  pure ((serialized, BitVec.ofNat _ size, ()), streamable)

def serializeOption {α β : Type} (f : α → Stream → Res (β × Stream)) :
    Option α → Stream → Res (Option β × Stream)
  | none, streamable => pure (none, streamable)
  | some v, streamable => do
    let (serialized, streamable) ← f v streamable
    pure (some serialized, streamable)

/-- `serialize` of the entry of a map, a `std::pair`. -/
def serializePair {α β γ δ : Type} (f : α → Stream → Res (γ × Stream))
    (g : β → Stream → Res (δ × Stream)) (kv : α × β × Unit) (streamable : Stream) :
    Res ((γ × δ × Unit) × Stream) := do
  let (first, streamable) ← f kv.1 streamable
  let (second, streamable) ← g kv.2.1 streamable
  pure ((first, second, ()), streamable)

/-- `flatten` of an ordered container copies its elements. -/
def flattenOrdered {α : Type} (es : List α) : Res (List α) := do
  allocate env es.length
  pure es

mutual
def serialize : (t : Ty) → Val t → Stream → Res (Val (convert t) × Stream)
  | .int _, v, streamable => pure (v, streamable)
  | .float _, v, streamable => pure (v, streamable)
  | .bool, v, streamable => pure (v, streamable)
  | .optional t, v, streamable => serializeOption (serialize t) v streamable
  | .tuple ts, vs, streamable => serializes ts vs streamable
  | .cpyable .vector i, vs, streamable =>
    serializeVector env (.int i) (fun v streamable => pure (v, streamable)) vs streamable
  | .cpyable .basicString i, vs, streamable =>
    serializeString env (vs.flatMap (dump i.size.bytes)) streamable
  | .noncpyable .vector t, vs, streamable =>
    serializeVector env (convert t) (serialize t) vs streamable
  | .map _ k m, vs, streamable => do
    let flattened ← flattenOrdered env vs
    serializeSized env (.pair (convert k) (convert m)) (serializePair (serialize k) (serialize m))
      flattened vs.length streamable
  | .set _ k, vs, streamable => do
    let flattened ← flattenOrdered env vs
    serializeSized env (convert k) (serialize k) flattened vs.length streamable
  | .unorderedMap h k m, vs, streamable => do
    let flattened ← flatten env (fun kv => env.hasher h k kv.1) (env.iter (.pair k m) vs)
    serializeSized env (.optional (.pair (convert k) (convert m)))
      (serializeOption (serializePair (serialize k) (serialize m))) flattened (Multiset.card vs)
      streamable
  | .unorderedSet h k, vs, streamable => do
    let flattened ← flatten env (env.hasher h k) (env.iter k vs)
    serializeSized env (.optional (convert k)) (serializeOption (serialize k)) flattened
      (Multiset.card vs) streamable
  -- no overload
  | _, _, _ => .error (.fault .undefined)
def serializes : (ts : Tys) → Vals ts → Stream → Res (Vals (converts ts) × Stream)
  | .nil, _, streamable => pure ((), streamable)
  | .cons t ts, (v, vs), streamable => do
    let (first, streamable) ← serialize t v streamable
    let (rest, streamable) ← serializes ts vs streamable
    pure ((first, rest), streamable)
end

/-! ## deserializer -/

/-- `deserialize_into` from an offset of the buffer on. -/
def readAt (t : Ty) (buf : List Byte) (offset : Nat) : Res (Val t) :=
  (TrivialSerializer.deserializeInto t (init t) (buf.drop offset)).mapError .fault

/-- `std::transform` from the iterator at `offs` to the one at `last`, over `n` elements at most; two
iterators are equal if their addresses are. -/
def transform {β σ : Type} (t : Ty) (buf : List Byte) (f : Val t → Res β) (ins : σ → β → Res σ)
    (last : Nat) : Nat → Nat → σ → Res σ
  | 0, _, rs => pure rs
  | n + 1, offs, rs =>
    if offs = last then pure rs
    else do
      let e ← readAt t buf offs
      let v ← f e
      let rs ← ins rs v
      transform t buf f ins last n (offs + TrivialSerializer.size t) rs

/-- `deserialize` of a view of elements of type `t`. -/
def transformView {β σ : Type} (t : Ty) (buf : List Byte) (f : Val t → Res β) (ins : σ → β → Res σ)
    (rs : σ) (view : Val vectorView) : Res σ :=
  let data := BitVec.toNat view.1
  let sz := BitVec.toNat view.2.1
  transform t buf f ins (data + sz * TrivialSerializer.size t) sz data rs

def deserializeOption {α β : Type} (f : α → Res β) : Option α → Res (Option β)
  | none => pure none
  | some v => do
    let v ← f v
    pure (some v)

def deserializePair {α β γ δ : Type} (f : α → Res γ) (g : β → Res δ) (kv : α × β × Unit) :
    Res (γ × δ × Unit) := do
  let first ← f kv.1
  let second ← g kv.2.1
  pure (first, second, ())

/-- `insert` of what a bucket holds; the iterators of a hash view pass over the empty ones. -/
def insertBucket {σ β : Type} (ins : σ → β → Res σ) (rs : σ) : Option β → Res σ
  | none => pure rs
  | some v => ins rs v

variable (buf : List Byte)

mutual
def deserialize : (t : Ty) → Val (convert t) → Res (Val t)
  | .int _, v => pure v
  | .float _, v => pure v
  | .bool, v => pure v
  | .optional t, v => deserializeOption (deserialize t) v
  | .tuple ts, vs => deserializes ts vs
  | .cpyable .vector i, view => transformView (.int i) buf pure (pushBack env.toEnv) [] view
  | .cpyable .basicString i, view => transformView (.int i) buf pure (pushBack env.toEnv) [] view.1
  | .noncpyable .vector t, view =>
    transformView (convert t) buf (deserialize t) (pushBack env.toEnv) [] view
  | .map c k m, view =>
    transformView (.pair (convert k) (convert m)) buf
      (deserializePair (deserialize k) (deserialize m))
      (insertOrdered env.toEnv fun x y => env.less c k x.1 y.1) [] view.1
  | .set c k, view =>
    transformView (convert k) buf (deserialize k) (insertOrdered env.toEnv (env.less c k)) [] view.1
  | .unorderedMap h k m, view =>
    transformView (.optional (.pair (convert k) (convert m))) buf
      (deserializeOption (deserializePair (deserialize k) (deserialize m)))
      (insertBucket (insertUnordered env.toEnv fun x y => env.keyEq h k x.1 y.1)) (0 : Multiset _)
      view.1
  | .unorderedSet h k, view =>
    transformView (.optional (convert k)) buf (deserializeOption (deserialize k))
      (insertBucket (insertUnordered env.toEnv (env.keyEq h k))) (0 : Multiset _) view.1
  | _, _ => .error (.fault .undefined)
def deserializes : (ts : Tys) → Vals (converts ts) → Res (Vals ts)
  | .nil, _ => pure ()
  | .cons t ts, (v, vs) => do
    let first ← deserialize t v
    let rest ← deserializes ts vs
    pure (first, rest)
end

/-! ## find -/

/-- `get` of a `vector_view`. -/
def get (t : Ty) (view : Val vectorView) (idx : Nat) : Res (Val t) :=
  if idx < BitVec.toNat view.2.1 then
    readAt t buf (BitVec.toNat view.1 + idx * TrivialSerializer.size t)
  else .error (.fault .abort)

/-- `custom_hasher_t`: the keys of type `std::basic_string` are hashed as a `std::string_view`. -/
def customHasher (h : Nat) : (k : Ty) → Val k → Nat
  | .cpyable .basicString i, key => env.stringHash (key.flatMap (dump i.size.bytes))
  | k, key => env.hasher h k key

/-- `custom_equal_to_t`: they are compared as a `std::string_view`. -/
def customEqualTo (h : Nat) : (k : Ty) → Val k → Val k → Bool
  | .cpyable .basicString i, lhs, rhs => lhs.flatMap (dump i.size.bytes) == rhs.flatMap (dump i.size.bytes)
  | k, lhs, rhs => env.keyEq h k lhs rhs

/-- The loop of `find`, over `n` slots at most; an iterator is what its bucket holds. -/
def findLoop {β : Type} (bucket : Nat → Res (Option β)) (keyEq : β → Res Bool) (hashed cap : Nat) :
    Nat → Nat → Res (Option β)
  | 0, _ => pure none
  | n + 1, i => do
    let bucket' ← bucket (bitwiseAndKeyToIdx (sizeT (hashed + i)) cap)
    match bucket' with
    | none => pure none
    | some kv => do
      let equal ← keyEq kv
      if equal then pure (some kv) else findLoop bucket keyEq hashed cap n (i + 1)

/-- `unordered_flat_map_view::find`, and the entry that its iterator points to. -/
def findMap (h : Nat) (k m : Ty) (view : Val sizedView) (key : Val k) :
    Res (Option (Val k × Val m × Unit)) := do
  let cap := BitVec.toNat view.1.2.1
  let found ← findLoop (get buf (.optional (.pair (convert k) (convert m))) view.1)
    (fun kv => do
      let first ← deserialize env buf k kv.1
      pure (customEqualTo env h k key first))
    (customHasher env h k key) cap cap 0
  deserializeOption (deserializePair (deserialize env buf k) (deserialize env buf m)) found

/-- `unordered_flat_set_view::find`, which probes as many slots as there are elements. -/
def findSet (h : Nat) (k : Ty) (view : Val sizedView) (key : Val k) : Res (Option (Val k)) := do
  let cap := BitVec.toNat view.1.2.1
  let sz := BitVec.toNat view.2.1
  let found ← findLoop (get buf (.optional (convert k)) view.1)
    (fun e => do
      let e ← deserialize env buf k e
      pure (customEqualTo env h k key e))
    (customHasher env h k key) cap sz 0
  deserializeOption (deserialize env buf k) found

end DgBuf
