import NeuralNetwork.Serializer.MurmurHash
import NeuralNetwork.Serializer.Types

/-!
# The compact serializer

The archives of `serializer/compact_serializer.h`, and of
`internal_rest/network_compact_serializer.h` which differs in two header bytes. The overloads of `count`
and of the two `put`s are the cases of `count`, `put` and `get`, of which the plain archives and the
`DgStd` ones are instances.

A pointer that is read is the list of the bytes from it to the end of its object, so a read past
them is a fault. Memory is granted or refused by `Env.alloc`.
-/

namespace CompactSerializer

open Cpp LittleEndian Serializer

/-! ## Exceptions, headers, the environment -/

inductive Exception where
  | corruptedFormat
  | badVersionControl
  | badFormat
  | badAlloc
deriving DecidableEq, Repr

/-- Why a call does not return: a thrown exception, or a fault. -/
inductive Stop where
  | thrown (e : Exception)
  | fault (f : Fault)
deriving DecidableEq, Repr

abbrev Res := Except Stop

def throwExc {α : Type} (e : Exception) : Res α := .error (.thrown e)

/-- The cases of `get_dgstd_serialization_header`. -/
inductive Kind where
  | int (size : IntSize) (isSigned : Bool)
  | float (size : IntSize)
  | linear (l : Linear)
  | map
  | unorderedMap
  | set
  | unorderedSet
  | tuple
  | uniquePtr
  | optional
  | reflectible
  | variant
  | containerWrapper
  | expected
deriving DecidableEq, Repr

def kindOf (i : IntType) : Kind := .int i.size i.isSigned

/-- `bool` is unsigned and of one byte. -/
def boolKind : Kind := .int .b1 false

def headerOf (containerWrapper expected : Byte) : Kind → Byte
  | .int .b1 true => 201
  | .int .b2 true => 202
  | .int .b4 true => 203
  | .int .b8 true => 204
  | .int .b16 true => 205
  | .int .b1 false => 207
  | .int .b2 false => 208
  | .int .b4 false => 209
  | .int .b8 false => 210
  | .int .b16 false => 211
  | .float .b1 => 213
  | .float .b2 => 214
  | .float .b4 => 215
  | .float .b8 => 216
  | .float .b16 => 217
  | .linear .vector => 220
  | .linear .basicString => 221
  | .map => 222
  | .unorderedMap => 223
  | .set => 224
  | .unorderedSet => 225
  | .tuple => 226
  | .uniquePtr => 227
  | .optional => 228
  | .reflectible => 229
  | .variant => 230
  | .containerWrapper => containerWrapper
  | .expected => expected

/-- `get_dgstd_serialization_header` of `serializer/compact_serializer.h`. -/
def getDgstdSerializationHeader : Kind → Byte := headerOf 233 234

/-- `get_dgstd_serialization_header` of `internal_rest/network_compact_serializer.h`. -/
def getNetworkDgstdSerializationHeader : Kind → Byte := headerOf 232 233

/-- What a program brings to the archives: the comparators and key equalities of its containers, the
order in which an unordered container is iterated, and the answers of the allocator, by the number
of elements to make room for. -/
structure Env where
  less : Nat → (t : Ty) → Val t → Val t → Bool
  keyEq : Nat → (t : Ty) → Val t → Val t → Bool
  iter : (t : Ty) → Multiset (Val t) → List (Val t)
  alloc : Nat → Bool

/-- The headers that an archive writes: none, or one before every value. -/
abbrev Headers := Option (Kind → Byte)

/-! ## Counter, DgStdCounter -/

section Count

variable (env : Env) (h : Headers)

def arithSize (n : Nat) : Nat := if h.isSome then 1 + n else n

def headerSize : Nat := if h.isSome then arithSize h 1 else 0

def countAll {α : Type} (f : α → Res Nat) : List α → Res Nat
  | [] => pure 0
  | v :: vs => do
    let n ← f v
    let m ← countAll f vs
    pure (n + m)

/-- A container: `is_safe_integer_castable` on its size, its header, its size, its elements. -/
def countContainer {α : Type} (size : IntSize) (f : α → Res Nat) (vs : List α) : Res Nat :=
  if vs.length < 256 ^ size.bytes then do
    let n ← countAll f vs
    pure (headerSize h + arithSize h size.bytes + n)
  else
    throwExc .badFormat

def countOption {α : Type} (f : α → Res Nat) : Option α → Res Nat
  | none => pure (headerSize h + arithSize h 1)
  | some v => do
    let n ← f v
    pure (headerSize h + arithSize h 1 + n)

/-- An entry of a map, which is a `std::pair`. -/
def countPair {α β : Type} (f : α → Res Nat) (g : β → Res Nat) (e : α × β × Unit) : Res Nat := do
  let n ← f e.1
  let m ← g e.2.1
  pure (headerSize h + (n + m))

/-- `is_met_variant_index_requirements`, the index being a `size_t`. -/
def isMetVariantIndexRequirements (index : Nat) : Bool := index < 256

mutual
def count : (t : Ty) → Val t → Res Nat
  | .int i, _ => pure (arithSize h i.size.bytes)
  | .float size, _ => pure (arithSize h size.bytes)
  | .bool, _ => pure (arithSize h 1)
  | .uniquePtr t, v => countOption h (count t) v
  | .optional t, v => countOption h (count t) v
  | .variant _, none => throwExc .badFormat
  | .variant ts, some a =>
    if isMetVariantIndexRequirements a.index then do
      let n ← countAlt ts a
      pure (headerSize h + arithSize h 1 + n)
    else
      throwExc .badFormat
  | .expected t _, .inl v => do
    let n ← count t v
    pure (headerSize h + arithSize h 1 + n)
  | .expected _ e, .inr v => do
    let n ← count e v
    pure (headerSize h + arithSize h 1 + n)
  | .tuple ts, vs => do
    let n ← counts ts vs
    pure (headerSize h + n)
  | .cpyable _ i, vs =>
    if vs.length < 256 ^ 8 then
      pure (headerSize h + headerSize h + arithSize h 8 + vs.length * i.size.bytes)
    else
      throwExc .badFormat
  | .noncpyable _ t, vs => countContainer h .b8 (count t) vs
  | .map _ k m, vs => countContainer h .b8 (countPair h (count k) (count m)) vs
  | .set _ k, vs => countContainer h .b8 (count k) vs
  | .unorderedMap _ k m, vs =>
    countContainer h .b8 (countPair h (count k) (count m)) (env.iter (.pair k m) vs)
  | .unorderedSet _ k, vs => countContainer h .b8 (count k) (env.iter k vs)
  | .reflectible ts, vs => do
    let n ← counts ts vs
    pure (headerSize h + n)
  | .containerWrapper size t, vs => countContainer h size (count t) vs
def counts : (ts : Tys) → Vals ts → Res Nat
  | .nil, _ => pure 0
  | .cons t ts, (v, vs) => do
    let n ← count t v
    let m ← counts ts vs
    pure (n + m)
def countAlt : (ts : Tys) → Alts ts → Res Nat
  | .cons t _, .inl v => count t v
  | .cons _ ts, .inr a => countAlt ts a
end

end Count

/-! ## Forward, DgStdForward -/

section Put

variable (env : Env) (h : Headers)

/-- A number of which the bytes are `bs`. -/
def putArith (k : Kind) (bs : List Byte) : List Byte :=
  match h with
  | none => bs
  | some header => header k :: bs

/-- `put(buf, get_dgstd_serialization_header<T>())`: the header is itself put as a `uint8_t`. -/
def putHeader (k : Kind) : List Byte :=
  match h with
  | none => []
  | some header => putArith h (kindOf .uint8) [header k]

def putBool (b : Bool) : List Byte := putArith h boolKind [if b then 1 else 0]

def putSize (size : IntSize) (n : Nat) : List Byte :=
  putArith h (.int size false) (bytes size.bytes n)

def putAll {α : Type} (f : α → Res (List Byte)) : List α → Res (List Byte)
  | [] => pure []
  | v :: vs => do
    let bs ← f v
    let cs ← putAll f vs
    pure (bs ++ cs)

def putContainer {α : Type} (k : Kind) (size : IntSize) (f : α → Res (List Byte))
    (vs : List α) : Res (List Byte) :=
  if vs.length < 256 ^ size.bytes then do
    let bs ← putAll f vs
    pure (putHeader h k ++ putSize h size vs.length ++ bs)
  else
    throwExc .badFormat

def putOption {α : Type} (k : Kind) (f : α → Res (List Byte)) : Option α → Res (List Byte)
  | none => pure (putHeader h k ++ putBool h false)
  | some v => do
    let bs ← f v
    pure (putHeader h k ++ putBool h true ++ bs)

def putPair {α β : Type} (f : α → Res (List Byte)) (g : β → Res (List Byte))
    (e : α × β × Unit) : Res (List Byte) := do
  let bs ← f e.1
  let cs ← g e.2.1
  pure (putHeader h .tuple ++ (bs ++ cs))

mutual
def put : (t : Ty) → Val t → Res (List Byte)
  | .int i, v => pure (putArith h (kindOf i) (dump i.size.bytes v))
  | .float size, v => pure (putArith h (.float size) (dump size.bytes v))
  | .bool, b => pure (putBool h b)
  | .uniquePtr t, v => putOption h .uniquePtr (put t) v
  | .optional t, v => putOption h .optional (put t) v
  | .variant _, none => throwExc .badFormat
  | .variant ts, some a =>
    if isMetVariantIndexRequirements a.index then do
      let bs ← putAlt ts a
      pure (putHeader h .variant ++ putSize h .b1 a.index ++ bs)
    else
      throwExc .badFormat
  | .expected t _, .inl v => do
    let bs ← put t v
    pure (putHeader h .expected ++ putBool h true ++ bs)
  | .expected _ e, .inr v => do
    let bs ← put e v
    pure (putHeader h .expected ++ putBool h false ++ bs)
  | .tuple ts, vs => do
    let bs ← puts ts vs
    pure (putHeader h .tuple ++ bs)
  | .cpyable l i, vs =>
    if vs.length < 256 ^ 8 then
      pure (putHeader h (.linear l) ++ putHeader h (kindOf i) ++ putSize h .b8 vs.length ++
        vs.flatMap (dump i.size.bytes))
    else
      throwExc .badFormat
  | .noncpyable l t, vs => putContainer h (.linear l) .b8 (put t) vs
  | .map _ k m, vs => putContainer h .map .b8 (putPair h (put k) (put m)) vs
  | .set _ k, vs => putContainer h .set .b8 (put k) vs
  | .unorderedMap _ k m, vs =>
    putContainer h .unorderedMap .b8 (putPair h (put k) (put m)) (env.iter (.pair k m) vs)
  | .unorderedSet _ k, vs => putContainer h .unorderedSet .b8 (put k) (env.iter k vs)
  | .reflectible ts, vs => do
    let bs ← puts ts vs
    pure (putHeader h .reflectible ++ bs)
  | .containerWrapper size t, vs => putContainer h .containerWrapper size (put t) vs
def puts : (ts : Tys) → Vals ts → Res (List Byte)
  | .nil, _ => pure []
  | .cons t ts, (v, vs) => do
    let bs ← put t v
    let cs ← puts ts vs
    pure (bs ++ cs)
def putAlt : (ts : Tys) → Alts ts → Res (List Byte)
  | .cons t _, .inl v => put t v
  | .cons _ ts, .inr a => putAlt ts a
end

end Put

/-! ## Backward, SafeBackward, DgStdBackward -/

/-- The pointer that is read, as the bytes from it on, and the bytes that are still to be read, of
which only the checked archives keep count. -/
structure Cursor where
  mem : List Byte
  bufSz : Nat
deriving DecidableEq, Repr

/-- A reading archive: the headers it expects, and whether it checks the bytes that are left. -/
structure Archive where
  headers : Headers
  checked : Bool

/-- A read of `n` bytes and the step of the pointer over them. -/
def Cursor.read (cur : Cursor) (n : Nat) : Res (List Byte × Cursor) :=
  if n ≤ cur.mem.length then
    pure (cur.mem.take n, ⟨cur.mem.drop n, cur.bufSz - n⟩)
  else
    .error (.fault .outOfBounds)

section Get

variable (env : Env) (ar : Archive)

def need (cur : Cursor) (n : Nat) : Res Unit :=
  if ar.checked ∧ cur.bufSz < n then throwExc .corruptedFormat else pure ()

def getArith (k : Kind) (n : Nat) (cur : Cursor) : Res (List Byte × Cursor) :=
  match ar.headers with
  | none => do
    need ar cur n
    cur.read n
  | some header => do
    need ar cur (n + 1)
    let (bs, cur) ← cur.read 1
    if bs = [header k] then cur.read n else throwExc .corruptedFormat

def getHeader (k : Kind) (cur : Cursor) : Res Cursor :=
  match ar.headers with
  | none => pure cur
  | some header => do
    let (bs, cur) ← getArith ar (kindOf .uint8) 1 cur
    if bs = [header k] then pure cur else throwExc .corruptedFormat

/-- `load<bool>`: a byte other than zero and one is no `bool`. -/
def getBool (cur : Cursor) : Res (Bool × Cursor) := do
  let (bs, cur) ← getArith ar boolKind 1 cur
  if bs = [0] then pure (false, cur)
  else if bs = [1] then pure (true, cur)
  else .error (.fault .undefined)

def getSize (size : IntSize) (cur : Cursor) : Res (Nat × Cursor) := do
  let (bs, cur) ← getArith ar (.int size false) size.bytes cur
  pure (value bs, cur)

/-- `resize` and the growth of a container. -/
def grow (n : Nat) : Res Unit := if env.alloc n then pure () else throwExc .badAlloc

/-- `loose_reserve_if_possible` of the unchecked archive; in the others, `reserve_if_possible` does
nothing as `HAS_CONTAINER_RESERVATION` is `false`. -/
def reserve (n : Nat) : Res Unit := if ar.checked then pure () else grow env n

def pushBack {α : Type} (l : List α) (e : α) : Res (List α) := do
  grow env (l.length + 1)
  pure (l ++ [e])

/-- `insert` of a `std::map` or `std::set`, which holds its elements in the order of its
comparator. -/
def insertSorted {α : Type} (less : α → α → Bool) (e : α) : List α → List α
  | [] => [e]
  | x :: xs =>
    if less e x then e :: x :: xs
    else if less x e then x :: insertSorted less e xs
    else x :: xs

def insertOrdered {α : Type} (less : α → α → Bool) (l : List α) (e : α) : Res (List α) := do
  grow env (l.length + 1)
  pure (insertSorted less e l)

/-- `insert` of an unordered container. -/
def insertUnordered {α : Type} (keyEq : α → α → Bool) (s : Multiset α) (e : α) :
    Res (Multiset α) := do
  grow env (s.card + 1)
  pure (if s.countP (fun x => keyEq x e) = 0 then e ::ₘ s else s)

/-- The loop over the `n` elements of a container. -/
def getLoop {α σ : Type} (f : Cursor → Res (α × Cursor)) (ins : σ → α → Res σ) :
    Nat → σ → Cursor → Res (σ × Cursor)
  | 0, s, cur => pure (s, cur)
  | n + 1, s, cur => do
    let (e, cur) ← f cur
    let s ← ins s e
    getLoop f ins n s cur

def getContainer {α σ : Type} (k : Kind) (size : IntSize) (canReserve : Bool)
    (f : Cursor → Res (α × Cursor)) (ins : σ → α → Res σ) (empty : σ) (cur : Cursor) :
    Res (σ × Cursor) := do
  let cur ← getHeader ar k cur
  let (sz, cur) ← getSize ar size cur
  if canReserve then reserve env ar sz
  getLoop f ins sz empty cur

def getOption {α : Type} (k : Kind) (f : Cursor → Res (α × Cursor)) (cur : Cursor) :
    Res (Option α × Cursor) := do
  let cur ← getHeader ar k cur
  let (status, cur) ← getBool ar cur
  if status then do
    let (v, cur) ← f cur
    pure (some v, cur)
  else
    pure (none, cur)

def getPair {α β : Type} (f : Cursor → Res (α × Cursor)) (g : Cursor → Res (β × Cursor))
    (cur : Cursor) : Res ((α × β × Unit) × Cursor) := do
  let cur ← getHeader ar .tuple cur
  let (a, cur) ← f cur
  let (b, cur) ← g cur
  pure ((a, b, ()), cur)

-- the second argument is what the object held before, which a variant of the unchecked archive
-- keeps when no alternative has the index read
mutual
def get : (t : Ty) → Val t → Cursor → Res (Val t × Cursor)
  | .int i, _, cur => do
    let (bs, cur) ← getArith ar (kindOf i) i.size.bytes cur
    pure (load i.size.bytes bs, cur)
  | .float size, _, cur => do
    let (bs, cur) ← getArith ar (.float size) size.bytes cur
    pure (load size.bytes bs, cur)
  | .bool, _, cur => getBool ar cur
  | .uniquePtr t, _, cur => getOption ar .uniquePtr (get t (init t)) cur
  | .optional t, _, cur => getOption ar .optional (get t (init t)) cur
  | .variant ts, data, cur => do
    let cur ← getHeader ar .variant cur
    let (index, cur) ← getSize ar .b1 cur
    if ar.checked ∧ ts.length ≤ index then throwExc .corruptedFormat
    let (a, cur) ← getAlt ts index cur
    pure (a.orElse fun _ => data, cur)
  | .expected t e, _, cur => do
    let cur ← getHeader ar .expected cur
    let (status, cur) ← getBool ar cur
    if status then do
      let (v, cur) ← get t (init t) cur
      pure (.inl v, cur)
    else do
      let (v, cur) ← get e (init e) cur
      pure (.inr v, cur)
  | .tuple ts, data, cur => do
    let cur ← getHeader ar .tuple cur
    gets ts data cur
  | .cpyable l i, _, cur => do
    let cur ← getHeader ar (.linear l) cur
    let cur ← getHeader ar (kindOf i) cur
    let (sz, cur) ← getSize ar .b8 cur
    let cpySz := sizeT (sz * i.size.bytes)
    need ar cur cpySz
    grow env sz
    let (bs, cur) ← cur.read cpySz
    pure (chunks i.size.bytes sz bs, cur)
  | .noncpyable l t, _, cur =>
    getContainer env ar (.linear l) .b8 true (get t (init t)) (pushBack env) [] cur
  | .map c k m, _, cur =>
    getContainer env ar .map .b8 false (getPair ar (get k (init k)) (get m (init m)))
      (insertOrdered env fun x y => env.less c k x.1 y.1) [] cur
  | .set c k, _, cur =>
    getContainer env ar .set .b8 false (get k (init k)) (insertOrdered env (env.less c k)) [] cur
  | .unorderedMap c k m, _, cur =>
    getContainer env ar .unorderedMap .b8 true (getPair ar (get k (init k)) (get m (init m)))
      (insertUnordered env fun x y => env.keyEq c k x.1 y.1) (0 : Multiset _) cur
  | .unorderedSet c k, _, cur =>
    getContainer env ar .unorderedSet .b8 true (get k (init k))
      (insertUnordered env (env.keyEq c k)) (0 : Multiset _) cur
  | .reflectible ts, data, cur => do
    let cur ← getHeader ar .reflectible cur
    gets ts data cur
  | .containerWrapper size t, _, cur =>
    getContainer env ar .containerWrapper size false (get t (init t)) (pushBack env) [] cur
def gets : (ts : Tys) → Vals ts → Cursor → Res (Vals ts × Cursor)
  | .nil, _, cur => pure ((), cur)
  | .cons t ts, (v, vs), cur => do
    let (v, cur) ← get t v cur
    let (vs, cur) ← gets ts vs cur
    pure ((v, vs), cur)
def getAlt : (ts : Tys) → Nat → Cursor → Res (Option (Alts ts) × Cursor)
  | .nil, _, cur => pure (none, cur)
  | .cons t _, 0, cur => do
    let (v, cur) ← get t (init t) cur
    pure (some (.inl v), cur)
  | .cons _ ts, n + 1, cur => do
    let (a, cur) ← getAlt ts n cur
    pure (a.map .inr, cur)
end

end Get

/-! ## The archives of `serializer/compact_serializer.h` -/

section Archives

variable (env : Env)

def Counter.count (t : Ty) (data : Val t) : Res Nat := CompactSerializer.count env none t data

def Forward.put (t : Ty) (data : Val t) : Res (List Byte) := CompactSerializer.put env none t data

/-- The unchecked archive keeps no count of the bytes that are left. -/
def Backward.put (t : Ty) (data : Val t) (buf : List Byte) : Res (Val t × List Byte) := do
  let (v, cur) ← get env ⟨none, false⟩ t data ⟨buf, buf.length⟩
  pure (v, cur.mem)

def SafeBackward.put (t : Ty) (data : Val t) (cur : Cursor) : Res (Val t × Cursor) :=
  get env ⟨none, true⟩ t data cur

def DgStdCounter.count (t : Ty) (data : Val t) : Res Nat :=
  CompactSerializer.count env (some getDgstdSerializationHeader) t data

def DgStdForward.put (t : Ty) (data : Val t) : Res (List Byte) :=
  CompactSerializer.put env (some getDgstdSerializationHeader) t data

def DgStdBackward.put (t : Ty) (data : Val t) (cur : Cursor) : Res (Val t × Cursor) :=
  get env ⟨some getDgstdSerializationHeader, true⟩ t data cur

end Archives

/-! ## The integrity frame and the DgStd frame -/

/-- Writing `bytes` from the front of a buffer. -/
def writeInto (buf bytes : List Byte) : Res (List Byte) :=
  if bytes.length ≤ buf.length then pure (bytes ++ buf.drop bytes.length)
  else .error (.fault .outOfBounds)

section Frame

variable (env : Env) (header : Kind → Byte)

def hashSize : Nat := 16

def versionControlSize : Nat := 1

def serializationVersionControl : Byte := 1

def hash (buf : List Byte) (sz : Nat) (secret : BitVec 32) : Res MurmurHash.HashType :=
  (MurmurHash.murmurHashBase buf sz secret).mapError .fault

/-- `serialize_into` of a `hash_type`, by the plain archive. -/
def putHash (hashed : MurmurHash.HashType) : List Byte :=
  dump 8 hashed.1 ++ dump 8 hashed.2

/-- `deserialize_into` of a `hash_type`, by the plain archive. -/
def getHash (cur : Cursor) : Res (MurmurHash.HashType × Cursor) := do
  let (h1, cur) ← cur.read 8
  let (h2, cur) ← cur.read 8
  pure ((load 8 h1, load 8 h2), cur)

def integritySize (t : Ty) (obj : Val t) : Res Nat := do
  let n ← count env none t obj
  pure (n + hashSize)

/-- What `integrity_serialize_into` writes from `buf` on. -/
def integritySerializeInto (t : Ty) (obj : Val t) (secret : BitVec 32) : Res (List Byte) := do
  let content ← put env none t obj
  let hashed ← hash content content.length secret
  pure (content ++ putHash hashed)

def integrityDeserializeInto (t : Ty) (obj : Val t) (buf : List Byte) (sz : Nat)
    (secret : BitVec 32) : Res (Val t) := do
  if sz < hashSize then throwExc .corruptedFormat
  let contentSz := sz - hashSize
  let reality ← hash buf contentSz secret
  let (_, last) ← (Cursor.mk buf sz).read contentSz
  let (expecting, _) ← getHash last
  if expecting ≠ reality then throwExc .corruptedFormat
  let (v, cur) ← get env ⟨none, true⟩ t obj ⟨buf, contentSz⟩
  if cur.bufSz ≠ 0 then throwExc .corruptedFormat
  pure v

/-- The size of the `uint64_t` in front of an integrity frame. -/
def capSize : Nat := 8

def capintegritySize (t : Ty) (obj : Val t) : Res Nat := do
  let n ← integritySize env t obj
  pure (capSize + n)

/-- What `capintegrity_serialize_into` writes from `buf` on. -/
def capintegritySerializeInto (t : Ty) (obj : Val t) (secret : BitVec 32) : Res (List Byte) := do
  let frame ← integritySerializeInto env t obj secret
  pure (putSize none .b8 frame.length ++ frame)

/-- The object, and the pointer that is returned. -/
def capintegrityDeserializeInto (t : Ty) (obj : Val t) (buf : List Byte) (sz : Nat)
    (secret : BitVec 32) : Res (Val t × List Byte) := do
  if sz < capSize then throwExc .corruptedFormat
  let (objSz, first) ← getSize ⟨none, false⟩ .b8 ⟨buf, sz⟩
  let remainingSz := first.bufSz
  if objSz > remainingSz then throwExc .corruptedFormat
  let v ← integrityDeserializeInto env t obj first.mem objSz secret
  pure (v, first.mem.drop objSz)

def dgstdSize (t : Ty) (obj : Val t) : Res Nat := do
  let n ← count env (some header) t obj
  pure (n + hashSize + versionControlSize)

/-- What `dgstd_serialize_into` writes from `buf` on. -/
def dgstdSerializeInto (t : Ty) (obj : Val t) (secret : BitVec 32) : Res (List Byte) := do
  let content ← put env (some header) t obj
  let hashed ← hash content content.length secret
  pure (content ++ putHash hashed ++ [serializationVersionControl])

def dgstdDeserializeInto (t : Ty) (obj : Val t) (buf : List Byte) (sz : Nat)
    (secret : BitVec 32) : Res (Val t) := do
  if sz < hashSize + versionControlSize then throwExc .corruptedFormat
  let contentSz := sz - (hashSize + versionControlSize)
  let realityValue ← hash buf contentSz secret
  let (_, contentLast) ← (Cursor.mk buf sz).read contentSz
  let (expectingValue, versionControlFirst) ← getHash contentLast
  let (curVer, _) ← versionControlFirst.read versionControlSize
  if curVer ≠ [serializationVersionControl] then throwExc .badVersionControl
  if expectingValue ≠ realityValue then throwExc .corruptedFormat
  let (v, cur) ← get env ⟨some header, true⟩ t obj ⟨buf, contentSz⟩
  if cur.bufSz ≠ 0 then throwExc .corruptedFormat
  pure v

/-- A stream takes the size that was counted before the bytes are written into it. -/
def toStream (size : Res Nat) (bytes : Res (List Byte)) : Res (List Byte) := do
  let sz ← size
  grow env sz
  let bs ← bytes
  writeInto (List.replicate sz 0) bs

def integritySerialize (t : Ty) (obj : Val t) (secret : BitVec 32) : Res (List Byte) :=
  toStream env (integritySize env t obj) (integritySerializeInto env t obj secret)

def integrityDeserialize (t : Ty) (stream : List Byte) (secret : BitVec 32) : Res (Val t) :=
  integrityDeserializeInto env t (init t) stream stream.length secret

def dgstdSerialize (t : Ty) (obj : Val t) (secret : BitVec 32) : Res (List Byte) :=
  toStream env (dgstdSize env header t obj) (dgstdSerializeInto env header t obj secret)

def dgstdDeserialize (t : Ty) (stream : List Byte) (secret : BitVec 32) : Res (Val t) :=
  dgstdDeserializeInto env header t (init t) stream stream.length secret

end Frame

end CompactSerializer
