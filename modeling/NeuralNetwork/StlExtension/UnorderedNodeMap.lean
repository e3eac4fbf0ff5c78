import NeuralNetwork.Lib.HashChain
import NeuralNetwork.Lib.Loop
import NeuralNetwork.StlExtension.Stdx

/-!
# A chained hash map with dense storage

`unordered_node_map` of `stl_extension/unordered_node_map.h`. The nodes lie in a vector without gaps;
buckets and nodes link to them by indices, kept in the narrower `VirtualAddrType`. The order of the
fields of a node is left to the compiler. A vector allocates what `reserve` asks for and doubles
when it has to grow.
-/

namespace UnorderedMapVariants

open Cpp Stdx HashChain Loop

/-! ## Vectors -/

structure StdVector (T : Type) where
  items : List T
  cap : Nat

namespace StdVector

variable {T : Type} (v : StdVector T)

def empty : StdVector T := ⟨[], 0⟩

def size : Nat := v.items.length

/-- `operator[]`, inside the live range. -/
def get (idx : Nat) : Except Fault T :=
  match v.items[idx]? with
  | some x => .ok x
  | none => .error .outOfBounds

def back : Except Fault T :=
  match v.items.getLast? with
  | some x => .ok x
  | none => .error .outOfBounds

def reserve (newCap : Nat) : StdVector T := { v with cap := max v.cap newCap }

/-- Whether `emplace_back` moves the elements to a new block. -/
def full : Prop := v.size = v.cap

instance : Decidable v.full := inferInstanceAs (Decidable (_ = _))

def emplaceBack (x : T) : StdVector T :=
  ⟨v.items ++ [x], if v.full then max 1 (2 * v.cap) else v.cap⟩

def popBack : StdVector T := { v with items := v.items.dropLast }

def modify (idx : Nat) (f : T → T) : StdVector T := { v with items := v.items.modify idx f }

def clear : StdVector T := { v with items := [] }

end StdVector

/-! ## Parameters -/

/-- `std::ratio<eighths, 8>`. -/
structure LoadFactor where
  eighths : Nat
  pos : 0 < eighths
  le_eight : eighths ≤ 8

/-- A ratio is reduced. -/
def LoadFactor.num (lf : LoadFactor) : Nat := lf.eighths / Nat.gcd lf.eighths 8

def LoadFactor.den (lf : LoadFactor) : Nat := 8 / Nat.gcd lf.eighths 8

/-- The template arguments `VirtualAddrType`, given by its bits, and `LoadFactor`. -/
structure Params where
  addrBits : Nat
  loadFactor : LoadFactor

namespace Params

variable (P : Params)

def nullVirtualAddr : Nat := 2 ^ P.addrBits - 1

/-- `static_cast<virtual_addr_t>(idx)`. -/
def toVirtualAddr (idx : Nat) : Nat := idx % 2 ^ P.addrBits

def rightCapacityToSize (cap : Nat) : Nat := sizeT (cap / P.loadFactor.den * P.loadFactor.num)

def ceilSizeToCapacity (sz : Nat) : Nat :=
  if sz = 0 then 0
  else
    let mulValue := sizeT (sz * P.loadFactor.den)
    let roundMulValue := sizeT ((subT mulValue 1 / P.loadFactor.num + 1) * P.loadFactor.num)
    roundMulValue / P.loadFactor.num

end Params

def minCapacity : Nat := 8

def maxCapacity : Nat := 2 ^ 50

def Params.maxSize (P : Params) : Nat := P.rightCapacityToSize maxCapacity

def minSizeClamp (arg lo hi : Nat) : Except Fault Nat :=
  if arg > hi then .error (.lengthError "bad size clamp") else .ok (max arg lo)

/-! ## The map -/

structure Node (K V : Type) where
  first : K
  second : V
  nxtAddr : Nat

/-- `keys` are `_hasher` and `pred`. -/
structure UnorderedNodeMap (K V : Type) where
  virtualStorageVec : StdVector (Node K V)
  bucketVec : List Nat
  keys : Keys K

namespace UnorderedNodeMap

variable {K V : Type} (P : Params)

/-- `unordered_node_map(bucket_count, _hasher, pred)`. -/
def make (keys : Keys K) (bucketCount : Nat) : Except Fault (UnorderedNodeMap K V) := do
  let cap ← minSizeClamp (← ceil2 bucketCount) minCapacity maxCapacity
  return ⟨StdVector.empty.reserve (P.rightCapacityToSize cap),
    List.replicate cap P.nullVirtualAddr, keys⟩

variable (m : UnorderedNodeMap K V)

def size : Nat := m.virtualStorageVec.size

def capacity : Nat := m.bucketVec.length

def toBucketIndex (hashedValue : Nat) : Nat := hashedValue &&& subT m.bucketVec.length 1

def load : Ref → Except Fault Nat
  | .bucket b =>
    match m.bucketVec[b]? with
    | some addr => .ok addr
    | none => .error .outOfBounds
  | .next v => do return (← m.virtualStorageVec.get v).nxtAddr

/-- `*ref = addr`, for a place that could be loaded. -/
def store (ref : Ref) (addr : Nat) : UnorderedNodeMap K V :=
  match ref with
  | .bucket b => { m with bucketVec := m.bucketVec.set b addr }
  | .next v =>
    { m with virtualStorageVec :=
        m.virtualStorageVec.modify v fun node => { node with nxtAddr := addr } }

/-! ### Lookup -/

/-- The `while (true)` of `internal_find_bucket_reference`. -/
def findFrom (key : K) : Nat → Ref → Except Fault Ref
  | 0, _ => .error .outOfFuel
  | fuel + 1, current => do
    let addr ← m.load current
    if addr = P.nullVirtualAddr then
      return current
    let node ← m.virtualStorageVec.get addr
    if m.keys.pred node.first key then
      return current
    findFrom key fuel (.next addr)

def internalFindBucketReference (key : K) : Except Fault Ref :=
  m.findFrom P key (m.size + 1) (.bucket (m.toBucketIndex (m.keys.hasher key)))

/-- Iterators are positions in the vector; the end is `size`. -/
def find (key : K) : Except Fault Nat := do
  let addr ← m.load (← m.internalFindBucketReference P key)
  return if addr = P.nullVirtualAddr then m.size else addr

def contains (key : K) : Except Fault Bool := do
  return (← m.find P key) ≠ m.size

/-- `none` when `at` throws `std::out_of_range`. -/
def at? (key : K) : Except Fault (Option V) := do
  let ptr ← m.find P key
  if ptr = m.size then
    return none
  return some (← m.virtualStorageVec.get ptr).second

/-! ### Growth -/

/-- The inner `while (true)` of `rehash`: the end of a chain. -/
def chainEnd : Nat → Ref → Except Fault Ref
  | 0, _ => .error .outOfFuel
  | fuel + 1, insertReference => do
    let addr ← m.load insertReference
    if addr = P.nullVirtualAddr then
      return insertReference
    chainEnd fuel (.next addr)

/-- A round of the `for` of `rehash`, with the new buckets already in place. -/
def relink (i : Nat) : Except Fault (UnorderedNodeMap K V) := do
  let m1 := m.store (.next i) P.nullVirtualAddr
  let node ← m1.virtualStorageVec.get i
  let bucketIdx := m1.toBucketIndex (m1.keys.hasher node.first)
  let insertReference ← m1.chainEnd P (m1.size + 1) (.bucket bucketIdx)
  return m1.store insertReference (P.toVirtualAddr i)

def rehash (tentativeNewCap : Nat) : Except Fault (UnorderedNodeMap K V) := do
  if tentativeNewCap ≤ m.capacity then
    return m
  let newBucketCap := max minCapacity (← ceil2 tentativeNewCap)
  if newBucketCap > maxCapacity then
    throw (.lengthError "bad unordered_node_map capacity")
  let m1 := { m with
    bucketVec := List.replicate newBucketCap P.nullVirtualAddr
    virtualStorageVec := m.virtualStorageVec.reserve (P.rightCapacityToSize newBucketCap) }
  forLoop (fun i m => relink P m i) m.size m1

def reserve (newSz : Nat) : Except Fault (UnorderedNodeMap K V) := do
  if newSz ≤ m.size then
    return m
  if newSz > P.maxSize then
    throw (.lengthError "bad unordered_node_map size")
  m.rehash P (P.ceilSizeToCapacity newSz)

/-! ### Insertion -/

def emplaceBack (node : Node K V) : UnorderedNodeMap K V :=
  { m with virtualStorageVec := m.virtualStorageVec.emplaceBack node }

/-- `*insert_reference` behind `emplace_back`, in the map `m1`: a link that lay in a block which the
vector has left dangles. -/
def reload (m1 : UnorderedNodeMap K V) : Ref → Except Fault Nat
  | .bucket b => m1.load (.bucket b)
  | .next v => if m.virtualStorageVec.full then .error .undefined else m1.load (.next v)

/-- `internal_insert` behind its growth. -/
def internalInsertGrown (value : Node K V) :
    Except Fault (UnorderedNodeMap K V × Nat × Bool) := do
  let insertReference ← m.internalFindBucketReference P value.first
  let addr ← m.load insertReference
  if addr = P.nullVirtualAddr then
    let m1 := (m.store insertReference (P.toVirtualAddr m.size)).emplaceBack value
    return (m1, ← m.reload m1 insertReference, true)
  return (m, addr, false)

def internalInsert (value : Node K V) : Except Fault (UnorderedNodeMap K V × Nat × Bool) := do
  if m.virtualStorageVec.full then
    (← m.rehash P (sizeT (m.bucketVec.length <<< 1))).internalInsertGrown P value
  else
    m.internalInsertGrown P value

/-- `try_emplace`, `emplace` and `insert`: the map, the iterator and whether the element is new. -/
def tryEmplace (key : K) (mapped : V) : Except Fault (UnorderedNodeMap K V × Nat × Bool) :=
  m.internalInsert P ⟨key, mapped, P.nullVirtualAddr⟩

def assign (pos : Nat) (mapped : V) : UnorderedNodeMap K V :=
  { m with virtualStorageVec :=
      m.virtualStorageVec.modify pos fun node => { node with second := mapped } }

def insertOrAssign (key : K) (mapped : V) : Except Fault (UnorderedNodeMap K V × Nat × Bool) := do
  let (m1, it, status) ← m.internalInsert P ⟨key, mapped, P.nullVirtualAddr⟩
  return (if status then m1 else m1.assign it mapped, it, status)

/-- `operator[]`: the map and the mapped value that the reference leads to. -/
def index [Inhabited V] (key : K) : Except Fault (UnorderedNodeMap K V × V) := do
  let (m1, it, _) ← m.tryEmplace P key default
  return (m1, (← m1.virtualStorageVec.get it).second)

/-! ### Erasure -/

def setSlot (slot : Nat) (node : Node K V) : UnorderedNodeMap K V :=
  { m with virtualStorageVec := m.virtualStorageVec.modify slot fun _ => node }

def popBack : UnorderedNodeMap K V := { m with virtualStorageVec := m.virtualStorageVec.popBack }

/-- The branch of `internal_erase_key` for a node that is not the last: it is unlinked, the place
that led to the last one gets its address, and the last one moves into its slot. -/
def relinkBack (keyReference swappingReference : Ref) (addr : Nat) :
    Except Fault (UnorderedNodeMap K V) := do
  let swappingReference :=
    if swappingReference = .next addr then keyReference else swappingReference
  let node ← m.virtualStorageVec.get addr
  let m1 := (m.store keyReference node.nxtAddr).store swappingReference addr
  let back ← m1.virtualStorageVec.back
  return m1.setSlot (← m1.load swappingReference) back

def internalEraseKey (key : K) : Except Fault (UnorderedNodeMap K V × Bool) := do
  let keyReference ← m.internalFindBucketReference P key
  let addr ← m.load keyReference
  if addr = P.nullVirtualAddr then
    return (m, false)
  let back ← m.virtualStorageVec.back
  let swappingReference ← m.internalFindBucketReference P back.first
  if swappingReference = keyReference then
    let node ← m.virtualStorageVec.get addr
    return ((m.store keyReference node.nxtAddr).popBack, true)
  else
    return ((← m.relinkBack keyReference swappingReference addr).popBack, true)

def internalEraseIter (pos : Nat) : Except Fault (UnorderedNodeMap K V × Nat) := do
  if pos = m.size then
    return (m, m.size)
  else
    let node ← m.virtualStorageVec.get pos
    let (m1, _) ← m.internalEraseKey P node.first
    return (m1, pos)

/-! ### `std::erase_if` -/

/-- One round, on the map, the iterator and the elements that the predicate has been asked about. -/
def eraseIfRound (pred : K × V → Bool) (s : UnorderedNodeMap K V × Nat × List (K × V)) :
    Except Fault (ForInStep (UnorderedNodeMap K V × Nat × List (K × V))) := do
  let (m, it, asked) := s
  if it = m.size then
    return .done s
  let node ← m.virtualStorageVec.get it
  let element := (node.first, node.second)
  if pred element then
    let (m, it) ← m.internalEraseIter P it
    return .yield (m, it, asked ++ [element])
  else
    return .yield (m, it + 1, asked ++ [element])

def clear : UnorderedNodeMap K V :=
  { m with
    virtualStorageVec := m.virtualStorageVec.clear
    bucketVec := m.bucketVec.map fun _ => P.nullVirtualAddr }

/-! ### Special members -/

/-- What a move leaves of the vectors. -/
def movedFrom : UnorderedNodeMap K V :=
  { m with virtualStorageVec := .empty, bucketVec := [] }

/-- A copy, whose vector of nodes has capacity `cap`. -/
def copy (cap : Nat) : UnorderedNodeMap K V :=
  { m with virtualStorageVec := ⟨m.virtualStorageVec.items, cap⟩ }

end UnorderedNodeMap

/-! ## Calls -/

/-- A call on one map. `insert` stands for `try_emplace` and `emplace` too. -/
inductive Call (K V : Type) where
  | insert (key : K) (mapped : V)
  | insertOrAssign (key : K) (mapped : V)
  | index (key : K)
  | eraseKey (key : K)
  | eraseIter (pos : Nat)
  | find (key : K)
  | contains (key : K)
  | at? (key : K)
  | size
  | clear
  | reserve (newSz : Nat)
  | rehash (tentativeNewCap : Nat)

inductive Answer (V : Type) where
  | inserted (pos : Nat) (fresh : Bool)
  | mapped (value : Option V)
  | erased (any : Bool)
  | position (pos : Nat)
  | holds (any : Bool)
  | count (n : Nat)
  | done
deriving DecidableEq, Repr

def Call.run {K V : Type} [Inhabited V] (P : Params) (m : UnorderedNodeMap K V) :
    Call K V → Except Fault (UnorderedNodeMap K V × Answer V)
  | .insert key mapped => do
    let (m, pos, fresh) ← m.tryEmplace P key mapped
    return (m, .inserted pos fresh)
  | .insertOrAssign key mapped => do
    let (m, pos, fresh) ← m.insertOrAssign P key mapped
    return (m, .inserted pos fresh)
  | .index key => do
    let (m, value) ← m.index P key
    return (m, .mapped (some value))
  | .eraseKey key => do
    let (m, erased) ← m.internalEraseKey P key
    return (m, .erased erased)
  | .eraseIter pos => do
    let (m, pos) ← m.internalEraseIter P pos
    return (m, .position pos)
  | .find key => do return (m, .position (← m.find P key))
  | .contains key => do return (m, .holds (← m.contains P key))
  | .at? key => do return (m, .mapped (← m.at? P key))
  | .size => .ok (m, .count m.size)
  | .clear => .ok (m.clear P, .done)
  | .reserve newSz => do return (← m.reserve P newSz, .done)
  | .rehash tentativeNewCap => do return (← m.rehash P tentativeNewCap, .done)

end UnorderedMapVariants
