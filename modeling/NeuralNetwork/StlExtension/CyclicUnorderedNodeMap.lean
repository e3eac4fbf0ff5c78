import NeuralNetwork.Lib.Loop
import NeuralNetwork.Lib.HashChain
import NeuralNetwork.StlExtension.Stdx

/-!
# A bounded hash map that evicts its oldest slot

`cyclic_unordered_node_map` and `cyclic_unordered_node_set` of `stl_extension/datastructure.h` (and
of `internal_rest/network_datastructure.h`, which repeats them) with `VirtualAddrType = size_t`, the
only one they are used with. The nodes lie in a cyclic queue; buckets and nodes link to them by
virtual addresses, which keep their value when the front of the queue is popped. The set is the map
without mapped values.
-/

namespace CyclicUnordered

open Cpp Loop Stdx HashChain

/-! ## The queue -/

/-- `pow2_cyclic_queue`: the sequence of its elements, at most `cap` of them. -/
structure Pow2CyclicQueue (T : Type) where
  items : List T
  cap : Nat

namespace Pow2CyclicQueue

variable {T : Type} (q : Pow2CyclicQueue T)

/-- `pow2_cyclic_queue(pow2_exponent)`. -/
def make (pow2Exponent : Nat) : Pow2CyclicQueue T := ⟨[], 2 ^ pow2Exponent⟩

def size : Nat := q.items.length

/-- `operator[]`, inside the live range. -/
def get (idx : Nat) : Except Fault T :=
  match q.items[idx]? with
  | some x => .ok x
  | none => .error .outOfBounds

def front : Except Fault T :=
  match q.items with
  | [] => .error .abort
  | x :: _ => .ok x

def pushBack (x : T) : Pow2CyclicQueue T :=
  if q.size = q.cap then q else { q with items := q.items ++ [x] }

def popFront : Except Fault (Pow2CyclicQueue T) :=
  match q.items with
  | [] => .error .abort
  | _ :: xs => .ok { q with items := xs }

def modify (idx : Nat) (f : T → T) : Pow2CyclicQueue T := { q with items := q.items.modify idx f }

end Pow2CyclicQueue

/-! ## The map -/

structure Node (K V : Type) where
  first : K
  second : V
  nxtAddr : Nat

structure CyclicUnorderedNodeMap (K V : Type) where
  virtualStorageVec : Pow2CyclicQueue (Node K V)
  bucketVec : List Nat
  virtualAddrOffset : Nat

/-- `std::ratio<4, 8>` or `std::ratio<8, 8>`, reduced. -/
inductive LoadFactor where
  | half
  | full

def LoadFactor.num : LoadFactor → Nat := fun _ => 1

def LoadFactor.den : LoadFactor → Nat
  | .half => 2
  | .full => 1

def nullVirtualAddr : Nat := 2 ^ 64 - 1

def minCapacity : Nat := 8

def maxCapacity : Nat := 2 ^ 50

def minSizeClamp (arg lo hi : Nat) : Except Fault Nat :=
  if arg > hi then .error (.lengthError "bad size clamp") else .ok (max arg lo)

def rightCapacityToSize (lf : LoadFactor) (cap : Nat) : Nat := sizeT (cap / lf.den * lf.num)

def rightSizeToCapacity (lf : LoadFactor) (sz : Nat) : Nat := sizeT (sz / lf.num * lf.den)

namespace CyclicUnorderedNodeMap

variable {K V : Type}

/-- `cyclic_unordered_node_map(bucket_count, ...)`. -/
def make (lf : LoadFactor) (bucketCount : Nat) : Except Fault (CyclicUnorderedNodeMap K V) := do
  let cap ← minSizeClamp (← ceil2 bucketCount) minCapacity maxCapacity
  return ⟨.make (ulog2 (rightCapacityToSize lf cap)), List.replicate cap nullVirtualAddr, 0⟩

variable (keys : Keys K) (m : CyclicUnorderedNodeMap K V)

def size : Nat := m.virtualStorageVec.size

/-- The `capacity()` of the node queue. -/
def storageCap : Nat := m.virtualStorageVec.cap

def toBucketIndex (hashedValue : Nat) : Nat := hashedValue &&& subT m.bucketVec.length 1

def toStorageAddr (orgVirtualAddr : Nat) : Nat :=
  sizeT (m.virtualAddrOffset + orgVirtualAddr) &&& subT m.storageCap 1

def toVirtualAddr (storageAddr : Nat) : Nat :=
  let storageOffset := m.virtualAddrOffset &&& subT m.storageCap 1
  let promotedStorageAddr := sizeT (storageAddr + m.storageCap)
  let difference := subT promotedStorageAddr storageOffset
  difference &&& subT m.storageCap 1

/-- `*ref`. The link of a node is named by the virtual address of the node. -/
def load : Ref → Except Fault Nat
  | .bucket b =>
    match m.bucketVec[b]? with
    | some addr => .ok addr
    | none => .error .outOfBounds
  | .next v => do return (← m.virtualStorageVec.get (m.toStorageAddr v)).nxtAddr

/-- `*ref = addr`, for a place that could be loaded. -/
def store (ref : Ref) (addr : Nat) : CyclicUnorderedNodeMap K V :=
  match ref with
  | .bucket b => { m with bucketVec := m.bucketVec.set b addr }
  | .next v =>
    { m with virtualStorageVec :=
        m.virtualStorageVec.modify (m.toStorageAddr v) fun node => { node with nxtAddr := addr } }

/-- The `while (true)` of `internal_find_bucket_reference`. -/
def findFrom (key : K) : Nat → Ref → Except Fault Ref
  | 0, _ => .error .outOfFuel
  | fuel + 1, current => do
    let addr ← m.load current
    if addr = nullVirtualAddr then
      return current
    let node ← m.virtualStorageVec.get (m.toStorageAddr addr)
    if keys.pred node.first key then
      return current
    findFrom key fuel (.next addr)

def internalFindBucketReference (key : K) : Except Fault Ref :=
  m.findFrom keys key (m.storageCap + 1) (.bucket (m.toBucketIndex (keys.hasher key)))

/-- Iterators are positions in the queue; the end is `size`. -/
def internalFind (key : K) : Except Fault Nat := do
  let addr ← m.load (← m.internalFindBucketReference keys key)
  return if addr = nullVirtualAddr then m.size else m.toStorageAddr addr

def find (key : K) : Except Fault Nat := m.internalFind keys key

def contains (key : K) : Except Fault Bool := do
  return (← m.find keys key) ≠ m.size

def pushBack (node : Node K V) : CyclicUnorderedNodeMap K V :=
  { m with virtualStorageVec := m.virtualStorageVec.pushBack node }

def setSlot (slot : Nat) (node : Node K V) : CyclicUnorderedNodeMap K V :=
  { m with virtualStorageVec := m.virtualStorageVec.modify slot fun _ => node }

/-- `pop_front` and the shift of the offset that goes with it. -/
def popFront : Except Fault (CyclicUnorderedNodeMap K V) := do
  let virtualStorageVec ← m.virtualStorageVec.popFront
  let offset := sizeT (m.virtualAddrOffset + subT m.storageCap 1)
  return { m with
    virtualStorageVec := virtualStorageVec, virtualAddrOffset := offset &&& subT m.storageCap 1 }

def internalEraseFront : Except Fault (CyclicUnorderedNodeMap K V) := do
  let front ← m.virtualStorageVec.front
  let bucketReference ← m.internalFindBucketReference keys front.first
  (m.store bucketReference front.nxtAddr).popFront

/-- The second half of `internal_insert`: the queue has room. -/
def internalInsertRoom (value : Node K V) :
    Except Fault (CyclicUnorderedNodeMap K V × Nat × Bool) := do
  let insertReference ← m.internalFindBucketReference keys value.first
  let addr ← m.load insertReference
  if addr = nullVirtualAddr then
    let m1 := (m.store insertReference (m.toVirtualAddr m.size)).pushBack value
    return (m1, m1.size - 1, true)
  return (m, m.toStorageAddr addr, false)

def internalInsert (value : Node K V) :
    Except Fault (CyclicUnorderedNodeMap K V × Nat × Bool) := do
  if m.size = m.storageCap then
    (← m.internalEraseFront keys).internalInsertRoom keys value
  else
    m.internalInsertRoom keys value

/-- `try_emplace` and `insert`: the map, the position of the element and whether it is new. -/
def tryEmplace (key : K) (mapped : V) : Except Fault (CyclicUnorderedNodeMap K V × Nat × Bool) :=
  m.internalInsert keys ⟨key, mapped, nullVirtualAddr⟩

def assign (pos : Nat) (mapped : V) : CyclicUnorderedNodeMap K V :=
  { m with virtualStorageVec :=
      m.virtualStorageVec.modify pos fun node => { node with second := mapped } }

def insertOrAssign (key : K) (mapped : V) :
    Except Fault (CyclicUnorderedNodeMap K V × Nat × Bool) := do
  let (m1, ptr, status) ← m.internalInsert keys ⟨key, mapped, nullVirtualAddr⟩
  return (if status then m1 else m1.assign ptr mapped, ptr, true)

/-- The branch of `internal_erase_key` for a node that is not the front: it is unlinked, the place
that led to the front gets its address, and the front moves into its slot. The old node goes with
the front. -/
def relinkFront (keyReference swappingReference : Ref) (addr : Nat) :
    Except Fault (CyclicUnorderedNodeMap K V) := do
  let swappingReference :=
    if swappingReference = .next addr then keyReference else swappingReference
  let node ← m.virtualStorageVec.get (m.toStorageAddr addr)
  let m1 := (m.store keyReference node.nxtAddr).store swappingReference addr
  let front ← m1.virtualStorageVec.front
  return m1.setSlot (m1.toStorageAddr (← m1.load swappingReference)) front

def internalEraseKey (key : K) : Except Fault (CyclicUnorderedNodeMap K V × Bool) := do
  let keyReference ← m.internalFindBucketReference keys key
  let addr ← m.load keyReference
  if addr = nullVirtualAddr then
    return (m, false)
  let front ← m.virtualStorageVec.front
  let swappingReference ← m.internalFindBucketReference keys front.first
  if swappingReference = keyReference then
    let node ← m.virtualStorageVec.get (m.toStorageAddr addr)
    return (← (m.store keyReference node.nxtAddr).popFront, true)
  else
    return (← (← m.relinkFront keyReference swappingReference addr).popFront, true)

def internalEraseIter (pos : Nat) : Except Fault (CyclicUnorderedNodeMap K V × Nat) := do
  if pos = m.size then
    return (m, m.size)
  else
    let node ← m.virtualStorageVec.get pos
    let (m1, _) ← m.internalEraseKey keys node.first
    return (m1, pos)

def clear : CyclicUnorderedNodeMap K V :=
  ⟨{ m.virtualStorageVec with items := [] }, m.bucketVec.map fun _ => nullVirtualAddr, 0⟩

end CyclicUnorderedNodeMap

abbrev CyclicUnorderedNodeSet (K : Type) := CyclicUnorderedNodeMap K Unit

end CyclicUnordered
