import Mathlib.Algebra.BigOperators.Group.List.Basic
import Mathlib.Data.List.Permutation

/-!
# ImmutableMemoryCache

The cache of `src/memory_management/immutable_multiplatform_memory_x.h` over a keyed priority queue that
keeps one node for each key; its `peek` is a parameter. A reference is the address that its `shared_ptr`
holds, 0 for null. A batch under the mutex is one step; a call of `release_memory` is told whether its thread
holds the mutex already. `FreeAllocationHolder` holds the nodes whose device memory is freed after the call.
Sizes and counters are not bounded.
-/

namespace MultiplatformMemoryX

structure MemoryReference where
  devicePtr : Nat
  ptrMemSz : Nat
  internalKey : Nat
deriving DecidableEq, Repr

structure CacheAndAcquireArgument where
  immutableReference : Nat
  hostMemorySz : Nat
  /-- What `allocate_from_view` returns if it is called, `none` if it throws. -/
  allocation : Option Nat
deriving DecidableEq, Repr

structure MemoryNode where
  immutableReference : Nat
  deviceMemPtr : Nat
  deviceMemPtrSz : Nat
  lastUpdated : Nat
  referenceCounter : Nat
deriving DecidableEq, Repr

def memoryNodeComparator (lhs rhs : MemoryNode) : Bool :=
  if lhs.referenceCounter < rhs.referenceCounter then true
  else if lhs.referenceCounter > rhs.referenceCounter then false
  else if lhs.lastUpdated < rhs.lastUpdated then true
  else if lhs.lastUpdated > rhs.lastUpdated then false
  else true

inductive Stop where
  /-- `std::abort`, also for an exception out of a function that is `noexcept`. -/
  | abort
  /-- The thread locks a mutex that it holds. -/
  | deadlock
  | outOfFuel
deriving DecidableEq, Repr

/-! ## The keyed priority queue -/

def getByKey (heap : List MemoryNode) (key : Nat) : Option MemoryNode :=
  heap.find? (·.immutableReference = key)

def updateByKey (heap : List MemoryNode) (key : Nat) (mutator : MemoryNode → MemoryNode) :
    List MemoryNode :=
  heap.map fun n => if n.immutableReference = key then mutator n else n

def eraseByKey (heap : List MemoryNode) (key : Nat) : List MemoryNode :=
  heap.filter (·.immutableReference ≠ key)

/-- `peek` finds a best node. -/
structure IsPeek (peek : List MemoryNode → Option MemoryNode) : Prop where
  mem : ∀ {heap n}, peek heap = some n → n ∈ heap
  best : ∀ {heap n}, peek heap = some n → ∀ m ∈ heap, memoryNodeComparator n m = true
  none : ∀ {heap}, peek heap = none → heap = []

/-! ## The cache -/

structure ImmutableMemoryCache where
  managementHeap : List MemoryNode
  wantedEvictionSet : List Nat
  occupiedMemorySz : Nat
  autoEvictMemoryThreshold : Nat
  selfPacedClock : Nat
  /-- What the `FreeAllocationHolder`s took. -/
  freeVec : List MemoryNode
deriving DecidableEq, Repr

namespace ImmutableMemoryCache

def MAX_CONSUME_SZ : Nat := 2 ^ 8

def empty (threshold : Nat) : ImmutableMemoryCache := ⟨[], [], 0, threshold, 0, []⟩

variable (peek : List MemoryNode → Option MemoryNode) (c : ImmutableMemoryCache)

def acquireMemoryOne (immutableReference : Nat) :
    Except Stop (ImmutableMemoryCache × Option MemoryReference) :=
  if immutableReference = 0 then .error .abort
  else
    match getByKey c.managementHeap immutableReference with
    | none => .ok (c, none)
    | some memNode =>
      .ok ({ c with
        managementHeap := updateByKey c.managementHeap immutableReference fun n =>
          { n with lastUpdated := c.selfPacedClock, referenceCounter := n.referenceCounter + 1 }
        selfPacedClock := c.selfPacedClock + 1 },
        some ⟨memNode.deviceMemPtr, memNode.deviceMemPtrSz, immutableReference⟩)

def remove (memNode : MemoryNode) (sz : Nat) : ImmutableMemoryCache :=
  { c with
    managementHeap := eraseByKey c.managementHeap memNode.immutableReference
    occupiedMemorySz := c.occupiedMemorySz - sz
    freeVec := c.freeVec ++ [memNode] }

/-- A key leaves the set of the keys to be evicted. -/
def unwant (key : Nat) : ImmutableMemoryCache :=
  { c with wantedEvictionSet := c.wantedEvictionSet.filter (· ≠ key) }

def autoEvict : Nat → ImmutableMemoryCache → Except Stop ImmutableMemoryCache
  | 0, _ => .error .outOfFuel
  | fuel + 1, c =>
    if c.occupiedMemorySz < c.autoEvictMemoryThreshold then .ok c
    else
      match peek c.managementHeap with
      | none => .ok c
      | some memNode =>
        if memNode.referenceCounter ≠ 0 then .ok c
        else autoEvict fuel (c.remove memNode memNode.deviceMemPtrSz)

def push (memNode : MemoryNode) : ImmutableMemoryCache :=
  { c with
    managementHeap := c.managementHeap ++ [memNode]
    occupiedMemorySz := c.occupiedMemorySz + memNode.deviceMemPtrSz
    selfPacedClock := c.selfPacedClock + 1 }

/-- The test before `allocate_from_view` is called. -/
def evictIfFull : Except Stop ImmutableMemoryCache :=
  if c.occupiedMemorySz ≥ c.autoEvictMemoryThreshold then
    autoEvict peek (c.managementHeap.length + 1) c
  else .ok c

/-- `none` if `allocate_from_view` throws. -/
def cacheAndAcquireMemoryOne (arg : CacheAndAcquireArgument) :
    Except Stop (ImmutableMemoryCache × Option MemoryReference) := do
  match ← c.acquireMemoryOne arg.immutableReference with
  | (c, some rs) => .ok (c, some rs)
  | (c, none) =>
    let c ← c.evictIfFull peek
    match arg.allocation with
    | none => .ok (c, none)
    | some deviceMemPtr =>
      .ok (c.push ⟨arg.immutableReference, deviceMemPtr, arg.hostMemorySz, c.selfPacedClock, 1⟩,
        some ⟨deviceMemPtr, arg.hostMemorySz, arg.immutableReference⟩)

def releaseMemoryOne (memoryReference : MemoryReference) : Except Stop ImmutableMemoryCache :=
  match getByKey c.managementHeap memoryReference.internalKey with
  | none => .error .abort
  | some memNode =>
    if memNode.referenceCounter = 0 then .error .abort
    else
      let memNode := { memNode with referenceCounter := memNode.referenceCounter - 1 }
      let managementHeap :=
        updateByKey c.managementHeap memoryReference.internalKey fun _ => memNode
      let c := { c with managementHeap }
      if memNode.referenceCounter = 0 ∧ memoryReference.internalKey ∈ c.wantedEvictionSet then
        .ok (c.remove memNode memoryReference.ptrMemSz |>.unwant memoryReference.internalKey)
      else .ok c

def evictMemoryOne (immutableReference : Nat) : ImmutableMemoryCache :=
  match getByKey c.managementHeap immutableReference with
  | none => c
  | some memNode =>
    if memNode.referenceCounter = 0 then c.remove memNode memNode.deviceMemPtrSz
    else { c with wantedEvictionSet := c.wantedEvictionSet.insert immutableReference }

/-! ## Batches -/

def acquireMemory (immutableReferenceArr : List Nat) :
    Except Stop (ImmutableMemoryCache × List (Option MemoryReference)) :=
  if immutableReferenceArr.length > MAX_CONSUME_SZ then .error .abort
  else immutableReferenceArr.foldlM (fun (c, outputArr) immutableReference => do
    let (c, rs) ← c.acquireMemoryOne immutableReference
    .ok (c, outputArr ++ [rs])) (c, [])

/-- `holds`: the thread holds the mutex. -/
def releaseMemory (holds : Bool) (referenceArr : List MemoryReference) :
    Except Stop ImmutableMemoryCache :=
  if referenceArr.length > MAX_CONSUME_SZ then .error .abort
  else if holds then .error .deadlock
  else do
    let c ← referenceArr.foldlM releaseMemoryOne c
    autoEvict peek (c.managementHeap.length + 1) c

/-- The loop of `cache_and_acquire_memory` and its `catch`; `resultArr` is what was acquired so far. -/
def cacheAndAcquireLoop : ImmutableMemoryCache → List MemoryReference → List CacheAndAcquireArgument →
    Except Stop (ImmutableMemoryCache × Option (List MemoryReference))
  | c, resultArr, [] => .ok (c, some resultArr)
  | c, resultArr, arg :: argArr => do
    match ← c.cacheAndAcquireMemoryOne peek arg with
    | (c, some rs) => cacheAndAcquireLoop c (resultArr ++ [rs]) argArr
    | (c, none) =>
      let c ← c.releaseMemory peek true resultArr
      .ok (c, none)

/-- `none` if the call throws. -/
def cacheAndAcquireMemory (argArr : List CacheAndAcquireArgument) :
    Except Stop (ImmutableMemoryCache × Option (List MemoryReference)) :=
  if argArr.length > MAX_CONSUME_SZ then .error .abort else cacheAndAcquireLoop peek c [] argArr

def evictMemory (immutableReferenceArr : List Nat) : Except Stop ImmutableMemoryCache :=
  if immutableReferenceArr.length > MAX_CONSUME_SZ then .error .abort
  else .ok (immutableReferenceArr.foldl evictMemoryOne c)

end ImmutableMemoryCache

/-! ## Callers -/

inductive ImmutableMemoryCall where
  | acquireMemory (immutableReferenceArr : List Nat)
  | cacheAndAcquireMemory (argArr : List CacheAndAcquireArgument)
  | releaseMemory (referenceArr : List MemoryReference)
  | evictMemory (immutableReferenceArr : List Nat)
deriving DecidableEq, Repr

/-- The cache and the references that were handed out and not released. -/
structure ReferenceWorld where
  cache : ImmutableMemoryCache
  handedOut : List MemoryReference
deriving DecidableEq, Repr

namespace ReferenceWorld

def empty (threshold : Nat) : ReferenceWorld := ⟨.empty threshold, []⟩

variable (peek : List MemoryNode → Option MemoryNode) (w : ReferenceWorld)

/-- A batch is not too large, acquires no null reference, and releases references that were handed out,
each once. -/
def Allowed : ImmutableMemoryCall → Prop
  | .acquireMemory arr => arr.length ≤ ImmutableMemoryCache.MAX_CONSUME_SZ ∧ 0 ∉ arr
  | .cacheAndAcquireMemory arr =>
    arr.length ≤ ImmutableMemoryCache.MAX_CONSUME_SZ ∧ ∀ arg ∈ arr, arg.immutableReference ≠ 0
  | .releaseMemory arr => arr.length ≤ ImmutableMemoryCache.MAX_CONSUME_SZ ∧ arr.Subperm w.handedOut
  | .evictMemory arr => arr.length ≤ ImmutableMemoryCache.MAX_CONSUME_SZ

def apply : ImmutableMemoryCall → Except Stop ReferenceWorld
  | .acquireMemory arr => do
    let (cache, outputArr) ← w.cache.acquireMemory arr
    .ok ⟨cache, w.handedOut ++ outputArr.filterMap id⟩
  | .cacheAndAcquireMemory arr => do
    let (cache, resultArr) ← w.cache.cacheAndAcquireMemory peek arr
    .ok ⟨cache, w.handedOut ++ resultArr.getD []⟩
  | .releaseMemory arr => do
    let cache ← w.cache.releaseMemory peek false arr
    .ok ⟨cache, w.handedOut.diff arr⟩
  | .evictMemory arr => do
    let cache ← w.cache.evictMemory arr
    .ok ⟨cache, w.handedOut⟩

end ReferenceWorld
end MultiplatformMemoryX
