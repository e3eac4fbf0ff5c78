import NeuralNetwork.Lib.Cpp
import NeuralNetwork.Lib.DaryHeap
import NeuralNetwork.Lib.Loop
import NeuralNetwork.Lib.Run

/-!
# CudaImmutableMemoryCache

The cache of `src/memory_management/immutable_multiplatform_memory.h`: a binary heap of nodes, the least
referenced and then the least recently used first, and a map from a reference to its node. Before a new
node is put in, nodes that nobody holds are evicted until less than a threshold is kept. A `Call` comes
with the times that it reads and what the allocator returns. `LruCache` says what the cache is for.
-/

namespace MultiplatformMemory

open Cpp Loop

structure HeapNode where
  cudaMemPtr : Nat
  cudaMemPtrSz : Nat
  lastUpdated : Int
  referenceCounter : Nat
  /-- The address of the reference, which is also its key. -/
  reverseReference : Nat
deriving DecidableEq, Repr

structure MemoryReference where
  devicePtr : Nat
  ptrMemSz : Nat
  internalKey : Nat
deriving DecidableEq, Repr

/-- The `heap_idx` of a node stands apart from the rest of it. -/
structure CudaImmutableMemoryCache where
  referenceMap : Nat → Option Nat
  /-- The addresses of the nodes. -/
  heapNodeVec : List Nat
  node : Nat → HeapNode
  heapIdx : Nat → Nat
  autoEvictMemorySz : Nat
  nextAddr : Nat

namespace CudaImmutableMemoryCache

def empty : CudaImmutableMemoryCache where
  referenceMap _ := none
  heapNodeVec := []
  node _ := ⟨0, 0, 0, 0, 0⟩
  heapIdx _ := 0
  autoEvictMemorySz := 0
  nextAddr := 0

/-! ## The heap -/

def rankAt (c : CudaImmutableMemoryCache) (i : Nat) : Option (Nat × Int) :=
  (c.heapNodeVec[i]?).map fun a => ((c.node a).referenceCounter, (c.node a).lastUpdated)

/-- `is_better` on the reference counters and the times of two nodes. -/
def isBetter (lhs rhs : Nat × Int) : Bool :=
  if lhs.1 < rhs.1 then true
  else if lhs.1 > rhs.1 then false
  else if lhs.2 < rhs.2 then true
  else false

def better (c : CudaImmutableMemoryCache) (i j : Nat) : Bool :=
  DaryHeap.noWorse isBetter (c.rankAt i) (c.rankAt j)

/-- The indices after those of two nodes were swapped. -/
def swapIndex (c : CudaImmutableMemoryCache) (a b : Nat) : Nat → Nat :=
  fun x => if x = b then c.heapIdx a else if x = a then c.heapIdx b else c.heapIdx x

def swapHeapNode (c : CudaImmutableMemoryCache) (i j : Nat) : Except Fault CudaImmutableMemoryCache :=
  match c.heapNodeVec[i]?, c.heapNodeVec[j]? with
  | some lhs, some rhs =>
    .ok { c with
      heapNodeVec := (c.heapNodeVec.set i rhs).set j lhs
      heapIdx := c.swapIndex lhs rhs }
  | _, _ => .error .outOfBounds

def pushUpAt : Nat → CudaImmutableMemoryCache → Nat → Except Fault CudaImmutableMemoryCache
  | 0, _, _ => .error .outOfFuel
  | fuel + 1, c, idx =>
    if idx ≥ c.heapNodeVec.length then .error .abort
    else if idx = 0 then .ok c
    else
      let parentIdx := (idx - 1) / 2
      if c.better parentIdx idx then .ok c
      else do
        let c ← c.swapHeapNode parentIdx idx
        pushUpAt fuel c parentIdx

def pushDownAt : Nat → CudaImmutableMemoryCache → Nat → Except Fault CudaImmutableMemoryCache
  | 0, _, _ => .error .outOfFuel
  | fuel + 1, c, idx =>
    if idx ≥ c.heapNodeVec.length then .error .abort
    else
      let cand := idx * 2 + 1
      if cand ≥ c.heapNodeVec.length then .ok c
      else
        let cand := if cand + 1 < c.heapNodeVec.length ∧ c.better (cand + 1) cand = true
          then cand + 1 else cand
        if c.better idx cand then .ok c
        else do
          let c ← c.swapHeapNode idx cand
          pushDownAt fuel c cand

def correctAt (c : CudaImmutableMemoryCache) (idx : Nat) : Except Fault CudaImmutableMemoryCache := do
  let c ← c.pushUpAt (idx + 1) idx
  c.pushDownAt c.heapNodeVec.length idx

def updateHeapNode (c : CudaImmutableMemoryCache) (addr : Nat) : Except Fault CudaImmutableMemoryCache :=
  c.correctAt (c.heapIdx addr)

/-! ## Calls -/

/-- The counter and the time of a node are written. -/
def touch (c : CudaImmutableMemoryCache) (addr counter : Nat) (now : Int) : CudaImmutableMemoryCache :=
  { c with node := fun a =>
      if a = addr then { c.node addr with referenceCounter := counter, lastUpdated := now } else c.node a }

def memoryReference (c : CudaImmutableMemoryCache) (addr referenceAddr : Nat) : MemoryReference where
  devicePtr := (c.node addr).cudaMemPtr
  ptrMemSz := (c.node addr).cudaMemPtrSz
  internalKey := referenceAddr

def hold (c : CudaImmutableMemoryCache) (addr : Nat) (now : Int) : Except Fault CudaImmutableMemoryCache :=
  (c.touch addr ((c.node addr).referenceCounter + 1) now).updateHeapNode addr

def acquireMemory (c : CudaImmutableMemoryCache) (immutableReference : Nat) (now : Int) :
    Except Fault (CudaImmutableMemoryCache × Option MemoryReference) :=
  if immutableReference = 0 then .error .abort
  else
    match c.referenceMap immutableReference with
    | none => .ok (c, none)
    | some addr => do
      let c ← c.hold addr now
      .ok (c, some (c.memoryReference addr immutableReference))

def popBack (c : CudaImmutableMemoryCache) : CudaImmutableMemoryCache :=
  { c with heapNodeVec := c.heapNodeVec.dropLast }

/-- A node leaves the map, and its memory is no longer counted. -/
def forget (c : CudaImmutableMemoryCache) (referenceAddr sz : Nat) : CudaImmutableMemoryCache :=
  { c with
    referenceMap := fun ref => if ref = referenceAddr then none else c.referenceMap ref
    autoEvictMemorySz := c.autoEvictMemorySz - sz }

def internalEvictMemory (c : CudaImmutableMemoryCache) (referenceAddr : Nat) :
    Except Fault (CudaImmutableMemoryCache × Bool) :=
  match c.referenceMap referenceAddr with
  | none => .ok (c, true)
  | some addr =>
    if (c.node addr).referenceCounter ≠ 0 then .ok (c, false)
    else do
      let positionalIdx := c.heapIdx addr
      let c := c.forget referenceAddr (c.node addr).cudaMemPtrSz
      let c ← c.swapHeapNode positionalIdx (c.heapNodeVec.length - 1)
      let c := c.popBack
      if positionalIdx < c.heapNodeVec.length then (c.correctAt positionalIdx).map (·, true)
      else .ok (c, true)

def autoEvict (threshold : Nat) :
    Nat → CudaImmutableMemoryCache → Except Fault CudaImmutableMemoryCache
  | 0, _ => .error .outOfFuel
  | fuel + 1, c =>
    if c.autoEvictMemorySz < threshold then .ok c
    else
      match c.heapNodeVec with
      | [] => .ok c
      | front :: _ =>
        if (c.node front).referenceCounter ≠ 0 then .ok c
        else do
          let (c, evictStatus) ← c.internalEvictMemory (c.node front).reverseReference
          if evictStatus then autoEvict threshold fuel c else .error .abort

def pushBack (c : CudaImmutableMemoryCache) (node : HeapNode) : CudaImmutableMemoryCache :=
  { c with
    heapNodeVec := c.heapNodeVec ++ [c.nextAddr]
    node := fun a => if a = c.nextAddr then node else c.node a
    heapIdx := fun a => if a = c.nextAddr then c.heapNodeVec.length else c.heapIdx a
    nextAddr := c.nextAddr + 1 }

/-- The memory of a node is counted, and the node enters the map. -/
def remember (c : CudaImmutableMemoryCache) (referenceAddr addr sz : Nat) : CudaImmutableMemoryCache :=
  { c with
    referenceMap := fun ref => if ref = referenceAddr then some addr else c.referenceMap ref
    autoEvictMemorySz := c.autoEvictMemorySz + sz }

/-- A reference that the cache does not have is put in; its address is returned. -/
def insert (threshold : Nat) (c : CudaImmutableMemoryCache) (immutableReference cuMem memSz : Nat)
    (now : Int) : Except Fault (CudaImmutableMemoryCache × Nat) := do
  let c ← autoEvict threshold (c.heapNodeVec.length + 1) c
  let heapAddr := c.nextAddr
  let c := c.pushBack {
    cudaMemPtr := cuMem
    cudaMemPtrSz := memSz
    lastUpdated := now
    referenceCounter := 0
    reverseReference := immutableReference }
  let c ← c.pushUpAt c.heapNodeVec.length (c.heapNodeVec.length - 1)
  .ok (c.remember immutableReference heapAddr memSz, heapAddr)

/-- `allocated` is what `allocate_from_view` returns for a view of size `memSz`; `none` if it throws. -/
def cacheNAcquireMemory (threshold : Nat) (c : CudaImmutableMemoryCache) (immutableReference memSz : Nat)
    (allocated : Option Nat) (inserted now : Int) :
    Except Fault (CudaImmutableMemoryCache × Option MemoryReference) :=
  if immutableReference = 0 then .error .abort
  else
    match allocated with
    | none => .ok (c, none)
    | some cuMem => do
      let (c, addr) ← match c.referenceMap immutableReference with
        | some addr => .ok (c, addr)
        | none => c.insert threshold immutableReference cuMem memSz inserted
      let c ← c.hold addr now
      .ok (c, some (c.memoryReference addr immutableReference))

def releaseMemory (c : CudaImmutableMemoryCache) (memoryReference : MemoryReference) (now : Int) :
    Except Fault CudaImmutableMemoryCache :=
  match c.referenceMap memoryReference.internalKey with
  | none => .error .abort
  | some addr =>
    if (c.node addr).referenceCounter = 0 then .error .abort
    else (c.touch addr ((c.node addr).referenceCounter - 1) now).updateHeapNode addr

def evictMemory (c : CudaImmutableMemoryCache) (immutableReference : Nat) :
    Except Fault (CudaImmutableMemoryCache × Bool) :=
  if immutableReference = 0 then .error .abort else c.internalEvictMemory immutableReference

end CudaImmutableMemoryCache

/-! ## Runs -/

inductive CacheCall where
  | acquireMemory (immutableReference : Nat) (now : Int)
  | cacheNAcquireMemory (immutableReference memSz : Nat) (allocated : Option Nat) (inserted now : Int)
  | releaseMemory (memoryReference : MemoryReference) (now : Int)
  | evictMemory (immutableReference : Nat)

inductive CacheResponse where
  /-- Nothing if the reference is not kept, or if the allocator throws. -/
  | acquired (memoryReference : Option MemoryReference)
  | released
  | evicted (status : Bool)
deriving DecidableEq, Repr

def CudaImmutableMemoryCache.apply (threshold : Nat) (c : CudaImmutableMemoryCache) :
    CacheCall → Except Fault (CudaImmutableMemoryCache × CacheResponse)
  | .acquireMemory ref now => (c.acquireMemory ref now).map fun (c, mr) => (c, .acquired mr)
  | .cacheNAcquireMemory ref memSz allocated inserted now =>
    (c.cacheNAcquireMemory threshold ref memSz allocated inserted now).map fun (c, mr) => (c, .acquired mr)
  | .releaseMemory mr now => (c.releaseMemory mr now).map (·, .released)
  | .evictMemory ref => (c.evictMemory ref).map fun (c, status) => (c, .evicted status)

/-- The cache and the references that were handed out and not released. -/
structure CacheWorld where
  cache : CudaImmutableMemoryCache
  handedOut : List MemoryReference

def CacheWorld.handOut (w : CacheWorld) (call : CacheCall) (response : CacheResponse) :
    List MemoryReference :=
  match call, response with
  | .releaseMemory mr _, _ => w.handedOut.erase mr
  | _, .acquired (some mr) => mr :: w.handedOut
  | _, _ => w.handedOut

/-- Callers pass references to memory, and release what was handed out to them. -/
def CacheWorld.Allowed (w : CacheWorld) : CacheCall → Prop
  | .acquireMemory ref _ => ref ≠ 0
  | .cacheNAcquireMemory ref _ _ _ _ => ref ≠ 0
  | .releaseMemory mr _ => mr ∈ w.handedOut
  | .evictMemory ref => ref ≠ 0

def CacheWorld.Step (threshold : Nat) (w : CacheWorld) (call : CacheCall × CacheResponse)
    (w' : CacheWorld) : Prop :=
  w.Allowed call.1 ∧ w.cache.apply threshold call.1 = .ok (w'.cache, call.2) ∧
    w'.handedOut = w.handOut call.1 call.2

/-! ## What the cache is for -/

structure CacheEntry where
  devicePtr : Nat
  size : Nat
  lastUpdated : Int
  referenceCounter : Nat
deriving DecidableEq, Repr

/-- The entries by key, and how much memory they take. -/
structure LruCache where
  entry : Nat → Option CacheEntry
  size : Nat

namespace LruCache

def empty : LruCache := ⟨fun _ => none, 0⟩

def put (c : LruCache) (key : Nat) (e : CacheEntry) : LruCache :=
  { c with entry := fun k => if k = key then some e else c.entry k }

def remove (c : LruCache) (key : Nat) (e : CacheEntry) : LruCache where
  entry k := if k = key then none else c.entry k
  size := c.size - e.size

def add (c : LruCache) (key : Nat) (e : CacheEntry) : LruCache where
  entry k := if k = key then some e else c.entry k
  size := c.size + e.size

/-- The entry that was not used for the longest time, of those that nobody holds. -/
def IsOldest (c : LruCache) (key : Nat) (e : CacheEntry) : Prop :=
  c.entry key = some e ∧ e.referenceCounter = 0 ∧
    ∀ k e', c.entry k = some e' → e'.referenceCounter = 0 → e.lastUpdated ≤ e'.lastUpdated

/-- The oldest entries leave until less than a threshold is kept, or only entries that are held. -/
inductive AutoEvict (threshold : Nat) : LruCache → LruCache → Prop
  | stop {c : LruCache} :
      (c.size < threshold ∨ ∀ k e, c.entry k = some e → 0 < e.referenceCounter) → AutoEvict threshold c c
  | evict {c c' : LruCache} {key : Nat} {e : CacheEntry} : threshold ≤ c.size → c.IsOldest key e →
      AutoEvict threshold (c.remove key e) c' → AutoEvict threshold c c'

def Hold (c : LruCache) (key : Nat) (e : CacheEntry) (now : Int) (response : CacheResponse)
    (c' : LruCache) : Prop :=
  response = .acquired (some ⟨e.devicePtr, e.size, key⟩) ∧
    c' = c.put key { e with referenceCounter := e.referenceCounter + 1, lastUpdated := now }

def Step (threshold : Nat) (c : LruCache) (call : CacheCall × CacheResponse) (c' : LruCache) : Prop :=
  match call with
  | (.acquireMemory ref now, response) =>
    match c.entry ref with
    | none => response = .acquired none ∧ c' = c
    | some e => c.Hold ref e now response c'
  | (.cacheNAcquireMemory _ _ none _ _, response) => response = .acquired none ∧ c' = c
  | (.cacheNAcquireMemory ref memSz (some ptr) inserted now, response) =>
    match c.entry ref with
    | some e => c.Hold ref e now response c'
    | none => ∃ c1, AutoEvict threshold c c1 ∧
        (c1.add ref ⟨ptr, memSz, inserted, 0⟩).Hold ref ⟨ptr, memSz, inserted, 0⟩ now response c'
  | (.releaseMemory mr now, response) => ∃ e, c.entry mr.internalKey = some e ∧ 0 < e.referenceCounter ∧
      response = .released ∧
      c' = c.put mr.internalKey { e with referenceCounter := e.referenceCounter - 1, lastUpdated := now }
  | (.evictMemory ref, response) =>
    match c.entry ref with
    | none => response = .evicted true ∧ c' = c
    | some e =>
      if e.referenceCounter = 0 then response = .evicted true ∧ c' = c.remove ref e
      else response = .evicted false ∧ c' = c

end LruCache

end MultiplatformMemory
