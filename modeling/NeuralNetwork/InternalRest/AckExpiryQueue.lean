import NeuralNetwork.Lib.Loop
import NeuralNetwork.InternalRest.Mailbox.Model

/-!
# temporal_ordered_item_map

The map of `internal_rest/network_ack_expiry_queue.h`: a binary heap of nodes by their time, and an
index from the id of an item to its node. A `std::unique_ptr<HeapNode>` is the number of its node; the
constructor makes all nodes. Times are the ticks of a `std::chrono::time_point`.
-/

namespace ExpiryQueue

open Cpp Loop Mailbox

structure HeapNode (T : Type) where
  item : T
  schedTime : Int
  heapIdx : Nat

structure TemporalOrderedItemMap (K T : Type) where
  nodes : Nat → HeapNode T
  idHeapMap : List (K × Nat)
  temporalHeap : List Nat
  temporalHeapSz : Nat

namespace TemporalOrderedItemMap

variable {K T : Type}

def make [Inhabited T] (cap : Nat) : TemporalOrderedItemMap K T :=
  ⟨fun _ => ⟨default, 0, 0⟩, [], List.range cap, 0⟩

variable (debug : Bool) (m : TemporalOrderedItemMap K T)

def size : Nat := m.temporalHeapSz

def capacity : Nat := m.temporalHeap.length

def entries : List (T × Int) :=
  m.idHeapMap.map fun entry => ((m.nodes entry.2).item, (m.nodes entry.2).schedTime)

/-! ## The heap -/

/-- `if constexpr(DEBUG_MODE_FLAG)`: the index of a node in the heap. -/
def checkIdx (idx : Nat) : Except Fault Unit :=
  if debug ∧ idx ≥ m.temporalHeapSz then .error .abort else .ok ()

def slot (idx : Nat) : Except Fault Nat :=
  match m.temporalHeap[idx]? with
  | some p => .ok p
  | none => .error .outOfBounds

def setNode (p : Nat) (node : HeapNode T) : TemporalOrderedItemMap K T :=
  { m with nodes := Function.update m.nodes p node }

def nullifyHeapNode [Inhabited T] (idx : Nat) : Except Fault (TemporalOrderedItemMap K T) := do
  let p ← m.slot idx
  .ok (m.setNode p ⟨default, 0, 0⟩)

/-- `swap_heap_node(temporal_heap[i], temporal_heap[j])`. -/
def swapHeapNode (i j : Nat) : Except Fault (TemporalOrderedItemMap K T) := do
  let lhs ← m.slot i
  let rhs ← m.slot j
  let lhsIdx := (m.nodes lhs).heapIdx
  let rhsIdx := (m.nodes rhs).heapIdx
  let m := m.setNode lhs { m.nodes lhs with heapIdx := rhsIdx }
  let m := m.setNode rhs { m.nodes rhs with heapIdx := lhsIdx }
  .ok { m with temporalHeap := (m.temporalHeap.set i rhs).set j lhs }

/-- `is_less_than(temporal_heap[i], temporal_heap[j])`. -/
def isLessThan (i j : Nat) : Except Fault Bool := do
  let lhs ← m.slot i
  let rhs ← m.slot j
  .ok (decide ((m.nodes lhs).schedTime < (m.nodes rhs).schedTime))

/-- `correct_heap_node_up_at`; the index gets smaller. -/
def upFrom (debug : Bool) :
    Nat → TemporalOrderedItemMap K T → Nat → Except Fault (TemporalOrderedItemMap K T)
  | 0, _, _ => .error .outOfFuel
  | fuel + 1, m, idx => do
    m.checkIdx debug idx
    if idx = 0 then .ok m
    else do
      let parentIdx := (idx - 1) >>> 1
      let less ← m.isLessThan idx parentIdx
      if ¬ less then .ok m
      else do
        let m ← m.swapHeapNode idx parentIdx
        upFrom debug fuel m parentIdx

def correctHeapNodeUpAt (idx : Nat) : Except Fault (TemporalOrderedItemMap K T) :=
  upFrom debug (idx + 1) m idx

/-- `correct_heap_node_down_at`; the index gets larger, up to the size of the heap. -/
def downFrom (debug : Bool) :
    Nat → TemporalOrderedItemMap K T → Nat → Except Fault (TemporalOrderedItemMap K T)
  | 0, _, _ => .error .outOfFuel
  | fuel + 1, m, idx => do
    m.checkIdx debug idx
    let candIdx := idx * 2 + 1
    if candIdx ≥ m.temporalHeapSz then .ok m
    else do
      let right ← (if candIdx + 1 < m.temporalHeapSz then m.isLessThan (candIdx + 1) candIdx
        else .ok false)
      let candIdx := if right then candIdx + 1 else candIdx
      let less ← m.isLessThan candIdx idx
      if ¬ less then .ok m
      else do
        let m ← m.swapHeapNode idx candIdx
        downFrom debug fuel m candIdx

def correctHeapNodeDownAt (idx : Nat) : Except Fault (TemporalOrderedItemMap K T) :=
  downFrom debug (m.temporalHeapSz + 1) m idx

def correctHeapNodeAt (idx : Nat) : Except Fault (TemporalOrderedItemMap K T) := do
  m.checkIdx debug idx
  let m ← m.correctHeapNodeUpAt debug idx
  m.correctHeapNodeDownAt debug idx

/-- `add_heap_node`, with the new node; the copy of the item does not throw. -/
def addHeapNode (item : T) (schedTime : Int) :
    Except Fault (TemporalOrderedItemMap K T × Except ExceptionT Nat) :=
  if m.temporalHeapSz = m.temporalHeap.length then .ok (m, .error .resourceExhaustion)
  else do
    let p ← m.slot m.temporalHeapSz
    let m := m.setNode p ⟨item, schedTime, m.temporalHeapSz⟩
    let m := { m with temporalHeapSz := m.temporalHeapSz + 1 }
    let m ← m.correctHeapNodeUpAt debug (m.temporalHeapSz - 1)
    .ok (m, .ok p)

def eraseHeapNodeAt [Inhabited T] (idx : Nat) : Except Fault (TemporalOrderedItemMap K T) := do
  m.checkIdx debug idx
  let backNodeIdx := subT m.temporalHeapSz 1
  if backNodeIdx = idx then do
    let m ← m.nullifyHeapNode backNodeIdx
    .ok { m with temporalHeapSz := subT m.temporalHeapSz 1 }
  else do
    let m ← m.swapHeapNode idx backNodeIdx
    let m ← m.nullifyHeapNode backNodeIdx
    let m := { m with temporalHeapSz := subT m.temporalHeapSz 1 }
    m.correctHeapNodeAt debug idx

def popHeapNode [Inhabited T] : Except Fault (TemporalOrderedItemMap K T) := do
  m.checkIdx debug 0
  let backNodeIdx := subT m.temporalHeapSz 1
  if backNodeIdx = 0 then do
    let m ← m.nullifyHeapNode backNodeIdx
    .ok { m with temporalHeapSz := subT m.temporalHeapSz 1 }
  else do
    let m ← m.swapHeapNode 0 backNodeIdx
    let m ← m.nullifyHeapNode backNodeIdx
    let m := { m with temporalHeapSz := subT m.temporalHeapSz 1 }
    m.correctHeapNodeDownAt debug 0

/-! ## The map -/

variable [DecidableEq K] (getId : T → K)

def find (id : K) : Option Nat := m.idHeapMap.lookup id

/-- `id_heap_map.erase(id)`. -/
def eraseId (id : K) : TemporalOrderedItemMap K T :=
  { m with idHeapMap := m.idHeapMap.filter fun entry => entry.1 ≠ id }

def add (item : T) (expiryTime : Int) :
    Except Fault (TemporalOrderedItemMap K T × ExceptionT) :=
  match m.find (getId item) with
  | some _ => .ok (m, .duplicatedEntry)
  | none => do
    let (m, referenceNode) ← m.addHeapNode debug item expiryTime
    match referenceNode with
    | .error err => .ok (m, err)
    | .ok p =>
      .ok ({ m with idHeapMap := m.idHeapMap ++ [(getId (m.nodes p).item, p)] }, .success)

def update (itemId : K) (expiryTime : Int) :
    Except Fault (TemporalOrderedItemMap K T × ExceptionT) :=
  match m.find itemId with
  | none => .ok (m, .invalidDictionaryKey)
  | some p => do
    let m := m.setNode p { m.nodes p with schedTime := expiryTime }
    let m ← m.correctHeapNodeAt debug (m.nodes p).heapIdx
    .ok (m, .success)

def addOrUpdate (item : T) (expiryTime : Int) :
    Except Fault (TemporalOrderedItemMap K T × ExceptionT) :=
  if (m.find (getId item)).isSome then m.update debug (getId item) expiryTime
  else m.add debug getId item expiryTime

def hasExpiredItem (timeBar : Int) : Except Fault Bool :=
  if m.temporalHeapSz = 0 then .ok false
  else do
    let p ← m.slot 0
    .ok (decide ((m.nodes p).schedTime < timeBar))

variable [Inhabited T]

def erase (itemId : K) : Except Fault (TemporalOrderedItemMap K T) :=
  match m.find itemId with
  | none => .ok m
  | some p => (m.eraseId itemId).eraseHeapNodeAt debug (m.nodes p).heapIdx

def getExpiredItem (timeBar : Int) : Except Fault (TemporalOrderedItemMap K T × Option T) :=
  if m.temporalHeapSz = 0 then .ok (m, none)
  else do
    let p ← m.slot 0
    if (m.nodes p).schedTime ≥ timeBar then .ok (m, none)
    else do
      let result := (m.nodes p).item
      let m ← (m.eraseId (getId result)).popHeapNode debug
      .ok (m, some result)

end TemporalOrderedItemMap

end ExpiryQueue
