import Mathlib.Data.Finset.Card
import NeuralNetwork.InternalRest.AckExpiryQueue
import NeuralNetwork.Lib.DaryHeap

/-!
# temporal_ordered_item_map_2

The second map of `internal_rest/network_ack_expiry_queue.h`: a heap of nodes of any out-degree, kept in
the vector itself. Each node has the address of an index, a cell of `heapIdxContainer`, and
`idHeapMap` gives the address for the id of an item. `ItemStore` says what this map and the first one
are for: it keeps an item and its time for each id, and `Call` lists the calls on either.
-/

namespace ExpiryQueue

open Cpp Loop Mailbox

structure HeapNode2 (T : Type) where
  schedTime : Int
  /-- The cell of its index. -/
  heapIdx : Nat
  item : Option T
deriving DecidableEq, Repr

structure TemporalOrderedItemMap2 (K T : Type) where
  heapIdxContainer : List Nat
  idHeapMap : K → Option Nat
  temporalHeap : List (HeapNode2 T)
  temporalHeapSz : Nat

namespace TemporalOrderedItemMap2

variable {K T : Type}

def make (cap : Nat) : TemporalOrderedItemMap2 K T where
  heapIdxContainer := List.range cap
  idHeapMap _ := none
  temporalHeap := (List.range cap).map fun i => ⟨0, i, none⟩
  temporalHeapSz := 0

variable (OUTDEGREE_SZ : Nat) (debug : Bool) (m : TemporalOrderedItemMap2 K T)

def size : Nat := m.temporalHeapSz

def capacity : Nat := m.temporalHeap.length

/-! ## The heap -/

/-- `if constexpr(DEBUG_MODE_FLAG)`: the index of a node in the heap. -/
def checkIdx (idx : Nat) : Except Fault Unit :=
  if debug ∧ idx ≥ m.temporalHeapSz then .error .abort else .ok ()

def node (idx : Nat) : Except Fault (HeapNode2 T) :=
  match m.temporalHeap[idx]? with
  | some n => .ok n
  | none => .error .outOfBounds

def deref (heapIdx : Nat) : Except Fault Nat :=
  match m.heapIdxContainer[heapIdx]? with
  | some idx => .ok idx
  | none => .error .outOfBounds

def schedTimeAt (idx : Nat) : Option Int := (m.temporalHeap[idx]?).map HeapNode2.schedTime

/-- `swap_heap_node(temporal_heap[i], temporal_heap[j])`. -/
def swapHeapNode (i j : Nat) : Except Fault (TemporalOrderedItemMap2 K T) := do
  let lhs ← m.node i
  let rhs ← m.node j
  let lhsIdx ← m.deref lhs.heapIdx
  let rhsIdx ← m.deref rhs.heapIdx
  .ok { m with
    heapIdxContainer := (m.heapIdxContainer.set lhs.heapIdx rhsIdx).set rhs.heapIdx lhsIdx
    temporalHeap := (m.temporalHeap.set i rhs).set j lhs }

/-- `is_equal_better(temporal_heap[i], temporal_heap[j])`. -/
def isEqualBetter (i j : Nat) : Bool :=
  DaryHeap.noWorse (fun a b => decide (a ≤ b)) (m.schedTimeAt i) (m.schedTimeAt j)

/-- `correct_heap_node_up_at`; the index gets smaller. -/
def upFrom (OUTDEGREE_SZ : Nat) (debug : Bool) :
    Nat → TemporalOrderedItemMap2 K T → Nat → Except Fault (TemporalOrderedItemMap2 K T)
  | 0, _, _ => .error .outOfFuel
  | fuel + 1, m, idx => do
    m.checkIdx debug idx
    if idx = 0 then .ok m
    else
      let parentIdx := (idx - 1) / OUTDEGREE_SZ
      if m.isEqualBetter parentIdx idx then .ok m
      else do
        let m ← m.swapHeapNode parentIdx idx
        upFrom OUTDEGREE_SZ debug fuel m parentIdx

def correctHeapNodeUpAt (idx : Nat) : Except Fault (TemporalOrderedItemMap2 K T) :=
  upFrom OUTDEGREE_SZ debug (idx + 1) m idx

/-- `correct_heap_node_down_at`; the index gets larger, up to the size of the heap. -/
def downFrom (OUTDEGREE_SZ : Nat) (debug : Bool) :
    Nat → TemporalOrderedItemMap2 K T → Nat → Except Fault (TemporalOrderedItemMap2 K T)
  | 0, _, _ => .error .outOfFuel
  | fuel + 1, m, idx => do
    m.checkIdx debug idx
    match DaryHeap.bestChild m.isEqualBetter OUTDEGREE_SZ m.temporalHeapSz idx with
    | none => .ok m
    | some candIdx =>
      if m.isEqualBetter idx candIdx then .ok m
      else do
        let m ← m.swapHeapNode idx candIdx
        downFrom OUTDEGREE_SZ debug fuel m candIdx

def correctHeapNodeDownAt (idx : Nat) : Except Fault (TemporalOrderedItemMap2 K T) :=
  downFrom OUTDEGREE_SZ debug (m.temporalHeapSz + 1) m idx

def correctHeapNodeAt (idx : Nat) : Except Fault (TemporalOrderedItemMap2 K T) := do
  let m ← m.correctHeapNodeUpAt OUTDEGREE_SZ debug idx
  m.correctHeapNodeDownAt OUTDEGREE_SZ debug idx

def setNode (idx : Nat) (n : HeapNode2 T) : TemporalOrderedItemMap2 K T :=
  { m with temporalHeap := m.temporalHeap.set idx n }

/-- `if constexpr(DEBUG_MODE_FLAG)`: a node knows its place. -/
def checkPlace (n : HeapNode2 T) (idx : Nat) : Except Fault Unit := do
  let place ← m.deref n.heapIdx
  if debug ∧ place ≠ idx then .error .abort else .ok ()

/-- `enqueue_back_heap_node`; the copy of the item does not throw. -/
def enqueueBackHeapNode (item : T) (schedTime : Int) :
    Except Fault (TemporalOrderedItemMap2 K T × ExceptionT) :=
  if m.temporalHeapSz = m.temporalHeap.length then .ok (m, .resourceExhaustion)
  else do
    let n ← m.node m.temporalHeapSz
    let m := m.setNode m.temporalHeapSz { n with item := some item, schedTime := schedTime }
    m.checkPlace debug n m.temporalHeapSz
    .ok ({ m with temporalHeapSz := m.temporalHeapSz + 1 }, .success)

def decomissionBackHeapNode : Except Fault (TemporalOrderedItemMap2 K T) :=
  if debug ∧ m.temporalHeapSz = 0 then .error .abort
  else do
    let backIdx := subT m.temporalHeapSz 1
    let n ← m.node backIdx
    m.checkPlace debug n backIdx
    let m := m.setNode backIdx { n with item := none, schedTime := 0 }
    .ok { m with temporalHeapSz := subT m.temporalHeapSz 1 }

def eraseHeapNodeAt (idx : Nat) : Except Fault (TemporalOrderedItemMap2 K T) := do
  m.checkIdx debug idx
  let backNodeIdx := subT m.temporalHeapSz 1
  let m ← m.swapHeapNode idx backNodeIdx
  let m ← m.decomissionBackHeapNode debug
  if idx < m.temporalHeapSz then m.correctHeapNodeAt OUTDEGREE_SZ debug idx else .ok m

def popHeapNode : Except Fault (TemporalOrderedItemMap2 K T) :=
  m.eraseHeapNodeAt OUTDEGREE_SZ debug 0

/-! ## The map -/

variable [DecidableEq K] (getId : T → K)

/-- `id_heap_map` with another address, or none, for an id. -/
def setId (id : K) (heapIdx : Option Nat) : TemporalOrderedItemMap2 K T :=
  { m with idHeapMap := Function.update m.idHeapMap id heapIdx }

def add (item : T) (expiryTime : Int) : Except Fault (TemporalOrderedItemMap2 K T × ExceptionT) :=
  match m.idHeapMap (getId item) with
  | some _ => .ok (m, .duplicatedEntry)
  | none => do
    let (m, err) ← m.enqueueBackHeapNode debug item expiryTime
    if err ≠ .success then .ok (m, err)
    else do
      let n ← m.node (m.temporalHeapSz - 1)
      let m ← m.correctHeapNodeUpAt OUTDEGREE_SZ debug (m.temporalHeapSz - 1)
      .ok (m.setId (getId item) (some n.heapIdx), .success)

def update (itemId : K) (expiryTime : Int) :
    Except Fault (TemporalOrderedItemMap2 K T × ExceptionT) :=
  match m.idHeapMap itemId with
  | none => .ok (m, .invalidDictionaryKey)
  | some heapIdx => do
    let idx ← m.deref heapIdx
    let n ← m.node idx
    let m := m.setNode idx { n with schedTime := expiryTime }
    let m ← m.correctHeapNodeAt OUTDEGREE_SZ debug idx
    .ok (m, .success)

def addOrUpdate (item : T) (expiryTime : Int) :
    Except Fault (TemporalOrderedItemMap2 K T × ExceptionT) :=
  if (m.idHeapMap (getId item)).isSome then m.update OUTDEGREE_SZ debug (getId item) expiryTime
  else m.add OUTDEGREE_SZ debug getId item expiryTime

def erase (itemId : K) : Except Fault (TemporalOrderedItemMap2 K T) :=
  match m.idHeapMap itemId with
  | none => .ok m
  | some heapIdx => do
    let idx ← m.deref heapIdx
    (m.setId itemId none).eraseHeapNodeAt OUTDEGREE_SZ debug idx

def getExpiredItem (timeBar : Int) : Except Fault (TemporalOrderedItemMap2 K T × Option T) :=
  if m.temporalHeapSz = 0 then .ok (m, none)
  else do
    let front ← m.node 0
    if front.schedTime ≥ timeBar then .ok (m, none)
    else
      match front.item with
      | none => .error .abort
      | some result => do
        let m ← (m.setId (getId result) none).popHeapNode OUTDEGREE_SZ debug
        .ok (m, some result)

end TemporalOrderedItemMap2

/-! ## What the maps are for -/

/-- The item and the time kept for each id. -/
structure ItemStore (K T : Type) where
  find : K → Option (T × Int)
  ids : Finset K
  mem_ids : ∀ id, id ∈ ids ↔ (find id).isSome

inductive Call (K T : Type) where
  | add (item : T) (expiryTime : Int)
  | update (itemId : K) (expiryTime : Int)
  | addOrUpdate (item : T) (expiryTime : Int)
  | erase (itemId : K)
  | getExpiredItem (timeBar : Int)

inductive Answer (T : Type) where
  | code (err : ExceptionT)
  | done
  | item (result : Option T)
deriving DecidableEq

/-- The call did not do what it was asked to. -/
def Answer.failed {T : Type} : Answer T → Bool
  | .code err => err ≠ .success
  | .done => false
  | .item result => result.isNone

variable {K T : Type} [DecidableEq K]

namespace ItemStore

def empty : ItemStore K T := ⟨fun _ => none, ∅, fun id => by simp⟩

def put (s : ItemStore K T) (id : K) (x : T × Int) : ItemStore K T where
  find := Function.update s.find id (some x)
  ids := insert id s.ids
  mem_ids k := by
    by_cases h : k = id
    · subst h
      simp
    · simp [h, s.mem_ids]

def remove (s : ItemStore K T) (id : K) : ItemStore K T where
  find := Function.update s.find id none
  ids := s.ids.erase id
  mem_ids k := by
    by_cases h : k = id
    · subst h
      simp
    · simp [h, s.mem_ids]

def add (cap : Nat) (getId : T → K) (s : ItemStore K T) (item : T) (expiryTime : Int) :
    ItemStore K T × ExceptionT :=
  if (s.find (getId item)).isSome then (s, .duplicatedEntry)
  else if s.ids.card = cap then (s, .resourceExhaustion)
  else (s.put (getId item) (item, expiryTime), .success)

def update (s : ItemStore K T) (itemId : K) (expiryTime : Int) : ItemStore K T × ExceptionT :=
  match s.find itemId with
  | none => (s, .invalidDictionaryKey)
  | some x => (s.put itemId (x.1, expiryTime), .success)

/-- An entry of minimal time that has expired. -/
def IsNextExpired (getId : T → K) (s : ItemStore K T) (timeBar : Int) (item : T) : Prop :=
  ∃ time, s.find (getId item) = some (item, time) ∧ time < timeBar ∧
    ∀ id x, s.find id = some x → time ≤ x.2

/-- What a call does to a store of `cap` entries at most, and what it answers. -/
def Step (cap : Nat) (getId : T → K) (s : ItemStore K T) :
    Call K T × Answer T → ItemStore K T → Prop
  | (.add item expiryTime, a), s' =>
    (s', a) = Prod.map id .code (s.add cap getId item expiryTime)
  | (.update itemId expiryTime, a), s' => (s', a) = Prod.map id .code (s.update itemId expiryTime)
  | (.addOrUpdate item expiryTime, a), s' =>
    (s', a) = Prod.map id .code
      (if (s.find (getId item)).isSome then s.update (getId item) expiryTime
        else s.add cap getId item expiryTime)
  | (.erase itemId, a), s' => (s', a) = (s.remove itemId, .done)
  | (.getExpiredItem timeBar, a), s' =>
    (a = .item none ∧ s' = s ∧ ∀ id x, s.find id = some x → timeBar ≤ x.2) ∨
      ∃ item, a = .item (some item) ∧ s.IsNextExpired getId timeBar item ∧ s' = s.remove (getId item)

end ItemStore

def coded {M : Type} (r : M × ExceptionT) : M × Answer T := (r.1, .code r.2)

variable (debug : Bool) (getId : T → K)

def TemporalOrderedItemMap.call [Inhabited T] (m : TemporalOrderedItemMap K T) :
    Call K T → Except Fault (TemporalOrderedItemMap K T × Answer T)
  | .add item expiryTime => coded <$> m.add debug getId item expiryTime
  | .update itemId expiryTime => coded <$> m.update debug itemId expiryTime
  | .addOrUpdate item expiryTime => coded <$> m.addOrUpdate debug getId item expiryTime
  | .erase itemId => (fun m => (m, .done)) <$> m.erase debug itemId
  | .getExpiredItem timeBar =>
    (fun r => (r.1, .item r.2)) <$> m.getExpiredItem debug getId timeBar

def TemporalOrderedItemMap2.call (OUTDEGREE_SZ : Nat) (m : TemporalOrderedItemMap2 K T) :
    Call K T → Except Fault (TemporalOrderedItemMap2 K T × Answer T)
  | .add item expiryTime => coded <$> m.add OUTDEGREE_SZ debug getId item expiryTime
  | .update itemId expiryTime => coded <$> m.update OUTDEGREE_SZ debug itemId expiryTime
  | .addOrUpdate item expiryTime => coded <$> m.addOrUpdate OUTDEGREE_SZ debug getId item expiryTime
  | .erase itemId => (fun m => (m, .done)) <$> m.erase OUTDEGREE_SZ debug itemId
  | .getExpiredItem timeBar =>
    (fun r => (r.1, .item r.2)) <$> m.getExpiredItem OUTDEGREE_SZ debug getId timeBar

end ExpiryQueue
