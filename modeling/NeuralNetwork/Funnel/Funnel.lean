import NeuralNetwork.Lib.Loop
import NeuralNetwork.Lib.Cpp

/-!
# Delivery handles

`delvrsrv` and `delvrsrv_kv` of `funnel/funnel.h`: handles that collect events, for a consumer, and
push them to it in batches, when they are full and when they are closed. What a handle does depends
on the events only, so each operation returns the batches it pushes, in their order; the caller
feeds them to the consumer. The hash map of a key-value handle is the list of its nodes, which is
the order it is iterated in.
-/

namespace Funnel

open Cpp Loop

def maxDeliverableCap : Nat := 2 ^ 30

/-! ## Plain handles -/

structure DeliveryHandle (E : Type) where
  deliverableArr : List E
  deliverableCap : Nat

namespace DeliveryHandle

variable {E : Type}

/-- `nothrow_log(delvrsrv_open_preallocated_raiihandle(consumer, deliverable_cap, buf))`. -/
def openHandle (deliverableCap : Nat) : Except Fault (DeliveryHandle E) :=
  if deliverableCap > maxDeliverableCap then .error .abort else .ok ⟨[], deliverableCap⟩

/-- `delvrsrv_deliver`. -/
def deliver (h : DeliveryHandle E) (event : E) : DeliveryHandle E × List (List E) :=
  if h.deliverableArr.length = h.deliverableCap then
    if h.deliverableCap = 0 then (h, [[event]])
    else ({ h with deliverableArr := [event] }, [h.deliverableArr])
  else ({ h with deliverableArr := h.deliverableArr ++ [event] }, [])

/-- `delvrsrv_clear`, the first half of closing a handle. -/
def clear (h : DeliveryHandle E) : DeliveryHandle E × List (List E) :=
  if h.deliverableArr.length ≠ 0 then ({ h with deliverableArr := [] }, [h.deliverableArr])
  else (h, [])

/-- A loop of `delvrsrv_deliver`. -/
def deliverAll (h : DeliveryHandle E) : List E → DeliveryHandle E × List (List E)
  | [] => (h, [])
  | event :: events =>
    let (h, pushed) := h.deliver event
    let (h, rest) := h.deliverAll events
    (h, pushed ++ rest)

end DeliveryHandle

/-- The batches of a scope that opens a handle, delivers the events in a loop and closes it. -/
def scope {E : Type} (deliverableCap : Nat) (events : List E) : Except Fault (List (List E)) := do
  let h ← DeliveryHandle.openHandle deliverableCap
  let (h, pushed) := h.deliverAll events
  .ok (pushed ++ h.clear.2)

/-! ## Key-value handles -/

/-- `sizeof` and `alignof` of the event type. -/
structure EventLayout where
  size : Nat
  align : Nat
  size_pos : 0 < size
  align_pos : 0 < align

/-- Its memory starts at the address `head`; `sz` of its `cap` bytes are taken. -/
structure BumpAllocatorResource where
  head : Nat
  sz : Nat
  cap : Nat

namespace BumpAllocatorResource

def allocate (b : BumpAllocatorResource) (sz : Nat) : Option BumpAllocatorResource :=
  if b.sz + sz > b.cap then none else some { b with sz := b.sz + sz }

def reset (b : BumpAllocatorResource) : BumpAllocatorResource := { b with sz := 0 }

/-- From `head` to the next multiple of the alignment. -/
def displacement (b : BumpAllocatorResource) (align : Nat) : Nat := (align - b.head % align) % align

def alignTo (b : BumpAllocatorResource) (align : Nat) : Option BumpAllocatorResource :=
  b.allocate (b.displacement align)

end BumpAllocatorResource

structure KVEventContainer (E : Type) where
  items : List E
  cap : Nat

structure KVDeliveryHandle (K E : Type) where
  layout : EventLayout
  bumpAllocator : BumpAllocatorResource
  deliverableSz : Nat
  deliverableCap : Nat
  keyEventMap : List (K × KVEventContainer E)

/-- `delvrsrv_kv_get_event_container_memory_total_bcap`. -/
def totalBcap (layout : EventLayout) (deliverableCap : Nat) : Nat :=
  if deliverableCap = 0 then 0 else layout.align + max (deliverableCap * (2 * 2)) 1 * layout.size

abbrev Group (K E : Type) := K × List E

namespace KVDeliveryHandle

variable {K E : Type}

/-- `nothrow_log(delvrsrv_kv_open_preallocated_raiihandle(consumer, deliverable_cap, buf))`; `head` is
where the event memory lies. -/
def openHandle (layout : EventLayout) (head deliverableCap : Nat) :
    Except Fault (KVDeliveryHandle K E) :=
  if deliverableCap > maxDeliverableCap then .error .abort
  else
    let bump := ⟨if totalBcap layout deliverableCap ≠ 0 then head else 0, 0,
      totalBcap layout deliverableCap⟩
    match BumpAllocatorResource.alignTo bump layout.align with
    | none => .error .abort
    | some bump => .ok ⟨layout, bump, 0, deliverableCap, []⟩

variable (h : KVDeliveryHandle K E)

/-- `delvrsrv_kv_clear`, the first half of closing a handle. -/
def clear : Except Fault (KVDeliveryHandle K E × List (Group K E)) :=
  match h.bumpAllocator.reset.alignTo h.layout.align with
  | none => .error .abort
  | some bump =>
    .ok ({ h with bumpAllocator := bump, keyEventMap := [], deliverableSz := 0 },
      h.keyEventMap.map fun node => (node.1, node.2.items))

/-- A new container of capacity `DELVRSRV_KV_EVENT_CONTAINER_INITIAL_CAP` for `key`, if the memory
suffices. -/
def tryEmplace (key : K) : Option (KVDeliveryHandle K E) :=
  (h.bumpAllocator.allocate (1 * h.layout.size)).map fun bump =>
    { h with bumpAllocator := bump, keyEventMap := h.keyEventMap ++ [(key, ⟨[], 1⟩)] }

/-- `tryEmplace`, after a flush, which has to succeed. -/
def flushEmplace (key : K) : Except Fault (KVDeliveryHandle K E × List (Group K E)) := do
  let (h, groups) ← h.clear
  match h.tryEmplace key with
  | none => .error .abort
  | some h => .ok (h, groups)

variable [DecidableEq K]

def find (key : K) : Option (KVEventContainer E) :=
  (h.keyEventMap.find? (·.1 = key)).map Prod.snd

def assign (key : K) (container : KVEventContainer E) : KVDeliveryHandle K E :=
  { h with
    keyEventMap := h.keyEventMap.map fun node =>
      if node.1 = key then (node.1, container) else node }

/-- The map has a container for `key`. -/
def ensure (key : K) : Except Fault (KVDeliveryHandle K E × List (Group K E)) :=
  match h.find key with
  | some _ => .ok (h, [])
  | none =>
    match h.tryEmplace key with
    | some h => .ok (h, [])
    | none => h.flushEmplace key

/-- The container for `key` has room: one that is full grows by
`DELVRSRV_KV_EVENT_CONTAINER_GROWTH_FACTOR`. -/
def grow (key : K) : Except Fault (KVDeliveryHandle K E × List (Group K E)) :=
  match h.find key with
  | none => .error .outOfBounds
  | some container =>
    if container.items.length = container.cap then
      match h.bumpAllocator.allocate (container.cap * 2 * h.layout.size) with
      | some bump =>
        .ok (({ h with bumpAllocator := bump }).assign key
          { container with cap := container.cap * 2 }, [])
      | none => h.flushEmplace key
    else .ok (h, [])

/-- `dg_nothrow(delvrsrv_kv_push_event_container(container, event))` and the count. -/
def pushEvent (key : K) (event : E) : Except Fault (KVDeliveryHandle K E) :=
  match h.find key with
  | none => .error .outOfBounds
  | some container =>
    if container.items.length = container.cap then .error .abort
    else
      .ok { h.assign key { container with items := container.items ++ [event] } with
        deliverableSz := h.deliverableSz + 1 }

def deliverSlowPath (key : K) (event : E) :
    Except Fault (KVDeliveryHandle K E × List (Group K E)) :=
  if h.deliverableSz = h.deliverableCap ∧ h.deliverableCap = 0 then .ok (h, [(key, [event])])
  else do
    let (h, flushed) ← (if h.deliverableSz = h.deliverableCap then h.clear else .ok (h, []))
    let (h, emplaced) ← h.ensure key
    let (h, grown) ← h.grow key
    let h ← h.pushEvent key event
    .ok (h, flushed ++ emplaced ++ grown)

/-- `delvrsrv_kv_deliver`. -/
def deliver (key : K) (event : E) : Except Fault (KVDeliveryHandle K E × List (Group K E)) :=
  match h.find key with
  | none => h.deliverSlowPath key event
  | some container =>
    if h.deliverableSz = h.deliverableCap ∨ container.items.length = container.cap then
      h.deliverSlowPath key event
    else do
      let h ← h.pushEvent key event
      .ok (h, [])

/-- A loop of `delvrsrv_kv_deliver`. -/
def deliverAll (h : KVDeliveryHandle K E) :
    List (K × E) → Except Fault (KVDeliveryHandle K E × List (Group K E))
  | [] => .ok (h, [])
  | (key, event) :: events => do
    let (h, pushed) ← h.deliver key event
    let (h, rest) ← h.deliverAll events
    .ok (h, pushed ++ rest)

end KVDeliveryHandle

/-- The groups of a scope that opens a key-value handle, delivers the events in a loop and closes it.
-/
def kvScope {K E : Type} [DecidableEq K] (layout : EventLayout) (head deliverableCap : Nat)
    (events : List (K × E)) : Except Fault (List (Group K E)) := do
  let h ← KVDeliveryHandle.openHandle layout head deliverableCap
  let (h, pushed) ← h.deliverAll events
  let (_, rest) ← h.clear
  .ok (pushed ++ rest)

end Funnel
