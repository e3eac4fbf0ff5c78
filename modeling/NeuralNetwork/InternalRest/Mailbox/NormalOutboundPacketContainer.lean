import NeuralNetwork.Funnel.Funnel
import NeuralNetwork.InternalRest.ContainerCalls
import NeuralNetwork.InternalRest.FifoContainer

/-!
# NormalOutboundPacketContainer

The outbound container of `internal_rest/network_kernel_mailbox_impl1.h`: for each kind of packet a
queue with the waiting calls of `push` behind it, the waiting calls of `pop`, and the queue of what
`pop` could not return. Calls are named by their number; the allocator is the world's.
-/

namespace OutboundContainer

open Cpp Loop HandOver ContainerCalls CyclicUnordered Mailbox

structure FairPacketContainerWaitingItem where
  packetVec : Vec Packet
  smp : Nat
deriving DecidableEq

abbrev PacketWaitQueue := Pow2CyclicQueue FairPacketContainerWaitingItem
abbrev PacketQueue := Pow2CyclicQueue (Vec Packet)

structure NormalOutboundPacketContainer where
  normalPacketQueueWaitingItemVec : PacketWaitQueue
  normalPacketQueue : PacketQueue
  ackPacketQueueWaitingItemVec : PacketWaitQueue
  ackPacketQueue : PacketQueue
  rescuePacketQueueWaitingItemVec : PacketWaitQueue
  rescuePacketQueue : PacketQueue
  waitingQueue : Pow2CyclicQueue Nat
  leftoverQueue : PacketQueue
  feedVectorizationSz : Nat
deriving DecidableEq

/-- The exponents of the queues that `get_normal_outbound_packet_container` makes. -/
structure QueueExponents where
  normal : Nat
  ack : Nat
  rescue : Nat
  waiting : Nat
  leftover : Nat
  pushConcurrency : Nat

/-- The constructor, on new queues. -/
def make (exponents : QueueExponents) (feedVectorizationSz : Nat) :
    NormalOutboundPacketContainer where
  normalPacketQueueWaitingItemVec := .make exponents.pushConcurrency
  normalPacketQueue := .make exponents.normal
  ackPacketQueueWaitingItemVec := .make exponents.pushConcurrency
  ackPacketQueue := .make exponents.ack
  rescuePacketQueueWaitingItemVec := .make exponents.pushConcurrency
  rescuePacketQueue := .make exponents.rescue
  waitingQueue := .make exponents.waiting
  leftoverQueue := .make exponents.leftover
  feedVectorizationSz := feedVectorizationSz

/-! ## push -/

/-- The batches that the feeder of a call of `push` passes on; its event memory lies at `head`. -/
def groups (layout : Funnel.EventLayout) (head : Nat) (c : NormalOutboundPacketContainer)
    (packetArr : List Packet) : Except Fault (List (PacketKind × List (Packet × Nat))) :=
  Funnel.kvScope layout head (min c.feedVectorizationSz packetArr.length)
    (packetArr.zipIdx.map fun arg => (getPacketPolymorphicType arg.1, arg))

/-- A branch of the switch over the kinds. -/
def enqueue (waitQueue : PacketWaitQueue) (queue : PacketQueue) (vec : Vec Packet) (smp : Nat) :
    Except Fault (PacketWaitQueue × PacketQueue × Offer Nat) :=
  if queue.size = queue.cap then do
    let waitQueue ← waitQueue.pushBackNothrow ⟨vec, smp⟩
    .ok (waitQueue, queue, .blocked)
  else do
    let queue ← queue.pushBackNothrow vec
    .ok (waitQueue, queue, .queued)

/-- The critical section of `InternalPushFeedResolutor::push` in the call `smp`. -/
def push (c : NormalOutboundPacketContainer) (key : PacketKind) (inboundVec : Vec Packet)
    (smp : Nat) : Except Fault (NormalOutboundPacketContainer × Offer Nat) :=
  match c.waitingQueue.items with
  | dst :: others =>
    .ok ({ c with waitingQueue := { c.waitingQueue with items := others } }, .handed dst)
  | [] =>
    match key with
    | .request => do
      let (waitQueue, queue, r) ← enqueue c.normalPacketQueueWaitingItemVec c.normalPacketQueue
        inboundVec smp
      .ok ({ c with
        normalPacketQueueWaitingItemVec := waitQueue, normalPacketQueue := queue }, r)
    | .ack => do
      let (waitQueue, queue, r) ← enqueue c.ackPacketQueueWaitingItemVec c.ackPacketQueue
        inboundVec smp
      .ok ({ c with ackPacketQueueWaitingItemVec := waitQueue, ackPacketQueue := queue }, r)
    | .krescue => do
      let (waitQueue, queue, r) ← enqueue c.rescuePacketQueueWaitingItemVec c.rescuePacketQueue
        inboundVec smp
      .ok ({ c with
        rescuePacketQueueWaitingItemVec := waitQueue, rescuePacketQueue := queue }, r)

/-! ## pop -/

/-- Two branches of `pop`: the waiting calls of a kind, then its queue. -/
def dequeue (waitQueue : PacketWaitQueue) (queue : PacketQueue) :
    Option (PacketWaitQueue × PacketQueue × Take (Vec Packet) Nat) :=
  match waitQueue.items, queue.items with
  | front :: others, _ =>
    some ({ waitQueue with items := others }, queue, .released front.packetVec front.smp)
  | [], vec :: others => some (waitQueue, { queue with items := others }, .got vec)
  | [], [] => none

/-- The first critical section of the call `smp`. -/
def pop (debug : Bool) (c : NormalOutboundPacketContainer) (smp : Nat) :
    Except Fault (NormalOutboundPacketContainer × Take (Vec Packet) Nat) :=
  match c.leftoverQueue.items with
  | vec :: others =>
    .ok ({ c with leftoverQueue := { c.leftoverQueue with items := others } }, .got vec)
  | [] =>
    match dequeue c.ackPacketQueueWaitingItemVec c.ackPacketQueue with
    | some (waitQueue, queue, r) =>
      .ok ({ c with ackPacketQueueWaitingItemVec := waitQueue, ackPacketQueue := queue }, r)
    | none =>
      match dequeue c.normalPacketQueueWaitingItemVec c.normalPacketQueue with
      | some (waitQueue, queue, r) =>
        .ok ({ c with
          normalPacketQueueWaitingItemVec := waitQueue, normalPacketQueue := queue }, r)
      | none =>
        match dequeue c.rescuePacketQueueWaitingItemVec c.rescuePacketQueue with
        | some (waitQueue, queue, r) =>
          .ok ({ c with
            rescuePacketQueueWaitingItemVec := waitQueue, rescuePacketQueue := queue }, r)
        | none =>
          if debug ∧ c.waitingQueue.cap = c.waitingQueue.size then .error .abort
          else do
            let waitingQueue ← c.waitingQueue.pushBackNothrow smp
            .ok ({ c with waitingQueue }, .waits)

/-- The second critical section, with what did not fit. -/
def popLeftover (debug : Bool) (c : NormalOutboundPacketContainer) (pktVec : Vec Packet) :
    Except Fault (NormalOutboundPacketContainer × GiveBack Nat) :=
  if debug ∧ c.leftoverQueue.size = c.leftoverQueue.cap then .error .abort
  else
    match c.waitingQueue.items with
    | dst :: others =>
      .ok ({ c with waitingQueue := { c.waitingQueue with items := others } }, .handed dst)
    | [] => do
      let leftoverQueue ← c.leftoverQueue.pushBackNothrow pktVec
      .ok ({ c with leftoverQueue }, .kept)

/-- `heads` is where the feeders of the calls have their event memory. -/
def sections (debug : Bool) (layout : Funnel.EventLayout) (heads : Nat → Nat) :
    Sections NormalOutboundPacketContainer PacketKind Packet where
  groups c packetArr i := groups layout (heads i) c packetArr
  push := push
  pop := pop debug
  popLeftover := popLeftover debug

/-- A container that nobody has called, with an allocator of any capacity; the queue of the waiting
calls of `pop` and the leftover queue hold at least `n`. -/
def Fresh (n : Nat) (w : World NormalOutboundPacketContainer PacketKind Packet) : Prop :=
  ∃ exponents feedVectorizationSz queueCap,
    n ≤ 2 ^ exponents.waiting ∧ n ≤ 2 ^ exponents.leftover ∧
    feedVectorizationSz ≤ Funnel.maxDeliverableCap ∧
    w = .start (make exponents feedVectorizationSz) queueCap

end OutboundContainer
