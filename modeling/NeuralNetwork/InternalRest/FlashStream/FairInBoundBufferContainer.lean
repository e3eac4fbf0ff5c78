import NeuralNetwork.InternalRest.ContainerCalls
import NeuralNetwork.InternalRest.FifoContainer

/-!
# FairInBoundBufferContainer

The buffer container of `internal_rest/network_kernel_mailbox_impl1_flash_stream_x.h`: a distribution
queue with the waiting calls of `push` behind it, the waiting calls of `pop`, and the queue of what
`pop` could not return. Calls are named by their number; the allocator is the world's.
-/

namespace FairBuffer

open Cpp HandOver ContainerCalls CyclicUnordered

structure FairBufferContainerWaitingItem (T : Type) where
  bufferVec : Vec T
  smp : Nat
deriving DecidableEq

structure FairInBoundBufferContainer (T : Type) where
  pushWaitingItemVec : Pow2CyclicQueue (FairBufferContainerWaitingItem T)
  distributionQueue : Pow2CyclicQueue (Vec T)
  waitingQueue : Pow2CyclicQueue Nat
  leftoverQueue : Pow2CyclicQueue (Vec T)
  consumeSzPerLoad : Nat
deriving DecidableEq

variable {T : Type}

/-- The constructor, on new queues of these exponents. -/
def make (pushExponent distributionExponent waitingExponent leftoverExponent consumeSz : Nat) :
    FairInBoundBufferContainer T :=
  ⟨.make pushExponent, .make distributionExponent, .make waitingExponent, .make leftoverExponent,
    consumeSz⟩

/-! ## push -/

/-- What `push` does before its critical section: it has one vector for the whole batch. -/
def groups (debug : Bool) (c : FairInBoundBufferContainer T) (bufferArr : List T) :
    Except Fault (List (Unit × List (T × Nat))) :=
  if debug ∧ bufferArr.length > c.consumeSzPerLoad then .error .abort
  else if bufferArr.length = 0 then .ok []
  else .ok [((), bufferArr.zipIdx)]

/-- The critical section of the call `smp`. -/
def push (c : FairInBoundBufferContainer T) (bufferVec : Vec T) (smp : Nat) :
    Except Fault (FairInBoundBufferContainer T × Offer Nat) :=
  match c.waitingQueue.items with
  | dst :: others =>
    .ok ({ c with waitingQueue := { c.waitingQueue with items := others } }, .handed dst)
  | [] =>
    if c.distributionQueue.size ≠ c.distributionQueue.cap then do
      let distributionQueue ← c.distributionQueue.pushBackNothrow bufferVec
      .ok ({ c with distributionQueue }, .queued)
    else do
      let pushWaitingItemVec ← c.pushWaitingItemVec.pushBackNothrow ⟨bufferVec, smp⟩
      .ok ({ c with pushWaitingItemVec }, .blocked)

/-! ## pop -/

/-- The first critical section of the call `smp`. -/
def pop (c : FairInBoundBufferContainer T) (smp : Nat) :
    Except Fault (FairInBoundBufferContainer T × Take (Vec T) Nat) :=
  match c.leftoverQueue.items, c.pushWaitingItemVec.items, c.distributionQueue.items with
  | vec :: others, _, _ =>
    .ok ({ c with leftoverQueue := { c.leftoverQueue with items := others } }, .got vec)
  | [], front :: others, _ =>
    .ok ({ c with pushWaitingItemVec := { c.pushWaitingItemVec with items := others } },
      .released front.bufferVec front.smp)
  | [], [], vec :: others =>
    .ok ({ c with distributionQueue := { c.distributionQueue with items := others } }, .got vec)
  | [], [], [] => do
    let waitingQueue ← c.waitingQueue.pushBackNothrow smp
    .ok ({ c with waitingQueue }, .waits)

/-- The second critical section, with what did not fit. -/
def popLeftover (c : FairInBoundBufferContainer T) (strVec : Vec T) :
    Except Fault (FairInBoundBufferContainer T × GiveBack Nat) :=
  match c.waitingQueue.items with
  | dst :: others =>
    .ok ({ c with waitingQueue := { c.waitingQueue with items := others } }, .handed dst)
  | [] => do
    let leftoverQueue ← c.leftoverQueue.pushBackNothrow strVec
    .ok ({ c with leftoverQueue }, .kept)

def sections (debug : Bool) : Sections (FairInBoundBufferContainer T) Unit T where
  groups c bufferArr _ := groups debug c bufferArr
  push c _ bufferVec smp := push c bufferVec smp
  pop := pop
  popLeftover := popLeftover

/-- A container that nobody has called, with an allocator of any capacity. -/
def Fresh (w : World (FairInBoundBufferContainer T) Unit T) : Prop :=
  ∃ pushExponent distributionExponent waitingExponent leftoverExponent consumeSz queueCap,
    w = .start (make pushExponent distributionExponent waitingExponent leftoverExponent consumeSz)
      queueCap

end FairBuffer
