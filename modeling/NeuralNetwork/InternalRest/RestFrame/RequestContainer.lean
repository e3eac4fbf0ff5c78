import NeuralNetwork.InternalRest.FifoContainer
import NeuralNetwork.Lib.HandOver

/-!
# RequestContainer

The container of vectors of requests between the callers and the outbound worker, of
`internal_rest/network_rest_frame.h`, with its factory and the calls around it. One step is the critical
section of one call; a call is named by its number, and so are its semaphore and its `internal_request`.
-/

namespace RestFrame.Requests

open Cpp CyclicUnordered HandOver

/-- `V` is `dg_sock::vector<model::InternalRequest>`. -/
structure RequestContainer (V : Type) where
  producerQueue : Pow2CyclicQueue V
  waitingQueue : Pow2CyclicQueue Nat
  pushWaitingQueue : Pow2CyclicQueue (Nat × V)
deriving DecidableEq

/-- The checks of one argument in `get_request_container`. -/
def checkQueueSize (sz : Nat) : Except Fault Unit :=
  if ¬ (1 ≤ sz ∧ sz ≤ 2 ^ 30) then .error (.invalidArgument "INVALID_ARGUMENT")
  else if ¬ Stdx.isPow2 sz then .error (.invalidArgument "INVALID_ARGUMENT")
  else .ok ()

def getRequestContainer {V : Type} (queueCap recvConcurrencyQueueSz pushConcurrencyQueueSz : Nat) :
    Except Fault (RequestContainer V) := do
  checkQueueSize queueCap
  checkQueueSize recvConcurrencyQueueSz
  checkQueueSize pushConcurrencyQueueSz
  .ok ⟨.make (Stdx.ulog2 queueCap), .make (Stdx.ulog2 recvConcurrencyQueueSz),
    .make (Stdx.ulog2 pushConcurrencyQueueSz)⟩

variable {V : Type} (c : RequestContainer V)

/-! ## Critical sections -/

/-- The critical section of the call `smp` of `push`. A call that has to wait is registered only
`if constexpr(DEBUG_MODE_FLAG)`. -/
def push (debug : Bool) (request : V) (smp : Nat) :
    Except Fault (RequestContainer V × Offer Nat) :=
  match c.waitingQueue.items with
  | pending :: rest => .ok ({ c with waitingQueue := { c.waitingQueue with items := rest } },
      .handed pending)
  | [] =>
    if c.producerQueue.size = c.producerQueue.cap then
      if debug then do
        let pushWaitingQueue ← c.pushWaitingQueue.pushBackNothrow (smp, request)
        .ok ({ c with pushWaitingQueue }, .blocked)
      else .ok (c, .blocked)
    else do
      let producerQueue ← c.producerQueue.pushBackNothrow request
      .ok ({ c with producerQueue }, .queued)

/-- The critical section of the call `smp` of `pop`. -/
def pop (smp : Nat) : Except Fault (RequestContainer V × Take V Nat) :=
  match c.pushWaitingQueue.items, c.producerQueue.items with
  | (pending, request) :: rest, _ =>
    .ok ({ c with pushWaitingQueue := { c.pushWaitingQueue with items := rest } },
      .released request pending)
  | [], request :: rest =>
    .ok ({ c with producerQueue := { c.producerQueue with items := rest } }, .got request)
  | [], [] => do
    let waitingQueue ← c.waitingQueue.pushBackNothrow smp
    .ok ({ c with waitingQueue }, .waits)

/-! ## Calls -/

/-- A call of `push` after its critical section: it waits with its request, or returns. -/
inductive PushPhase (V : Type) where
  | waiting (request : V)
  | returned
deriving DecidableEq

inductive PopPhase (V : Type) where
  | waiting
  | returned (request : V)
deriving DecidableEq

structure World (V : Type) where
  container : RequestContainer V
  pushes : List (PushPhase V)
  pops : List (PopPhase V)
deriving DecidableEq

inductive Op (V : Type) where
  | push (request : V)
  | pop
deriving DecidableEq

namespace World

variable (w : World V)

def afterPush (request : V) : Offer Nat → World V
  | .handed p => { w with
      pushes := w.pushes ++ [.returned]
      pops := w.pops.set p (.returned request) }
  | .queued => { w with pushes := w.pushes ++ [.returned] }
  | .blocked => { w with pushes := w.pushes ++ [.waiting request] }

def afterPop : Take V Nat → World V
  | .got request => { w with pops := w.pops ++ [.returned request] }
  | .released request q => { w with
      pushes := w.pushes.set q .returned
      pops := w.pops ++ [.returned request] }
  | .waits => { w with pops := w.pops ++ [.waiting] }

def step (debug : Bool) : Op V → Except Fault (World V)
  | .push request => do
    let (container, r) ← push w.container debug request w.pushes.length
    .ok ({ w with container }.afterPush request r)
  | .pop => do
    let (container, r) ← pop w.container w.pops.length
    .ok ({ w with container }.afterPop r)

end World

def Step (debug : Bool) (w : World V) (op : Op V) (w' : World V) : Prop := w.step debug op = .ok w'

/-- A container that the factory made, before any call. -/
def Fresh (w : World V) : Prop :=
  ∃ queueCap recvConcurrencyQueueSz pushConcurrencyQueueSz c,
    getRequestContainer queueCap recvConcurrencyQueueSz pushConcurrencyQueueSz = .ok c ∧
    w = ⟨c, [], []⟩

end RestFrame.Requests
