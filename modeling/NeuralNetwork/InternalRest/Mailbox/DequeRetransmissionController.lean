import NeuralNetwork.InternalRest.Mailbox.RetransmissionController
import NeuralNetwork.Lib.LowerBound

/-!
# RetransmissionController

The retransmission controller over a queue of packets of `internal_rest/network_kernel_mailbox_impl1.h`,
with its factory. Every function holds the lock, so calls are steps; a reading of the clock is taken
under the lock, so the readings of a run are numbered.
-/

namespace DequeRetransmission

open Cpp FlashStream HashChain CyclicUnordered Mailbox Retransmission

structure QueuedPacket where
  pkt : Packet
  queuedTime : Int
deriving DecidableEq

structure RetransmissionController where
  pktDeque : Pow2CyclicQueue QueuedPacket
  ackedIdHashset : Mailbox.TemporalFiniteUnorderedSet GlobalPacketIdentifier
  transmissionDelayTime : Int
  maxRetransmissionSz : Nat
  retriablePktMapCap : Nat
  consumeSzPerLoad : Nat

/-- The arguments of `get_retransmission_controller`; times are in nanoseconds. -/
structure Config where
  transmissionDelay : Int
  maxRetransmissionSz : Nat
  idhashsetCap : Nat
  retransmissionQueueCap : Nat
  retriablePktMapCap : Nat
  consumeFactor : Nat := 4

/-- `n >> consume_factor`. -/
def shiftDown (n consumeFactor : Nat) : Except Fault Nat :=
  if consumeFactor < 64 then .ok (n >>> consumeFactor) else .error .undefined

def getRetransmissionController (c : Config) : Except Fault RetransmissionController :=
  if ¬ (1 ≤ c.transmissionDelay ∧ c.transmissionDelay ≤ 60000000000) then
    .error (.invalidArgument "INVALID_ARGUMENT")
  else if c.maxRetransmissionSz > 256 then .error (.invalidArgument "INVALID_ARGUMENT")
  else if ¬ (1 ≤ c.idhashsetCap ∧ c.idhashsetCap ≤ 2 ^ 25) then
    .error (.invalidArgument "INVALID_ARGUMENT")
  else if ¬ (1 ≤ c.retransmissionQueueCap ∧ c.retransmissionQueueCap ≤ 2 ^ 25) then
    .error (.invalidArgument "INVALID_ARGUMENT")
  else if ¬ (1 ≤ c.retriablePktMapCap ∧ c.retriablePktMapCap ≤ 2 ^ 30) then
    .error (.invalidArgument "INVALID_ARGUMENT")
  else do
    let tentativeRetransmissionConsumeSz ← shiftDown c.retransmissionQueueCap c.consumeFactor
    let tentativeIdhashsetConsumeSz ← shiftDown c.idhashsetCap c.consumeFactor
    let queueCap ← Stdx.ceil2 c.retransmissionQueueCap
    let ackedIdHashset ← Mailbox.TemporalFiniteUnorderedSet.make c.idhashsetCap
    .ok {
      pktDeque := .make (Stdx.ulog2 queueCap)
      ackedIdHashset := ackedIdHashset
      transmissionDelayTime := c.transmissionDelay
      maxRetransmissionSz := c.maxRetransmissionSz
      retriablePktMapCap := c.retriablePktMapCap
      consumeSzPerLoad := max (min tentativeRetransmissionConsumeSz tentativeIdhashsetConsumeSz) 1 }

namespace RetransmissionController

variable (debug : Bool) (keys : Keys GlobalPacketIdentifier) (c : RetransmissionController)

/-- `get_now`, where the clock says `now`. -/
def getNow (now : Int) : Int :=
  match c.pktDeque.items.getLast? with
  | none => now
  | some back => max back.queuedTime now

/-- One round of the loop of `internal_add_retriables`; `now` is its `get_now`. -/
def addOne (now : Int) (mapCap : Nat) (c : RetransmissionController) (pkt : Packet) :
    Except Fault (RetransmissionController × ExceptionT) :=
  if c.pktDeque.size ≥ mapCap then .ok (c, .socketQueueFull)
  else if pkt.retransmissionCount.toNat ≥ c.maxRetransmissionSz then
    .ok (c, .socketMaxRetransmissionReached)
  else do
    let pktDeque ← c.pktDeque.pushBackNothrow ⟨bump pkt, now⟩
    .ok ({ c with pktDeque }, .success)

/-- The loop of `internal_add_retriables`. -/
def addLoop (now : Int) (mapCap : Nat) :
    RetransmissionController → List Packet → Except Fault (RetransmissionController × List ExceptionT)
  | c, [] => .ok (c, [])
  | c, pkt :: pktArr => do
    let (c, err) ← addOne now mapCap c pkt
    let (c, exceptionArr) ← addLoop now mapCap c pktArr
    .ok (c, err :: exceptionArr)

def internalAddRetriables (now : Int) (pktArr : List Packet) (mapCap : Nat) :
    Except Fault (RetransmissionController × List ExceptionT) := do
  checkConsumeSize debug pktArr.length c.consumeSzPerLoad
  addLoop (c.getNow now) mapCap c pktArr

def addRetriables (now : Int) (pktArr : List Packet) :
    Except Fault (RetransmissionController × List ExceptionT) :=
  c.internalAddRetriables debug now pktArr (min c.retriablePktMapCap c.pktDeque.cap)

def reentrantAddRetriables (now : Int) (pktArr : List Packet) :
    Except Fault (RetransmissionController × List ExceptionT) :=
  c.internalAddRetriables debug now pktArr c.pktDeque.cap

def ack (pktIdArr : List GlobalPacketIdentifier) : Except Fault RetransmissionController := do
  checkConsumeSize debug pktIdArr.length c.consumeSzPerLoad
  let ackedIdHashset ← pktIdArr.foldlM (fun set id => set.insert keys id) c.ackedIdHashset
  .ok { c with ackedIdHashset }

/-- The loop of `get_retriables` over the packets before the bar, with `cap` places left in
`output_pkt_arr`: the packets that it went over, and the output. -/
def scan : Nat → List QueuedPacket → Except Fault (Nat × List Packet)
  | _, [] => .ok (0, [])
  | 0, _ :: _ => .ok (0, [])
  | cap + 1, queuedPkt :: rest => do
    let acked ← c.ackedIdHashset.contains keys queuedPkt.pkt.id
    if acked then do
      let (iteratedSz, output) ← scan (cap + 1) rest
      .ok (iteratedSz + 1, output)
    else do
      let (iteratedSz, output) ← scan cap rest
      .ok (iteratedSz + 1, queuedPkt.pkt :: output)

def getRetriables (now : Int) (outputPktArrCap : Nat) :
    Except Fault (RetransmissionController × List Packet) := do
  let timeBar := now - c.transmissionDelayTime
  let barredSz := LowerBound.lowerBound (fun q => decide (q.queuedTime < timeBar)) c.pktDeque.items
  let (iteratedSz, output) ← c.scan keys outputPktArrCap (c.pktDeque.items.take barredSz)
  .ok ({ c with pktDeque := c.pktDeque.eraseFrontRange iteratedSz }, output)

end RetransmissionController

/-! ## Runs -/

inductive Op where
  | addRetriables (pktArr : List Packet)
  | reentrantAddRetriables (pktArr : List Packet)
  | ack (pktIdArr : List GlobalPacketIdentifier)
  | getRetriables (outputPktArrCap : Nat)
deriving DecidableEq

/-- The controller, the number of the next reading of the clock, the packets that were accepted, each
with the reading when it was, and those that were returned, each with the reading then. -/
structure World where
  controller : RetransmissionController
  reads : Nat
  accepted : List QueuedPacket
  returned : List (Packet × Int)

namespace World

variable (debug : Bool) (keys : Keys GlobalPacketIdentifier) (clock : Nat → Int) (w : World)

/-- The packets whose status is `SUCCESS`, as the queue holds them. -/
def acceptedOf (now : Int) (pktArr : List Packet) (exceptionArr : List ExceptionT) :
    List QueuedPacket :=
  (pktArr.zip exceptionArr).filterMap fun (pkt, err) =>
    if err = .success then some ⟨bump pkt, now⟩ else none

/-- After a call that adds packets. -/
def added (pktArr : List Packet) (r : RetransmissionController × List ExceptionT) : World :=
  { w with
    controller := r.1
    reads := w.reads + 1
    accepted := w.accepted ++ acceptedOf (clock w.reads) pktArr r.2 }

/-- What a call writes: its `exception_arr`, and its output. -/
structure Answer where
  exceptionArr : List ExceptionT
  output : List Packet
deriving DecidableEq

def step : Op → Except Fault (World × Answer)
  | .addRetriables pktArr => do
    let r ← w.controller.addRetriables debug (clock w.reads) pktArr
    .ok (w.added clock pktArr r, ⟨r.2, []⟩)
  | .reentrantAddRetriables pktArr => do
    let r ← w.controller.reentrantAddRetriables debug (clock w.reads) pktArr
    .ok (w.added clock pktArr r, ⟨r.2, []⟩)
  | .ack pktIdArr => do
    let controller ← w.controller.ack debug keys pktIdArr
    .ok ({ w with controller }, ⟨pktIdArr.map fun _ => .success, []⟩)
  | .getRetriables outputPktArrCap => do
    let (controller, output) ←
      w.controller.getRetriables keys (clock w.reads) outputPktArrCap
    .ok ({ w with
      controller
      reads := w.reads + 1
      returned := w.returned ++ output.map (·, clock w.reads) }, ⟨[], output⟩)

end World

structure Event where
  op : Op
  answer : World.Answer
deriving DecidableEq

def Step (debug : Bool) (keys : Keys GlobalPacketIdentifier) (clock : Nat → Int) (w : World) (e : Event)
    (w' : World) : Prop :=
  w.step debug keys clock e.op = .ok (w', e.answer)

def Fresh (config : Config) (w : World) : Prop :=
  ∃ c, getRetransmissionController config = .ok c ∧ w = ⟨c, 0, [], []⟩

end DequeRetransmission
