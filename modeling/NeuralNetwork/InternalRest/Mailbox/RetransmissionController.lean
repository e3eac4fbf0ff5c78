import NeuralNetwork.InternalRest.AckExpiryQueue
import NeuralNetwork.InternalRest.FifoContainer
import NeuralNetwork.InternalRest.Mailbox.InBoundIdController

/-!
# MemoryEfficientRetransmissionController

The retransmission controller of `internal_rest/network_kernel_mailbox_impl1.h`, with its factory.
A packet and the place for its exception are one cell of the memory, and the pointers to both are the
number of the cell. `Outside` is what the controller asks for: the hash of its set of acknowledged
ids, and its delay negotiator.
-/

namespace Retransmission

open Cpp FlashStream HashChain CyclicUnordered ExpiryQueue Loop Mailbox

/-- `Packet{}`. -/
instance : Inhabited Packet :=
  ⟨⟨⟨⟨⟨0, Vector.replicate 20 0⟩, 0, 0⟩, ⟨.v4 ⟨Vector.replicate 4 0⟩, 0⟩,
    ⟨.v4 ⟨Vector.replicate 4 0⟩, 0⟩⟩, .krescue⟩⟩

structure RetransmissionWaitingItem where
  pktArr : List Nat
  smp : Nat
deriving DecidableEq

abbrev TemporalOrderedPacketMap := TemporalOrderedItemMap GlobalPacketIdentifier Packet

def packetIdExtractor (pkt : Packet) : GlobalPacketIdentifier := pkt.id

structure MemoryEfficientRetransmissionController where
  pushWaitQueue1 : Pow2CyclicQueue RetransmissionWaitingItem
  pushWaitQueue2 : Pow2CyclicQueue RetransmissionWaitingItem
  pktMap : TemporalOrderedPacketMap
  ackedIdHashset : Mailbox.TemporalFiniteUnorderedSet GlobalPacketIdentifier
  maxRetransmissionSz : Nat
  retriablePktMapCap : Nat
  consumeSzPerLoad : Nat

/-- The arguments of `get_memory_efficient_retransmission_controller` that the functions below use. -/
structure Config where
  pktMapCapacity : Nat
  ackedSetCapacity : Nat
  maxRetransmissionSz : Nat
  retriablePktMapCap : Nat
  userPushConcurrencySz : Nat
  retriablePushConcurrencySz : Nat
  tentativeConsumeSz : Nat

def getMemoryEfficientRetransmissionController (c : Config) :
    Except Fault MemoryEfficientRetransmissionController :=
  if c.pktMapCapacity > 2 ^ 30 then .error (.invalidArgument "INVALID_ARGUMENT")
  else if ¬ (1 ≤ c.ackedSetCapacity ∧ c.ackedSetCapacity ≤ 2 ^ 30) then
    .error (.invalidArgument "INVALID_ARGUMENT")
  else if c.maxRetransmissionSz > 256 then .error (.invalidArgument "INVALID_ARGUMENT")
  else if ¬ (1 ≤ c.retriablePktMapCap ∧ c.retriablePktMapCap ≤ 2 ^ 30) then
    .error (.invalidArgument "INVALID_ARGUMENT")
  else if ¬ (1 ≤ c.userPushConcurrencySz ∧ c.userPushConcurrencySz ≤ 2 ^ 20) then
    .error (.invalidArgument "INVALID_ARGUMENT")
  else if ¬ (1 ≤ c.retriablePushConcurrencySz ∧ c.retriablePushConcurrencySz ≤ 2 ^ 20) then
    .error (.invalidArgument "INVALID_ARGUMENT")
  else if c.tentativeConsumeSz > 2 ^ 30 then .error (.invalidArgument "INVALID_ARGUMENT")
  else do
    let userExponent ← Stdx.ceil2 c.userPushConcurrencySz
    let retriableExponent ← Stdx.ceil2 c.retriablePushConcurrencySz
    let ackedIdHashset ← Mailbox.TemporalFiniteUnorderedSet.make c.ackedSetCapacity
    .ok {
      pushWaitQueue1 := .make (Stdx.ulog2 userExponent)
      pushWaitQueue2 := .make (Stdx.ulog2 retriableExponent)
      pktMap := .make c.pktMapCapacity
      ackedIdHashset := ackedIdHashset
      maxRetransmissionSz := c.maxRetransmissionSz
      retriablePktMapCap := c.retriablePktMapCap
      consumeSzPerLoad :=
        max (min (min c.pktMapCapacity c.ackedSetCapacity) c.tentativeConsumeSz) 1 }

/-- What lies outside of the controller. -/
structure Outside where
  hasher : GlobalPacketIdentifier → Nat
  /-- `delay_negotiator->get`. -/
  delay : Byte → Address → Except Failure Int

namespace Outside

def keys (env : Outside) : Keys GlobalPacketIdentifier := Keys.ofHash env.hasher

end Outside

/-! ## The callers -/

/-- A packet of a caller, as it was given, with the place for its exception. -/
structure Cell where
  pkt : Packet
  exception : ExceptionT
deriving DecidableEq

structure World where
  controller : MemoryEfficientRetransmissionController
  cells : List Cell
  /-- The number of calls that add packets so far, and those that wait for their semaphore. -/
  calls : Nat
  waiting : List Nat

def bump (pkt : Packet) : Packet := { pkt with retransmissionCount := pkt.retransmissionCount + 1 }

namespace World

variable (debug : Bool) (env : Outside) (w : World)

def setMap (pktMap : TemporalOrderedPacketMap) : World :=
  { w with controller := { w.controller with pktMap } }

def setException (p : Nat) (err : ExceptionT) : World :=
  { w with cells := w.cells.modify p fun cell => { cell with exception := err } }

def release (smp : Nat) : World := { w with waiting := w.waiting.erase smp }

/-! ## The waiting queues -/

/-- The branch that must not be reached. -/
def unreachable : Fault := if debug then .abort else .undefined

/-- One round of the loop of `move_to_pkt_map`; a failed `add` leaves the packet. -/
def moveOne (now : Int) (w : World) (p : Nat) : Except Fault World :=
  match w.cells[p]? with
  | none => .error .outOfBounds
  | some cell =>
    match env.delay cell.pkt.retransmissionCount cell.pkt.toAddr with
    | .error err => .ok (w.setException p err)
    | .ok delay => do
      let (pktMap, err) ←
        w.controller.pktMap.add debug packetIdExtractor (bump cell.pkt) (now + delay)
      .ok ((w.setMap pktMap).setException p err)

def moveToPktMap (now : Int) (waitItem : RetransmissionWaitingItem) (pushSz : Nat) :
    Except Fault (World × Option RetransmissionWaitingItem) :=
  if w.controller.pktMap.size + pushSz > w.controller.pktMap.capacity ∨
      waitItem.pktArr.length < pushSz then
    .error (unreachable debug)
  else do
    let w ← (waitItem.pktArr.take pushSz).foldlM (moveOne debug env now) w
    if pushSz = waitItem.pktArr.length then .ok (w, none)
    else .ok (w, some { waitItem with pktArr := waitItem.pktArr.drop pushSz })

def setQueue1 (items : List RetransmissionWaitingItem) : World :=
  { w with controller := { w.controller with
    pushWaitQueue1 := { w.controller.pushWaitQueue1 with items } } }

def setQueue2 (items : List RetransmissionWaitingItem) : World :=
  { w with controller := { w.controller with
    pushWaitQueue2 := { w.controller.pushWaitQueue2 with items } } }

def fulfillOnePushWaitQueue2 (now : Int) : Except Fault World :=
  match w.controller.pushWaitQueue2.items with
  | [] => .error (unreachable debug)
  | resolutable :: others => do
    let pushableCap := subT w.controller.pktMap.capacity w.controller.pktMap.size
    let pushSz := min pushableCap resolutable.pktArr.length
    let (w, rem) ← w.moveToPktMap debug env now resolutable pushSz
    match rem with
    | some rem => .ok (w.setQueue2 (rem :: others))
    | none => .ok ((w.setQueue2 others).release resolutable.smp)

def fulfillOnePushWaitQueue1 (now : Int) : Except Fault World :=
  match w.controller.pushWaitQueue1.items with
  | [] => .error (unreachable debug)
  | resolutable :: others =>
    if w.controller.pktMap.size > w.controller.retriablePktMapCap then
      .error (unreachable debug)
    else do
      let pushableCap := subT w.controller.retriablePktMapCap w.controller.pktMap.size
      let pushSz := min pushableCap resolutable.pktArr.length
      let (w, rem) ← w.moveToPktMap debug env now resolutable pushSz
      match rem with
      | some rem => .ok (w.setQueue1 (rem :: others))
      | none => .ok ((w.setQueue1 others).release resolutable.smp)

/-- What a round of `fulfill_wait_queue` reads from outside: the coins and the clock. -/
structure Round where
  coinFlip : Bool
  coinFlip2 : Bool
  now : Int

def fulfillRound (round : Round) : Except Fault (ForInStep World) :=
  let c := w.controller
  if c.pktMap.size = c.pktMap.capacity then .ok (.done w)
  else if c.pktMap.size ≥ c.retriablePktMapCap then
    if c.pushWaitQueue2.items = [] then .ok (.done w)
    else .yield <$> w.fulfillOnePushWaitQueue2 debug env round.now
  else if c.pushWaitQueue1.items = [] then
    if c.pushWaitQueue2.items = [] then .ok (.done w)
    else .yield <$> w.fulfillOnePushWaitQueue2 debug env round.now
  else if c.pushWaitQueue2.items = [] then
    .yield <$> w.fulfillOnePushWaitQueue1 debug env round.now
  else if round.coinFlip then
    if round.coinFlip2 then .yield <$> w.fulfillOnePushWaitQueue1 debug env round.now
    else .yield <$> w.fulfillOnePushWaitQueue2 debug env round.now
  else .yield <$> w.fulfillOnePushWaitQueue1 debug env round.now

def waitPtrs : List Nat :=
  (w.controller.pushWaitQueue1.items ++ w.controller.pushWaitQueue2.items).flatMap (·.pktArr)

/-- Every round but the last moves a packet out of the queues. -/
def fulfillWaitQueue (rounds : Nat → Round) : Except Fault World :=
  Prod.snd <$> whileLoop .outOfFuel (fun s : Nat × World => do
    match ← s.2.fulfillRound debug env (rounds s.1) with
    | .done w => .ok (.done (s.1, w))
    | .yield w => .ok (.yield (s.1 + 1, w))) (w.waitPtrs.length + 1) (0, w)

/-! ## add_retriables, reentrant_add_retriables -/

/-- The map, the cells of the call so far and `waiting_queue`, in the loop over its packets. -/
structure Adding where
  pktMap : TemporalOrderedPacketMap
  cells : List Cell
  waitingQueue : List Nat

/-- One round of the loop, in a call whose cells start at `base`. -/
def addOne (now : Int) (mapCap base : Nat) (s : Adding) (pkt : Packet) : Except Fault Adding := do
  if pkt.retransmissionCount.toNat ≥ w.controller.maxRetransmissionSz then
    .ok { s with cells := s.cells ++ [⟨pkt, .socketMaxRetransmissionReached⟩] }
  else if ← w.controller.ackedIdHashset.contains env.keys pkt.id then
    .ok { s with cells := s.cells ++ [⟨pkt, .socketAckedEnqueue⟩] }
  else
    match env.delay pkt.retransmissionCount pkt.toAddr with
    | .error err => .ok { s with cells := s.cells ++ [⟨pkt, err⟩] }
    | .ok delay =>
      if s.pktMap.size ≥ mapCap then
        .ok { s with
          cells := s.cells ++ [⟨pkt, .success⟩]
          waitingQueue := s.waitingQueue ++ [base + s.cells.length] }
      else do
        let (pktMap, err) ← s.pktMap.add debug packetIdExtractor (bump pkt) (now + delay)
        .ok { s with pktMap := pktMap, cells := s.cells ++ [⟨pkt, err⟩] }

def addAll (now : Int) (mapCap : Nat) (pktArr : List Packet) : Except Fault Adding := do
  checkConsumeSize debug pktArr.length w.controller.consumeSzPerLoad
  pktArr.foldlM (w.addOne debug env now mapCap w.cells.length) ⟨w.controller.pktMap, [], []⟩

/-- The cells and the map after the loop of a call. -/
def afterAdding (s : Adding) : World :=
  { w.setMap s.pktMap with
    cells := w.cells ++ s.cells
    calls := w.calls + 1
    waiting := if s.waitingQueue = [] then w.waiting else w.waiting ++ [w.calls] }

/-- `internal_add_retriables` with `push_wait_queue_1`. -/
def addRetriables (pktArr : List Packet) (now : Int) : Except Fault World := do
  let c := w.controller
  let s ← w.addAll debug env now (min c.retriablePktMapCap c.pktMap.capacity) pktArr
  if s.waitingQueue = [] then .ok (w.afterAdding s)
  else do
    let queue ← c.pushWaitQueue1.pushBackNothrow ⟨s.waitingQueue, w.calls⟩
    .ok ((w.afterAdding s).setQueue1 queue.items)

/-- `internal_add_retriables` with `push_wait_queue_2`. -/
def reentrantAddRetriables (pktArr : List Packet) (now : Int) : Except Fault World := do
  let c := w.controller
  let s ← w.addAll debug env now c.pktMap.capacity pktArr
  if s.waitingQueue = [] then .ok (w.afterAdding s)
  else do
    let queue ← c.pushWaitQueue2.pushBackNothrow ⟨s.waitingQueue, w.calls⟩
    .ok ((w.afterAdding s).setQueue2 queue.items)

/-! ## ack, get_retriables -/

/-- One round of the loop of `ack`; `exception_arr[i]` is `SUCCESS`. -/
def ackOne (w : World) (id : GlobalPacketIdentifier) : Except Fault World := do
  let pktMap ← w.controller.pktMap.erase debug id
  let ackedIdHashset ← w.controller.ackedIdHashset.insert env.keys id
  .ok { w with controller := { w.controller with pktMap, ackedIdHashset } }

def ack (idArr : List GlobalPacketIdentifier) (rounds : Nat → Round) : Except Fault World := do
  checkConsumeSize debug idArr.length w.controller.consumeSzPerLoad
  let w ← idArr.foldlM (ackOne debug env) w
  w.fulfillWaitQueue debug env rounds

/-- The loop of `get_retriables`, with `cap` places left in `output_arr`. -/
def takeExpired (timeBar : Int) :
    Nat → TemporalOrderedPacketMap → Except Fault (TemporalOrderedPacketMap × List Packet)
  | 0, m => .ok (m, [])
  | cap + 1, m => do
    let (m, nxt) ← m.getExpiredItem debug packetIdExtractor timeBar
    match nxt with
    | none => .ok (m, [])
    | some pkt => do
      let (m, output) ← takeExpired timeBar cap m
      .ok (m, pkt :: output)

def getRetriables (outputArrCap : Nat) (timeBar : Int) (rounds : Nat → Round) :
    Except Fault (World × List Packet) := do
  let (pktMap, output) ← takeExpired debug timeBar outputArrCap w.controller.pktMap
  let w ← (w.setMap pktMap).fulfillWaitQueue debug env rounds
  .ok (w, output)

/-! ## Runs -/

/-- A critical section, with what it reads from outside. -/
inductive Op where
  | addRetriables (pktArr : List Packet) (now : Int)
  | reentrantAddRetriables (pktArr : List Packet) (now : Int)
  | ack (idArr : List GlobalPacketIdentifier) (rounds : Nat → Round)
  | getRetriables (outputArrCap : Nat) (timeBar : Int) (rounds : Nat → Round)

/-- The world after a critical section, and what that returns. -/
def step : Op → Except Fault (World × List Packet)
  | .addRetriables pktArr now => do
    let w ← w.addRetriables debug env pktArr now
    .ok (w, [])
  | .reentrantAddRetriables pktArr now => do
    let w ← w.reentrantAddRetriables debug env pktArr now
    .ok (w, [])
  | .ack idArr rounds => do
    let w ← w.ack debug env idArr rounds
    .ok (w, [])
  | .getRetriables outputArrCap timeBar rounds =>
    w.getRetriables debug env outputArrCap timeBar rounds

end World

/-- The packets of the map that a critical section erases. -/
def World.erasedBy (w : World) : World.Op → List Packet
  | .ack idArr _ => (w.controller.pktMap.entries.map Prod.fst).filter fun pkt => pkt.id ∈ idArr
  | _ => []

/-- A critical section, with the packets that it returns and those that it erases. -/
structure Event where
  op : World.Op
  returned : List Packet
  erased : List Packet

def Step (debug : Bool) (env : Outside) (w : World) (e : Event) (w' : World) : Prop :=
  w.step debug env e.op = .ok (w', e.returned) ∧ e.erased = w.erasedBy e.op

def Fresh (config : Config) (w : World) : Prop :=
  ∃ c, getMemoryEfficientRetransmissionController config = .ok c ∧ w = ⟨c, [], 0, []⟩

end Retransmission
