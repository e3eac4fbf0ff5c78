import NeuralNetwork.Funnel.Scopes
import NeuralNetwork.InternalRest.Mailbox.InBoundIdController

/-!
# An epoch of the inbound worker

`InBoundWorker::run_one_epoch` of `internal_rest/network_kernel_mailbox_impl1.h`, with its resolutors
and the handles between them, and `AckPacketGenerator::get`. What the components of the worker answer
in one epoch is part of the worker; the calls of those that only take are a `World`.
-/

namespace Mailbox

open Cpp FlashStream Funnel

/-- What `get` sees in its `n`-th call: the id it is given, and the error of a failed allocation. -/
structure AckPacketGenerator where
  idGenGet : Nat → GlobalPacketIdentifier
  allocation : Nat → Option Failure
  hostAddr : Address

namespace AckPacketGenerator

def getPriority : List PacketBase → Byte
  | [] => 0
  | pktBase :: rest =>
    rest.foldl (fun rs e => if rs < e.retransmissionCount then e.retransmissionCount else rs)
      pktBase.retransmissionCount

def get (g : AckPacketGenerator) (n : Nat) (toAddr : Address) (pktBaseArr : List PacketBase) :
    Except Failure AckPacket :=
  if pktBaseArr.length > maxAckPerPacket then .error ⟨.invalidArgument, by decide⟩
  else
    match g.allocation n with
    | some err => .error err
    | none => .ok ⟨⟨⟨g.idGenGet n, 0, getPriority pktBaseArr⟩, g.hostAddr, toAddr⟩, pktBaseArr⟩

end AckPacketGenerator

/-- The worker, with what its components answer in an epoch. -/
structure InBoundWorker where
  /-- `packet_service::deserialize_packet`. -/
  deserializePacket : List Byte → Except Failure Packet
  /-- `packet_integrity_validator->is_valid`. -/
  isValid : Packet → ExceptionT
  /-- The response of `inbound_border_controller->thru` to the `n`-th address. -/
  borderThru : Nat → Address → ExceptionT
  /-- The response of `inbound_id_controller->thru` to the `n`-th id. -/
  idThru : Nat → KindGlobalPacketIdentifier → ThruResponse
  ackPacketGen : AckPacketGenerator
  retransmissionMaxConsumeSize : Nat
  inboundPacketMaxConsumeSize : Nat
  outboundPacketMaxConsumeSize : Nat
  idMaxConsumeSize : Nat
  borderMaxConsumeSize : Nat
  ackVectorizationSz : Nat
  busyThresholdSz : Nat
  /-- The type of the events of the key-value handle, and where its memory lies. -/
  packetBaseLayout : EventLayout
  ackVectorizerMem : Nat

namespace InBoundWorker

/-- The calls of `retransmission_controller->ack`, `inbound_packet_container->push` and
`outbound_packet_container->push`; their statuses are only logged. -/
structure World where
  ackCalls : List (List GlobalPacketIdentifier)
  inboundPushes : List (List Packet)
  outboundPushes : List (List Packet)
deriving DecidableEq

variable (debug : Bool) (worker : InBoundWorker)

/-! ## The outermost handles -/

/-- `InternalRetransmissionAckDeliveryResolutor::push`. -/
def ackidPush (w : World) (batch : List GlobalPacketIdentifier) : Except Fault World := do
  checkConsumeSize debug batch.length worker.retransmissionMaxConsumeSize
  .ok { w with ackCalls := w.ackCalls ++ [batch] }

abbrev AckidScope := Scoped (DeliveryHandle GlobalPacketIdentifier) World

/-- `InternalPacketDeliveryResolutor::push` with the inbound container. -/
def ibpktPush (s : AckidScope) (batch : List Packet) : Except Fault AckidScope :=
  s.inOuter fun w => do
    checkConsumeSize debug batch.length worker.inboundPacketMaxConsumeSize
    .ok { w with inboundPushes := w.inboundPushes ++ [batch] }

abbrev IbpktScope := Scoped (DeliveryHandle Packet) AckidScope

/-- `InternalPacketDeliveryResolutor::push` with the outbound container. -/
def obpktPush (s : IbpktScope) (batch : List Packet) : Except Fault IbpktScope :=
  s.inOuter fun s => s.inOuter fun w => do
    checkConsumeSize debug batch.length worker.outboundPacketMaxConsumeSize
    .ok { w with outboundPushes := w.outboundPushes ++ [batch] }

abbrev ObpktScope := Scoped (DeliveryHandle Packet) IbpktScope

/-! ## Acknowledgements for the senders -/

/-- With the number of calls of `ack_packet_gen->get`. -/
abbrev AckPacketGenScope := Scoped Nat ObpktScope

/-- `InternalAckVectorizerResolutor::push`. -/
def ackVectorizerPush (s : AckPacketGenScope) (group : Group Address PacketBase) :
    Except Fault AckPacketGenScope :=
  match worker.ackPacketGen.get s.here group.1 group.2 with
  | .error _ => .ok { s with here := s.here + 1 }
  | .ok ackPkt => do
    let outer ← s.outer.deliver (obpktPush debug worker) (virtualizeAckPacket ackPkt)
    .ok ⟨s.here + 1, outer⟩

abbrev AckVectorizerScope := Scoped (KVDeliveryHandle Address PacketBase) AckPacketGenScope

/-- `delvrsrv_kv_deliver(ack_vectorizer, pkt.fr_addr, pkt)`. -/
def ackVectorizerDeliver (s : AckVectorizerScope) (pkt : Packet) :
    Except Fault AckVectorizerScope :=
  s.deliverKV (ackVectorizerPush debug worker) pkt.frAddr pkt.toPacketBase

/-! ## New packets, by their kind -/

/-- `delvrsrv_deliver(packet_id_deliverer, id)`. -/
def ackidDeliver (s : AckVectorizerScope) (id : GlobalPacketIdentifier) :
    Except Fault AckVectorizerScope :=
  s.inOuter fun s => s.inOuter fun s => s.inOuter fun s => s.inOuter fun s =>
    s.deliver (ackidPush debug worker) id

/-- One round of the loop of `InternalThruAckResolutor::push`. -/
def thruAckOne (s : AckVectorizerScope) (pkt : Packet) : Except Fault AckVectorizerScope :=
  match pkt.xonlyContent with
  | .ack ackVec => (ackVec.map fun e => e.id).foldlM (ackidDeliver debug worker) s
  | _ => .error .abort

/-- `InternalThruAckResolutor::push`. -/
def thruAckPush (s : AckVectorizerScope) (batch : List Packet) : Except Fault AckVectorizerScope :=
  batch.foldlM (thruAckOne debug worker) s

abbrev ThruAckScope := Scoped (DeliveryHandle Packet) AckVectorizerScope

/-- `delvrsrv_deliver(inbound_deliverer, pkt)`. -/
def ibpktDeliver (s : ThruAckScope) (pkt : Packet) : Except Fault ThruAckScope :=
  s.inOuter fun s => s.inOuter fun s => s.inOuter fun s => s.inOuter fun s =>
    s.deliver (ibpktPush debug worker) pkt

/-- One round of the loop of `InternalThruRequestResolutor::push`. -/
def thruRequestOne (s : ThruAckScope) (pkt : Packet) : Except Fault ThruAckScope := do
  let s ← s.inOuter fun s => ackVectorizerDeliver debug worker s pkt
  ibpktDeliver debug worker s pkt

/-- `InternalThruRequestResolutor::push`. -/
def thruRequestPush (s : ThruAckScope) (batch : List Packet) : Except Fault ThruAckScope :=
  batch.foldlM (thruRequestOne debug worker) s

abbrev ThruRequestScope := Scoped (DeliveryHandle Packet) ThruAckScope

/-- `InternalThruKRescueResolutor::push`. -/
def thruKRescuePush (s : ThruRequestScope) (_ : List Packet) : Except Fault ThruRequestScope :=
  .ok s

abbrev ThruKRescueScope := Scoped (DeliveryHandle Packet) ThruRequestScope

/-- One round of the loop of `InternalThruResolutor::push`. -/
def thruOne (s : ThruKRescueScope) (pkt : Packet) : Except Fault ThruKRescueScope :=
  match getPacketPolymorphicType pkt with
  | .ack => s.inOuter fun s => s.inOuter fun s => s.deliver (thruAckPush debug worker) pkt
  | .request => s.inOuter fun s => s.deliver (thruRequestPush debug worker) pkt
  | .krescue => s.deliver thruKRescuePush pkt

/-- `InternalThruResolutor::push`. -/
def thruPush (s : ThruKRescueScope) (batch : List Packet) : Except Fault ThruKRescueScope :=
  batch.foldlM (thruOne debug worker) s

abbrev ThruScope := Scoped (DeliveryHandle Packet) ThruKRescueScope

/-! ## Duplicates -/

/-- One round of the loop of `InternalNoThruAckResolutor::push`. -/
def nothruAckOne (s : ThruScope) (pkt : Packet) : Except Fault ThruScope :=
  s.inOuter fun s => s.inOuter fun s => s.inOuter fun s => s.inOuter fun s =>
    ackVectorizerDeliver debug worker s pkt

/-- `InternalNoThruAckResolutor::push`. -/
def nothruAckPush (s : ThruScope) (batch : List Packet) : Except Fault ThruScope :=
  batch.foldlM (nothruAckOne debug worker) s

abbrev NothruAckScope := Scoped (DeliveryHandle Packet) ThruScope

/-- The packets given to `inbound_id_controller->thru`, with the responses. -/
abbrev IdScope := Scoped (List (Packet × ThruResponse)) NothruAckScope

/-- One round of the loop of `InternalInBoundIDResolutor::push`. -/
def inboundOne (s : NothruAckScope) (answer : Packet × ThruResponse) :
    Except Fault NothruAckScope :=
  match answer.2 with
  | .error _ => .ok s
  | .ok true => s.inOuter fun s => s.deliver (thruPush debug worker) answer.1
  | .ok false =>
    if getPacketPolymorphicType answer.1 = .request then
      s.deliver (nothruAckPush debug worker) answer.1
    else .ok s

/-- `InternalInBoundIDResolutor::push`. -/
def inboundPush (s : IdScope) (batch : List Packet) : Except Fault IdScope := do
  checkConsumeSize debug batch.length worker.idMaxConsumeSize
  let answers := batch.mapIdx fun i pkt =>
    (pkt, worker.idThru (s.here.length + i) (getKindGlobalIdFromPacket pkt))
  let outer ← answers.foldlM (inboundOne debug worker) s.outer
  .ok ⟨s.here ++ answers, outer⟩

abbrev InboundScope := Scoped (DeliveryHandle Packet) IdScope

/-! ## The traffic -/

/-- With the number of addresses given to `inbound_border_controller->thru`. -/
abbrev BorderScope := Scoped Nat InboundScope

/-- One round of the loop of `InternalTrafficResolutor::push`. -/
def trafficOne (s : InboundScope) (answer : Packet × ExceptionT) : Except Fault InboundScope :=
  if isFailed answer.2 then .ok s else s.deliver (inboundPush debug worker) answer.1

/-- `InternalTrafficResolutor::push`. -/
def trafficPush (s : BorderScope) (batch : List Packet) : Except Fault BorderScope := do
  checkConsumeSize debug batch.length worker.borderMaxConsumeSize
  let answers := batch.mapIdx fun i pkt => (pkt, worker.borderThru (s.here + i) pkt.frAddr)
  let outer ← answers.foldlM (trafficOne debug worker) s.outer
  .ok ⟨s.here + batch.length, outer⟩

abbrev TrafficScope := Scoped (DeliveryHandle Packet) BorderScope

/-- One round of the loop of `run_one_epoch`. -/
def receive (s : TrafficScope) (buf : List Byte) : Except Fault TrafficScope :=
  match worker.deserializePacket buf with
  | .error _ => .ok s
  | .ok pkt =>
    if isFailed (worker.isValid pkt) then .ok s else s.deliver (trafficPush debug worker) pkt

/-- The handles that `run_one_epoch` opens for a batch of `bufArrSz` buffers. -/
def openHandles (bufArrSz : Nat) : Except Fault TrafficScope := do
  let trimmed := fun maxConsumeSize => min (min maxConsumeSize bufArrSz) defaultAccumulationSize
  let accumulation := min defaultAccumulationSize bufArrSz
  let s ← Scoped.openHandle (min (min worker.retransmissionMaxConsumeSize
    (sizeT (bufArrSz * maxAckPerPacket))) defaultAccumulationSize) (⟨[], [], []⟩ : World)
  let s ← Scoped.openHandle (trimmed worker.inboundPacketMaxConsumeSize) s
  let s ← Scoped.openHandle (trimmed worker.outboundPacketMaxConsumeSize) s
  let s ← Scoped.openKV worker.packetBaseLayout worker.ackVectorizerMem
    (min worker.ackVectorizationSz bufArrSz) (⟨0, s⟩ : AckPacketGenScope)
  -- thru_ack, thru_request, thru_krescue, thru and nothru_ack
  let s ← Scoped.openHandle accumulation s
  let s ← Scoped.openHandle accumulation s
  let s ← Scoped.openHandle accumulation s
  let s ← Scoped.openHandle accumulation s
  let s ← Scoped.openHandle accumulation s
  let s ← Scoped.openHandle (trimmed worker.idMaxConsumeSize) (⟨[], s⟩ : IdScope)
  Scoped.openHandle (trimmed worker.borderMaxConsumeSize) (⟨0, s⟩ : BorderScope)

/-- Their destructors, in the order they run. What is left is the world, with the responses of the id
controller. -/
def closeHandles (s : TrafficScope) : Except Fault (World × List (Packet × ThruResponse)) := do
  let s ← s.close (trafficPush debug worker)
  let s ← s.outer.close (inboundPush debug worker)
  let responses := s.here
  let s ← s.outer.close (nothruAckPush debug worker)
  let s ← s.close (thruPush debug worker)
  let s ← s.close thruKRescuePush
  let s ← s.close (thruRequestPush debug worker)
  let s ← s.close (thruAckPush debug worker)
  let s ← s.closeKV (ackVectorizerPush debug worker)
  let s ← s.outer.close (obpktPush debug worker)
  let s ← s.close (ibpktPush debug worker)
  let w ← s.close (ackidPush debug worker)
  .ok (w, responses)

/-- What an epoch leaves, and what `run_one_epoch` returns. -/
structure Epoch where
  world : World
  responses : List (Packet × ThruResponse)
  busy : Bool

/-- `run_one_epoch`, where the inbound buffer container gives `buf_arr`. -/
def runOneEpoch (bufArr : List (List Byte)) : Except Fault Epoch := do
  let s ← worker.openHandles bufArr.length
  let s ← bufArr.foldlM (receive debug worker) s
  let (world, responses) ← closeHandles debug worker s
  .ok ⟨world, responses, bufArr.length ≥ worker.busyThresholdSz⟩

end InBoundWorker

end Mailbox
