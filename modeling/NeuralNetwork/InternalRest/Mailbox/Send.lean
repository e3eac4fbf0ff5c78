import NeuralNetwork.Funnel.Funnel
import NeuralNetwork.InternalRest.Mailbox.Model

/-!
# Sending through the mailbox

`RequestPacketGenerator::get` and `RetransmittableMailBoxController::send` of
`internal_rest/network_kernel_mailbox_impl1.h`, with the two delivery handles that `send` opens. The
answers of what `send` calls during one call are a `World`.
-/

namespace Mailbox

open Cpp FlashStream Funnel

/-! ## Building a request -/

/-- What `get` sees in its call for the input `i`: the id it is given, and whether the content can
be allocated. -/
structure RequestPacketGenerator where
  idGenGet : Nat → GlobalPacketIdentifier
  allocates : Nat → Bool
  hostAddr : Address

def RequestPacketGenerator.get (g : RequestPacketGenerator) (i : Nat) (arg : MailBoxArgument) :
    Except Failure RequestPacket :=
  if arg.content.length > maxRequestPacketContentSize then
    .error ⟨.socketBadBufferLength, by decide⟩
  else if g.allocates i then
    .ok ⟨⟨⟨g.idGenGet i, 0, 0⟩, g.hostAddr, arg.toAddr⟩, arg.content⟩
  else .error ⟨.resourceExhaustion, by decide⟩

/-! ## The outside world -/

/-- What the callees of one call of `send` answer. -/
structure World where
  packetGen : RequestPacketGenerator
  /-- `cstyle_initialize<RequestPacket>(pkt)` for the input `i`: `none`, or its error. -/
  copyRequest : Nat → Option Failure
  /-- What the outbound container sets for the `n`-th packet pushed to it. -/
  obException : Nat → ExceptionT
  obMaxConsumeSize : Nat
  retransmissionMaxConsumeSize : Nat

namespace RetransmittableMailBoxController

structure InternalOBArgument where
  arg : RequestPacket
  cpyArg : RequestPacket
  /-- The index into `request_exception_arr`. -/
  exceptionPtr : Nat

/-- The locals of `send`. `thru_sz` is the length of `idx_arr`; `offered` and `retried` are the
packets pushed to the outbound container and to the retransmission controller so far. -/
structure SendState where
  obDeliverer : DeliveryHandle InternalOBArgument
  retransmissionDeliverer : DeliveryHandle Packet
  exceptionArr : List ExceptionT
  requestExceptionArr : List ExceptionT
  idxArr : List Nat
  offered : List Packet
  retried : List Packet

variable (world : World)

/-- `InternalRetransmissionDeliverer::push`; the statuses of `add_retriables` are only logged. -/
def retransmissionPush (s : SendState) (batch : List Packet) : SendState :=
  { s with retried := s.retried ++ batch }

/-- `delvrsrv_deliver(retransmission_deliverer, pkt)`. -/
def retransmissionDeliver (s : SendState) (pkt : Packet) : SendState :=
  let (h, batches) := s.retransmissionDeliverer.deliver pkt
  batches.foldl retransmissionPush { s with retransmissionDeliverer := h }

/-- One round of the second loop of `InternalOBDeliverer::push`. -/
def obAnswer (s : SendState) (arg : InternalOBArgument) (e : ExceptionT) : SendState :=
  if isFailed e then
    { s with requestExceptionArr := s.requestExceptionArr.set arg.exceptionPtr e }
  else retransmissionDeliver s (virtualizeRequestPacket arg.cpyArg)

def obAnswers (exceptionArr : Nat → ExceptionT) :
    Nat → SendState → List InternalOBArgument → SendState
  | _, s, [] => s
  | i, s, arg :: args => obAnswers exceptionArr (i + 1) (obAnswer s arg (exceptionArr i)) args

def obPush (s : SendState) (batch : List InternalOBArgument) : SendState :=
  let pktDataArr := batch.map fun arg => virtualizeRequestPacket arg.arg
  obAnswers (fun i => world.obException (s.offered.length + i)) 0
    { s with offered := s.offered ++ pktDataArr } batch

def obDeliver (s : SendState) (arg : InternalOBArgument) : SendState :=
  let (h, batches) := s.obDeliverer.deliver arg
  batches.foldl (obPush world) { s with obDeliverer := h }

def sendRound (s : SendState) (i : Nat) (arg : MailBoxArgument) : SendState :=
  match world.packetGen.get i arg with
  | .error e => { s with exceptionArr := s.exceptionArr.set i e }
  | .ok pkt =>
    match world.copyRequest i with
    | some e => { s with exceptionArr := s.exceptionArr.set i e }
    | none =>
      obDeliver world { s with idxArr := s.idxArr ++ [i] } ⟨pkt, pkt, s.idxArr.length⟩

def sendLoop (s : SendState) : Nat → List MailBoxArgument → SendState
  | _, [] => s
  | i, arg :: args => sendLoop (sendRound world s i arg) (i + 1) args

/-- Closing the two handles, in the order of their destructors. -/
def closeHandles (s : SendState) : SendState :=
  let (h, batches) := s.obDeliverer.clear
  let s := batches.foldl (obPush world) { s with obDeliverer := h }
  let (h, batches) := s.retransmissionDeliverer.clear
  batches.foldl retransmissionPush { s with retransmissionDeliverer := h }

/-- `send`; `inbound_capacity` is its `max_consume_size`. -/
def send (debugMode : Bool) (inboundCapacity : Nat) (dataArr : List MailBoxArgument) :
    Except Fault SendState :=
  if debugMode ∧ dataArr.length > inboundCapacity then .error .abort
  else do
    let sz := dataArr.length
    let retransmissionDeliverer ← DeliveryHandle.openHandle
      (min (min world.retransmissionMaxConsumeSize sz) defaultAccumulationSize)
    let obDeliverer ← DeliveryHandle.openHandle
      (min (min world.obMaxConsumeSize sz) defaultAccumulationSize)
    .ok (closeHandles world (sendLoop world ⟨obDeliverer, retransmissionDeliverer,
      List.replicate sz .success, List.replicate sz .success, [], [], []⟩ 0 dataArr))

end RetransmittableMailBoxController

end Mailbox
