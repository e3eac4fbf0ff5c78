import NeuralNetwork.InternalRest.FlashStream.Model

/-!
# Packets of the mailbox

The data types of `internal_rest/network_kernel_mailbox_impl1.h` and its exception codes (from
`common_exception/common_exception.h`). A kernel buffer is the list of its bytes.
-/

namespace Mailbox

open Cpp FlashStream

/-! ## Exceptions -/

abbrev ExceptionT := BitVec 16

namespace ExceptionT

def success : ExceptionT := 0
def invalidDictionaryKey : ExceptionT := 5
def invalidArgument : ExceptionT := 13
def resourceExhaustion : ExceptionT := 19
def socketCorruptedPacket : ExceptionT := 24
def socketMalformedPacket : ExceptionT := 25
def socketAckedEnqueue : ExceptionT := 26
def socketBadBufferLength : ExceptionT := 30
def socketMaxRetransmissionReached : ExceptionT := 31
def socketQueueFull : ExceptionT := 32
def duplicatedEntry : ExceptionT := 44
def expectedNotInitialized : ExceptionT := 45
def restClientsideTimeout : ExceptionT := 54
def restResponseDoubleInvoke : ExceptionT := 60
def restTicketNotFound : ExceptionT := 62
def restTicketObserverNotFound : ExceptionT := 63
def restInvalidTimeout : ExceptionT := 65
def restMaxConsumeSizeExceeded : ExceptionT := 66

end ExceptionT

abbrev isFailed (e : ExceptionT) : Prop := e ≠ ExceptionT.success

/-- What a `std::unexpected<exception_t>` carries. -/
abbrev Failure := { e : ExceptionT // isFailed e }

/-! ## Packets -/

structure GlobalPacketIdentifier where
  localPacketId : BitVec 64
  factoryId : Vector Byte 20
deriving DecidableEq, Repr

inductive PacketKind where
  | ack
  | request
  | krescue
deriving DecidableEq, Repr

structure KindGlobalPacketIdentifier where
  id : GlobalPacketIdentifier
  kind : PacketKind
deriving DecidableEq, Repr

structure PacketBase where
  id : GlobalPacketIdentifier
  retransmissionCount : Byte
  priority : Byte
deriving DecidableEq, Repr

structure PacketHeader extends PacketBase where
  frAddr : Address
  toAddr : Address
deriving DecidableEq, Repr

structure RequestPacket extends PacketHeader where
  content : List Byte
deriving DecidableEq, Repr

structure AckPacket extends PacketHeader where
  ackVec : List PacketBase
deriving DecidableEq, Repr

structure KRescuePacket extends PacketHeader
deriving DecidableEq, Repr

/-- `std::variant<XOnlyKRescuePacket, XOnlyRequestPacket, XOnlyAckPacket>`. -/
inductive XOnlyContent where
  | krescue
  | request (content : List Byte)
  | ack (ackVec : List PacketBase)
deriving DecidableEq, Repr

structure Packet extends PacketHeader where
  xonlyContent : XOnlyContent
deriving DecidableEq, Repr

structure MailBoxArgument where
  toAddr : Address
  content : List Byte
deriving DecidableEq, Repr

def maxRequestPacketContentSize : Nat := 2 ^ 9
def maxAckPerPacket : Nat := 2 ^ 2
def defaultAccumulationSize : Nat := 2 ^ 8

/-! ## packet_service -/

def virtualizeRequestPacket (pkt : RequestPacket) : Packet :=
  ⟨pkt.toPacketHeader, .request pkt.content⟩

def virtualizeAckPacket (pkt : AckPacket) : Packet := ⟨pkt.toPacketHeader, .ack pkt.ackVec⟩

def virtualizeKRescuePacket (pkt : KRescuePacket) : Packet := ⟨pkt.toPacketHeader, .krescue⟩

def getPacketPolymorphicType (pkt : Packet) : PacketKind :=
  match pkt.xonlyContent with
  | .request _ => .request
  | .ack _ => .ack
  | .krescue => .krescue

def getKindGlobalIdFromPacket (pkt : Packet) : KindGlobalPacketIdentifier :=
  ⟨pkt.id, getPacketPolymorphicType pkt⟩

end Mailbox
