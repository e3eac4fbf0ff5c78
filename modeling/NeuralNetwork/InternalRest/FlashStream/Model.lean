import NeuralNetwork.Lib.Cpp

/-!
# Identifiers, segments and packets of the flash stream

The data types of `internal_rest/network_kernel_mailbox_impl1_flash_stream_x.h` and the addresses
of `network_kernel_mailbox_impl1.h` that identifiers hold. A kernel buffer is the list of its bytes.
-/

namespace FlashStream

open Cpp

structure IPv4 where
  ipBuf : Vector Byte 4
deriving DecidableEq, Repr

structure IPv6 where
  ipBuf : Vector Byte 16
deriving DecidableEq, Repr

/-- `std::variant<IPv4, IPv6>`. -/
inductive IP where
  | v4 (ip : IPv4)
  | v6 (ip : IPv6)
deriving DecidableEq, Repr

structure Address where
  ip : IP
  port : BitVec 16
deriving DecidableEq, Repr

/-- Compared, by the containers, through its serialized bytes, which determine it. -/
structure GlobalIdentifier where
  addr : Address
  localId : BitVec 64 × BitVec 64
deriving DecidableEq, Repr

/-- The codes of `network_exception` that the stream returns. -/
inductive Exception where
  | success
  | invalidArgument
  | socketStreamBlacklisted
  | socketStreamBadSegment
  | socketStreamBadSegmentSize
  | socketStreamSegmentFilling
  | socketStreamDuplicatedSegment
  | socketStreamCorruptedPacket
  | indexOutOfRange
deriving DecidableEq, Repr

structure PacketSegment where
  buf : List Byte
  id : GlobalIdentifier
  segmentIdx : BitVec 64
  segmentSz : BitVec 64
  mmIntegrityValue : BitVec 64
  hasMmIntegrityValue : Bool
deriving DecidableEq, Repr

structure AssembledPacket where
  data : List (Option (List Byte))
  collectedSegmentSz : Nat
  totalSegmentSz : Nat
  mmIntegrityValue : BitVec 64
  hasMmIntegrityValue : Bool
deriving DecidableEq, Repr

/-- `if constexpr(DEBUG_MODE_FLAG)`: a batch larger than `max_consume_size` aborts. -/
def checkConsumeSize (debugMode : Bool) (sz maxConsumeSize : Nat) : Except Fault Unit :=
  if debugMode ∧ sz > maxConsumeSize then .error .abort else .ok ()

theorem checkConsumeSize_ok {debugMode : Bool} {sz maxSz : Nat} (h : debugMode = true → sz ≤ maxSz) :
    checkConsumeSize debugMode sz maxSz = .ok () := by
  refine if_neg fun hc => ?_
  have := h hc.1
  omega

end FlashStream
