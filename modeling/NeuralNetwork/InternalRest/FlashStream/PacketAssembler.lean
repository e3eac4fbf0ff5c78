import NeuralNetwork.InternalRest.FlashStream.BlackListGate

/-!
# The packet assembler

`PacketAssembler` of `internal_rest/network_kernel_mailbox_impl1_flash_stream_x.h`: a bounded map
from identifiers to partly filled packets. Every call holds the assembler's lock. Allocations
succeed; `debugMode` is `DEBUG_MODE_FLAG`.
-/

namespace FlashStream

open Cpp Loop Stdx HashChain CyclicUnordered

structure PacketAssembler where
  packetMap : CyclicUnorderedNodeMap GlobalIdentifier AssembledPacket
  maxSegmentSzPerStream : Nat
  consumeSzPerLoad : Nat

namespace PacketAssembler

variable (keys : Keys GlobalIdentifier) (debugMode : Bool)

def maxConsumeSize (a : PacketAssembler) : Nat := a.consumeSzPerLoad

def makeEmptyAssembledPacket (segmentSz : Nat) (mmIntegrityValue : BitVec 64)
    (hasMmIntegrityValue : Bool) : AssembledPacket where
  data := List.replicate segmentSz none
  collectedSegmentSz := 0
  totalSegmentSz := segmentSz
  mmIntegrityValue := mmIntegrityValue
  hasMmIntegrityValue := hasMmIntegrityValue

/-- The packet with the segment put in, or why it stays as it is. -/
def internalPacketSegmentPut (pkt : AssembledPacket) (pktSegment : PacketSegment) :
    Except Exception AssembledPacket :=
  match pkt.data[pktSegment.segmentIdx.toNat]? with
  | none => .error .indexOutOfRange
  | some (some _) => .error .socketStreamDuplicatedSegment
  | some none => .ok { pkt with
      data := pkt.data.set pktSegment.segmentIdx.toNat (some pktSegment.buf)
      collectedSegmentSz := sizeT (pkt.collectedSegmentSz + 1) }

/-- `packet_map.erase(map_ptr)`. -/
def erase (a : PacketAssembler) (mapPtr : Nat) : Except Fault PacketAssembler := do
  let (packetMap, _) ← a.packetMap.internalEraseIter keys mapPtr
  return { a with packetMap := packetMap }

/-- The second half of a round of `assemble`, at the packet that `map_ptr` points to. -/
def putSegment (a : PacketAssembler) (mapPtr : Nat) (isNewMapPtr : Bool) (segment : PacketSegment) :
    Except Fault (PacketAssembler × Except Exception AssembledPacket) := do
  let node ← a.packetMap.virtualStorageVec.get mapPtr
  match internalPacketSegmentPut node.second segment with
  | .error err =>
    let a1 ← (if isNewMapPtr then a.erase keys mapPtr else .ok a)
    return (a1, .error err)
  | .ok pkt =>
    let a1 := { a with packetMap := a.packetMap.assign mapPtr pkt }
    if pkt.collectedSegmentSz = pkt.totalSegmentSz then
      return (← a1.erase keys mapPtr, .ok pkt)
    else
      return (a1, .error .socketStreamSegmentFilling)

/-- A round of `assemble`: the state and `assembled_arr[i]`. -/
def assembleOne (a : PacketAssembler) (segment : PacketSegment) :
    Except Fault (PacketAssembler × Except Exception AssembledPacket) :=
  if segment.segmentSz = 0 then
    .ok (a, .ok (makeEmptyAssembledPacket 0 segment.mmIntegrityValue segment.hasMmIntegrityValue))
  else do
    let mapPtr ← a.packetMap.find keys segment.id
    if mapPtr = a.packetMap.size then
      if segment.segmentSz.toNat > a.maxSegmentSzPerStream then
        return (a, .error .socketStreamBadSegmentSize)
      let waitingPkt := makeEmptyAssembledPacket segment.segmentSz.toNat segment.mmIntegrityValue
        segment.hasMmIntegrityValue
      let (packetMap, emplacePtr, status) ← a.packetMap.tryEmplace keys segment.id waitingPkt
      if status then
        putSegment keys { a with packetMap := packetMap } emplacePtr true segment
      else
        throw .abort
    else
      a.putSegment keys mapPtr false segment

def assembleLoop (a : PacketAssembler) :
    List PacketSegment → Except Fault (PacketAssembler × List (Except Exception AssembledPacket))
  | [] => .ok (a, [])
  | segment :: segments => do
    let (a1, assembled) ← a.assembleOne keys segment
    let (a2, rest) ← assembleLoop a1 segments
    return (a2, assembled :: rest)

def assemble (a : PacketAssembler) (segments : List PacketSegment) :
    Except Fault (PacketAssembler × List (Except Exception AssembledPacket)) := do
  checkConsumeSize debugMode segments.length a.maxConsumeSize
  a.assembleLoop keys segments

def destroyOne (a : PacketAssembler) (id : GlobalIdentifier) : Except Fault PacketAssembler := do
  let mapPtr ← a.packetMap.find keys id
  if mapPtr = a.packetMap.size then
    return a
  a.erase keys mapPtr

def destroy (a : PacketAssembler) (ids : List GlobalIdentifier) : Except Fault PacketAssembler := do
  checkConsumeSize debugMode ids.length a.maxConsumeSize
  ids.foldlM (destroyOne keys) a

inductive Call where
  | assemble (segments : List PacketSegment)
  | destroy (ids : List GlobalIdentifier)

/-- The assembler after a sequence of calls. -/
def run (a : PacketAssembler) : List Call → Except Fault PacketAssembler
  | [] => .ok a
  | .assemble segments :: calls => do
    let (a1, _) ← a.assemble keys debugMode segments
    run a1 calls
  | .destroy ids :: calls => do
    let a1 ← a.destroy keys debugMode ids
    run a1 calls

end PacketAssembler

end FlashStream
