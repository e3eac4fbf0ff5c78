import NeuralNetwork.StlExtension.CyclicUnorderedNodeMap
import NeuralNetwork.Funnel.Funnel
import NeuralNetwork.InternalRest.Mailbox.Model

/-!
# The inbound id controllers

`temporal_finite_unordered_set`, `InBoundIDController` and `HashDistributedInBoundIDController` of
`internal_rest/network_kernel_mailbox_impl1.h`, with their factories. Every call of `thru` holds the
controller's lock, so calls are steps.
-/

namespace Mailbox

open Cpp FlashStream Funnel Loop HashChain CyclicUnordered

structure TemporalFiniteUnorderedSet (K : Type) where
  base : CyclicUnorderedNodeSet K

namespace TemporalFiniteUnorderedSet

variable {K : Type} (keys : Keys K)

/-- `size_to_capacity`, a division by the load factor 0.5. It goes through `double`, exactly below
`2 ^ 53`; the factories bound `sz` by `2 ^ 25`. -/
def sizeToCapacity (sz : Nat) : Nat := sizeT (sz * 2)

def make (cap : Nat) : Except Fault (TemporalFiniteUnorderedSet K) := do
  return ⟨← CyclicUnorderedNodeMap.make .half (sizeToCapacity cap)⟩

def insert (s : TemporalFiniteUnorderedSet K) (key : K) :
    Except Fault (TemporalFiniteUnorderedSet K) := do
  let (base, _, _) ← s.base.tryEmplace keys key ()
  return ⟨base⟩

def contains (s : TemporalFiniteUnorderedSet K) (key : K) : Except Fault Bool :=
  s.base.contains keys key

end TemporalFiniteUnorderedSet

/-- `std::expected<bool, exception_t>`. -/
abbrev ThruResponse := Except Failure Bool

/-! ## InBoundIDController -/

structure InBoundIdController where
  idHashset : TemporalFiniteUnorderedSet KindGlobalPacketIdentifier
  consumeSzPerLoad : Nat

namespace InBoundIdController

variable (keys : Keys KindGlobalPacketIdentifier) (debugMode : Bool)

def maxConsumeSize (c : InBoundIdController) : Nat := c.consumeSzPerLoad

/-- One round of `thru`, with what it writes to `op[i]`. -/
def thruRound (c : InBoundIdController) (id : KindGlobalPacketIdentifier) :
    Except Fault (InBoundIdController × ThruResponse) := do
  if ← c.idHashset.contains keys id then
    return (c, .ok false)
  let idHashset ← c.idHashset.insert keys id
  return ({ c with idHashset := idHashset }, .ok true)

def thruLoop (c : InBoundIdController) :
    List KindGlobalPacketIdentifier → Except Fault (InBoundIdController × List ThruResponse)
  | [] => .ok (c, [])
  | id :: ids => do
    let (c, answer) ← c.thruRound keys id
    let (c, answers) ← thruLoop c ids
    return (c, answer :: answers)

def thru (c : InBoundIdController) (ids : List KindGlobalPacketIdentifier) :
    Except Fault (InBoundIdController × List ThruResponse) := do
  checkConsumeSize debugMode ids.length c.maxConsumeSize
  c.thruLoop keys ids

/-- The calls of `thru` for a sequence of batches. -/
def run (c : InBoundIdController) :
    List (List KindGlobalPacketIdentifier) →
      Except Fault (InBoundIdController × List (List ThruResponse))
  | [] => .ok (c, [])
  | ids :: batches => do
    let (c, answers) ← c.thru keys debugMode ids
    let (c, rest) ← run c batches
    return (c, answers :: rest)

end InBoundIdController

/-- `get_inbound_id_controller`; `consume_factor` has its default. -/
def getInboundIdController (idhashsetCap : Nat) : Except Fault InBoundIdController :=
  if 1 ≤ idhashsetCap ∧ idhashsetCap ≤ 2 ^ 25 then do
    let idHashset ← TemporalFiniteUnorderedSet.make idhashsetCap
    return ⟨idHashset, max (idhashsetCap >>> 4) 1⟩
  else .error (.invalidArgument "INVALID_ARGUMENT")

/-! ## HashDistributedInBoundIDController -/

structure HashDistributedInBoundIdController where
  inboundIdControllerVec : List InBoundIdController
  keyvalueAggregationCap : Nat
  consumeSzPerLoad : Nat

namespace HashDistributedInBoundIdController

variable (keys : Keys KindGlobalPacketIdentifier) (debugMode : Bool)

structure InternalResolutorArgument where
  pktId : KindGlobalPacketIdentifier
  /-- The index into `op`. -/
  badOp : Nat

/-- The controllers and `op`, while a batch is distributed. -/
structure Distributing where
  dstVec : List InBoundIdController
  op : List ThruResponse

/-- The second loop of `InternalResolutor::push`. -/
def writeBack (op : List ThruResponse) :
    List InternalResolutorArgument → List ThruResponse → List ThruResponse
  | _ :: args, .ok true :: responses => writeBack op args responses
  | arg :: args, response :: responses => writeBack (op.set arg.badOp response) args responses
  | _, _ => op

def push (s : Distributing) (group : Group Nat InternalResolutorArgument) :
    Except Fault Distributing :=
  match s.dstVec[group.1]? with
  | none => .error .outOfBounds
  | some controller => do
    let (controller, responses) ←
      controller.thru keys debugMode (group.2.map fun arg => arg.pktId)
    .ok ⟨s.dstVec.set group.1 controller, writeBack s.op group.2 responses⟩

def pushAll (s : Distributing) :
    List (Group Nat InternalResolutorArgument) → Except Fault Distributing
  | [] => .ok s
  | group :: groups => do
    let s ← push keys debugMode s group
    pushAll s groups

variable (hashReflectible : KindGlobalPacketIdentifier → Nat) (layout : EventLayout) (head : Nat)

def partitionedIdx (vecSz : Nat) (id : KindGlobalPacketIdentifier) : Nat :=
  hashReflectible id &&& subT vecSz 1

/-- What `thru` delivers for a batch. -/
def resolutorArgs (vecSz : Nat) (ids : List KindGlobalPacketIdentifier) :
    List (Nat × InternalResolutorArgument) :=
  ids.zipIdx.map fun (id, i) => (partitionedIdx hashReflectible vecSz id, ⟨id, i⟩)

/-- `layout` is that of `InternalResolutorArgument`, `head` where the deliverer's memory lies. -/
def thru (c : HashDistributedInBoundIdController) (ids : List KindGlobalPacketIdentifier) :
    Except Fault (HashDistributedInBoundIdController × List ThruResponse) := do
  let trimmedKeyvalueAggregationCap := min c.keyvalueAggregationCap ids.length
  let groups ← kvScope layout head trimmedKeyvalueAggregationCap
    (resolutorArgs hashReflectible c.inboundIdControllerVec.length ids)
  let s ← pushAll keys debugMode
    ⟨c.inboundIdControllerVec, List.replicate ids.length (.ok true)⟩ groups
  return ({ c with inboundIdControllerVec := s.dstVec }, s.op)

/-- The calls of `thru` for a sequence of batches. -/
def run (c : HashDistributedInBoundIdController) :
    List (List KindGlobalPacketIdentifier) →
      Except Fault (HashDistributedInBoundIdController × List (List ThruResponse))
  | [] => .ok (c, [])
  | ids :: batches => do
    let (c, answers) ← c.thru keys debugMode hashReflectible layout head ids
    let (c, rest) ← run c batches
    return (c, answers :: rest)

end HashDistributedInBoundIdController

def isPow2 (n : Nat) : Bool := n ≠ 0 ∧ n &&& (n - 1) = 0

/-- `get_randomhash_distributed_inbound_id_controller`, over controllers of the first kind. -/
def getRandomhashDistributedInboundIdController (baseVec : List InBoundIdController)
    (keyvalueAggregationCap : Nat) : Except Fault HashDistributedInBoundIdController :=
  if ¬ (1 ≤ baseVec.length ∧ baseVec.length ≤ 2 ^ 20) then
    .error (.invalidArgument "INVALID_ARGUMENT")
  else if ¬ isPow2 baseVec.length then .error (.invalidArgument "INVALID_ARGUMENT")
  else
    let consumptionSz := baseVec.foldl (fun sz c => min sz c.maxConsumeSize) (2 ^ 64 - 1)
    if ¬ (1 ≤ keyvalueAggregationCap ∧ keyvalueAggregationCap ≤ 2 ^ 25) then
      .error (.invalidArgument "INVALID_ARGUMENT")
    else
      .ok ⟨baseVec, min keyvalueAggregationCap consumptionSz, consumptionSz⟩

end Mailbox
