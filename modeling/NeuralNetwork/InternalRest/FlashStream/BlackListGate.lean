import NeuralNetwork.StlExtension.CyclicUnorderedNodeMap
import NeuralNetwork.InternalRest.FlashStream.Model

/-!
# The high precision blacklist gate

`temporal_finite_unordered_set` and `HighPrecisionTemporalBlackListGate` of
`internal_rest/network_kernel_mailbox_impl1_flash_stream_x.h`. Every call holds the gate's lock, so
calls are steps. `debugMode` is `DEBUG_MODE_FLAG`.
-/

namespace FlashStream

open Cpp Loop Stdx HashChain CyclicUnordered

structure TemporalFiniteUnorderedSet (K : Type) where
  setContainer : CyclicUnorderedNodeSet K

namespace TemporalFiniteUnorderedSet

variable {K : Type} (keys : Keys K)

def make (tentativeCap : Nat) : Except Fault (TemporalFiniteUnorderedSet K) := do
  return ⟨← CyclicUnorderedNodeMap.make .half (sizeT (tentativeCap * 2))⟩

/-- As in the source: the answer is `contains`. -/
def notContains (s : TemporalFiniteUnorderedSet K) (key : K) : Except Fault Bool :=
  s.setContainer.contains keys key

def insert (s : TemporalFiniteUnorderedSet K) (key : K) :
    Except Fault (TemporalFiniteUnorderedSet K) := do
  let (setContainer, _, _) ← s.setContainer.tryEmplace keys key ()
  return ⟨setContainer⟩

end TemporalFiniteUnorderedSet

structure HighPrecisionTemporalBlackListGate where
  blacklistSet : TemporalFiniteUnorderedSet GlobalIdentifier
  thruSzPerLoad : Nat

namespace HighPrecisionTemporalBlackListGate

variable (keys : Keys GlobalIdentifier) (debugMode : Bool)

/-- A gate around a set of `tentativeCap`. -/
def make (tentativeCap thruSzPerLoad : Nat) : Except Fault HighPrecisionTemporalBlackListGate := do
  return ⟨← TemporalFiniteUnorderedSet.make tentativeCap, thruSzPerLoad⟩

def maxConsumeSize (gate : HighPrecisionTemporalBlackListGate) : Nat := gate.thruSzPerLoad

/-- What `thru` writes to `exception_arr[i]`. -/
def thruOne (gate : HighPrecisionTemporalBlackListGate) (id : GlobalIdentifier) :
    Except Fault Exception := do
  return if ← gate.blacklistSet.notContains keys id then .success else .socketStreamBlacklisted

def thru (gate : HighPrecisionTemporalBlackListGate) (ids : List GlobalIdentifier) :
    Except Fault (List Exception) :=
  ids.mapM (gate.thruOne keys)

/-- The loop of `blacklist`, which answers `SUCCESS` for every identifier. -/
def blacklistLoop (gate : HighPrecisionTemporalBlackListGate) :
    List GlobalIdentifier → Except Fault (HighPrecisionTemporalBlackListGate × List Exception)
  | [] => .ok (gate, [])
  | id :: ids => do
    let blacklistSet ← gate.blacklistSet.insert keys id
    let (gate1, exceptions) ← blacklistLoop { gate with blacklistSet := blacklistSet } ids
    return (gate1, .success :: exceptions)

def blacklist (gate : HighPrecisionTemporalBlackListGate) (ids : List GlobalIdentifier) :
    Except Fault (HighPrecisionTemporalBlackListGate × List Exception) := do
  checkConsumeSize debugMode ids.length gate.maxConsumeSize
  gate.blacklistLoop keys ids

inductive Call where
  | thru (ids : List GlobalIdentifier)
  | blacklist (ids : List GlobalIdentifier)

def run (gate : HighPrecisionTemporalBlackListGate) :
    List Call → Except Fault HighPrecisionTemporalBlackListGate
  | [] => .ok gate
  | .thru ids :: calls => do
    let _ ← gate.thru keys ids
    run gate calls
  | .blacklist ids :: calls => do
    let (gate1, _) ← gate.blacklist keys debugMode ids
    run gate1 calls

end HighPrecisionTemporalBlackListGate

end FlashStream
