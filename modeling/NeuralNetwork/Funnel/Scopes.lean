import NeuralNetwork.Funnel.Funnel

/-!
# Nested delivery handles

Handles that are opened one after the other in one scope, where the consumer of a handle may deliver
to the handles opened before it. `Scoped H S` is a local variable with the state of what is around
it; a handle is closed by its destructor, which leaves the state around it.
-/

namespace Funnel

open Cpp

/-- A local variable and the state around it. -/
structure Scoped (H S : Type) where
  here : H
  outer : S

namespace Scoped

variable {H S K E : Type}

/-- An operation on the state around. -/
def inOuter (f : S → Except Fault S) (s : Scoped H S) : Except Fault (Scoped H S) := do
  let outer ← f s.outer
  .ok { s with outer }

/-! ## Plain handles -/

def openHandle (deliverableCap : Nat) (s : S) : Except Fault (Scoped (DeliveryHandle E) S) := do
  let h ← DeliveryHandle.openHandle deliverableCap
  .ok ⟨h, s⟩

/-- `delvrsrv_deliver`, to a handle whose consumer is `push`. -/
def deliver (push : S → List E → Except Fault S) (s : Scoped (DeliveryHandle E) S) (event : E) :
    Except Fault (Scoped (DeliveryHandle E) S) := do
  let (h, batches) := s.here.deliver event
  let outer ← batches.foldlM push s.outer
  .ok ⟨h, outer⟩

/-- The destructor of the handle. -/
def close (push : S → List E → Except Fault S) (s : Scoped (DeliveryHandle E) S) : Except Fault S :=
  s.here.clear.2.foldlM push s.outer

/-! ## Key-value handles -/

def openKV (layout : EventLayout) (head deliverableCap : Nat) (s : S) :
    Except Fault (Scoped (KVDeliveryHandle K E) S) := do
  let h ← KVDeliveryHandle.openHandle layout head deliverableCap
  .ok ⟨h, s⟩

/-- `delvrsrv_kv_deliver`. -/
def deliverKV [DecidableEq K] (push : S → Group K E → Except Fault S)
    (s : Scoped (KVDeliveryHandle K E) S) (key : K) (event : E) :
    Except Fault (Scoped (KVDeliveryHandle K E) S) := do
  let (h, groups) ← s.here.deliver key event
  let outer ← groups.foldlM push s.outer
  .ok ⟨h, outer⟩

def closeKV (push : S → Group K E → Except Fault S) (s : Scoped (KVDeliveryHandle K E) S) :
    Except Fault S := do
  let (_, groups) ← s.here.clear
  groups.foldlM push s.outer

end Scoped

end Funnel
