import NeuralNetwork.Lib.Run
import NeuralNetwork.StlExtension.CyclicUnorderedNodeMap

/-!
# The FIFO containers

`BufferFIFOContainer` (of `internal_rest/network_kernel_mailbox_impl1_flash_stream_x.h` and, again,
of `internal_rest/network_kernel_mailbox_impl1.h`) and `PacketFIFOContainer`. The three classes have
one body: a bounded queue and, behind it, the calls of `push` that did not fit. A waiting call keeps
its array alive until it is released, so its record holds the items themselves.
-/

deriving instance DecidableEq for CyclicUnordered.Pow2CyclicQueue

namespace CyclicUnordered.Pow2CyclicQueue

open Cpp

variable {T : Type} (q : Pow2CyclicQueue T)

/-- `nothrow_log(q.push_back(x))`. -/
def pushBackNothrow (x : T) : Except Fault (Pow2CyclicQueue T) :=
  if q.size = q.cap then .error .abort else .ok { q with items := q.items ++ [x] }

theorem pushBackNothrow_ok {T : Type} {q q' : Pow2CyclicQueue T} {x : T}
    (h : q.pushBackNothrow x = .ok q') :
    q.size ≠ q.cap ∧ q' = { q with items := q.items ++ [x] } := by
  unfold pushBackNothrow at h
  split at h
  · cases h
  · rename_i hroom
    cases h
    exact ⟨hroom, rfl⟩

/-- `q.resize(q.size() + xs.size())` and a copy of `xs` to the new places; a refused `resize` goes
unnoticed and the copy leaves the queue. -/
def resizeCopy (xs : List T) : Except Fault (Pow2CyclicQueue T) :=
  if q.size + xs.length > q.cap then .error .outOfBounds
  else .ok { q with items := q.items ++ xs }

def eraseFrontRange (sz : Nat) : Pow2CyclicQueue T := { q with items := q.items.drop sz }

end CyclicUnordered.Pow2CyclicQueue

namespace FifoContainer

open Cpp Loop CyclicUnordered

/-- `BufferContainerWaitingItem` or `PacketContainerWaitingItem`; `smp` names the call of `push`. -/
structure WaitingItem (T : Type) where
  arr : List T
  smp : Nat
deriving DecidableEq

structure FIFOContainer (T : Type) where
  waitingItemVec : Pow2CyclicQueue (WaitingItem T)
  vec : Pow2CyclicQueue T
  vecCapacity : Nat
  consumeSzPerLoad : Nat
deriving DecidableEq

/-- With items of type `internal_huge_kernel_buffer` or `internal_kernel_buffer`. -/
abbrev BufferFIFOContainer := FIFOContainer

/-- With items of type `Packet`. -/
abbrev PacketFIFOContainer := FIFOContainer

variable {T : Type}

/-- The constructor, on new queues of these exponents. -/
def make (waitingExponent vecExponent vecCapacity consumeSzPerLoad : Nat) : FIFOContainer T :=
  ⟨.make waitingExponent, .make vecExponent, vecCapacity, consumeSzPerLoad⟩

/-! ## push -/

/-- The critical section of the call `smp` of `push`; the flag is `need_acquire`. -/
def push (debug : Bool) (c : FIFOContainer T) (arr : List T) (smp : Nat) :
    Except Fault (FIFOContainer T × Bool) :=
  if debug ∧ arr.length > c.consumeSzPerLoad then .error .abort
  else do
    let appCap := subT c.vecCapacity c.vec.size
    let appSz := min arr.length appCap
    let vec ← c.vec.resizeCopy (arr.take appSz)
    if appSz ≠ arr.length then do
      let waitingItemVec ← c.waitingItemVec.pushBackNothrow ⟨arr.drop appSz, smp⟩
      .ok ({ c with vec, waitingItemVec }, true)
    else .ok ({ c with vec }, false)

/-! ## pop -/

/-- The container, `output_arr[0 .. sz)` and the calls of `push` released so far. -/
structure PopState (T : Type) where
  container : FIFOContainer T
  output : List T
  released : List Nat
deriving DecidableEq

def popRound (cap : Nat) (s : PopState T) : Except Fault (ForInStep (PopState T)) :=
  if s.output.length = cap then .ok (.done s)
  else
    let remCap := cap - s.output.length
    let c := s.container
    match c.waitingItemVec.items with
    | front :: others =>
      let appSz := min remCap front.arr.length
      let output := s.output ++ front.arr.take appSz
      if appSz = front.arr.length then
        .ok (.yield ⟨{ c with waitingItemVec := { c.waitingItemVec with items := others } }, output,
          s.released ++ [front.smp]⟩)
      else
        let front := { front with arr := front.arr.drop appSz }
        .ok (.yield ⟨{ c with waitingItemVec := { c.waitingItemVec with items := front :: others } },
          output, s.released⟩)
    | [] =>
      if c.vec.size ≠ 0 then
        let appSz := min remCap c.vec.size
        .ok (.yield ⟨{ c with vec := c.vec.eraseFrontRange appSz },
          s.output ++ c.vec.items.take appSz, s.released⟩)
      else .ok (.done s)

/-- `pop` with `output_arr_cap = cap`: every round but the last fills the output or empties a waiting
item, so `cap` and their number bound the rounds. -/
def pop (c : FIFOContainer T) (cap : Nat) : Except Fault (PopState T) :=
  whileLoop .outOfFuel (popRound cap) (cap + c.waitingItemVec.size + 1) ⟨c, [], []⟩

/-! ## Runs -/

inductive Op (T : Type) where
  | push (arr : List T)
  | pop (cap : Nat)

abbrev Event (T : Type) := Op T × List T

/-- One critical section; the calls are named by their number. -/
inductive Step (debug : Bool) : FIFOContainer T → Event T → FIFOContainer T → Prop
  | push {c c' : FIFOContainer T} {arr : List T} {smp : Nat} {needAcquire : Bool} :
      push debug c arr smp = .ok (c', needAcquire) → Step debug c (.push arr, []) c'
  | pop {c : FIFOContainer T} {cap : Nat} {s : PopState T} :
      pop c cap = .ok s → Step debug c (.pop cap, s.output) s.container

/-- A container on which no call has run. -/
def Fresh (c : FIFOContainer T) : Prop :=
  ∃ waitingExponent vecExponent vecCapacity consumeSz,
    vecCapacity < 2 ^ 64 ∧ c = make waitingExponent vecExponent vecCapacity consumeSz

end FifoContainer
