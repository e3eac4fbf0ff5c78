import NeuralNetwork.InternalRest.Mailbox.Model
import NeuralNetwork.Lib.Loop

/-!
# The exhaustion-controlled wrappers

`add_retriables` and `push` of the three wrappers of `internal_rest/network_kernel_mailbox_impl1.h` that hand
what their base refuses to it again, run by the `StdExecutor` of `internal_rest/network_concurrency_x.h`. An
element that the base has taken is `none` in its array. What the others answer in a round is a `Round`.
-/

namespace Mailbox

open Cpp Loop

namespace ExhaustionControlled

variable {α : Type}

/-- One element that the base is handed. -/
structure Call (α : Type) where
  index : Nat
  element : Option α
  answer : ExceptionT
deriving DecidableEq

/-- The locals that the task captures; `pkt_arr_last` and `exception_arr_last` are the ends of the arrays.
`calls` and `reported` are what the base and the controller were given so far. -/
structure State (α : Type) where
  pktArr : List (Option α)
  pktArrFirst : Nat
  exceptionArr : List ExceptionT
  exceptionArrFirst : Nat
  slidingWindowSz : Nat
  calls : List (Call α)
  reported : List Nat
deriving DecidableEq

/-- What happens in a round of the executor. -/
structure Round where
  /-- `load_poison_pill`. -/
  poisoned : Bool
  /-- What the base answers for the `i`-th element of the call. -/
  answers : Nat → ExceptionT
  /-- `is_should_wait`. -/
  shouldWait : Bool

/-- The base gets the `i`-th element of its call, and leaves it where it is if its queue is full. -/
def handOver (r : Round) (i : Nat) (s : State α) : Except Fault (State α) :=
  match s.pktArr[s.pktArrFirst + i]? with
  | none => .error .outOfBounds
  | some element =>
    if s.exceptionArrFirst + i < s.exceptionArr.length then
      .ok { s with
        pktArr := if r.answers i = .socketQueueFull then s.pktArr
          else s.pktArr.set (s.pktArrFirst + i) none
        exceptionArr := s.exceptionArr.set (s.exceptionArrFirst + i) (r.answers i)
        calls := s.calls ++ [⟨s.pktArrFirst + i, element, r.answers i⟩] }
    else .error .outOfBounds

/-- `base->push` or `base->add_retriables`. -/
def basePush (r : Round) (s : State α) : Except Fault (State α) :=
  forLoop (handOver r) s.slidingWindowSz s

/-- The cursors go to the first run of refused elements. -/
def advance (s : State α) : State α :=
  let exceptions := s.exceptionArr.drop s.exceptionArrFirst
  let relativeOffset := exceptions.findIdx (· = .socketQueueFull)
  { s with
    slidingWindowSz := (exceptions.drop relativeOffset).findIdx (· ≠ .socketQueueFull)
    pktArrFirst := s.pktArrFirst + relativeOffset
    exceptionArrFirst := s.exceptionArrFirst + relativeOffset
    reported := s.reported ++ [exceptions.count .socketQueueFull] }

/-- The task, and whether it was the last round. -/
def task (r : Round) (s : State α) : Except Fault (Bool × State α) := do
  let s ← basePush r s
  let s := advance s
  .ok (!r.shouldWait || s.pktArrFirst == s.pktArr.length, s)

/-- How far the executor has come. -/
inductive Stop where
  | running
  | finished
  | poisoned
deriving DecidableEq

/-- `StdExecutor::exec`, for so many rounds. -/
def exec : List Round → State α → Except Fault (Stop × State α)
  | [], s => .ok (.running, s)
  | r :: rounds, s =>
    if r.poisoned then .ok (.poisoned, s)
    else do
      let (last, s) ← task r s
      if last then .ok (.finished, s) else exec rounds s

def start (pktArr : List α) (exceptionArr : List ExceptionT) : State α :=
  ⟨pktArr.map some, 0, exceptionArr, 0, pktArr.length, [], []⟩

def push (pktArr : List α) (exceptionArr : List ExceptionT) (rounds : List Round) :
    Except Fault (Stop × State α) := exec rounds (start pktArr exceptionArr)

end ExhaustionControlled

open ExhaustionControlled

def ExhaustionControlledRetransmissionController.addRetriables (pktArr : List Packet)
    (exceptionArr : List ExceptionT) (rounds : List Round) : Except Fault (Stop × State Packet) :=
  ExhaustionControlled.push pktArr exceptionArr rounds

def ExhaustionControlledBufferContainer.push (bufferArr : List (List Byte))
    (exceptionArr : List ExceptionT) (rounds : List Round) : Except Fault (Stop × State (List Byte)) :=
  ExhaustionControlled.push bufferArr exceptionArr rounds

def ExhaustionControlledPacketContainer.push (pktArr : List Packet) (exceptionArr : List ExceptionT)
    (rounds : List Round) : Except Fault (Stop × State Packet) :=
  ExhaustionControlled.push pktArr exceptionArr rounds

end Mailbox
