import NeuralNetwork.Lib.HandOver
import NeuralNetwork.Lib.Run
import NeuralNetwork.InternalRest.Mailbox.Model

/-!
# Calls around a container of vectors

`FairInBoundBufferContainer` and `NormalOutboundPacketContainer` move whole vectors, which they take
from a `LIFOUnitAllocator`, between their callers. Here are the vectors, the allocator, the calls of
`push` and `pop` with what they hold between two critical sections, and the step of one of them. What
a class does in its critical sections is a `Sections`.
-/

namespace ContainerCalls

open Cpp HandOver Mailbox

/-- A `dg_sock::vector`; `id` names the object through its moves. -/
structure Vec (T : Type) where
  id : Nat
  items : List T
deriving DecidableEq

/-! ## LIFOUnitAllocator -/

structure LIFOUnitAllocator (T : Type) where
  /-- Its back first. -/
  queue : List (Vec T)
  queueCap : Nat
  allocatedSz : Nat
deriving DecidableEq

namespace LIFOUnitAllocator

variable {T : Type} (a : LIFOUnitAllocator T)

/-- `get`; a new vector is named by the count. -/
def get : LIFOUnitAllocator T × Option (Vec T) :=
  match a.queue with
  | vec :: queue => ({ a with queue := queue }, some vec)
  | [] =>
    if a.allocatedSz = a.queueCap then (a, none)
    else ({ a with allocatedSz := a.allocatedSz + 1 }, some ⟨a.allocatedSz, []⟩)

def free (vec : Vec T) : LIFOUnitAllocator T := { a with queue := vec :: a.queue }

end LIFOUnitAllocator

/-! ## Calls -/

inductive PushPhase (κ T : Type) where
  | running
  | holding (key : κ) (vec : Vec T)
  | waiting (key : κ)
deriving DecidableEq

/-- A call of `push`: its array with the statuses, and the groups of it that have no vector yet. -/
structure PushCall (κ T : Type) where
  arr : List T
  exceptionArr : List ExceptionT
  todo : List (κ × List (T × Nat))
  phase : PushPhase κ T
deriving DecidableEq

inductive PopPhase (T : Type) where
  | waiting
  | holding (vec : Vec T)
  | returned (output : List T)
deriving DecidableEq

structure PopCall (T : Type) where
  cap : Nat
  phase : PopPhase T
deriving DecidableEq

/-- The critical sections of a class. Calls are named by their number, `κ` names the lanes. -/
structure Sections (C κ T : Type) where
  /-- The groups that a call of `push` makes of its array, with the index of every item. -/
  groups : C → List T → Nat → Except Fault (List (κ × List (T × Nat)))
  push : C → κ → Vec T → Nat → Except Fault (C × Offer Nat)
  pop : C → Nat → Except Fault (C × Take (Vec T) Nat)
  /-- The second section of `pop`, for what did not fit. -/
  popLeftover : C → Vec T → Except Fault (C × GiveBack Nat)

structure World (C κ T : Type) where
  container : C
  allocator : LIFOUnitAllocator T
  pushes : List (PushCall κ T)
  pops : List (PopCall T)
deriving DecidableEq

/-- What happens next: a call of `push` starts, takes a vector for its next group, or runs its
critical section; a call of `pop` starts with its critical section, or goes on after it. -/
inductive Action (T : Type) where
  | push (arr : List T)
  | get (i : Nat)
  | put (i : Nat)
  | pop (cap : Nat)
  | finish (j : Nat)

namespace World

variable {C κ T : Type} (w : World C κ T)

/-- `*dst = vec` for the call `p` of `pop`, and its release. -/
def deliver (p : Nat) (vec : Vec T) : World C κ T :=
  { w with pops := w.pops.modify p fun call => { call with phase := .holding vec } }

/-- `smp->release()` for the call `q` of `push`. -/
def release (q : Nat) : World C κ T :=
  { w with pushes := w.pushes.modify q fun call => { call with phase := .running } }

def setPush (i : Nat) (call : PushCall κ T) : World C κ T :=
  { w with pushes := w.pushes.set i call }

def setPop (j : Nat) (call : PopCall T) : World C κ T := { w with pops := w.pops.set j call }

/-- The error at the places of a group. -/
def refuse (exceptionArr : List ExceptionT) (args : List (T × Nat)) : List ExceptionT :=
  args.foldl (fun arr arg => arr.set arg.2 .resourceExhaustion) exceptionArr

/-- The call `i` of `push` after its critical section. -/
def afterPut (i : Nat) (call : PushCall κ T) (key : κ) (vec : Vec T) : Offer Nat → World C κ T
  | .handed p => (w.deliver p vec).setPush i { call with phase := .running }
  | .queued => w.setPush i { call with phase := .running }
  | .blocked => w.setPush i { call with phase := .waiting key }

/-- A call of `pop` after its first critical section. -/
def afterPop (cap : Nat) : Take (Vec T) Nat → World C κ T
  | .got vec => { w with pops := w.pops ++ [⟨cap, .holding vec⟩] }
  | .released vec q => { w.release q with pops := w.pops ++ [⟨cap, .holding vec⟩] }
  | .waits => { w with pops := w.pops ++ [⟨cap, .waiting⟩] }

def afterLeftover (vec : Vec T) : GiveBack Nat → World C κ T
  | .handed p => w.deliver p vec
  | .kept => w

/-- What a call of `pop` with this capacity copies out of a vector: its end. -/
def outputOf (cap : Nat) (items : List T) : List T := items.drop (items.length - min cap items.length)

/-- And what it leaves there. -/
def remainderOf (cap : Nat) (items : List T) : List T :=
  items.take (items.length - min cap items.length)

/-- One step; `none` if the call is not there, or somewhere else. -/
def step (s : Sections C κ T) : Action T → Except Fault (Option (World C κ T))
  | .push arr => do
    let groups ← s.groups w.container arr w.pushes.length
    .ok (some { w with
      pushes := w.pushes ++ [⟨arr, List.replicate arr.length .success, groups, .running⟩] })
  | .get i =>
    match w.pushes[i]? with
    | some ⟨arr, exceptionArr, (key, args) :: todo, .running⟩ =>
      match w.allocator.get with
      | (allocator, some vec) =>
        .ok (some { w.setPush i
            ⟨arr, exceptionArr, todo, .holding key ⟨vec.id, args.map Prod.fst⟩⟩ with
          allocator := allocator })
      | (allocator, none) =>
        .ok (some { w.setPush i ⟨arr, refuse exceptionArr args, todo, .running⟩ with
          allocator := allocator })
    | _ => .ok none
  | .put i =>
    match w.pushes[i]? with
    | some ⟨arr, exceptionArr, todo, .holding key vec⟩ => do
      let (container, r) ← s.push w.container key vec i
      .ok (some ({ w with container := container }.afterPut i
        ⟨arr, exceptionArr, todo, .holding key vec⟩ key vec r))
    | _ => .ok none
  | .pop cap => do
    let (container, r) ← s.pop w.container w.pops.length
    .ok (some ({ w with container := container }.afterPop cap r))
  | .finish j =>
    match w.pops[j]? with
    | some ⟨cap, .holding vec⟩ =>
      let returned := w.setPop j ⟨cap, .returned (outputOf cap vec.items)⟩
      let remainder : Vec T := ⟨vec.id, remainderOf cap vec.items⟩
      if remainder.items ≠ [] then do
        let (container, r) ← s.popLeftover w.container remainder
        .ok (some ({ returned with container := container }.afterLeftover remainder r))
      else .ok (some { returned with allocator := w.allocator.free remainder })
    | _ => .ok none

end World

def Step {C κ T : Type} (s : Sections C κ T) (w : World C κ T) (a : Action T)
    (w' : World C κ T) : Prop :=
  w.step s a = .ok (some w')

def World.next {C κ T : Type} (s : Sections C κ T) (w : World C κ T) (a : Action T) :
    Option (World C κ T) :=
  match w.step s a with
  | .ok w' => w'
  | .error _ => none

theorem World.next_step {C κ T : Type} {s : Sections C κ T} {w w' : World C κ T} {a : Action T}
    (e : w.next s a = some w') : Step s w a w' := by
  unfold World.next at e
  split at e
  · rename_i w1 h1
    rw [e] at h1
    exact h1
  · cases e

/-- Nobody has called a container `container` yet. -/
def World.start {C κ T : Type} (container : C) (queueCap : Nat) : World C κ T :=
  ⟨container, ⟨[], queueCap, 0⟩, [], []⟩

end ContainerCalls
