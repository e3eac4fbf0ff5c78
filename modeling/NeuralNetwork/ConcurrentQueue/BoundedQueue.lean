import NeuralNetwork.Lib.Run

/-!
# BoundedQueue

The queue of `src/concurrent_queue/bounded_queue.h`. One step is the critical section of one call. A call is
named by its number among the calls of its kind, and so are its semaphore and the item that it waits for;
a call that waits returns when its semaphore is released. What the history of a run is asked for is kept
beside the queue: the phases of the calls, which of them had to wait, and every release.
-/

namespace ConcurrentQueue

structure BoundedQueue (T : Type) where
  workorderContainer : List T
  workorderContainerCap : Nat
  /-- The calls of `pop` that wait. -/
  waitingArgVec : List Nat
  /-- The calls of `push` that wait, with their items. -/
  pushingArgVec : List (T × Nat)
  isPoisoned : Bool
deriving DecidableEq, Repr

variable {T : Type}

/-! ## Critical sections -/

inductive PushResult where
  /-- `std::invalid_argument`, "container poisoned". -/
  | threw
  | handed (waiting : Nat)
  | queued
  | waits
deriving DecidableEq, Repr

/-- The critical section of the call `smp` of `push`. -/
def push (c : BoundedQueue T) (arg : T) (smp : Nat) : BoundedQueue T × PushResult :=
  if c.isPoisoned then (c, .threw)
  else
    match c.waitingArgVec with
    | arg2 :: rest => ({ c with waitingArgVec := rest }, .handed arg2)
    | [] =>
      if c.workorderContainer.length = c.workorderContainerCap then
        ({ c with pushingArgVec := c.pushingArgVec ++ [(arg, smp)] }, .waits)
      else ({ c with workorderContainer := c.workorderContainer ++ [arg] }, .queued)

inductive PopResult (T : Type) where
  | nullopt
  /-- The item of a call of `push` that waited, which is released. -/
  | released (item : T) (pushing : Nat)
  | got (item : T)
  | waits
deriving DecidableEq, Repr

/-- The critical section of the call `smp` of `pop`. -/
def pop (c : BoundedQueue T) (smp : Nat) : BoundedQueue T × PopResult T :=
  if c.isPoisoned then (c, .nullopt)
  else
    match c.pushingArgVec, c.workorderContainer with
    | (item, pushing) :: rest, _ => ({ c with pushingArgVec := rest }, .released item pushing)
    | [], item :: rest => ({ c with workorderContainer := rest }, .got item)
    | [], [] => ({ c with waitingArgVec := c.waitingArgVec ++ [smp] }, .waits)

/-- The records of the calls that wait stay where they are. -/
def poison (c : BoundedQueue T) : BoundedQueue T := { c with isPoisoned := true }

/-! ## Calls -/

inductive PushPhase where
  | waiting
  | returned
  | threw
deriving DecidableEq, Repr

inductive PopPhase (T : Type) where
  | waiting
  | returned (item : Option T)
deriving DecidableEq, Repr

inductive Caller where
  | push (n : Nat)
  | pop (n : Nat)
deriving DecidableEq, Repr

structure World (T : Type) where
  queue : BoundedQueue T
  pushes : List (T × PushPhase)
  pops : List (PopPhase T)
  /-- The calls that had to wait. -/
  registered : List Caller
  /-- Every release of a semaphore. -/
  released : List Caller
deriving DecidableEq, Repr

inductive Op (T : Type) where
  | push (arg : T)
  | pop
  | poison
deriving DecidableEq, Repr

namespace World

def empty (cap : Nat) : World T := ⟨⟨[], cap, [], [], false⟩, [], [], [], []⟩

def afterPush (w : World T) (arg : T) : PushResult → World T
  | .threw => { w with pushes := w.pushes ++ [(arg, .threw)] }
  | .handed waiting => { w with
      pushes := w.pushes ++ [(arg, .returned)]
      pops := w.pops.set waiting (.returned (some arg))
      released := w.released ++ [.pop waiting] }
  | .queued => { w with pushes := w.pushes ++ [(arg, .returned)] }
  | .waits => { w with
      pushes := w.pushes ++ [(arg, .waiting)]
      registered := w.registered ++ [.push w.pushes.length] }

def afterPop (w : World T) : PopResult T → World T
  | .nullopt => { w with pops := w.pops ++ [.returned none] }
  | .released item pushing => { w with
      pushes := w.pushes.set pushing (item, .returned)
      pops := w.pops ++ [.returned (some item)]
      released := w.released ++ [.push pushing] }
  | .got item => { w with pops := w.pops ++ [.returned (some item)] }
  | .waits => { w with
      pops := w.pops ++ [.waiting]
      registered := w.registered ++ [.pop w.pops.length] }

/-- Each record is written and released. -/
def afterPoison (w : World T) (c : BoundedQueue T) : World T where
  queue := c
  pushes := w.queue.pushingArgVec.foldl (fun pushes arg => pushes.set arg.2 (arg.1, .returned)) w.pushes
  pops := w.queue.waitingArgVec.foldl (fun pops arg => pops.set arg (.returned none)) w.pops
  registered := w.registered
  released := w.released ++ w.queue.waitingArgVec.map .pop ++ w.queue.pushingArgVec.map (.push ·.2)

def step (w : World T) : Op T → World T
  | .push arg =>
    let (queue, result) := push w.queue arg w.pushes.length
    { w with queue }.afterPush arg result
  | .pop =>
    let (queue, result) := pop w.queue w.pops.length
    { w with queue }.afterPop result
  | .poison => w.afterPoison (poison w.queue)

/-- The call waits for its semaphore. -/
def Waits (w : World T) : Caller → Prop
  | .push n => ∃ arg, w.pushes[n]? = some (arg, .waiting)
  | .pop n => w.pops[n]? = some .waiting

end World

end ConcurrentQueue
