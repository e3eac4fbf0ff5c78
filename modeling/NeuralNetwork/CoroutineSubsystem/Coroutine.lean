import NeuralNetwork.AlgorithmExtension.ShortHeap

/-!
# Coroutines

The scheduler of `src/coroutine_subsystem/implementation/coroutine_implementation.h`. A coroutine is the
`InternalCoroutineable` that one call of `Launcher::add` makes, named by the number of the call; a worker is
named by its place among the workers, and so is the local `waiting_item` of its call of `get`. A step of the
`World` is a section under the mutex of the manager, the return of a call of `has_next` or `next`, or
what a worker does for itself. What a run is asked for is kept beside the program: the wake-up times, the
coroutines that ended or were dropped, and the releases of the semaphores. Times are not bounded (the
delays of the launcher are at most 100 ms).
-/

namespace CoroutineX

open Cpp

/-! ## CoroutineableManager -/

structure PriorityBucket where
  item : Nat
  wakeupTime : Int
deriving DecidableEq, Repr

structure CoroutineableManager where
  coroutineableVec : List Nat
  priorityVec : List PriorityBucket
  /-- The worker whose `waiting_item` is written and its semaphore. -/
  waitBucketVec : List (Nat × Nat)
  wasPoisoned : Bool
deriving DecidableEq, Repr

/-- A write of a `waiting_item` and the release of its semaphore. -/
structure Release where
  waitingAddr : Nat
  smp : Nat
  item : Option Nat
deriving DecidableEq, Repr

inductive GetResult where
  | got (coroutineable : Option Nat)
  | waits
deriving DecidableEq, Repr

namespace CoroutineableManager

def empty : CoroutineableManager := ⟨[], [], [], false⟩

def priorityBucketComparator (lhs rhs : PriorityBucket) : Bool := lhs.wakeupTime ≤ rhs.wakeupTime

/-- What `add` and `update` do with a coroutine that is ready. -/
def handOver (m : CoroutineableManager) (coroutineable : Nat) : CoroutineableManager × List Release :=
  match m.waitBucketVec with
  | (waitingAddr, smp) :: rest =>
    ({ m with waitBucketVec := rest }, [⟨waitingAddr, smp, some coroutineable⟩])
  | [] => ({ m with coroutineableVec := m.coroutineableVec ++ [coroutineable] }, [])

def add (m : CoroutineableManager) (coroutineable : Option Nat) (wakeupTime : Option Int) :
    Except Fault (CoroutineableManager × List Release) :=
  match coroutineable with
  | none => .ok (m, [])
  | some coroutineable =>
    if m.wasPoisoned then .ok (m, [])
    else
      match wakeupTime with
      | none => .ok (m.handOver coroutineable)
      | some wakeupTime => do
        let priorityVec ← ShortHeap.pushHeap priorityBucketComparator ShortHeap.DEFAULT_OUT_DEGREE_SZ
          (m.priorityVec ++ [⟨coroutineable, wakeupTime⟩])
        .ok ({ m with priorityVec }, [])

/-- The section of `get` by the worker `waitingAddr`. -/
def get (m : CoroutineableManager) (waitingAddr smp : Nat) : CoroutineableManager × GetResult :=
  if m.wasPoisoned then (m, .got none)
  else
    match m.coroutineableVec with
    | rs :: rest => ({ m with coroutineableVec := rest }, .got (some rs))
    | [] => ({ m with waitBucketVec := m.waitBucketVec ++ [(waitingAddr, smp)] }, .waits)

def updateLoop (bar : Int) : Nat → CoroutineableManager →
    Except Fault (CoroutineableManager × List Release)
  | 0, _ => .error .outOfFuel
  | fuel + 1, m =>
    match m.priorityVec with
    | [] => .ok (m, [])
    | front :: _ =>
      if front.wakeupTime ≥ bar then .ok (m, [])
      else do
        let priorityVec ← ShortHeap.popHeap priorityBucketComparator ShortHeap.DEFAULT_OUT_DEGREE_SZ
          m.priorityVec
        let (m, release) := { m with priorityVec := priorityVec.dropLast }.handOver front.item
        let (m, releases) ← updateLoop bar fuel m
        .ok (m, release ++ releases)

/-- `bar` is the time that `update` reads. -/
def update (m : CoroutineableManager) (bar : Int) :
    Except Fault (CoroutineableManager × List Release) :=
  if m.wasPoisoned then .ok (m, []) else updateLoop bar (m.priorityVec.length + 1) m

def poison (m : CoroutineableManager) : CoroutineableManager × List Release :=
  if m.wasPoisoned then (m, [])
  else ({ m with waitBucketVec := [], wasPoisoned := true },
    m.waitBucketVec.map fun waitable => ⟨waitable.1, waitable.2, none⟩)

end CoroutineableManager

/-! ## Base2ConsecutiveDelayCalculator -/

structure Base2ConsecutiveDelayCalculator where
  maxDelay : Nat
  baseMultiplier : Nat

namespace Base2ConsecutiveDelayCalculator

def BASE : Nat := 2
def MAX_BASE_COUNTER : Nat := 30

/-- The product is a `size_t`, and the tentative delay is what an `int64_t` makes of it. -/
def getDelay (calculator : Base2ConsecutiveDelayCalculator) (consecutiveRunSz : Nat) : Int :=
  let counter := min consecutiveRunSz MAX_BASE_COUNTER
  let tentativeDelay := (BitVec.ofNat 64 (calculator.baseMultiplier * BASE ^ counter)).toInt
  max 0 (min tentativeDelay calculator.maxDelay)

end Base2ConsecutiveDelayCalculator

/-! ## Workers -/

/-- Where a worker is with the coroutine that it runs. -/
inductive Call where
  | hasNext
  | next
  /-- `next` returned false. -/
  | sleep
  | add (wakeupTime : Int)
deriving DecidableEq, Repr

inductive Phase where
  /-- Between two epochs. -/
  | idle
  | waiting (smp : Nat)
  /-- The semaphore is released, and the worker did not go on yet. -/
  | released (waitingItem : Option Nat)
  /-- `kept` for the coroutine at the back of the success container. -/
  | busy (coroutine : Nat) (kept : Bool) (call : Call)
deriving DecidableEq, Repr

structure Worker where
  successContainer : List Nat
  phase : Phase
deriving DecidableEq, Repr

namespace Worker

def empty : Worker := ⟨[], .idle⟩

/-- The end of an epoch that lets go of the coroutine. -/
def letGo (worker : Worker) (kept : Bool) : Worker where
  successContainer := if kept then worker.successContainer.dropLast else worker.successContainer
  phase := .idle

end Worker

structure World where
  manager : CoroutineableManager
  workers : List Worker
  now : Int
  delayCounter : Nat → Nat
  /-- The coroutines that were added. -/
  added : Nat
  /-- The last wake-up time of a coroutine whose `next` returned false. -/
  wakeup : Nat → Option Int
  /-- The coroutines whose `has_next` returned false. -/
  ended : List Nat
  /-- The coroutines that were dropped because the manager was poisoned. -/
  dropped : List Nat
  /-- The semaphores that were made, and each release. -/
  smps : Nat
  released : List Nat

inductive Op where
  /-- `Launcher::add` of a coroutine that is not null. -/
  | add
  /-- An epoch begins: with the success container, or with the section of `get`. -/
  | epoch (i : Nat)
  /-- `smp.acquire` returns. -/
  | resume (i : Nat)
  | hasNextReturned (i : Nat) (hasNext : Bool)
  | nextReturned (i : Nat) (next : Bool)
  /-- The wake-up time is computed. -/
  | sleep (i : Nat)
  | requeue (i : Nat)
  | update
  | poison
  | tick (dur : Nat)
deriving DecidableEq, Repr

namespace World

def start (workerSz : Nat) (now : Int) : World where
  manager := .empty
  workers := List.replicate workerSz .empty
  now := now
  delayCounter := fun _ => 0
  added := 0
  wakeup := fun _ => none
  ended := []
  dropped := []
  smps := 0
  released := []

def setWorker (w : World) (i : Nat) (worker : Worker) : World :=
  { w with workers := w.workers.set i worker }

def release (w : World) (r : Release) : World where
  manager := w.manager
  workers := w.workers.modify r.waitingAddr fun worker => { worker with phase := .released r.item }
  now := w.now
  delayCounter := w.delayCounter
  added := w.added
  wakeup := w.wakeup
  ended := w.ended
  dropped := w.dropped
  smps := w.smps
  released := w.released ++ [r.smp]

/-- The manager after a section and what the section released. -/
def afterSection (w : World) (r : CoroutineableManager × List Release) : World :=
  r.2.foldl release { w with manager := r.1 }

/-- What the manager drops once it is poisoned. -/
def dropIfPoisoned (w : World) (coroutine : Nat) : World :=
  if w.manager.wasPoisoned then { w with dropped := w.dropped ++ [coroutine] } else w

/-- A step, for the delays of `getDelay`; `none` for one that cannot be taken. -/
def step (getDelay : Nat → Int) (w : World) : Op → Except Fault (Option World)
  | .add => do
    let r ← w.manager.add (some w.added) none
    .ok (some ({ w.dropIfPoisoned w.added with added := w.added + 1 }.afterSection r))
  | .epoch i =>
    match w.workers[i]? with
    | some ⟨successContainer, .idle⟩ =>
      match successContainer.getLast? with
      | some coroutine =>
        .ok (some (w.setWorker i ⟨successContainer, .busy coroutine true .hasNext⟩))
      | none =>
        match w.manager.get i w.smps with
        | (manager, .got none) => .ok (some { w with manager })
        | (manager, .got (some coroutine)) =>
          .ok (some ({ w with manager }.setWorker i
            ⟨successContainer, .busy coroutine false .hasNext⟩))
        | (manager, .waits) =>
          .ok (some ({ w with manager, smps := w.smps + 1 }.setWorker i
            ⟨successContainer, .waiting w.smps⟩))
    | _ => .ok none
  | .resume i =>
    match w.workers[i]? with
    | some ⟨successContainer, .released none⟩ => .ok (some (w.setWorker i ⟨successContainer, .idle⟩))
    | some ⟨successContainer, .released (some coroutine)⟩ =>
      .ok (some (w.setWorker i ⟨successContainer, .busy coroutine false .hasNext⟩))
    | _ => .ok none
  | .hasNextReturned i hasNext =>
    match w.workers[i]? with
    | some ⟨successContainer, .busy coroutine kept .hasNext⟩ =>
      if hasNext then .ok (some (w.setWorker i ⟨successContainer, .busy coroutine kept .next⟩))
      else .ok (some ({ w with ended := w.ended ++ [coroutine] }.setWorker i
        (Worker.letGo ⟨successContainer, .idle⟩ kept)))
    | _ => .ok none
  | .nextReturned i next =>
    match w.workers[i]? with
    | some ⟨successContainer, .busy coroutine kept .next⟩ =>
      if next then
        if kept then .ok (some (w.setWorker i ⟨successContainer, .idle⟩))
        else .ok (some ({ w with delayCounter := Function.update w.delayCounter coroutine 0 }.setWorker i
          ⟨successContainer ++ [coroutine], .idle⟩))
      else .ok (some (w.setWorker i ⟨successContainer, .busy coroutine kept .sleep⟩))
    | _ => .ok none
  | .sleep i =>
    match w.workers[i]? with
    | some ⟨successContainer, .busy coroutine kept .sleep⟩ =>
      let nxtTimepoint := w.now + getDelay (w.delayCounter coroutine)
      .ok (some ({ w with
        delayCounter := Function.update w.delayCounter coroutine (sizeT (w.delayCounter coroutine + 1))
        wakeup := Function.update w.wakeup coroutine (some nxtTimepoint) }.setWorker i
          ⟨successContainer, .busy coroutine kept (.add nxtTimepoint)⟩))
    | _ => .ok none
  | .requeue i =>
    match w.workers[i]? with
    | some ⟨successContainer, .busy coroutine kept (.add wakeupTime)⟩ => do
      let r ← w.manager.add (some coroutine) (some wakeupTime)
      .ok (some (((w.dropIfPoisoned coroutine).setWorker i
        (Worker.letGo ⟨successContainer, .idle⟩ kept)).afterSection r))
    | _ => .ok none
  | .update => do
    let r ← w.manager.update w.now
    .ok (some (w.afterSection r))
  | .poison => .ok (some (w.afterSection w.manager.poison))
  | .tick dur => .ok (some { w with now := w.now + dur })

end World
end CoroutineX
