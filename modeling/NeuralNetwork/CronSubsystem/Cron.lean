import NeuralNetwork.AlgorithmExtension.ShortHeap

/-!
# Cron jobs

The periodic jobs of `src/cron_subsystem/implementation/cron_subsystem_implementation.h`. A job is the
`InternalUpdatableWrapper` of one call of `launch`, named by the number of the call; a worker is named by
its place among the workers, and so is the local `waiting_item` of its call of `pop`. A step of the `World`
is a section under the mutex of the container, a test of the poison pill, the start or the end of a run of
the job's `update`, or what a worker does for itself. What a run is asked for is kept beside the program:
when a job was queued, its runs after its handle was destroyed, how it ended, and the releases of the
semaphores.
-/

namespace CronSubsystem

open Cpp

/-! ## PeriodicCronContainer -/

structure PeriodicCronJob where
  updatable : Nat
  dur : Int
deriving DecidableEq, Repr

structure CronBucket where
  baseJob : PeriodicCronJob
  expiry : Int
deriving DecidableEq, Repr

structure PeriodicCronContainer where
  periodicCronBucketVec : List CronBucket
  /-- The worker whose `waiting_item` is written and its semaphore. -/
  waitBucketVec : List (Nat × Nat)
  wasPoisoned : Bool
deriving DecidableEq, Repr

/-- A write of a `waiting_item`, `none` for the empty job, and the release of its semaphore. -/
structure Release where
  waitingAddr : Nat
  smp : Nat
  item : Option PeriodicCronJob
deriving DecidableEq, Repr

inductive PushResult where
  | pushed (container : PeriodicCronContainer)
  | threw (what : String)
deriving DecidableEq, Repr

inductive PopResult where
  | got (job : Option PeriodicCronJob)
  | waits
deriving DecidableEq, Repr

/-- `time + dur` on 64-bit nanoseconds. -/
def addDur (time dur : Int) : Except Fault Int :=
  if time + dur < 2 ^ 63 then .ok (time + dur) else .error .undefined

namespace PeriodicCronContainer

def empty : PeriodicCronContainer := ⟨[], [], false⟩

def periodicCronBucketComparator (lhs rhs : CronBucket) : Bool := lhs.expiry ≤ rhs.expiry

def push (container : PeriodicCronContainer) (cronJob : Option PeriodicCronJob) (now : Int) :
    Except Fault PushResult :=
  match cronJob with
  | none => .ok (.threw "bad cron job, null")
  | some cronJob =>
    if cronJob.dur < 0 then .ok (.threw "bad cron job duration, negative")
    else if container.wasPoisoned then .ok (.threw "bad operation, container was poisoned")
    else do
      let expiry ← addDur now cronJob.dur
      let periodicCronBucketVec ← ShortHeap.pushHeap periodicCronBucketComparator
        ShortHeap.DEFAULT_OUT_DEGREE_SZ (container.periodicCronBucketVec ++ [⟨cronJob, expiry⟩])
      .ok (.pushed { container with periodicCronBucketVec })

/-- The section of `pop` by the worker `waitingAddr`. -/
def pop (container : PeriodicCronContainer) (waitingAddr smp : Nat) (now : Int) :
    Except Fault (PeriodicCronContainer × PopResult) :=
  let waits :=
    ({ container with waitBucketVec := container.waitBucketVec ++ [(waitingAddr, smp)] }, PopResult.waits)
  if container.wasPoisoned then .ok (container, .got none)
  else
    match container.periodicCronBucketVec with
    | [] => .ok waits
    | front :: _ =>
      if front.expiry < now then do
        let periodicCronBucketVec ← ShortHeap.popHeap periodicCronBucketComparator
          ShortHeap.DEFAULT_OUT_DEGREE_SZ container.periodicCronBucketVec
        .ok ({ container with periodicCronBucketVec := periodicCronBucketVec.dropLast },
          .got (some front.baseJob))
      else .ok waits

def updateLoop (bar : Int) : Nat → PeriodicCronContainer →
    Except Fault (PeriodicCronContainer × List Release)
  | 0, _ => .error .outOfFuel
  | fuel + 1, container =>
    match container.periodicCronBucketVec, container.waitBucketVec with
    | [], _ => .ok (container, [])
    | _, [] => .ok (container, [])
    | front :: _, waitable :: rest =>
      if front.expiry ≥ bar then .ok (container, [])
      else do
        let periodicCronBucketVec ← ShortHeap.popHeap periodicCronBucketComparator
          ShortHeap.DEFAULT_OUT_DEGREE_SZ container.periodicCronBucketVec
        let (container, releases) ← updateLoop bar fuel { container with
          periodicCronBucketVec := periodicCronBucketVec.dropLast, waitBucketVec := rest }
        .ok (container, ⟨waitable.1, waitable.2, some front.baseJob⟩ :: releases)

/-- `bar` is the time that `update` reads. -/
def update (container : PeriodicCronContainer) (bar : Int) :
    Except Fault (PeriodicCronContainer × List Release) :=
  if container.wasPoisoned then .ok (container, [])
  else updateLoop bar (container.periodicCronBucketVec.length + 1) container

/-- The records of the workers that wait stay where they are. -/
def poison (container : PeriodicCronContainer) : PeriodicCronContainer × List Release :=
  if container.wasPoisoned then (container, [])
  else ({ container with wasPoisoned := true },
    container.waitBucketVec.map fun waitBucket => ⟨waitBucket.1, waitBucket.2, none⟩)

end PeriodicCronContainer

/-! ## Jobs -/

structure InternalUpdatableWrapper where
  /-- Shared with the handle, which sets it when it is destroyed. -/
  poisonPill : Bool
  poisonChkIntervalCounter : Nat
  isPoisonConfimed : Bool
deriving DecidableEq, Repr

namespace InternalUpdatableWrapper

def POISON_CHK_INTERVAL_DUE : Nat := 1

def empty : InternalUpdatableWrapper := ⟨false, 0, false⟩

/-- The part of `update` before the run; whether there is a run. -/
def test (wrapper : InternalUpdatableWrapper) : InternalUpdatableWrapper × Bool :=
  if wrapper.isPoisonConfimed then (wrapper, false)
  else if wrapper.poisonChkIntervalCounter = POISON_CHK_INTERVAL_DUE then
    if wrapper.poisonPill then ({ wrapper with isPoisonConfimed := true }, false)
    else ({ wrapper with poisonChkIntervalCounter := 0 + 1 }, true)
  else ({ wrapper with poisonChkIntervalCounter := wrapper.poisonChkIntervalCounter + 1 }, true)

end InternalUpdatableWrapper

structure JobHistory where
  /-- The duration that it was launched with. -/
  dur : Int
  /-- When it was last queued. -/
  queuedAt : Int
  /-- Its runs that started after its handle was destroyed. -/
  lateRuns : Nat
deriving DecidableEq, Repr

inductive Ending where
  /-- A test found the poison pill. -/
  | cancelled
  /-- Its `update` threw. -/
  | threw
  /-- The container was poisoned and did not take it back. -/
  | refused
deriving DecidableEq, Repr

/-! ## CronWorker -/

inductive CronWorker where
  /-- Between two epochs. -/
  | idle
  | waiting (smp : Nat)
  /-- The semaphore is released, and the worker did not go on yet. -/
  | released (waitingItem : Option PeriodicCronJob)
  /-- `cron_job.updatable->update()` is called. -/
  | updating (cronJob : PeriodicCronJob)
  /-- The test is passed. -/
  | starting (cronJob : PeriodicCronJob)
  | running (cronJob : PeriodicCronJob)
  | pushing (cronJob : PeriodicCronJob)
deriving DecidableEq, Repr

structure World where
  container : PeriodicCronContainer
  workers : List CronWorker
  now : Int
  /-- The jobs that were launched. -/
  launched : Nat
  wrapper : Nat → InternalUpdatableWrapper
  history : Nat → JobHistory
  ended : List (Nat × Ending)
  /-- The semaphores that were made, and each release. -/
  smps : Nat
  released : List Nat

inductive Op where
  /-- `launch` of a job that is not null. -/
  | launch (dur : Int)
  /-- The handle that `launch` returned is destroyed. -/
  | destroyHandle (job : Nat)
  | pop (i : Nat)
  /-- `waiting_smp.acquire` returns. -/
  | resume (i : Nat)
  | test (i : Nat)
  | start (i : Nat)
  | returned (i : Nat) (threw : Bool)
  | push (i : Nat)
  | update
  | poison
  | tick (dur : Nat)
deriving DecidableEq, Repr

namespace World

def start (workerSz : Nat) (now : Int) : World where
  container := .empty
  workers := List.replicate workerSz .idle
  now := now
  launched := 0
  wrapper := fun _ => .empty
  history := fun _ => ⟨0, 0, 0⟩
  ended := []
  smps := 0
  released := []

def setWorker (w : World) (i : Nat) (worker : CronWorker) : World :=
  { w with workers := w.workers.set i worker }

def setWrapper (w : World) (job : Nat) (wrapper : InternalUpdatableWrapper) : World :=
  { w with wrapper := Function.update w.wrapper job wrapper }

def setHistory (w : World) (job : Nat) (history : JobHistory) : World :=
  { w with history := Function.update w.history job history }

def finish (w : World) (job : Nat) (ending : Ending) : World :=
  { w with ended := w.ended ++ [(job, ending)] }

def release (w : World) (r : Release) : World :=
  { w with workers := w.workers.set r.waitingAddr (.released r.item), released := w.released ++ [r.smp] }

/-- The container after a section and what the section released. -/
def afterSection (w : World) (r : PeriodicCronContainer × List Release) : World :=
  r.2.foldl release { w with container := r.1 }

def queued (w : World) (job : Nat) (container : PeriodicCronContainer) : World :=
  { w with container }.setHistory job { w.history job with queuedAt := w.now }

def made (w : World) (dur : Int) : World :=
  ({ w with launched := w.launched + 1 }.setWrapper w.launched .empty).setHistory w.launched ⟨dur, w.now, 0⟩

/-- A step; `none` for one that cannot be taken. -/
def step (w : World) : Op → Except Fault (Option World)
  | .launch dur =>
    if dur < 0 then .ok (some w)
    else do
      match ← w.container.push (some ⟨w.launched, dur⟩) w.now with
      | .pushed container =>
        .ok (some ((w.made dur).queued w.launched container))
      | .threw _ => .ok (some w)
  | .destroyHandle job =>
    if job < w.launched then .ok (some (w.setWrapper job { w.wrapper job with poisonPill := true }))
    else .ok none
  | .pop i =>
    match w.workers[i]? with
    | some .idle => do
      match ← w.container.pop i w.smps w.now with
      | (container, .got none) => .ok (some { w with container })
      | (container, .got (some cronJob)) =>
        .ok (some ({ w with container }.setWorker i (.updating cronJob)))
      | (container, .waits) =>
        .ok (some ({ w with container, smps := w.smps + 1 }.setWorker i (.waiting w.smps)))
    | _ => .ok none
  | .resume i =>
    match w.workers[i]? with
    | some (.released none) => .ok (some (w.setWorker i .idle))
    | some (.released (some cronJob)) => .ok (some (w.setWorker i (.updating cronJob)))
    | _ => .ok none
  | .test i =>
    match w.workers[i]? with
    | some (.updating cronJob) =>
      match (w.wrapper cronJob.updatable).test with
      | (wrapper, true) =>
        .ok (some ((w.setWrapper cronJob.updatable wrapper).setWorker i (.starting cronJob)))
      | (wrapper, false) =>
        .ok (some (((w.setWrapper cronJob.updatable wrapper).setWorker i .idle).finish cronJob.updatable
          .cancelled))
    | _ => .ok none
  | .start i =>
    match w.workers[i]? with
    | some (.starting cronJob) =>
      let history := w.history cronJob.updatable
      let late := if (w.wrapper cronJob.updatable).poisonPill then 1 else 0
      .ok (some ((w.setHistory cronJob.updatable { history with lateRuns := history.lateRuns + late }).setWorker
        i (.running cronJob)))
    | _ => .ok none
  | .returned i threw =>
    match w.workers[i]? with
    | some (.running cronJob) =>
      if threw then .ok (some ((w.setWorker i .idle).finish cronJob.updatable .threw))
      else .ok (some (w.setWorker i (.pushing cronJob)))
    | _ => .ok none
  | .push i =>
    match w.workers[i]? with
    | some (.pushing cronJob) => do
      match ← w.container.push (some cronJob) w.now with
      | .pushed container => .ok (some ((w.setWorker i .idle).queued cronJob.updatable container))
      | .threw _ => .ok (some ((w.setWorker i .idle).finish cronJob.updatable .refused))
    | _ => .ok none
  | .update => do
    let r ← w.container.update w.now
    .ok (some (w.afterSection r))
  | .poison => .ok (some (w.afterSection w.container.poison))
  | .tick dur => .ok (some { w with now := w.now + dur })

end World
end CronSubsystem
