import Mathlib.Logic.Function.Basic
import NeuralNetwork.Lib.Cpp
import NeuralNetwork.Lib.Run

/-!
# Daemon runners and their controller

`StdDaemonRunner`, `StdRaiiDaemonRunner` and `DaemonController` of `concurrency_base/worker_controller.h`.
A runner is named by its id and a worker by the number of the registration that brought it. A step of the
`World` is a section under the mutex of a runner, an access of its poison pill, or a part of a section
of the controller: `_register` and `deregister` change the free lists first and the runner then, both
under the controller's mutex (`busy`).
-/

namespace WorkerController

open Cpp

/-! ## StdDaemonRunner -/

/-- What the thread of a runner does next. -/
inductive RunnerPc where
  /-- `infloop` resets the poison pill. -/
  | start
  /-- The head of the loop. -/
  | load
  /-- The section of an iteration. -/
  | locked
  | done
deriving DecidableEq, Repr

structure StdDaemonRunner where
  poisonPill : Bool
  worker : Option Nat
  rescheduleOnNull : Bool
  pc : RunnerPc
deriving DecidableEq, Repr

namespace StdDaemonRunner

variable (runner : StdDaemonRunner)

def spawned : StdDaemonRunner := ⟨false, none, false, .start⟩

def setWorker (worker : Option Nat) : StdDaemonRunner := { runner with worker := worker }

def signalAbort : StdDaemonRunner := { runner with poisonPill := true }

/-- The next step of `infloop`. The section runs up to `loopchk_sz` epochs of the worker. -/
def infloop : Option StdDaemonRunner :=
  match runner.pc with
  | .start => some { runner with poisonPill := false, pc := .load }
  | .load =>
    if runner.poisonPill then some { runner with pc := .done }
    else some { runner with rescheduleOnNull := false, pc := .locked }
  | .locked =>
    some { runner with rescheduleOnNull := runner.worker.isNone, pc := .load }
  | .done => none

end StdDaemonRunner

/-! ## DaemonController -/

inductive ExceptionT where
  | invalidArgument
  | noDaemonRunnerAvailable
deriving DecidableEq, Repr

/-- The bits of `daemon_kind_t`. -/
def LOW_BIT_SZ : Nat := 16

def encode (id daemonKind : Nat) : Nat := sizeT (id <<< LOW_BIT_SZ) ||| daemonKind

def decode (encoded : Nat) : Nat × Nat := (encoded >>> LOW_BIT_SZ, encoded &&& (2 ^ LOW_BIT_SZ - 1))

abbrev DaemonIdMap := Nat → Option (List Nat)

namespace DaemonIdMap

variable (daemonIdMap : DaemonIdMap)

def free (daemonKind : Nat) : List Nat := (daemonIdMap daemonKind).getD []

/-- `daemon_id_map[daemon_kind].push_back(id)`. -/
def push (daemonKind id : Nat) : DaemonIdMap :=
  Function.update daemonIdMap daemonKind (some (free daemonIdMap daemonKind ++ [id]))

/-- The part of `_register` that takes an id. -/
def take (daemonKind : Nat) (hasWorker : Bool) : Except ExceptionT (DaemonIdMap × Nat) :=
  if !hasWorker then .error .invalidArgument
  else match daemonIdMap daemonKind with
    | none => .error .invalidArgument
    | some ids =>
      match ids.getLast? with
      | none => .error .noDaemonRunnerAvailable
      | some id => .ok (Function.update daemonIdMap daemonKind (some ids.dropLast), id)

end DaemonIdMap

/-- A worker that is registered, with what `_register` returns for it. -/
structure Registration where
  id : Nat
  daemonKind : Nat
  worker : Nat
deriving DecidableEq, Repr

def Registration.encoded (r : Registration) : Nat := encode r.id r.daemonKind

/-- The section under the controller's mutex whose first part is done. -/
inductive Busy where
  | registering (r : Registration)
  | deregistering (id worker : Nat)
deriving DecidableEq, Repr

structure World where
  daemonIdMap : DaemonIdMap
  /-- The number of runners. -/
  runnerSz : Nat
  runner : Nat → StdDaemonRunner
  busy : Option Busy
  /-- The registrations whose value was returned, and is not deregistered. -/
  returned : List Registration
  /-- The workers that were registered. -/
  workers : Nat
  /-- `signal_abort` was called. -/
  aborted : Nat → Bool

inductive Action where
  | register (daemonKind : Nat) (hasWorker : Bool)
  | endRegister
  /-- `deregister` of a value that `_register` returned. -/
  | deregister (encoded : Nat)
  | endDeregister
  /-- The next step of a runner's `infloop`. -/
  | infloop (id : Nat)
  /-- The destructor of a `StdRaiiDaemonRunner` calls `signal_abort`. -/
  | signalAbort (id : Nat)
  /-- Its `join` returns, and the runner is gone. -/
  | join (id : Nat)
deriving DecidableEq, Repr

namespace World

variable (w : World)

/-- `spawn_daemon_controller` for runners of these kinds, whose threads are spawned. -/
def spawnDaemonController (kinds : List Nat) : World where
  daemonIdMap := kinds.zipIdx.foldl (fun m e => DaemonIdMap.push m e.1 e.2) fun _ => none
  runnerSz := kinds.length
  runner _ := .spawned
  busy := none
  returned := []
  workers := 0
  aborted _ := false

def setRunner (id : Nat) (runner : StdDaemonRunner) : World :=
  { w with runner := Function.update w.runner id runner }

/-- `id_runner_map[id]->set_worker`. -/
def setWorker (id : Nat) (worker : Option Nat) : Except Fault World :=
  if id < w.runnerSz then .ok (w.setRunner id ((w.runner id).setWorker worker))
  else .error .undefined

/-- A step; `none` for one that cannot be taken. -/
def next (w : World) : Action → Except Fault (Option World)
  | .register daemonKind hasWorker =>
    if w.busy.isSome then .ok none
    else match DaemonIdMap.take w.daemonIdMap daemonKind hasWorker with
      | .error _ => .ok (some w)
      | .ok (daemonIdMap, id) =>
        .ok (some { w with
          daemonIdMap, busy := some (.registering ⟨id, daemonKind, w.workers⟩), workers := w.workers + 1 })
  | .endRegister =>
    match w.busy with
    | some (.registering r) => do
      let w ← w.setWorker r.id (some r.worker)
      .ok (some { w with busy := none, returned := w.returned ++ [r] })
    | _ => .ok none
  | .deregister encoded =>
    if w.busy.isSome then .ok none
    else match w.returned.find? (fun r => r.encoded = encoded) with
      | none => .ok none
      | some r =>
        let d := decode encoded
        .ok (some { w with
          daemonIdMap := DaemonIdMap.push w.daemonIdMap d.2 d.1
          busy := some (.deregistering d.1 r.worker)
          returned := w.returned.erase r })
  | .endDeregister =>
    match w.busy with
    | some (.deregistering id _) => do
      let w ← w.setWorker id none
      .ok (some { w with busy := none })
    | _ => .ok none
  | .infloop id => .ok ((w.runner id).infloop.map (w.setRunner id))
  | .signalAbort id =>
    .ok (some { w.setRunner id (w.runner id).signalAbort with
      aborted := Function.update w.aborted id true })
  | .join id =>
    if (w.runner id).pc = .done ∧ w.aborted id = true then
      .ok (some (w.setRunner id ((w.runner id).setWorker none)))
    else .ok none

def Step (w : World) (a : Action) (w' : World) : Prop := w.next a = .ok (some w')

end World

end WorkerController
