import Mathlib.Logic.Function.Basic
import NeuralNetwork.Lib.Cpp
import NeuralNetwork.Lib.Run

/-!
# ComplexReactor

The reactor of `internal_rest/network_reactor.h`, with the threads that call it. One step is one atomic
access or one section under `mtx_mtx_queue`; the accesses are sequentially consistent. An `intmax_t`
is a `BitVec 64` read as a signed number, and a `std::binary_semaphore` is its number.
-/

namespace Reactor

open Cpp

/-- `T` is `std::thread::id`. -/
structure ComplexReactor (T : Type) where
  mtxQueue : List (T × Nat)
  mtxQueueCap : Nat
  counter : BitVec 64
  wakeupThreshold : BitVec 64
  mtxQueueSz : Nat
deriving DecidableEq

namespace ComplexReactor

variable {T : Type}

def make (mtxQueueCap : Nat) : ComplexReactor T := ⟨[], mtxQueueCap, 0, 0, 0⟩

variable (r : ComplexReactor T)

def setWakeupThreshold (arg : BitVec 64) : ComplexReactor T := { r with wakeupThreshold := arg }

def fetchAdd (sz : BitVec 64) : ComplexReactor T := { r with counter := r.counter + sz }

def fetchSub (sz : BitVec 64) : ComplexReactor T := { r with counter := r.counter - sz }

/-- `mtx_queue_sz.exchange(0)` and `do_release`, with the semaphores that it releases. -/
def doRelease : ComplexReactor T × List Nat :=
  ({ r with mtxQueue := [], mtxQueueSz := 0 }, r.mtxQueue.map Prod.snd)

variable [DecidableEq T]

/-- The section of `subscribe` that enqueues the caller, with the semaphores that it releases. -/
def enqueue (debug : Bool) (t : T) (smp : Nat) (expected : BitVec 64) :
    Except Fault (ComplexReactor T × List Nat) :=
  if debug ∧ r.mtxQueue.length = r.mtxQueueCap then .error .abort
  else
    let queue := r.mtxQueue.filter (fun entry => entry.1 ≠ t) ++ [(t, smp)]
    let r : ComplexReactor T := { r with
      mtxQueue := queue
      mtxQueueSz :=
        if t ∈ r.mtxQueue.map Prod.fst then r.mtxQueueSz else sizeT (r.mtxQueueSz + 1) }
    if expected.toInt ≤ r.counter.toInt then .ok r.doRelease else .ok (r, [])

/-- The section of `subscribe` after a timeout. -/
def erase (t : T) : ComplexReactor T :=
  { r with mtxQueue := r.mtxQueue.filter fun entry => entry.1 ≠ t }

end ComplexReactor

/-! ## Threads -/

/-- Where a thread is, with what it has read. -/
inductive Phase where
  | idle
  /-- `increment` after `fetch_add`. -/
  | incremented (current : BitVec 64)
  /-- `increment` after the test of `current`. -/
  | reached
  /-- `increment` after the test of `mtx_queue_sz`. -/
  | releasing
  /-- `subscribe` after the load of `counter`. -/
  | subscribing (current : BitVec 64)
  /-- `subscribe` after the test of `current`. -/
  | enqueuing (expected : BitVec 64)
  /-- `subscribe` in `try_acquire_for`. -/
  | waiting (smp : Nat)
  /-- `subscribe` after `try_acquire_for` returned false. -/
  | timedOut
deriving DecidableEq

structure World (T : Type) where
  reactor : ComplexReactor T
  phase : T → Phase
  /-- The number of semaphores made so far, and those that were released. -/
  semaphores : Nat
  released : List Nat

/-- What happens next: a call starts with its first access, a call goes on by one access or section,
or `try_acquire_for` acquires, times out or throws. -/
inductive Event (T : Type) where
  | increment (t : T) (sz : BitVec 64)
  | decrement (t : T) (sz : BitVec 64)
  | subscribe (t : T)
  | go (t : T)
  | acquire (t : T)
  | timeOut (t : T)
  | throws (t : T)

namespace World

variable {T : Type} [DecidableEq T] (w : World T)

def setPhase (t : T) (p : Phase) : World T := { w with phase := Function.update w.phase t p }

/-- The next access or section of a call. -/
def go (debug : Bool) (t : T) : Except Fault (Option (World T)) :=
  match w.phase t with
  | .incremented current =>
    if current.toInt < w.reactor.wakeupThreshold.toInt then .ok (some (w.setPhase t .idle))
    else .ok (some (w.setPhase t .reached))
  | .reached =>
    if w.reactor.mtxQueueSz = 0 then .ok (some (w.setPhase t .idle))
    else .ok (some (w.setPhase t .releasing))
  | .releasing =>
    let (reactor, smps) := w.reactor.doRelease
    .ok (some { w.setPhase t .idle with reactor, released := w.released ++ smps })
  | .subscribing current =>
    let expected := w.reactor.wakeupThreshold
    if expected.toInt ≤ current.toInt then .ok (some (w.setPhase t .idle))
    else .ok (some (w.setPhase t (.enqueuing expected)))
  | .enqueuing expected =>
    match w.reactor.enqueue debug t w.semaphores expected with
    | .error err => .error err
    | .ok (reactor, smps) =>
      .ok (some { w.setPhase t (.waiting w.semaphores) with
        reactor
        semaphores := w.semaphores + 1
        released := w.released ++ smps })
  | .timedOut => .ok (some { w.setPhase t .idle with reactor := w.reactor.erase t })
  | _ => .ok none

/-- One step; `none` if the thread is somewhere else. -/
def step (debug : Bool) : Event T → Except Fault (Option (World T))
  | .increment t sz =>
    if w.phase t = .idle then
      let reactor := w.reactor.fetchAdd sz
      .ok (some { w.setPhase t (.incremented reactor.counter) with reactor })
    else .ok none
  | .decrement t sz =>
    if w.phase t = .idle then .ok (some { w with reactor := w.reactor.fetchSub sz }) else .ok none
  | .subscribe t =>
    if w.phase t = .idle then .ok (some (w.setPhase t (.subscribing w.reactor.counter)))
    else .ok none
  | .go t => w.go debug t
  | .acquire t =>
    match w.phase t with
    | .waiting smp => if smp ∈ w.released then .ok (some (w.setPhase t .idle)) else .ok none
    | _ => .ok none
  | .timeOut t =>
    match w.phase t with
    | .waiting smp => if smp ∉ w.released then .ok (some (w.setPhase t .timedOut)) else .ok none
    | _ => .ok none
  | .throws t =>
    match w.phase t with
    | .waiting _ => .ok (some (w.setPhase t .idle))
    | _ => .ok none

end World

def Step {T : Type} [DecidableEq T] (debug : Bool) (w : World T) (e : Event T) (w' : World T) :
    Prop :=
  w.step debug e = .ok (some w')

/-- No thread has called a reactor with this threshold yet. -/
def Fresh {T : Type} (w : World T) : Prop :=
  ∃ cap threshold, w = ⟨(ComplexReactor.make cap).setWakeupThreshold threshold, fun _ => .idle, 0, []⟩

end Reactor
