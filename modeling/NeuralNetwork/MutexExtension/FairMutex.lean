import Mathlib.Data.Fintype.Defs
import NeuralNetwork.Lib.Cpp
import NeuralNetwork.Lib.Run

/-!
# fair_atomic_flag

The mutex of `mutex_extension/fair_mutex.h`. `lock` gives way to others for a while, then either takes
the flag at once and spins for it, or counts itself as a waiter and waits on the flag first; `unlock`
clears the flag and wakes one waiter. `access` is the next atomic access of a thread, sequentially
consistent; the waiting of a thread and the waking of others are steps of their own. `_mm_pause` and
the fences do nothing here.
-/

namespace FairMutex

open Cpp

abbrev ThreadId := Fin (2 ^ 64)

def EXPBACKOFF_MUTEX_LOCK_SPIN_SZ : Nat := 2 ^ 4

def EXPBACKOFF_FAIR_AF_YIELD_LOCK_SPIN_SIZE : Nat := 2 ^ 10

def NULL_THREAD_ID : ThreadId := 14422289045101533236

structure FairAtomicFlag where
  atomicFlag : Bool
  yieldThrId : ThreadId
  prevThrId : ThreadId
  busyWaiterSz : Nat

def makeFairAtomicFlag (value : Bool) : FairAtomicFlag where
  atomicFlag := value
  yieldThrId := NULL_THREAD_ID
  prevThrId := NULL_THREAD_ID
  busyWaiterSz := 0

/-- What a thread does next. A number is the round of a spin. -/
inductive Pc where
  | idle
  /-- `lock`: `yield_job`. -/
  | yieldJob (round : Nat)
  | loadBusyWaiterSz
  /-- `job` before the spins. -/
  | firstJob
  | job (round : Nat)
  | addBusyWaiter
  /-- `wait(true)`, which checks the flag and blocks in one step. -/
  | wait
  | blocked
  | subBusyWaiter
  | clearYieldThrId
  | exchangePrevThrId
  /-- `lock` has returned. -/
  | critical
  /-- `unlock`. -/
  | loadBusyWaiterSzUnlock
  | setYieldThrId
  | clear
  | notifyOne
deriving DecidableEq, Repr

structure Thread where
  pc : Pc
  /-- It was woken and has not come to a `test_and_set` since. -/
  woken : Bool
deriving DecidableEq, Repr

def jobFailed (round : Nat) : Pc :=
  if round + 1 = EXPBACKOFF_MUTEX_LOCK_SPIN_SZ then .addBusyWaiter else .job (round + 1)

/-- `job`: with the flag clear the thread has it. -/
def testAndSet (mtx : FairAtomicFlag) (failed : Pc) : FairAtomicFlag × Thread :=
  if mtx.atomicFlag then (mtx, ⟨failed, false⟩)
  else ({ mtx with atomicFlag := true }, ⟨.clearYieldThrId, false⟩)

/-- The next atomic access of a thread. -/
def access (mtx : FairAtomicFlag) (id : ThreadId) (t : Thread) : Option (FairAtomicFlag × Thread) :=
  match t.pc with
  | .yieldJob round =>
    if mtx.yieldThrId ≠ id ∨ round + 1 = EXPBACKOFF_FAIR_AF_YIELD_LOCK_SPIN_SIZE then
      some (mtx, { t with pc := .loadBusyWaiterSz })
    else some (mtx, { t with pc := .yieldJob (round + 1) })
  | .loadBusyWaiterSz =>
    some (mtx, { t with pc := if mtx.busyWaiterSz = 0 then .firstJob else .addBusyWaiter })
  | .firstJob => some (testAndSet mtx (.job 0))
  | .job round => some (testAndSet mtx (jobFailed round))
  | .addBusyWaiter =>
    some ({ mtx with busyWaiterSz := sizeT (mtx.busyWaiterSz + 1) }, { t with pc := .wait })
  | .wait =>
    if mtx.atomicFlag then some (mtx, ⟨.blocked, false⟩)
    else some (mtx, { t with pc := .subBusyWaiter })
  | .subBusyWaiter =>
    some ({ mtx with busyWaiterSz := subT mtx.busyWaiterSz 1 }, { t with pc := .job 0 })
  | .clearYieldThrId =>
    some ({ mtx with yieldThrId := NULL_THREAD_ID }, { t with pc := .exchangePrevThrId })
  | .exchangePrevThrId => some ({ mtx with prevThrId := id }, { t with pc := .critical })
  | .loadBusyWaiterSzUnlock =>
    some (mtx, { t with pc := if mtx.busyWaiterSz > 0 then .setYieldThrId else .clear })
  | .setYieldThrId => some ({ mtx with yieldThrId := id }, { t with pc := .clear })
  | .clear => some ({ mtx with atomicFlag := false }, { t with pc := .notifyOne })
  | .idle | .blocked | .critical | .notifyOne => none

/-- The mutex and the threads that use it. -/
structure World (ι : Type) where
  mtx : FairAtomicFlag
  thread : ι → Thread

inductive Action (ι : Type) where
  /-- A thread calls `lock`. -/
  | lock (i : ι)
  /-- The thread that holds the mutex calls `unlock`. -/
  | unlock (i : ι)
  | access (i : ι)
  /-- `notify_one`, with the threads that it wakes. -/
  | notifyOne (i : ι) (woken : ι → Bool)
  /-- A blocked thread wakes up for no reason. -/
  | spuriousWakeUp (i : ι)

namespace World

variable {ι : Type} [Fintype ι] [DecidableEq ι] (id : ι → ThreadId) (w : World ι)

def init (value : Bool) : World ι := ⟨makeFairAtomicFlag value, fun _ => ⟨.idle, false⟩⟩

def setPc (i : ι) (pc : Pc) : World ι :=
  { w with thread := Function.update w.thread i { w.thread i with pc := pc } }

/-- A woken thread checks the flag again. -/
def wake (woken : ι → Bool) : World ι :=
  { w with thread := fun i => if woken i then ⟨.wait, true⟩ else w.thread i }

/-- `notify_one` wakes at least one blocked thread if there is one, and no other thread. -/
def Wakes (woken : ι → Bool) : Prop :=
  (∀ i, woken i → (w.thread i).pc = .blocked) ∧
    ((∃ i, (w.thread i).pc = .blocked) → ∃ i, woken i)

instance (woken : ι → Bool) : Decidable (w.Wakes woken) := inferInstanceAs (Decidable (_ ∧ _))

def next (w : World ι) : Action ι → Except Fault (Option (World ι))
  | .lock i =>
    if (w.thread i).pc ≠ .idle then .ok none
    else if id i = NULL_THREAD_ID then .error .abort
    else .ok (some (w.setPc i (.yieldJob 0)))
  | .unlock i =>
    if (w.thread i).pc ≠ .critical then .ok none
    else .ok (some (w.setPc i .loadBusyWaiterSzUnlock))
  | .access i =>
    .ok ((FairMutex.access w.mtx (id i) (w.thread i)).map fun r =>
      { mtx := r.1, thread := Function.update w.thread i r.2 })
  | .notifyOne i woken =>
    if (w.thread i).pc ≠ .notifyOne ∨ ¬ w.Wakes woken then .ok none
    else .ok (some ((w.setPc i .idle).wake woken))
  | .spuriousWakeUp i =>
    if (w.thread i).pc ≠ .blocked then .ok none else .ok (some (w.wake fun j => j = i))

def Step (w : World ι) (a : Action ι) (w' : World ι) : Prop := w.next id a = .ok (some w')

end World

end FairMutex
