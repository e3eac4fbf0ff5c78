import NeuralNetwork.InternalRest.ComplexReactor
import NeuralNetwork.InternalRest.Mailbox.RetransmissionController

/-!
# ReactingRetransmissionController

The wrapper of `internal_rest/network_kernel_mailbox_impl1.h` that keeps a `ComplexReactor` beside a
`MemoryEfficientRetransmissionController`, with the threads that call it. One step is a critical
section of the base, or an access or a section of the reactor.
-/

namespace ReactingRetransmission

open Cpp FlashStream Mailbox

inductive Phase where
  | idle
  /-- `add_retriables` or `reentrant_add_retriables` after its section of `base`, with the semaphore
  and the cells of the call. -/
  | adding (smp first sz : Nat)
  /-- `add_retriables` or `reentrant_add_retriables` in `reactor->increment`. -/
  | incrementing
  /-- `get_retriables` in `reactor->subscribe`. -/
  | subscribing
  /-- `get_retriables` after its section of `base`. -/
  | taken (sz : Nat)
deriving DecidableEq

structure World (T : Type) where
  base : Retransmission.World
  reactor : Reactor.World T
  phase : T → Phase

inductive Event (T : Type) where
  /-- The section of `base` in the call of the thread, with what it returns and erases. -/
  | critical (t : T) (e : Retransmission.Event)
  /-- `base->add_retriables` returns, and `reactor->increment(thru_sz)` starts. -/
  | increment (t : T)
  /-- `get_retriables` starts with `reactor->subscribe`. -/
  | subscribe (t : T)
  | go (t : T)
  | acquire (t : T)
  | timeOut (t : T)
  | throws (t : T)
  /-- `reactor->increment` has returned. -/
  | incremented (t : T)
  /-- `reactor->decrement(sz)`, after which `get_retriables` returns. -/
  | decrement (t : T)

namespace World

variable {T : Type} [DecidableEq T] (debug : Bool) (env : Retransmission.Outside) (w : World T)

def setPhase (t : T) (p : Phase) : World T := { w with phase := Function.update w.phase t p }

omit [DecidableEq T] in
/-- The count of `SUCCESS` in the exceptions of a call. -/
def thruSz (first sz : Nat) : Nat :=
  ((w.base.cells.drop first).take sz).countP fun cell => cell.exception = .success

omit [DecidableEq T] in
/-- Where the call is after its section of `base`, if it has come to that section. -/
def afterSection (t : T) (e : Retransmission.Event) : Option Phase :=
  match w.phase t, e.op with
  | .idle, .addRetriables pktArr _ =>
    some (.adding w.base.calls w.base.cells.length pktArr.length)
  | .idle, .reentrantAddRetriables pktArr _ =>
    some (.adding w.base.calls w.base.cells.length pktArr.length)
  | .idle, .ack _ _ => some .idle
  | .subscribing, .getRetriables _ _ _ =>
    if w.reactor.phase t = .idle then some (.taken e.returned.length) else none
  | _, _ => none

def critical (t : T) (e : Retransmission.Event) : Except Fault (Option (World T)) :=
  match w.afterSection t e with
  | none => .ok none
  | some phase => do
    let (base, returned) ← w.base.step debug env e.op
    if returned = e.returned ∧ e.erased = w.base.erasedBy e.op then
      .ok (some { w.setPhase t phase with base })
    else .ok none

/-- A step of the reactor, after which the thread is in `phase`. -/
def react (t : T) (phase : Phase) (e : Reactor.Event T) : Except Fault (Option (World T)) := do
  match ← w.reactor.step debug e with
  | none => .ok none
  | some reactor => .ok (some { w.setPhase t phase with reactor })

/-- A step of the reactor in `increment` or `subscribe`. -/
def inReactor (t : T) (e : Reactor.Event T) : Except Fault (Option (World T)) :=
  if w.phase t = .incrementing ∨ w.phase t = .subscribing then w.react debug t (w.phase t) e
  else .ok none

/-- One step; `none` if the thread is somewhere else. -/
def step : Event T → Except Fault (Option (World T))
  | .critical t e => w.critical debug env t e
  | .increment t =>
    match w.phase t with
    | .adding smp first sz =>
      if smp ∈ w.base.waiting then .ok none
      else w.react debug t .incrementing (.increment t (BitVec.ofNat 64 (w.thruSz first sz)))
    | _ => .ok none
  | .subscribe t =>
    if w.phase t = .idle then w.react debug t .subscribing (.subscribe t) else .ok none
  | .go t => w.inReactor debug t (.go t)
  | .acquire t => w.inReactor debug t (.acquire t)
  | .timeOut t => w.inReactor debug t (.timeOut t)
  | .throws t => w.inReactor debug t (.throws t)
  | .incremented t =>
    if w.phase t = .incrementing ∧ w.reactor.phase t = .idle then .ok (some (w.setPhase t .idle))
    else .ok none
  | .decrement t =>
    match w.phase t with
    | .taken sz => w.react debug t .idle (.decrement t (BitVec.ofNat 64 sz))
    | _ => .ok none

end World

def Step {T : Type} [DecidableEq T] (debug : Bool) (env : Retransmission.Outside) (w : World T)
    (e : Event T) (w' : World T) : Prop :=
  w.step debug env e = .ok (some w')

/-- A controller of the factory and a new reactor, which no thread has called yet. -/
def Fresh {T : Type} (config : Retransmission.Config) (w : World T) : Prop :=
  Retransmission.Fresh config w.base ∧ Reactor.Fresh w.reactor ∧ ∀ t, w.phase t = .idle

/-- No call is in flight. -/
def Quiescent {T : Type} (w : World T) : Prop := ∀ t, w.phase t = .idle

/-- The number of packets that `base` holds: in its map, and in its waiting queues. -/
def held {T : Type} (w : World T) : Nat :=
  w.base.controller.pktMap.size + w.base.waitPtrs.length

end ReactingRetransmission
