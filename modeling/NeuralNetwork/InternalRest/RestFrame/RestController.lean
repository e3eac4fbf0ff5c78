import NeuralNetwork.InternalRest.RestFrame.BatchRequestResponse
import NeuralNetwork.InternalRest.RestFrame.TicketController
import NeuralNetwork.InternalRest.TicketTimeoutManager

/-!
# RestController

The client of `internal_rest/network_rest_frame.h`, over one `TicketController` and one
`TicketTimeoutManager`: the calls of `batch_request`, the responses that they return, and the epochs of
`InBoundWorker` and `ExpiryWorker`. One step is a critical section of one of the two, or an access to a
`BatchRequestResponseBase`; what comes between is a thread's own. A response has one user at a time,
and any number of epochs run at once.
-/

namespace RestFrame.RestController

open Cpp Mailbox Funnel BatchResponse TicketSystem

/-- The sizes of `RestController` and of the workers, and `dgstd_deserialize<InternalResponse>`. -/
structure Config (R : Type) where
  maxConsumePerLoad : Nat
  ticketControllerFeedCap : Nat
  recvConsumeSz : Nat
  observerStealCap : Nat
  timeoutConsumeSz : Nat
  deserialize : List Byte → Except ExceptionT (TicketId × Expected R)

/-- `BatchRequestResponseBaseDesignatedObserver`, whose base is that of the batch number `batch`. -/
structure Observer where
  batch : Nat
  idx : Nat
deriving DecidableEq

/-! ## Batches -/

/-- Where `release_ticket` is called: at the end of `response`, or by the destructor, when
`batch_request` returns an error or when the caller is done. -/
inductive Releasing (R : Type) where
  | response (rs : Except ExceptionT (List (Expected R)))
  | refused (err : ExceptionT)
  | destroyed

/-- What the user of a batch does next: it is in `batch_request`, it holds the response, or it is in
`response` or the destructor. -/
inductive Phase (R : Type) where
  | opened
  | made
  | assigned
  | pushed
  | clockingIn (smp : Nat)
  | held
  | waiting
  | reading
  | releasing (why : Releasing R)
  | gone

/-- The tickets of a call of `batch_request` and its `InternalBatchResponse`. `since` is how many
responses and timeouts had been handled when `assign_observer` ran. -/
structure BatchRequest (R : Type) where
  ticketIdArr : List TicketId
  timeoutDurArr : List Int
  base : Option (BatchRequestResponseBase R)
  wasReleased : Bool
  phase : Phase R
  since : Option Nat

inductive Return (R : Type) where
  | batchRequest (r : Except ExceptionT Nat)
  | response (b : Nat) (rs : Except ExceptionT (List (Expected R)))

def Releasing.returns {R : Type} (b : Nat) : Releasing R → List (Return R)
  | .response rs => [.response b rs]
  | .refused err => [.batchRequest (.error err)]
  | .destroyed => []

def Releasing.next {R : Type} : Releasing R → Phase R
  | .response _ => .held
  | .refused _ => .gone
  | .destroyed => .gone

/-! ## Workers -/

/-- A response, or the timeout of a ticket, with the id of its ticket. -/
abbrev Item (R : Type) := TicketId × Expected R

/-- What an epoch does next; `inbound` and `expiry` are the calls of `push` of its resolutor. -/
inductive Act (R : Type) where
  | inbound (responses : List (Item R))
  | getExpiredTicket
  | expired (smp : Nat)
  | expiry (ticketIds : List TicketId)
  | store (observer : Observer) (response : Expected R)
  | fetchAdd (observer : Observer)
  | voidTicket (ticketIds : List TicketId)

/-- The call of `update` for a stolen observer. -/
def updateActs {R : Type} (x : Item R × Except ExceptionT Observer) : List (Act R) :=
  match x.2 with
  | .ok observer => [.store observer x.1.2, .fetchAdd observer]
  | .error _ => []

def timeoutItem {R : Type} (ticketId : TicketId) : Item R := (ticketId, .error .restClientsideTimeout)

/-! ## The client -/

/-- The last four record what happened: the items that came to the workers, those whose observer was
asked for, the values that were stored, and the calls of `close_ticket`. -/
structure World (R : Type) where
  controller : TicketController Observer
  timeouts : TicketSystem.World TicketId
  batches : List (BatchRequest R)
  workers : List (List (Act R))
  returns : List (Return R)
  arrived : List (Item R)
  handled : List (Item R)
  updates : List (Observer × Expected R)
  closeCalls : List (TicketController Observer × List TicketId)

inductive Event (R : Type) where
  | batchRequest (timeoutDurArr : List Int)
  | response (b : Nat)
  | destroy (b : Nat)
  /-- The user of a batch goes on; `err` is how an allocation on its way fails. -/
  | go (b : Nat) (err : Option Failure)
  | inboundEpoch (bufArr : List (List Byte))
  | expiryEpoch
  | goWorker (p : Nat)
  /-- The cron job of the `TicketTimeoutManager`. -/
  | updateTimeouts

/-- The loop of `batch_request` after `assign_observer`; `dg_assert` is one of debug mode. -/
def checkAssigned (debug : Bool) : List (Except ExceptionT Bool) → Except Fault (Option ExceptionT)
  | [] => .ok none
  | .error err :: _ => .ok (some err)
  | .ok status :: rest => if debug ∧ ¬ status then .error .abort else checkAssigned debug rest

namespace World

variable {R : Type} (debug : Bool) (clock : SteadyClock) (conf : Config R) (w : World R)

def setBatch (b : Nat) (batch : BatchRequest R) : World R := { w with batches := w.batches.set b batch }

def answer (rs : List (Return R)) : World R := { w with returns := w.returns ++ rs }

def closeTicket (ticketIds : List TicketId) : Except Fault (World R) := do
  let controller ← w.controller.closeTicket debug ticketIds
  .ok { w with controller, closeCalls := w.closeCalls ++ [(w.controller, ticketIds)] }

/-! ### batch_request -/

/-- `batch_request` up to `open_ticket`. -/
def batchRequest (timeoutDurArr : List Int) : Except Fault (World R) :=
  if timeoutDurArr.length > conf.maxConsumePerLoad then
    .ok (w.answer [.batchRequest (.error .restMaxConsumeSizeExceeded)])
  else if timeoutDurArr.length = 0 then .ok (w.answer [.batchRequest (.error .invalidArgument)])
  else if timeoutDurArr.any (· > w.timeouts.manager.maxDur) then
    .ok (w.answer [.batchRequest (.error .restInvalidTimeout)])
  else do
    let (controller, r) ← w.controller.openTicket debug timeoutDurArr.length
    match r with
    | .error err => .ok ({ w with controller }.answer [.batchRequest (.error err)])
    | .ok ids =>
      .ok { w with
        controller
        batches := w.batches ++ [⟨ids, timeoutDurArr, none, false, .opened, none⟩] }

/-- `internal_make_batch_request_response`, and the `close_ticket` after a failure. -/
def makeResponse (b : Nat) (batch : BatchRequest R) : Option Failure → Except Fault (World R)
  | none => do
    let base ← BatchRequestResponseBase.make batch.ticketIdArr.length
    .ok (w.setBatch b { batch with base := some base, phase := .made })
  | some err => do
    let w ← w.closeTicket debug batch.ticketIdArr
    .ok ((w.setBatch b { batch with phase := .gone }).answer [.batchRequest (.error err.1)])

/-- The tickets with their observers, in the order of the slots. -/
def observerArr (b : Nat) (ticketIds : List TicketId) : List (TicketId × Option Observer) :=
  ticketIds.zipIdx.map fun x => (x.1, some ⟨b, x.2⟩)

def assignObserver (b : Nat) (batch : BatchRequest R) : Except Fault (World R) := do
  let (controller, rs) := w.controller.assignObserver (observerArr b batch.ticketIdArr)
  let err ← checkAssigned debug (rs.map Prod.snd)
  let phase := match err with
    | none => .assigned
    | some err => .releasing (.refused err)
  .ok ({ w with controller }.setBatch b { batch with phase, since := some w.handled.length })

/-- `internal_make_internal_request` and the `push` of the requests, which succeeds. -/
def pushRequests (b : Nat) (batch : BatchRequest R) : Option Failure → World R
  | none => w.setBatch b { batch with phase := .pushed }
  | some err => w.setBatch b { batch with phase := .releasing (.refused err.1) }

def clockIn (b : Nat) (batch : BatchRequest R) : Except Fault (World R) := do
  let timeouts ← w.timeouts.clockIn debug clock
    (List.zipWith ClockInArgument.mk batch.ticketIdArr batch.timeoutDurArr)
  .ok ({ w with timeouts }.setBatch b
    { batch with phase := .clockingIn w.timeouts.clockIns.length })

/-- The rest of `clock_in`, if it has to wait, and of `batch_request`. -/
def goClockIn (b : Nat) (batch : BatchRequest R) (smp : Nat) : Except Fault (Option (World R)) :=
  match w.timeouts.clockIns[smp]? with
  | some (.woken args) => do
    let timeouts ← w.timeouts.goClockIn debug clock smp args
    .ok (some { w with timeouts })
  | some (.returned exceptionArr) =>
    if exceptionArr.any (isFailed ·) then .error .abort
    else
      .ok (some ((w.setBatch b { batch with phase := .held }).answer [.batchRequest (.ok b)]))
  | _ => .ok none

/-! ### InternalBatchResponse -/

/-- `response` up to its `test_and_set`. -/
def response (b : Nat) (batch : BatchRequest R) : Option (World R) :=
  batch.base.map fun base =>
    if base.isResponseInvoked then
      w.setBatch b
        { batch with phase := .releasing (.response (.error .restResponseDoubleInvoke)) }
    else
      w.setBatch b
        { batch with base := some { base with isResponseInvoked := true }, phase := .waiting }

def await (b : Nat) (batch : BatchRequest R) : Option (World R) :=
  match batch.base with
  | none => none
  | some base =>
    if base.atomicSmp = 0 then none else some (w.setBatch b { batch with phase := .reading })

def read (b : Nat) (batch : BatchRequest R) : Except Fault (Option (World R)) :=
  match batch.base with
  | none => .ok none
  | some base => do
    let (base, rs) ← base.moveResponses debug
    .ok (some (w.setBatch b
      { batch with base := some base, phase := .releasing (.response (.ok rs)) }))

def release (b : Nat) (batch : BatchRequest R) (why : Releasing R) : Except Fault (World R) := do
  let w ← (if batch.wasReleased then .ok w else w.closeTicket debug batch.ticketIdArr)
  .ok ((w.setBatch b { batch with wasReleased := true, phase := why.next }).answer (why.returns b))

def go (b : Nat) (batch : BatchRequest R) (err : Option Failure) : Except Fault (Option (World R)) :=
  match batch.phase with
  | .opened => (w.makeResponse debug b batch err).map some
  | .made => (w.assignObserver debug b batch).map some
  | .assigned => .ok (some (w.pushRequests b batch err))
  | .pushed => (w.clockIn debug clock b batch).map some
  | .clockingIn smp => w.goClockIn debug clock b batch smp
  | .held => .ok none
  | .waiting => .ok (w.await b batch)
  | .reading => w.read debug b batch
  | .releasing why => (w.release debug b batch why).map some
  | .gone => .ok none

/-! ### Epochs -/

/-- `InBoundWorker::run_one_epoch` up to its feeder, which calls `push` in the order of the batches. -/
def inboundEpoch (bufArr : List (List Byte)) : Except Fault (Option (World R)) :=
  if bufArr.length > conf.recvConsumeSz then .ok none
  else do
    let responses := bufArr.filterMap fun buf => (conf.deserialize buf).toOption
    let batches ← scope (min conf.ticketControllerFeedCap bufArr.length) responses
    .ok (some { w with
      workers := w.workers ++ [batches.map .inbound]
      arrived := w.arrived ++ responses })

/-- `steal_observer` for the items, and the calls of `update` that follow. -/
def steal (items : List (Item R)) : World R × List (Act R) :=
  let (controller, rs) := w.controller.stealObserver (items.map Prod.fst)
  ({ w with controller, handled := w.handled ++ items }, (items.zip rs).flatMap updateActs)

/-- A change of the base behind an observer. -/
def updateBase (b : Nat)
    (f : BatchRequestResponseBase R → Except Fault (BatchRequestResponseBase R)) :
    Except Fault (Option (World R)) :=
  match w.batches[b]? with
  | none => .ok none
  | some batch =>
    match batch.base with
    | none => .ok none
    | some base => do
      let base ← f base
      .ok (some (w.setBatch b { batch with base := some base }))

/-- One step of an epoch, with what it does next. -/
def act : Act R → Except Fault (Option (World R × List (Act R)))
  | .inbound responses =>
    let (w, acts) := w.steal responses
    .ok (some (w, acts ++ [.voidTicket (responses.map Prod.fst)]))
  | .getExpiredTicket => do
    let timeouts ← w.timeouts.getExpiredTicket debug clock conf.timeoutConsumeSz
    .ok (some ({ w with timeouts }, [.expired w.timeouts.gets.length]))
  | .expired smp =>
    match w.timeouts.gets[smp]? with
    | some (.returned ticketIds) => do
      let batches ← scope (min conf.observerStealCap ticketIds.length) ticketIds
      .ok (some ({ w with arrived := w.arrived ++ ticketIds.map timeoutItem },
        batches.map .expiry))
    | _ => .ok none
  | .expiry ticketIds => .ok (some (w.steal (ticketIds.map timeoutItem)))
  | .store observer response => do
    let r ← w.updateBase observer.batch (·.store debug observer.idx response)
    .ok (r.map fun w => ({ w with updates := w.updates ++ [(observer, response)] }, []))
  | .fetchAdd observer => do
    let r ← w.updateBase observer.batch fun base => do
      let (base, _) ← base.fetchAdd debug
      .ok base
    .ok (r.map (·, []))
  | .voidTicket ticketIds => do
    let timeouts ← w.timeouts.voidTicket debug clock ticketIds
    .ok (some ({ w with timeouts }, []))

def goWorker (p : Nat) : Except Fault (Option (World R)) :=
  match w.workers[p]? with
  | some (a :: rest) => do
    let r ← w.act debug clock conf a
    .ok (r.map fun r => { r.1 with workers := r.1.workers.set p (r.2 ++ rest) })
  | _ => .ok none

/-! ### Steps -/

/-- A step of the user of the batch `b`. -/
def withBatch (b : Nat) (f : BatchRequest R → Except Fault (Option (World R))) :
    Except Fault (Option (World R)) :=
  match w.batches[b]? with
  | none => .ok none
  | some batch => f batch

/-- The same, for a user that holds the response. -/
def withHeld (b : Nat) (f : BatchRequest R → Option (World R)) : Except Fault (Option (World R)) :=
  w.withBatch b fun batch =>
    match batch.phase with
    | .held => .ok (f batch)
    | _ => .ok none

def step : Event R → Except Fault (Option (World R))
  | .batchRequest timeoutDurArr => (w.batchRequest debug conf timeoutDurArr).map some
  | .response b => w.withHeld b (w.response b)
  | .destroy b => w.withHeld b fun batch =>
    some (w.setBatch b { batch with phase := .releasing .destroyed })
  | .go b err => w.withBatch b (w.go debug clock b · err)
  | .inboundEpoch bufArr => w.inboundEpoch conf bufArr
  | .expiryEpoch => .ok (some { w with workers := w.workers ++ [[.getExpiredTicket]] })
  | .goWorker p => w.goWorker debug clock conf p
  | .updateTimeouts => do
    let timeouts ← w.timeouts.callUpdate debug clock
    .ok (some { w with timeouts })

end World

def Step {R : Type} (debug : Bool) (clock : SteadyClock) (conf : Config R) (w : World R) (e : Event R)
    (w' : World R) : Prop :=
  w.step debug clock conf e = .ok (some w')

/-- The two components as their factories make them, before any call. -/
def Fresh {R : Type} (w : World R) : Prop :=
  ∃ ticketCap controller timeouts, getTicketController ticketCap = .ok controller ∧
    TicketSystem.Fresh timeouts ∧ w = ⟨controller, timeouts, [], [], [], [], [], [], []⟩

end RestFrame.RestController
