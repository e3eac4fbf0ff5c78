import NeuralNetwork.InternalRest.AckExpiryQueue
import NeuralNetwork.InternalRest.FifoContainer

/-!
# TicketTimeoutManager

The register of tickets with a time to live, of `internal_rest/network_ticket_timeout_manager.h`, its
factory and the calls around it. One step is one critical section: `clock_in` has one, and a second
one if it has to wait in between. A call is named by its number, and so are its semaphore and its
arrays. The cron job of `SelfUpdateTicketTimeoutManager` calls `update` at any time. A reading of the
clock is taken under the lock, so the readings of a run are numbered.
-/

namespace TicketSystem

open Cpp Loop Mailbox CyclicUnordered ExpiryQueue

/-- `std::chrono::time_point<std::chrono::steady_clock>::max()`. -/
def timePointMax : Int := 2 ^ 63 - 1

/-- The readings of `std::chrono::steady_clock`. -/
structure SteadyClock where
  now : Nat → Int
  mono : ∀ {m n : Nat}, m ≤ n → now m ≤ now n
  le_max : ∀ n, now n ≤ timePointMax

structure ClockInArgument (K : Type) where
  clockedInTicket : K
  expiryDur : Int
deriving DecidableEq

structure PushWaitBucket (K : Type) where
  clockInArr : List (ClockInArgument K)
  smp : Nat

structure PopWaitBucket (K : Type) where
  outputArr : List K
  outputArrCap : Nat
  smp : Nat

/-- `K` is `ticket_id_t`, and its own id. -/
structure TicketTimeoutManager (K : Type) where
  pushWaitBucketVec : Pow2CyclicQueue (PushWaitBucket K)
  popWaitBucketVec : Pow2CyclicQueue (PopWaitBucket K)
  expiryBucketQueue : TemporalOrderedItemMap K K
  maxDur : Int
  maxConsumePerLoad : Nat

/-- `get_ticket_timeout_manager`, less the cron job. -/
def getTicketTimeoutManager {K : Type} [Inhabited K] (pushConcurrencyQueueSz popConcurrencyQueueSz
    concurrentRequestCap : Nat) (maxWaitDur : Int) : Except Fault (TicketTimeoutManager K) :=
  if ¬ (1 ≤ pushConcurrencyQueueSz ∧ pushConcurrencyQueueSz ≤ 2 ^ 30) then
    .error (.invalidArgument "INVALID_ARGUMENT")
  else if ¬ Stdx.isPow2 pushConcurrencyQueueSz then .error (.invalidArgument "INVALID_ARGUMENT")
  else if ¬ (1 ≤ popConcurrencyQueueSz ∧ popConcurrencyQueueSz ≤ 2 ^ 30) then
    .error (.invalidArgument "INVALID_ARGUMENT")
  else if ¬ Stdx.isPow2 popConcurrencyQueueSz then .error (.invalidArgument "INVALID_ARGUMENT")
  else if ¬ (1 ≤ concurrentRequestCap ∧ concurrentRequestCap ≤ 2 ^ 30) then
    .error (.invalidArgument "INVALID_ARGUMENT")
  else
    let actualConsumeSz := max (concurrentRequestCap >>> 4) 1
    .ok ⟨.make (Stdx.ulog2 pushConcurrencyQueueSz), .make (Stdx.ulog2 popConcurrencyQueueSz),
      .make (concurrentRequestCap + actualConsumeSz), maxWaitDur, actualConsumeSz⟩

def nothrow {A : Type} (x : Except Fault (A × ExceptionT)) : Except Fault A := do
  let (a, err) ← x
  if isFailed err then .error .abort else .ok a

section
variable {K : Type} [DecidableEq K] [Inhabited K] (debug : Bool)

/-! ## Expired tickets -/

/-- The loops that move expired tickets to an array with room for `n` more. -/
def takeExpired (now : Int) :
    Nat → TemporalOrderedItemMap K K → Except Fault (TemporalOrderedItemMap K K × List K)
  | 0, q => .ok (q, [])
  | n + 1, q => do
    let expired ← q.hasExpiredItem now
    if expired then do
      let (q, r) ← q.getExpiredItem debug id now
      match r with
      | none => .error .abort
      | some ticket => do
        let (q, rest) ← takeExpired now n q
        .ok (q, ticket :: rest)
    else .ok (q, [])

/-! ## internal_update -/

/-- The loop state of `internal_update`: the manager, the number of the next reading of the clock, the
calls of `clock_in` whose semaphore was released, and the calls of `get_expired_ticket` that were
released, each with the reading of the clock and its array. -/
structure Update (K : Type) where
  manager : TicketTimeoutManager K
  reads : Nat
  woken : List Nat
  served : List (Nat × Int × List K)

namespace Update

def resolveOnePushDoable (u : Update K) : Except Fault (Update K) :=
  let m := u.manager
  if m.expiryBucketQueue.size = m.expiryBucketQueue.capacity then .ok u
  else
    match m.pushWaitBucketVec.items with
    | [] => .ok u
    | bucket :: rest =>
      match bucket.clockInArr with
      | [] => .error (if debug then .abort else .outOfBounds)
      | arg :: args => do
        let expiryBucketQueue ←
          nothrow (m.expiryBucketQueue.add debug id arg.clockedInTicket timePointMax)
        match args with
        | [] =>
          .ok { u with
            manager := { m with
              expiryBucketQueue
              pushWaitBucketVec := { m.pushWaitBucketVec with items := rest } }
            woken := u.woken ++ [bucket.smp] }
        | _ :: _ =>
          .ok { u with
            manager := { m with
              expiryBucketQueue
              pushWaitBucketVec := { m.pushWaitBucketVec with
                items := { bucket with clockInArr := args } :: rest } } }

/-- A waiting array is released, full or not, as soon as it has got tickets. -/
def resolveOnePopDoable (clock : SteadyClock) (u : Update K) : Except Fault (Update K) :=
  let m := u.manager
  match m.popWaitBucketVec.items with
  | [] => .ok u
  | bucket :: rest => do
    let now := clock.now u.reads
    let u := { u with reads := u.reads + 1 }
    let expired ← m.expiryBucketQueue.hasExpiredItem now
    if expired ∧ bucket.outputArr.length = bucket.outputArrCap then
      .error (if debug then .abort else .outOfBounds)
    else do
      let (expiryBucketQueue, tickets) ←
        takeExpired debug now (bucket.outputArrCap - bucket.outputArr.length) m.expiryBucketQueue
      match tickets with
      | [] => .ok u
      | _ :: _ =>
        .ok { u with
          manager := { m with
            expiryBucketQueue
            popWaitBucketVec := { m.popWaitBucketVec with items := rest } }
          served := u.served ++ [(bucket.smp, now, bucket.outputArr ++ tickets)] }

/-- One round of the loop; `now` was read before the first. -/
def round (clock : SteadyClock) (now : Int) (u : Update K) :
    Except Fault (ForInStep (Update K)) :=
  let m := u.manager
  if m.expiryBucketQueue.size ≠ m.expiryBucketQueue.capacity ∧ m.pushWaitBucketVec.items ≠ [] then do
    let u ← u.resolveOnePushDoable debug
    .ok (.yield u)
  else do
    let expired ← m.expiryBucketQueue.hasExpiredItem now
    if m.popWaitBucketVec.items ≠ [] ∧ expired then do
      let u ← u.resolveOnePopDoable debug clock
      .ok (.yield u)
    else .ok (.done u)

def waits (u : Update K) : Nat :=
  (u.manager.pushWaitBucketVec.items.map (·.clockInArr.length)).sum +
    u.manager.popWaitBucketVec.items.length

end Update

/-- `internal_update`, from the reading number `reads` on. -/
def internalUpdate (clock : SteadyClock) (reads : Nat) (m : TicketTimeoutManager K) :
    Except Fault (Update K) :=
  let u : Update K := ⟨m, reads + 1, [], []⟩
  whileLoop .outOfFuel (Update.round debug clock (clock.now reads)) (u.waits + 1) u

/-! ## Critical sections -/

namespace TicketTimeoutManager

variable (m : TicketTimeoutManager K)

def addOrUpdateAll (now : Int) (args : List (ClockInArgument K)) :
    Except Fault (TemporalOrderedItemMap K K) :=
  args.foldlM (fun q arg =>
    nothrow (q.addOrUpdate debug id arg.clockedInTicket (now + arg.expiryDur))) m.expiryBucketQueue

def updateAll (now : Int) (args : List (ClockInArgument K)) :
    Except Fault (TemporalOrderedItemMap K K) :=
  args.foldlM (fun q arg => nothrow (q.update debug arg.clockedInTicket (now + arg.expiryDur)))
    m.expiryBucketQueue

def canDirectDropin (sz : Nat) : Prop :=
  m.expiryBucketQueue.size + sz ≤ m.expiryBucketQueue.capacity ∧ m.pushWaitBucketVec.items = []

instance (sz : Nat) : Decidable (m.canDirectDropin sz) := inferInstanceAs (Decidable (_ ∧ _))

def isValidClockInArguments (args : List (ClockInArgument K)) : Bool :=
  args.all fun arg => arg.expiryDur ≤ m.maxDur

end TicketTimeoutManager

end

/-! ## Calls -/

/-- A call of `clock_in` after its first critical section: it waits, its semaphore was released, or it
returned its `exception_arr`. -/
inductive ClockInPhase (K : Type) where
  | waiting (args : List (ClockInArgument K))
  | woken (args : List (ClockInArgument K))
  | returned (exceptionArr : List ExceptionT)

inductive GetPhase (K : Type) where
  | waiting
  | returned (tickets : List K)

/-- What happened to a ticket: it was given an expiry time, it was moved to an array at a reading of
the clock, or it was voided. -/
inductive LogEntry (K : Type) where
  | clocked (ticket : K) (expiry : Int)
  | handed (ticket : K) (now : Int)
  | voided (ticket : K)

structure World (K : Type) where
  manager : TicketTimeoutManager K
  reads : Nat
  clockIns : List (ClockInPhase K)
  gets : List (GetPhase K)
  log : List (LogEntry K)

inductive Event (K : Type) where
  | clockIn (args : List (ClockInArgument K))
  /-- The last critical section of a call of `clock_in` that had to wait. -/
  | goClockIn (smp : Nat)
  | getExpiredTicket (cap : Nat)
  | voidTicket (tickets : List K)
  | update

namespace World

variable {K : Type} (w : World K)

def logClocked (now : Int) (args : List (ClockInArgument K)) : List (LogEntry K) :=
  args.map fun arg => .clocked arg.clockedInTicket (now + arg.expiryDur)

def logHanded (now : Int) (tickets : List K) : List (LogEntry K) := tickets.map (.handed · now)

def wake : ClockInPhase K → ClockInPhase K
  | .waiting args => .woken args
  | phase => phase

def afterUpdate (u : Update K) : World K :=
  { w with
    manager := u.manager
    reads := u.reads
    clockIns := u.woken.foldl (fun phases smp => phases.modify smp wake) w.clockIns
    gets := u.served.foldl (fun phases s => phases.set s.1 (.returned s.2.2)) w.gets
    log := w.log ++ u.served.flatMap fun s => logHanded s.2.1 s.2.2 }

variable [DecidableEq K] [Inhabited K] (debug : Bool) (clock : SteadyClock)

def clockIn (args : List (ClockInArgument K)) : Except Fault (World K) :=
  let m := w.manager
  if debug ∧ args.length > m.maxConsumePerLoad then .error .abort
  else if ¬ m.isValidClockInArguments args then
    .ok { w with clockIns := w.clockIns ++ [.returned (args.map fun _ => .invalidArgument)] }
  else if args = [] then .ok { w with clockIns := w.clockIns ++ [.returned []] }
  else
    let now := clock.now w.reads
    if m.canDirectDropin args.length then do
      let expiryBucketQueue ← m.addOrUpdateAll debug now args
      .ok { w with
        manager := { m with expiryBucketQueue }
        reads := w.reads + 1
        clockIns := w.clockIns ++ [.returned (args.map fun _ => .success)]
        log := w.log ++ logClocked now args }
    else do
      let pushWaitBucketVec ← m.pushWaitBucketVec.pushBackNothrow ⟨args, w.clockIns.length⟩
      .ok { w with
        manager := { m with pushWaitBucketVec }
        reads := w.reads + 1
        clockIns := w.clockIns ++ [.waiting args] }

/-- The critical section of `clock_in` after its semaphore was acquired. -/
def goClockIn (smp : Nat) (args : List (ClockInArgument K)) : Except Fault (World K) := do
  let now := clock.now w.reads
  let expiryBucketQueue ← w.manager.updateAll debug now args
  .ok { w with
    manager := { w.manager with expiryBucketQueue }
    reads := w.reads + 1
    clockIns := w.clockIns.set smp (.returned (args.map fun _ => .success))
    log := w.log ++ logClocked now args }

def getExpiredTicket (cap : Nat) : Except Fault (World K) := do
  let m := w.manager
  let now := clock.now w.reads
  let (expiryBucketQueue, tickets) ← takeExpired debug now cap m.expiryBucketQueue
  if cap ≠ 0 ∧ tickets = [] then do
    let popWaitBucketVec ← m.popWaitBucketVec.pushBackNothrow ⟨[], cap, w.gets.length⟩
    .ok { w with
      manager := { m with expiryBucketQueue, popWaitBucketVec }
      reads := w.reads + 1
      gets := w.gets ++ [.waiting] }
  else
    .ok { w with
      manager := { m with expiryBucketQueue }
      reads := w.reads + 1
      gets := w.gets ++ [.returned tickets]
      log := w.log ++ logHanded now tickets }

def voidTicket (tickets : List K) : Except Fault (World K) := do
  let expiryBucketQueue ← tickets.foldlM (fun q ticket => q.erase debug ticket)
    w.manager.expiryBucketQueue
  let u ← internalUpdate debug clock w.reads { w.manager with expiryBucketQueue }
  .ok ({ w with log := w.log ++ tickets.map LogEntry.voided }.afterUpdate u)

def callUpdate : Except Fault (World K) := do
  let u ← internalUpdate debug clock w.reads w.manager
  .ok (w.afterUpdate u)

def step : Event K → Except Fault (Option (World K))
  | .clockIn args => (w.clockIn debug clock args).map some
  | .goClockIn smp =>
    match w.clockIns[smp]? with
    | some (.woken args) => (w.goClockIn debug clock smp args).map some
    | _ => .ok none
  | .getExpiredTicket cap => (w.getExpiredTicket debug clock cap).map some
  | .voidTicket tickets => (w.voidTicket debug clock tickets).map some
  | .update => (w.callUpdate debug clock).map some

end World

def Step {K : Type} [DecidableEq K] [Inhabited K] (debug : Bool) (clock : SteadyClock) (w : World K)
    (e : Event K) (w' : World K) : Prop :=
  w.step debug clock e = .ok (some w')

/-- A manager that the factory made, before any call. -/
def Fresh {K : Type} [Inhabited K] (w : World K) : Prop :=
  ∃ pushConcurrencyQueueSz popConcurrencyQueueSz concurrentRequestCap maxWaitDur m,
    getTicketTimeoutManager pushConcurrencyQueueSz popConcurrencyQueueSz concurrentRequestCap
      maxWaitDur = .ok m ∧ w = ⟨m, 0, [], [], []⟩

end TicketSystem
