import Mathlib.Data.List.AList
import NeuralNetwork.Funnel.Funnel
import NeuralNetwork.InternalRest.Mailbox.Model
import NeuralNetwork.Lib.Batch
import NeuralNetwork.StlExtension.Stdx

/-!
# TicketController and DistributedTicketController

The registers of open tickets of `internal_rest/network_rest_frame.h`, with their factories. `O` is
`std::shared_ptr<ResponseObserverInterface>` less its null value, which no register holds; a caller's
array of such pointers has elements of `Option O`. The map and the arrays of a call lie in memory, so
sums of their sizes fit `size_t`.
-/

namespace RestFrame

open Cpp Mailbox Batch Funnel

abbrev TicketId := BitVec 64

/-- What the register holds for an open ticket. -/
abbrev Entry (O : Type) := Option O

structure TicketController (O : Type) where
  ticketResourceMap : AList fun _ : TicketId => Entry O
  ticketResourceMapCap : Nat
  ticketIdCounter : TicketId
  maxConsumePerLoad : Nat

namespace TicketController

variable {O : Type} (c : TicketController O)

/-- The loop of `open_ticket`. An `insert` does not replace; its status is checked by `dg_assert`, in
debug mode. -/
def openLoop (debug : Bool) :
    Nat → TicketController O → Except Fault (TicketController O × List TicketId)
  | 0, c => .ok (c, [])
  | sz + 1, c => do
    let newTicketId := c.ticketIdCounter
    let status := newTicketId ∉ c.ticketResourceMap
    if debug ∧ ¬ status then .error .abort
    else do
      let (c, rest) ← openLoop debug sz { c with
        ticketResourceMap :=
          if status then c.ticketResourceMap.insert newTicketId none else c.ticketResourceMap
        ticketIdCounter := newTicketId + 1 }
      .ok (c, newTicketId :: rest)

def openTicket (debug : Bool) (sz : Nat) :
    Except Fault (TicketController O × Except ExceptionT (List TicketId)) :=
  if debug ∧ sz > c.maxConsumePerLoad then .error .abort
  else if c.ticketResourceMap.entries.length + sz > c.ticketResourceMapCap then
    .ok (c, .error .resourceExhaustion)
  else do
    let (c, ids) ← openLoop debug sz c
    .ok (c, .ok ids)

/-- One element of `assign_observer`: the observer's place in the caller's array afterwards, and the
result. -/
def assignOne (x : TicketId × Option O) :
    TicketController O × (Option O × Except ExceptionT Bool) :=
  match c.ticketResourceMap.lookup x.1 with
  | none => (c, (x.2, .error .restTicketNotFound))
  | some (some _) => (c, (x.2, .ok false))
  | some none =>
    match x.2 with
    | none => (c, (none, .error .invalidArgument))
    | some observer =>
      ({ c with ticketResourceMap := c.ticketResourceMap.insert x.1 (some observer) },
        (none, .ok true))

def assignObserver (xs : List (TicketId × Option O)) :
    TicketController O × List (Option O × Except ExceptionT Bool) :=
  batch assignOne c xs

def stealOne (ticketId : TicketId) : TicketController O × Except ExceptionT O :=
  match c.ticketResourceMap.lookup ticketId with
  | none => (c, .error .restTicketNotFound)
  | some none => (c, .error .restTicketObserverNotFound)
  | some (some observer) =>
    ({ c with ticketResourceMap := c.ticketResourceMap.insert ticketId none }, .ok observer)

def stealObserver (ticketIds : List TicketId) : TicketController O × List (Except ExceptionT O) :=
  batch stealOne c ticketIds

/-- One element of `close_ticket`; the check is one of debug mode. -/
def closeOne (debug : Bool) (c : TicketController O) (ticketId : TicketId) :
    Except Fault (TicketController O) :=
  if debug ∧ ticketId ∉ c.ticketResourceMap then .error .abort
  else .ok { c with ticketResourceMap := c.ticketResourceMap.erase ticketId }

def closeTicket (debug : Bool) (ticketIds : List TicketId) : Except Fault (TicketController O) :=
  ticketIds.foldlM (closeOne debug) c

end TicketController

def getTicketController {O : Type} (ticketCap : Nat) : Except Fault (TicketController O) :=
  if ¬ (1 ≤ ticketCap ∧ ticketCap < 2 ^ 64) then .error (.invalidArgument "INVALID_ARGUMENT")
  else .ok ⟨∅, ticketCap, 0, max 1 (ticketCap >>> 4)⟩

structure DistributedTicketController (O : Type) where
  baseArr : List (TicketController O)
  pow2BaseArrSz : Nat
  probeArrSz : Nat
  keyvalueFeedCap : Nat
  minimumDiscretizationSz : Nat
  maximumDiscretizationSz : Nat
  maxConsumePerLoad : Nat

def encodeTicketId (pow2BaseArrSz : Nat) (baseTicketId : TicketId) (baseArrIdx : Nat) : TicketId :=
  let popcount := Stdx.countrZero pow2BaseArrSz
  Stdx.safeUnsignedLshift baseTicketId popcount ||| BitVec.ofNat 64 baseArrIdx

def decodeTicketId (pow2BaseArrSz : Nat) (currentTicketId : TicketId) : TicketId × Nat :=
  let popcount := Stdx.countrZero pow2BaseArrSz
  let bitmask := Stdx.lowonesBitgen popcount
  (currentTicketId >>> popcount, (currentTicketId &&& bitmask).toNat)

/-! ## Scattered operations -/

/-- A batch for one partition: `push` is what the resolutor does with it and with `x`, the caller's
array behind the pointers of the batch. -/
def pushAt {O E X : Type}
    (push : TicketController O → List E → X → Except Fault (TicketController O × X))
    (s : List (TicketController O) × X) (group : Group Nat E) :
    Except Fault (List (TicketController O) × X) :=
  match s.1[group.1]? with
  | none => .error .outOfBounds
  | some base => do
    let (base, x) ← push base group.2 s.2
    .ok (s.1.set group.1 base, x)

/-- A feeder to the partitions. -/
def scatter {O E X : Type} (layout : EventLayout) (head feedCap : Nat)
    (push : TicketController O → List E → X → Except Fault (TicketController O × X))
    (baseArr : List (TicketController O)) (x : X) (events : List (Nat × E)) :
    Except Fault (List (TicketController O) × X) := do
  let groups ← kvScope layout head feedCap events
  groups.foldlM (pushAt push) (baseArr, x)

/-- The writes through the pointers of a batch, which are places of the caller's array. -/
def writeBack {R : Type} (out : List R) : List (Nat × R) → List R
  | [] => out
  | (i, r) :: rest => writeBack (out.set i r) rest

structure InternalAssignObserverFeedArgument (O : Type) where
  baseTicketId : TicketId
  observer : Option O
  place : Nat

/-- An observer is moved out of the caller's array, and moved back where its exception has no
value. -/
def giveBack {O : Type} (r : Option O × Except ExceptionT Bool) : Option O × Except ExceptionT Bool :=
  (if r.2.isOk then none else r.1, r.2)

/-- `InternalAssignObserverFeedResolutor::push`. -/
def assignPush {O : Type} (base : TicketController O)
    (dataArr : List (InternalAssignObserverFeedArgument O))
    (out : List (Option O × Except ExceptionT Bool)) :
    Except Fault (TicketController O × List (Option O × Except ExceptionT Bool)) :=
  let (base, rs) := base.assignObserver (dataArr.map fun arg => (arg.baseTicketId, arg.observer))
  .ok (base, writeBack out ((dataArr.map (·.place)).zip (rs.map giveBack)))

structure InternalStealObserverFeedArgument where
  baseTicketId : TicketId
  place : Nat

/-- `InternalStealObserverFeedResolutor::push`. -/
def stealPush {O : Type} (base : TicketController O) (dataArr : List InternalStealObserverFeedArgument)
    (out : List (Except ExceptionT O)) :
    Except Fault (TicketController O × List (Except ExceptionT O)) :=
  let (base, rs) := base.stealObserver (dataArr.map (·.baseTicketId))
  .ok (base, writeBack out ((dataArr.map (·.place)).zip rs))

/-- `InternalCloseTicketFeedResolutor::push`. -/
def closePush {O : Type} (debug : Bool) (base : TicketController O) (dataArr : List TicketId)
    (x : Unit) : Except Fault (TicketController O × Unit) := do
  let base ← base.closeTicket debug dataArr
  .ok (base, x)

namespace DistributedTicketController

variable {O : Type} (layout : EventLayout) (head : Nat) (d : DistributedTicketController O)

/-- The elements of a call with their places, split by whether the partition exists. -/
def split {A : Type} (xs : List (TicketId × A)) :
    List ((TicketId × A) × Nat) × List ((TicketId × A) × Nat) :=
  xs.zipIdx.partition fun x => (decodeTicketId d.pow2BaseArrSz x.1.1).2 < d.pow2BaseArrSz

/-- `assign_observer`, with the caller's array of observers and its `exception_arr`. -/
def assignObserver (xs : List (TicketId × Option O)) (exceptionArr : List (Except ExceptionT Bool)) :
    Except Fault (DistributedTicketController O × List (Option O × Except ExceptionT Bool)) := do
  let (found, missing) := d.split xs
  let out := writeBack ((xs.map Prod.snd).zip exceptionArr)
    (missing.map fun x => (x.2, (x.1.2, .error .restTicketNotFound)))
  let (baseArr, out) ← scatter layout head (min d.keyvalueFeedCap xs.length) assignPush d.baseArr out
    (found.map fun x =>
      let (baseTicketId, partitionedIdx) := decodeTicketId d.pow2BaseArrSz x.1.1
      (partitionedIdx, ⟨baseTicketId, x.1.2, x.2⟩))
  .ok ({ d with baseArr }, out)

/-- `steal_observer`, with the caller's `out_observer_arr`. -/
def stealObserver (ticketIds : List TicketId) (outObserverArr : List (Except ExceptionT O)) :
    Except Fault (DistributedTicketController O × List (Except ExceptionT O)) := do
  let (found, missing) := d.split (ticketIds.map fun id => (id, ()))
  let out := writeBack outObserverArr (missing.map fun x => (x.2, .error .restTicketNotFound))
  let (baseArr, out) ← scatter layout head (min d.keyvalueFeedCap ticketIds.length) stealPush
    d.baseArr out (found.map fun x =>
      let (baseTicketId, partitionedIdx) := decodeTicketId d.pow2BaseArrSz x.1.1
      (partitionedIdx, ⟨baseTicketId, x.2⟩))
  .ok ({ d with baseArr }, out)

/-- The check of the partition is one of debug mode. -/
def closeTicket (debug : Bool) (ticketIds : List TicketId) :
    Except Fault (DistributedTicketController O) :=
  let decoded := ticketIds.map (decodeTicketId d.pow2BaseArrSz)
  if debug ∧ decoded.any (·.2 ≥ d.pow2BaseArrSz) then .error .abort
  else do
    let (baseArr, _) ← scatter layout head (min d.keyvalueFeedCap ticketIds.length)
      (closePush debug) d.baseArr () (decoded.map Prod.swap)
    .ok { d with baseArr }

/-- The loop of `open_ticket`, for `n` more pieces from the piece `i` on; `rs` is what it has written,
`clue i` the random number of the piece `i`. -/
def openPieces (debug : Bool) (clue : Nat → BitVec 64) (sz discretizationSz : Nat) :
    Nat → Nat → List TicketId → DistributedTicketController O →
      Except Fault (DistributedTicketController O × Except ExceptionT (List TicketId))
  | 0, _, rs, d => .ok (d, .ok rs)
  | n + 1, i, rs, d =>
    let first := i * discretizationSz
    let last := min ((i + 1) * discretizationSz) sz
    let subSz := last - first
    let baseArrIdx := (clue i).toNat &&& (d.pow2BaseArrSz - 1)
    match d.baseArr[baseArrIdx]? with
    | none => .error .outOfBounds
    | some base => do
      let (base, r) ← base.openTicket debug subSz
      let d := { d with baseArr := d.baseArr.set baseArrIdx base }
      match r with
      | .error err => do
        let d ← d.closeTicket layout head debug rs
        .ok (d, .error err)
      | .ok ids =>
        openPieces debug clue sz discretizationSz n (i + 1)
          (rs ++ ids.map fun id => encodeTicketId d.pow2BaseArrSz id baseArrIdx) d

/-- The sizes of the pieces of `open_ticket`, and their number. -/
def discretizationSz (sz : Nat) : Nat :=
  max d.minimumDiscretizationSz (min (sz / d.probeArrSz) d.maximumDiscretizationSz)

def peekingBaseArrSz (sz : Nat) : Nat :=
  sz / d.discretizationSz sz + if sz % d.discretizationSz sz ≠ 0 then 1 else 0

def openTicket (debug : Bool) (clue : Nat → BitVec 64) (sz : Nat) :
    Except Fault (DistributedTicketController O × Except ExceptionT (List TicketId)) :=
  if debug ∧ sz > d.maxConsumePerLoad then .error .abort
  else openPieces layout head debug clue sz (d.discretizationSz sz) (d.peekingBaseArrSz sz) 0 [] d

end DistributedTicketController

def getDistributedTicketController {O : Type} (baseTicketCap concurrencySz : Nat) :
    Except Fault (DistributedTicketController O) := do
  if ¬ (1 ≤ concurrencySz ∧ concurrencySz ≤ 2 ^ 30) then
    .error (.invalidArgument "INVALID_ARGUMENT")
  else if ¬ Stdx.isPow2 concurrencySz then .error (.invalidArgument "INVALID_ARGUMENT")
  else do
    let base ← getTicketController baseTicketCap
    .ok { baseArr := List.replicate concurrencySz base
          pow2BaseArrSz := concurrencySz
          probeArrSz := min concurrencySz (2 ^ 3)
          keyvalueFeedCap := 2 ^ 6
          minimumDiscretizationSz := 1
          maximumDiscretizationSz := base.maxConsumePerLoad
          maxConsumePerLoad := base.maxConsumePerLoad }

/-! ## Runs -/

inductive Call (O : Type) where
  | openTicket (sz : Nat) (r : Except ExceptionT (List TicketId))
  | assignObserver (xs : List (TicketId × Option O)) (exceptionArr : List (Except ExceptionT Bool))
  | stealObserver (ticketIds : List TicketId) (rs : List (Except ExceptionT O))
  | closeTicket (ticketIds : List TicketId)

namespace DistributedTicketController

variable {O : Type}

/-- From its piece `i` on, a call of `open_ticket` opens pieces of one ticket only, and only in
partitions that have opened none: a piece that its partition has no room for ends the call. -/
def ZeroPieces (debug : Bool) (clue : Nat → BitVec 64) (sz discretizationSz : Nat) :
    Nat → Nat → List (TicketController O) → Prop
  | 0, _, _ => True
  | n + 1, i, baseArr =>
    let subSz := min ((i + 1) * discretizationSz) sz - i * discretizationSz
    let baseArrIdx := (clue i).toNat &&& (baseArr.length - 1)
    ∀ base, baseArr[baseArrIdx]? = some base →
      base.ticketResourceMap.entries.length + subSz ≤ base.ticketResourceMapCap →
      subSz = 1 ∧ base.ticketIdCounter = 0 ∧ ∀ base' r, base.openTicket debug subSz = .ok (base', r) →
        ZeroPieces debug clue sz discretizationSz n (i + 1) (baseArr.set baseArrIdx base')

/-- The call of `open_ticket` opens only tickets with the base id 0. -/
def ZeroOpens (debug : Bool) (d : DistributedTicketController O) (clue : Nat → BitVec 64)
    (sz : Nat) : Prop :=
  ZeroPieces debug clue sz (d.discretizationSz sz) (d.peekingBaseArrSz sz) 0 d.baseArr

end DistributedTicketController

/-- A call of `DistributedTicketController` that aborts nothing, wherever its feeders lie, whatever
the caller's arrays held, and with any random numbers that `Opens` lets it have. -/
inductive DistributedTicketController.Step {O : Type} (debug : Bool)
    (Opens : DistributedTicketController O → (Nat → BitVec 64) → Nat → Prop) :
    DistributedTicketController O → Call O → DistributedTicketController O → Prop
  | openTicket {layout : EventLayout} {head : Nat} {d d' : DistributedTicketController O}
      {clue : Nat → BitVec 64} {sz : Nat} {r : Except ExceptionT (List TicketId)} :
    Opens d clue sz → d.openTicket layout head debug clue sz = .ok (d', r) →
    Step debug Opens d (.openTicket sz r) d'
  | assignObserver {layout : EventLayout} {head : Nat} {d d' : DistributedTicketController O}
      {xs : List (TicketId × Option O)} {exceptionArr : List (Except ExceptionT Bool)}
      {out : List (Option O × Except ExceptionT Bool)} :
    exceptionArr.length = xs.length →
    d.assignObserver layout head xs exceptionArr = .ok (d', out) →
    Step debug Opens d (.assignObserver xs (out.map Prod.snd)) d'
  | stealObserver {layout : EventLayout} {head : Nat} {d d' : DistributedTicketController O}
      {ids : List TicketId} {outObserverArr rs : List (Except ExceptionT O)} :
    outObserverArr.length = ids.length →
    d.stealObserver layout head ids outObserverArr = .ok (d', rs) →
    Step debug Opens d (.stealObserver ids rs) d'
  | closeTicket {layout : EventLayout} {head : Nat} {d d' : DistributedTicketController O}
      {ids : List TicketId} :
    d.closeTicket layout head debug ids = .ok d' → Step debug Opens d (.closeTicket ids) d'

end RestFrame
