import Mathlib.Logic.Function.Basic
import NeuralNetwork.Lib.Cpp
import NeuralNetwork.Lib.Run

/-!
# Connections

The controllers, `MasterConnection` and its `InternalResolutor` of
`connectivity_subsystem/connectivity_subsystem.h`. A step of the `World` is a section under the mutex of
a partition, an access of a shared flag or a reading of the clock; `Owner` and `ResolutorPc` say what the
two threads of a connection do next. `closes` counts, beside the program, the calls of
`close_connection` for a connection.
-/

namespace ConnectivitySubsystem

open Cpp

structure MasterConfiguration where
  connectionTimeoutDur : Int
  connectionBrokeDur : Int
  absTimeoutDur : Int
  pingRetryCount : Nat
  pingRetryBreakDurExpS0 : Int
  slaveCount : Nat
deriving DecidableEq, Repr

structure ConnectionTopic where
  masterConfig : MasterConfiguration
  whoWhenMap : List (String × Int)
deriving DecidableEq, Repr

inductive PingError where
  | connectionNotFound
  | pingRoomOverflow
  | invalidArgument (what : String)
deriving DecidableEq, Repr

/-! ## ConnectionController -/

structure ConnectionController where
  idTopicMap : Nat → Option ConnectionTopic
  /-- `uint32_t`. -/
  idCounter : Nat

namespace ConnectionController

variable (c : ConnectionController)

def empty : ConnectionController := ⟨fun _ => none, 0⟩

def openConnection (config : MasterConfiguration) : ConnectionController × Nat :=
  ({ idTopicMap := Function.update c.idTopicMap c.idCounter (some ⟨config, []⟩),
     idCounter := (c.idCounter + 1) % 2 ^ 32 }, c.idCounter)

def getConnection (connectionId : Nat) : Option ConnectionTopic := c.idTopicMap connectionId

def setTopic (connectionId : Nat) (topic : ConnectionTopic) : ConnectionController :=
  { c with idTopicMap := Function.update c.idTopicMap connectionId (some topic) }

def pingConnection (connectionId : Nat) (who : String) (now : Int) :
    Except PingError ConnectionController :=
  match c.idTopicMap connectionId with
  | none => .error .connectionNotFound
  | some topic =>
    if who ∈ topic.whoWhenMap.map Prod.fst then
      .ok (c.setTopic connectionId { topic with
        whoWhenMap := topic.whoWhenMap.map fun e => if e.1 = who then (who, now) else e })
    else if topic.whoWhenMap.length = topic.masterConfig.slaveCount then .error .pingRoomOverflow
    else .ok (c.setTopic connectionId { topic with
      whoWhenMap := topic.whoWhenMap ++ [(who, now)] })

def closeConnection (connectionId : Nat) : ConnectionController :=
  { c with idTopicMap := Function.update c.idTopicMap connectionId none }

end ConnectionController

/-! ## DistributedConnectionController -/

structure DistributedConnectionController where
  /-- The size of `base_vec`. -/
  baseSz : Nat
  baseVec : Nat → ConnectionController
  seed : Nat

namespace DistributedConnectionController

variable (c : DistributedConnectionController)

def make (concurrencySz : Nat) : Except Fault DistributedConnectionController :=
  if concurrencySz = 0 then .error (.invalidArgument "bad concurrency size, 0")
  else .ok ⟨concurrencySz, fun _ => .empty, 0⟩

def encode (hi lo : Nat) : Nat := (hi <<< 32) ||| lo

/-- The base id and the slot. -/
def decode (encoded : Nat) : Nat × Nat := (encoded >>> 32, encoded &&& 0xffffffff)

def setBase (slotIdx : Nat) (base : ConnectionController) : DistributedConnectionController :=
  { c with baseVec := Function.update c.baseVec slotIdx base }

/-- `seed->fetch_add(1u) % base_vec.size()`. -/
def fetchSlot : DistributedConnectionController × Nat :=
  ({ c with seed := sizeT (c.seed + 1) }, c.seed % c.baseSz)

/-- The rest of `open_connection`. -/
def openConnection (slotIdx : Nat) (config : MasterConfiguration) :
    DistributedConnectionController × Nat :=
  let r := (c.baseVec slotIdx).openConnection config
  (c.setBase slotIdx r.1, encode r.2 slotIdx)

def getConnection (connectionId : Nat) : Option ConnectionTopic :=
  let id := decode connectionId
  if id.2 ≥ c.baseSz then none else (c.baseVec id.2).getConnection id.1

def pingConnection (connectionId : Nat) (who : String) (now : Int) :
    Except PingError DistributedConnectionController :=
  let id := decode connectionId
  if id.2 ≥ c.baseSz then .error (.invalidArgument "bad connection id, invalid connection id")
  else ((c.baseVec id.2).pingConnection id.1 who now).map (c.setBase id.2)

def closeConnection (connectionId : Nat) : DistributedConnectionController :=
  let id := decode connectionId
  if id.2 ≥ c.baseSz then c else c.setBase id.2 ((c.baseVec id.2).closeConnection id.1)

end DistributedConnectionController

/-! ## InternalResolutor -/

/-- What `update` does next. A topic was read at the time `since`. -/
inductive ResolutorPc where
  /-- No `update` runs. -/
  | idle
  | load
  | exchangeDisposed
  | closeConnection
  | firstTimepoint
  | getConnection
  | brokeTimepoint (topic : ConnectionTopic) (since : Int)
  | lapsed (topic : ConnectionTopic) (since : Int)
  /-- The loop over the pingers, with those that are left. -/
  | timeouts (topic : ConnectionTopic) (since : Int) (rest : List (String × Int))
  | clearFlag
deriving DecidableEq, Repr

structure InternalResolutor where
  firstTimepoint : Option Int
  brokeTimepoint : Option Int
  isConnectionDisposeInquired : Bool
  pc : ResolutorPc

/-- It took too long until all pingers were known, or since. -/
def InternalResolutor.isLate (r : InternalResolutor) (config : MasterConfiguration) (now : Int) : Bool :=
  match r.brokeTimepoint with
  | none => now - r.firstTimepoint.getD now ≥ config.connectionBrokeDur
  | some brokeTimepoint => now - brokeTimepoint ≥ config.absTimeoutDur

/-! ## MasterConnection -/

/-- What the owner's call does next. -/
inductive Owner where
  | absent
  /-- The constructor threw before it opened a connection. -/
  | rejected
  | fetchSlot
  | openConnection (slotIdx : Nat)
  | register
  /-- The constructor's `catch`. -/
  | catchClose
  | threw
  /-- No call runs. -/
  | alive
  | exchangeDisposed
  | closeConnection
  /-- `close` has returned. -/
  | closed
deriving DecidableEq, Repr

structure MasterConnection where
  masterConfig : MasterConfiguration
  connectionId : Nat
  isAliveFlag : Bool
  isConnectionDisposed : Bool
  isClosed : Bool
  resolutor : InternalResolutor
  owner : Owner
  closes : Nat

def inRange (dur lo hi : Int) : Bool := max lo (min dur hi) = dur

def HOUR : Int := 3600000000000

namespace MasterConnection

variable (c : MasterConnection)

def absent : MasterConnection where
  masterConfig := ⟨0, 0, 0, 0, 0, 0⟩
  connectionId := 0
  isAliveFlag := false
  isConnectionDisposed := false
  isClosed := false
  resolutor := ⟨none, none, false, .idle⟩
  owner := .absent
  closes := 0

def MIN_SLAVE_COUNT : Nat := 1

/-- The checks of `check_and_throw_configuration`, in their order. A bound that is one of the type is
left out. -/
def checkAndThrowConfiguration (config : MasterConfiguration) : Except Fault Unit :=
  if !inRange config.connectionTimeoutDur 0 HOUR then
    .error (.invalidArgument "bad connection timeout duration, duration out of range")
  else if !inRange config.connectionBrokeDur 0 HOUR then
    .error (.invalidArgument "bad connection broke duration, duration out of range")
  else if !inRange config.absTimeoutDur 0 (2 ^ 63 - 1) then
    .error (.invalidArgument "bad absolute timeout duration, duration out of range")
  else if !inRange config.pingRetryBreakDurExpS0 0 HOUR then
    .error (.invalidArgument "bad ping retry break duration, duration out of range")
  else if max config.slaveCount MIN_SLAVE_COUNT ≠ config.slaveCount then
    .error (.invalidArgument "bad slave count, value out of range")
  else .ok ()

def isAlive : Bool := !c.isClosed && c.isAliveFlag

/-- Its constructor opened a connection. -/
def opened : Bool :=
  match c.owner with
  | .absent | .rejected | .fetchSlot | .openConnection _ => false
  | _ => true

/-- Its `InternalResolutor` is registered. -/
def registered : Bool :=
  match c.owner with
  | .alive | .exchangeDisposed | .closeConnection | .closed => true
  | _ => false

def Open : Prop := c.opened = true ∧ c.closes = 0

instance : Decidable c.Open := inferInstanceAs (Decidable (_ ∧ _))

def setResolutorPc (pc : ResolutorPc) : MasterConnection :=
  { c with resolutor := { c.resolutor with pc := pc } }

end MasterConnection

/-! ## The system -/

structure World where
  controller : DistributedConnectionController
  conn : Nat → MasterConnection
  /-- The last reading of the clock. -/
  clock : Int

inductive Action where
  /-- A constructor is called. -/
  | construct (i : Nat) (config : MasterConfiguration)
  /-- `close` is called. -/
  | close (i : Nat)
  /-- The next access of the owner; whether `register_periodic_cronjob` succeeds, if it is that. -/
  | owner (i : Nat) (registers : Bool)
  /-- The cron job calls `update`. -/
  | update (i : Nat)
  /-- The next access of `update`, and the order in which a map that is copied is gone through. -/
  | resolutor (i : Nat) (order : List (String × Int))
  | ping (connectionId : Nat) (who : String)

structure Event where
  now : Int
  action : Action

namespace World

variable (w : World)

def setConn (i : Nat) (c : MasterConnection) : World := { w with conn := Function.update w.conn i c }

/-- `controller->close_connection` for a connection. -/
def closeConnection (i : Nat) (c : MasterConnection) : World :=
  { w with controller := w.controller.closeConnection c.connectionId }.setConn i
    { c with closes := c.closes + 1 }

def stepOwner (i : Nat) (registers : Bool) : Option World :=
  let c := w.conn i
  match c.owner with
  | .fetchSlot =>
    let r := w.controller.fetchSlot
    some ({ w with controller := r.1 }.setConn i { c with owner := .openConnection r.2 })
  | .openConnection slotIdx =>
    let r := w.controller.openConnection slotIdx c.masterConfig
    some ({ w with controller := r.1 }.setConn i { c with connectionId := r.2, owner := .register })
  | .register =>
    if registers then
      some (w.setConn i { c with isAliveFlag := true, isConnectionDisposed := false, isClosed := false,
                                 owner := .alive })
    else some (w.setConn i { c with owner := .catchClose })
  | .catchClose => some (w.closeConnection i { c with owner := .threw })
  | .exchangeDisposed =>
    some (w.setConn i { c with
      isConnectionDisposed := true
      owner := if c.isConnectionDisposed then .closed else .closeConnection })
  | .closeConnection => some (w.closeConnection i { c with owner := .closed })
  | .absent | .rejected | .threw | .alive | .closed => none

def stepResolutor (i : Nat) (order : List (String × Int)) (now : Int) : Except Fault (Option World) :=
  let c := w.conn i
  let r := c.resolutor
  let goOn (r : InternalResolutor) : Except Fault (Option World) :=
    .ok (some (w.setConn i { c with resolutor := r }))
  match r.pc with
  | .idle => .ok none
  | .load =>
    if c.isAliveFlag then goOn { r with pc := .firstTimepoint }
    else goOn { r with
      isConnectionDisposeInquired := true
      pc := if r.isConnectionDisposeInquired then .idle else .exchangeDisposed }
  | .exchangeDisposed =>
    .ok (some (w.setConn i { c with
      isConnectionDisposed := true
      resolutor := { r with pc := if c.isConnectionDisposed then .idle else .closeConnection } }))
  | .closeConnection => .ok (some (w.closeConnection i (c.setResolutorPc .idle)))
  | .firstTimepoint =>
    goOn { r with firstTimepoint := some (r.firstTimepoint.getD now), pc := .getConnection }
  | .getConnection =>
    match w.controller.getConnection c.connectionId with
    | none => goOn { r with pc := .clearFlag }
    | some topic =>
      if topic.masterConfig.slaveCount = 0 then .error .abort
      else if order.Perm topic.whoWhenMap then
        goOn { r with pc := .brokeTimepoint { topic with whoWhenMap := order } now }
      else .ok none
  | .brokeTimepoint topic since =>
    goOn { r with
      brokeTimepoint :=
        if topic.whoWhenMap.length = topic.masterConfig.slaveCount then some (r.brokeTimepoint.getD now)
        else r.brokeTimepoint
      pc := .lapsed topic since }
  | .lapsed topic since =>
    goOn { r with
      pc := if r.isLate topic.masterConfig now then .clearFlag
            else .timeouts topic since topic.whoWhenMap }
  | .timeouts _ _ [] => goOn { r with pc := .idle }
  | .timeouts topic since (e :: rest) =>
    goOn { r with
      pc := if now - e.2 ≥ topic.masterConfig.connectionTimeoutDur then .clearFlag
            else .timeouts topic since rest }
  | .clearFlag =>
    .ok (some (w.setConn i { c with isAliveFlag := false, resolutor := { r with pc := .idle } }))

/-- A step; `none` for one that cannot be taken. -/
def next (w : World) (e : Event) : Except Fault (Option World) :=
  if e.now < w.clock then .ok none
  else
    let w := { w with clock := e.now }
    match e.action with
    | .construct i config =>
      if (w.conn i).owner ≠ .absent then .ok none
      else match MasterConnection.checkAndThrowConfiguration config with
        | .error _ => .ok (some (w.setConn i { w.conn i with owner := .rejected }))
        | .ok () =>
          .ok (some (w.setConn i { w.conn i with masterConfig := config, owner := .fetchSlot }))
    | .close i =>
      if (w.conn i).owner = .closed then .ok (some w)
      else if (w.conn i).owner ≠ .alive then .ok none
      else .ok (some (w.setConn i { w.conn i with isClosed := true, owner := .exchangeDisposed }))
    | .owner i registers => .ok (w.stepOwner i registers)
    | .update i =>
      if (w.conn i).registered = true ∧ (w.conn i).resolutor.pc = .idle then
        .ok (some (w.setConn i ((w.conn i).setResolutorPc .load)))
      else .ok none
    | .resolutor i order => w.stepResolutor i order e.now
    | .ping connectionId who =>
      match w.controller.pingConnection connectionId who e.now with
      | .error _ => .ok (some w)
      | .ok controller => .ok (some { w with controller })

def init (controller : DistributedConnectionController) (clock : Int) : World :=
  ⟨controller, fun _ => .absent, clock⟩

def Step (w : World) (e : Event) (w' : World) : Prop := w.next e = .ok (some w')

end World

end ConnectivitySubsystem
