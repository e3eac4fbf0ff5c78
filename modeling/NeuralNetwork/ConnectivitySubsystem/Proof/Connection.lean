import Mathlib.Data.List.Nodup
import NeuralNetwork.ConnectivitySubsystem.Connection

/-!
# The lifecycle of a connection

`Inv` holds while no connection is opened under an id that is open and no `close` overtakes the cron job
that took the connection's close (`World.Fine`): the open connections have distinct ids and each has its
own topic, and every connection is closed once, by the one that took it.
-/

namespace ConnectivitySubsystem

open Cpp
open MasterConnection (absent checkAndThrowConfiguration isAlive opened)

/-! ## The controller as a map from ids to topics -/

namespace DistributedConnectionController

variable {c c' : DistributedConnectionController} {config : MasterConfiguration} {id id' lo : Nat}

theorem decode_eq (id : Nat) : decode id = (id / 2 ^ 32, id % 2 ^ 32) := by
  unfold decode
  rw [Nat.shiftRight_eq_div_pow, show (0xffffffff : Nat) = 2 ^ 32 - 1 from rfl,
    Nat.and_two_pow_sub_one_eq_mod]

/-- **Decoding an id gives back its parts.** -/
theorem decode_encode (hi : Nat) (hlo : lo < 2 ^ 32) : decode (encode hi lo) = (hi, lo) := by
  unfold encode
  rw [← Nat.shiftLeft_add_eq_or_of_lt hlo, decode_eq, Nat.shiftLeft_eq]
  refine Prod.ext ?_ ?_
  · omega
  · omega

theorem decode_injective : Function.Injective decode := by
  intro id id' h
  rw [decode_eq, decode_eq, Prod.mk.injEq] at h
  omega

variable {base : ConnectionController}

theorem getConnection_setBase {s : Nat} :
    (c.setBase s base).getConnection id =
      if (decode id).2 ≥ c.baseSz then none
      else if (decode id).2 = s then base.getConnection (decode id).1
      else (c.baseVec (decode id).2).getConnection (decode id).1 := by
  unfold getConnection setBase
  dsimp only
  by_cases hs : (decode id).2 = s
  · rw [if_pos hs, hs, Function.update_self]
  · rw [if_neg hs, Function.update_of_ne hs]

theorem getConnection_setTopic {topic : Option ConnectionTopic} (hid : (decode id).2 < c.baseSz)
    (hbase : base.idTopicMap =
      Function.update (c.baseVec (decode id).2).idTopicMap (decode id).1 topic) :
    (c.setBase (decode id).2 base).getConnection id' =
      if id' = id then topic else c.getConnection id' := by
  rw [getConnection_setBase]
  unfold getConnection ConnectionController.getConnection
  rw [hbase]
  by_cases he : id' = id
  · rw [if_pos he, he, if_neg (Nat.not_le.2 hid), if_pos rfl, Function.update_self]
  · rw [if_neg he]
    by_cases hout : (decode id').2 ≥ c.baseSz
    · rw [if_pos hout, if_pos hout]
    · rw [if_neg hout, if_neg hout]
      by_cases hs : (decode id').2 = (decode id).2
      · have hne : (decode id').1 ≠ (decode id).1 := fun h1 =>
          he (decode_injective (Prod.ext h1 hs))
        rw [if_pos hs, Function.update_of_ne hne, hs]
      · rw [if_neg hs]

theorem getConnection_closeConnection :
    (c.closeConnection id).getConnection id' = if id' = id then none else c.getConnection id' := by
  unfold closeConnection
  by_cases hid : (decode id).2 ≥ c.baseSz
  · rw [if_pos hid]
    by_cases he : id' = id
    · rw [if_pos he, he]
      exact if_pos hid
    · rw [if_neg he]
  · rw [if_neg hid]
    exact getConnection_setTopic (Nat.not_le.1 hid) rfl

theorem getConnection_openConnection (hlo : lo < c.baseSz) (hsz : c.baseSz < 2 ^ 32) :
    (c.openConnection lo config).1.getConnection id' =
      if id' = (c.openConnection lo config).2 then some ⟨config, []⟩ else c.getConnection id' := by
  have hd := decode_encode (c.baseVec lo).idCounter (hlo.trans hsz)
  have hslot : (decode (c.openConnection lo config).2).2 = lo := congrArg Prod.snd hd
  have hset : (c.openConnection lo config).1 =
      c.setBase (decode (c.openConnection lo config).2).2 ((c.baseVec lo).openConnection config).1 := by
    rw [hslot]
    rfl
  rw [hset]
  refine getConnection_setTopic (by rwa [hslot]) ?_
  rw [hslot, show (decode (c.openConnection lo config).2).1 = _ from congrArg Prod.fst hd]
  rfl

theorem closeConnection_counters (c : DistributedConnectionController) (id : Nat) :
    (c.closeConnection id).baseSz = c.baseSz ∧
      ∀ s, ((c.closeConnection id).baseVec s).idCounter = (c.baseVec s).idCounter := by
  unfold closeConnection
  dsimp only
  split
  · exact ⟨rfl, fun _ => rfl⟩
  · refine ⟨rfl, fun s => ?_⟩
    unfold setBase
    dsimp only
    by_cases hs : s = (decode id).2
    · rw [hs, Function.update_self]
      rfl
    · rw [Function.update_of_ne hs]

end DistributedConnectionController

/-- A topic that has no more pingers than slaves, each with a ping of the past. -/
structure ConnectionTopic.Ok (topic : ConnectionTopic) (clock : Int) : Prop where
  slaves : topic.masterConfig.slaveCount ≠ 0
  room : topic.whoWhenMap.length ≤ topic.masterConfig.slaveCount
  nodup : (topic.whoWhenMap.map Prod.fst).Nodup
  past : ∀ e ∈ topic.whoWhenMap, e.2 ≤ clock

variable {topic : ConnectionTopic} {now : Int} {clock : Int} {who : String} {c c' : MasterConnection}

theorem ConnectionTopic.Ok.mono (h : topic.Ok clock) (hle : clock ≤ now) : topic.Ok now where
  __ := h
  past e he := (h.past e he).trans hle

theorem ConnectionTopic.Ok.fresh {config : MasterConfiguration} (h : config.slaveCount ≠ 0) :
    ConnectionTopic.Ok ⟨config, []⟩ clock where
  slaves := h
  room := Nat.zero_le _
  nodup := List.nodup_nil
  past _ he := nomatch he

theorem ConnectionTopic.Ok.perm (h : topic.Ok clock) {order : List (String × Int)}
    (hp : order.Perm topic.whoWhenMap) :
    ConnectionTopic.Ok { topic with whoWhenMap := order } clock where
  slaves := h.slaves
  room := hp.length_eq.trans_le h.room
  nodup := (hp.map Prod.fst).nodup_iff.2 h.nodup
  past e he := h.past e (hp.mem_iff.1 he)

theorem ConnectionTopic.Ok.again (h : topic.Ok now) (who : String) :
    ConnectionTopic.Ok { topic with
      whoWhenMap := topic.whoWhenMap.map fun e => if e.1 = who then (who, now) else e } now where
  slaves := h.slaves
  room := (List.length_map _).trans_le h.room
  nodup := by
    have hfst : (topic.whoWhenMap.map fun e => if e.1 = who then (who, now) else e).map Prod.fst =
        topic.whoWhenMap.map Prod.fst := by
      rw [List.map_map]
      refine List.map_congr_left fun e _ => ?_
      dsimp only [Function.comp]
      split
      · next he => exact he.symm
      · rfl
    rw [hfst]
    exact h.nodup
  past e he := by
    obtain ⟨e', he', rfl⟩ := List.mem_map.1 he
    split
    · exact le_refl now
    · exact h.past e' he'

theorem ConnectionTopic.Ok.first (h : topic.Ok now) (hnew : who ∉ topic.whoWhenMap.map Prod.fst)
    (hroom : topic.whoWhenMap.length ≠ topic.masterConfig.slaveCount) :
    ConnectionTopic.Ok { topic with whoWhenMap := topic.whoWhenMap ++ [(who, now)] } now where
  slaves := h.slaves
  room := by
    rw [List.length_append]
    exact Nat.lt_of_le_of_ne h.room hroom
  nodup := by
    rw [List.map_append]
    exact h.nodup.append (List.nodup_singleton who) (List.disjoint_singleton.2 hnew)
  past e he := by
    rcases List.mem_append.1 he with he | he
    · exact h.past e he
    · rw [List.mem_singleton.1 he]

theorem ConnectionController.pingConnection_ok {c c' : ConnectionController} {id : Nat}
    (e : c.pingConnection id who now = .ok c') :
    ∃ topic topic', c.idTopicMap id = some topic ∧ topic'.masterConfig = topic.masterConfig ∧
      (topic.Ok now → topic'.Ok now) ∧ c' = c.setTopic id topic' := by
  unfold pingConnection at e
  cases htopic : c.idTopicMap id with
  | none =>
    rw [htopic] at e
    cases e
  | some topic =>
    rw [htopic] at e
    dsimp only at e
    split at e
    · cases e
      refine ⟨topic, _, rfl, ?_, ?_, rfl⟩
      · rfl
      · exact fun h => h.again who
    · next hnew =>
      split at e
      · cases e
      · next hroom =>
        cases e
        refine ⟨topic, _, rfl, ?_, ?_, rfl⟩
        · rfl
        · exact fun h => h.first hnew hroom

/-- **A ping** changes the pingers of one topic, and leaves no more than it has room for. -/
theorem DistributedConnectionController.pingConnection_ok {c c' : DistributedConnectionController}
    {id : Nat} (e : c.pingConnection id who now = .ok c') :
    c'.baseSz = c.baseSz ∧ (∀ s, (c'.baseVec s).idCounter = (c.baseVec s).idCounter) ∧
      ∃ topic topic', c.getConnection id = some topic ∧ topic'.masterConfig = topic.masterConfig ∧
        (topic.Ok now → topic'.Ok now) ∧
        ∀ id', c'.getConnection id' = if id' = id then some topic' else c.getConnection id' := by
  unfold pingConnection at e
  dsimp only at e
  split at e
  · cases e
  · next hid =>
    cases hbase : (c.baseVec (decode id).2).pingConnection (decode id).1 who now with
    | error err =>
      rw [hbase] at e
      cases e
    | ok base =>
    rw [hbase] at e
    cases e
    obtain ⟨topic, topic', hget, hcfg, hok, rfl⟩ := ConnectionController.pingConnection_ok hbase
    refine ⟨rfl, fun s => ?_, topic, topic', ?_, hcfg, hok, fun id' => ?_⟩
    · unfold setBase
      dsimp only
      by_cases hs : s = (decode id).2
      · rw [hs, Function.update_self]
        rfl
      · rw [Function.update_of_ne hs]
    · exact (if_neg hid).trans hget
    · exact getConnection_setTopic (Nat.not_le.1 hid) rfl

/-! ## Who closes a connection -/

def Owner.closing : Owner → Bool
  | .catchClose | .closeConnection => true
  | _ => false

def ResolutorPc.closing : ResolutorPc → Bool
  | .closeConnection => true
  | _ => false

def ResolutorPc.checks : ResolutorPc → Bool
  | .idle | .load | .exchangeDisposed | .closeConnection => false
  | _ => true

namespace MasterConnection

variable {c : MasterConnection}

/-- Someone has taken it on to close the connection. -/
def taken (c : MasterConnection) : Bool :=
  c.isConnectionDisposed || c.owner = .catchClose || c.owner = .threw

/-- The connection was closed once or will be, if someone took it on, and not before. -/
structure Ok (c : MasterConnection) : Prop where
  count : c.closes + c.owner.closing.toNat + c.resolutor.pc.closing.toNat = c.taken.toNat
  idle : c.registered = false → c.resolutor.pc = .idle ∧ c.isConnectionDisposed = false
  closed : c.owner = .closed → c.isConnectionDisposed = true ∧ c.resolutor.pc ≠ .closeConnection
  slaves : c.owner ≠ .absent → c.owner ≠ .rejected → c.masterConfig.slaveCount ≠ 0
  alive : c.resolutor.pc.checks = true → c.isAliveFlag = true

theorem Ok.closes_le (h : c.Ok) : c.closes ≤ 1 := by
  have hcount := h.count
  have := Bool.toNat_le c.taken
  omega

theorem Ok.closes_of_closed (h : c.Ok) (ho : c.owner = .closed) : c.closes = 1 := by
  have hcount := h.count
  obtain ⟨hd, hpc⟩ := h.closed ho
  have hclosing : c.resolutor.pc.closing = false := by
    cases hr : c.resolutor.pc <;> first | rfl | exact absurd hr hpc
  rw [ho, hclosing, taken, hd] at hcount
  exact hcount

theorem Ok.closes_eq_zero (h : c.Ok) (hc : c.owner.closing = true ∨ c.resolutor.pc.closing = true) :
    c.closes = 0 := by
  have hcount := h.count
  have := Bool.toNat_le c.taken
  rcases hc with hc | hc
  · rw [hc] at hcount
    change _ + 1 + _ = _ at hcount
    omega
  · rw [hc] at hcount
    change _ + _ + 1 = _ at hcount
    omega

theorem absent_ok : absent.Ok where
  count := rfl
  idle _ := ⟨rfl, rfl⟩
  closed h := nomatch h
  slaves h := absurd rfl h
  alive h := nomatch h

variable (h : c.Ok)

include h

theorem Ok.beforeRegister (hr : c.registered = false) {c' : MasterConnection}
    (hres : c'.resolutor = c.resolutor) (hdisposed : c'.isConnectionDisposed = c.isConnectionDisposed)
    (hcount : c'.closes + c'.owner.closing.toNat = (decide (c'.owner = .catchClose) ||
      decide (c'.owner = .threw)).toNat)
    (hclosed : c'.owner ≠ .closed)
    (hslaves : c'.owner ≠ .rejected → c'.masterConfig.slaveCount ≠ 0) : c'.Ok := by
  obtain ⟨hidle, hd⟩ := h.idle hr
  refine ⟨?_, fun _ => ?_, fun ho => absurd ho hclosed, fun _ => hslaves, fun ha => ?_⟩
  · rw [hres, hidle, taken, hdisposed, hd, Bool.false_or]
    exact hcount
  · rw [hres, hdisposed]
    exact ⟨hidle, hd⟩
  · rw [hres, hidle] at ha
    cases ha

/-! ### Steps of the owner -/

theorem Ok.registered (ho : c.owner = .register) :
    Ok { c with isAliveFlag := true, isConnectionDisposed := false, isClosed := false,
                owner := .alive } := by
  obtain ⟨hidle, hd⟩ := h.idle (by rw [MasterConnection.registered, ho])
  have hcount := h.count
  rw [hidle, ho, taken, hd, ho] at hcount
  refine ⟨?_, nofun, nofun, fun _ _ => h.slaves (by simp [ho]) (by simp [ho]), fun _ => rfl⟩
  rw [hidle]
  exact hcount

theorem Ok.close (ho : c.owner = .alive) :
    Ok { c with isClosed := true, owner := .exchangeDisposed } := by
  have hcount := h.count
  rw [ho, taken, ho] at hcount
  exact ⟨hcount, nofun, nofun, fun _ _ => h.slaves (by simp [ho]) (by simp [ho]), h.alive⟩

theorem Ok.exchangeDisposed (ho : c.owner = .exchangeDisposed)
    (hpc : c.resolutor.pc ≠ .closeConnection) :
    Ok { c with
      isConnectionDisposed := true
      owner := if c.isConnectionDisposed then .closed else .closeConnection } := by
  have hcount := h.count
  rw [ho, taken, ho] at hcount
  have hslaves := h.slaves (by simp [ho]) (by simp [ho])
  cases hd : c.isConnectionDisposed with
  | true =>
    rw [hd] at hcount
    exact ⟨hcount, nofun, fun _ => ⟨rfl, hpc⟩, fun _ _ => hslaves, h.alive⟩
  | false =>
    rw [hd] at hcount
    refine ⟨?_, nofun, nofun, fun _ _ => hslaves, h.alive⟩
    change c.closes + 0 + _ = 0 at hcount
    change c.closes + 1 + c.resolutor.pc.closing.toNat = 1
    omega

theorem Ok.closeConnection (ho : c.owner = .closeConnection) :
    Ok { c with owner := .closed, closes := c.closes + 1 } := by
  have hcount := h.count
  rw [ho, taken, ho] at hcount
  change c.closes + 1 + _ = _ at hcount
  have hd : c.isConnectionDisposed = true := by
    cases hd : c.isConnectionDisposed with
    | true => rfl
    | false =>
      rw [hd] at hcount
      change _ = 0 at hcount
      omega
  rw [hd] at hcount
  refine ⟨?_, nofun, fun _ => ⟨hd, fun hpc => ?_⟩,
    fun _ _ => h.slaves (by simp [ho]) (by simp [ho]), h.alive⟩
  · rw [taken]
    rw [hd]
    exact hcount
  · rw [hpc] at hcount
    change c.closes + 1 + 1 = 1 at hcount
    omega

/-! ### Steps of `update` -/

theorem Ok.registered_of_pc (hpc : c.resolutor.pc ≠ .idle) : c.registered = true := by
  cases hr : c.registered with
  | true => rfl
  | false => exact absurd (h.idle hr).1 hpc

theorem Ok.goOn (hreg : c.registered = true) (hold : c.resolutor.pc.closing = false)
    {r : InternalResolutor} (hnew : r.pc.closing = false)
    (halive : r.pc.checks = true → c.isAliveFlag = true) : Ok { c with resolutor := r } := by
  have hcount := h.count
  rw [hold] at hcount
  refine ⟨?_, fun hr => ?_, fun ho => ⟨(h.closed ho).1, fun hpc => ?_⟩, h.slaves, halive⟩
  · rw [hnew]
    exact hcount
  · cases hreg.symm.trans hr
  · rw [hpc] at hnew
    cases hnew

theorem Ok.resolutorExchange (hpc : c.resolutor.pc = .exchangeDisposed) :
    Ok { c with
      isConnectionDisposed := true
      resolutor := { c.resolutor with
        pc := if c.isConnectionDisposed then .idle else .closeConnection } } := by
  have hcount := h.count
  have hreg := h.registered_of_pc (by simp [hpc])
  rw [hpc, taken] at hcount
  cases hd : c.isConnectionDisposed with
  | true =>
    rw [hd] at hcount
    exact ⟨hcount, fun hr => Bool.noConfusion (hreg.symm.trans hr), fun _ => ⟨rfl, nofun⟩, h.slaves, nofun⟩
  | false =>
    refine ⟨?_, fun hr => Bool.noConfusion (hreg.symm.trans hr), fun ho => ?_, h.slaves, nofun⟩
    · have hlost : (decide (c.owner = .catchClose) || decide (c.owner = .threw)) = false := by
        unfold MasterConnection.registered at hreg
        cases ho : c.owner <;> rw [ho] at hreg <;> first | rfl | cases hreg
      rw [hd, Bool.false_or, hlost] at hcount
      change c.closes + c.owner.closing.toNat + 0 = 0 at hcount
      change c.closes + c.owner.closing.toNat + 1 = 1
      omega
    · cases hd.symm.trans (h.closed ho).1

theorem Ok.resolutorClose (hpc : c.resolutor.pc = .closeConnection) :
    Ok { c.setResolutorPc .idle with closes := c.closes + 1 } := by
  have hcount := h.count
  have hreg := h.registered_of_pc (by simp [hpc])
  rw [hpc] at hcount
  change c.closes + c.owner.closing.toNat + 1 = _ at hcount
  refine ⟨?_, fun hr => Bool.noConfusion (hreg.symm.trans hr),
    fun ho => absurd hpc (h.closed ho).2, h.slaves, nofun⟩
  change c.closes + 1 + c.owner.closing.toNat + 0 = c.taken.toNat
  omega

theorem Ok.clearFlag (hpc : c.resolutor.pc = .clearFlag) :
    Ok { c with isAliveFlag := false, resolutor := { c.resolutor with pc := .idle } } := by
  have hcount := h.count
  have hreg := h.registered_of_pc (by simp [hpc])
  rw [hpc] at hcount
  exact ⟨hcount, fun hr => Bool.noConfusion (hreg.symm.trans hr),
    fun ho => ⟨(h.closed ho).1, nofun⟩, h.slaves, nofun⟩

end MasterConnection

/-! ## What `update` has read -/

/-- A topic that `update` read at the time `since`. -/
structure Read (c : MasterConnection) (topic : ConnectionTopic) (since clock : Int) : Prop where
  ok : topic.Ok since
  past : since ≤ clock
  own : c.Open → topic.masterConfig = c.masterConfig

/-- The last ping of a pinger was found to be recent enough. -/
def Seen (topic : ConnectionTopic) (since clock : Int) (e : String × Int) : Prop :=
  ∃ now, since ≤ now ∧ now ≤ clock ∧ now - e.2 < topic.masterConfig.connectionTimeoutDur

def MasterConnection.Reads (c : MasterConnection) (clock : Int) : Prop :=
  match c.resolutor.pc with
  | .brokeTimepoint topic since | .lapsed topic since => Read c topic since clock
  | .timeouts topic since rest => Read c topic since clock ∧
      ∀ e ∈ topic.whoWhenMap, e ∈ rest ∨ Seen topic since clock e
  | _ => True

theorem Read.mono {since clock : Int} (h : Read c topic since clock) (hle : clock ≤ now)
    (hopen : c'.Open → c.Open) (hcfg : c'.Open → c'.masterConfig = c.masterConfig) :
    Read c' topic since now where
  ok := h.ok
  past := h.past.trans hle
  own ho := (h.own (hopen ho)).trans (hcfg ho).symm

theorem MasterConnection.Reads.mono (h : c.Reads clock) (hle : clock ≤ now)
    (hpc : c'.resolutor.pc = c.resolutor.pc) (hopen : c'.Open → c.Open)
    (hcfg : c'.Open → c'.masterConfig = c.masterConfig) : c'.Reads now := by
  unfold Reads at h ⊢
  rw [hpc]
  cases hc : c.resolutor.pc with
  | idle | load | exchangeDisposed | closeConnection | firstTimepoint | getConnection | clearFlag =>
    exact True.intro
  | brokeTimepoint topic since | lapsed topic since =>
    rw [hc] at h
    exact Read.mono h hle hopen hcfg
  | timeouts topic since rest =>
    rw [hc] at h
    refine ⟨h.1.mono hle hopen hcfg, fun e he => (h.2 e he).imp_right ?_⟩
    rintro ⟨t, h1, h2, h3⟩
    exact ⟨t, h1, h2.trans hle, h3⟩

/-! ## The invariant -/

namespace World

open DistributedConnectionController

variable {w w' : World} {i j : Nat} {c : MasterConnection} {ev : Event}

structure Inv (w : World) : Prop where
  conns : ∀ i, (w.conn i).Ok
  pos : 0 < w.controller.baseSz
  baseSz : w.controller.baseSz < 2 ^ 32
  counters : ∀ s, (w.controller.baseVec s).idCounter < 2 ^ 32
  slots : ∀ i s, (w.conn i).owner = .openConnection s → s < w.controller.baseSz
  named : ∀ i, (w.conn i).opened = true → ∃ hi lo, hi < 2 ^ 32 ∧ lo < w.controller.baseSz ∧
    (w.conn i).connectionId = encode hi lo
  present : ∀ i, (w.conn i).Open → ∃ topic,
    w.controller.getConnection (w.conn i).connectionId = some topic ∧
      topic.masterConfig = (w.conn i).masterConfig
  distinct : ∀ i j, (w.conn i).Open → (w.conn j).Open →
    (w.conn i).connectionId = (w.conn j).connectionId → i = j
  topics : ∀ id topic, w.controller.getConnection id = some topic → topic.Ok w.clock
  reads : ∀ i, (w.conn i).Reads w.clock

/-- What a step leaves alone: a connection that stays open keeps its id and, unless the step is a ping
of it, its topic; and none comes alive again. -/
structure StepOk (w : World) (ev : Event) (w' : World) : Prop where
  kept : ∀ j, (w.conn j).Open → (w'.conn j).Open →
    (w'.conn j).connectionId = (w.conn j).connectionId ∧
      (w'.controller.getConnection (w.conn j).connectionId =
          w.controller.getConnection (w.conn j).connectionId ∨
        ∃ who, ev.action = .ping (w.conn j).connectionId who)
  alive : ∀ j, (w.conn j).registered = true → (w'.conn j).isAlive = true → (w.conn j).isAlive = true

theorem StepOk.refl (w : World) (ev : Event) : StepOk w ev w where
  kept _ _ _ := ⟨rfl, .inl rfl⟩
  alive _ _ h := h

theorem Inv.tick (h : Inv w) (hle : w.clock ≤ now) : Inv { w with clock := now } where
  __ := h
  topics id topic hget := (h.topics id topic hget).mono hle
  reads i := (h.reads i).mono hle rfl id fun _ => rfl

/-- The state of one connection and the topics change: the open connections keep theirs, and have other
ids than a new one. -/
theorem Inv.replaced (h : Inv w) {controller : DistributedConnectionController} (hok : c.Ok)
    (hsz : controller.baseSz = w.controller.baseSz)
    (hcounters : ∀ s, (controller.baseVec s).idCounter < 2 ^ 32)
    (hslot : ∀ s, c.owner = .openConnection s → s < w.controller.baseSz)
    (hnamed : c.opened = true → ∃ hi lo, hi < 2 ^ 32 ∧ lo < w.controller.baseSz ∧
      c.connectionId = encode hi lo)
    (hpresent : c.Open → ∃ topic, controller.getConnection c.connectionId = some topic ∧
      topic.masterConfig = c.masterConfig)
    (hothers : ∀ j, j ≠ i → (w.conn j).Open → (c.Open → (w.conn j).connectionId ≠ c.connectionId) ∧
      controller.getConnection (w.conn j).connectionId =
        w.controller.getConnection (w.conn j).connectionId)
    (htopics : ∀ id topic, controller.getConnection id = some topic → topic.Ok w.clock)
    (hreads : c.Reads w.clock)
    (hkept : (w.conn i).Open → c.Open → c.connectionId = (w.conn i).connectionId ∧
      controller.getConnection (w.conn i).connectionId =
        w.controller.getConnection (w.conn i).connectionId)
    (halive : (w.conn i).registered = true → c.isAlive = true → (w.conn i).isAlive = true) :
    Inv ({ w with controller }.setConn i c) ∧ StepOk w ev ({ w with controller }.setConn i c) := by
  have hconn : ∀ j, j = i ∧ ({ w with controller }.setConn i c).conn j = c ∨
      j ≠ i ∧ ({ w with controller }.setConn i c).conn j = w.conn j := by
    intro j
    by_cases hji : j = i
    · exact .inl ⟨hji, hji ▸ Function.update_self ..⟩
    · exact .inr ⟨hji, Function.update_of_ne hji ..⟩
  refine ⟨⟨fun j => ?_, hsz ▸ h.pos, hsz ▸ h.baseSz, hcounters, fun j s hj => hsz ▸ ?_,
    fun j hj => hsz ▸ ?_, fun j hj => ?_, fun j k hj hk he => ?_, htopics, fun j => ?_⟩,
    fun j hj hj' => ?_, fun j hreg hj => ?_⟩
  all_goals rcases hconn j with ⟨hji, e⟩ | ⟨hji, e⟩
  · rw [e]
    exact hok
  · rw [e]
    exact h.conns j
  · exact hslot s (e ▸ hj)
  · exact h.slots j s (e ▸ hj)
  · rw [e] at hj ⊢
    exact hnamed hj
  · rw [e] at hj ⊢
    exact h.named j hj
  · rw [e] at hj ⊢
    exact hpresent hj
  · rw [e] at hj ⊢
    exact (hothers j hji hj).2 ▸ h.present j hj
  · rw [e] at hj he
    rcases hconn k with ⟨hki, ek⟩ | ⟨hki, ek⟩
    · exact hji.trans hki.symm
    · rw [ek] at hk he
      exact absurd he.symm ((hothers k hki hk).1 hj)
  · rw [e] at hj he
    rcases hconn k with ⟨hki, ek⟩ | ⟨hki, ek⟩
    · rw [ek] at hk he
      exact absurd he ((hothers j hji hj).1 hk)
    · rw [ek] at hk he
      exact h.distinct j k hj hk he
  · rw [e]
    exact hreads
  · rw [e]
    exact h.reads j
  · rw [e] at hj' ⊢
    subst hji
    exact (hkept hj hj').imp_right .inl
  · rw [e]
    exact ⟨rfl, .inl (hothers j hji hj).2⟩
  · subst hji
    exact halive hreg (e ▸ hj)
  · rwa [e] at hj

theorem Inv.setConn (h : Inv w) (hok : c.Ok)
    (hsame : c.opened = true → (w.conn i).opened = true ∧
      c.connectionId = (w.conn i).connectionId ∧ c.masterConfig = (w.conn i).masterConfig ∧
      c.closes = (w.conn i).closes)
    (hslot : ∀ s, c.owner = .openConnection s → s < w.controller.baseSz) (hreads : c.Reads w.clock)
    (halive : (w.conn i).registered = true → c.isAlive = true → (w.conn i).isAlive = true) :
    Inv (w.setConn i c) ∧ StepOk w ev (w.setConn i c) := by
  have hopen : c.Open → (w.conn i).Open ∧ c.connectionId = (w.conn i).connectionId ∧
      c.masterConfig = (w.conn i).masterConfig := fun hc =>
    have ⟨h1, h2, h3, h4⟩ := hsame hc.1
    ⟨⟨h1, h4 ▸ hc.2⟩, h2, h3⟩
  refine h.replaced hok rfl h.counters hslot (fun hc => ?_) (fun hc => ?_)
    (fun j hji hj => ⟨fun hc he => ?_, rfl⟩) h.topics hreads (fun _ hc => ⟨(hopen hc).2.1, rfl⟩) halive
  · rw [(hsame hc).2.1]
    exact h.named i (hsame hc).1
  · obtain ⟨hi, hid, hcfg⟩ := hopen hc
    rw [hid, hcfg]
    exact h.present i hi
  · obtain ⟨hi, hid, -⟩ := hopen hc
    exact hji (h.distinct j i hj hi (he.trans hid))

/-- **A connection is opened** under an id that no open connection has. -/
theorem Inv.openConnection (h : Inv w) {slotIdx : Nat} (ho : (w.conn i).owner = .openConnection slotIdx)
    (hfree : w.controller.getConnection
      (w.controller.openConnection slotIdx (w.conn i).masterConfig).2 = none) :
    let r := w.controller.openConnection slotIdx (w.conn i).masterConfig
    let w' := { w with controller := r.1 }.setConn i
      { w.conn i with connectionId := r.2, owner := .register }
    Inv w' ∧ StepOk w ev w' := by
  intro r w'
  have hslot := h.slots i slotIdx ho
  have hget : ∀ id, r.1.getConnection id =
      if id = r.2 then some ⟨(w.conn i).masterConfig, []⟩ else w.controller.getConnection id :=
    fun id => getConnection_openConnection hslot h.baseSz
  have hslaves := (h.conns i).slaves (by simp [ho]) (by simp [ho])
  have hcount := (h.conns i).count
  obtain ⟨hidle, hd⟩ := (h.conns i).idle (by rw [MasterConnection.registered, ho])
  rw [hidle, ho, MasterConnection.taken, hd, ho] at hcount
  have hne : ∀ j, (w.conn j).Open → (w.conn j).connectionId ≠ r.2 := by
    intro j hj he
    obtain ⟨topic, htopic, -⟩ := h.present j hj
    rw [he, hfree] at htopic
    cases htopic
  refine h.replaced ?_ rfl (fun s => ?_) nofun (fun _ => ⟨_, slotIdx, h.counters slotIdx, hslot, rfl⟩)
    (fun _ => ⟨_, (hget _).trans (if_pos rfl), rfl⟩)
    (fun j _ hj => ⟨fun _ => hne j hj, (hget _).trans (if_neg (hne j hj))⟩) (fun id topic hid => ?_) ?_
    (fun hi => ?_) fun hreg => ?_
  · exact (h.conns i).beforeRegister (by rw [MasterConnection.registered, ho]) rfl rfl hcount nofun
      fun _ => hslaves
  · show (Function.update w.controller.baseVec slotIdx _ s).idCounter < _
    by_cases hs : s = slotIdx
    · rw [hs, Function.update_self]
      exact Nat.mod_lt _ (by decide)
    · rw [Function.update_of_ne hs]
      exact h.counters s
  · rw [hget] at hid
    split at hid
    · cases hid
      exact .fresh hslaves
    · exact h.topics id topic hid
  · unfold MasterConnection.Reads
    rw [hidle]
    exact True.intro
  · have := hi.1
    rw [opened, ho] at this
    cases this
  · rw [MasterConnection.registered, ho] at hreg
    cases hreg

/-- **A connection is closed**, by the one that took it, and no other. -/
theorem Inv.closeConnection (h : Inv w) (hopen : (w.conn i).Open)
    (hok : MasterConnection.Ok { c with closes := c.closes + 1 })
    (hid : c.connectionId = (w.conn i).connectionId) (hslot : ∀ s, c.owner ≠ .openConnection s)
    (hreads : MasterConnection.Reads { c with closes := c.closes + 1 } w.clock)
    (halive : (w.conn i).registered = true → c.isAlive = true → (w.conn i).isAlive = true) :
    Inv (w.closeConnection i c) ∧ StepOk w ev (w.closeConnection i c) := by
  have hget : ∀ id, (w.controller.closeConnection c.connectionId).getConnection id =
      if id = c.connectionId then none else w.controller.getConnection id :=
    fun id => getConnection_closeConnection
  obtain ⟨hsz, hcounter⟩ := closeConnection_counters w.controller c.connectionId
  have hclosed : ¬ MasterConnection.Open { c with closes := c.closes + 1 } := fun hc =>
    absurd hc.2 (Nat.succ_ne_zero _)
  have hne : ∀ j, j ≠ i → (w.conn j).Open → (w.conn j).connectionId ≠ c.connectionId :=
    fun j hji hj he => hji (h.distinct j i hj hopen (he.trans hid))
  refine h.replaced hok hsz (fun s => hcounter s ▸ h.counters s) (fun s hs => absurd hs (hslot s))
    (fun _ => ?_) (fun hc => absurd hc hclosed)
    (fun j hji hj => ⟨fun _ => hne j hji hj, (hget _).trans (if_neg (hne j hji hj))⟩)
    (fun id topic hid => ?_) hreads (fun _ hc => absurd hc hclosed) halive
  · show ∃ hi lo, _ ∧ _ ∧ c.connectionId = _
    rw [hid]
    exact h.named i hopen.1
  · rw [hget] at hid
    split at hid
    · cases hid
    · exact h.topics id topic hid

theorem Inv.ping (h : Inv w) {connectionId : Nat} {who : String} {controller}
    (e : w.controller.pingConnection connectionId who w.clock = .ok controller)
    (hev : ev.action = .ping connectionId who) :
    Inv { w with controller } ∧ StepOk w ev { w with controller } := by
  obtain ⟨hsz, hcounter, topic, topic', htopic, hcfg, hok, hget⟩ := pingConnection_ok e
  refine ⟨⟨h.conns, hsz ▸ h.pos, hsz ▸ h.baseSz, fun s => hcounter s ▸ h.counters s,
    fun j s hj => hsz ▸ h.slots j s hj, fun j hj => hsz ▸ h.named j hj, fun j hj => ?_, h.distinct,
    fun id t hid => ?_, h.reads⟩, fun j hj _ => ⟨rfl, ?_⟩, fun _ _ ha => ha⟩
  · obtain ⟨t, ht, htcfg⟩ := h.present j hj
    rw [hget]
    split
    · next he =>
      rw [he, htopic] at ht
      cases ht
      exact ⟨topic', rfl, hcfg.trans htcfg⟩
    · exact ⟨t, ht, htcfg⟩
  · rw [hget] at hid
    split at hid
    · cases hid
      exact hok (h.topics connectionId topic htopic)
    · exact h.topics id t hid
  · by_cases he : (w.conn j).connectionId = connectionId
    · exact .inr ⟨who, he ▸ hev⟩
    · exact .inl ((hget _).trans (if_neg he))

/-! ## Steps -/

/-- No connection is open under the id that is given, and no `close` finds the flag set by an `update`
that has not closed the connection yet. -/
def Fine (w : World) (ev : Event) : Bool :=
  match ev.action with
  | .owner i _ =>
    match (w.conn i).owner with
    | .openConnection slotIdx =>
      w.controller.getConnection (w.controller.openConnection slotIdx (w.conn i).masterConfig).2 = none
    | .exchangeDisposed => (w.conn i).resolutor.pc ≠ .closeConnection
    | _ => true
  | _ => true

theorem Inv.fetchSlot (h : Inv w) (ho : (w.conn i).owner = .fetchSlot) :
    let r := w.controller.fetchSlot
    let w' := { w with controller := r.1 }.setConn i { w.conn i with owner := .openConnection r.2 }
    Inv w' ∧ StepOk w ev w' := by
  intro r w'
  have hseed : Inv { w with controller := w.controller.fetchSlot.1 } :=
    ⟨h.conns, h.pos, h.baseSz, h.counters, h.slots, h.named, h.present, h.distinct, h.topics, h.reads⟩
  have hcount := (h.conns i).count
  have hslaves := (h.conns i).slaves (by simp [ho]) (by simp [ho])
  obtain ⟨hidle, hd⟩ := (h.conns i).idle (by rw [MasterConnection.registered, ho])
  rw [hidle, ho, MasterConnection.taken, hd, ho] at hcount
  have hset : Inv w' ∧ StepOk { w with controller := r.1 } ev w' := by
    refine hseed.setConn ?_ (fun ho' => ?_) (fun s hs => ?_) ?_ fun hreg => ?_
    · exact (h.conns i).beforeRegister (by rw [MasterConnection.registered, ho]) rfl rfl hcount nofun
        fun _ => hslaves
    · cases ho'
    · cases hs
      exact Nat.mod_lt _ h.pos
    · unfold MasterConnection.Reads
      rw [hidle]
      exact True.intro
    · rw [MasterConnection.registered, ho] at hreg
      cases hreg
  exact ⟨hset.1, hset.2.kept, hset.2.alive⟩

theorem Inv.stepOwner (h : Inv w) {registers : Bool} (hev : ev.action = .owner i registers)
    (hfine : w.Fine ev = true) (e : w.stepOwner i registers = some w') : Inv w' ∧ StepOk w ev w' := by
  unfold Fine at hfine
  rw [hev] at hfine
  dsimp only at hfine
  unfold World.stepOwner at e
  dsimp only at e
  have hok := h.conns i
  cases ho : (w.conn i).owner with
  | absent | rejected | threw | alive | closed =>
    rw [ho] at e
    cases e
  | fetchSlot =>
    rw [ho] at e
    cases e
    exact h.fetchSlot ho
  | openConnection slotIdx =>
    rw [ho] at e hfine
    cases e
    exact h.openConnection ho (of_decide_eq_true hfine)
  | register =>
    rw [ho] at e
    have hreg : (w.conn i).registered ≠ true := by rw [MasterConnection.registered, ho]; exact nofun
    have hopened : (w.conn i).opened = true := by rw [opened, ho]
    dsimp only at e
    split at e
    · cases e
      refine h.setConn (hok.registered ho) (fun _ => ⟨hopened, rfl, rfl, rfl⟩) nofun ?_
        fun hr => absurd hr hreg
      exact (h.reads i).mono (le_refl _) rfl (fun hopen => ⟨hopened, hopen.2⟩) fun _ => rfl
    · cases e
      refine h.setConn ?_ (fun _ => ⟨hopened, rfl, rfl, rfl⟩) nofun ?_ fun hr => absurd hr hreg
      · have hcount := hok.count
        obtain ⟨hidle, hd⟩ := hok.idle (by rw [MasterConnection.registered, ho])
        rw [hidle, ho, MasterConnection.taken, hd, ho] at hcount
        change (w.conn i).closes + 0 + 0 = 0 at hcount
        refine hok.beforeRegister (by rw [MasterConnection.registered, ho]) rfl rfl ?_ nofun
          fun _ => hok.slaves (by simp [ho]) (by simp [ho])
        change (w.conn i).closes + 1 = 1
        omega
      · exact (h.reads i).mono (le_refl _) rfl (fun hopen => ⟨hopened, hopen.2⟩) fun _ => rfl
  | catchClose =>
    rw [ho] at e
    cases e
    have hopened : (w.conn i).opened = true := by rw [opened, ho]
    have hzero := hok.closes_eq_zero (.inl (by rw [ho]; rfl))
    refine h.closeConnection ⟨hopened, hzero⟩ ?_ rfl nofun ?_ fun _ ha => ha
    · refine hok.beforeRegister (by rw [MasterConnection.registered, ho]) rfl rfl ?_ nofun
        fun _ => hok.slaves (by simp [ho]) (by simp [ho])
      rw [hzero]
      rfl
    · exact (h.reads i).mono (le_refl _) rfl (fun hopen => absurd hopen.2 (Nat.succ_ne_zero _))
        fun _ => rfl
  | exchangeDisposed =>
    rw [ho] at e hfine
    cases e
    have hopened : (w.conn i).opened = true := by rw [opened, ho]
    refine h.setConn (hok.exchangeDisposed ho (of_decide_eq_true hfine))
      (fun _ => ⟨hopened, rfl, rfl, rfl⟩) (fun s hs => ?_) ?_ fun _ ha => ha
    · split at hs <;> cases hs
    · exact (h.reads i).mono (le_refl _) rfl (fun hopen => ⟨hopened, hopen.2⟩) fun _ => rfl
  | closeConnection =>
    rw [ho] at e
    cases e
    have hopened : (w.conn i).opened = true := by rw [opened, ho]
    have hzero := hok.closes_eq_zero (.inl (by rw [ho]; rfl))
    refine h.closeConnection ⟨hopened, hzero⟩ (hok.closeConnection ho) rfl nofun ?_ fun _ ha => ha
    exact (h.reads i).mono (le_refl _) rfl (fun hopen => absurd hopen.2 (Nat.succ_ne_zero _))
      fun _ => rfl

theorem Inv.goOn (h : Inv w) (hpc : (w.conn i).resolutor.pc ≠ .idle)
    (hold : (w.conn i).resolutor.pc.closing = false) {r : InternalResolutor}
    (hnew : r.pc.closing = false) (halive : r.pc.checks = true → (w.conn i).isAliveFlag = true)
    (hreads : MasterConnection.Reads { w.conn i with resolutor := r } w.clock) :
    Inv (w.setConn i { w.conn i with resolutor := r }) ∧
      StepOk w ev (w.setConn i { w.conn i with resolutor := r }) := by
  have hok := h.conns i
  refine h.setConn (hok.goOn (hok.registered_of_pc hpc) hold hnew halive) (fun ho => ?_) (fun s hs => ?_)
    hreads fun _ ha => ha
  · exact ⟨ho, rfl, rfl, rfl⟩
  · exact h.slots i s hs

/-- **A step of `update`**, at the time that the clock says; it does not abort. -/
theorem Inv.stepResolutor (h : Inv w) (i : Nat) (ev : Event) (order : List (String × Int)) :
    ∃ o, w.stepResolutor i order w.clock = .ok o ∧ ∀ w', o = some w' → Inv w' ∧ StepOk w ev w' := by
  have hok := h.conns i
  have hreads := h.reads i
  unfold World.stepResolutor
  unfold MasterConnection.Reads at hreads
  dsimp only
  cases hpc : (w.conn i).resolutor.pc with
  | idle => exact ⟨none, rfl, nofun⟩
  | load =>
    rw [hpc] at hreads
    dsimp only
    split
    · next hflag =>
      refine ⟨_, rfl, fun w' e => ?_⟩
      cases e
      exact h.goOn (by simp [hpc]) (by rw [hpc]; rfl) rfl (fun _ => hflag) True.intro
    · refine ⟨_, rfl, fun w' e => ?_⟩
      cases e
      cases (w.conn i).resolutor.isConnectionDisposeInquired
      · exact h.goOn (by simp [hpc]) (by rw [hpc]; rfl) rfl nofun True.intro
      · exact h.goOn (by simp [hpc]) (by rw [hpc]; rfl) rfl nofun True.intro
  | exchangeDisposed =>
    refine ⟨_, rfl, fun w' e => ?_⟩
    cases e
    refine h.setConn (hok.resolutorExchange hpc) (fun ho => ⟨ho, rfl, rfl, rfl⟩)
      (fun s hs => h.slots i s hs) ?_ fun _ ha => ha
    cases (w.conn i).isConnectionDisposed
    · exact True.intro
    · exact True.intro
  | closeConnection =>
    refine ⟨_, rfl, fun w' e => ?_⟩
    cases e
    have hreg := hok.registered_of_pc (by simp [hpc])
    have hzero := hok.closes_eq_zero (.inr (by rw [hpc]; rfl))
    have hopened : (w.conn i).opened = true := by
      unfold MasterConnection.registered at hreg
      unfold opened
      cases ho : (w.conn i).owner <;> rw [ho] at hreg <;> first | rfl | cases hreg
    refine h.closeConnection ⟨hopened, hzero⟩ (hok.resolutorClose hpc) rfl (fun s hs => ?_) True.intro
      fun _ ha => ha
    change (w.conn i).owner = _ at hs
    rw [MasterConnection.registered, hs] at hreg
    cases hreg
  | firstTimepoint =>
    refine ⟨_, rfl, fun w' e => ?_⟩
    cases e
    exact h.goOn (by simp [hpc]) (by rw [hpc]; rfl) rfl (fun _ => hok.alive (by rw [hpc]; rfl)) True.intro
  | getConnection =>
    have hflag := hok.alive (by rw [hpc]; rfl)
    cases hget : w.controller.getConnection (w.conn i).connectionId with
    | none =>
      refine ⟨_, rfl, fun w' e => ?_⟩
      cases e
      exact h.goOn (by simp [hpc]) (by rw [hpc]; rfl) rfl (fun _ => hflag) True.intro
    | some topic =>
      have htopic := h.topics _ _ hget
      dsimp only
      rw [if_neg htopic.slaves]
      split
      · next hperm =>
        refine ⟨_, rfl, fun w' e => ?_⟩
        cases e
        refine h.goOn (by simp [hpc]) (by rw [hpc]; rfl) rfl (fun _ => hflag) ?_
        refine ⟨htopic.perm hperm, le_refl _, fun ho => ?_⟩
        obtain ⟨t, ht, hcfg⟩ := h.present i ho
        rw [hget] at ht
        cases ht
        exact hcfg
      · exact ⟨none, rfl, nofun⟩
  | brokeTimepoint topic since =>
    rw [hpc] at hreads
    refine ⟨_, rfl, fun w' e => ?_⟩
    cases e
    exact h.goOn (by simp [hpc]) (by rw [hpc]; rfl) rfl (fun _ => hok.alive (by rw [hpc]; rfl))
      ⟨hreads.ok, hreads.past, hreads.own⟩
  | lapsed topic since =>
    rw [hpc] at hreads
    have hflag := hok.alive (by rw [hpc]; rfl)
    refine ⟨_, rfl, fun w' e => ?_⟩
    cases e
    split
    · exact h.goOn (by simp [hpc]) (by rw [hpc]; rfl) rfl (fun _ => hflag) True.intro
    · exact h.goOn (by simp [hpc]) (by rw [hpc]; rfl) rfl (fun _ => hflag)
        ⟨⟨hreads.ok, hreads.past, hreads.own⟩, fun _ he => .inl he⟩
  | timeouts topic since rest =>
    rw [hpc] at hreads
    have hflag := hok.alive (by rw [hpc]; rfl)
    cases rest with
    | nil =>
      refine ⟨_, rfl, fun w' e => ?_⟩
      cases e
      exact h.goOn (by simp [hpc]) (by rw [hpc]; rfl) rfl nofun True.intro
    | cons e0 rest =>
      refine ⟨_, rfl, fun w' e => ?_⟩
      cases e
      split
      · exact h.goOn (by simp [hpc]) (by rw [hpc]; rfl) rfl (fun _ => hflag) True.intro
      · next hlate =>
        refine h.goOn (by simp [hpc]) (by rw [hpc]; rfl) rfl (fun _ => hflag)
          ⟨⟨hreads.1.ok, hreads.1.past, hreads.1.own⟩, fun e he => ?_⟩
        rcases hreads.2 e he with he | he
        · rcases List.mem_cons.1 he with rfl | he
          · exact .inr ⟨w.clock, hreads.1.past, le_refl _, Int.not_le.1 hlate⟩
          · exact .inl he
        · exact .inr he
  | clearFlag =>
    refine ⟨_, rfl, fun w' e => ?_⟩
    cases e
    refine h.setConn (hok.clearFlag hpc) (fun ho => ⟨ho, rfl, rfl, rfl⟩) (fun s hs => h.slots i s hs)
      True.intro fun _ ha => ?_
    simp [isAlive] at ha

omit w in
theorem slaveCount_of_check {config : MasterConfiguration}
    (e : checkAndThrowConfiguration config = .ok ()) : config.slaveCount ≠ 0 := by
  intro h0
  unfold checkAndThrowConfiguration at e
  have hslaves : max config.slaveCount MasterConnection.MIN_SLAVE_COUNT ≠ config.slaveCount := by
    rw [h0]
    decide
  rw [if_pos hslaves] at e
  repeat' split at e
  all_goals cases e

theorem Inv.construct (h : Inv w) (ho : (w.conn i).owner = .absent)
    (howner : c.owner = .rejected ∨ c.owner = .fetchSlot ∧ c.masterConfig.slaveCount ≠ 0)
    (hc : c = { w.conn i with masterConfig := c.masterConfig, owner := c.owner }) :
    Inv (w.setConn i c) ∧ StepOk w ev (w.setConn i c) := by
  have hok := h.conns i
  have hreg : (w.conn i).registered = false := by rw [MasterConnection.registered, ho]
  have hcount := hok.count
  obtain ⟨hidle, hd⟩ := hok.idle hreg
  rw [hidle, ho, MasterConnection.taken, hd, ho] at hcount
  obtain ⟨hres, hdisposed, hcloses⟩ : c.resolutor = (w.conn i).resolutor ∧
      c.isConnectionDisposed = (w.conn i).isConnectionDisposed ∧ c.closes = (w.conn i).closes := by
    rw [hc]
    exact ⟨rfl, rfl, rfl⟩
  have hzero : (w.conn i).closes = 0 := hcount
  refine h.setConn (hok.beforeRegister hreg hres hdisposed ?_ ?_ fun hne => ?_) (fun hopened => ?_)
    (fun s hs => ?_) ?_ fun hr => Bool.noConfusion (hreg.symm.trans hr)
  · rw [hcloses, hzero]
    rcases howner with hr | ⟨hr, -⟩
    · rw [hr]
      rfl
    · rw [hr]
      rfl
  · rcases howner with hr | ⟨hr, -⟩
    · rw [hr]
      exact nofun
    · rw [hr]
      exact nofun
  · rcases howner with hr | ⟨-, hs⟩
    · exact absurd hr hne
    · exact hs
  · unfold opened at hopened
    rcases howner with hr | ⟨hr, -⟩
    · rw [hr] at hopened
      cases hopened
    · rw [hr] at hopened
      cases hopened
  · rcases howner with hr | ⟨hr, -⟩
    · cases hr.symm.trans hs
    · cases hr.symm.trans hs
  · unfold MasterConnection.Reads
    rw [hres, hidle]
    exact True.intro

/-- **One step** keeps the invariant and leaves alone what it should; none aborts. -/
theorem Inv.next (h : Inv w) (hfine : w.Fine ev = true) :
    ∃ o, w.next ev = .ok o ∧ ∀ w', o = some w' → Inv w' ∧ StepOk w ev w' := by
  unfold World.next
  by_cases hpast : ev.now < w.clock
  · rw [if_pos hpast]
    exact ⟨none, rfl, nofun⟩
  rw [if_neg hpast]
  have ht := h.tick (Int.not_lt.1 hpast)
  -- what is known of the world whose clock is set holds of this one
  have hback : ∀ {w'}, Inv w' ∧ StepOk { w with clock := ev.now } ev w' → Inv w' ∧ StepOk w ev w' :=
    fun hw => ⟨hw.1, hw.2.kept, hw.2.alive⟩
  cases hev : ev.action with
  | construct i config =>
    dsimp only
    by_cases ho : (w.conn i).owner = .absent
    · rw [if_neg (not_not.2 ho)]
      cases hcheck : checkAndThrowConfiguration config with
      | error err =>
        refine ⟨_, rfl, fun w' e => hback ?_⟩
        cases e
        exact ht.construct ho (.inl rfl) rfl
      | ok _ =>
        refine ⟨_, rfl, fun w' e => hback ?_⟩
        cases e
        exact ht.construct ho (.inr ⟨rfl, slaveCount_of_check hcheck⟩) rfl
    · rw [if_pos ho]
      exact ⟨none, rfl, nofun⟩
  | close i =>
    dsimp only
    split
    · refine ⟨_, rfl, fun w' e => hback ?_⟩
      cases e
      exact ⟨ht, .refl _ _⟩
    · split
      · exact ⟨none, rfl, nofun⟩
      · next ho =>
        refine ⟨_, rfl, fun w' e => hback ?_⟩
        cases e
        have ho := not_not.1 ho
        have hopened : (w.conn i).opened = true := by rw [opened, ho]
        refine ht.setConn ((h.conns i).close ho) (fun _ => ⟨hopened, rfl, rfl, rfl⟩) nofun ?_
          fun _ ha => ?_
        · exact (ht.reads i).mono (le_refl _) rfl (fun hopen => ⟨hopened, hopen.2⟩) fun _ => rfl
        · simp [isAlive] at ha
  | owner i registers =>
    refine ⟨_, rfl, fun w' e => hback ?_⟩
    refine ht.stepOwner hev ?_ e
    exact hfine
  | update i =>
    dsimp only
    split
    · next hidle =>
      refine ⟨_, rfl, fun w' e => hback ?_⟩
      cases e
      refine ht.setConn ((h.conns i).goOn hidle.1 ?_ rfl nofun) (fun ho => ⟨ho, rfl, rfl, rfl⟩)
        (fun s hs => h.slots i s hs) True.intro fun _ ha => ha
      rw [hidle.2]
      rfl
    · exact ⟨none, rfl, nofun⟩
  | resolutor i order =>
    obtain ⟨o, e, ho⟩ := ht.stepResolutor i ev order
    exact ⟨o, e, fun w' hw => hback (ho w' hw)⟩
  | ping connectionId who =>
    dsimp only
    cases hping : w.controller.pingConnection connectionId who ev.now with
    | error err =>
      refine ⟨_, rfl, fun w' e => hback ?_⟩
      cases e
      exact ⟨ht, .refl _ _⟩
    | ok controller =>
      refine ⟨_, rfl, fun w' e => hback ?_⟩
      cases e
      exact ht.ping hping hev

/-! ## Runs -/

structure Ok (w : World) : Prop where
  distinct : ∀ i j, i ≠ j → (w.conn i).Open → (w.conn j).Open →
    (w.conn i).connectionId ≠ (w.conn j).connectionId
  /-- The topic of an open connection is its own. -/
  own : ∀ i, (w.conn i).Open → ∃ topic,
    w.controller.getConnection (w.conn i).connectionId = some topic ∧
      topic.masterConfig = (w.conn i).masterConfig
  decoded : ∀ i, (w.conn i).opened = true → ∃ baseId slotIdx, slotIdx < w.controller.baseSz ∧
    (w.conn i).connectionId = encode baseId slotIdx ∧
      decode (w.conn i).connectionId = (baseId, slotIdx)
  once : ∀ i, (w.conn i).closes ≤ 1
  closed : ∀ i, (w.conn i).owner = .closed → (w.conn i).closes = 1
  room : ∀ id topic, w.controller.getConnection id = some topic →
    (topic.whoWhenMap.map Prod.fst).Nodup ∧
      topic.whoWhenMap.length ≤ topic.masterConfig.slaveCount
  /-- An `update` that is about to return and leaves the flag set. -/
  seen : ∀ i topic since, (w.conn i).resolutor.pc = .timeouts topic since [] →
    (w.conn i).isAliveFlag = true ∧ ((w.conn i).Open → topic.masterConfig = (w.conn i).masterConfig) ∧
      ∀ e ∈ topic.whoWhenMap, ∃ now, since ≤ now ∧ now ≤ w.clock ∧ e.2 ≤ now ∧
        now - e.2 < topic.masterConfig.connectionTimeoutDur

theorem Inv.ok (h : Inv w) : w.Ok where
  distinct i j hij hi hj he := hij (h.distinct i j hi hj he)
  own := h.present
  decoded i hi := by
    obtain ⟨hi, lo, -, hlo, he⟩ := h.named i hi
    exact ⟨hi, lo, hlo, he, he ▸ decode_encode hi (hlo.trans h.baseSz)⟩
  once i := (h.conns i).closes_le
  closed i hi := (h.conns i).closes_of_closed hi
  room id topic hget := ⟨(h.topics id topic hget).nodup, (h.topics id topic hget).room⟩
  seen i topic since hpc := by
    have hreads := h.reads i
    unfold MasterConnection.Reads at hreads
    rw [hpc] at hreads
    refine ⟨(h.conns i).alive (by rw [hpc]; rfl), hreads.1.own, fun e he => ?_⟩
    rcases hreads.2 e he with hnil | ⟨now, h1, h2, h3⟩
    · cases hnil
    · exact ⟨now, h1, h2, (hreads.1.ok.past e he).trans h1, h3⟩

def Starts (w : World) : Prop :=
  ∃ concurrencySz controller clock, concurrencySz < 2 ^ 32 ∧ make concurrencySz = .ok controller ∧
    w = init controller clock

theorem getConnection_empty {concurrencySz id : Nat} :
    getConnection ⟨concurrencySz, fun _ => .empty, 0⟩ id = none := by
  unfold getConnection
  dsimp only
  split
  · rfl
  · rfl

theorem Inv.of_starts (h : w.Starts) : Inv w := by
  obtain ⟨concurrencySz, controller, clock, hsz, hmake, rfl⟩ := h
  unfold make at hmake
  split at hmake
  · cases hmake
  · next hpos =>
    cases hmake
    refine ⟨fun _ => MasterConnection.absent_ok, Nat.pos_of_ne_zero hpos, hsz,
      fun _ => Nat.two_pow_pos 32, nofun, nofun, fun i hi => ?_, fun i j hi => ?_,
        fun id topic hget => ?_, fun _ => True.intro⟩
    · cases hi.1
    · cases hi.1
    · cases getConnection_empty.symm.trans hget

/-- **The lifecycle of connections.** In a run in which no connection is opened under the id of an open
one and no `close` overtakes the `update` that took the connection, every world is as it should be, and
so is what every further step of that kind does to it. -/
theorem connection_lifecycle {hist : List Event}
    (h : Run.Reach Starts (fun w ev w' => w.Fine ev = true ∧ w.Step ev w') w hist) :
    w.Ok ∧ ∀ ev, w.Fine ev = true → ∃ o, w.next ev = .ok o ∧ ∀ w', o = some w' → StepOk w ev w' := by
  have hinv : Inv w := by
    refine h.inv (fun w _ => Inv w) (fun w => Inv.of_starts) ?_
    rintro w _ ev w' hw ⟨hfine, e⟩
    obtain ⟨o, e', ho⟩ := hw.next hfine
    exact (ho w' (Except.ok.inj (e'.symm.trans e))).1
  refine ⟨hinv.ok, fun ev hfine => ?_⟩
  obtain ⟨o, e, ho⟩ := hinv.next hfine
  exact ⟨o, e, fun w' hw => (ho w' hw).2⟩

/-- A run with two connections: the first is pinged, found alive and closed. -/
theorem connection_lifecycle_two :
    ∃ w : World, (w.conn 0).owner = .closed ∧ (w.conn 1).Open ∧ w.Ok := by
  let config : MasterConfiguration := ⟨10, 10, 100, 3, 1, 1⟩
  let acts : List Event := [⟨0, .construct 0 config⟩, ⟨0, .owner 0 true⟩, ⟨0, .construct 1 config⟩,
    ⟨0, .owner 0 true⟩, ⟨0, .owner 1 true⟩, ⟨0, .owner 1 true⟩, ⟨0, .owner 0 true⟩,
    ⟨1, .owner 1 true⟩, ⟨2, .ping 0 "slave"⟩, ⟨3, .update 0⟩, ⟨3, .resolutor 0 []⟩,
    ⟨3, .resolutor 0 []⟩, ⟨3, .resolutor 0 [("slave", 2)]⟩, ⟨4, .resolutor 0 []⟩,
    ⟨4, .resolutor 0 []⟩, ⟨5, .resolutor 0 []⟩, ⟨5, .resolutor 0 []⟩, ⟨6, .close 0⟩,
    ⟨6, .owner 0 true⟩, ⟨7, .owner 0 true⟩]
  let run := acts.foldlM (fun w ev => if w.Fine ev then Run.ofStep (w.next ev) else none)
    (init ⟨2, fun _ => .empty, 0⟩ 0)
  have hrun : run.map (fun w => ((w.conn 0).owner, decide (w.conn 1).Open)) =
      some (.closed, true) := by decide +kernel
  obtain ⟨w, hw, he⟩ := Option.map_eq_some_iff.1 hrun
  have hinit : Run.Reach Starts (fun w ev w' => w.Fine ev = true ∧ w.Step ev w')
      (init ⟨2, fun _ => .empty, 0⟩ 0) [] := .init ⟨2, _, 0, by decide, rfl, rfl⟩
  have hreach := hinit.foldlM (fun {w ev w'} e => by
    split at e
    · next hfine => exact ⟨hfine, Run.ofStep_eq_some e⟩
    · cases e) hw
  exact ⟨w, congrArg Prod.fst he, of_decide_eq_true (congrArg Prod.snd he),
    (connection_lifecycle hreach).1⟩

/-! ## The counter comes around -/

section Wrap

variable {hist : List Event}

theorem setConn_self (w : World) (i : Nat) (c : MasterConnection) : (w.setConn i c).conn i = c :=
  Function.update_self ..

theorem setConn_other (w : World) (c : MasterConnection) (h : j ≠ i) :
    (w.setConn i c).conn j = w.conn j :=
  Function.update_of_ne h ..

theorem step_owner {registers : Bool} (e : w.stepOwner i registers = some w') :
    w.Step ⟨w.clock, .owner i registers⟩ w' := by
  unfold Step World.next
  rw [if_neg (lt_irrefl _)]
  exact congrArg Except.ok e

theorem reach_opened (h : Run.Reach Starts Step w hist) (hsz : w.controller.baseSz = 1)
    (hi : w.conn i = .absent) : ∃ w' hist', Run.Reach Starts Step w' hist' ∧
      w'.controller.baseSz = 1 ∧
      (w'.controller.baseVec 0).idCounter = ((w.controller.baseVec 0).idCounter + 1) % 2 ^ 32 ∧
      ((w'.conn i).owner = .register ∧ (w'.conn i).closes = 0 ∧
        (w'.conn i).connectionId = encode (w.controller.baseVec 0).idCounter 0) ∧
      ∀ j, j ≠ i → w'.conn j = w.conn j := by
  let config : MasterConfiguration := ⟨10, 10, 100, 3, 1, 1⟩
  let c1 : MasterConnection := { absent with
    masterConfig := config, owner := .fetchSlot }
  have h1 : w.Step ⟨w.clock, .construct i config⟩ (w.setConn i c1) := by
    unfold Step World.next
    rw [if_neg (lt_irrefl _)]
    dsimp only
    rw [hi]
    rfl
  let w1 := w.setConn i c1
  let w2 := { w1 with controller := w.controller.fetchSlot.1 }.setConn i
    { c1 with owner := .openConnection (w.controller.seed % w.controller.baseSz) }
  have h2 : w1.stepOwner i true = some w2 := by
    unfold World.stepOwner
    rw [setConn_self]
    rfl
  have hslot : w.controller.seed % w.controller.baseSz = 0 := by
    rw [hsz]
    exact Nat.mod_one _
  let r := w2.controller.openConnection 0 config
  let w3 := { w2 with controller := r.1 }.setConn i { c1 with connectionId := r.2, owner := .register }
  have h3 : w2.stepOwner i true = some w3 := by
    unfold World.stepOwner
    rw [setConn_self, hslot]
  refine ⟨w3, _, ((h.step h1).step (step_owner h2)).step (step_owner h3), hsz, ?_, ?_, fun j hj => ?_⟩
  · show (Function.update w.controller.baseVec 0 _ 0).idCounter = _
    rw [Function.update_self]
    rfl
  · rw [setConn_self]
    exact ⟨rfl, rfl, rfl⟩
  · rw [setConn_other _ _ hj, setConn_other _ _ hj, setConn_other _ _ hj]

theorem reach_failed (h : Run.Reach Starts Step w hist) (ho : (w.conn i).owner = .register) :
    ∃ w' hist', Run.Reach Starts Step w' hist' ∧ w'.controller.baseSz = w.controller.baseSz ∧
      (w'.controller.baseVec 0).idCounter = (w.controller.baseVec 0).idCounter ∧
      ∀ j, j ≠ i → w'.conn j = w.conn j := by
  let w1 := w.setConn i { w.conn i with owner := .catchClose }
  have h1 : w.stepOwner i false = some w1 := by
    unfold World.stepOwner
    dsimp only
    rw [ho]
    rfl
  let w2 := w1.closeConnection i { w.conn i with owner := .threw }
  have h2 : w1.stepOwner i false = some w2 := by
    unfold World.stepOwner
    rw [setConn_self]
  obtain ⟨hsz, hcounter⟩ := closeConnection_counters w.controller (w.conn i).connectionId
  refine ⟨w2, _, (h.step (step_owner h1)).step (step_owner h2), hsz, hcounter 0, fun j hj => ?_⟩
  exact (setConn_other _ _ hj).trans (setConn_other _ _ hj)

/-- However far the counter goes, the first connection may still be open. -/
theorem reach_counter (n : Nat) : ∃ w hist, Run.Reach Starts Step w hist ∧
    w.controller.baseSz = 1 ∧ (w.controller.baseVec 0).idCounter = (n + 1) % 2 ^ 32 ∧
    ((w.conn 0).opened = true ∧ (w.conn 0).closes = 0 ∧ (w.conn 0).connectionId = encode 0 0) ∧
    ∀ j, n < j → w.conn j = .absent := by
  induction n with
  | zero =>
    have hinit : Run.Reach Starts Step (init ⟨1, fun _ => .empty, 0⟩ 0) [] :=
      .init ⟨1, _, 0, by decide, rfl, rfl⟩
    obtain ⟨w, hist, h, hsz, hcounter, ⟨ho, hcloses, hid⟩, hother⟩ := reach_opened (i := 0) hinit rfl rfl
    refine ⟨w, hist, h, hsz, hcounter, ⟨?_, hcloses, hid⟩, fun j hj => hother j (Nat.ne_of_gt hj)⟩
    rw [opened, ho]
  | succ n ih =>
    obtain ⟨w, hist, h, hsz, hcounter, hfirst, hfresh⟩ := ih
    obtain ⟨w1, hist1, h1, hsz1, hcounter1, hopened, hother1⟩ :=
      reach_opened h hsz (hfresh (n + 1) (Nat.lt_succ_self n))
    obtain ⟨w2, hist2, h2, hsz2, hcounter2, hother2⟩ := reach_failed h1 hopened.1
    refine ⟨w2, hist2, h2, hsz2.trans hsz1, ?_, ?_, fun j hj => ?_⟩
    · rw [hcounter2, hcounter1, hcounter, Nat.mod_add_mod]
    · rw [hother2 0 (Nat.succ_ne_zero n).symm, hother1 0 (Nat.succ_ne_zero n).symm]
      exact hfirst
    · rw [hother2 j (Nat.ne_of_gt hj), hother1 j (Nat.ne_of_gt hj)]
      exact hfresh j (Nat.lt_of_succ_lt hj)

/-- The connection number `2 ^ 32` of a partition gets the id of the first, which is open. -/
theorem connection_ids_repeat : ¬ ∀ w hist, Run.Reach Starts Step w hist → w.Ok := by
  intro hall
  obtain ⟨w, hist, h, hsz, hcounter, ⟨hopened, hcloses, hid⟩, hfresh⟩ := reach_counter (2 ^ 32 - 1)
  obtain ⟨w', hist', h', -, -, ⟨ho, hcloses', hid'⟩, hother⟩ :=
    reach_opened h hsz (hfresh (2 ^ 32) (by omega))
  rw [hcounter] at hid'
  have hne : 0 ≠ 2 ^ 32 := by omega
  refine (hall w' hist' h').distinct 0 (2 ^ 32) hne ?_ ⟨?_, hcloses'⟩ ?_
  · rw [hother 0 hne]
    exact ⟨hopened, hcloses⟩
  · rw [opened, ho]
  · rw [hother 0 hne, hid, hid']
    rfl

end Wrap

end World

end ConnectivitySubsystem
