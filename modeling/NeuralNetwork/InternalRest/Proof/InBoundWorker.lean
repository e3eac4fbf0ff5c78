import Mathlib.Algebra.Group.Prod
import Mathlib.Algebra.Order.Group.Multiset
import NeuralNetwork.Funnel.Proof.Scopes
import NeuralNetwork.InternalRest.Mailbox.InBoundWorker

/-!
# What an epoch of the inbound worker does

Every event is worth the ids to acknowledge, the requests to pass on and the requests to list that
come of it (`Sheet`); what a handle pushes is worth what it is given, so an epoch ends with the calls
that the responses of the id controller ask for (`epoch_correct`).
-/

namespace Mailbox.InBoundWorker

open Cpp FlashStream Funnel Loop

/-! ## What events are worth -/

def ackedIds (pkt : Packet) : List GlobalPacketIdentifier :=
  match pkt.xonlyContent with
  | .ack ackVec => ackVec.map fun e => e.id
  | _ => []

/-- The packets that an acknowledgement lists, each with its receiver. -/
def listed (pkt : Packet) : List (Address × PacketBase) :=
  match pkt.xonlyContent with
  | .ack ackVec => ackVec.map fun e => (pkt.toAddr, e)
  | _ => []

def listing (pkt : Packet) : Address × PacketBase := (pkt.frAddr, pkt.toPacketBase)

/-- The ids passed to `ack`, the packets passed to the inbound container, and the packets listed. -/
abbrev Sheet :=
  Multiset GlobalPacketIdentifier × Multiset Packet × Multiset (Address × PacketBase)

def worthId (id : GlobalPacketIdentifier) : Sheet := ({id}, 0, 0)

def worthInbound (pkt : Packet) : Sheet := (0, {pkt}, 0)

def worthOutbound (pkt : Packet) : Sheet := (0, 0, listed pkt)

def worthListing (pair : Address × PacketBase) : Sheet := (0, 0, {pair})

def worthAck (pkt : Packet) : Sheet := (ackedIds pkt, 0, 0)

def worthRequest (pkt : Packet) : Sheet := (0, {pkt}, {listing pkt})

def worthThru (pkt : Packet) : Sheet :=
  match getPacketPolymorphicType pkt with
  | .ack => worthAck pkt
  | .request => worthRequest pkt
  | .krescue => 0

def worthNothru (pkt : Packet) : Sheet := worthListing (listing pkt)

def worthAnswer (answer : Packet × ThruResponse) : Sheet :=
  match answer.2 with
  | .error _ => 0
  | .ok true => worthThru answer.1
  | .ok false => if getPacketPolymorphicType answer.1 = .request then worthNothru answer.1 else 0

/-! ## The outermost handles -/

def IsAck (pkt : Packet) : Prop :=
  ∃ ackPkt : AckPacket, pkt = virtualizeAckPacket ackPkt ∧ ackPkt.ackVec.length ≤ maxAckPerPacket

def world : Account World Sheet where
  Inv w := ∀ pkt ∈ w.outboundPushes.flatten, IsAck pkt
  total w := (w.ackCalls.flatten, w.inboundPushes.flatten,
    (w.outboundPushes.flatten.flatMap listed : List (Address × PacketBase)))

structure Ready (worker : InBoundWorker) : Prop where
  retransmission : 1 ≤ worker.retransmissionMaxConsumeSize
  inbound : 1 ≤ worker.inboundPacketMaxConsumeSize
  outbound : 1 ≤ worker.outboundPacketMaxConsumeSize
  id : 1 ≤ worker.idMaxConsumeSize
  border : 1 ≤ worker.borderMaxConsumeSize
  vectorization : 1 ≤ worker.ackVectorizationSz ∧ worker.ackVectorizationSz ≤ maxAckPerPacket
  generates : ∀ n, worker.ackPacketGen.allocation n = none
  passes : ∀ n addr, worker.borderThru n addr = .success

variable (debug : Bool) {worker : InBoundWorker}

theorem sum_ids (ids : List GlobalPacketIdentifier) :
    (ids.map worthId).sum = ((ids : Multiset GlobalPacketIdentifier), 0, 0) := by
  induction ids with
  | nil => rfl
  | cons id ids ih =>
    rw [List.map_cons, List.sum_cons, ih]
    rfl

theorem sum_inbound (pkts : List Packet) :
    (pkts.map worthInbound).sum = (0, (pkts : Multiset Packet), 0) := by
  induction pkts with
  | nil => rfl
  | cons pkt pkts ih =>
    rw [List.map_cons, List.sum_cons, ih]
    rfl

theorem sum_outbound (pkts : List Packet) :
    (pkts.map worthOutbound).sum =
      (0, 0, ((pkts.flatMap listed : List (Address × PacketBase)) : Multiset _)) := by
  induction pkts with
  | nil => rfl
  | cons pkt pkts ih =>
    rw [List.map_cons, List.sum_cons, ih]
    rfl

theorem ackidPush_consumes :
    world.Consumes worker.retransmissionMaxConsumeSize (fun _ => True) worthId
      (ackidPush debug worker) := by
  intro batch hsz _ w hw
  refine ⟨{ w with ackCalls := w.ackCalls ++ [batch] }, ?_, hw, ?_⟩
  · unfold ackidPush
    rw [checkConsumeSize_ok fun _ => hsz]
    rfl
  · rw [sum_ids]
    simp [world]

/-! ### Their accounts -/

/-- The capacity of a handle whose consumer takes `maxConsumeSize` events. -/
def trimmed (maxConsumeSize bufArrSz : Nat) : Nat :=
  min (min maxConsumeSize bufArrSz) defaultAccumulationSize

theorem trimmed_le {maxConsumeSize : Nat} (h : 1 ≤ maxConsumeSize) (n : Nat) :
    max (trimmed maxConsumeSize n) 1 ≤ maxConsumeSize := by
  unfold trimmed
  omega

section Accounts

variable (worker) (n : Nat)

def ackidCap : Nat :=
  min (min worker.retransmissionMaxConsumeSize (sizeT (n * maxAckPerPacket))) defaultAccumulationSize

def ackidAccount : Account AckidScope Sheet :=
  world.handle (worker.ackidCap n) (fun _ => True) worthId

def ibpktAccount : Account IbpktScope Sheet :=
  (ackidAccount worker n).handle (trimmed worker.inboundPacketMaxConsumeSize n) (fun _ => True)
    worthInbound

def obpktAccount : Account ObpktScope Sheet :=
  (ibpktAccount worker n).handle (trimmed worker.outboundPacketMaxConsumeSize n) IsAck worthOutbound

def ackPacketGenAccount : Account AckPacketGenScope Sheet :=
  (obpktAccount worker n).withLocal (fun _ => True) fun _ => 0

def ackVectorizerAccount : Account AckVectorizerScope Sheet :=
  (ackPacketGenAccount worker n).handleKV (min worker.ackVectorizationSz n) worthListing

def thruAckAccount : Account ThruAckScope Sheet :=
  (ackVectorizerAccount worker n).handle (min defaultAccumulationSize n)
    (fun pkt => getPacketPolymorphicType pkt = .ack) worthAck

def thruRequestAccount : Account ThruRequestScope Sheet :=
  (thruAckAccount worker n).handle (min defaultAccumulationSize n) (fun _ => True) worthRequest

def thruKRescueAccount : Account ThruKRescueScope Sheet :=
  (thruRequestAccount worker n).handle (min defaultAccumulationSize n) (fun _ => True) fun _ => 0

def thruAccount : Account ThruScope Sheet :=
  (thruKRescueAccount worker n).handle (min defaultAccumulationSize n) (fun _ => True) worthThru

def nothruAckAccount : Account NothruAckScope Sheet :=
  (thruAccount worker n).handle (min defaultAccumulationSize n) (fun _ => True) worthNothru

end Accounts

variable {n : Nat}

/-! ### Their consumers -/

theorem ibpktPush_consumes :
    (ackidAccount worker n).Consumes worker.inboundPacketMaxConsumeSize (fun _ => True)
      worthInbound (ibpktPush debug worker) := by
  intro batch hsz _
  refine Account.Adds.inOuter (A := world) (fun w hw => ?_) _ _
  refine ⟨{ w with inboundPushes := w.inboundPushes ++ [batch] }, ?_, hw, ?_⟩
  · rw [checkConsumeSize_ok fun _ => hsz]
    rfl
  · rw [sum_inbound]
    simp [world]

theorem obpktPush_consumes :
    (ibpktAccount worker n).Consumes worker.outboundPacketMaxConsumeSize IsAck worthOutbound
      (obpktPush debug worker) := by
  intro batch hsz hok
  refine Account.Adds.inOuter (Account.Adds.inOuter (A := world) (fun w hw => ?_) _ _) _ _
  refine ⟨{ w with outboundPushes := w.outboundPushes ++ [batch] }, ?_, fun pkt hpkt => ?_, ?_⟩
  · rw [checkConsumeSize_ok fun _ => hsz]
    rfl
  · replace hpkt : pkt ∈ (w.outboundPushes ++ [batch]).flatten := hpkt
    rw [List.flatten_append, List.flatten_singleton] at hpkt
    rcases List.mem_append.1 hpkt with hpkt | hpkt
    · exact hw pkt hpkt
    · exact hok pkt hpkt
  · rw [sum_outbound]
    simp [world]

theorem obpkt_deliver (h : Ready worker) {pkt : Packet} (hpkt : IsAck pkt) :
    (obpktAccount worker n).Adds (·.deliver (obpktPush debug worker) pkt) (worthOutbound pkt) :=
  (obpktPush_consumes debug).deliver (trimmed_le h.outbound n) hpkt

theorem sum_listings (toAddr : Address) (pktBaseArr : List PacketBase) :
    ((pairs [(toAddr, pktBaseArr)]).map worthListing).sum =
      (0, 0, ((pktBaseArr.map (toAddr, ·) : List (Address × PacketBase)) : Multiset _)) := by
  rw [pairs_cons, pairs_nil, List.append_nil]
  induction pktBaseArr with
  | nil => rfl
  | cons e pktBaseArr ih =>
    rw [List.map_cons, List.map_cons, List.sum_cons, ih]
    rfl

section

variable (h : Ready worker)

include h

theorem ackVectorizerPush_consumes :
    (ackPacketGenAccount worker n).ConsumesKV maxAckPerPacket worthListing
      (ackVectorizerPush debug worker) := by
  rintro ⟨toAddr, pktBaseArr⟩ hsz ⟨k, outer⟩ ⟨-, hs⟩
  obtain ⟨ackPkt, hget, haddr, hvec⟩ : ∃ ackPkt,
      worker.ackPacketGen.get k toAddr pktBaseArr = .ok ackPkt ∧
      ackPkt.toAddr = toAddr ∧ ackPkt.ackVec = pktBaseArr := by
    unfold AckPacketGenerator.get
    rw [if_neg (Nat.not_lt.2 hsz), h.generates]
    exact ⟨_, rfl, rfl, rfl⟩
  have hack : IsAck (virtualizeAckPacket ackPkt) := ⟨ackPkt, rfl, hvec ▸ hsz⟩
  obtain ⟨outer', e, hs', ht⟩ := obpkt_deliver (n := n) debug h hack outer hs
  replace e : outer.deliver (obpktPush debug worker) (virtualizeAckPacket ackPkt) = .ok outer' := e
  refine ⟨⟨k + 1, outer'⟩, ?_, ⟨trivial, hs'⟩, ?_⟩
  · unfold ackVectorizerPush
    dsimp only
    rw [hget]
    dsimp only
    rw [e]
    rfl
  · have hlisted : listed (virtualizeAckPacket ackPkt) = pktBaseArr.map (toAddr, ·) := by
      rw [← haddr, ← hvec]
      rfl
    show (obpktAccount worker n).total outer' + 0 = (obpktAccount worker n).total outer + 0 + _
    rw [add_zero, add_zero, sum_listings, ht, worthOutbound, hlisted]

theorem ackVectorizer_deliver (pkt : Packet) :
    (ackVectorizerAccount worker n).Adds (ackVectorizerDeliver debug worker · pkt)
      (worthListing (listing pkt)) :=
  (ackVectorizerPush_consumes debug h).deliver (by have := h.vectorization; omega) _ _

theorem ackid_deliver (id : GlobalPacketIdentifier) :
    (ackVectorizerAccount worker n).Adds (ackidDeliver debug worker · id) (worthId id) := by
  have hcap : max (worker.ackidCap n) 1 ≤ worker.retransmissionMaxConsumeSize := by
    have := h.retransmission
    unfold ackidCap
    omega
  have hdeliver : (ackidAccount worker n).Adds (·.deliver (ackidPush debug worker) id)
      (worthId id) :=
    (ackidPush_consumes debug).deliver hcap trivial
  exact (((hdeliver.inOuter _ _).inOuter _ _).inOuter _ _).inOuter _ _

theorem ibpkt_deliver (pkt : Packet) :
    (thruAckAccount worker n).Adds (ibpktDeliver debug worker · pkt) (worthInbound pkt) := by
  have hdeliver : (ibpktAccount worker n).Adds (·.deliver (ibpktPush debug worker) pkt)
      (worthInbound pkt) :=
    (ibpktPush_consumes debug).deliver (trimmed_le h.inbound n) trivial
  exact (((hdeliver.inOuter _ _).inOuter _ _).inOuter _ _).inOuter _ _

/-! ## New packets, by their kind -/

theorem thruAckOne_adds {pkt : Packet}
    (hpkt : getPacketPolymorphicType pkt = .ack) :
    (ackVectorizerAccount worker n).Adds (thruAckOne debug worker · pkt) (worthAck pkt) := by
  obtain ⟨header, content⟩ := pkt
  cases content with
  | krescue => cases hpkt
  | request content => cases hpkt
  | ack ackVec =>
    have hsum : worthAck ⟨header, .ack ackVec⟩ = ((ackVec.map fun e => e.id).map worthId).sum :=
      (sum_ids _).symm
    rw [hsum]
    exact .foldlM fun id _ => ackid_deliver debug h id

theorem thruRequestOne_adds (pkt : Packet) :
    (thruAckAccount worker n).Adds (thruRequestOne debug worker · pkt) (worthRequest pkt) := by
  have hsum : worthRequest pkt = worthListing (listing pkt) + worthInbound pkt := by
    simp [worthRequest, worthListing, worthInbound]
  rw [hsum]
  exact ((ackVectorizer_deliver debug h pkt).inOuter _ _).bind (ibpkt_deliver debug h pkt)

end

theorem accumulation_le (n : Nat) :
    max (min defaultAccumulationSize n) 1 ≤ defaultAccumulationSize := by
  have : 1 ≤ defaultAccumulationSize := by decide
  omega

theorem thruAckPush_consumes (h : Ready worker) :
    (ackVectorizerAccount worker n).Consumes defaultAccumulationSize
      (fun pkt => getPacketPolymorphicType pkt = .ack) worthAck (thruAckPush debug worker) :=
  .of_each (fun _ hpkt => thruAckOne_adds debug h hpkt) _

theorem thruRequestPush_consumes (h : Ready worker) :
    (thruAckAccount worker n).Consumes defaultAccumulationSize (fun _ => True) worthRequest
      (thruRequestPush debug worker) :=
  .of_each (fun pkt _ => thruRequestOne_adds debug h pkt) _

theorem thruKRescuePush_consumes :
    (thruRequestAccount worker n).Consumes defaultAccumulationSize (fun _ => True) (fun _ => 0)
      thruKRescuePush := by
  intro batch _ _
  have hsum : (batch.map fun _ => (0 : Sheet)).sum = 0 := by simp
  rw [hsum]
  exact .skip

theorem thruOne_adds (h : Ready worker) (pkt : Packet) :
    (thruKRescueAccount worker n).Adds (thruOne debug worker · pkt) (worthThru pkt) := by
  unfold thruOne worthThru
  cases hkind : getPacketPolymorphicType pkt with
  | ack =>
    have hdeliver : (thruAckAccount worker n).Adds (·.deliver (thruAckPush debug worker) pkt)
        (worthAck pkt) :=
      (thruAckPush_consumes debug h).deliver (accumulation_le n) hkind
    exact (hdeliver.inOuter _ _).inOuter _ _
  | request =>
    have hdeliver : (thruRequestAccount worker n).Adds
        (·.deliver (thruRequestPush debug worker) pkt) (worthRequest pkt) :=
      (thruRequestPush_consumes debug h).deliver (accumulation_le n) trivial
    exact hdeliver.inOuter _ _
  | krescue => exact thruKRescuePush_consumes.deliver (accumulation_le n) trivial

theorem thruPush_consumes (h : Ready worker) :
    (thruKRescueAccount worker n).Consumes defaultAccumulationSize (fun _ => True) worthThru
      (thruPush debug worker) :=
  .of_each (fun pkt _ => thruOne_adds debug h pkt) _

/-! ## Duplicates -/

theorem nothruAckPush_consumes (h : Ready worker) :
    (thruAccount worker n).Consumes defaultAccumulationSize (fun _ => True) worthNothru
      (nothruAckPush debug worker) :=
  .of_each (fun pkt _ => ((((ackVectorizer_deliver debug h pkt).inOuter _ _).inOuter _ _).inOuter
    _ _).inOuter _ _) _

theorem inboundOne_adds (h : Ready worker) (answer : Packet × ThruResponse) :
    (nothruAckAccount worker n).Adds (inboundOne debug worker · answer) (worthAnswer answer) := by
  obtain ⟨pkt, response⟩ := answer
  unfold inboundOne worthAnswer
  cases response with
  | error err => exact .skip
  | ok new =>
    cases new with
    | true =>
      have hdeliver : (thruAccount worker n).Adds (·.deliver (thruPush debug worker) pkt)
          (worthThru pkt) :=
        (thruPush_consumes debug h).deliver (accumulation_le n) trivial
      exact hdeliver.inOuter _ _
    | false =>
      dsimp only
      split
      · exact (nothruAckPush_consumes debug h).deliver (accumulation_le n) trivial
      · exact .skip

/-- The packets that the id controller has seen; what is behind them is what its responses let
through. -/
def idAccount (worker : InBoundWorker) (n : Nat) : Account IdScope (Multiset Packet) where
  Inv s := (nothruAckAccount worker n).Inv s.outer ∧
    (nothruAckAccount worker n).total s.outer = (s.here.map worthAnswer).sum ∧
    ∀ i pkt response, s.here[i]? = some (pkt, response) →
      response = worker.idThru i (getKindGlobalIdFromPacket pkt)
  total s := s.here.map Prod.fst

theorem map_fst_mapIdx {α β : Type} (l : List α) (f : Nat → α → β) :
    (l.mapIdx fun i a => (a, f i a)).map Prod.fst = l := by
  refine List.ext_getElem? fun i => ?_
  rw [List.getElem?_map, List.getElem?_mapIdx]
  cases l[i]? <;> rfl

def worthPacket (pkt : Packet) : Multiset Packet := {pkt}

theorem sum_packets (pkts : List Packet) : (pkts.map worthPacket).sum = (pkts : Multiset Packet) := by
  induction pkts with
  | nil => rfl
  | cons pkt pkts ih =>
    rw [List.map_cons, List.sum_cons, ih]
    rfl

theorem inboundPush_consumes (h : Ready worker) :
    (idAccount worker n).Consumes worker.idMaxConsumeSize (fun _ => True) worthPacket
      (inboundPush debug worker) := by
  rintro batch hsz - ⟨here, outer⟩ ⟨hs, ht, hresponses⟩
  obtain ⟨answers, hanswers⟩ : ∃ answers, answers = batch.mapIdx fun i pkt =>
    (pkt, worker.idThru (here.length + i) (getKindGlobalIdFromPacket pkt)) := ⟨_, rfl⟩
  have hloop : (nothruAckAccount worker n).Adds
      (fun s => answers.foldlM (inboundOne debug worker) s) (answers.map worthAnswer).sum :=
    .foldlM fun answer _ => inboundOne_adds debug h answer
  obtain ⟨outer', e, hs', ht'⟩ := hloop outer hs
  replace e : answers.foldlM (inboundOne debug worker) outer = .ok outer' := e
  refine ⟨⟨here ++ answers, outer'⟩, ?_, ⟨hs', ?_, fun i pkt response hi => ?_⟩, ?_⟩
  · unfold inboundPush
    dsimp only
    rw [checkConsumeSize_ok fun _ => hsz, ok_bind, ← hanswers, e]
    rfl
  · rw [ht', List.map_append, List.sum_append]
    exact congrArg (· + _) ht
  · replace hi : (here ++ answers)[i]? = some (pkt, response) := hi
    by_cases hlt : i < here.length
    · rw [List.getElem?_append_left hlt] at hi
      exact hresponses i pkt response hi
    · rw [List.getElem?_append_right (Nat.le_of_not_lt hlt), hanswers, List.getElem?_mapIdx,
        Option.map_eq_some_iff] at hi
      obtain ⟨pkt', -, he⟩ := hi
      cases he
      rw [Nat.add_sub_cancel' (Nat.le_of_not_lt hlt)]
  · have hfst : answers.map Prod.fst = batch := hanswers ▸ map_fst_mapIdx batch _
    show (((here ++ answers).map Prod.fst : List Packet) : Multiset Packet) = _
    rw [List.map_append, hfst, sum_packets, ← Multiset.coe_add]
    rfl

/-! ## The traffic -/

def inboundAccount (worker : InBoundWorker) (n : Nat) : Account InboundScope (Multiset Packet) :=
  (idAccount worker n).handle (trimmed worker.idMaxConsumeSize n) (fun _ => True) worthPacket

def borderAccount (worker : InBoundWorker) (n : Nat) : Account BorderScope (Multiset Packet) :=
  (inboundAccount worker n).withLocal (fun _ => True) fun _ => 0

def trafficAccount (worker : InBoundWorker) (n : Nat) : Account TrafficScope (Multiset Packet) :=
  (borderAccount worker n).handle (trimmed worker.borderMaxConsumeSize n) (fun _ => True) worthPacket

theorem trafficOne_adds (h : Ready worker) {answer : Packet × ExceptionT}
    (hanswer : answer.2 = .success) :
    (inboundAccount worker n).Adds (trafficOne debug worker · answer) (worthPacket answer.1) := by
  have hpass : ¬ isFailed answer.2 := not_not.2 hanswer
  unfold trafficOne
  simp only [if_neg hpass]
  exact (inboundPush_consumes debug h).deliver (trimmed_le h.id n) trivial

theorem trafficPush_consumes (h : Ready worker) :
    (borderAccount worker n).Consumes worker.borderMaxConsumeSize (fun _ => True) worthPacket
      (trafficPush debug worker) := by
  rintro batch hsz - ⟨here, outer⟩ ⟨-, hs⟩
  obtain ⟨answers, hanswers⟩ : ∃ answers, answers = batch.mapIdx fun i pkt =>
    (pkt, worker.borderThru (here + i) pkt.frAddr) := ⟨_, rfl⟩
  have hpass : ∀ answer ∈ answers, answer.2 = .success := by
    intro answer hmem
    rw [hanswers, List.mem_mapIdx] at hmem
    obtain ⟨i, hi, rfl⟩ := hmem
    exact h.passes _ _
  have hloop : (inboundAccount worker n).Adds
      (fun s => answers.foldlM (trafficOne debug worker) s)
      (answers.map fun answer => worthPacket answer.1).sum :=
    .foldlM fun answer hmem => trafficOne_adds debug h (hpass answer hmem)
  obtain ⟨outer', e, hs', ht⟩ := hloop outer hs
  replace e : answers.foldlM (trafficOne debug worker) outer = .ok outer' := e
  refine ⟨⟨here + batch.length, outer'⟩, ?_, ⟨trivial, hs'⟩, ?_⟩
  · unfold trafficPush
    dsimp only
    rw [checkConsumeSize_ok fun _ => hsz, ok_bind, ← hanswers, e]
    rfl
  · have hworth : (answers.map fun answer => worthPacket answer.1) = batch.map worthPacket := by
      rw [← map_fst_mapIdx batch fun i pkt => worker.borderThru (here + i) pkt.frAddr, ← hanswers,
        List.map_map]
      rfl
    show (inboundAccount worker n).total outer' + 0 = (inboundAccount worker n).total outer + 0 + _
    rw [add_zero, add_zero, ht, hworth]

/-- The packet of a buffer, if it is valid. -/
def validPacket (worker : InBoundWorker) (buf : List Byte) : Option Packet :=
  match worker.deserializePacket buf with
  | .error _ => none
  | .ok pkt => if isFailed (worker.isValid pkt) then none else some pkt

def worthBuffer (worker : InBoundWorker) (buf : List Byte) : Multiset Packet :=
  match worker.validPacket buf with
  | none => 0
  | some pkt => {pkt}

theorem receive_adds (h : Ready worker) (buf : List Byte) :
    (trafficAccount worker n).Adds (receive debug worker · buf) (worker.worthBuffer buf) := by
  unfold receive worthBuffer validPacket
  cases worker.deserializePacket buf with
  | error err => exact .skip
  | ok pkt =>
    dsimp only
    split
    · exact .skip
    · exact (trafficPush_consumes debug h).deliver (trimmed_le h.border n) trivial

/-! ## The epoch -/

theorem trimmed_le_max (maxConsumeSize n : Nat) : trimmed maxConsumeSize n ≤ maxDeliverableCap :=
  Nat.le_trans (Nat.min_le_right _ _) (by decide)

theorem openHandles_ok (worker : InBoundWorker) (n : Nat)
    (hvectorization : worker.ackVectorizationSz ≤ maxAckPerPacket) :
    ∃ s, worker.openHandles n = .ok s ∧ (trafficAccount worker n).Inv s ∧
      (trafficAccount worker n).total s = 0 := by
  have hack : worker.ackidCap n ≤ maxDeliverableCap :=
    Nat.le_trans (Nat.min_le_right _ _) (by decide)
  have hkv : min worker.ackVectorizationSz n ≤ maxDeliverableCap :=
    Nat.le_trans (Nat.min_le_left _ _) (Nat.le_trans hvectorization (by decide))
  have hacc : min defaultAccumulationSize n ≤ maxDeliverableCap :=
    Nat.le_trans (Nat.min_le_left _ _) (by decide)
  have h0 : world.Inv ⟨[], [], []⟩ := by simp [world]
  obtain ⟨s1, e1, h1, t1⟩ := world.handle_open (fun _ => True) worthId hack _ h0
  obtain ⟨s2, e2, h2, t2⟩ := (ackidAccount worker n).handle_open (fun _ => True) worthInbound
    (trimmed_le_max worker.inboundPacketMaxConsumeSize n) s1 h1
  obtain ⟨s3, e3, h3, t3⟩ := (ibpktAccount worker n).handle_open IsAck worthOutbound
    (trimmed_le_max worker.outboundPacketMaxConsumeSize n) s2 h2
  obtain ⟨s4, e4, h4, t4⟩ := (ackPacketGenAccount worker n).handleKV_open worthListing
    worker.packetBaseLayout worker.ackVectorizerMem hkv ⟨0, s3⟩ ⟨trivial, h3⟩
  obtain ⟨s5, e5, h5, t5⟩ := (ackVectorizerAccount worker n).handle_open
    (fun pkt => getPacketPolymorphicType pkt = .ack) worthAck hacc s4 h4
  obtain ⟨s6, e6, h6, t6⟩ := (thruAckAccount worker n).handle_open (fun _ => True) worthRequest
    hacc s5 h5
  obtain ⟨s7, e7, h7, t7⟩ := (thruRequestAccount worker n).handle_open (fun _ => True) (fun _ => 0)
    hacc s6 h6
  obtain ⟨s8, e8, h8, t8⟩ := (thruKRescueAccount worker n).handle_open (fun _ => True) worthThru
    hacc s7 h7
  obtain ⟨s9, e9, h9, t9⟩ := (thruAccount worker n).handle_open (fun _ => True) worthNothru
    hacc s8 h8
  have hzero : (nothruAckAccount worker n).total s9 = 0 :=
    t9.trans <| t8.trans <| t7.trans <| t6.trans <| t5.trans <| t4.trans <| (add_zero _).trans <|
      t3.trans <| t2.trans <| t1.trans rfl
  obtain ⟨s10, e10, h10, t10⟩ := (idAccount worker n).handle_open (fun _ => True) worthPacket
    (trimmed_le_max worker.idMaxConsumeSize n) ⟨[], s9⟩ ⟨h9, hzero, by simp⟩
  obtain ⟨s11, e11, h11, t11⟩ := (borderAccount worker n).handle_open (fun _ => True) worthPacket
    (trimmed_le_max worker.borderMaxConsumeSize n) ⟨0, s10⟩ ⟨trivial, h10⟩
  refine ⟨s11, ?_, h11, t11.trans <| (add_zero _).trans <| t10.trans rfl⟩
  unfold ackidCap at e1
  unfold trimmed at e2 e3 e10 e11
  unfold openHandles
  rw [e1, ok_bind, e2, ok_bind, e3, ok_bind, e4, ok_bind, e5, ok_bind, e6, ok_bind, e7, ok_bind, e8,
    ok_bind, e9, ok_bind, e10, ok_bind, e11]

theorem closeHandles_ok (h : Ready worker) {s : TrafficScope} (hs : (trafficAccount worker n).Inv s) :
    ∃ w responses, closeHandles debug worker s = .ok (w, responses) ∧ world.Inv w ∧
      world.total w = (responses.map worthAnswer).sum ∧
      ((responses.map Prod.fst : List Packet) : Multiset Packet) =
        (trafficAccount worker n).total s ∧
      ∀ i pkt response, responses[i]? = some (pkt, response) →
        response = worker.idThru i (getKindGlobalIdFromPacket pkt) := by
  have hle : ∀ {maxConsumeSize}, 1 ≤ maxConsumeSize → trimmed maxConsumeSize n ≤ maxConsumeSize :=
    fun hone => Nat.le_trans (Nat.le_max_left _ _) (trimmed_le hone n)
  have hacc : min defaultAccumulationSize n ≤ defaultAccumulationSize := Nat.min_le_left _ _
  obtain ⟨s1, e1, h1, t1⟩ := (trafficPush_consumes debug h).close (hle h.border) s hs
  obtain ⟨s2, e2, ⟨h2, hsum, hresponses⟩, t2⟩ :=
    (inboundPush_consumes debug h).close (hle h.id) s1.outer h1.2
  obtain ⟨s3, e3, h3, t3⟩ := (nothruAckPush_consumes debug h).close hacc s2.outer h2
  obtain ⟨s4, e4, h4, t4⟩ := (thruPush_consumes debug h).close hacc s3 h3
  obtain ⟨s5, e5, h5, t5⟩ := thruKRescuePush_consumes.close hacc s4 h4
  obtain ⟨s6, e6, h6, t6⟩ := (thruRequestPush_consumes debug h).close hacc s5 h5
  obtain ⟨s7, e7, h7, t7⟩ := (thruAckPush_consumes debug h).close hacc s6 h6
  obtain ⟨s8, e8, h8, t8⟩ := (ackVectorizerPush_consumes debug h).close
    (Nat.le_trans (Nat.min_le_left _ _) h.vectorization.2) s7 h7
  obtain ⟨s9, e9, h9, t9⟩ := (obpktPush_consumes debug).close (hle h.outbound) s8.outer h8.2
  obtain ⟨s10, e10, h10, t10⟩ := (ibpktPush_consumes debug).close (hle h.inbound) s9 h9
  obtain ⟨w, e11, h11, t11⟩ := (ackidPush_consumes debug).close
    (Nat.le_trans (Nat.min_le_left _ _) (Nat.min_le_left _ _)) s10 h10
  refine ⟨w, s2.here, ?_, h11, ?_, ?_, hresponses⟩
  · unfold closeHandles
    simp only [e1, ok_bind, e2, e3, e4, e5, e6, e7, e8, e9, e10, e11]
  · exact t11.trans <| t10.trans <| t9.trans <| (add_zero _).symm.trans <| t8.trans <| t7.trans <|
      t6.trans <| t5.trans <| t4.trans <| t3.trans hsum
  · exact t2.trans <| (add_zero _).symm.trans t1

/-! ## What the responses ask for -/

def admitted (responses : List (Packet × ThruResponse)) : List Packet :=
  responses.filterMap fun answer => if answer.2 = .ok true then some answer.1 else none

/-- The packets that the id controller took as new or as duplicates. -/
def answered (responses : List (Packet × ThruResponse)) : List Packet :=
  responses.filterMap fun answer =>
    if answer.2 = .ok true ∨ answer.2 = .ok false then some answer.1 else none

def isRequestPacket (pkt : Packet) : Bool := getPacketPolymorphicType pkt = .request

def asked (responses : List (Packet × ThruResponse)) : Sheet :=
  (((admitted responses).flatMap ackedIds : List GlobalPacketIdentifier),
    ((admitted responses).filter isRequestPacket : List Packet),
    (((answered responses).filter isRequestPacket).map listing : List (Address × PacketBase)))

theorem asked_cons (answer : Packet × ThruResponse) (responses : List (Packet × ThruResponse)) :
    asked (answer :: responses) = asked [answer] + asked responses := by
  have hadmitted : admitted (answer :: responses) = admitted [answer] ++ admitted responses :=
    List.filterMap_append (l := [answer])
  have hanswered : answered (answer :: responses) = answered [answer] ++ answered responses :=
    List.filterMap_append (l := [answer])
  unfold asked
  rw [hadmitted, hanswered, List.flatMap_append, List.filter_append, List.filter_append,
    List.map_append]
  rfl

theorem asked_singleton (answer : Packet × ThruResponse) : asked [answer] = worthAnswer answer := by
  obtain ⟨⟨header, content⟩, response⟩ := answer
  cases response with
  | error err => rfl
  | ok new =>
    cases new with
    | true =>
      cases content with
      | krescue => rfl
      | request content => rfl
      | ack ackVec =>
        have hids : [(⟨header, .ack ackVec⟩ : Packet)].flatMap ackedIds =
            ackedIds ⟨header, .ack ackVec⟩ := List.append_nil _
        exact congrArg (fun ids : List GlobalPacketIdentifier =>
          ((ids : Multiset GlobalPacketIdentifier), 0, 0)) hids
    | false =>
      cases content with
      | krescue => rfl
      | request content => rfl
      | ack ackVec => rfl

theorem sum_answers (responses : List (Packet × ThruResponse)) :
    (responses.map worthAnswer).sum = asked responses := by
  induction responses with
  | nil => rfl
  | cons answer responses ih =>
    rw [List.map_cons, List.sum_cons, ih, asked_cons, asked_singleton]

structure Correct (worker : InBoundWorker) (bufArr : List (List Byte)) (epoch : Epoch) : Prop where
  /-- The id controller sees every valid packet once. -/
  seen : (epoch.responses.map Prod.fst).Perm (bufArr.filterMap worker.validPacket)
  responses : ∀ i pkt response, epoch.responses[i]? = some (pkt, response) →
    response = worker.idThru i (getKindGlobalIdFromPacket pkt)
  /-- Every new request is pushed once, and nothing else. -/
  inbound : epoch.world.inboundPushes.flatten.Perm
    ((admitted epoch.responses).filter isRequestPacket)
  /-- Every request, new or not, is listed once for its sender, and nothing else. -/
  listings : (epoch.world.outboundPushes.flatten.flatMap listed).Perm
    (((answered epoch.responses).filter isRequestPacket).map listing)
  acks : ∀ pkt ∈ epoch.world.outboundPushes.flatten, IsAck pkt
  /-- Every id of a new acknowledgement is acknowledged once, and nothing else. -/
  acked : epoch.world.ackCalls.flatten.Perm ((admitted epoch.responses).flatMap ackedIds)

theorem sum_buffers (worker : InBoundWorker) (bufArr : List (List Byte)) :
    (bufArr.map worker.worthBuffer).sum =
      (bufArr.filterMap worker.validPacket : Multiset Packet) := by
  induction bufArr with
  | nil => rfl
  | cons buf bufArr ih =>
    rw [List.map_cons, List.sum_cons, ih, List.filterMap_cons, worthBuffer]
    cases worker.validPacket buf with
    | none => exact zero_add _
    | some pkt => rfl

theorem epoch_correct (h : Ready worker) (bufArr : List (List Byte)) :
    ∃ epoch, worker.runOneEpoch debug bufArr = .ok epoch ∧ Correct worker bufArr epoch := by
  obtain ⟨s0, e0, h0, t0⟩ := openHandles_ok worker bufArr.length h.vectorization.2
  have hloop : (trafficAccount worker bufArr.length).Adds
      (fun s => bufArr.foldlM (receive debug worker) s) (bufArr.map worker.worthBuffer).sum :=
    .foldlM fun buf _ => receive_adds debug h buf
  obtain ⟨s1, e1, h1, t1⟩ := hloop s0 h0
  replace e1 : bufArr.foldlM (receive debug worker) s0 = .ok s1 := e1
  obtain ⟨w, responses, e2, h2, hsum, hseen, hresponses⟩ := closeHandles_ok debug h h1
  refine ⟨⟨w, responses, bufArr.length ≥ worker.busyThresholdSz⟩, ?_, ?_⟩
  · unfold runOneEpoch
    rw [e0, ok_bind, e1, ok_bind, e2]
    rfl
  rw [t1, t0, zero_add, sum_buffers] at hseen
  rw [sum_answers] at hsum
  simp only [world, asked, Prod.mk.injEq, Multiset.coe_eq_coe] at hsum
  exact ⟨Multiset.coe_eq_coe.1 hseen, hresponses, hsum.2.1, hsum.2.2, h2, hsum.1⟩

/-- Every buffer is a request from one sender, and the first one of an epoch is new. -/
def oneSender : InBoundWorker where
  deserializePacket _ := .ok ⟨⟨⟨⟨0, Vector.replicate 20 0⟩, 0, 0⟩, ⟨.v4 ⟨Vector.replicate 4 1⟩, 80⟩,
    ⟨.v4 ⟨Vector.replicate 4 2⟩, 80⟩⟩, .request []⟩
  isValid _ := .success
  borderThru _ _ := .success
  idThru k _ := .ok (k = 0)
  ackPacketGen := ⟨fun _ => ⟨1, Vector.replicate 20 0⟩, fun _ => none,
    ⟨.v4 ⟨Vector.replicate 4 2⟩, 80⟩⟩
  retransmissionMaxConsumeSize := 1
  inboundPacketMaxConsumeSize := 1
  outboundPacketMaxConsumeSize := 1
  idMaxConsumeSize := 1
  borderMaxConsumeSize := 1
  ackVectorizationSz := 4
  busyThresholdSz := 0
  packetBaseLayout := ⟨32, 8, by decide, by decide⟩
  ackVectorizerMem := 0

theorem epoch_correct_two :
    ∃ epoch, oneSender.runOneEpoch true [[], []] = .ok epoch ∧
      Correct oneSender [[], []] epoch :=
  epoch_correct true ⟨by decide, by decide, by decide, by decide, by decide, by decide,
    fun _ => rfl, fun _ _ => rfl⟩ [[], []]

end Mailbox.InBoundWorker
