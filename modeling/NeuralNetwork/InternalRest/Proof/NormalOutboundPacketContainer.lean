import NeuralNetwork.Funnel.Proof.Funnel
import NeuralNetwork.InternalRest.Mailbox.NormalOutboundPacketContainer
import NeuralNetwork.InternalRest.Proof.ContainerLedger

/-!
# Conservation in NormalOutboundPacketContainer

Its critical sections are those of a hub with one lane for each kind of packet (`refines`), so in
every run of any number of calls nothing is lost and nobody waits who need not. With at most `n`
concurrent calls of `pop` there are at most `n` leftovers, and no call aborts but one of `push` that
has to wait behind as many others as its queue of waiting calls holds
(`outbound_container_conserves`, `third_push_aborts`).
-/

namespace OutboundContainer

open Cpp Loop HandOver ContainerCalls CyclicUnordered Mailbox Run Pow2CyclicQueue

/-! ## The container as a hub -/

def laneOf (waitQueue : PacketWaitQueue) (queue : PacketQueue) : Lane (Vec Packet) Nat :=
  ⟨waitQueue.items.map fun item => (item.packetVec, item.smp), queue.items, queue.cap⟩

def waitQueueOf (c : NormalOutboundPacketContainer) : PacketKind → PacketWaitQueue
  | .ack => c.ackPacketQueueWaitingItemVec
  | .request => c.normalPacketQueueWaitingItemVec
  | .krescue => c.rescuePacketQueueWaitingItemVec

def queueOf (c : NormalOutboundPacketContainer) : PacketKind → PacketQueue
  | .ack => c.ackPacketQueue
  | .request => c.normalPacketQueue
  | .krescue => c.rescuePacketQueue

def hub (c : NormalOutboundPacketContainer) : Hub PacketKind (Vec Packet) Nat Nat where
  leftover := c.leftoverQueue.items
  lane k := laneOf (waitQueueOf c k) (queueOf c k)
  waiting := c.waitingQueue.items

def order : List PacketKind := [.ack, .request, .krescue]

def withQueues (c : NormalOutboundPacketContainer) (k : PacketKind) (waitQueue : PacketWaitQueue)
    (queue : PacketQueue) : NormalOutboundPacketContainer :=
  match k with
  | .ack => { c with ackPacketQueueWaitingItemVec := waitQueue, ackPacketQueue := queue }
  | .request => { c with normalPacketQueueWaitingItemVec := waitQueue, normalPacketQueue := queue }
  | .krescue => { c with rescuePacketQueueWaitingItemVec := waitQueue, rescuePacketQueue := queue }

theorem hub_withQueues (c : NormalOutboundPacketContainer) (k : PacketKind)
    (waitQueue : PacketWaitQueue) (queue : PacketQueue) :
    hub (withQueues c k waitQueue queue) = (hub c).setLane k (laneOf waitQueue queue) := by
  unfold Hub.setLane
  have hlane : (hub (withQueues c k waitQueue queue)).lane =
      Function.update (hub c).lane k (laneOf waitQueue queue) := by
    funext k'
    cases k <;> cases k' <;> rfl
  rw [← hlane]
  cases k <;> rfl

/-! ## push -/

theorem push_eq (c : NormalOutboundPacketContainer) (key : PacketKind) (vec : Vec Packet)
    (smp : Nat) (hw : c.waitingQueue.items = []) :
    push c key vec smp = (do
      let (waitQueue, queue, r) ← enqueue (waitQueueOf c key) (queueOf c key) vec smp
      .ok (withQueues c key waitQueue queue, r)) := by
  unfold push
  rw [hw]
  cases key <;> rfl

variable {waitQueue : PacketWaitQueue} {vec : Vec Packet} {c c' : NormalOutboundPacketContainer}

variable {r : Take (Vec Packet) Nat} {smp : Nat} {debug : Bool}
  {h : Hub PacketKind (Vec Packet) Nat Nat} {key : PacketKind} {waitQueue' : PacketWaitQueue}
  {queue queue' : PacketQueue} {a : Action Packet}

theorem enqueue_cases {r : Offer Nat}
    (e : enqueue waitQueue queue vec smp = .ok (waitQueue', queue', r)) :
    (queue.size = queue.cap ∧ queue' = queue ∧ r = .blocked ∧
      waitQueue' = { waitQueue with items := waitQueue.items ++ [⟨vec, smp⟩] }) ∨
    (queue.size ≠ queue.cap ∧ waitQueue' = waitQueue ∧ r = .queued ∧
      queue' = { queue with items := queue.items ++ [vec] }) := by
  unfold enqueue at e
  split at e
  · rename_i hfull
    obtain ⟨q, hq, e⟩ := bind_eq_ok e
    cases e
    exact .inl ⟨hfull, rfl, rfl, (pushBackNothrow_ok hq).2⟩
  · rename_i hroom
    obtain ⟨q, hq, e⟩ := bind_eq_ok e
    cases e
    exact .inr ⟨hroom, rfl, rfl, (pushBackNothrow_ok hq).2⟩

theorem push_refines {r : Offer Nat} (e : push c key vec smp = .ok (c', r)) :
    (hub c).offer key vec smp = (hub c', r) := by
  cases hw : c.waitingQueue.items with
  | cons dst others =>
    unfold push at e
    rw [hw] at e
    cases e
    exact offer_waiting (hub c) key vec smp hw
  | nil =>
    rw [push_eq c key vec smp hw] at e
    obtain ⟨⟨waitQueue, queue, r'⟩, henq, e⟩ := bind_eq_ok e
    cases e
    rw [hub_withQueues]
    rcases enqueue_cases henq with ⟨hfull, rfl, rfl, rfl⟩ | ⟨hroom, rfl, rfl, rfl⟩
    · rw [offer_full (hub c) key vec smp hw hfull]
      simp [hub, laneOf]
    · rw [offer_room (hub c) key vec smp hw hroom]
      rfl

/-! ## pop -/

theorem dequeue_some {k : PacketKind} (hlane : h.lane k = laneOf waitQueue queue)
    (e : dequeue waitQueue queue = some (waitQueue', queue', r)) (p : Nat) (ks : List PacketKind) :
    h.takeLanes p (k :: ks) = (h.setLane k (laneOf waitQueue' queue'), r) := by
  unfold dequeue at e
  rw [Hub.takeLanes, hlane]
  split at e
  · rename_i front others hb
    cases e
    simp [laneOf, hb]
  · rename_i vec others hb hq
    cases e
    simp [laneOf, hb, hq]
  · cases e

theorem dequeue_none {k : PacketKind} {queue : PacketQueue} (hlane : h.lane k = laneOf waitQueue queue)
    (e : dequeue waitQueue queue = none) (p : Nat) (ks : List PacketKind) :
    h.takeLanes p (k :: ks) = h.takeLanes p ks := by
  unfold dequeue at e
  rw [Hub.takeLanes, hlane]
  split at e
  · cases e
  · cases e
  · rename_i hb hq
    simp [laneOf, hb, hq]

theorem pop_refines (e : pop debug c smp = .ok (c', r)) :
    (hub c).take order smp = (hub c', r) := by
  unfold pop at e
  unfold Hub.take order
  split at e
  · rename_i vec others hl
    cases e
    simp only [hub, hl]
    rfl
  rename_i hl
  have hleft : (hub c).leftover = [] := hl
  rw [hleft]
  split at e
  · rename_i waitQueue queue r' hack
    cases e
    rw [dequeue_some (show (hub c).lane .ack = _ from rfl) hack]
    exact congrArg (·, r) (hub_withQueues c .ack waitQueue queue).symm
  rename_i hack
  rw [dequeue_none (show (hub c).lane .ack = _ from rfl) hack]
  split at e
  · rename_i waitQueue queue r' hnormal
    cases e
    rw [dequeue_some (show (hub c).lane .request = _ from rfl) hnormal]
    exact congrArg (·, r) (hub_withQueues c .request waitQueue queue).symm
  rename_i hnormal
  rw [dequeue_none (show (hub c).lane .request = _ from rfl) hnormal]
  split at e
  · rename_i waitQueue queue r' hrescue
    cases e
    rw [dequeue_some (show (hub c).lane .krescue = _ from rfl) hrescue]
    exact congrArg (·, r) (hub_withQueues c .krescue waitQueue queue).symm
  rename_i hrescue
  rw [dequeue_none (show (hub c).lane .krescue = _ from rfl) hrescue]
  split at e
  · cases e
  · obtain ⟨q, hq, e⟩ := bind_eq_ok e
    cases e
    rw [(pushBackNothrow_ok hq).2]
    rfl

theorem popLeftover_refines {r : GiveBack Nat} (e : popLeftover debug c vec = .ok (c', r)) :
    (hub c).giveBack vec = (hub c', r) := by
  unfold popLeftover at e
  split at e
  · cases e
  split at e
  · rename_i dst others hw
    cases e
    exact giveBack_waiting (hub c) vec hw
  · rename_i hw
    obtain ⟨q, hq, e⟩ := bind_eq_ok e
    cases e
    rw [giveBack_kept (hub c) vec hw, (pushBackNothrow_ok hq).2]
    rfl

/-! ## The groups -/

theorem pairs_snd {K E : Type} (groups : List (Funnel.Group K E)) :
    (Funnel.pairs groups).map Prod.snd = groups.flatMap Prod.snd := by
  induction groups with
  | nil => rfl
  | cons group groups ih =>
    rw [Funnel.pairs_cons, List.map_append, ih, List.map_map, List.flatMap_cons]
    simp [Function.comp_def]

theorem groups_perm {layout : Funnel.EventLayout} {head : Nat}
    {arr : List Packet} {gs : List (PacketKind × List (Packet × Nat))}
    (e : groups layout head c arr = .ok gs) : (gs.flatMap Prod.snd).Perm arr.zipIdx := by
  unfold groups at e
  have hcap : min c.feedVectorizationSz arr.length ≤ Funnel.maxDeliverableCap := by
    by_contra hgt
    obtain ⟨h, hopen, -⟩ := bind_eq_ok e
    unfold Funnel.KVDeliveryHandle.openHandle at hopen
    rw [if_pos (Nat.lt_of_not_le hgt)] at hopen
    cases hopen
  obtain ⟨gs', e', hperm, -⟩ := Funnel.kvScope_ok layout head hcap
    (arr.zipIdx.map fun arg => (getPacketPolymorphicType arg.1, arg))
  rw [e] at e'
  cases e'
  have := hperm.map Prod.snd
  rw [pairs_snd, List.map_map] at this
  simpa [Function.comp_def] using this

theorem refines (debug : Bool) (layout : Funnel.EventLayout) (heads : Nat → Nat) :
    Refines (sections debug layout heads) order hub where
  nodup := by decide
  complete k := by cases k <;> decide
  groups := groups_perm
  push := push_refines
  pop := pop_refines
  popLeftover := popLeftover_refines

/-! ## Calls return -/

theorem groups_returns (layout : Funnel.EventLayout) (head : Nat)
    (hfeed : c.feedVectorizationSz ≤ Funnel.maxDeliverableCap) (arr : List Packet) :
    ∃ gs, groups layout head c arr = .ok gs := by
  obtain ⟨gs, e, -⟩ := Funnel.kvScope_ok layout head
    (Nat.le_trans (Nat.min_le_left c.feedVectorizationSz arr.length) hfeed)
    (arr.zipIdx.map fun arg => (getPacketPolymorphicType arg.1, arg))
  exact ⟨gs, e⟩

theorem pushBackNothrow_returns {T : Type} {q : Pow2CyclicQueue T} (hroom : q.size ≠ q.cap) (x : T) :
    q.pushBackNothrow x = .ok { q with items := q.items ++ [x] } := by
  exact if_neg hroom

theorem push_returns (hroom : (waitQueueOf c key).size ≠ (waitQueueOf c key).cap) (vec : Vec Packet)
    (smp : Nat) :
    ∃ r, push c key vec smp = .ok r := by
  cases hw : c.waitingQueue.items with
  | cons dst others =>
    unfold push
    rw [hw]
    exact ⟨_, rfl⟩
  | nil =>
    rw [push_eq c key vec smp hw]
    unfold enqueue
    split
    · rw [pushBackNothrow_returns hroom]
      exact ⟨_, rfl⟩
    · rename_i hqueue
      rw [pushBackNothrow_returns hqueue]
      exact ⟨_, rfl⟩

theorem pop_returns
    (hroom : c.waitingQueue.size ≠ c.waitingQueue.cap) (debug : Bool) (smp : Nat) :
    ∃ r, pop debug c smp = .ok r := by
  unfold pop
  split
  · exact ⟨_, rfl⟩
  split
  · exact ⟨_, rfl⟩
  split
  · exact ⟨_, rfl⟩
  split
  · exact ⟨_, rfl⟩
  rw [if_neg fun hc => hroom hc.2.symm, pushBackNothrow_returns hroom]
  exact ⟨_, rfl⟩

theorem popLeftover_returns
    (hroom : c.leftoverQueue.size ≠ c.leftoverQueue.cap) (debug : Bool) (vec : Vec Packet) :
    ∃ r, popLeftover debug c vec = .ok r := by
  unfold popLeftover
  rw [if_neg fun hc => hroom hc.2]
  split
  · exact ⟨_, rfl⟩
  · rw [pushBackNothrow_returns hroom]
    exact ⟨_, rfl⟩

/-! ## What stays -/

def config (c : NormalOutboundPacketContainer) : Nat × Nat × Nat :=
  (c.waitingQueue.cap, c.leftoverQueue.cap, c.feedVectorizationSz)

theorem config_withQueues (c : NormalOutboundPacketContainer) (k : PacketKind)
    (waitQueue : PacketWaitQueue) (queue : PacketQueue) :
    config (withQueues c k waitQueue queue) = config c := by
  cases k <;> rfl

theorem push_config {r : Offer Nat} (e : push c key vec smp = .ok (c', r)) : config c' = config c := by
  cases hw : c.waitingQueue.items with
  | cons dst others =>
    unfold push at e
    rw [hw] at e
    cases e
    rfl
  | nil =>
    rw [push_eq c key vec smp hw] at e
    obtain ⟨⟨waitQueue, queue, r'⟩, -, e⟩ := bind_eq_ok e
    cases e
    exact config_withQueues c key waitQueue queue

theorem pop_config (e : pop debug c smp = .ok (c', r)) : config c' = config c := by
  unfold pop at e
  split at e
  · cases e
    rfl
  split at e
  · cases e
    rfl
  split at e
  · cases e
    rfl
  split at e
  · cases e
    rfl
  split at e
  · cases e
  · obtain ⟨q, hq, e⟩ := bind_eq_ok e
    cases e
    rw [(pushBackNothrow_ok hq).2]
    rfl

theorem popLeftover_config {r : GiveBack Nat} (e : popLeftover debug c vec = .ok (c', r)) :
    config c' = config c := by
  unfold popLeftover at e
  split at e
  · cases e
  split at e
  · cases e
    rfl
  · obtain ⟨q, hq, e⟩ := bind_eq_ok e
    cases e
    rw [(pushBackNothrow_ok hq).2]
    rfl

/-! ## Runs -/

abbrev OutboundWorld := World NormalOutboundPacketContainer PacketKind Packet

variable {debug : Bool} {layout : Funnel.EventLayout} {heads : Nat → Nat} {n : Nat}
  {w w' : OutboundWorld} {hist : List (Action Packet)}

def StepUpTo (n : Nat) (debug : Bool) (layout : Funnel.EventLayout) (heads : Nat → Nat)
    (w : OutboundWorld) (a : Action Packet) (w' : OutboundWorld) : Prop :=
  Step (sections debug layout heads) w a w' ∧ w'.activePops ≤ n

structure RunInv (n : Nat) (w : OutboundWorld) : Prop where
  kept : Kept hub order w
  bounded : Bounded hub n w
  waitingCap : n ≤ w.container.waitingQueue.cap
  leftoverCap : n ≤ w.container.leftoverQueue.cap
  feed : w.container.feedVectorizationSz ≤ Funnel.maxDeliverableCap

theorem Fresh.runInv (h : Fresh n w) : RunInv n w := by
  obtain ⟨exponents, feedVectorizationSz, queueCap, hwait, hleft, hfeed, rfl⟩ := h
  refine ⟨Kept.start rfl rfl (fun k => ?_) queueCap, Nat.zero_le n, hwait, hleft, hfeed⟩
  cases k <;> exact ⟨rfl, rfl⟩

theorem RunInv.step (h : RunInv n w) (e : StepUpTo n debug layout heads w a w') : RunInv n w' := by
  obtain ⟨e, hn⟩ := e
  have hr := refines debug layout heads
  have hconfig : config w'.container = config w.container :=
    e.keeps config push_config pop_config popLeftover_config
  simp only [config, Prod.mk.injEq] at hconfig
  obtain ⟨hwait, hleft, hfeed⟩ := hconfig
  exact ⟨h.kept.step hr e, h.bounded.step hr h.kept.inv e hn, hwait ▸ h.waitingCap,
    hleft ▸ h.leftoverCap, hfeed ▸ h.feed⟩

theorem Reach.runInv (h : Reach (Fresh n) (StepUpTo n debug layout heads) w hist) : RunInv n w :=
  h.inv (fun w _ => RunInv n w) (fun _ hw => hw.runInv) fun _ _ _ _ hi e => hi.step e

theorem RunInv.returns (h : RunInv n w) (debug : Bool) (layout : Funnel.EventLayout)
    (heads : Nat → Nat) (a : Action Packet) (hpop : ∀ cap, a = .pop cap → w.activePops < n)
    (hpush : ∀ k, w.activePushes ≤ (waitQueueOf w.container k).cap) :
    ∃ r, w.step (sections debug layout heads) a = .ok r := by
  cases a with
  | push arr =>
    obtain ⟨gs, e⟩ := groups_returns layout (heads w.pushes.length) h.feed arr
    exact ⟨_, by simp only [World.step, sections, e, ok_bind]; rfl⟩
  | get i =>
    unfold World.step
    dsimp only
    split
    · split <;> exact ⟨_, rfl⟩
    · exact ⟨_, rfl⟩
  | put i =>
    unfold World.step
    dsimp only
    split
    · rename_i arr exceptionArr todo key vec hcall
      have hlt := h.kept.inv.blocked_lt key hcall rfl
      have hroom : (waitQueueOf w.container key).size ≠ (waitQueueOf w.container key).cap := by
        have := hpush key
        simp only [hub, laneOf, List.length_map] at hlt
        unfold Pow2CyclicQueue.size
        omega
      obtain ⟨r, e⟩ := push_returns hroom vec i
      exact ⟨_, by simp only [sections, e, ok_bind]; rfl⟩
    · exact ⟨_, rfl⟩
  | pop cap =>
    have hroom : w.container.waitingQueue.size ≠ w.container.waitingQueue.cap := by
      have hle : w.container.waitingQueue.size ≤ w.activePops := h.kept.inv.waiting_le
      have := hpop cap rfl
      have := h.waitingCap
      omega
    obtain ⟨r, e⟩ := pop_returns hroom debug w.pops.length
    exact ⟨_, by simp only [World.step, sections, e, ok_bind]; rfl⟩
  | finish j =>
    unfold World.step
    dsimp only
    split
    · rename_i cap vec hcall
      have hroom : w.container.leftoverQueue.size ≠ w.container.leftoverQueue.cap := by
        have hheld : 1 ≤ w.held := by
          refine length_le_sum (List.nodup_singleton j) fun i hi => ?_
          obtain rfl := List.mem_singleton.1 hi
          exact ⟨1, by simp [hcall, PopPhase.weight], Nat.le_refl 1⟩
        have hb : w.container.leftoverQueue.size + w.held ≤ n := h.bounded
        have := h.leftoverCap
        omega
      split
      · obtain ⟨r, e⟩ := popLeftover_returns hroom debug
          ⟨vec.id, World.remainderOf cap vec.items⟩
        exact ⟨_, by simp only [sections, e, ok_bind]; rfl⟩
      · exact ⟨_, rfl⟩
    · exact ⟨_, rfl⟩

def held (c : NormalOutboundPacketContainer) : List (Vec Packet) :=
  c.leftoverQueue.items ++
    (c.ackPacketQueueWaitingItemVec.items.map (·.packetVec) ++ c.ackPacketQueue.items ++
    (c.normalPacketQueueWaitingItemVec.items.map (·.packetVec) ++ c.normalPacketQueue.items) ++
    (c.rescuePacketQueueWaitingItemVec.items.map (·.packetVec) ++ c.rescuePacketQueue.items))

theorem contents_hub (c : NormalOutboundPacketContainer) :
    (hub c).contents order = held c := by
  simp [Hub.contents, hub, held, order, laneOf, waitQueueOf, queueOf, Function.comp_def]

/-- **Nothing is lost or duplicated, and nobody waits in vain**, in every run with at most `n`
concurrent calls of `pop`: the packets of the batches so far, up to those refused, are those
returned, in the queues, in a caller's hands or not yet in a vector; there are at most `n` leftovers; a call
of `pop` waits only if all queues are empty, a call of `push` only if the queue of its kind is full; and the
next step aborts nothing, if few enough calls of `push` run. -/
theorem outbound_container_conserves
    (h : Reach (Fresh n) (StepUpTo n debug layout heads) w hist) :
    (w.pushes.flatMap PushCall.succeeded).Perm
      (w.pops.flatMap PopCall.output ++ (held w.container ++ w.inHands).flatMap Vec.items ++
        w.pushes.flatMap PushCall.unsent) ∧
    w.container.leftoverQueue.size ≤ n ∧
    (∀ call ∈ w.pops, call.phase = .waiting → held w.container = []) ∧
    (∀ call ∈ w.pushes, ∀ k, call.phase = .waiting k →
      (queueOf w.container k).size = (queueOf w.container k).cap) ∧
    ∀ a, (∀ cap, a = .pop cap → w.activePops < n) →
      (∀ k, w.activePushes ≤ (waitQueueOf w.container k).cap) →
      ∃ r, w.step (sections debug layout heads) a = .ok r := by
  have hi := Reach.runInv h
  have hk := hi.kept
  refine ⟨?_, ?_, ?_, ?_, hi.returns debug layout heads⟩
  · rw [← contents_hub]
    exact hk.items
  · exact Nat.le_trans (Nat.le_add_right _ _) hi.bounded
  · intro call hcall hphase
    rw [← contents_hub]
    exact hk.pop_waits hcall hphase
  · intro call hcall k hphase
    exact hk.push_waits hcall hphase

/-! ## On one input -/

def nextUpTo (n : Nat) (debug : Bool) (layout : Funnel.EventLayout) (heads : Nat → Nat)
    (w : OutboundWorld) (a : Action Packet) : Option OutboundWorld :=
  (w.next (sections debug layout heads) a).filter fun w' => w'.activePops ≤ n

theorem nextUpTo_step (e : nextUpTo n debug layout heads w a = some w') :
    StepUpTo n debug layout heads w a w' := by
  obtain ⟨e, hn⟩ := Option.filter_eq_some_iff.1 e
  exact ⟨World.next_step e, of_decide_eq_true hn⟩

theorem pointer_pos : 0 < 8 := by decide

def feedArgument : Funnel.EventLayout := ⟨16, 8, by decide, pointer_pos⟩

def oneRequest : Packet :=
  ⟨⟨⟨⟨0, Vector.replicate 20 0⟩, 0, 0⟩, ⟨.v4 ⟨Vector.replicate 4 0⟩, 0⟩,
    ⟨.v4 ⟨Vector.replicate 4 0⟩, 0⟩⟩, .request []⟩

def smallest : OutboundWorld := .start (make ⟨0, 0, 0, 0, 0, 0⟩ 2) 5

/-- Two requests, of which a call of `pop` returns one. -/
theorem outbound_container_conserves_two : ∃ w hist,
    Reach (Fresh 1) (StepUpTo 1 true feedArgument fun _ => 0) w hist ∧
      w.container.leftoverQueue.size ≤ 1 ∧ (w.pops.flatMap PopCall.output).length = 1 := by
  have h0 : Fresh 1 smallest := ⟨_, _, _, by decide, by decide, by decide, rfl⟩
  obtain ⟨w, hrun, hout⟩ : ∃ w, [.push [oneRequest, oneRequest], .get 0, .put 0, .pop 1,
      .finish 0].foldlM (nextUpTo 1 true feedArgument fun _ => 0) smallest = some w ∧
      (w.pops.flatMap PopCall.output).length = 1 := by
    refine ⟨_, rfl, ?_⟩
    decide +kernel
  have h := (Reach.init h0).foldlM nextUpTo_step hrun
  exact ⟨w, _, h, (outbound_container_conserves h).2.1, hout⟩

/-- Three calls of `push`, with one request each, and none of `pop`: the first fills the queue and
the second the queue of the waiting calls. -/
theorem third_push_aborts : ∃ w hist,
    Reach (Fresh 1) (StepUpTo 1 true feedArgument fun _ => 0) w hist ∧
      w.step (sections true feedArgument fun _ => 0) (.put 2) = .error .abort := by
  have h0 : Fresh 1 smallest := ⟨_, _, _, by decide, by decide, by decide, rfl⟩
  obtain ⟨w, hrun, hput⟩ : ∃ w, [.push [oneRequest], .get 0, .put 0, .push [oneRequest], .get 1,
      .put 1, .push [oneRequest], .get 2].foldlM (nextUpTo 1 true feedArgument fun _ => 0)
        smallest = some w ∧
      w.step (sections true feedArgument fun _ => 0) (.put 2) = .error .abort := by
    refine ⟨_, rfl, ?_⟩
    rfl
  exact ⟨w, _, (Reach.init h0).foldlM nextUpTo_step hrun, hput⟩

end OutboundContainer
