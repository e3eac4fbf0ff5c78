import NeuralNetwork.InternalRest.Mailbox.DequeRetransmissionController
import NeuralNetwork.InternalRest.Proof.RetransmissionRuns

/-!
# The deque of the retransmission controller

The queued times stay sorted, so that the binary search of `get_retriables` finds all packets that are
old enough (`getRetriables_ok`). `Account` says what became of every packet that was accepted;
`delivers_in_order` is what holds in every run.
-/

namespace DequeRetransmission

open Cpp FlashStream HashChain CyclicUnordered Mailbox Retransmission Loop RetransmissionController
open RetransmissionController (addRetriables reentrantAddRetriables)
open World (acceptedOf)

variable {debug : Bool} {hasher : GlobalPacketIdentifier → Nat} {clock : Nat → Int}

namespace RetransmissionController

variable {c c' : RetransmissionController} {now : Int}

def enqueue (c : RetransmissionController) (new : List QueuedPacket) : RetransmissionController :=
  { c with pktDeque := { c.pktDeque with items := c.pktDeque.items ++ new } }

def Answered (maxRetransmissionSz : Nat) (pkt : Packet) (err : ExceptionT) : Prop :=
  err = .success ∧ pkt.retransmissionCount.toNat < maxRetransmissionSz ∨ err = .socketQueueFull ∨
    err = .socketMaxRetransmissionReached ∧ maxRetransmissionSz ≤ pkt.retransmissionCount.toNat

theorem addOne_ok (hsize : c.pktDeque.size ≤ c.pktDeque.cap) {mapCap : Nat}
    (hcap : mapCap ≤ c.pktDeque.cap) (now : Int) (pkt : Packet) :
    ∃ err, addOne now mapCap c pkt = .ok (c.enqueue (acceptedOf now [pkt] [err]), err) ∧
      Answered c.maxRetransmissionSz pkt err ∧
      (c.enqueue (acceptedOf now [pkt] [err])).pktDeque.size ≤ c.pktDeque.cap := by
  have hsame : ∀ err : ExceptionT, err ≠ .success →
      c.enqueue (acceptedOf now [pkt] [err]) = c := by
    intro err herr
    simp [acceptedOf, herr, enqueue]
  unfold addOne
  by_cases hfull : c.pktDeque.size ≥ mapCap
  · refine ⟨.socketQueueFull, ?_, .inr (.inl rfl), ?_⟩
    · rw [if_pos hfull, hsame _ (by decide)]
    · rw [hsame _ (by decide)]
      exact hsize
  rw [if_neg hfull]
  by_cases hcount : pkt.retransmissionCount.toNat ≥ c.maxRetransmissionSz
  · refine ⟨.socketMaxRetransmissionReached, ?_, .inr (.inr ⟨rfl, hcount⟩), ?_⟩
    · rw [if_pos hcount, hsame _ (by decide)]
    · rw [hsame _ (by decide)]
      exact hsize
  have hroom : c.pktDeque.size < c.pktDeque.cap := Nat.lt_of_lt_of_le (Nat.not_le.1 hfull) hcap
  refine ⟨.success, ?_, .inl ⟨rfl, Nat.not_le.1 hcount⟩, ?_⟩
  · rw [if_neg hcount, Pow2CyclicQueue.pushBackNothrow, if_neg (Nat.ne_of_lt hroom)]
    rfl
  · have hlen : (c.enqueue (acceptedOf now [pkt] [.success])).pktDeque.size =
        c.pktDeque.size + 1 := List.length_append
    rw [hlen]
    exact Nat.succ_le_of_lt hroom

theorem enqueue_enqueue (new new' : List QueuedPacket) :
    (c.enqueue new).enqueue new' = c.enqueue (new ++ new') := by
  simp [enqueue]

theorem addLoop_ok {mapCap : Nat} (hsize : c.pktDeque.size ≤ c.pktDeque.cap)
    (hcap : mapCap ≤ c.pktDeque.cap) (now : Int) (pktArr : List Packet) :
    ∃ exceptionArr, addLoop now mapCap c pktArr =
        .ok (c.enqueue (acceptedOf now pktArr exceptionArr), exceptionArr) ∧
      List.Forall₂ (Answered c.maxRetransmissionSz) pktArr exceptionArr ∧
      (c.enqueue (acceptedOf now pktArr exceptionArr)).pktDeque.size ≤ c.pktDeque.cap := by
  induction pktArr generalizing c with
  | nil =>
    have hsame : c.enqueue [] = c := by simp [enqueue]
    exact ⟨[], by rw [acceptedOf, List.zip_nil_left, List.filterMap_nil, hsame]; rfl, .nil,
      by rw [acceptedOf, List.zip_nil_left, List.filterMap_nil, hsame]; exact hsize⟩
  | cons pkt pktArr ih =>
    obtain ⟨err, e1, ha, hsize1⟩ := addOne_ok hsize hcap now pkt
    obtain ⟨exceptionArr, e2, hall, hsize2⟩ := ih hsize1 hcap
    have hcons : acceptedOf now (pkt :: pktArr) (err :: exceptionArr) =
        acceptedOf now [pkt] [err] ++ acceptedOf now pktArr exceptionArr := by
      unfold acceptedOf
      rw [← List.filterMap_append]
      rfl
    rw [enqueue_enqueue, ← hcons] at e2 hsize2
    refine ⟨err :: exceptionArr, ?_, .cons ha hall, hsize2⟩
    rw [addLoop, e1, ok_bind]
    dsimp only
    rw [e2, ok_bind]

theorem getNow_eq (h : ∀ q ∈ c.pktDeque.items, q.queuedTime ≤ now) : c.getNow now = now := by
  unfold getNow
  cases hlast : c.pktDeque.items.getLast? with
  | none => rfl
  | some back => exact max_eq_right (h back (List.mem_of_getLast? hlast))

/-- A packet whose id is not in the set of acknowledged ids. -/
def live (c : RetransmissionController) (q : QueuedPacket) : Bool := q.pkt.id ∉ c.ackedIdHashset.ids

theorem scan_ok (hacked : c.ackedIdHashset.Ordered hasher) (cap : Nat) (l : List QueuedPacket) :
    ∃ n, c.scan (Keys.ofHash hasher) cap l = .ok (n, ((l.take n).filter c.live).map (·.pkt)) ∧
      n ≤ l.length ∧ ((l.take n).filter c.live).length ≤ cap := by
  induction l generalizing cap with
  | nil => exact ⟨0, by cases cap <;> rfl, Nat.le_refl _, Nat.zero_le _⟩
  | cons q l ih =>
    cases cap with
    | zero => exact ⟨0, rfl, Nat.zero_le _, Nat.le_refl _⟩
    | succ cap =>
      unfold scan
      rw [Mailbox.TemporalFiniteUnorderedSet.contains_ok hacked, ok_bind]
      by_cases hid : q.pkt.id ∈ c.ackedIdHashset.ids
      · have hlive : c.live q = false := decide_eq_false (not_not.2 hid)
        obtain ⟨n, e, hn, hlen⟩ := ih (cap + 1)
        refine ⟨n + 1, ?_, Nat.succ_le_succ hn, ?_⟩
        · rw [decide_eq_true hid, if_pos rfl, e, ok_bind, List.take_succ_cons,
            List.filter_cons_of_neg (by rw [hlive]; exact Bool.false_ne_true)]
        · rw [List.take_succ_cons, List.filter_cons_of_neg (by rw [hlive]; exact Bool.false_ne_true)]
          exact hlen
      · have hlive : c.live q = true := decide_eq_true hid
        obtain ⟨n, e, hn, hlen⟩ := ih cap
        refine ⟨n + 1, ?_, Nat.succ_le_succ hn, ?_⟩
        · rw [decide_eq_false hid, if_neg Bool.false_ne_true, e, ok_bind, List.take_succ_cons,
            List.filter_cons_of_pos hlive, List.map_cons]
        · rw [List.take_succ_cons, List.filter_cons_of_pos hlive, List.length_cons]
          exact Nat.succ_le_succ hlen

/-- What leaves the queue is old enough, and what is not acknowledged is returned. -/
theorem getRetriables_ok (hacked : c.ackedIdHashset.Ordered hasher)
    (hsorted : c.pktDeque.items.Pairwise (·.queuedTime ≤ ·.queuedTime)) (now : Int) (cap : Nat) :
    ∃ gone rest, c.pktDeque.items = gone ++ rest ∧
      c.getRetriables (Keys.ofHash hasher) now cap =
        .ok ({ c with pktDeque := { c.pktDeque with items := rest } },
          (gone.filter c.live).map (·.pkt)) ∧
      (∀ q ∈ gone, q.queuedTime + c.transmissionDelayTime < now) ∧
      (gone.filter c.live).length ≤ cap := by
  obtain ⟨front, back, hsplit, hfront, hback⟩ : ∃ front back, c.pktDeque.items = front ++ back ∧
      (∀ q ∈ front, decide (q.queuedTime < now - c.transmissionDelayTime) = true) ∧
      ∀ q ∈ back, decide (q.queuedTime < now - c.transmissionDelayTime) = false :=
    LowerBound.exists_partition hsorted fun x y hxy hy =>
      decide_eq_true (Int.lt_of_le_of_lt hxy (of_decide_eq_true hy))
  obtain ⟨n, e, hn, hlen⟩ := scan_ok hacked cap front
  refine ⟨front.take n, front.drop n ++ back, ?_, ?_, fun q hq => ?_, hlen⟩
  · rw [← List.append_assoc, List.take_append_drop]
    exact hsplit
  · unfold getRetriables
    dsimp only
    rw [hsplit, LowerBound.lowerBound_eq hfront hback, List.take_left, e, ok_bind]
    unfold Pow2CyclicQueue.eraseFrontRange
    rw [hsplit, List.drop_append_of_le_length hn]
  · have := of_decide_eq_true (hfront q (List.mem_of_mem_take hq))
    omega

theorem ack_ok (hacked : c.ackedIdHashset.Ordered hasher) {pktIdArr : List GlobalPacketIdentifier}
    (hsz : debug → pktIdArr.length ≤ c.consumeSzPerLoad) :
    ∃ set, c.ack debug (Keys.ofHash hasher) pktIdArr = .ok { c with ackedIdHashset := set } ∧
      set.Ordered hasher ∧ ∀ id ∈ set.ids, id ∈ c.ackedIdHashset.ids ∨ id ∈ pktIdArr := by
  obtain ⟨set, e, hset, hids⟩ : ∃ set, pktIdArr.foldlM
      (fun set id => Mailbox.TemporalFiniteUnorderedSet.insert (Keys.ofHash hasher) set id)
        c.ackedIdHashset = .ok set ∧ set.Ordered hasher ∧
      ∀ id ∈ set.ids, id ∈ c.ackedIdHashset.ids ∨ id ∈ pktIdArr := by
    clear hsz
    generalize c.ackedIdHashset = set0 at hacked
    induction pktIdArr generalizing set0 with
    | nil => exact ⟨set0, rfl, hacked, fun id => .inl⟩
    | cons id pktIdArr ih =>
      obtain ⟨set1, e1, h1, hids1, -⟩ := Mailbox.TemporalFiniteUnorderedSet.insert_ok hacked id
      obtain ⟨set2, e2, h2, hids2⟩ := ih set1 h1
      refine ⟨set2, ?_, h2, fun x hx => ?_⟩
      · rw [List.foldlM_cons, e1]
        exact e2
      · rcases hids2 x hx with hx | hx
        · rw [hids1] at hx
          rcases Mailbox.TemporalFiniteUnorderedSet.mem_of_mem_insert hx with hx | hx
          · exact .inl hx
          · exact .inr (List.mem_cons.2 (.inl hx))
        · exact .inr (List.mem_cons_of_mem _ hx)
  refine ⟨set, ?_, hset, hids⟩
  unfold ack
  rw [checkConsumeSize_ok hsz, ok_bind, e, ok_bind]

end RetransmissionController

/-! ## Calls -/

def Op.pkts : Op → List Packet
  | .addRetriables pktArr | .reentrantAddRetriables pktArr => pktArr
  | .ack _ | .getRetriables _ => []

def Op.acks : Op → List GlobalPacketIdentifier
  | .ack pktIdArr => pktIdArr
  | _ => []

def Op.batch (op : Op) : Nat := op.pkts.length + op.acks.length

/-- What the calls rely on: the set is in order, the queue is sorted, and no packet in it is from the
future. -/
structure Good (hasher : GlobalPacketIdentifier → Nat) (clock : Nat → Int) (w : World) : Prop where
  acked : w.controller.ackedIdHashset.Ordered hasher
  sorted : w.controller.pktDeque.items.Pairwise (·.queuedTime ≤ ·.queuedTime)
  past : ∀ q ∈ w.controller.pktDeque.items, q.queuedTime ≤ clock w.reads
  size : w.controller.pktDeque.size ≤ w.controller.pktDeque.cap

inductive Called (clock : Nat → Int) (w : World) : Event → World → Prop
  /-- Some of the packets are queued. -/
  | added {op : Op} {exceptionArr : List ExceptionT} : op.acks = [] → (∀ cap, op ≠ .getRetriables cap) →
      List.Forall₂ (RetransmissionController.Answered w.controller.maxRetransmissionSz) op.pkts
        exceptionArr →
      (w.controller.enqueue (acceptedOf (clock w.reads) op.pkts exceptionArr)).pktDeque.size ≤
        w.controller.pktDeque.cap →
      Called clock w ⟨op, ⟨exceptionArr, []⟩⟩ { w with
        controller := w.controller.enqueue (acceptedOf (clock w.reads) op.pkts exceptionArr)
        reads := w.reads + 1
        accepted := w.accepted ++ acceptedOf (clock w.reads) op.pkts exceptionArr }
  | acked {pktIdArr : List GlobalPacketIdentifier} {set exceptionArr} :
      (∀ id ∈ set.ids, id ∈ w.controller.ackedIdHashset.ids ∨ id ∈ pktIdArr) →
      Called clock w ⟨.ack pktIdArr, ⟨exceptionArr, []⟩⟩
        { w with controller := { w.controller with ackedIdHashset := set } }
  /-- Packets that are old enough leave the queue, and those that are not acknowledged are returned. -/
  | returned {cap : Nat} {gone rest : List QueuedPacket} : w.controller.pktDeque.items = gone ++ rest →
      (∀ q ∈ gone, q.queuedTime + w.controller.transmissionDelayTime < clock w.reads) →
      (gone.filter w.controller.live).length ≤ cap →
      Called clock w ⟨.getRetriables cap, ⟨[], (gone.filter w.controller.live).map (·.pkt)⟩⟩
        { w with
          controller := { w.controller with
            pktDeque := { w.controller.pktDeque with items := rest } }
          reads := w.reads + 1
          returned := w.returned ++
            ((gone.filter w.controller.live).map (·.pkt)).map (·, clock w.reads) }

variable {w w' : World} {e : Event}

theorem internalAdd_ok (h : Good hasher clock w) (pktArr : List Packet) {mapCap : Nat}
    (hcap : mapCap ≤ w.controller.pktDeque.cap)
    (hsz : debug → pktArr.length ≤ w.controller.consumeSzPerLoad) :
    ∃ exceptionArr, w.controller.internalAddRetriables debug (clock w.reads) pktArr mapCap =
        .ok (w.controller.enqueue (acceptedOf (clock w.reads) pktArr exceptionArr),
          exceptionArr) ∧
      List.Forall₂ (RetransmissionController.Answered w.controller.maxRetransmissionSz) pktArr
        exceptionArr ∧
      (w.controller.enqueue (acceptedOf (clock w.reads) pktArr exceptionArr)).pktDeque.size ≤
        w.controller.pktDeque.cap := by
  obtain ⟨exceptionArr, e, hall, hsize⟩ :=
    RetransmissionController.addLoop_ok h.size hcap (clock w.reads) pktArr
  refine ⟨exceptionArr, ?_, hall, hsize⟩
  unfold internalAddRetriables
  rw [checkConsumeSize_ok hsz, ok_bind, getNow_eq h.past, e]

theorem step_ok (h : Good hasher clock w) (op : Op)
    (hsz : debug → op.batch ≤ w.controller.consumeSzPerLoad) :
    ∃ w' answer, w.step debug (Keys.ofHash hasher) clock op = .ok (w', answer) ∧
      Called clock w ⟨op, answer⟩ w' ∧ w'.controller.ackedIdHashset.Ordered hasher := by
  cases op with
  | addRetriables pktArr =>
    obtain ⟨exceptionArr, e, hall, hsize⟩ := internalAdd_ok h pktArr
      (min_le_right w.controller.retriablePktMapCap _) hsz
    refine ⟨_, _, ?_, .added rfl (fun _ he => by cases he) hall hsize, h.acked⟩
    unfold World.step addRetriables
    dsimp only
    rw [e]
    rfl
  | reentrantAddRetriables pktArr =>
    obtain ⟨exceptionArr, e, hall, hsize⟩ := internalAdd_ok h pktArr (Nat.le_refl _) hsz
    refine ⟨_, _, ?_, .added rfl (fun _ he => by cases he) hall hsize, h.acked⟩
    unfold World.step reentrantAddRetriables
    dsimp only
    rw [e]
    rfl
  | ack pktIdArr =>
    have hsz' : debug → pktIdArr.length ≤ w.controller.consumeSzPerLoad := fun hd => by
      have := hsz hd
      simpa [Op.batch, Op.pkts, Op.acks] using this
    obtain ⟨set, e, hset, hids⟩ := RetransmissionController.ack_ok h.acked hsz'
    refine ⟨_, ⟨pktIdArr.map fun _ => .success, []⟩, ?_, .acked hids, hset⟩
    unfold World.step
    dsimp only
    rw [e]
    rfl
  | getRetriables cap =>
    obtain ⟨gone, rest, hsplit, e, hold, hlen⟩ :=
      RetransmissionController.getRetriables_ok h.acked h.sorted (clock w.reads) cap
    refine ⟨_, _, ?_, .returned hsplit hold hlen, h.acked⟩
    unfold World.step
    dsimp only
    rw [e]
    rfl

/-- A batch that is too large aborts a debug build, so a call that returned had none. -/
theorem Step.called (h : Good hasher clock w) (hs : Step debug (Keys.ofHash hasher) clock w e w') :
    Called clock w e w' ∧ w'.controller.ackedIdHashset.Ordered hasher := by
  obtain ⟨op, answer⟩ := e
  have hsz : debug → op.batch ≤ w.controller.consumeSzPerLoad := by
    intro hd
    by_contra hlarge
    have hcheck : ∀ sz, op.batch = sz →
        checkConsumeSize debug sz w.controller.consumeSzPerLoad = .error .abort := by
      rintro sz rfl
      unfold checkConsumeSize
      rw [if_pos ⟨hd, Nat.not_le.1 hlarge⟩]
    unfold Step World.step at hs
    cases op with
    | addRetriables pktArr =>
      unfold addRetriables internalAddRetriables at hs
      dsimp only at hs
      rw [hcheck pktArr.length rfl] at hs
      cases hs
    | reentrantAddRetriables pktArr =>
      unfold reentrantAddRetriables
        internalAddRetriables at hs
      dsimp only at hs
      rw [hcheck pktArr.length rfl] at hs
      cases hs
    | ack pktIdArr =>
      unfold RetransmissionController.ack at hs
      dsimp only at hs
      rw [hcheck pktIdArr.length (Nat.zero_add _)] at hs
      cases hs
    | getRetriables cap => exact hlarge (Nat.zero_le _)
  obtain ⟨w1, answer1, e1, hcalled, hacked⟩ := step_ok h op hsz
  obtain ⟨rfl, rfl⟩ := Prod.mk.inj (Except.ok.inj (e1.symm.trans hs))
  exact ⟨hcalled, hacked⟩

/-! ## Runs -/

theorem acceptedOf_time {now : Int} {pktArr : List Packet} {exceptionArr : List ExceptionT}
    {q : QueuedPacket} (h : q ∈ acceptedOf now pktArr exceptionArr) : q.queuedTime = now := by
  obtain ⟨⟨pkt, err⟩, -, he⟩ := List.mem_filterMap.1 h
  dsimp only at he
  split at he
  · cases he
    rfl
  · cases he

def Steady (clock : Nat → Int) : Prop := ∀ {m n : Nat}, m ≤ n → clock m ≤ clock n

theorem Good.called (hclock : Steady clock) (h : Good hasher clock w) (hc : Called clock w e w')
    (hacked : w'.controller.ackedIdHashset.Ordered hasher) : Good hasher clock w' := by
  have hlater := hclock (Nat.le_succ w.reads)
  cases hc with
  | added _ _ _ hsize =>
    refine ⟨hacked, ?_, fun q hq => ?_, hsize⟩
    · refine List.pairwise_append.2 ⟨h.sorted, ?_, fun q hq q' hq' => ?_⟩
      · refine List.pairwise_of_forall_mem_list fun q hq q' hq' => ?_
        exact ((acceptedOf_time hq).trans (acceptedOf_time hq').symm).le
      · exact (h.past q hq).trans (acceptedOf_time hq').ge
    · rcases List.mem_append.1 hq with hq | hq
      · exact (h.past q hq).trans hlater
      · exact (acceptedOf_time hq).le.trans hlater
  | acked => exact ⟨hacked, h.sorted, h.past, h.size⟩
  | returned hsplit =>
    have hsorted := h.sorted
    rw [hsplit] at hsorted
    refine ⟨hacked, (List.pairwise_append.1 hsorted).2.1, fun q hq => ?_, ?_⟩
    · exact (h.past q (hsplit ▸ List.mem_append_right _ hq)).trans hlater
    · have hsize := h.size
      unfold Pow2CyclicQueue.size at hsize ⊢
      rw [hsplit, List.length_append] at hsize
      exact (Nat.le_add_left _ _).trans hsize

/-- What became of a packet that left the queue: it was returned at this reading of the clock, or was
found acknowledged. -/
abbrev Fate := QueuedPacket × Option Int

/-- The packets that were accepted left the queue in order, each returned at most once and old enough,
or acknowledged by `acks`; the others are in the queue. -/
def Account (w : World) (acks : List GlobalPacketIdentifier) (fates : List Fate) : Prop :=
  w.accepted = fates.map Prod.fst ++ w.controller.pktDeque.items ∧
    w.returned = fates.filterMap (fun f => f.2.map (f.1.pkt, ·)) ∧
    (∀ f ∈ fates, ∀ now, f.2 = some now →
      f.1.queuedTime + w.controller.transmissionDelayTime < now) ∧
    ∀ f ∈ fates, f.2 = none → f.1.pkt.id ∈ acks

def fatesOf (c : RetransmissionController) (now : Int) (gone : List QueuedPacket) : List Fate :=
  gone.map fun q => (q, if c.live q then some now else none)

theorem filterMap_fatesOf (c : RetransmissionController) (now : Int) (gone : List QueuedPacket) :
    (fatesOf c now gone).filterMap (fun f => f.2.map (f.1.pkt, ·)) =
      ((gone.filter c.live).map (·.pkt)).map (·, now) := by
  unfold fatesOf
  induction gone with
  | nil => rfl
  | cons q gone ih =>
    rw [List.map_cons, List.filterMap_cons, ih]
    cases hlive : c.live q with
    | false => rw [List.filter_cons_of_neg (by rw [hlive]; exact Bool.false_ne_true)]; rfl
    | true => rw [List.filter_cons_of_pos hlive]; rfl

theorem Account.called {acks : List GlobalPacketIdentifier} {fates : List Fate}
    (h : Account w acks fates) (hset : ∀ id ∈ w.controller.ackedIdHashset.ids, id ∈ acks)
    (hc : Called clock w e w') :
    (∃ fates', Account w' (acks ++ e.op.acks) fates') ∧
      ∀ id ∈ w'.controller.ackedIdHashset.ids, id ∈ acks ++ e.op.acks := by
  obtain ⟨haccepted, hreturned, hold, hacks⟩ := h
  have hmore : ∀ f ∈ fates, f.2 = none → f.1.pkt.id ∈ acks ++ e.op.acks := fun f hf hn =>
    List.mem_append_left _ (hacks f hf hn)
  have hset' : ∀ id ∈ w.controller.ackedIdHashset.ids, id ∈ acks ++ e.op.acks := fun id hid =>
    List.mem_append_left _ (hset id hid)
  cases hc with
  | added =>
    refine ⟨⟨fates, ?_, hreturned, hold, hmore⟩, hset'⟩
    rw [haccepted, List.append_assoc]
    rfl
  | acked hids =>
    refine ⟨⟨fates, haccepted, hreturned, hold, hmore⟩, fun id hid => ?_⟩
    rcases hids id hid with hid | hid
    · exact hset' id hid
    · exact List.mem_append_right _ hid
  | @returned cap gone rest hsplit hgone =>
    refine ⟨⟨fates ++ fatesOf w.controller (clock w.reads) gone, ?_, ?_, fun f hf now hn => ?_,
      fun f hf hn => ?_⟩, hset'⟩
    · have hfst : (fatesOf w.controller (clock w.reads) gone).map Prod.fst = gone := by
        unfold fatesOf
        rw [List.map_map]
        exact List.map_id gone
      rw [haccepted, hsplit, List.map_append, hfst, List.append_assoc]
    · rw [List.filterMap_append, filterMap_fatesOf, hreturned]
    · rcases List.mem_append.1 hf with hf | hf
      · exact hold f hf now hn
      · obtain ⟨q, hq, rfl⟩ := List.mem_map.1 hf
        split at hn
        · cases hn
          exact hgone q hq
        · cases hn
    · rcases List.mem_append.1 hf with hf | hf
      · exact hmore f hf hn
      · obtain ⟨q, hq, rfl⟩ := List.mem_map.1 hf
        split at hn
        · cases hn
        · next hlive => exact hset' _ (by simpa [RetransmissionController.live] using hlive)

structure RunInv (hasher : GlobalPacketIdentifier → Nat) (clock : Nat → Int) (w : World)
    (hist : List Event) : Prop where
  good : Good hasher clock w
  account : ∃ fates, Account w (hist.flatMap fun e => e.op.acks) fates
  acked : ∀ id ∈ w.controller.ackedIdHashset.ids, id ∈ hist.flatMap fun e => e.op.acks

variable {config : Config} {hist : List Event}

theorem made (hasher : GlobalPacketIdentifier → Nat) {c : RetransmissionController}
    (hc : getRetransmissionController config = .ok c) :
    (c.ackedIdHashset.Ordered hasher ∧ c.ackedIdHashset.ids = []) ∧ c.pktDeque.items = [] ∧
      c.maxRetransmissionSz = config.maxRetransmissionSz := by
  unfold getRetransmissionController at hc
  split at hc
  · cases hc
  split at hc
  · cases hc
  split at hc
  · cases hc
  split at hc
  · cases hc
  split at hc
  · cases hc
  obtain ⟨queueConsumeSz, -, hc⟩ := bind_eq_ok hc
  obtain ⟨idhashsetConsumeSz, -, hc⟩ := bind_eq_ok hc
  obtain ⟨queueCap, -, hc⟩ := bind_eq_ok hc
  obtain ⟨set, hset, hc⟩ := bind_eq_ok hc
  cases hc
  exact ⟨Mailbox.TemporalFiniteUnorderedSet.make_ok hset, rfl, rfl⟩

theorem RunInv.fresh (h : Fresh config w) : RunInv hasher clock w [] := by
  obtain ⟨c, hc, rfl⟩ := h
  obtain ⟨⟨hordered, hids⟩, hitems, -⟩ := made hasher hc
  refine ⟨⟨hordered, ?_, fun q hq => ?_, ?_⟩, ⟨[], ?_, rfl, by simp, by simp⟩, fun id hid => ?_⟩
  · rw [hitems]
    exact .nil
  · replace hq : q ∈ c.pktDeque.items := hq
    rw [hitems] at hq
    exact absurd hq List.not_mem_nil
  · show c.pktDeque.items.length ≤ _
    rw [hitems]
    exact Nat.zero_le _
  · rw [hitems]
    rfl
  · replace hid : id ∈ c.ackedIdHashset.ids := hid
    rw [hids] at hid
    exact absurd hid List.not_mem_nil

theorem RunInv.step (hclock : Steady clock) (h : RunInv hasher clock w hist)
    (hs : Step debug (Keys.ofHash hasher) clock w e w') : RunInv hasher clock w' (hist ++ [e]) := by
  obtain ⟨hcalled, hacked⟩ := hs.called h.good
  obtain ⟨fates, hfates⟩ := h.account
  obtain ⟨haccount, hids⟩ := hfates.called h.acked hcalled
  refine ⟨h.good.called hclock hcalled hacked, ?_, ?_⟩ <;>
    rw [List.flatMap_append, List.flatMap_singleton]
  · exact haccount
  · exact hids

theorem reach_inv (hclock : Steady clock)
    (h : Run.Reach (Fresh config) (Step debug (Keys.ofHash hasher) clock) w hist) :
    RunInv hasher clock w hist :=
  h.inv (fun w hist => RunInv hasher clock w hist) (fun _ h0 => .fresh h0)
    fun _ _ _ _ hi hs => hi.step hclock hs

/-- **The queue delivers in order, once and on time, over every run with a steady clock.** The accepted
packets left in the order of acceptance, each returned at most once and after more than the delay, or found
acknowledged, and the others are still queued. `get_retriables` takes from the front of the queue, and
returns the packets that it took whose ids are not in the set; no other call takes any. -/
theorem delivers_in_order {config : Config} (hclock : Steady clock) {hist : List Event}
    (h : Run.Reach (Fresh config) (Step debug (Keys.ofHash hasher) clock) w hist) :
    w.controller.pktDeque.items.Pairwise (·.queuedTime ≤ ·.queuedTime) ∧
      (∃ fates, Account w (hist.flatMap fun e => e.op.acks) fates) ∧
      (∀ op : Op, (debug → op.batch ≤ w.controller.consumeSzPerLoad) →
        ∃ r, w.step debug (Keys.ofHash hasher) clock op = .ok r) ∧
      ∀ e w', Step debug (Keys.ofHash hasher) clock w e w' →
        ∃ gone new, w.controller.pktDeque.items ++ new = gone ++ w'.controller.pktDeque.items ∧
          w'.accepted = w.accepted ++ new ∧
          e.answer.output = (gone.filter fun q =>
            decide (q.pkt.id ∉ w.controller.ackedIdHashset.ids)).map (·.pkt) ∧
          (∀ q ∈ gone, q.queuedTime + w.controller.transmissionDelayTime < clock w.reads) ∧
          ((∀ cap, e.op ≠ .getRetriables cap) → gone = []) := by
  have hinv := reach_inv hclock h
  refine ⟨hinv.good.sorted, hinv.account, fun op hsz => ?_, fun e w' hs => ?_⟩
  · obtain ⟨w', answer, e, -⟩ := step_ok hinv.good op hsz
    exact ⟨_, e⟩
  · cases (hs.called hinv.good).1 with
    | added => exact ⟨[], _, rfl, rfl, rfl, by simp, fun _ => rfl⟩
    | acked =>
      exact ⟨[], [], List.append_nil _, (List.append_nil _).symm, rfl, by simp, fun _ => rfl⟩
    | @returned cap gone rest hsplit hold =>
      exact ⟨gone, [], (List.append_nil _).trans hsplit, (List.append_nil _).symm, rfl, hold,
        fun hne => absurd rfl (hne cap)⟩

/-- A delay of one, at most one retransmission, and room for one packet. -/
def oneConfig : Config := ⟨1, 1, 1, 1, 1, 4⟩

def tens : Nat → Int := fun n => (10 * n : Nat)

theorem tens_mono : Steady tens := fun h => Int.ofNat_le.2 (Nat.mul_le_mul_left 10 h)

def oneHash : Keys GlobalPacketIdentifier := Keys.ofHash fun _ => 0

def status (err : ExceptionT) : World.Answer := ⟨[err], []⟩

/-- A packet is queued at the first reading and returned at the second. -/
theorem delivers_in_order_one : ∃ w : World, w.returned = [(bump (numbered 0), 10)] ∧
    ∃ fates, Account w [] fates := by
  obtain ⟨w0, h0, w1, e1, w2, e2, hreturned⟩ : ∃ w0, Fresh oneConfig w0 ∧
      ∃ w1, Step true oneHash tens w0 ⟨.addRetriables [numbered 0], status .success⟩ w1 ∧
      ∃ w2, Step true oneHash tens w1 ⟨.getRetriables 1, ⟨[], [bump (numbered 0)]⟩⟩ w2 ∧
        w2.returned = [(bump (numbered 0), 10)] :=
    ⟨_, ⟨_, rfl, rfl⟩, _, rfl, _, rfl, rfl⟩
  have hreach : Run.Reach (Fresh oneConfig) (Step true oneHash tens) w2 _ :=
    .step (.step (.init h0) e1) e2
  exact ⟨w2, hreturned, (delivers_in_order tens_mono hreach).2.1⟩

end DequeRetransmission
