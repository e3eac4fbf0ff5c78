import NeuralNetwork.InternalRest.Proof.DequeRetransmission
import NeuralNetwork.Lib.Retry

/-!
# The number of retransmissions

Both controllers accept a packet while its counter is below the limit, and count it up. As long as the
limit fits the counter, which is one byte, the packets of a run make `Retry.Rounds`, so that none is
returned more often (`retransmission_bounded`).
-/

namespace Retransmission

open Cpp FlashStream HashChain CyclicUnordered ExpiryQueue Loop Mailbox Run

/-! ## The counter -/

def original (pkt : Packet) : Packet := { pkt with retransmissionCount := 0 }

theorem original_bump (pkt : Packet) : original (bump pkt) = original pkt := rfl

theorem countOf_bump {limit : Nat} (hlimit : limit ≤ 255) {pkt : Packet} (h : countOf pkt < limit) :
    countOf (bump pkt) = countOf pkt + 1 := by
  have hone : (pkt.retransmissionCount + 1).toNat = pkt.retransmissionCount.toNat + 1 := by
    rw [BitVec.toNat_add]
    unfold countOf at h
    exact Nat.mod_eq_of_lt (by change _ + 1 < 256; omega)
  exact hone

def timesOf (pkt : Packet) (pkts : List Packet) : Nat := Retry.count original pkt pkts

/-- The packet entered with its counter at zero, each time that it did. -/
def EnteredAtZero (pkt : Packet) (entered : List Packet) : Prop :=
  ∀ first ∈ entered, original first = pkt → countOf first = 0

abbrev Rounds (limit : Nat) (entered handed accepted returned : List Packet) : Prop :=
  Retry.Rounds countOf bump limit entered handed accepted returned

section
variable {limit : Nat} {entered handed accepted returned extra : List Packet} {pkt : Packet}

variable (h : Rounds limit entered handed accepted returned)

include h

theorem Rounds.times_add_left_le
    (hlimit : limit ≤ 255) (hback : (handed ++ extra).Subperm returned)
    (hzero : EnteredAtZero pkt entered) :
    timesOf pkt returned + Retry.left original countOf limit pkt extra ≤
      limit * timesOf pkt entered := by
  have hle := h.count_add_left_le (k := pkt) original_bump (fun v hv => countOf_bump hlimit hv) hback
  rw [Retry.left_of_zero hzero] at hle
  exact hle

theorem Rounds.times_le (hlimit : limit ≤ 255)
    (hback : handed.Subperm returned) (hzero : EnteredAtZero pkt entered) :
    timesOf pkt returned ≤ limit * timesOf pkt entered := by
  have hback' : (handed ++ []).Subperm returned := (List.append_nil handed).symm ▸ hback
  exact (Nat.le_add_right _ _).trans (h.times_add_left_le hlimit hback' hzero)

/-- A packet that was returned as often as the limit says is spent when it is handed back. -/
theorem Rounds.spent (hlimit : limit ≤ 255)
    (hback : (handed ++ extra).Subperm returned) (hzero : EnteredAtZero pkt entered)
    (htimes : timesOf pkt returned = limit * timesOf pkt entered) {last : Packet}
    (hm : last ∈ extra) (hlast : original last = pkt) : limit ≤ countOf last := by
  have hle := h.times_add_left_le hlimit hback hzero
  have hleft : Retry.left original countOf limit pkt extra = 0 := by omega
  exact Retry.le_level_of_left hleft hm hlast

end

/-! ## MemoryEfficientRetransmissionController -/

def World.Op.entered : World.Op → List Packet
  | .addRetriables pktArr _ => pktArr
  | _ => []

def World.Op.handedBack : World.Op → List Packet
  | .reentrantAddRetriables pktArr _ => pktArr
  | _ => []

def entered (hist : List Event) : List Packet := hist.flatMap fun e => e.op.entered

def handedBack (hist : List Event) : List Packet := hist.flatMap fun e => e.op.handedBack

def returned (hist : List Event) : List Packet := hist.flatMap Event.returned

theorem cell_eq {a b : Cell} (hpkt : a.pkt = b.pkt) (hexception : a.exception = b.exception) :
    a = b := by
  obtain ⟨pkt, exception⟩ := a
  cases hpkt
  cases hexception
  rfl

theorem exists_of_mem_right {α β : Type} {R : α → β → Prop} {l : List α} {l' : List β}
    (h : List.Forall₂ R l l') {b : β} (hb : b ∈ l') : ∃ a ∈ l, R a b := by
  obtain ⟨i, hi, rfl⟩ := List.getElem_of_mem hb
  have hlt : i < l.length := h.length_eq ▸ hi
  exact ⟨_, List.getElem_mem hlt, h.get hlt hi⟩

namespace World

variable {cells cells' : List Cell}

theorem Same.pkts (h : Same cells cells') :
    cells'.map (·.pkt) = cells.map (·.pkt) := by
  induction h with
  | nil => rfl
  | cons hab _ ih => rw [List.map_cons, List.map_cons, ih, hab.1]

theorem Same.failed (h : Same cells cells') {p : Nat} {cell : Cell} (hcell : cells[p]? = some cell)
    (hfailed : isFailed cell.exception) : cells'[p]? = some cell := by
  obtain ⟨hlt, rfl⟩ := List.getElem?_eq_some_iff.1 hcell
  have hlt' : p < cells'.length := h.length_eq ▸ hlt
  obtain ⟨hpkt, hexception⟩ := h.get hlt hlt'
  refine List.getElem?_eq_some_iff.2 ⟨hlt', ?_⟩
  exact cell_eq hpkt (hexception hfailed)

variable {pktArr : List Packet}

theorem pkts_of_offered {limit : Nat} {cells : List Cell}
    (h : List.Forall₂ (Offered limit) pktArr cells) : cells.map (·.pkt) = pktArr := by
  induction h with
  | nil => rfl
  | cons hoffered _ ih => rw [List.map_cons, ih, hoffered.1]

theorem Op.given_eq (op : Op) : op.given = op.entered ++ op.handedBack := by
  cases op with
  | addRetriables pktArr now => exact (List.append_nil pktArr).symm
  | reentrantAddRetriables pktArr now => rfl
  | ack idArr rounds => rfl
  | getRetriables cap timeBar rounds => rfl

end World

/-! ### Runs -/

def World.acceptedPkts (w : World) : List Packet :=
  (w.cells.filter (·.exception = .success)).map (·.pkt)

structure BoundInv (env : Outside) (config : Config) (w : World) (hist : List Event) : Prop where
  good : World.Good env (hist.flatMap fun e => e.returned ++ e.erased) w
  small : w.controller.retriablePktMapCap < 2 ^ 64
  limit : w.controller.maxRetransmissionSz = config.maxRetransmissionSz
  offered : w.cells.map (·.pkt) = hist.flatMap fun e => e.op.entered ++ e.op.handedBack
  below : ∀ cell ∈ w.cells, cell.exception = .success → countOf cell.pkt < config.maxRetransmissionSz

variable {debug : Bool} {env : Outside} {config : Config} {w w' : World} {hist : List Event}

theorem BoundInv.fresh (h : Fresh config w) : BoundInv env config w [] := by
  obtain ⟨hgood, hmade⟩ := h.spec env
  have hsmall : w.controller.retriablePktMapCap < 2 ^ 64 := by
    rw [hmade.retriable]
    exact Nat.lt_of_le_of_lt hmade.retriable_le (by decide)
  obtain ⟨c, -, rfl⟩ := h
  exact ⟨hgood, hsmall, hmade.retransmission, rfl, fun cell hm => absurd hm List.not_mem_nil⟩

theorem BoundInv.step (h : BoundInv env config w hist) {e : Event} (hs : Step debug env w e w') :
    BoundInv env config w' (hist ++ [e]) := by
  have hkeeps := World.Step.keeps debug h.good h.small hs
  have hlimits := hkeeps.limits
  simp only [World.limits, World.settings, Prod.mk.injEq] at hlimits
  obtain ⟨old, new, hcells, hold, hnew⟩ := World.Step.cells debug h.good h.small hs
  refine ⟨?_, hlimits.2.1 ▸ h.small, hlimits.1.trans h.limit, ?_, fun cell hm hok => ?_⟩
  · rw [List.flatMap_append, List.flatMap_singleton]
    exact hkeeps.good
  · rw [hcells, List.map_append, World.Same.pkts hold, World.pkts_of_offered hnew, h.offered,
      List.flatMap_append, List.flatMap_singleton, World.Op.given_eq]
  · rw [hcells] at hm
    rcases List.mem_append.1 hm with hm | hm
    · obtain ⟨cell', hm', hpkt, hback⟩ := exists_of_mem_right hold hm
      have hok' : cell'.exception = .success := by
        by_contra hfailed
        exact hfailed ((hback hfailed).symm.trans hok)
      rw [hpkt]
      exact h.below cell' hm' hok'
    · obtain ⟨pkt, -, hoffered⟩ := exists_of_mem_right hnew hm
      rw [hoffered.1, ← h.limit]
      exact hoffered.2.1 hok

theorem reach_bound (h : Reach (Fresh config) (Step debug env) w hist) :
    BoundInv env config w hist :=
  h.inv (BoundInv env config) (fun _ h0 => .fresh h0) fun _ _ _ _ hi hs => hi.step hs

variable (h : BoundInv env config w hist)

include h

theorem BoundInv.accepted_perm :
    (w.acceptedPkts.map bump).Perm
      (w.waitPtrs.filterMap (Ledger.valueAt (w.cells.map World.entryOf)) ++
        w.controller.pktMap.entries.map Prod.fst ++ hist.flatMap fun e => e.returned ++ e.erased) := by
  have hbook : w.acceptedPkts.map bump =
      (w.book (hist.flatMap fun e => e.returned ++ e.erased)).accepted := by
    unfold World.acceptedPkts World.book World.page Ledger.Book.accepted Ledger.acceptedOf
    rw [List.filter_map, List.map_map, List.map_map]
    rfl
  rw [hbook]
  exact h.good.book.balanced

theorem BoundInv.rounds :
    Rounds config.maxRetransmissionSz (entered hist) (handedBack hist) w.acceptedPkts
      (returned hist) := by
  refine ⟨?_, fun pkt hm => ?_, ?_⟩
  · have hsub : w.acceptedPkts.Sublist (w.cells.map (·.pkt)) := List.filter_sublist.map _
    have hperm := List.flatMap_append_perm hist (fun e => e.op.entered) fun e => e.op.handedBack
    rw [h.offered] at hsub
    exact hsub.subperm.trans hperm.symm.subperm
  · obtain ⟨cell, hcell, rfl⟩ := List.mem_map.1 hm
    obtain ⟨hcell, hok⟩ := List.mem_filter.1 hcell
    exact h.below cell hcell (of_decide_eq_true hok)
  · have hgone : (returned hist).Subperm (hist.flatMap fun e => e.returned ++ e.erased) :=
      (List.sublist_append_left _ _).subperm.trans
        (List.flatMap_append_perm hist Event.returned Event.erased).subperm
    exact hgone.trans ((List.sublist_append_right _ _).subperm.trans h.accepted_perm.symm.subperm)

theorem BoundInv.refused {pktArr : List Packet} {now : Int} {e : Event}
    (hop : e.op = .reentrantAddRetriables pktArr now) (hs : Step debug env w e w') {i : Nat}
    {last : Packet} (hlast : pktArr[i]? = some last)
    (hspent : config.maxRetransmissionSz ≤ countOf last) :
    w'.cells[w.cells.length + i]? = some ⟨last, .socketMaxRetransmissionReached⟩ := by
  obtain ⟨old, new, hcells, hold, hnew⟩ := World.Step.cells debug h.good h.small hs
  rw [hop] at hnew
  replace hnew : List.Forall₂ (World.Offered w.controller.maxRetransmissionSz) pktArr new := hnew
  obtain ⟨hlt, rfl⟩ := List.getElem?_eq_some_iff.1 hlast
  have hlt' : i < new.length := hnew.length_eq ▸ hlt
  obtain ⟨hpkt, -, hfull⟩ := hnew.get hlt hlt'
  rw [hcells, hold.length_eq, List.getElem?_append_right (Nat.le_add_right _ _),
    Nat.add_sub_cancel_left]
  refine List.getElem?_eq_some_iff.2 ⟨hlt', ?_⟩
  exact cell_eq hpkt (hfull (h.limit ▸ hspent))

theorem BoundInv.stays {more : List Event}
    (hreach : Reach (· = w) (Step debug env) w' more) {p : Nat} {cell : Cell}
    (hcell : w.cells[p]? = some cell) (hfailed : isFailed cell.exception) :
    w'.cells[p]? = some cell := by
  have hinv : BoundInv env config w' (hist ++ more) ∧ w'.cells[p]? = some cell := by
    refine hreach.inv (fun w' more => BoundInv env config w' (hist ++ more) ∧
      w'.cells[p]? = some cell) ?_ ?_
    · rintro w rfl
      exact ⟨(List.append_nil hist).symm ▸ h, hcell⟩
    · intro w1 more e w2 hi hs
      refine ⟨List.append_assoc hist more [e] ▸ hi.1.step hs, ?_⟩
      obtain ⟨old, new, hcells, hold, -⟩ := World.Step.cells debug hi.1.good hi.1.small hs
      have hat := hold.failed hi.2 hfailed
      rw [hcells, List.getElem?_append_left (List.getElem?_eq_some_iff.1 hat).1]
      exact hat
  exact hinv.2

end Retransmission

/-! ## RetransmissionController -/

namespace DequeRetransmission

open Cpp FlashStream HashChain CyclicUnordered Mailbox Retransmission Loop Run

def Op.entered : Op → List Packet
  | .addRetriables pktArr => pktArr
  | _ => []

def Op.handedBack : Op → List Packet
  | .reentrantAddRetriables pktArr => pktArr
  | _ => []

def entered (hist : List Event) : List Packet := hist.flatMap fun e => e.op.entered

def handedBack (hist : List Event) : List Packet := hist.flatMap fun e => e.op.handedBack

def returned (hist : List Event) : List Packet := hist.flatMap fun e => e.answer.output

namespace RetransmissionController

variable {keys : Keys GlobalPacketIdentifier} {c c' : RetransmissionController} {now : Int}
  {mapCap : Nat}

def queued (c : RetransmissionController) : List Packet := c.pktDeque.items.map (·.pkt)

/-- What a packet that is spent is answered: its limit, or that the queue is full. -/
def Refused (mapCap : Nat) (c c' : RetransmissionController) (pkt : Packet) (err : ExceptionT) : Prop :=
  c.maxRetransmissionSz ≤ countOf pkt → err = .socketMaxRetransmissionReached ∨
    err = .socketQueueFull ∧ mapCap ≤ c'.pktDeque.size

/-- What a call that adds packets does to the queue. -/
structure Queued (pktArr : List Packet) (c c' : RetransmissionController) : Prop where
  limit : c'.maxRetransmissionSz = c.maxRetransmissionSz
  cap : c'.pktDeque.cap = c.pktDeque.cap
  size : c.pktDeque.size ≤ c'.pktDeque.size
  queued : ∃ pkts : List Packet, c'.queued = c.queued ++ pkts.map bump ∧ pkts.Sublist pktArr ∧
    ∀ pkt ∈ pkts, countOf pkt < c.maxRetransmissionSz

theorem addOne_queued {pkt : Packet} {err : ExceptionT}
    (e : addOne now mapCap c pkt = .ok (c', err)) :
    Queued [pkt] c c' ∧ Refused mapCap c c' pkt err := by
  have hsame : Queued [pkt] c c :=
    ⟨rfl, rfl, Nat.le_refl _, [], (List.append_nil _).symm, List.nil_sublist _, by simp⟩
  unfold addOne at e
  split at e
  · next hfull =>
    cases e
    exact ⟨hsame, fun _ => .inr ⟨rfl, hfull⟩⟩
  · split at e
    · cases e
      exact ⟨hsame, fun _ => .inl rfl⟩
    · next hcount =>
      have hbelow : countOf pkt < c.maxRetransmissionSz := Nat.not_le.1 hcount
      obtain ⟨pktDeque, hpush, e⟩ := bind_eq_ok e
      cases e
      unfold Pow2CyclicQueue.pushBackNothrow at hpush
      split at hpush
      · cases hpush
      · cases hpush
        refine ⟨⟨rfl, rfl, ?_, [pkt], List.map_append, .refl _, ?_⟩, fun hle => absurd hle hcount⟩
        · exact (List.sublist_append_left _ _).length_le
        · exact fun v hv => List.mem_singleton.1 hv ▸ hbelow

variable {exceptionArr : List ExceptionT} {pktArr : List Packet} {output : List Packet}

theorem addLoop_queued (e : addLoop now mapCap c pktArr = .ok (c', exceptionArr)) :
    Queued pktArr c c' ∧ List.Forall₂ (Refused mapCap c c') pktArr exceptionArr := by
  induction pktArr generalizing c exceptionArr with
  | nil =>
    cases e
    exact ⟨⟨rfl, rfl, Nat.le_refl _, [], (List.append_nil _).symm, .refl _, by simp⟩, .nil⟩
  | cons pkt pktArr ih =>
    obtain ⟨⟨c1, err⟩, e1, e⟩ := bind_eq_ok e
    obtain ⟨⟨c2, exceptionArr'⟩, e2, e⟩ := bind_eq_ok e
    cases e
    obtain ⟨h1, hrefused⟩ := addOne_queued e1
    obtain ⟨h2, hall⟩ := ih e2
    obtain ⟨pkts1, hqueued1, hsub1, hbelow1⟩ := h1.queued
    obtain ⟨pkts2, hqueued2, hsub2, hbelow2⟩ := h2.queued
    refine ⟨⟨h2.limit.trans h1.limit, h2.cap.trans h1.cap, h1.size.trans h2.size, pkts1 ++ pkts2,
      ?_, hsub1.append hsub2, fun v hv => ?_⟩, .cons (fun hle => ?_) ?_⟩
    · rw [hqueued2, hqueued1, List.append_assoc, List.map_append]
    · rcases List.mem_append.1 hv with hv | hv
      · exact hbelow1 v hv
      · exact h1.limit ▸ hbelow2 v hv
    · rcases hrefused hle with herr | ⟨herr, hfull⟩
      · exact .inl herr
      · exact .inr ⟨herr, hfull.trans h2.size⟩
    · exact hall.imp fun v err hv hle => hv (h1.limit.symm ▸ hle)

theorem internalAdd_queued {debug : Bool}
    (e : c.internalAddRetriables debug now pktArr mapCap = .ok (c', exceptionArr)) :
    Queued pktArr c c' ∧ List.Forall₂ (Refused mapCap c c') pktArr exceptionArr := by
  obtain ⟨-, -, e⟩ := bind_eq_ok e
  exact addLoop_queued e

theorem scan_sublist {cap n : Nat} {l : List QueuedPacket} (e : c.scan keys cap l = .ok (n, output)) :
    output.Sublist ((l.take n).map (·.pkt)) := by
  induction l generalizing cap n output with
  | nil =>
    have hnone : output = [] := by
      cases cap <;> cases e <;> rfl
    rw [hnone]
    exact List.nil_sublist _
  | cons q l ih =>
    cases cap with
    | zero =>
      cases e
      exact List.nil_sublist _
    | succ cap =>
      obtain ⟨acked, -, e⟩ := bind_eq_ok e
      split at e
      · obtain ⟨⟨n', output'⟩, e1, e⟩ := bind_eq_ok e
        cases e
        exact (ih e1).cons _
      · obtain ⟨⟨n', output'⟩, e1, e⟩ := bind_eq_ok e
        cases e
        exact (ih e1).cons_cons _

theorem getRetriables_queued {cap : Nat} (e : c.getRetriables keys now cap = .ok (c', output)) :
    c'.maxRetransmissionSz = c.maxRetransmissionSz ∧ (output ++ c'.queued).Sublist c.queued := by
  obtain ⟨⟨n, output'⟩, e1, e⟩ := bind_eq_ok e
  cases e
  refine ⟨rfl, ?_⟩
  have hsub := scan_sublist e1
  rw [List.take_take] at hsub
  have htake : ∀ sz, (List.take (min n sz) c.pktDeque.items).Sublist (c.pktDeque.items.take n) :=
    fun sz => (List.take_prefix_take_left (Nat.min_le_left n sz)).sublist
  have hsplit : c.queued = (c.pktDeque.items.take n).map (·.pkt) ++
      (c.pktDeque.items.drop n).map (·.pkt) := by
    rw [← List.map_append, List.take_append_drop]
    rfl
  rw [hsplit]
  exact (hsub.trans ((htake _).map (·.pkt))).append (.refl _)

end RetransmissionController

/-! ### Runs -/

/-- What holds in every run: what was returned and what is queued was accepted. -/
structure BoundInv (config : Config) (w : World) (hist : List Event) : Prop where
  limit : w.controller.maxRetransmissionSz = config.maxRetransmissionSz
  accepted : ∃ pkts : List Packet,
    pkts.Sublist (hist.flatMap fun e => e.op.entered ++ e.op.handedBack) ∧
    (∀ pkt ∈ pkts, countOf pkt < config.maxRetransmissionSz) ∧
    (returned hist ++ w.controller.queued).Subperm (pkts.map bump)

variable {debug : Bool} {keys : Keys GlobalPacketIdentifier} {clock : Nat → Int} {config : Config}
  {w w' : World} {hist : List Event}

theorem BoundInv.fresh (h : Fresh config w) : BoundInv config w [] := by
  obtain ⟨c, hc, rfl⟩ := h
  obtain ⟨-, hitems, hlimit⟩ := made (fun _ => 0) hc
  refine ⟨hlimit, [], .refl _, by simp, ?_⟩
  unfold RetransmissionController.queued
  rw [hitems]
  exact .refl _

variable {e : Event} {pktArr : List Packet}

theorem BoundInv.queued (h : BoundInv config w hist) (hgiven : e.op.entered ++ e.op.handedBack = pktArr)
    (houtput : e.answer.output = [])
    (hq : RetransmissionController.Queued pktArr w.controller w'.controller) :
    BoundInv config w' (hist ++ [e]) := by
  obtain ⟨pkts, hsub, hbelow, hbook⟩ := h.accepted
  obtain ⟨new, hqueued, hsub', hbelow'⟩ := hq.queued
  refine ⟨hq.limit.trans h.limit, pkts ++ new, ?_, fun pkt hm => ?_, ?_⟩
  · rw [List.flatMap_append, List.flatMap_singleton, hgiven]
    exact hsub.append hsub'
  · rcases List.mem_append.1 hm with hm | hm
    · exact hbelow pkt hm
    · exact h.limit ▸ hbelow' pkt hm
  · unfold returned at hbook ⊢
    rw [List.flatMap_append, List.flatMap_singleton, houtput, List.append_nil, hqueued,
      ← List.append_assoc, List.map_append]
    exact (List.subperm_append_right _).2 hbook

theorem BoundInv.step (h : BoundInv config w hist) (hs : Step debug keys clock w e w') :
    BoundInv config w' (hist ++ [e]) := by
  obtain ⟨op, answer⟩ := e
  cases op with
  | addRetriables pktArr =>
    obtain ⟨r, e1, e⟩ := bind_eq_ok hs
    cases e
    exact h.queued (List.append_nil _) rfl (RetransmissionController.internalAdd_queued e1).1
  | reentrantAddRetriables pktArr =>
    obtain ⟨r, e1, e⟩ := bind_eq_ok hs
    cases e
    exact h.queued rfl rfl (RetransmissionController.internalAdd_queued e1).1
  | ack pktIdArr =>
    obtain ⟨c, e1, e⟩ := bind_eq_ok hs
    cases e
    obtain ⟨-, -, e1⟩ := bind_eq_ok e1
    obtain ⟨set, -, e1⟩ := bind_eq_ok e1
    cases e1
    obtain ⟨pkts, hsub, hbelow, hbook⟩ := h.accepted
    refine ⟨h.limit, pkts, ?_, hbelow, ?_⟩
    · rw [List.flatMap_append, List.flatMap_singleton]
      exact hsub.trans (List.sublist_append_left _ _)
    · unfold returned at hbook ⊢
      rw [List.flatMap_append, List.flatMap_singleton, List.append_nil]
      exact hbook
  | getRetriables cap =>
    obtain ⟨⟨c, output⟩, e1, e⟩ := bind_eq_ok hs
    cases e
    obtain ⟨hlimit, hleft⟩ := RetransmissionController.getRetriables_queued e1
    obtain ⟨pkts, hsub, hbelow, hbook⟩ := h.accepted
    refine ⟨hlimit.trans h.limit, pkts, ?_, hbelow, ?_⟩
    · rw [List.flatMap_append, List.flatMap_singleton]
      exact hsub.trans (List.sublist_append_left _ _)
    · unfold returned at hbook ⊢
      rw [List.flatMap_append, List.flatMap_singleton, List.append_assoc]
      exact (hleft.append_left _).subperm.trans hbook

theorem reach_bound (h : Reach (Fresh config) (Step debug keys clock) w hist) :
    BoundInv config w hist :=
  h.inv (BoundInv config) (fun _ h0 => .fresh h0) fun _ _ _ _ hi hs => hi.step hs

theorem BoundInv.rounds (h : BoundInv config w hist) :
    ∃ pkts, Retransmission.Rounds config.maxRetransmissionSz (entered hist) (handedBack hist) pkts
      (returned hist) := by
  obtain ⟨pkts, hsub, hbelow, hbook⟩ := h.accepted
  have hperm := List.flatMap_append_perm hist (fun e => e.op.entered) fun e => e.op.handedBack
  exact ⟨pkts, hsub.subperm.trans hperm.symm.subperm, hbelow,
    (List.sublist_append_left _ _).subperm.trans hbook⟩

theorem BoundInv.refused (h : BoundInv config w hist) (hop : e.op = .reentrantAddRetriables pktArr)
    (hs : Step debug keys clock w e w') {i : Nat} {last : Packet} (hlast : pktArr[i]? = some last)
    (hspent : config.maxRetransmissionSz ≤ countOf last) :
    e.answer.exceptionArr[i]? = some .socketMaxRetransmissionReached ∨
      e.answer.exceptionArr[i]? = some .socketQueueFull ∧
        w'.controller.pktDeque.cap ≤ w'.controller.pktDeque.size := by
  obtain ⟨op, answer⟩ := e
  obtain rfl : op = .reentrantAddRetriables pktArr := hop
  obtain ⟨r, e1, e⟩ := bind_eq_ok hs
  cases e
  obtain ⟨hq, hall⟩ := RetransmissionController.internalAdd_queued e1
  obtain ⟨hlt, rfl⟩ := List.getElem?_eq_some_iff.1 hlast
  have hlt' : i < r.2.length := hall.length_eq ▸ hlt
  have hat : ∀ err, r.2.get ⟨i, hlt'⟩ = err → r.2[i]? = some err := fun err he =>
    List.getElem?_eq_some_iff.2 ⟨hlt', he⟩
  rcases hall.get hlt hlt' (h.limit.symm ▸ hspent) with herr | ⟨herr, hfull⟩
  · exact .inl (hat _ herr)
  · refine .inr ⟨hat _ herr, ?_⟩
    show r.1.pktDeque.cap ≤ r.1.pktDeque.size
    rw [hq.cap]
    exact hfull

end DequeRetransmission

/-! ## The bound -/

namespace Retransmission

open Cpp FlashStream HashChain CyclicUnordered ExpiryQueue Loop Mailbox Run
open DequeRetransmission (oneHash status tens)

/-- A packet is returned at most `limit` times, and `refused` holds of it when it is handed back, as
part of a call, after it was returned so often. -/
def Bounded (limit : Nat) (entered handed returned : List Packet)
    (refused : List Packet → Nat → Packet → Prop) : Prop :=
  handed.Subperm returned → ∀ pkt, EnteredAtZero pkt entered →
    timesOf pkt returned ≤ limit * timesOf pkt entered ∧
    (timesOf pkt returned = limit * timesOf pkt entered →
      ∀ pktArr, (handed ++ pktArr).Subperm returned → ∀ i last, pktArr[i]? = some last →
        original last = pkt → refused pktArr i last)

theorem Rounds.bounded {limit : Nat} {entered handed accepted returned : List Packet}
    (h : Rounds limit entered handed accepted returned) (hlimit : limit ≤ 255)
    {refused : List Packet → Nat → Packet → Prop}
    (hrefused : ∀ pktArr i last, pktArr[i]? = some last → limit ≤ countOf last →
      refused pktArr i last) : Bounded limit entered handed returned refused := by
  refine fun hback pkt hzero => ⟨h.times_le hlimit hback hzero, ?_⟩
  intro htimes pktArr hmore i last hlast heq
  have hspent := h.spent hlimit hmore hzero htimes (List.mem_of_getElem? hlast) heq
  exact hrefused pktArr i last hlast hspent

/-- **No packet is returned more often than the limit says**, if the limit fits the counter and no packet is
handed back more often than it was returned. A packet that was returned so often and is handed back is
answered `SOCKET_MAX_RETRANSMISSION_REACHED`, or by `RetransmissionController` that its queue is full. -/
theorem retransmission_bounded :
    (∀ {debug : Bool} {env : Outside} {config : Config} {w : World} {hist : List Event},
      Reach (Fresh config) (Step debug env) w hist → config.maxRetransmissionSz ≤ 255 →
      Bounded config.maxRetransmissionSz (entered hist) (handedBack hist) (returned hist)
        fun pktArr i last => ∀ (e : Event) (now : Int) (w' : World),
          e.op = .reentrantAddRetriables pktArr now → Step debug env w e w' →
          ∀ w'' more, Reach (· = w') (Step debug env) w'' more →
            w''.cells[w.cells.length + i]? = some ⟨last, .socketMaxRetransmissionReached⟩) ∧
    ∀ {debug : Bool} {keys : Keys GlobalPacketIdentifier} {clock : Nat → Int}
      {config : DequeRetransmission.Config} {w : DequeRetransmission.World}
      {hist : List DequeRetransmission.Event},
      Reach (DequeRetransmission.Fresh config) (DequeRetransmission.Step debug keys clock) w hist →
      config.maxRetransmissionSz ≤ 255 →
      Bounded config.maxRetransmissionSz (DequeRetransmission.entered hist)
        (DequeRetransmission.handedBack hist) (DequeRetransmission.returned hist)
        fun pktArr i _ => ∀ (e : DequeRetransmission.Event) (w' : DequeRetransmission.World),
          e.op = .reentrantAddRetriables pktArr → DequeRetransmission.Step debug keys clock w e w' →
          e.answer.exceptionArr[i]? = some .socketMaxRetransmissionReached ∨
            e.answer.exceptionArr[i]? = some .socketQueueFull ∧
              w'.controller.pktDeque.cap ≤ w'.controller.pktDeque.size := by
  refine ⟨fun hreach hlimit => ?_, fun hreach hlimit => ?_⟩
  · have hinv := reach_bound hreach
    refine hinv.rounds.bounded hlimit ?_
    intro pktArr i last hlast hspent e now w' hop hs w'' more hmore
    have hfailed : isFailed .socketMaxRetransmissionReached := by decide
    exact (hinv.step hs).stays hmore (hinv.refused hop hs hlast hspent) hfailed
  · have hinv := DequeRetransmission.reach_bound hreach
    obtain ⟨pkts, hrounds⟩ := hinv.rounds
    exact hrounds.bounded hlimit fun pktArr i last hlast hspent e w' hop hs =>
      hinv.refused hop hs hlast hspent

/-- A packet is returned once and then answered. -/
theorem retransmission_bounded_one :
    (∃ w w' : World, timesOf (numbered 0) [bump (numbered 0)] ≤ 1 * 1 ∧
      Step true calm w ⟨.reentrantAddRetriables [bump (numbered 0)] 0, [], []⟩ w' ∧
      w'.cells[w.cells.length + 0]? =
        some ⟨bump (numbered 0), .socketMaxRetransmissionReached⟩) ∧
    timesOf (numbered 0) [bump (numbered 0)] ≤ 1 * 1 := by
  have hzero : EnteredAtZero (numbered 0) [numbered 0] := by
    intro first hm _
    rw [List.mem_singleton.1 hm]
    rfl
  refine ⟨?_, ?_⟩
  · obtain ⟨w0, h0, w, hrun, w', hs⟩ : ∃ w0, Fresh oneConfig w0 ∧ ∃ w,
        [⟨.addRetriables [numbered 0] 0, [], []⟩,
          ⟨.getRetriables 1 1 coins, [bump (numbered 0)], []⟩].foldlM
          (World.next true calm) w0 = some w ∧ ∃ w',
        w.next true calm ⟨.reentrantAddRetriables [bump (numbered 0)] 0, [], []⟩ = some w' :=
      ⟨_, ⟨_, rfl, rfl⟩, _, rfl, _, rfl⟩
    have hreach := (Reach.init h0).foldlM World.next_step hrun
    obtain ⟨hle, hrefused⟩ := retransmission_bounded.1 hreach (by decide) (List.nil_subperm)
      (numbered 0) hzero
    have hstep := World.next_step hs
    exact ⟨w, w', hle, hstep, hrefused rfl [bump (numbered 0)] (.refl _) 0 _ rfl rfl _ 0 w' rfl hstep
      w' [] (.init rfl)⟩
  · obtain ⟨w0, h0, w1, e1, w2, e2⟩ : ∃ w0, DequeRetransmission.Fresh DequeRetransmission.oneConfig w0 ∧
        ∃ w1, DequeRetransmission.Step true oneHash tens w0
          ⟨.addRetriables [numbered 0], status .success⟩ w1 ∧
        ∃ w2, DequeRetransmission.Step true oneHash tens w1
          ⟨.getRetriables 1, ⟨[], [bump (numbered 0)]⟩⟩ w2 :=
      ⟨_, ⟨_, rfl, rfl⟩, _, rfl, _, rfl⟩
    have hreach : Reach (DequeRetransmission.Fresh DequeRetransmission.oneConfig)
        (DequeRetransmission.Step true oneHash tens) w2 _ :=
      .step (.step (.init h0) e1) e2
    exact (retransmission_bounded.2 hreach (by decide) (List.nil_subperm) (numbered 0) hzero).1

end Retransmission

/-! ## The largest limit, and a full queue -/

namespace DequeRetransmission

open Cpp FlashStream HashChain CyclicUnordered Mailbox Retransmission Loop Run
open RetransmissionController (addLoop addOne addRetriables getNow getRetriables)

/-- The largest limit that the factory takes, and room for one packet. -/
def largestConfig : Config := ⟨1, 256, 1, 1, 1, 4⟩

/-- A controller with this configuration, with nobody acknowledged. -/
structure Largest (c : RetransmissionController) : Prop where
  limit : c.maxRetransmissionSz = 256
  cap : c.pktDeque.cap = 1
  delay : c.transmissionDelayTime = 1
  consume : c.consumeSzPerLoad = 1
  retriable : c.retriablePktMapCap = 1
  acked : c.ackedIdHashset.Ordered (fun _ => 0) ∧ c.ackedIdHashset.ids = []

def RetransmissionController.holding (c : RetransmissionController) (items : List QueuedPacket) :
    RetransmissionController :=
  { c with pktDeque := ⟨items, 1⟩ }

variable {c : RetransmissionController}

theorem Largest.add (h : Largest c) (hitems : c.pktDeque.items = []) (now : Int) (pkt : Packet) :
    c.internalAddRetriables true now [pkt] 1 = .ok (c.holding [⟨bump pkt, now⟩], [.success]) := by
  have hcount : ¬ pkt.retransmissionCount.toNat ≥ c.maxRetransmissionSz := by
    rw [h.limit]
    exact Nat.not_le.2 pkt.retransmissionCount.isLt
  have hsize : c.pktDeque.size = 0 := congrArg List.length hitems
  have hpush : c.pktDeque.pushBackNothrow ⟨bump pkt, now⟩ = .ok ⟨[⟨bump pkt, now⟩], 1⟩ := by
    unfold Pow2CyclicQueue.pushBackNothrow
    rw [hsize, h.cap, hitems]
    rfl
  have hnow : c.getNow now = now := by
    unfold getNow
    rw [hitems]
    rfl
  have hbatch : [pkt].length ≤ c.consumeSzPerLoad := h.consume.ge
  unfold RetransmissionController.internalAddRetriables
  rw [checkConsumeSize_ok fun _ => hbatch, ok_bind, hnow]
  unfold addLoop addOne
  rw [if_neg (by rw [hsize]; decide), if_neg hcount, hpush]
  rfl

theorem Largest.get (h : Largest c) {now time : Int} (htime : time + 1 < now) (pkt : Packet) :
    (c.holding [⟨pkt, time⟩]).getRetriables oneHash now 1 = .ok (c.holding [], [pkt]) := by
  have hold : ∀ q ∈ [(⟨pkt, time⟩ : QueuedPacket)],
      decide (q.queuedTime < now - c.transmissionDelayTime) = true := by
    intro q hq
    rw [List.mem_singleton.1 hq, h.delay]
    exact decide_eq_true (Int.lt_sub_right_of_add_lt htime)
  have hbar := LowerBound.lowerBound_eq hold fun x hx => absurd hx List.not_mem_nil
  have hscan : (c.holding [⟨pkt, time⟩]).scan oneHash 1 [⟨pkt, time⟩] = .ok (1, [pkt]) := by
    unfold RetransmissionController.scan
    rw [show (c.holding [⟨pkt, time⟩]).ackedIdHashset = c.ackedIdHashset from rfl,
      show oneHash = Keys.ofHash fun _ => 0 from rfl,
      Mailbox.TemporalFiniteUnorderedSet.contains_ok h.acked.1, ok_bind, h.acked.2]
    rfl
  have htake : ([⟨pkt, time⟩] ++ [] : List QueuedPacket).take [(⟨pkt, time⟩ : QueuedPacket)].length =
      [⟨pkt, time⟩] := rfl
  unfold getRetriables
  dsimp only
  rw [show (c.holding [⟨pkt, time⟩]).transmissionDelayTime = c.transmissionDelayTime from rfl,
    show (c.holding [⟨pkt, time⟩]).pktDeque.items = [⟨pkt, time⟩] ++ [] from rfl, hbar, htake, hscan]
  rfl

structure Rounded (c : RetransmissionController) (n : Nat) (w : World) (hist : List Event) : Prop where
  queue : ∃ pkt, original pkt = numbered 0 ∧
    w.controller = c.holding [⟨pkt, tens (w.reads - 1)⟩]
  reads : 0 < w.reads
  entered : entered hist = [numbered 0]
  back : handedBack hist = returned hist
  times : timesOf (numbered 0) (returned hist) = n

theorem Rounded.first (h : Largest c) (hitems : c.pktDeque.items = []) :
    ∃ w e, Step true oneHash tens ⟨c, 0, [], []⟩ e w ∧ Rounded c 0 w [e] := by
  have hcap : min c.retriablePktMapCap c.pktDeque.cap = 1 := by
    rw [h.cap, h.retriable]
    rfl
  have hadd := h.add hitems (tens 0) (numbered 0)
  refine ⟨World.added tens ⟨c, 0, [], []⟩ [numbered 0]
      (c.holding [⟨bump (numbered 0), tens 0⟩], [.success]),
    ⟨.addRetriables [numbered 0], status .success⟩, ?_, ⟨bump (numbered 0), rfl, rfl⟩, Nat.one_pos,
    rfl, rfl, rfl⟩
  unfold Step World.step addRetriables
  dsimp only
  rw [hcap, hadd]
  rfl

theorem Rounded.next (h : Largest c) {n : Nat} {w : World} {hist : List Event} (hr : Rounded c n w hist) :
    ∃ w1 w2 e1 e2, Step true oneHash tens w e1 w1 ∧ Step true oneHash tens w1 e2 w2 ∧
      Rounded c (n + 1) w2 (hist ++ [e1] ++ [e2]) := by
  obtain ⟨pkt, horiginal, hc⟩ := hr.queue
  have htime : tens (w.reads - 1) + 1 < tens w.reads := by
    have hpos := hr.reads
    unfold tens
    omega
  have hidle : Largest (c.holding []) := ⟨h.limit, rfl, h.delay, h.consume, h.retriable, h.acked⟩
  have hget := h.get htime pkt
  have hadd := hidle.add rfl (tens (w.reads + 1)) pkt
  refine ⟨⟨c.holding [], w.reads + 1, w.accepted, w.returned ++ [pkt].map (·, tens w.reads)⟩,
    World.added tens ⟨c.holding [], w.reads + 1, w.accepted,
      w.returned ++ [pkt].map (·, tens w.reads)⟩ [pkt]
      ((c.holding []).holding [⟨bump pkt, tens (w.reads + 1)⟩], [.success]),
    ⟨.getRetriables 1, ⟨[], [pkt]⟩⟩, ⟨.reentrantAddRetriables [pkt], status .success⟩, ?_, ?_,
    ⟨bump pkt, horiginal, rfl⟩, Nat.succ_pos _, ?_, ?_, ?_⟩
  · unfold Step World.step
    dsimp only
    rw [hc, hget]
    rfl
  · unfold Step World.step RetransmissionController.reentrantAddRetriables
    dsimp only
    rw [show (c.holding []).pktDeque.cap = 1 from rfl, hadd]
    rfl
  · have hentered := hr.entered
    unfold DequeRetransmission.entered at hentered ⊢
    rw [List.flatMap_append, List.flatMap_append, hentered]
    rfl
  · have hback := hr.back
    unfold handedBack returned at hback ⊢
    rw [List.flatMap_append, List.flatMap_append, List.flatMap_append, List.flatMap_append, hback]
    simp [Op.handedBack, status]
  · have htimes := hr.times
    unfold returned at htimes ⊢
    rw [List.flatMap_append, List.flatMap_append]
    unfold timesOf Retry.count at htimes ⊢
    rw [List.countP_append, List.countP_append, htimes]
    simp [horiginal, status]

theorem rounded (n : Nat) : ∃ c w hist, Reach (Fresh largestConfig) (Step true oneHash tens) w hist ∧
    Rounded c n w hist := by
  obtain ⟨c, hc, hcap, hdelay, hconsume, hretriable⟩ : ∃ c,
      getRetransmissionController largestConfig = .ok c ∧ c.pktDeque.cap = 1 ∧
      c.transmissionDelayTime = 1 ∧ c.consumeSzPerLoad = 1 ∧ c.retriablePktMapCap = 1 :=
    ⟨_, rfl, rfl, rfl, rfl, rfl⟩
  obtain ⟨hacked, hitems, hlimit⟩ := made (fun _ => 0) hc
  have h : Largest c := ⟨hlimit, hcap, hdelay, hconsume, hretriable, hacked⟩
  refine ⟨c, ?_⟩
  induction n with
  | zero =>
    obtain ⟨w, e, hs, hr⟩ := Rounded.first h hitems
    exact ⟨w, [e], .step (.init ⟨c, hc, rfl⟩) hs, hr⟩
  | succ n ih =>
    obtain ⟨w, hist, hreach, hr⟩ := ih
    obtain ⟨w1, w2, e1, e2, hs1, hs2, hr2⟩ := hr.next h
    exact ⟨w2, _, (hreach.step hs1).step hs2, hr2⟩

/-- A packet that was returned as often as the limit says is answered that the queue is full; and with
the largest limit a packet is returned any number of times. -/
theorem retransmission_not_bounded :
    (∃ w w' : World, ∃ hist, Reach (Fresh oneConfig) (Step true oneHash tens) w hist ∧
      entered hist = [numbered 0, numbered 1] ∧ handedBack hist = [] ∧
      returned hist = [bump (numbered 0)] ∧
      Step true oneHash tens w
        ⟨.reentrantAddRetriables [bump (numbered 0)], status .socketQueueFull⟩ w') ∧
    ∀ n, ∃ (w : World) (hist : List Event),
      Reach (Fresh largestConfig) (Step true oneHash tens) w hist ∧ entered hist = [numbered 0] ∧
      handedBack hist = returned hist ∧ timesOf (numbered 0) (returned hist) = n := by
  refine ⟨?_, fun n => ?_⟩
  · obtain ⟨w0, h0, w1, e1, w2, e2, w3, e3, w4, e4⟩ : ∃ w0, Fresh oneConfig w0 ∧
        ∃ w1, Step true oneHash tens w0 ⟨.addRetriables [numbered 0], status .success⟩ w1 ∧
        ∃ w2, Step true oneHash tens w1 ⟨.getRetriables 1, ⟨[], [bump (numbered 0)]⟩⟩ w2 ∧
        ∃ w3, Step true oneHash tens w2 ⟨.addRetriables [numbered 1], status .success⟩ w3 ∧
        ∃ w4, Step true oneHash tens w3
          ⟨.reentrantAddRetriables [bump (numbered 0)], status .socketQueueFull⟩ w4 :=
      ⟨_, ⟨_, rfl, rfl⟩, _, rfl, _, rfl, _, rfl, _, rfl⟩
    exact ⟨w3, w4, _, ((Reach.init h0).step e1).step e2 |>.step e3, rfl, rfl, rfl, e4⟩
  · obtain ⟨c, w, hist, hreach, hr⟩ := rounded n
    exact ⟨w, hist, hreach, hr.entered, hr.back, hr.times⟩

end DequeRetransmission
