import NeuralNetwork.InternalRest.Proof.TicketCalls
import NeuralNetwork.InternalRest.Proof.TicketDelivery

/-!
# Tickets are delivered in time and once

In a run of callers that are `Disciplined`, every step keeps `Inv`, and `internal_update` leaves no call
waiting for what is there (`Inv.update`). `ticket_delivery` is what follows for every run.
-/

namespace TicketSystem

open Cpp Loop Mailbox CyclicUnordered ExpiryQueue TemporalOrderedItemMap World

variable {K : Type} [DecidableEq K] {debug : Bool} {clock : SteadyClock} {w w' : World K}

/-- Ids are distinct while they are registered or their call of `clock_in` has not returned, and a
ticket is voided only after its call returned. -/
def Disciplined (w : World K) : Event K → Prop
  | .clockIn args => w.manager.isValidClockInArguments args →
      (args.map (·.clockedInTicket)).Nodup ∧
        ∀ ticket ∈ args.map (·.clockedInTicket), w.table ticket = none ∧ ticket ∉ w.pending
  | .voidTicket tickets => ∀ ticket ∈ tickets, ticket ∉ w.pending
  | _ => True

/-- No call of `clock_in` waits while there is room, and no call of `get_expired_ticket` while a ticket
had expired. -/
def SettledFor (now : Int) (w : World K) : Prop :=
  (w.manager.expiryBucketQueue.size = w.manager.expiryBucketQueue.capacity ∨
      ∀ (smp : Nat) args, w.clockIns[smp]? ≠ some (ClockInPhase.waiting args)) ∧
    ((∀ smp : Nat, w.gets[smp]? ≠ some GetPhase.waiting) ∨
      ∀ ticket expiry, w.table ticket = some expiry → now ≤ expiry)

structure Inv (w : World K) : Prop where
  ready : Ready w.manager
  delivery : Delivery w.pending w.manager w.log
  linked : Linked w

theorem Fresh.inv [Inhabited K] (h : Fresh w) : Inv w := by
  obtain ⟨hr, ht, hpush, hpop, hclockIns, hgets, hlog⟩ := h.ready
  have hpend : w.pending = [] := by rw [World.pending, hclockIns]; rfl
  have hq : w.manager.queued = [] := by rw [TicketTimeoutManager.queued, hpush]; rfl
  refine ⟨hr, ?_, ?_⟩
  · rw [hpend, hlog]
    refine ⟨List.nodup_nil, by simp [hq], by simp [hq], by simp [hq], by simp, fun ticket _ => ht ticket,
      fun log₁ ticket now log₂ he => ?_⟩
    exact absurd he.symm (by simp)
  · exact ⟨by simp [hclockIns], by simp [hpop], by simp [hgets, hpop], by simp [hgets, hlog]⟩

/-! ## internal_update -/

/-- In the loop of `internal_update`, the calls that waited were released or still wait. -/
structure Updating (w : World K) (u : Update K) : Prop where
  delivery : Delivery w.pending u.manager
    (w.log ++ u.served.flatMap fun s => logHanded s.2.1 s.2.2)
  clockIns : ∀ smp ∈ w.manager.pushWaitBucketVec.items.map (·.smp),
    smp ∈ u.woken ∨ smp ∈ u.manager.pushWaitBucketVec.items.map (·.smp)
  gets : u.served.map Prod.fst ++ u.manager.popWaitBucketVec.items.map (·.smp) =
    w.manager.popWaitBucketVec.items.map (·.smp)

theorem Updating.round {u u' : Update K} (h : Updating w u) (hr : Update.Rounded clock u u') :
    Updating w u' := by
  have hd := h.delivery.round hr
  cases hr with
  | kept hitems =>
    refine ⟨hd, fun smp hm => (h.clockIns smp hm).imp_right fun hm => ?_, h.gets⟩
    rw [hitems] at hm
    exact hm
  | @woke arg smp' rest q' hitems =>
    refine ⟨hd, fun smp hm => ?_, h.gets⟩
    rcases h.clockIns smp hm with hm | hm
    · exact .inl (List.mem_append_left _ hm)
    · rw [hitems, List.map_cons, List.mem_cons] at hm
      rcases hm with rfl | hm
      · exact .inl (List.mem_append_right _ List.mem_cons_self)
      · exact .inr hm
  | served hitems =>
    refine ⟨hd, h.clockIns, ?_⟩
    have hgets := h.gets
    rw [hitems] at hgets
    rw [← hgets]
    simp

theorem Updating.linked {u : Update K} (h : Updating w u) (hl : Linked w) :
    Linked (w.afterUpdate u) := by
  have hnd := hl.gets_nodup
  rw [← h.gets] at hnd
  have hwait : ∀ smp ∈ u.served.map Prod.fst, w.gets[smp]? = some .waiting := fun smp hm => by
    rw [hl.gets, ← h.gets]
    exact List.mem_append_left _ hm
  obtain ⟨hperm, hstill⟩ := serveAll (List.nodup_append'.1 hnd).1 hwait
  refine ⟨fun smp args hphase => ?_, (List.nodup_append'.1 hnd).2.1, fun smp => ?_, ?_⟩
  · obtain ⟨hphase, hwoken⟩ := waiting_wakeAll hphase
    exact (h.clockIns smp (hl.clockIns smp args hphase)).resolve_left hwoken
  · refine (hstill smp).trans ?_
    rw [hl.gets, ← h.gets, List.mem_append]
    constructor
    · exact fun hm => hm.1.resolve_left hm.2
    · exact fun hm => ⟨.inr hm, fun hs => (List.nodup_append'.1 hnd).2.2 hs hm⟩
  · have hserved : (u.served.flatMap fun s => logHanded s.2.1 s.2.2).flatMap
        LogEntry.handedOut = u.served.flatMap (·.2.2) := by
      rw [List.flatMap_assoc]
      exact List.flatMap_congr fun s _ => handedOut_handed s.2.2
    refine List.Perm.trans ?_ hperm.symm
    simp only [afterUpdate, List.flatMap_append, hserved]
    exact hl.handed.append_right _

theorem Inv.update [Inhabited K] (debug : Bool) (clock : SteadyClock) (h : Inv w) :
    ∃ u, internalUpdate debug clock w.reads w.manager = .ok u ∧ Inv (w.afterUpdate u) ∧
      SettledFor (clock.now w.reads) (w.afterUpdate u) := by
  have h0 : Updating w ⟨w.manager, w.reads + 1, [], []⟩ :=
    ⟨by simpa using h.delivery, fun _ hm => .inr hm, rfl⟩
  obtain ⟨u, e, hready, hu, hpush, hpop⟩ := internalUpdate_ok debug (Updating w) h.ready h0
    (fun u hu => hu.delivery.nextNew) fun u u' hu hr _ => hu.round hr
  have hl := hu.linked h.linked
  have hpending : (w.afterUpdate u).pending = w.pending := pending_wakeAll u.woken w.clockIns
  refine ⟨u, e, ⟨hready, by rw [hpending]; exact hu.delivery, hl⟩,
    hpush.imp_right fun hnil smp args hphase => ?_, hpop.imp_left fun hnil smp hphase => ?_⟩
  · have hm := hl.clockIns smp args hphase
    simp only [afterUpdate, hnil, List.map_nil, List.not_mem_nil] at hm
  · have hm := (hl.gets smp).1 hphase
    simp only [afterUpdate, hnil, List.map_nil, List.not_mem_nil] at hm

/-! ## Steps -/

variable {args : List (ClockInArgument K)} {tickets : List K}

theorem Inv.clockIn (h : Inv w) (hd : Disciplined w (.clockIn args))
    (hs : World.ClockedIn clock w args w') : Inv w' := by
  have hready := hs.ready h.ready
  cases hs with
  | same =>
    refine ⟨hready, ?_, fun smp args hp => h.linked.clockIns smp args (getElem?_snoc_returned hp),
      h.linked.gets_nodup, h.linked.gets, h.linked.handed⟩
    rw [World.pending, pending_snoc_returned]
    exact h.delivery
  | direct hvalid hg ht =>
    obtain ⟨-, hnew⟩ := hd hvalid
    refine ⟨hready, ?_, fun smp args hp => h.linked.clockIns smp args (getElem?_snoc_returned hp),
      h.linked.gets_nodup, h.linked.gets, ?_⟩
    · rw [World.pending, pending_snoc_returned]
      refine h.delivery.clock h.delivery.pending_nodup (fun ticket => ?_)
        (fun ticket hp hm => (hnew ticket hm).2 hp)
        (fun ticket hq hm => (hnew ticket hm).2 (h.delivery.queued_pending ticket hq)) ht
      exact ⟨.inl, fun hp => hp.elim id And.left⟩
    · rw [List.flatMap_append, logClocked, handedOut_none fun _ => rfl, List.append_nil]
      exact h.linked.handed
  | waits hvalid hne =>
    obtain ⟨hnd, hnew⟩ := hd hvalid
    refine ⟨hready, ?_, fun smp args' hp => ?_, h.linked.gets_nodup, h.linked.gets, h.linked.handed⟩
    · rw [World.pending, List.flatMap_append, List.flatMap_singleton]
      exact h.delivery.wait hnd hnew
    · rw [List.map_append, List.mem_append]
      by_cases hlast : smp = w.clockIns.length
      · exact .inr (by simp [hlast])
      · refine .inl (h.linked.clockIns smp args' ?_)
        rw [List.getElem?_append] at hp
        split at hp
        · exact hp
        · next hge =>
          have hlt := (List.getElem?_eq_some_iff.1 hp).1
          rw [List.length_singleton] at hlt
          omega

theorem Inv.goClockIn {smp : Nat} (h : Inv w) (hphase : w.clockIns[smp]? = some (.woken args))
    (e : w.goClockIn debug clock smp args = .ok w') : Inv w' := by
  obtain ⟨hreg, q', rfl, hg, ht⟩ := goClockIn_cases h.ready e
  have hperm := ListUpdate.flatMap_set_perm ClockInPhase.pending
    (b := .returned (args.map fun _ => .success)) hphase
  rw [ClockInPhase.pending, ClockInPhase.pending, List.append_nil] at hperm
  have hnd := (hperm.nodup_iff).2 h.delivery.pending_nodup
  refine ⟨⟨hg, h.ready.push, h.ready.pop⟩, ?_, fun i args' hp => ?_, h.linked.gets_nodup,
    h.linked.gets, ?_⟩
  · refine h.delivery.clock (List.nodup_append'.1 hnd).1 (fun ticket => ?_)
      (fun ticket hp hm => (List.nodup_append'.1 hnd).2.2 hp hm) (fun ticket hq hm => ?_) ht
    · refine Iff.trans (hperm.mem_iff.symm.trans List.mem_append) (or_congr_right ?_)
      exact ⟨fun hm => ⟨hperm.mem_iff.1 (List.mem_append_right _ hm), hm⟩, And.right⟩
    · obtain ⟨arg, harg, rfl⟩ := List.mem_map.1 hm
      exact hreg arg harg (h.delivery.queued_new _ hq)
  · refine h.linked.clockIns i args' ?_
    have hp' : (w.clockIns.set smp (.returned (args.map fun _ => .success)))[i]? =
      some (.waiting args') := hp
    rw [List.getElem?_set] at hp'
    split at hp'
    · split at hp' <;> cases hp'
    · exact hp'
  · have hlog : (w.log ++ logClocked (clock.now w.reads) args).flatMap LogEntry.handedOut =
        w.log.flatMap LogEntry.handedOut := by
      rw [List.flatMap_append, logClocked, handedOut_none fun _ => rfl, List.append_nil]
    exact hlog ▸ h.linked.handed

theorem Inv.getExpiredTicket {cap : Nat} (h : Inv w) (hs : World.Got clock w cap w') : Inv w' := by
  have hready := hs.ready h.ready
  have hsnoc : ∀ smp, (w.gets ++ [GetPhase.waiting])[smp]? = some .waiting ↔
      w.gets[smp]? = some .waiting ∨ smp = w.gets.length := by
    intro smp
    rw [List.getElem?_append]
    split
    · next hlt => exact ⟨.inl, fun hm => hm.resolve_right (Nat.ne_of_lt hlt)⟩
    · next hge =>
      rw [List.getElem?_eq_none (Nat.not_lt.1 hge), List.getElem?_singleton]
      simp only [ite_eq_left_iff, reduceCtorEq, false_or, imp_false, not_not]
      omega
  cases hs with
  | returned ht =>
    refine ⟨hready, h.delivery.take (clock.le_max _) ht, h.linked.clockIns, h.linked.gets_nodup,
      fun smp => ?_, ?_⟩
    · rw [← h.linked.gets]
      refine ⟨fun hp => ListUpdate.getElem?_of_snoc hp (by simp), fun hp => ?_⟩
      have hlt := (List.getElem?_eq_some_iff.1 hp).1
      exact (List.getElem?_append_left hlt).trans hp
    · simp only [List.flatMap_append, handedOut_handed, List.flatMap_singleton, GetPhase.tickets]
      exact h.linked.handed.append_right _
  | waits ht =>
    have hd := h.delivery.take (clock.le_max _) ht
    rw [logHanded, List.map_nil, List.append_nil] at hd
    refine ⟨hready, ⟨hd.pending_nodup, hd.queued_nodup, hd.queued_pending, hd.queued_new, hd.placed,
      hd.known, hd.delivered⟩, h.linked.clockIns, ?_, fun smp => ?_, ?_⟩
    · simp only [List.map_append, List.map_cons, List.map_nil]
      refine List.nodup_append'.2 ⟨h.linked.gets_nodup, List.nodup_singleton _, fun smp hm hlast => ?_⟩
      have hlt := (List.getElem?_eq_some_iff.1 ((h.linked.gets smp).2 hm)).1
      exact Nat.ne_of_lt hlt (List.mem_singleton.1 hlast)
    · refine (hsnoc smp).trans ?_
      rw [h.linked.gets]
      simp
    · simp only [List.flatMap_append, List.flatMap_singleton, GetPhase.tickets, List.append_nil]
      exact h.linked.handed

theorem Inv.void {q' : TemporalOrderedItemMap K K} (h : Inv w)
    (hd : Disciplined w (.voidTicket tickets)) (hready : Ready (w.voided q'))
    (ht : ∀ ticket, q'.table ticket = if ticket ∈ tickets then none else w.table ticket) :
    Inv { w with manager := w.voided q', log := w.log ++ tickets.map LogEntry.voided } := by
  refine ⟨hready, h.delivery.void hd ht, h.linked.clockIns, h.linked.gets_nodup, h.linked.gets, ?_⟩
  rw [List.flatMap_append, handedOut_none fun _ => rfl, List.append_nil]
  exact h.linked.handed

variable [Inhabited K]

theorem Inv.callUpdate (debug : Bool) (clock : SteadyClock) (h : Inv w) :
    ∃ w', w.callUpdate debug clock = .ok w' ∧ Inv w' ∧ SettledFor (clock.now w.reads) w' := by
  obtain ⟨u, e, hinv, hs⟩ := h.update debug clock
  refine ⟨w.afterUpdate u, ?_, hinv, hs⟩
  rw [callUpdate_eq, e]
  rfl

theorem Inv.voidTicket (debug : Bool) (clock : SteadyClock) (h : Inv w)
    (hd : Disciplined w (.voidTicket tickets)) :
    ∃ w', w.voidTicket debug clock tickets = .ok w' ∧ Inv w' ∧
      SettledFor (clock.now w.reads) w' := by
  obtain ⟨q', e, hready, ht⟩ := voidTicket_ok debug clock h.ready tickets
  obtain ⟨u, eu, hinv, hs⟩ := (h.void hd hready ht).update debug clock
  refine ⟨_, ?_, hinv, hs⟩
  rw [e]
  rw [eu]
  rfl

theorem Inv.step {e : Event K} (h : Inv w) (hs : Step debug clock w e w') (hd : Disciplined w e) :
    Inv w' := by
  cases step_iff.1 hs with
  | clockIn e1 => exact h.clockIn hd (clockIn_cases h.ready e1)
  | goClockIn hphase e1 => exact h.goClockIn hphase e1
  | getExpiredTicket e1 => exact h.getExpiredTicket (getExpiredTicket_cases h.ready e1)
  | voidTicket e1 =>
    obtain ⟨w1, e2, hinv, -⟩ := h.voidTicket debug clock hd
    obtain rfl := Except.ok.inj (e2.symm.trans e1)
    exact hinv
  | update e1 =>
    obtain ⟨w1, e2, hinv, -⟩ := h.callUpdate debug clock
    obtain rfl := Except.ok.inj (e2.symm.trans e1)
    exact hinv

end TicketSystem
