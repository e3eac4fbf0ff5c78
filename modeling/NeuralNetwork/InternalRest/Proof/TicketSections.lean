import NeuralNetwork.InternalRest.Proof.TicketUpdate

/-!
# The critical sections of the ticket timeout manager

What each critical section does to a manager that is `Ready`.
-/

namespace TicketSystem

open Cpp Loop Mailbox CyclicUnordered ExpiryQueue TemporalOrderedItemMap

variable {K : Type} [DecidableEq K] {debug : Bool} {clock : SteadyClock}

/-- Where one ticket is not registered, the last critical section of `clock_in` aborts. -/
theorem updateAll_registered {m : TicketTimeoutManager K} {now : Int}
    {args : List (ClockInArgument K)} {q' : TemporalOrderedItemMap K K}
    (h : m.expiryBucketQueue.Good) (e : m.updateAll debug now args = .ok q') :
    ∀ arg ∈ args, m.expiryBucketQueue.table arg.clockedInTicket ≠ none := by
  unfold TicketTimeoutManager.updateAll at e
  generalize m.expiryBucketQueue = q at h e
  induction args generalizing q with
  | nil => exact fun arg hm => absurd hm List.not_mem_nil
  | cons arg args ih =>
    rw [List.foldlM_cons] at e
    obtain ⟨q1, e1, e2⟩ := bind_eq_ok e
    have hreg : q.table arg.clockedInTicket ≠ none := by
      intro hn
      rw [update_abort debug h hn] at e1
      cases e1
    obtain ⟨q1', e1', h1, ht1, -⟩ := update_good debug h hreg (now + arg.expiryDur)
    obtain rfl := Except.ok.inj (e1'.symm.trans e1)
    intro arg' hm
    cases hm with
    | head => exact hreg
    | tail _ hm =>
      by_cases he : arg'.clockedInTicket = arg.clockedInTicket
      · rw [he]
        exact hreg
      · have hreg' := ih q1' h1 e2 arg' hm
        rw [ht1, Function.update_of_ne he] at hreg'
        exact hreg'

namespace World

variable {w w' : World K}

abbrev table (w : World K) : K → Option Int := w.manager.expiryBucketQueue.table

/-! ## clock_in -/

/-- The first critical section of `clock_in` aborts nothing: the call has no more tickets than it may
have, and if it has to wait, the queue of the waiting calls has room. -/
def CanClockIn (debug : Bool) (w : World K) (args : List (ClockInArgument K)) : Prop :=
  ¬ (debug ∧ args.length > w.manager.maxConsumePerLoad) ∧
    (w.manager.isValidClockInArguments args → args ≠ [] →
      w.manager.canDirectDropin args.length ∨
        w.manager.pushWaitBucketVec.size ≠ w.manager.pushWaitBucketVec.cap)

/-- A call of `clock_in` came: it returned at once without a change, took the direct path, or waits. -/
inductive ClockedIn (clock : SteadyClock) (w : World K) (args : List (ClockInArgument K)) :
    World K → Prop
  | same {exceptionArr} :
      ClockedIn clock w args { w with clockIns := w.clockIns ++ [.returned exceptionArr] }
  | direct {q' : TemporalOrderedItemMap K K} : w.manager.isValidClockInArguments args → q'.Good →
      q'.table = clockAll (clock.now w.reads) w.table args →
      ClockedIn clock w args { w with
        manager := { w.manager with expiryBucketQueue := q' }
        reads := w.reads + 1
        clockIns := w.clockIns ++ [.returned (args.map fun _ => .success)]
        log := w.log ++ logClocked (clock.now w.reads) args }
  | waits : w.manager.isValidClockInArguments args → args ≠ [] →
      ClockedIn clock w args { w with
        manager := { w.manager with
          pushWaitBucketVec := { w.manager.pushWaitBucketVec with
            items := w.manager.pushWaitBucketVec.items ++ [⟨args, w.clockIns.length⟩] } }
        reads := w.reads + 1
        clockIns := w.clockIns ++ [.waiting args] }

variable {args : List (ClockInArgument K)}

theorem ClockedIn.ready (h : ClockedIn clock w args w') (hm : Ready w.manager) :
    Ready w'.manager := by
  cases h with
  | same => exact hm
  | direct _ hg => exact ⟨hg, hm.push, hm.pop⟩
  | waits _ hne =>
    refine ⟨hm.good, fun bucket hb => ?_, hm.pop⟩
    rcases List.mem_append.1 hb with hb | hb
    · exact hm.push bucket hb
    · rw [List.mem_singleton.1 hb]
      exact hne

variable (clock) in
theorem clockIn_ok (hm : Ready w.manager) (hc : w.CanClockIn debug args) :
    ∃ w', w.clockIn debug clock args = .ok w' ∧ ClockedIn clock w args w' := by
  obtain ⟨hlen, hroom⟩ := hc
  unfold clockIn
  rw [if_neg hlen]
  by_cases hvalid : w.manager.isValidClockInArguments args
  · rw [if_neg (not_not.2 hvalid)]
    by_cases hne : args = []
    · exact ⟨_, if_pos hne, .same⟩
    · rw [if_neg hne]
      by_cases hdirect : w.manager.canDirectDropin args.length
      · rw [if_pos hdirect]
        obtain ⟨q', e, hg, ht, -⟩ := addOrUpdateAll_ok debug (clock.now w.reads) hm.good hdirect.1
        exact ⟨_, by rw [e]; rfl, .direct hvalid hg ht⟩
      · rw [if_neg hdirect]
        have hcap := (hroom hvalid hne).resolve_left hdirect
        refine ⟨_, ?_, .waits hvalid hne⟩
        rw [Pow2CyclicQueue.pushBackNothrow, if_neg hcap]
        rfl
  · exact ⟨_, if_pos hvalid, .same⟩

theorem clockIn_cases (hm : Ready w.manager) (e : w.clockIn debug clock args = .ok w') :
    ClockedIn clock w args w' := by
  have hcan : w.CanClockIn debug args := by
    unfold clockIn at e
    dsimp only at e
    split at e
    · cases e
    · next hlen =>
      refine ⟨hlen, fun hvalid hne => ?_⟩
      by_contra hno
      rw [not_or, not_not] at hno
      rw [if_neg (not_not.2 hvalid), if_neg hne, if_neg hno.1, Pow2CyclicQueue.pushBackNothrow,
        if_pos hno.2] at e
      cases e
  obtain ⟨w1, e1, h1⟩ := clockIn_ok clock hm hcan
  obtain rfl := Except.ok.inj (e1.symm.trans e)
  exact h1

def clockedLate (clock : SteadyClock) (w : World K) (smp : Nat) (args : List (ClockInArgument K))
    (q' : TemporalOrderedItemMap K K) : World K :=
  { w with
    manager := { w.manager with expiryBucketQueue := q' }
    reads := w.reads + 1
    clockIns := w.clockIns.set smp (.returned (args.map fun _ => .success))
    log := w.log ++ logClocked (clock.now w.reads) args }

variable (debug clock) in
theorem goClockIn_ok (hm : Ready w.manager) (smp : Nat)
    (hreg : ∀ arg ∈ args, w.table arg.clockedInTicket ≠ none) :
    ∃ q', w.goClockIn debug clock smp args = .ok (w.clockedLate clock smp args q') ∧ q'.Good ∧
      q'.table = clockAll (clock.now w.reads) w.table args := by
  obtain ⟨q', e, hg, ht, -⟩ := updateAll_ok debug (clock.now w.reads) hm.good hreg
  refine ⟨q', ?_, hg, ht⟩
  unfold goClockIn
  dsimp only
  rw [e]
  rfl

theorem goClockIn_cases (hm : Ready w.manager) {smp : Nat}
    (e : w.goClockIn debug clock smp args = .ok w') :
    (∀ arg ∈ args, w.table arg.clockedInTicket ≠ none) ∧
      ∃ q', w' = w.clockedLate clock smp args q' ∧ q'.Good ∧
        q'.table = clockAll (clock.now w.reads) w.table args := by
  have hreg : ∀ arg ∈ args, w.table arg.clockedInTicket ≠ none := by
    obtain ⟨q', e1, -⟩ := bind_eq_ok e
    exact updateAll_registered hm.good e1
  obtain ⟨q', e1, hg, ht⟩ := goClockIn_ok debug clock hm smp hreg
  exact ⟨hreg, q', Except.ok.inj (e.symm.trans e1), hg, ht⟩

/-! ## get_expired_ticket, void_ticket, update -/

/-- A call of `get_expired_ticket` returned what it took, or waits with nothing. -/
inductive Got (clock : SteadyClock) (w : World K) (cap : Nat) : World K → Prop
  | returned {q' tickets} : Taken (clock.now w.reads) w.manager.expiryBucketQueue q' tickets →
      Got clock w cap { w with
        manager := { w.manager with expiryBucketQueue := q' }
        reads := w.reads + 1
        gets := w.gets ++ [.returned tickets]
        log := w.log ++ logHanded (clock.now w.reads) tickets }
  | waits {q'} : Taken (clock.now w.reads) w.manager.expiryBucketQueue q' [] → 0 < cap →
      Got clock w cap { w with
        manager := { w.manager with
          expiryBucketQueue := q'
          popWaitBucketVec := { w.manager.popWaitBucketVec with
            items := w.manager.popWaitBucketVec.items ++ [⟨[], cap, w.gets.length⟩] } }
        reads := w.reads + 1
        gets := w.gets ++ [.waiting] }

theorem Got.ready {cap : Nat} (h : Got clock w cap w') (hm : Ready w.manager) : Ready w'.manager := by
  cases h with
  | returned ht => exact ⟨ht.1, hm.push, hm.pop⟩
  | waits ht hcap =>
    refine ⟨ht.1, hm.push, fun bucket hb => ?_⟩
    rcases List.mem_append.1 hb with hb | hb
    · exact hm.pop bucket hb
    · rw [List.mem_singleton.1 hb]
      exact ⟨rfl, hcap⟩

variable [Inhabited K]

theorem getExpiredTicket_cases (hm : Ready w.manager) {cap : Nat}
    (e : w.getExpiredTicket debug clock cap = .ok w') : Got clock w cap w' := by
  obtain ⟨q', tickets, et, hg, ht, hnd, hexp, -, hc⟩ := takeExpired_ok debug hm.good (clock.now w.reads) cap
  unfold getExpiredTicket at e
  dsimp only at e
  rw [et, ok_bind] at e
  split at e
  · next hwait =>
    obtain ⟨hcap, rfl⟩ := hwait
    obtain ⟨v, ev, e⟩ := bind_eq_ok e
    obtain ⟨-, rfl⟩ := Pow2CyclicQueue.pushBackNothrow_ok ev
    cases e
    exact .waits ⟨hg, ht, hnd, hexp, hc⟩ (Nat.pos_of_ne_zero hcap)
  · cases e
    exact .returned ⟨hg, ht, hnd, hexp, hc⟩

def voided (w : World K) (q' : TemporalOrderedItemMap K K) : TicketTimeoutManager K :=
  { w.manager with expiryBucketQueue := q' }

variable (debug clock) in
theorem voidTicket_ok (hm : Ready w.manager) (tickets : List K) :
    ∃ q', w.voidTicket debug clock tickets =
        (internalUpdate debug clock w.reads (w.voided q')).map
          { w with log := w.log ++ tickets.map LogEntry.voided }.afterUpdate ∧
      Ready (w.voided q') ∧
      ∀ ticket, q'.table ticket = if ticket ∈ tickets then none else w.table ticket := by
  obtain ⟨q', e, hg, ht, -⟩ := eraseAll_ok debug hm.good tickets
  refine ⟨q', ?_, ⟨hg, hm.push, hm.pop⟩, ht⟩
  unfold voidTicket
  rw [e, ok_bind]
  unfold voided
  cases internalUpdate debug clock w.reads { w.manager with expiryBucketQueue := q' } <;> rfl

theorem callUpdate_eq : w.callUpdate debug clock =
    (internalUpdate debug clock w.reads w.manager).map w.afterUpdate := by
  unfold callUpdate
  cases internalUpdate debug clock w.reads w.manager <;> rfl

end World

variable [Inhabited K] {w w' : World K}

inductive Sectioned (debug : Bool) (clock : SteadyClock) (w : World K) : Event K → World K → Prop
  | clockIn {args} {w' : World K} : w.clockIn debug clock args = .ok w' →
      Sectioned debug clock w (.clockIn args) w'
  | goClockIn {smp args} {w' : World K} : w.clockIns[smp]? = some (.woken args) →
      w.goClockIn debug clock smp args = .ok w' → Sectioned debug clock w (.goClockIn smp) w'
  | getExpiredTicket {cap} {w' : World K} : w.getExpiredTicket debug clock cap = .ok w' →
      Sectioned debug clock w (.getExpiredTicket cap) w'
  | voidTicket {tickets} {w' : World K} : w.voidTicket debug clock tickets = .ok w' →
      Sectioned debug clock w (.voidTicket tickets) w'
  | update {w' : World K} : w.callUpdate debug clock = .ok w' → Sectioned debug clock w .update w'

theorem step_iff {e : Event K} : Step debug clock w e w' ↔ Sectioned debug clock w e w' := by
  have hmap : ∀ {x : Except Fault (World K)}, x.map some = .ok (some w') ↔ x = .ok w' := by
    intro x
    cases x <;> simp [Except.map]
  unfold Step
  cases e with
  | clockIn args =>
    refine hmap.trans ⟨.clockIn, fun h => ?_⟩
    cases h with | clockIn h => exact h
  | goClockIn smp =>
    simp only [World.step]
    constructor
    · intro h
      split at h
      · next args hphase => exact .goClockIn hphase (hmap.1 h)
      · cases h
    · intro h
      cases h with
      | goClockIn hphase h =>
        rw [hphase]
        exact hmap.2 h
  | getExpiredTicket cap =>
    refine hmap.trans ⟨.getExpiredTicket, fun h => ?_⟩
    cases h with | getExpiredTicket h => exact h
  | voidTicket tickets =>
    refine hmap.trans ⟨.voidTicket, fun h => ?_⟩
    cases h with | voidTicket h => exact h
  | update =>
    refine hmap.trans ⟨.update, fun h => ?_⟩
    cases h with | update h => exact h

theorem Fresh.ready (h : Fresh w) :
    Ready w.manager ∧ (∀ ticket, w.table ticket = none) ∧ w.manager.pushWaitBucketVec.items = [] ∧
      w.manager.popWaitBucketVec.items = [] ∧ w.clockIns = [] ∧ w.gets = [] ∧ w.log = [] := by
  obtain ⟨a, b, c, d, m, e, rfl⟩ := h
  unfold getTicketTimeoutManager at e
  split at e
  · cases e
  split at e
  · cases e
  split at e
  · cases e
  split at e
  · cases e
  split at e
  · cases e
  · next hcap =>
    cases e
    have hlt : c + max (c >>> 4) 1 < 2 ^ 64 := by
      have hcap := (not_not.1 hcap).2
      omega
    have hg : (TemporalOrderedItemMap.make (c + max (c >>> 4) 1) :
        TemporalOrderedItemMap K K).Good := ⟨make_inv hlt, make_sorted _⟩
    refine ⟨⟨hg, by simp [Pow2CyclicQueue.make], by simp [Pow2CyclicQueue.make]⟩, ?_, rfl, rfl, rfl,
      rfl, rfl⟩
    intro ticket
    by_contra hne
    obtain ⟨expiry, hm⟩ := hg.mem_ids.1 ((hg.table_isSome).1 hne)
    simp [TemporalOrderedItemMap.make, TemporalOrderedItemMap.entries] at hm

end TicketSystem
