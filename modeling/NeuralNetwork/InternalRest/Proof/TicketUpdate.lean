import Mathlib.Logic.Relation
import NeuralNetwork.InternalRest.Proof.TicketTimeoutManager

/-!
# The loop of internal_update

`round_cases` says all that one round does: it registers a waiting ticket, it serves a waiting array, or it
ends the loop in a state that is `Settled`. `internalUpdate_ok` is the rule for the whole loop, which always
ends.
-/

namespace TicketSystem

open Cpp Loop Mailbox CyclicUnordered ExpiryQueue TemporalOrderedItemMap

variable {K : Type} [DecidableEq K]

/-- What the critical sections keep: the register is in order, a waiting call of `clock_in` has
tickets left, and a waiting array is empty and has room. -/
structure Ready (m : TicketTimeoutManager K) : Prop where
  good : m.expiryBucketQueue.Good
  push : ∀ bucket ∈ m.pushWaitBucketVec.items, bucket.clockInArr ≠ []
  pop : ∀ bucket ∈ m.popWaitBucketVec.items, bucket.outputArr = [] ∧ 0 < bucket.outputArrCap

/-- If there is room for the first ticket that waits, it is not registered. -/
def NextNew (m : TicketTimeoutManager K) : Prop :=
  m.expiryBucketQueue.size ≠ m.expiryBucketQueue.capacity →
    ∀ smp arg args rest, m.pushWaitBucketVec.items = ⟨arg :: args, smp⟩ :: rest →
      m.expiryBucketQueue.table arg.clockedInTicket = none

/-- No ticket waits while there is room, and no array waits while a ticket has expired. -/
def Settled (now : Int) (m : TicketTimeoutManager K) : Prop :=
  (m.expiryBucketQueue.size = m.expiryBucketQueue.capacity ∨ m.pushWaitBucketVec.items = []) ∧
    (m.popWaitBucketVec.items = [] ∨
      ∀ ticket expiry, m.expiryBucketQueue.table ticket = some expiry → now ≤ expiry)

/-! ## Rounds -/

/-- The register `q'` has all tickets of `q` and the new one, which never expires. -/
def Placed (q q' : TemporalOrderedItemMap K K) (ticket : K) : Prop :=
  q'.Good ∧ q.table ticket = none ∧ q'.table = Function.update q.table ticket (some timePointMax) ∧
    q'.capacity = q.capacity ∧ q'.size = q.size + 1

/-- Some expired tickets of the register `q` were taken, and left `q'`. -/
def Taken (now : Int) (q q' : TemporalOrderedItemMap K K) (tickets : List K) : Prop :=
  q'.Good ∧ (∀ ticket, q'.table ticket = if ticket ∈ tickets then none else q.table ticket) ∧
    tickets.Nodup ∧ (∀ ticket ∈ tickets, ∃ expiry, q.table ticket = some expiry ∧ expiry < now) ∧
    q'.capacity = q.capacity

namespace Update

variable {debug : Bool} {clock : SteadyClock} {now : Int} {u u' : Update K}

inductive Rounded (clock : SteadyClock) : Update K → Update K → Prop
  /-- A ticket was registered, and its call has more of them. -/
  | kept {u : Update K} {arg next args smp rest q'} :
      u.manager.pushWaitBucketVec.items = ⟨arg :: next :: args, smp⟩ :: rest →
      Placed u.manager.expiryBucketQueue q' arg.clockedInTicket →
      Rounded clock u { u with
        manager := { u.manager with
          expiryBucketQueue := q'
          pushWaitBucketVec := { u.manager.pushWaitBucketVec with
            items := ⟨next :: args, smp⟩ :: rest } } }
  /-- The last ticket of a call was registered. -/
  | woke {u : Update K} {arg smp rest q'} :
      u.manager.pushWaitBucketVec.items = ⟨[arg], smp⟩ :: rest →
      Placed u.manager.expiryBucketQueue q' arg.clockedInTicket →
      Rounded clock u { u with
        manager := { u.manager with
          expiryBucketQueue := q'
          pushWaitBucketVec := { u.manager.pushWaitBucketVec with items := rest } }
        woken := u.woken ++ [smp] }
  /-- An array got tickets. -/
  | served {u : Update K} {cap smp rest q' tickets} :
      u.manager.popWaitBucketVec.items = ⟨[], cap, smp⟩ :: rest →
      Taken (clock.now u.reads) u.manager.expiryBucketQueue q' tickets →
      tickets ≠ [] →
      Rounded clock u { u with
        reads := u.reads + 1
        manager := { u.manager with
          expiryBucketQueue := q'
          popWaitBucketVec := { u.manager.popWaitBucketVec with items := rest } }
        served := u.served ++ [(smp, clock.now u.reads, tickets)] }

theorem Rounded.ready (h : Rounded clock u u') (hm : Ready u.manager) : Ready u'.manager := by
  cases h with
  | kept hp hq =>
    obtain ⟨hgood, -⟩ := hq
    have hrest := fun bucket hb => hm.push bucket (hp ▸ List.mem_cons_of_mem _ hb)
    exact ⟨hgood, List.forall_mem_cons.2 ⟨List.cons_ne_nil _ _, hrest⟩, hm.pop⟩
  | woke hp hq =>
    obtain ⟨hgood, -⟩ := hq
    exact ⟨hgood, fun bucket hb => hm.push bucket (hp ▸ List.mem_cons_of_mem _ hb), hm.pop⟩
  | served hp hq =>
    obtain ⟨hgood, -⟩ := hq
    exact ⟨hgood, hm.push, fun bucket hb => hm.pop bucket (hp ▸ List.mem_cons_of_mem _ hb)⟩

theorem Rounded.waits_lt (h : Rounded clock u u') : u'.waits < u.waits := by
  cases h with
  | kept hp =>
    simp only [waits, hp, List.map_cons, List.sum_cons, List.length_cons]
    omega
  | woke hp =>
    simp only [waits, hp, List.map_cons, List.sum_cons, List.length_cons]
    omega
  | served hp =>
    simp only [waits, hp, List.length_cons]
    omega

theorem Rounded.reads_le (h : Rounded clock u u') : u.reads ≤ u'.reads := by
  cases h with
  | kept => exact Nat.le_refl _
  | woke => exact Nat.le_refl _
  | served => exact Nat.le_succ _

variable (debug)

theorem resolveOnePushDoable_ok (clock : SteadyClock) (hm : Ready u.manager) (hnew : NextNew u.manager)
    (hroom : u.manager.expiryBucketQueue.size ≠ u.manager.expiryBucketQueue.capacity)
    (hwait : u.manager.pushWaitBucketVec.items ≠ []) :
    ∃ u', u.resolveOnePushDoable debug = .ok u' ∧ Rounded clock u u' := by
  obtain ⟨⟨arr, smp⟩, rest, hitems⟩ := List.exists_cons_of_ne_nil hwait
  have harr : arr ≠ [] := hm.push _ (hitems ▸ List.mem_cons_self)
  obtain ⟨arg, args, rfl⟩ := List.exists_cons_of_ne_nil harr
  have hticket := hnew hroom smp arg args rest hitems
  obtain ⟨q', e, hg, ht, hc, hs⟩ := add_good debug hm.good hticket hroom timePointMax
  unfold resolveOnePushDoable
  rw [if_neg hroom, hitems]
  dsimp only
  rw [e, ok_bind]
  cases args with
  | nil => exact ⟨_, rfl, .woke hitems ⟨hg, hticket, ht, hc, hs⟩⟩
  | cons next args => exact ⟨_, rfl, .kept hitems ⟨hg, hticket, ht, hc, hs⟩⟩

variable [Inhabited K]

theorem resolveOnePopDoable_ok (hm : Ready u.manager) (hclock : now ≤ clock.now u.reads)
    (hexpired : ∃ ticket expiry, u.manager.expiryBucketQueue.table ticket = some expiry ∧ expiry < now)
    (hwait : u.manager.popWaitBucketVec.items ≠ []) :
    ∃ u', u.resolveOnePopDoable debug clock = .ok u' ∧ Rounded clock u u' := by
  obtain ⟨⟨arr, cap, smp⟩, rest, hitems⟩ := List.exists_cons_of_ne_nil hwait
  obtain ⟨harr, hcap⟩ := hm.pop _ (hitems ▸ List.mem_cons_self)
  subst harr
  obtain ⟨b, eb, -⟩ := hasExpired_good hm.good (clock.now u.reads)
  obtain ⟨q', tickets, e, hg, ht, hnd, hexp, hall, hc⟩ :=
    takeExpired_ok debug hm.good (clock.now u.reads) cap
  have hsome : tickets ≠ [] := by
    intro hnil
    subst hnil
    obtain ⟨ticket, expiry, hticket, hlt⟩ := hexpired
    have hin : q'.table ticket = some expiry := by
      rw [ht, if_neg List.not_mem_nil]
      exact hticket
    have := hall hcap ticket expiry hin
    omega
  unfold resolveOnePopDoable
  dsimp only
  rw [hitems]
  dsimp only
  rw [eb, ok_bind, if_neg (fun h => (Nat.ne_of_lt hcap) h.2), List.length_nil, Nat.sub_zero, e, ok_bind]
  obtain ⟨t, ts, rfl⟩ := List.exists_cons_of_ne_nil hsome
  exact ⟨_, rfl, .served hitems ⟨hg, ht, hnd, hexp, hc⟩ hsome⟩

theorem round_cases (hm : Ready u.manager) (hnew : NextNew u.manager)
    (hclock : now ≤ clock.now u.reads) :
    (∃ u', u.round debug clock now = .ok (.yield u') ∧ Rounded clock u u') ∨
      u.round debug clock now = .ok (.done u) ∧ Settled now u.manager := by
  unfold round
  dsimp only
  split
  · next h =>
    obtain ⟨u', e, hr⟩ := resolveOnePushDoable_ok debug clock hm hnew h.1 h.2
    exact .inl ⟨u', by rw [e]; rfl, hr⟩
  · next h =>
    have hpush : u.manager.expiryBucketQueue.size = u.manager.expiryBucketQueue.capacity ∨
        u.manager.pushWaitBucketVec.items = [] := by
      rw [Classical.not_and_iff_not_or_not, not_not, not_not] at h
      exact h
    obtain ⟨b, eb, hb⟩ := hasExpired_good hm.good now
    rw [eb, ok_bind]
    split
    · next hpop =>
      obtain ⟨u', e, hr⟩ :=
        resolveOnePopDoable_ok debug hm hclock (hb.1 hpop.2) hpop.1
      exact .inl ⟨u', by rw [e]; rfl, hr⟩
    · next hpop =>
      refine .inr ⟨rfl, hpush, ?_⟩
      by_cases hnil : u.manager.popWaitBucketVec.items = []
      · exact .inl hnil
      · refine .inr fun ticket expiry ht => ?_
        by_contra hlt
        exact hpop ⟨hnil, hb.2 ⟨ticket, expiry, ht, Int.not_le.1 hlt⟩⟩

end Update

/-! ## The loop -/

variable [Inhabited K] {debug : Bool} {clock : SteadyClock} {reads : Nat} {m : TicketTimeoutManager K}

variable (debug) in
/-- The loop ends, in a settled state, and keeps what every round keeps; as long as that is so, it
must not come to a ticket that is registered already. -/
theorem internalUpdate_ok (P : Update K → Prop) (hm : Ready m) (h0 : P ⟨m, reads + 1, [], []⟩)
    (hnew : ∀ u, P u → NextNew u.manager)
    (hstep : ∀ u u', P u → Update.Rounded clock u u' →
      u.round debug clock (clock.now reads) = .ok (.yield u') → P u') :
    ∃ u, internalUpdate debug clock reads m = .ok u ∧ Ready u.manager ∧ P u ∧
      Settled (clock.now reads) u.manager := by
  refine whileLoop_ok (fun u => Ready u.manager ∧ clock.now reads ≤ clock.now u.reads ∧ P u) _
    Update.waits ⟨hm, clock.mono (Nat.le_succ reads), h0⟩ (Nat.lt_succ_self _) ?_
  rintro u ⟨hu, hclock, hP⟩
  rcases Update.round_cases debug hu (hnew u hP) hclock with ⟨u', e, hr⟩ | ⟨e, hs⟩
  · have hclock' := hclock.trans (clock.mono hr.reads_le)
    exact .inl ⟨u', e, ⟨hr.ready hu, hclock', hstep u u' hP hr e⟩, hr.waits_lt⟩
  · exact .inr ⟨u, e, hu, hP, hs⟩

end TicketSystem
