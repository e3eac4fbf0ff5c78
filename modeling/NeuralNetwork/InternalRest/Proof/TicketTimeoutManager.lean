import NeuralNetwork.InternalRest.Proof.AckExpiryQueue
import NeuralNetwork.InternalRest.TicketTimeoutManager

/-!
# The register of the ticket timeout manager as a table

`table` gives the registered tickets their expiry times, and `Good` is what every operation keeps. The
critical sections change it as they say.
-/

namespace ExpiryQueue.TemporalOrderedItemMap

open Cpp Loop Mailbox TicketSystem

variable {K : Type} {debug : Bool} {q q' : TemporalOrderedItemMap K K} {ticket : K} {expiry : Int}

structure Good (q : TemporalOrderedItemMap K K) : Prop extends Inv id q where
  sorted : q.Sorted

theorem Good.entries_nodup (h : q.Good) : (q.entries.map Prod.fst).Nodup := by
  have := h.entries_ids
  simp only [id_eq] at this
  rw [this]
  exact h.keys_nodup

theorem Good.mem_ids (h : q.Good) : ticket ∈ q.ids ↔ ∃ expiry, (ticket, expiry) ∈ q.entries := by
  rw [← h.entries_ids]
  simp

variable [DecidableEq K]

def table (q : TemporalOrderedItemMap K K) : K → Option Int := fun ticket => q.entries.lookup ticket

theorem Good.table_iff (h : q.Good) : q.table ticket = some expiry ↔ (ticket, expiry) ∈ q.entries := by
  unfold table
  have hn := h.entries_nodup
  generalize q.entries = l at hn ⊢
  induction l with
  | nil => simp
  | cons x l ih =>
    obtain ⟨hx, hn⟩ := List.nodup_cons.1 hn
    rw [List.lookup_cons]
    by_cases he : ticket = x.1
    · subst he
      simp only [beq_self_eq_true, List.mem_cons]
      constructor
      · rintro h
        exact .inl (Prod.ext rfl (Option.some.inj h).symm)
      · rintro (h | h)
        · exact congrArg some (congrArg Prod.snd h).symm
        · exact absurd (List.mem_map_of_mem h) hx
    · rw [beq_false_of_ne he]
      simp only [ih hn, List.mem_cons]
      refine ⟨.inr, fun h => h.resolve_left fun h => he (congrArg Prod.fst h)⟩

theorem Good.table_isSome (h : q.Good) : q.table ticket ≠ none ↔ ticket ∈ q.ids := by
  rw [h.mem_ids, Option.ne_none_iff_exists']
  exact exists_congr fun _ => h.table_iff

theorem Good.table_eq (h : q.Good) {t : K → Option Int}
    (ht : ∀ ticket expiry, (ticket, expiry) ∈ q.entries ↔ t ticket = some expiry) : q.table = t := by
  funext ticket
  refine Option.ext fun expiry => ?_
  rw [h.table_iff, ht]

/-! ## The operations -/

variable (debug)

theorem add_good (h : q.Good) (hnew : q.table ticket = none) (hroom : q.size ≠ q.capacity)
    (expiry : Int) : ∃ q', nothrow (q.add debug id ticket expiry) = .ok q' ∧ q'.Good ∧
      q'.table = Function.update q.table ticket (some expiry) ∧ q'.capacity = q.capacity ∧
      q'.size = q.size + 1 := by
  have hids : ticket ∉ q.ids := fun hm => (h.table_isSome).2 hm hnew
  rcases add_ok debug h.toInv ticket expiry with ⟨hm, -⟩ | ⟨-, hfull, -⟩ | ⟨-, -, q', e, hinv, he, hc, hs⟩
  · exact absurd hm hids
  · exact absurd hfull hroom
  · have hg : q'.Good := ⟨hinv, hs h.sorted⟩
    refine ⟨q', ?_, hg, ?_, hc, ?_⟩
    · rw [nothrow, e]
      rfl
    · refine hg.table_eq fun t e => ?_
      rw [he, List.mem_append, List.mem_singleton, ← h.table_iff]
      by_cases ht : t = ticket
      · subst ht
        simp [hnew, eq_comm]
      · simp [ht]
    · rw [← hg.length_entries, he, List.length_append, h.length_entries]
      rfl

theorem update_good (h : q.Good) (hm : q.table ticket ≠ none) (expiry : Int) :
    ∃ q', nothrow (q.update debug ticket expiry) = .ok q' ∧ q'.Good ∧
      q'.table = Function.update q.table ticket (some expiry) ∧ q'.capacity = q.capacity ∧
      q'.size = q.size := by
  rcases update_ok debug h.toInv ticket expiry with ⟨hn, -⟩ | ⟨hids, q', e, hinv, he, hc, hs⟩
  · exact absurd ((h.table_isSome).1 hm) hn
  · have hg : q'.Good := ⟨hinv, hs h.sorted⟩
    refine ⟨q', ?_, hg, ?_, hc, ?_⟩
    · rw [nothrow, e]
      rfl
    · refine hg.table_eq fun t e => ?_
      rw [he]
      by_cases ht : t = ticket
      · subst ht
        rw [Function.update_self]
        obtain ⟨old, hold⟩ := (h.mem_ids).1 hids
        constructor
        · intro hmem
          obtain ⟨x, -, hx⟩ := List.mem_map.1 hmem
          by_cases hxt : x.1 = t
          · rw [id_eq, if_pos hxt] at hx
            exact congrArg some (congrArg Prod.snd hx)
          · rw [id_eq, if_neg hxt] at hx
            exact absurd (congrArg Prod.fst hx) hxt
        · intro heq
          cases heq
          exact List.mem_map.2 ⟨(t, old), hold, by simp⟩
      · rw [Function.update_of_ne ht, h.table_iff]
        constructor
        · intro hmem
          obtain ⟨x, hxm, hx⟩ := List.mem_map.1 hmem
          by_cases hxt : x.1 = ticket
          · rw [id_eq, if_pos hxt] at hx
            exact absurd ((congrArg Prod.fst hx).symm.trans hxt) ht
          · rw [id_eq, if_neg hxt] at hx
            exact hx ▸ hxm
        · intro hmem
          exact List.mem_map.2 ⟨(t, e), hmem, by simp [ht]⟩
    · rw [← hg.length_entries, he, List.length_map, h.length_entries]

theorem update_abort (h : q.Good) (hn : q.table ticket = none) (expiry : Int) :
    nothrow (q.update debug ticket expiry) = .error .abort := by
  rcases update_ok debug h.toInv ticket expiry with ⟨-, e⟩ | ⟨hids, -⟩
  · rw [nothrow, e]
    rfl
  · exact absurd hn ((h.table_isSome).2 hids)

theorem addOrUpdate_good (h : q.Good) (ticket : K) (hroom : q.size ≠ q.capacity) (expiry : Int) :
    ∃ q', nothrow (q.addOrUpdate debug id ticket expiry) = .ok q' ∧ q'.Good ∧
      q'.table = Function.update q.table ticket (some expiry) ∧ q'.capacity = q.capacity ∧
      q'.size ≤ q.size + 1 := by
  unfold addOrUpdate
  by_cases hm : q.table ticket = none
  · have hids : ticket ∉ q.ids := fun hmem => (h.table_isSome).2 hmem hm
    rw [id_eq, find_eq_none.2 hids]
    obtain ⟨q', e, hg, ht, hc, hs⟩ := add_good debug h hm hroom expiry
    exact ⟨q', e, hg, ht, hc, hs.le⟩
  · have hsome : (q.find ticket).isSome := by
      rw [Option.isSome_iff_ne_none]
      exact fun hnone => find_eq_none.1 hnone ((h.table_isSome).1 hm)
    rw [id_eq, if_pos hsome]
    obtain ⟨q', e, hg, ht, hc, hs⟩ := update_good debug h hm expiry
    exact ⟨q', e, hg, ht, hc, hs ▸ Nat.le_succ _⟩

theorem hasExpired_good (h : q.Good) (now : Int) : ∃ b, q.hasExpiredItem now = .ok b ∧
    (b = true ↔ ∃ ticket expiry, q.table ticket = some expiry ∧ expiry < now) := by
  obtain ⟨b, e, hb⟩ := hasExpiredItem_ok h.toInv h.sorted now
  refine ⟨b, e, hb.trans ⟨?_, ?_⟩⟩
  · rintro ⟨x, hx, hlt⟩
    exact ⟨x.1, x.2, h.table_iff.2 hx, hlt⟩
  · rintro ⟨t, e, ht, hlt⟩
    exact ⟨(t, e), h.table_iff.1 ht, hlt⟩

variable [Inhabited K]

theorem erase_good (h : q.Good) (ticket : K) :
    ∃ q', q.erase debug ticket = .ok q' ∧ q'.Good ∧
      q'.table = Function.update q.table ticket none ∧ q'.capacity = q.capacity := by
  obtain ⟨q', e, hinv, he, hc, hs⟩ := erase_ok debug h.toInv ticket
  have hg : q'.Good := ⟨hinv, hs h.sorted⟩
  refine ⟨q', e, hg, hg.table_eq fun t e => ?_, hc⟩
  rw [he, List.mem_filter, ← h.table_iff]
  by_cases ht : t = ticket
  · subst ht
    simp
  · simp [ht]

theorem getExpiredItem_isSome {now : Int} {r : Option K} (e : q.hasExpiredItem now = .ok true)
    (e' : q.getExpiredItem debug id now = .ok (q', r)) : r ≠ none := by
  unfold hasExpiredItem at e
  unfold getExpiredItem at e'
  split at e
  · cases e
  · next h0 =>
    rw [if_neg h0] at e'
    obtain ⟨p, hp, e⟩ := bind_eq_ok e
    have hlt := of_decide_eq_true (Except.ok.inj e)
    rw [hp, ok_bind, if_neg (Int.not_le.2 hlt)] at e'
    obtain ⟨q1, -, e'⟩ := bind_eq_ok e'
    cases e'
    simp

theorem getExpired_good (h : q.Good) {now : Int} (e : q.hasExpiredItem now = .ok true) :
    ∃ q' ticket expiry, q.getExpiredItem debug id now = .ok (q', some ticket) ∧ q'.Good ∧
      q.table ticket = some expiry ∧ expiry < now ∧
      q'.table = Function.update q.table ticket none ∧ q'.capacity = q.capacity := by
  obtain ⟨q', r, e', hinv, hc, hs, hr⟩ := getExpiredItem_ok debug h.toInv now
  have hsome := getExpiredItem_isSome debug e e'
  rcases hr with ⟨hnone, -⟩ | ⟨ticket, expiry, rfl, hlt, hperm⟩
  · exact absurd hnone hsome
  · have hg : q'.Good := ⟨hinv, hs h.sorted⟩
    have hnodup : (ticket :: q'.entries.map Prod.fst).Nodup :=
      ((hperm.map Prod.fst).nodup_iff).1 h.entries_nodup
    refine ⟨q', ticket, expiry, e', hg, ?_, hlt, hg.table_eq fun t e => ?_, hc⟩
    · exact h.table_iff.2 (hperm.mem_iff.2 List.mem_cons_self)
    · by_cases ht : t = ticket
      · subst ht
        simp only [Function.update_self, reduceCtorEq, iff_false]
        exact fun hm => (List.nodup_cons.1 hnodup).1 (List.mem_map_of_mem (f := Prod.fst) hm)
      · rw [Function.update_of_ne ht, h.table_iff, hperm.mem_iff]
        simp [ht]

end ExpiryQueue.TemporalOrderedItemMap

namespace TicketSystem

open Cpp Loop Mailbox ExpiryQueue TemporalOrderedItemMap

variable {K : Type} [DecidableEq K] {debug : Bool} {q : TemporalOrderedItemMap K K}
  {m : TicketTimeoutManager K} {now : Int} {args : List (ClockInArgument K)}

/-! ## Critical sections -/

/-- The table after the tickets of a call of `clock_in` were given their expiry times. -/
def clockAll (now : Int) (t : K → Option Int) (args : List (ClockInArgument K)) : K → Option Int :=
  args.foldl (fun t arg => Function.update t arg.clockedInTicket (some (now + arg.expiryDur))) t

theorem clockAll_of_not_mem {t : K → Option Int} {ticket : K}
    (h : ticket ∉ args.map (·.clockedInTicket)) : clockAll now t args ticket = t ticket := by
  induction args generalizing t with
  | nil => rfl
  | cons arg args ih =>
    rw [List.map_cons, List.mem_cons, not_or] at h
    exact (ih h.2).trans (Function.update_of_ne h.1 _ _)

theorem clockAll_congr {t t' : K → Option Int} {ticket : K}
    (h : ticket ∈ args.map (·.clockedInTicket)) :
    clockAll now t args ticket = clockAll now t' args ticket := by
  induction args generalizing t t' with
  | nil => cases h
  | cons arg args ih =>
    by_cases hm : ticket ∈ args.map (·.clockedInTicket)
    · exact ih hm
    · have he : ticket = arg.clockedInTicket := (List.mem_cons.1 h).resolve_right hm
      refine (clockAll_of_not_mem hm).trans (Eq.trans ?_ (clockAll_of_not_mem hm).symm)
      dsimp only
      rw [he, Function.update_self, Function.update_self]

variable (debug now) in
theorem addOrUpdateAll_ok (h : m.expiryBucketQueue.Good)
    (hroom : m.expiryBucketQueue.size + args.length ≤ m.expiryBucketQueue.capacity) :
    ∃ q', m.addOrUpdateAll debug now args = .ok q' ∧ q'.Good ∧
      q'.table = clockAll now m.expiryBucketQueue.table args ∧
      q'.capacity = m.expiryBucketQueue.capacity := by
  unfold TicketTimeoutManager.addOrUpdateAll
  generalize m.expiryBucketQueue = q at h hroom
  induction args generalizing q with
  | nil => exact ⟨q, rfl, h, rfl, rfl⟩
  | cons arg args ih =>
    rw [List.length_cons] at hroom
    obtain ⟨q1, e1, h1, ht1, hc1, hs1⟩ :=
      addOrUpdate_good debug h arg.clockedInTicket (by omega) (now + arg.expiryDur)
    obtain ⟨q2, e2, h2, ht2, hc2⟩ := ih q1 h1 (by omega)
    refine ⟨q2, ?_, h2, ?_, hc2.trans hc1⟩
    · rw [List.foldlM_cons, e1, ok_bind, e2]
    · rw [ht2, ht1]
      rfl

variable (debug now) in
theorem updateAll_ok (h : m.expiryBucketQueue.Good)
    (hreg : ∀ arg ∈ args, m.expiryBucketQueue.table arg.clockedInTicket ≠ none) :
    ∃ q', m.updateAll debug now args = .ok q' ∧ q'.Good ∧
      q'.table = clockAll now m.expiryBucketQueue.table args ∧
      q'.capacity = m.expiryBucketQueue.capacity := by
  unfold TicketTimeoutManager.updateAll
  generalize m.expiryBucketQueue = q at h hreg
  induction args generalizing q with
  | nil => exact ⟨q, rfl, h, rfl, rfl⟩
  | cons arg args ih =>
    obtain ⟨q1, e1, h1, ht1, hc1, -⟩ := update_good debug h
      (hreg arg List.mem_cons_self) (now + arg.expiryDur)
    have hreg1 : ∀ arg' ∈ args, q1.table arg'.clockedInTicket ≠ none := by
      intro arg' hm
      rw [ht1]
      by_cases he : arg'.clockedInTicket = arg.clockedInTicket
      · simp [he]
      · rw [Function.update_of_ne he]
        exact hreg arg' (List.mem_cons_of_mem arg hm)
    obtain ⟨q2, e2, h2, ht2, hc2⟩ := ih q1 h1 hreg1
    refine ⟨q2, ?_, h2, ?_, hc2.trans hc1⟩
    · rw [List.foldlM_cons, e1, ok_bind, e2]
    · rw [ht2, ht1]
      rfl

variable (debug) [Inhabited K]

theorem eraseAll_ok (h : q.Good) (tickets : List K) :
    ∃ q', tickets.foldlM (fun q ticket => q.erase debug ticket) q = .ok q' ∧ q'.Good ∧
      (∀ ticket, q'.table ticket = if ticket ∈ tickets then none else q.table ticket) ∧
      q'.capacity = q.capacity := by
  induction tickets generalizing q with
  | nil => exact ⟨q, rfl, h, fun ticket => by simp, rfl⟩
  | cons t tickets ih =>
    obtain ⟨q1, e1, h1, ht1, hc1⟩ := erase_good debug h t
    obtain ⟨q2, e2, h2, ht2, hc2⟩ := ih h1
    refine ⟨q2, ?_, h2, fun ticket => ?_, hc2.trans hc1⟩
    · rw [List.foldlM_cons, e1, ok_bind, e2]
    · rw [ht2, ht1]
      by_cases he : ticket = t
      · simp [he]
      · simp [he]

/-- The tickets that an array gets have expired, and are not registered any more; if there is room
left, no other has expired. -/
theorem takeExpired_ok (h : q.Good) (now : Int) (n : Nat) :
    ∃ q' tickets, takeExpired debug now n q = .ok (q', tickets) ∧ q'.Good ∧
      (∀ ticket, q'.table ticket = if ticket ∈ tickets then none else q.table ticket) ∧
      tickets.Nodup ∧ (∀ ticket ∈ tickets, ∃ expiry, q.table ticket = some expiry ∧ expiry < now) ∧
      (tickets.length < n → ∀ ticket expiry, q'.table ticket = some expiry → now ≤ expiry) ∧
      q'.capacity = q.capacity := by
  induction n generalizing q with
  | zero =>
    exact ⟨q, [], rfl, h, fun ticket => by simp, List.nodup_nil, by simp,
      fun h => absurd h (Nat.lt_irrefl 0), rfl⟩
  | succ n ih =>
    obtain ⟨b, e, hb⟩ := hasExpired_good h now
    unfold takeExpired
    rw [e, ok_bind]
    cases b with
    | false =>
      refine ⟨q, [], rfl, h, fun ticket => by simp, List.nodup_nil, by simp,
        fun _ ticket expiry ht => ?_, rfl⟩
      by_contra hlt
      exact Bool.false_ne_true (hb.2 ⟨ticket, expiry, ht, Int.not_le.1 hlt⟩)
    | true =>
      obtain ⟨q1, ticket, expiry, e1, h1, ht, hlt, ht1, hc1⟩ := getExpired_good debug h e
      obtain ⟨q2, tickets, e2, h2, ht2, hnd, hexp, hall, hc2⟩ := ih h1
      have hnew : ticket ∉ tickets := by
        intro hm
        obtain ⟨e', he', -⟩ := hexp ticket hm
        rw [ht1, Function.update_self] at he'
        cases he'
      refine ⟨q2, ticket :: tickets, ?_, h2, fun t => ?_, List.nodup_cons.2 ⟨hnew, hnd⟩, fun t hm => ?_,
        fun hlen => hall (Nat.lt_of_succ_lt_succ hlen), hc2.trans hc1⟩
      · simp only [if_true, e1, ok_bind, e2]
      · rw [ht2, ht1]
        by_cases he : t = ticket
        · simp [he]
        · simp [he]
      · cases hm with
        | head => exact ⟨expiry, ht, hlt⟩
        | tail _ hm =>
          obtain ⟨e', he', hlt'⟩ := hexp t hm
          have hne : t ≠ ticket := ne_of_mem_of_not_mem hm hnew
          rw [ht1, Function.update_of_ne hne] at he'
          exact ⟨e', he', hlt'⟩

end TicketSystem
