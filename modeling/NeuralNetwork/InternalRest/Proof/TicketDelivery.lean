import Mathlib.Data.List.Induction
import NeuralNetwork.InternalRest.Proof.TicketSections

/-!
# The register and the log of a run

`Delivery` is what the register knows of its tickets: the tickets of the calls of `clock_in` that have
not returned are still queued, or have a placeholder; every other ticket has the expiry time that the
log of the run gives it (`fates`), and a ticket was handed out only after that time (`Delivered`).
-/

namespace TicketSystem

open Cpp Loop Mailbox CyclicUnordered ExpiryQueue TemporalOrderedItemMap

variable {K : Type}

/-! ## The log -/

namespace LogEntry

def ticket : LogEntry K → K
  | .clocked ticket _ | .handed ticket _ | .voided ticket => ticket

variable [DecidableEq K]

def fate (t : K → Option Int) : LogEntry K → K → Option Int
  | .clocked ticket expiry => Function.update t ticket (some expiry)
  | .handed ticket _ | .voided ticket => Function.update t ticket none

theorem fate_of_ne {t : K → Option Int} {entry : LogEntry K} {ticket : K}
    (h : entry.ticket ≠ ticket) : entry.fate t ticket = t ticket := by
  cases entry <;> exact Function.update_of_ne (Ne.symm h) _ _

end LogEntry

variable [DecidableEq K] {log : List (LogEntry K)} {now : Int} {ticket : K}

/-- The expiry times that a log leaves. -/
def fates (log : List (LogEntry K)) : K → Option Int := log.foldl LogEntry.fate fun _ => none

theorem fates_append (es : List (LogEntry K)) :
    fates (log ++ es) = es.foldl LogEntry.fate (fates log) := List.foldl_append

theorem fates_clocked (args : List (ClockInArgument K)) :
    fates (log ++ World.logClocked now args) = clockAll now (fates log) args := by
  rw [fates_append, World.logClocked, List.foldl_map]
  rfl

theorem foldl_fate_gone {gone : K → LogEntry K}
    (h : ∀ (t : K → Option Int) x, (gone x).fate t = Function.update t x none) (tickets : List K)
    (t : K → Option Int) :
    (tickets.map gone).foldl LogEntry.fate t ticket = if ticket ∈ tickets then none else t ticket := by
  induction tickets generalizing t with
  | nil => rfl
  | cons x tickets ih =>
    rw [List.map_cons, List.foldl_cons, ih, h]
    by_cases hx : ticket = x
    · simp [hx]
    · simp [hx]

theorem fates_handed (tickets : List K) :
    fates (log ++ World.logHanded now tickets) ticket =
      if ticket ∈ tickets then none else fates log ticket := by
  rw [fates_append]
  exact foldl_fate_gone (fun _ _ => rfl) tickets _

theorem fates_voided (tickets : List K) :
    fates (log ++ tickets.map LogEntry.voided) ticket =
      if ticket ∈ tickets then none else fates log ticket := by
  rw [fates_append]
  exact foldl_fate_gone (fun _ _ => rfl) tickets _

theorem fates_eq_some {expiry : Int} (h : fates log ticket = some expiry) :
    ∃ before after, log = before ++ .clocked ticket expiry :: after ∧
      ∀ entry ∈ after, entry.ticket ≠ ticket := by
  induction log using List.reverseRecOn with
  | nil => cases h
  | append_singleton log entry ih =>
    rw [fates_append, List.foldl_cons, List.foldl_nil] at h
    by_cases he : entry.ticket = ticket
    · subst he
      cases entry with
      | clocked ticket e =>
        have heq : some e = some expiry := (Function.update_self ticket _ _).symm.trans h
        cases heq
        exact ⟨log, [], rfl, fun entry hm => absurd hm List.not_mem_nil⟩
      | handed ticket now =>
        have hn : (none : Option Int) = some expiry := (Function.update_self ticket _ _).symm.trans h
        cases hn
      | voided ticket =>
        have hn : (none : Option Int) = some expiry := (Function.update_self ticket _ _).symm.trans h
        cases hn
    · rw [LogEntry.fate_of_ne he] at h
      obtain ⟨before, after, rfl, hafter⟩ := ih h
      refine ⟨before, after ++ [entry], by simp, fun x hm => ?_⟩
      rcases List.mem_append.1 hm with hm | hm
      · exact hafter x hm
      · rw [List.mem_singleton.1 hm]
        exact he

/-- Every ticket that was handed out had been clocked in with an earlier expiry time, and since then
it was neither clocked in again nor handed out nor voided. -/
def Delivered (log : List (LogEntry K)) : Prop :=
  ∀ log₁ ticket now log₂, log = log₁ ++ .handed ticket now :: log₂ →
    ∃ before expiry after, log₁ = before ++ .clocked ticket expiry :: after ∧
      (∀ entry ∈ after, entry.ticket ≠ ticket) ∧ expiry < now

theorem Delivered.snoc (h : Delivered log) {entry : LogEntry K}
    (he : ∀ ticket now, entry = .handed ticket now → ∃ expiry, fates log ticket = some expiry ∧
      expiry < now) : Delivered (log ++ [entry]) := by
  intro log₁ ticket now log₂ heq
  rcases List.eq_nil_or_concat log₂ with rfl | ⟨log₃, last, rfl⟩
  · obtain ⟨rfl, hlast⟩ := List.append_inj' heq rfl
    obtain ⟨expiry, hf, hlt⟩ := he ticket now (List.cons.inj hlast).1
    obtain ⟨before, after, hlog, hafter⟩ := fates_eq_some hf
    exact ⟨before, expiry, after, hlog, hafter, hlt⟩
  · rw [List.concat_eq_append, ← List.cons_append, ← List.append_assoc] at heq
    exact h log₁ ticket now log₃ (List.append_inj' heq rfl).1

theorem Delivered.append_map {A : Type} {f : A → LogEntry K} (hf : ∀ a ticket now, f a ≠ .handed ticket now)
    (h : Delivered log) (xs : List A) : Delivered (log ++ xs.map f) := by
  induction xs generalizing log with
  | nil => simpa using h
  | cons x xs ih =>
    rw [List.map_cons, List.append_cons]
    exact ih (h.snoc fun ticket now he => absurd he (hf x ticket now))

theorem Delivered.handed (h : Delivered log) {tickets : List K} (hnd : tickets.Nodup)
    (hexp : ∀ ticket ∈ tickets, ∃ expiry, fates log ticket = some expiry ∧ expiry < now) :
    Delivered (log ++ World.logHanded now tickets) := by
  unfold World.logHanded
  induction tickets generalizing log with
  | nil => simpa using h
  | cons x tickets ih =>
    obtain ⟨hx, hnd⟩ := List.nodup_cons.1 hnd
    rw [List.map_cons, List.append_cons]
    refine ih (h.snoc fun ticket n he => ?_) hnd fun ticket hm => ?_
    · cases he
      exact hexp x List.mem_cons_self
    · obtain ⟨expiry, he, hlt⟩ := hexp ticket (List.mem_cons_of_mem _ hm)
      refine ⟨expiry, ?_, hlt⟩
      rw [fates_append, List.foldl_cons, List.foldl_nil, LogEntry.fate_of_ne]
      · exact he
      · exact (ne_of_mem_of_not_mem hm hx).symm

/-! ## The register -/

def TicketTimeoutManager.queued (m : TicketTimeoutManager K) : List K :=
  m.pushWaitBucketVec.items.flatMap fun bucket => bucket.clockInArr.map (·.clockedInTicket)

structure Delivery (pending : List K) (m : TicketTimeoutManager K) (log : List (LogEntry K)) :
    Prop where
  pending_nodup : pending.Nodup
  queued_nodup : m.queued.Nodup
  queued_pending : ∀ ticket ∈ m.queued, ticket ∈ pending
  queued_new : ∀ ticket ∈ m.queued, m.expiryBucketQueue.table ticket = none
  placed : ∀ ticket ∈ pending, ticket ∉ m.queued →
    m.expiryBucketQueue.table ticket = some timePointMax
  known : ∀ ticket ∉ pending, m.expiryBucketQueue.table ticket = fates log ticket
  delivered : Delivered log

namespace Delivery

variable {pending : List K} {m m' : TicketTimeoutManager K}

theorem nextNew (h : Delivery pending m log) : NextNew m := by
  intro _ smp arg args rest hitems
  apply h.queued_new
  unfold TicketTimeoutManager.queued
  rw [hitems]
  simp

theorem place (h : Delivery pending m log) (hq : m.queued = ticket :: m'.queued)
    (hp : Placed m.expiryBucketQueue m'.expiryBucketQueue ticket) : Delivery pending m' log := by
  obtain ⟨-, -, ht, -⟩ := hp
  have hnd := h.queued_nodup
  rw [hq] at hnd
  obtain ⟨hnew, hnd⟩ := List.nodup_cons.1 hnd
  have hmem : ∀ x, x ∈ m.queued ↔ x = ticket ∨ x ∈ m'.queued := fun x => by rw [hq, List.mem_cons]
  refine ⟨h.pending_nodup, hnd, fun x hx => ?_, fun x hx => ?_, fun x hx hxq => ?_, fun x hx => ?_,
    h.delivered⟩
  · exact h.queued_pending x ((hmem x).2 (.inr hx))
  · have hne : x ≠ ticket := fun he => hnew (he ▸ hx)
    rw [ht, Function.update_of_ne hne]
    exact h.queued_new x ((hmem x).2 (.inr hx))
  · rw [ht]
    by_cases he : x = ticket
    · rw [he, Function.update_self]
    · rw [Function.update_of_ne he]
      exact h.placed x hx fun hm => ((hmem x).1 hm).elim he hxq
  · have hne : x ≠ ticket := fun he => hx (h.queued_pending x ((hmem x).2 (.inl he)))
    rw [ht, Function.update_of_ne hne]
    exact h.known x hx

theorem expired_known (h : Delivery pending m log) {expiry : Int} (hnow : now ≤ timePointMax)
    (ht : m.expiryBucketQueue.table ticket = some expiry) (hlt : expiry < now) : ticket ∉ pending := by
  intro hp
  by_cases hq : ticket ∈ m.queued
  · rw [h.queued_new ticket hq] at ht
    cases ht
  · rw [h.placed ticket hp hq] at ht
    cases ht
    omega

variable {q' : TemporalOrderedItemMap K K} {tickets : List K} {args : List (ClockInArgument K)}

theorem remove (h : Delivery pending m log) {es : List (LogEntry K)}
    (hpend : ∀ ticket ∈ tickets, ticket ∉ pending) (ht : ∀ ticket, q'.table ticket =
      if ticket ∈ tickets then none else m.expiryBucketQueue.table ticket)
    (hf : ∀ ticket, fates (log ++ es) ticket =
      if ticket ∈ tickets then none else fates log ticket) (hd : Delivered (log ++ es)) :
    Delivery pending { m with expiryBucketQueue := q' } (log ++ es) := by
  refine ⟨h.pending_nodup, h.queued_nodup, h.queued_pending, fun x hx => ?_, fun x hx hxq => ?_,
    fun x hx => ?_, hd⟩
  · have hnew := h.queued_new x hx
    rw [ht, hnew, ite_self]
  · rw [ht, if_neg fun hm => hpend x hm hx]
    exact h.placed x hx hxq
  · rw [ht, hf, h.known x hx]

theorem take (h : Delivery pending m log) (hnow : now ≤ timePointMax)
    (ht : Taken now m.expiryBucketQueue q' tickets) :
    Delivery pending { m with expiryBucketQueue := q' } (log ++ World.logHanded now tickets) := by
  obtain ⟨-, ht, hnd, hexp, -⟩ := ht
  have hpend : ∀ ticket ∈ tickets, ticket ∉ pending := fun ticket hm => by
    obtain ⟨expiry, he, hlt⟩ := hexp ticket hm
    exact h.expired_known hnow he hlt
  refine h.remove hpend ht (fun ticket => fates_handed tickets) (h.delivered.handed hnd fun x hm => ?_)
  obtain ⟨expiry, he, hlt⟩ := hexp x hm
  rw [h.known x (hpend x hm)] at he
  exact ⟨expiry, he, hlt⟩

theorem void (h : Delivery pending m log) (hpend : ∀ ticket ∈ tickets, ticket ∉ pending)
    (ht : ∀ ticket, q'.table ticket =
      if ticket ∈ tickets then none else m.expiryBucketQueue.table ticket) :
    Delivery pending { m with expiryBucketQueue := q' } (log ++ tickets.map LogEntry.voided) :=
  h.remove hpend ht (fun _ => fates_voided tickets)
    (h.delivered.append_map (fun _ _ _ he => by cases he) tickets)

theorem round {clock : SteadyClock} {u u' : Update K} (hr : Update.Rounded clock u u')
    (h : Delivery pending u.manager (log ++ u.served.flatMap fun s => World.logHanded s.2.1 s.2.2)) :
    Delivery pending u'.manager (log ++ u'.served.flatMap fun s => World.logHanded s.2.1 s.2.2) := by
  cases hr with
  | kept hitems hp =>
    refine h.place ?_ hp
    simp [TicketTimeoutManager.queued, hitems]
  | woke hitems hp =>
    refine h.place ?_ hp
    simp [TicketTimeoutManager.queued, hitems]
  | served hitems ht =>
    have hnew := h.take (clock.le_max _) ht
    rw [List.append_assoc] at hnew
    simp only [List.flatMap_append, List.flatMap_singleton]
    exact ⟨hnew.pending_nodup, hnew.queued_nodup, hnew.queued_pending, hnew.queued_new, hnew.placed,
      hnew.known, hnew.delivered⟩

theorem clock (h : Delivery pending m log) {pending' : List K} (hnd : pending'.Nodup)
    (hsub : ∀ ticket, ticket ∈ pending ↔
      ticket ∈ pending' ∨ ticket ∈ pending ∧ ticket ∈ args.map (·.clockedInTicket))
    (hpend : ∀ ticket ∈ pending', ticket ∉ args.map (·.clockedInTicket))
    (hqueued : ∀ ticket ∈ m.queued, ticket ∉ args.map (·.clockedInTicket))
    (ht : q'.table = clockAll now m.expiryBucketQueue.table args) :
    Delivery pending' { m with expiryBucketQueue := q' } (log ++ World.logClocked now args) := by
  refine ⟨hnd, h.queued_nodup, fun x hx => ?_, fun x hx => ?_, fun x hx hxq => ?_, fun x hx => ?_,
    h.delivered.append_map (fun _ _ _ he => by cases he) args⟩
  · exact ((hsub x).1 (h.queued_pending x hx)).resolve_right fun hm => hqueued x hx hm.2
  · exact (congrFun ht x).trans ((clockAll_of_not_mem (hqueued x hx)).trans (h.queued_new x hx))
  · refine (congrFun ht x).trans ((clockAll_of_not_mem (hpend x hx)).trans ?_)
    exact h.placed x ((hsub x).2 (.inl hx)) hxq
  · refine (congrFun ht x).trans ?_
    rw [fates_clocked]
    by_cases hm : x ∈ args.map (·.clockedInTicket)
    · exact clockAll_congr hm
    · have hold : x ∉ pending := fun hp => ((hsub x).1 hp).elim hx fun hp => hm hp.2
      rw [clockAll_of_not_mem hm, clockAll_of_not_mem hm, h.known x hold]

theorem wait (h : Delivery pending m log) {smp : Nat} (hnd : (args.map (·.clockedInTicket)).Nodup)
    (hnew : ∀ ticket ∈ args.map (·.clockedInTicket),
      m.expiryBucketQueue.table ticket = none ∧ ticket ∉ pending) :
    Delivery (pending ++ args.map (·.clockedInTicket))
      { m with pushWaitBucketVec := { m.pushWaitBucketVec with
          items := m.pushWaitBucketVec.items ++ [⟨args, smp⟩] } } log := by
  have hqueued : TicketTimeoutManager.queued { m with
      pushWaitBucketVec := { m.pushWaitBucketVec with
        items := m.pushWaitBucketVec.items ++ [⟨args, smp⟩] } } =
      m.queued ++ args.map (·.clockedInTicket) := by
    simp [TicketTimeoutManager.queued]
  constructor
  · exact List.nodup_append'.2 ⟨h.pending_nodup, hnd, fun x hx hm => (hnew x hm).2 hx⟩
  · rw [hqueued]
    exact List.nodup_append'.2
      ⟨h.queued_nodup, hnd, fun x hx hm => (hnew x hm).2 (h.queued_pending x hx)⟩
  · intro x hx
    rw [hqueued] at hx
    rcases List.mem_append.1 hx with hx | hx
    · exact List.mem_append_left _ (h.queued_pending x hx)
    · exact List.mem_append_right _ hx
  · intro x hx
    rw [hqueued] at hx
    rcases List.mem_append.1 hx with hx | hx
    · exact h.queued_new x hx
    · exact (hnew x hx).1
  · intro x hx hxq
    rw [hqueued, List.mem_append, not_or] at hxq
    exact h.placed x ((List.mem_append.1 hx).resolve_right hxq.2) hxq.1
  · intro x hx
    exact h.known x fun hm => hx (List.mem_append_left _ hm)
  · exact h.delivered

end Delivery

end TicketSystem
