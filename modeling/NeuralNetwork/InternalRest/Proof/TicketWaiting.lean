import NeuralNetwork.InternalRest.Proof.TicketSections

/-!
# The waiting path of clock_in

A call of `clock_in` that waits has its tickets added, with a placeholder, by `internal_update` in
another call, and updated when it is woken. Both steps abort where the direct path would not: the
first if the ticket is registered already, the second if it was voided. `waiting_agrees_direct` is the
agreement of the two paths in all runs whose steps are `Smooth`.
-/

namespace TicketSystem

open Cpp Loop Mailbox CyclicUnordered ExpiryQueue TemporalOrderedItemMap

variable {K : Type} [DecidableEq K] [Inhabited K] (debug : Bool) (clock : SteadyClock)

/-- In the next `n` rounds of the loop, whenever there is room and a ticket waits, it is not
registered. -/
def AddsNew (now : Int) : Nat → Update K → Prop
  | 0, _ => True
  | n + 1, u => NextNew u.manager ∧
    match u.round debug clock now with
    | .ok (.yield u') => AddsNew now n u'
    | _ => True

/-- No ticket is registered when `internal_update` comes to add it. -/
def UpdateAddsNew (reads : Nat) (m : TicketTimeoutManager K) : Prop :=
  let u : Update K := ⟨m, reads + 1, [], []⟩
  AddsNew debug clock (clock.now reads) (u.waits + 1) u

/-- The critical section meets no ticket that it asserts to be new but is registered, or to be
registered but is not, and has room for the call that waits. -/
def Smooth (w : World K) : Event K → Prop
  | .clockIn args => w.CanClockIn debug args
  | .goClockIn smp => ∀ args, w.clockIns[smp]? = some (.woken args) →
      ∀ arg ∈ args, w.table arg.clockedInTicket ≠ none
  | .getExpiredTicket _ => True
  | .voidTicket tickets => ∀ expiryBucketQueue,
      tickets.foldlM (fun q ticket => q.erase debug ticket) w.manager.expiryBucketQueue =
          .ok expiryBucketQueue →
        UpdateAddsNew debug clock w.reads (w.voided expiryBucketQueue)
  | .update => UpdateAddsNew debug clock w.reads w.manager

variable {debug clock} {w w' : World K}

theorem internalUpdate_ready {reads : Nat} {m : TicketTimeoutManager K} (hm : Ready m)
    (hnew : UpdateAddsNew debug clock reads m) :
    ∃ u, internalUpdate debug clock reads m = .ok u ∧ Ready u.manager := by
  obtain ⟨u, e, hu, -⟩ : ∃ u, internalUpdate debug clock reads m = .ok u ∧ Ready u.manager ∧
      (∃ n, u.waits < n ∧ AddsNew debug clock (clock.now reads) n u) ∧ _ := by
    refine internalUpdate_ok debug _ hm ⟨_, Nat.lt_succ_self _, hnew⟩ ?_ ?_
    · rintro u ⟨n, hn, h⟩
      cases n with
      | zero => exact absurd hn (Nat.not_lt_zero _)
      | succ n => exact h.1
    · rintro u u' ⟨n, hn, h⟩ hr e
      cases n with
      | zero => exact absurd hn (Nat.not_lt_zero _)
      | succ n =>
        obtain ⟨-, h⟩ := h
        rw [e] at h
        exact ⟨n, Nat.lt_of_lt_of_le hr.waits_lt (Nat.le_of_lt_succ hn), h⟩
  exact ⟨u, e, hu⟩

/-- A smooth critical section does not abort, but for a full queue of waiting arrays, and keeps the
manager ready. -/
theorem Smooth.step {e : Event K} (hc : Smooth debug clock w e) (hm : Ready w.manager)
    (hget : ∀ cap, e ≠ .getExpiredTicket cap) :
    ∃ r, w.step debug clock e = .ok r ∧ ∀ w', r = some w' → Ready w'.manager := by
  cases e with
  | clockIn args =>
    obtain ⟨w1, e1, h1⟩ := World.clockIn_ok clock hm hc
    have hs := step_iff.2 (.clockIn e1)
    exact ⟨some w1, hs, fun w' he => Option.some.inj he ▸ h1.ready hm⟩
  | goClockIn smp =>
    by_cases hphase : ∃ args, w.clockIns[smp]? = some (.woken args)
    · obtain ⟨args, hphase⟩ := hphase
      obtain ⟨q', e1, hg, -⟩ := World.goClockIn_ok debug clock hm smp
        (hc args hphase)
      have hs := step_iff.2 (.goClockIn hphase e1)
      exact ⟨some _, hs, fun w' he => Option.some.inj he ▸ ⟨hg, hm.push, hm.pop⟩⟩
    · refine ⟨none, ?_, fun w' he => by cases he⟩
      unfold World.step
      dsimp only
      split
      · next args h => exact absurd ⟨args, h⟩ hphase
      · rfl
  | getExpiredTicket cap => exact absurd rfl (hget cap)
  | voidTicket tickets =>
    obtain ⟨q', e, hg, -⟩ := eraseAll_ok debug hm.good tickets
    have hm' : Ready (w.voided q') := ⟨hg, hm.push, hm.pop⟩
    obtain ⟨u, eu, hu⟩ := internalUpdate_ready hm' (hc q' e)
    have e1 : w.voidTicket debug clock tickets =
        .ok ({ w with log := w.log ++ tickets.map LogEntry.voided }.afterUpdate u) := by
      unfold World.voidTicket
      unfold World.voided at eu
      rw [e, ok_bind, eu, ok_bind]
    have hs := step_iff.2 (.voidTicket e1)
    exact ⟨some _, hs, fun w' he => Option.some.inj he ▸ hu⟩
  | update =>
    obtain ⟨u, eu, hu⟩ := internalUpdate_ready hm hc
    have e1 : w.callUpdate debug clock = .ok (w.afterUpdate u) := by
      rw [World.callUpdate_eq, eu]
      rfl
    have hs := step_iff.2 (.update e1)
    exact ⟨some _, hs, fun w' he => Option.some.inj he ▸ hu⟩

theorem Step.ready {e : Event K} (hs : Step debug clock w e w') (hc : Smooth debug clock w e)
    (hm : Ready w.manager) : Ready w'.manager := by
  by_cases hget : ∃ cap, e = .getExpiredTicket cap
  · obtain ⟨cap, rfl⟩ := hget
    cases step_iff.1 hs with
    | getExpiredTicket e1 => exact (World.getExpiredTicket_cases hm e1).ready hm
  · obtain ⟨r, e1, hr⟩ := hc.step hm fun cap he => hget ⟨cap, he⟩
    exact hr w' (Except.ok.inj (e1.symm.trans hs))

def stopped : SteadyClock := ⟨fun _ => 0, fun _ => Int.le_refl 0, fun _ => by decide⟩

end TicketSystem
