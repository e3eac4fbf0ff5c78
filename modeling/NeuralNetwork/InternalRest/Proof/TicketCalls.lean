import NeuralNetwork.InternalRest.TicketTimeoutManager
import NeuralNetwork.Lib.ListUpdate

/-!
# The waiting calls of the ticket timeout manager

`Linked` ties the queues of the manager to the calls that wait, and the log to the arrays of
`get_expired_ticket`. `internal_update` wakes calls (`waiting_wakeAll`) and fills arrays (`serveAll`).
-/

namespace TicketSystem

open Cpp Mailbox

variable {K : Type} {now : Int}

def ClockInPhase.pending : ClockInPhase K → List K
  | .waiting args | .woken args => args.map (·.clockedInTicket)
  | .returned _ => []

def World.pending (w : World K) : List K := w.clockIns.flatMap ClockInPhase.pending

def GetPhase.tickets : GetPhase K → List K
  | .waiting => []
  | .returned tickets => tickets

def LogEntry.handedOut : LogEntry K → List K
  | .handed ticket _ => [ticket]
  | .clocked _ _ | .voided _ => []

theorem handedOut_none {A : Type} {f : A → LogEntry K} (hf : ∀ a, (f a).handedOut = [])
    (xs : List A) : (xs.map f).flatMap LogEntry.handedOut = [] := by
  rw [List.flatMap_map]
  exact List.flatMap_eq_nil_iff.2 fun a _ => hf a

theorem handedOut_handed (tickets : List K) :
    (World.logHanded now tickets).flatMap LogEntry.handedOut = tickets := by
  unfold World.logHanded
  rw [List.flatMap_map]
  exact List.flatMap_singleton' tickets

theorem pending_wake (phase : ClockInPhase K) : (World.wake phase).pending = phase.pending := by
  cases phase <;> rfl

theorem pending_wakeAll (woken : List Nat) (phases : List (ClockInPhase K)) :
    (woken.foldl (fun phases smp => phases.modify smp World.wake) phases).flatMap
      ClockInPhase.pending = phases.flatMap ClockInPhase.pending := by
  induction woken generalizing phases with
  | nil => rfl
  | cons smp woken ih =>
    rw [List.foldl_cons, ih, List.flatMap_def, List.flatMap_def,
      ListUpdate.map_modify_same pending_wake]

variable {args : List (ClockInArgument K)} {phases : List (ClockInPhase K)}

theorem waiting_wakeAll {woken : List Nat} {smp : Nat}
    (h : (woken.foldl (fun phases smp => phases.modify smp World.wake) phases)[smp]? =
      some (.waiting args)) : phases[smp]? = some (.waiting args) ∧ smp ∉ woken := by
  induction woken generalizing phases with
  | nil => exact ⟨h, List.not_mem_nil⟩
  | cons i woken ih =>
    obtain ⟨h, hm⟩ := ih h
    rw [List.getElem?_modify] at h
    cases hp : phases[smp]? with
    | none =>
      rw [hp] at h
      cases h
    | some phase =>
      rw [hp] at h
      by_cases hi : i = smp
      · simp only [hi, if_true] at h
        cases phase <;> cases h
      · simp only [hi, if_false] at h
        refine ⟨h, fun hmem => ?_⟩
        exact (List.mem_cons.1 hmem).elim (fun he => hi he.symm) hm

variable {served : List (Nat × Int × List K)} {gets : List (GetPhase K)}

theorem serveAll (hnd : (served.map Prod.fst).Nodup)
    (hw : ∀ smp ∈ served.map Prod.fst, gets[smp]? = some .waiting) :
    ((served.foldl (fun phases s => phases.set s.1 (.returned s.2.2)) gets).flatMap
        GetPhase.tickets).Perm (gets.flatMap GetPhase.tickets ++ served.flatMap (·.2.2)) ∧
      ∀ smp, (served.foldl (fun phases s => phases.set s.1 (.returned s.2.2)) gets)[smp]? =
          some .waiting ↔ gets[smp]? = some .waiting ∧ smp ∉ served.map Prod.fst := by
  induction served generalizing gets with
  | nil => simp
  | cons s served ih =>
    obtain ⟨hs, hnd⟩ := List.nodup_cons.1 hnd
    have hfirst := hw s.1 List.mem_cons_self
    have hother : ∀ smp, (gets.set s.1 (.returned s.2.2))[smp]? = some .waiting ↔
        gets[smp]? = some .waiting ∧ smp ≠ s.1 := by
      intro smp
      rw [List.getElem?_set]
      by_cases he : s.1 = smp
      · subst he
        rw [if_pos rfl, if_pos (List.getElem?_eq_some_iff.1 hfirst).1]
        simp
      · simp [he, Ne.symm he]
    obtain ⟨hp, hwait⟩ := ih hnd fun smp hm =>
      (hother smp).2 ⟨hw smp (List.mem_cons_of_mem _ hm), ne_of_mem_of_not_mem hm hs⟩
    rw [List.foldl_cons]
    constructor
    · have hset := ListUpdate.flatMap_set_perm GetPhase.tickets (b := .returned s.2.2) hfirst
      rw [GetPhase.tickets, GetPhase.tickets, List.append_nil] at hset
      rw [List.flatMap_cons, ← List.append_assoc]
      exact hp.trans (hset.append_right _)
    · intro smp
      rw [hwait, hother, List.map_cons, List.mem_cons, not_or]
      exact and_assoc

/-- Every call that waits is in its queue, and what was handed out is in the arrays. -/
structure Linked (w : World K) : Prop where
  clockIns : ∀ smp args, w.clockIns[smp]? = some (.waiting args) →
    smp ∈ w.manager.pushWaitBucketVec.items.map (·.smp)
  gets_nodup : (w.manager.popWaitBucketVec.items.map (·.smp)).Nodup
  gets : ∀ smp, w.gets[smp]? = some .waiting ↔ smp ∈ w.manager.popWaitBucketVec.items.map (·.smp)
  handed : (w.log.flatMap LogEntry.handedOut).Perm (w.gets.flatMap GetPhase.tickets)

theorem getElem?_snoc_returned {smp : Nat} {exceptionArr : List ExceptionT}
    (h : (phases ++ [.returned exceptionArr])[smp]? = some (.waiting args)) :
    phases[smp]? = some (.waiting args) :=
  ListUpdate.getElem?_of_snoc h (by simp)

theorem pending_snoc_returned (phases : List (ClockInPhase K)) (exceptionArr : List ExceptionT) :
    (phases ++ [ClockInPhase.returned exceptionArr]).flatMap ClockInPhase.pending =
      phases.flatMap ClockInPhase.pending := by
  rw [List.flatMap_append, List.flatMap_singleton]
  exact List.append_nil _

end TicketSystem
