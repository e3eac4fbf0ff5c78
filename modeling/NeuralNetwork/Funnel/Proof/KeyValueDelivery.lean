import NeuralNetwork.Funnel.Proof.Funnel

/-!
# Delivery by a key-value handle

The batches of an opened key-value handle: `deliver_close` puts together that they are the pairs
delivered (`deliverAll_ok`), that no allocation that has to succeed fails, and that none of them is
empty.
-/

namespace Funnel

open Cpp Loop

namespace KVDeliveryHandle

variable {K E : Type} [DecidableEq K] {h : KVDeliveryHandle K E}

/-- **Delivery.** Whatever is delivered to a handle that was opened, no call fails, and with those of
its close the batches are the pairs delivered, each once, in the order of delivery for each key;
none of them is empty or larger than the capacity, or than one. -/
theorem deliver_close {layout : EventLayout} {head deliverableCap : Nat}
    (hopen : openHandle layout head deliverableCap = .ok h) (events : List (K × E)) :
    ∃ h1 pushed h2 rest, h.deliverAll events = .ok (h1, pushed) ∧ h1.clear = .ok (h2, rest) ∧
      (pairs (pushed ++ rest)).Perm events ∧
      (∀ key, flatOf key (pushed ++ rest) = eventsOf key events) ∧
      ∀ group ∈ pushed ++ rest, group.2 ≠ [] ∧ group.2.length ≤ max 1 deliverableCap := by
  have hcap := cap_le_of_openHandle hopen
  obtain ⟨h', hopen', hi, hc, hg, -⟩ := openHandle_ok (K := K) (E := E) layout head hcap
  obtain rfl := Except.ok.inj (hopen'.symm.trans hopen)
  obtain ⟨h1, pushed, e1, hi1, -, hc1, hbound, hpairs, hflat⟩ := deliverAll_ok hi events
  obtain ⟨h2, e2, -⟩ := clear_ok hi1
  rw [hg] at hpairs hflat
  rw [hc] at hc1 hbound
  refine ⟨h1, pushed, h2, h1.groups, e1, e2, ?_, fun key => ?_, fun group hm => ?_⟩
  · rw [pairs_append]
    exact hpairs
  · rw [flatOf_append, hflat key]
    rfl
  · rcases List.mem_append.1 hm with hm | hm
    · exact Nat.max_comm 1 deliverableCap ▸ hbound group hm
    · have hle := hi1.bound hm
      exact ⟨hle.1, by omega⟩

/-- Four pairs through a handle of capacity three, of which the last finds it full. -/
theorem deliver_close_sample :
    ∃ (h : KVDeliveryHandle Nat Nat) (h1 : KVDeliveryHandle Nat Nat) (pushed : List (Group Nat Nat))
      (h2 : KVDeliveryHandle Nat Nat) (rest : List (Group Nat Nat)),
      openHandle ⟨8, 8, by decide, by decide⟩ 3 3 = .ok h ∧
      h.deliverAll [(1, 10), (2, 20), (1, 11), (1, 12)] = .ok (h1, pushed) ∧
      h1.clear = .ok (h2, rest) ∧
      flatOf 1 (pushed ++ rest) = [10, 11, 12] := by
  obtain ⟨h, hopen, -⟩ := openHandle_ok (K := Nat) (E := Nat) ⟨8, 8, by decide, by decide⟩ 3
    (show 3 ≤ maxDeliverableCap by decide)
  obtain ⟨h1, pushed, h2, rest, e1, e2, -, hflat, -⟩ :=
    deliver_close hopen [(1, 10), (2, 20), (1, 11), (1, 12)]
  exact ⟨h, h1, pushed, h2, rest, hopen, e1, e2, hflat 1⟩

end KVDeliveryHandle

end Funnel
