import NeuralNetwork.InternalRest.FlashStream.FairInBoundBufferContainer
import NeuralNetwork.InternalRest.Proof.ContainerLedger

/-!
# Conservation in FairInBoundBufferContainer

Its critical sections are those of a hub with one lane (`refines`), so in every run of any number of
calls nothing is lost and nobody waits who need not (`fair_container_conserves`).
-/

namespace FairBuffer

open Cpp Loop HandOver ContainerCalls CyclicUnordered Run

variable {T : Type}

def hub (c : FairInBoundBufferContainer T) : Hub Unit (Vec T) Nat Nat where
  leftover := c.leftoverQueue.items
  lane _ := ⟨c.pushWaitingItemVec.items.map fun item => (item.bufferVec, item.smp),
    c.distributionQueue.items, c.distributionQueue.cap⟩
  waiting := c.waitingQueue.items

theorem setLane_eq (h : Hub Unit (Vec T) Nat Nat) (l : Lane (Vec T) Nat) :
    h.setLane () l = { h with lane := fun _ => l } := by
  congr 1

variable {c c' : FairInBoundBufferContainer T}

theorem push_refines {vec : Vec T} {smp : Nat}
    {r : Offer Nat} (e : push c vec smp = .ok (c', r)) : (hub c).offer () vec smp = (hub c', r) := by
  unfold push at e
  split at e
  · rename_i dst others hw
    cases e
    exact offer_waiting (hub c) () vec smp hw
  · rename_i hw
    split at e
    · rename_i hroom
      obtain ⟨q, hq, e⟩ := bind_eq_ok e
      cases e
      rw [offer_room (hub c) () vec smp hw hroom, setLane_eq, (Pow2CyclicQueue.pushBackNothrow_ok hq).2]
      rfl
    · rename_i hfull
      obtain ⟨q, hq, e⟩ := bind_eq_ok e
      cases e
      rw [offer_full (hub c) () vec smp hw (not_not.1 hfull), setLane_eq,
        (Pow2CyclicQueue.pushBackNothrow_ok hq).2]
      simp [hub]

theorem pop_refines {smp : Nat} {r : Take (Vec T) Nat}
    (e : pop c smp = .ok (c', r)) : (hub c).take [()] smp = (hub c', r) := by
  unfold pop at e
  unfold Hub.take
  split at e
  · rename_i vec others hl
    cases e
    simp only [hub, hl]
  · rename_i front others hl hb
    cases e
    simp only [hub, hl, hb, List.map_cons, Hub.takeLanes, setLane_eq]
  · rename_i vec others hl hb hd
    cases e
    simp only [hub, hl, hb, hd, List.map_nil, Hub.takeLanes, setLane_eq]
  · rename_i hl hb hd
    obtain ⟨q, hq, e⟩ := bind_eq_ok e
    cases e
    rw [(Pow2CyclicQueue.pushBackNothrow_ok hq).2]
    simp only [hub, hl, hb, hd, List.map_nil, Hub.takeLanes]

theorem popLeftover_refines {vec : Vec T} {r : GiveBack Nat}
    (e : popLeftover c vec = .ok (c', r)) : (hub c).giveBack vec = (hub c', r) := by
  unfold popLeftover at e
  split at e
  · rename_i dst others hw
    cases e
    exact giveBack_waiting (hub c) vec hw
  · rename_i hw
    obtain ⟨q, hq, e⟩ := bind_eq_ok e
    cases e
    rw [giveBack_kept (hub c) vec hw, (Pow2CyclicQueue.pushBackNothrow_ok hq).2]
    rfl

theorem groups_perm {debug : Bool} {arr : List T}
    {gs : List (Unit × List (T × Nat))} (e : groups debug c arr = .ok gs) :
    (gs.flatMap Prod.snd).Perm arr.zipIdx := by
  unfold groups at e
  split at e
  · cases e
  · split at e
    · rename_i hnil
      cases e
      rw [List.length_eq_zero_iff.1 hnil]
      exact List.Perm.refl _
    · cases e
      simp

theorem refines (debug : Bool) :
    Refines (sections (T := T) debug) [()] hub where
  nodup := List.nodup_singleton ()
  complete _ := List.mem_singleton.2 rfl
  groups := groups_perm
  push := push_refines
  pop := pop_refines
  popLeftover := popLeftover_refines

/-! ## Runs -/

variable {debug : Bool} {w : World (FairInBoundBufferContainer T) Unit T}
  {hist : List (Action T)}

theorem Fresh.kept (h : Fresh w) : Kept hub [()] w := by
  obtain ⟨pushExponent, distributionExponent, waitingExponent, leftoverExponent, consumeSz,
    queueCap, rfl⟩ := h
  exact Kept.start rfl rfl (fun _ => ⟨rfl, rfl⟩) queueCap

theorem Reach.kept (h : Reach Fresh (Step (sections debug)) w hist) : Kept hub [()] w :=
  h.inv (fun w _ => Kept hub [()] w) (fun _ hw => hw.kept) fun _ _ _ _ hk e => hk.step (refines debug) e

def held (c : FairInBoundBufferContainer T) : List (Vec T) :=
  c.leftoverQueue.items ++ c.pushWaitingItemVec.items.map (·.bufferVec) ++ c.distributionQueue.items

theorem contents_hub (c : FairInBoundBufferContainer T) : (hub c).contents [()] = held c := by
  simp [Hub.contents, hub, held, Function.comp_def]

/-- **Nothing is lost or duplicated, and nobody waits in vain**, in every run of calls that aborts
nothing: the buffers of the batches so far, up to those refused, are those returned, in the queues, in a
caller's hands or not yet in a vector; a call of `pop` waits only if the queues are empty, a call of `push`
only if the distribution queue is full; a vector is in one place. -/
theorem fair_container_conserves (h : Reach Fresh (Step (sections debug)) w hist) :
    (w.pushes.flatMap PushCall.succeeded).Perm
      (w.pops.flatMap PopCall.output ++ (held w.container ++ w.inHands).flatMap Vec.items ++
        w.pushes.flatMap PushCall.unsent) ∧
    (∀ call ∈ w.pops, call.phase = .waiting → held w.container = []) ∧
    (∀ call ∈ w.pushes, ∀ k, call.phase = .waiting k →
      w.container.distributionQueue.size = w.container.distributionQueue.cap) ∧
    ((held w.container ++ w.inHands ++ w.allocator.queue).map Vec.id).Perm
      (List.range w.allocator.allocatedSz) := by
  have hk := Reach.kept h
  refine ⟨?_, ?_, ?_, ?_⟩
  · rw [← contents_hub]
    exact hk.items
  · intro call hcall hphase
    rw [← contents_hub]
    exact hk.pop_waits hcall hphase
  · intro call hcall k hphase
    exact hk.push_waits hcall hphase
  · rw [← contents_hub]
    exact hk.vectors

/-- A distribution queue of one: 1, 2 is split, 3 is queued and 4 is blocked behind it. -/
theorem fair_container_conserves_four : ([1, 2, 3, 4] : List Nat).Perm [2, 1, 4, 3] := by
  have h0 : Fresh (.start (make 0 0 0 0 2 : FairInBoundBufferContainer Nat) 4) :=
    ⟨0, 0, 0, 0, 2, 4, rfl⟩
  have hrun : [.push [1, 2], .get 0, .put 0, .pop 1, .push [3], .get 1, .put 1, .push [4], .get 2,
      .put 2, .finish 0].foldlM (World.next (sections true))
        (.start (make 0 0 0 0 2 : FairInBoundBufferContainer Nat) 4) =
      some ⟨⟨⟨[⟨⟨2, [4]⟩, 2⟩], 1⟩, ⟨[⟨1, [3]⟩], 1⟩, ⟨[], 1⟩, ⟨[⟨0, [1]⟩], 1⟩, 2⟩, ⟨[], 4, 3⟩,
        [⟨[1, 2], [.success, .success], [], .running⟩, ⟨[3], [.success], [], .running⟩,
          ⟨[4], [.success], [], .waiting ()⟩], [⟨1, .returned [2]⟩]⟩ := by decide +kernel
  exact (fair_container_conserves ((Reach.init h0).foldlM World.next_step hrun)).1

end FairBuffer
