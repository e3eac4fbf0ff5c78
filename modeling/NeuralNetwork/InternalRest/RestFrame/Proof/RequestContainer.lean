import NeuralNetwork.InternalRest.RestFrame.RequestContainer

/-!
# When RequestContainer loses no request

The critical sections are those of a hub with one lane (`push_offer`, `pop_take`), except for a call of
`push` that has to wait without debug mode: it is not registered. And a hub serves its blocked producers
before their lane, so a call of `pop` that finds one breaks the order. `requests_of_orderly` is about the
runs without these two (`Orderly`).
-/

namespace RestFrame.Requests

open Cpp Loop HandOver Run CyclicUnordered Pow2CyclicQueue

variable {V : Type} {debug : Bool} {c c' : RequestContainer V} {w w' : World V} {hist : List (Op V)}

/-! ## What is observed -/

def pushed : List (Op V) → List V
  | [] => []
  | .push request :: ops => request :: pushed ops
  | .pop :: ops => pushed ops

@[simp] theorem pushed_append (ops ops' : List (Op V)) :
    pushed (ops ++ ops') = pushed ops ++ pushed ops' := by
  induction ops with
  | nil => rfl
  | cons op ops ih => cases op <;> simp [pushed, ih]

/-- The vectors in the container, the oldest first if no call of `pop` overtook. -/
def held (c : RequestContainer V) : List V :=
  c.producerQueue.items ++ c.pushWaitingQueue.items.map Prod.snd

/-- No call of `push` has to wait without being registered, and no call of `pop` finds one that waits.
-/
def Orderly (debug : Bool) (c : RequestContainer V) : Op V → Prop
  | .push _ =>
    debug = true ∨ c.waitingQueue.items ≠ [] ∨ c.producerQueue.size ≠ c.producerQueue.cap
  | .pop => c.pushWaitingQueue.items = []

/-! ## The hub -/

def hub (c : RequestContainer V) : Hub Unit V Nat Nat where
  leftover := []
  lane := fun _ =>
    ⟨c.pushWaitingQueue.items.map Prod.swap, c.producerQueue.items, c.producerQueue.cap⟩
  waiting := c.waitingQueue.items

theorem setLane_unit (h : Hub Unit V Nat Nat) (l : Lane V Nat) :
    h.setLane () l = { h with lane := fun _ => l } := by
  congr 1

theorem push_offer {request : V} {smp : Nat} {r : Offer Nat} (ho : Orderly debug c (.push request))
    (e : push c debug request smp = .ok (c', r)) :
    (hub c).offer () request smp = (hub c', r) := by
  unfold push at e
  split at e
  · rename_i pending rest hw
    cases e
    exact offer_waiting (hub c) () request smp hw
  · rename_i hw
    split at e
    · rename_i hfull
      have hdebug : debug = true :=
        ho.resolve_right fun h => h.elim (fun hne => hne hw) fun hne => hne hfull
      subst hdebug
      obtain ⟨q, hq, e⟩ := bind_eq_ok e
      cases e
      obtain ⟨-, rfl⟩ := pushBackNothrow_ok hq
      rw [offer_full (hub c) () request smp hw hfull, setLane_unit]
      simp [hub]
    · rename_i hroom
      obtain ⟨q, hq, e⟩ := bind_eq_ok e
      cases e
      obtain ⟨-, rfl⟩ := pushBackNothrow_ok hq
      rw [offer_room (hub c) () request smp hw hroom, setLane_unit]
      rfl

theorem pop_take {smp : Nat} {r : Take V Nat} (e : pop c smp = .ok (c', r)) :
    (hub c).take [()] smp = (hub c', r) := by
  unfold pop at e
  show (hub c).takeLanes smp [()] = _
  unfold Hub.takeLanes
  split at e
  · rename_i pending request rest hb
    cases e
    simp [hub, hb, setLane_unit]
  · rename_i request rest hb hq
    cases e
    simp [hub, hb, hq, setLane_unit]
  · rename_i hb hq
    obtain ⟨q, hpush, e⟩ := bind_eq_ok e
    cases e
    obtain ⟨-, rfl⟩ := pushBackNothrow_ok hpush
    simp [hub, hb, hq, Hub.takeLanes]

/-! ## The invariant -/

/-- The first calls of `pop` have the vectors `rs`, and the other `k` wait in their order. -/
structure Inv (vectors rs : List V) (k : Nat) (w : World V) : Prop where
  fair : Fair (hub w.container)
  pops : w.pops = rs.map .returned ++ List.replicate k .waiting
  waiting : w.container.waitingQueue.items = List.range' rs.length k
  order : rs ++ held w.container = vectors
  registered : ∀ q request,
    w.pushes[q]? = some (.waiting request) ↔ (q, request) ∈ w.container.pushWaitingQueue.items

theorem Inv.of_fresh (h : Fresh w) : Inv [] [] 0 w := by
  obtain ⟨queueCap, recvSz, pushSz, c, hc, rfl⟩ := h
  have hempty : c.producerQueue.items = [] ∧ c.waitingQueue.items = [] ∧
      c.pushWaitingQueue.items = [] := by
    obtain ⟨-, -, hc⟩ := bind_eq_ok hc
    obtain ⟨-, -, hc⟩ := bind_eq_ok hc
    obtain ⟨-, -, hc⟩ := bind_eq_ok hc
    cases hc
    exact ⟨rfl, rfl, rfl⟩
  obtain ⟨hp, hw, hb⟩ := hempty
  refine ⟨⟨fun hne => absurd hw hne, fun _ hne => absurd (by simp [hub, hb]) hne⟩, rfl, hw, ?_, ?_⟩
  · simp [held, hp, hb]
  · simp [hb]

variable {vectors rs : List V} {k : Nat}

theorem Inv.held_eq_nil (hi : Inv vectors rs k w) (hk : k ≠ 0) :
    held w.container = [] := by
  have hw : (hub w.container).waiting ≠ [] := by
    show w.container.waitingQueue.items ≠ []
    rw [hi.waiting]
    intro h
    have := congrArg List.length h
    simp only [List.length_range', List.length_nil] at this
    exact hk this
  obtain ⟨hb, hq⟩ := (hi.fair.idle hw).2 ()
  have hb : w.container.pushWaitingQueue.items.map Prod.swap = [] := hb
  have hq : w.container.producerQueue.items = [] := hq
  rw [List.map_eq_nil_iff] at hb
  simp [held, hb, hq]

theorem set_first_waiting (rs : List V) (k : Nat) (request : V) :
    (rs.map PopPhase.returned ++ List.replicate (k + 1) PopPhase.waiting).set rs.length
        (.returned request) =
      (rs ++ [request]).map .returned ++ List.replicate k .waiting := by
  simp [List.replicate_succ]

theorem returned_registered (hi : Inv vectors rs k w) (q : Nat) (request : V) :
    (w.pushes ++ [PushPhase.returned])[q]? = some (.waiting request) ↔
      (q, request) ∈ w.container.pushWaitingQueue.items := by
  rw [← hi.registered q request]
  grind

theorem Inv.push {request : V} (hi : Inv vectors rs k w)
    (ho : Orderly debug w.container (.push request)) (e : Step debug w (.push request) w') :
    ∃ rs' k', Inv (vectors ++ [request]) rs' k' w' := by
  obtain ⟨⟨c, r⟩, hpush, e⟩ := bind_eq_ok e
  cases e
  have hoffer := push_offer ho hpush
  have hfair := hi.fair.offer hoffer
  unfold push at hpush
  split at hpush
  · -- handed to the first call that waits
    rename_i p rest hw
    cases hpush
    have hwaiting := hi.waiting
    rw [hw] at hwaiting
    cases k with
    | zero => cases hwaiting
    | succ k =>
      rw [List.range'_succ, List.cons.injEq] at hwaiting
      obtain ⟨rfl, hrest⟩ := hwaiting
      have hheld := hi.held_eq_nil (Nat.succ_ne_zero k)
      refine ⟨rs ++ [request], k, hfair, ?_, ?_, ?_, ?_⟩
      · show w.pops.set _ _ = _
        rw [hi.pops, set_first_waiting]
      · simpa [World.afterPush] using hrest
      · have horder := hi.order
        show (rs ++ [request]) ++ held w.container = _
        rw [hheld, List.append_nil] at horder ⊢
        rw [horder]
      · exact fun q v => returned_registered hi q v
  · rename_i hw
    split at hpush
    · rename_i hfull
      have hdebug : debug = true :=
        ho.resolve_right fun h => h.elim (fun hne => hne hw) fun hne => hne hfull
      subst hdebug
      obtain ⟨q0, hq0, hpush⟩ := bind_eq_ok hpush
      cases hpush
      obtain ⟨-, rfl⟩ := pushBackNothrow_ok hq0
      refine ⟨rs, k, hfair, hi.pops, hi.waiting, ?_, ?_⟩
      · rw [← hi.order]
        simp [World.afterPush, held]
      · intro q v
        have hreg := hi.registered q v
        show (w.pushes ++ [PushPhase.waiting request])[q]? = _ ↔
          (q, v) ∈ w.container.pushWaitingQueue.items ++ [(w.pushes.length, request)]
        grind
    · obtain ⟨q0, hq0, hpush⟩ := bind_eq_ok hpush
      cases hpush
      obtain ⟨-, rfl⟩ := pushBackNothrow_ok hq0
      -- a queue with room has nobody behind it
      have hempty : w.container.pushWaitingQueue.items = [] := by
        rename_i hroom
        by_contra hne
        exact hroom (hi.fair.full () (by simpa [hub] using hne))
      refine ⟨rs, k, hfair, hi.pops, hi.waiting, ?_, ?_⟩
      · rw [← hi.order]
        simp [World.afterPush, held, hempty]
      · exact fun q v => returned_registered hi q v

theorem Inv.pop (hi : Inv vectors rs k w) (ho : Orderly debug w.container .pop)
    (e : Step debug w .pop w') :
    ∃ rs' k', Inv vectors rs' k' w' := by
  obtain ⟨⟨c, r⟩, hpop, e⟩ := bind_eq_ok e
  cases e
  have hfair := hi.fair.take (by simp) (pop_take hpop)
  have hblocked : w.container.pushWaitingQueue.items = [] := ho
  unfold pop at hpop
  split at hpop
  · rename_i hb
    rw [hblocked] at hb
    cases hb
  · -- the oldest vector of the queue
    rename_i request rest hb hq
    cases hpop
    have hk : k = 0 := by
      by_contra hne
      have := hi.held_eq_nil hne
      simp [held, hq] at this
    subst hk
    refine ⟨rs ++ [request], 0, hfair, ?_, ?_, ?_, hi.registered⟩
    · simp [World.afterPop, hi.pops]
    · exact hi.waiting
    · rw [← hi.order]
      simp [World.afterPop, held, hq, hb]
  · rename_i hb hq
    obtain ⟨q0, hq0, hpop⟩ := bind_eq_ok hpop
    cases hpop
    obtain ⟨-, rfl⟩ := pushBackNothrow_ok hq0
    refine ⟨rs, k + 1, hfair, ?_, ?_, hi.order, hi.registered⟩
    · show w.pops ++ [PopPhase.waiting] = _
      rw [hi.pops, List.append_assoc, List.replicate_succ']
    · show w.container.waitingQueue.items ++ [w.pops.length] = _
      rw [hi.waiting, List.range'_concat, hi.pops]
      simp

/-! ## Runs -/

/-- **RequestContainer loses no request in the orderly runs**: the calls of `pop` get the pushed
vectors, each one, in the order in which they were pushed; every call of `push` that waits is registered with
its request; and no call of `pop` waits while there is something in the container. -/
theorem requests_of_orderly
    (h : Reach Fresh (fun w op w' => Step debug w op w' ∧ Orderly debug w.container op) w hist) :
    ∃ rs k, w.pops = rs.map .returned ++ List.replicate k .waiting ∧
      rs ++ held w.container = pushed hist ∧
      (k ≠ 0 → held w.container = []) ∧
      ∀ q request, w.pushes[q]? = some (.waiting request) ↔
        (q, request) ∈ w.container.pushWaitingQueue.items := by
  obtain ⟨rs, k, hi⟩ : ∃ rs k, Inv (pushed hist) rs k w := by
    refine h.inv (fun w hist => ∃ rs k, Inv (pushed hist) rs k w)
      (fun s hs => ⟨[], 0, Inv.of_fresh hs⟩) ?_
    rintro s hist op s' ⟨rs, k, hi⟩ ⟨hstep, ho⟩
    rw [pushed_append]
    cases op with
    | push request => exact hi.push ho hstep
    | pop =>
      rw [pushed, pushed, List.append_nil]
      exact hi.pop ho hstep
  exact ⟨rs, k, hi.pops, hi.order, hi.held_eq_nil, hi.registered⟩

/-- A call of `pop` waits, the next two pushed vectors go to it and to the queue. -/
theorem requests_of_orderly_two : ∃ w : World Nat, w.pops = [.returned 5, .waiting] ∧
    ∃ (rs : List Nat) (k : Nat), w.pops = rs.map .returned ++ List.replicate k .waiting ∧
      (k ≠ 0 → held w.container = []) := by
  obtain ⟨w0, h0, w1, h1, w2, h2, w3, h3, hw⟩ : ∃ w0 : World Nat, Fresh w0 ∧
      ∃ w1, (Step false w0 .pop w1 ∧ Orderly false w0.container .pop) ∧
      ∃ w2, (Step false w1 (.push 5) w2 ∧ Orderly false w1.container (.push 5)) ∧
      ∃ w3, (Step false w2 .pop w3 ∧ Orderly false w2.container .pop) ∧
      w3.pops = [.returned 5, .waiting] :=
    ⟨⟨⟨⟨[], 2⟩, ⟨[], 2⟩, ⟨[], 1⟩⟩, [], []⟩, ⟨2, 2, 1, _, by decide +kernel, rfl⟩,
      ⟨⟨⟨[], 2⟩, ⟨[0], 2⟩, ⟨[], 1⟩⟩, [], [.waiting]⟩, ⟨rfl, rfl⟩,
      ⟨⟨⟨[], 2⟩, ⟨[], 2⟩, ⟨[], 1⟩⟩, [.returned], [.returned 5]⟩, ⟨rfl, .inr (.inl (by decide))⟩,
      ⟨⟨⟨[], 2⟩, ⟨[1], 2⟩, ⟨[], 1⟩⟩, [.returned], [.returned 5, .waiting]⟩, ⟨rfl, rfl⟩, rfl⟩
  have hreach : Reach Fresh (fun w op w' => Step false w op w' ∧ Orderly false w.container op) w3
      [.pop, .push 5, .pop] := .step (.step (.step (.init h0) h1) h2) h3
  obtain ⟨rs, k, hp, -, hk, -⟩ := requests_of_orderly hreach
  exact ⟨w3, hw, rs, k, hp, hk⟩

/-- Without debug mode, the second request of a queue of one is lost: its caller waits for ever and is
not registered, and a call of `pop` waits beside it. -/
theorem request_lost : ∃ w : World Nat,
    Reach Fresh (Step false) w [.push 5, .push 6, .pop, .pop] ∧
    w.pushes = [.returned, .waiting 6] ∧ w.pops = [.returned 5, .waiting] ∧
    held w.container = [] := by
  have h0 : Fresh (⟨⟨⟨[], 1⟩, ⟨[], 2⟩, ⟨[], 1⟩⟩, [], []⟩ : World Nat) :=
    ⟨1, 2, 1, _, by decide +kernel, rfl⟩
  exact ⟨⟨⟨⟨[], 1⟩, ⟨[1], 2⟩, ⟨[], 1⟩⟩, [.returned, .waiting 6], [.returned 5, .waiting]⟩,
    .step (.step (.step (.step (.init h0) (show World.step _ false (.push 5) = .ok _ from rfl))
      (show World.step _ false (.push 6) = .ok _ from rfl))
      (show World.step _ false .pop = .ok _ from rfl))
      (show World.step _ false .pop = .ok _ from rfl), rfl, rfl, rfl⟩

end RestFrame.Requests
