import NeuralNetwork.InternalRest.FifoContainer

/-!
# When a FIFO container is a FIFO queue

`Inv`: a call of `push` waits only behind a full queue. `pop` serves the waiting calls first, so it
takes items out of order exactly when it finds both. `Orderly` excludes these calls of `pop`;
`fifo_of_orderly` is the conservation law `popped ++ held = pushed` of the runs without them.
-/

namespace FifoContainer

open Cpp Loop CyclicUnordered Run

variable {T : Type} {debug : Bool} {c c' : FIFOContainer T} {hist : List (Event T)}

/-! ## The ledger -/

def pushed : List (Event T) → List T
  | [] => []
  | (.push arr, _) :: es => arr ++ pushed es
  | (.pop _, _) :: es => pushed es

def popped (es : List (Event T)) : List T := es.flatMap Prod.snd

@[simp] theorem pushed_append (es fs : List (Event T)) :
    pushed (es ++ fs) = pushed es ++ pushed fs := by
  induction es with
  | nil => rfl
  | cons e es ih =>
    obtain ⟨op, out⟩ := e
    cases op <;> simp [pushed, ih]

def waiting (c : FIFOContainer T) : List T := c.waitingItemVec.items.flatMap (·.arr)

/-- What is in the container, the oldest first if no call of `pop` overtook. -/
def held (c : FIFOContainer T) : List T := c.vec.items ++ waiting c

/-- A call of `pop` that finds a waiting call of `push` finds the queue empty, or asks for nothing.
-/
def Orderly (c : FIFOContainer T) : Op T → Prop
  | .push _ => True
  | .pop cap => cap = 0 ∨ c.waitingItemVec.items = [] ∨ c.vec.items = []

structure Inv (c : FIFOContainer T) : Prop where
  capacity : c.vecCapacity < 2 ^ 64
  size : c.vec.size ≤ c.vecCapacity
  full : c.waitingItemVec.items ≠ [] → c.vec.size = c.vecCapacity

theorem Inv.of_fresh (h : Fresh c) : Inv c ∧ held c = [] := by
  obtain ⟨w, v, cap, consume, hcap, rfl⟩ := h
  exact ⟨⟨hcap, Nat.zero_le _, fun h => absurd rfl h⟩, rfl⟩

/-! ## push -/

theorem resizeCopy_ok {q q' : Pow2CyclicQueue T} {xs : List T} (h : q.resizeCopy xs = .ok q') :
    q'.items = q.items ++ xs := by
  unfold Pow2CyclicQueue.resizeCopy at h
  split at h
  · cases h
  · cases h; rfl

variable {s : PopState T} {cap : Nat} {needAcquire : Bool}

/-- What a call of `push` does: its batch goes into the queue, or what does not fit waits. -/
theorem push_cases {arr : List T} {smp : Nat} (hi : Inv c)
    (h : push debug c arr smp = .ok (c', needAcquire)) :
    c'.vecCapacity = c.vecCapacity ∧ ∃ k, k = min arr.length (c.vecCapacity - c.vec.size) ∧
      c'.vec.items = c.vec.items ++ arr.take k ∧
      ((k = arr.length ∧ c'.waitingItemVec.items = c.waitingItemVec.items) ∨
        (k ≠ arr.length ∧
          c'.waitingItemVec.items = c.waitingItemVec.items ++ [⟨arr.drop k, smp⟩])) := by
  unfold push at h
  rw [subT_of_le hi.size hi.capacity] at h
  split at h
  · cases h
  · obtain ⟨vec, hvec, h⟩ := bind_eq_ok h
    split at h
    case isTrue hk =>
      obtain ⟨w, hw, h⟩ := bind_eq_ok h
      cases h
      exact ⟨rfl, _, rfl, resizeCopy_ok hvec, .inr ⟨hk, by rw [(Pow2CyclicQueue.pushBackNothrow_ok hw).2]⟩⟩
    case isFalse hk =>
      cases h
      exact ⟨rfl, _, rfl, resizeCopy_ok hvec, .inl ⟨not_not.1 hk, rfl⟩⟩

theorem push_ok {arr : List T} {smp : Nat} (hi : Inv c)
    (h : push debug c arr smp = .ok (c', needAcquire)) : Inv c' ∧ held c' = held c ++ arr := by
  obtain ⟨hcap, k, hk, hvec, hw⟩ := push_cases hi h
  have hsize : c'.vec.size = c.vec.size + k := by
    simp only [Pow2CyclicQueue.size, hvec, List.length_append, List.length_take]
    omega
  have hle := hi.size
  rcases hw with ⟨hall, hw⟩ | ⟨hnot, hw⟩
  · have hkeep : c.waitingItemVec.items = [] ∨ arr.take k = [] := by
      by_cases hempty : c.waitingItemVec.items = []
      · exact .inl hempty
      · have := hi.full hempty
        exact .inr (by rw [show k = 0 by omega]; rfl)
    refine ⟨⟨by rw [hcap]; exact hi.capacity, by omega, fun hne => ?_⟩, ?_⟩
    · have := hi.full (by rwa [hw] at hne)
      omega
    · have htake : arr.take k = arr := by rw [hall, List.take_length]
      rw [htake] at hkeep hvec
      rcases hkeep with hempty | rfl
      · simp [held, waiting, hvec, hw, hempty]
      · simp [held, waiting, hvec, hw]
  · refine ⟨⟨by rw [hcap]; exact hi.capacity, by omega, fun _ => by omega⟩, ?_⟩
    have hfull : waiting c = [] ∨ arr.take k = [] := by
      by_cases hempty : c.waitingItemVec.items = []
      · exact .inl (by simp [waiting, hempty])
      · have := hi.full hempty
        exact .inr (by rw [show k = 0 by omega]; rfl)
    have hsplit : arr.take k ++ arr.drop k = arr := List.take_append_drop k arr
    rcases hfull with hempty | htake
    · simp only [waiting] at hempty
      simp [held, waiting, hvec, hw, hempty, hsplit]
    · rw [htake, List.nil_append] at hsplit
      simp [held, waiting, hvec, hw, htake, hsplit]

/-! ## pop -/

/-- What `pop` has taken so far: first from the waiting calls, and from the queue only when no call
waits any more. -/
structure Taken (c : FIFOContainer T) (cap : Nat) (s : PopState T) (fromWaiting fromVec : List T) :
    Prop where
  output : s.output = fromWaiting ++ fromVec
  ofWaiting : waiting c = fromWaiting ++ waiting s.container
  ofVec : c.vec.items = fromVec ++ s.container.vec.items
  order : fromVec = [] ∨ s.container.waitingItemVec.items = []
  room : s.output.length ≤ cap
  capacity : s.container.vecCapacity = c.vecCapacity
  none : c.waitingItemVec.items = [] → s.container.waitingItemVec.items = []

theorem Taken.init (cap : Nat) : Taken c cap ⟨c, [], []⟩ [] [] :=
  ⟨rfl, rfl, rfl, .inl rfl, Nat.zero_le _, rfl, id⟩

/-- The rounds left: every round fills the output or empties a waiting item. -/
def popMeasure (cap : Nat) (s : PopState T) : Nat :=
  cap - s.output.length + s.container.waitingItemVec.size

theorem Taken.round {fromWaiting fromVec : List T} (h : Taken c cap s fromWaiting fromVec) :
    (∃ s', popRound cap s = .ok (.yield s') ∧ (∃ w v, Taken c cap s' w v) ∧
        popMeasure cap s' < popMeasure cap s) ∨ popRound cap s = .ok (.done s) := by
  have hroom := h.room
  by_cases hfull : s.output.length = cap
  · exact .inr (by rw [popRound, if_pos hfull])
  · cases hw : s.container.waitingItemVec.items with
    | nil =>
      by_cases hempty : s.container.vec.size = 0
      · exact .inr (by simp [popRound, hfull, hw, hempty])
      · -- from the queue
        refine .inl ⟨_, by simp [popRound, hfull, hw, hempty]; rfl, ⟨fromWaiting, fromVec ++
          s.container.vec.items.take (min (cap - s.output.length) s.container.vec.size), ?_⟩, ?_⟩
        · constructor
          · simp [h.output]
          · simpa [waiting] using h.ofWaiting
          · simp [h.ofVec, Pow2CyclicQueue.eraseFrontRange]
          · exact .inr hw
          · simp [Pow2CyclicQueue.size]; omega
          · exact h.capacity
          · exact fun _ => hw
        · simp only [Pow2CyclicQueue.size] at hempty
          simp [popMeasure, Pow2CyclicQueue.size, hw]
          omega
    | cons front others =>
      have hv : fromVec = [] := h.order.resolve_right (by simp [hw])
      subst hv
      have hne : c.waitingItemVec.items ≠ [] := fun he => by simp [h.none he] at hw
      by_cases hall : min (cap - s.output.length) front.arr.length = front.arr.length
      · -- a waiting call that is served to its end
        refine .inl ⟨_, by simp [popRound, hfull, hw, hall]; rfl,
          ⟨fromWaiting ++ front.arr, [], ?_⟩, ?_⟩
        · constructor
          · simp [h.output]
          · have := h.ofWaiting
            simpa [waiting, hw] using this
          · exact h.ofVec
          · exact .inl rfl
          · simp; omega
          · exact h.capacity
          · exact fun he => absurd he hne
        · simp [popMeasure, Pow2CyclicQueue.size, hw]
          omega
      · -- a waiting call that is served in part
        refine .inl ⟨_, by simp [popRound, hfull, hw, hall]; rfl,
          ⟨fromWaiting ++ front.arr.take (min (cap - s.output.length) front.arr.length), [], ?_⟩,
          ?_⟩
        · constructor
          · simp [h.output]
          · have := h.ofWaiting
            rw [this]
            simp only [waiting, hw, List.flatMap_cons, List.append_assoc, List.append_cancel_left_eq]
            rw [← List.append_assoc, List.take_append_drop]
          · exact h.ofVec
          · exact .inl rfl
          · simp; omega
          · exact h.capacity
          · exact fun he => absurd he hne
        · simp [popMeasure, Pow2CyclicQueue.size, hw]
          omega

theorem pop_ok (c : FIFOContainer T) (cap : Nat) :
    ∃ s w v, pop c cap = .ok s ∧ Taken c cap s w v := by
  have hloop : ∃ s, pop c cap = .ok s ∧ ∃ w v, Taken c cap s w v := by
    refine whileLoop_ok (fun s => ∃ w v, Taken c cap s w v) (fun s => ∃ w v, Taken c cap s w v)
      (popMeasure cap) ⟨[], [], Taken.init cap⟩ (by simp [popMeasure]) ?_
    rintro s ⟨w, v, hs⟩
    rcases hs.round with ⟨s', e, h', hm⟩ | e
    · exact .inl ⟨s', e, h', hm⟩
    · exact .inr ⟨s, e, w, v, hs⟩
  obtain ⟨s, e, w, v, h⟩ := hloop
  exact ⟨s, w, v, e, h⟩

theorem Taken.inv {w v : List T} (h : Taken c cap s w v) (hi : Inv c) :
    Inv s.container := by
  have hlen := congrArg List.length h.ofVec
  rw [List.length_append] at hlen
  have hsize := hi.size
  simp only [Pow2CyclicQueue.size] at hsize
  refine ⟨by rw [h.capacity]; exact hi.capacity, ?_, fun hne => ?_⟩
  · simp only [Pow2CyclicQueue.size, h.capacity]
    omega
  · have hv : v = [] := h.order.resolve_right hne
    have hfull := hi.full fun he => hne (h.none he)
    simp only [Pow2CyclicQueue.size, h.capacity, hv, List.length_nil] at hfull hlen ⊢
    omega

/-- Without a waiting call or without a queue in front of it, `pop` takes the oldest items. -/
theorem Taken.orderly {w v : List T} (h : Taken c cap s w v) (ho : Orderly c (.pop cap)) :
    held c = s.output ++ held s.container := by
  have hw := h.ofWaiting
  have hv := h.ofVec
  rcases ho with rfl | hempty | hempty
  · have hout : s.output = [] := List.length_eq_zero_iff.1 (Nat.le_zero.1 h.room)
    obtain ⟨rfl, rfl⟩ : w = [] ∧ v = [] := by simpa [hout] using h.output.symm
    simp [held, hw, hv, hout]
  · have hw0 : waiting c = [] := by simp [waiting, hempty]
    rw [hw0] at hw
    obtain ⟨rfl, hs⟩ : w = [] ∧ waiting s.container = [] := by simpa using hw.symm
    simp [held, hw0, hs, hv, h.output]
  · rw [hempty] at hv
    obtain ⟨rfl, hs⟩ : v = [] ∧ s.container.vec.items = [] := by simpa using hv.symm
    simp [held, hempty, hs, hw, h.output]

/-! ## Runs -/

/-- **A container is a FIFO queue in the runs in which no call of `pop` finds a waiting call behind a
queue that is not empty**: the results of `pop` and then what is held are the pushed batches. -/
theorem fifo_of_orderly
    (h : Reach Fresh (fun c e c' => Step debug c e c' ∧ Orderly c e.1) c hist) :
    popped hist ++ held c = pushed hist ∧ popped hist <+: pushed hist := by
  suffices Inv c ∧ popped hist ++ held c = pushed hist from ⟨this.2, held c, this.2⟩
  refine h.inv (fun c hist => Inv c ∧ popped hist ++ held c = pushed hist)
    (fun s hs => ⟨(Inv.of_fresh hs).1, by simp [(Inv.of_fresh hs).2, popped, pushed]⟩) ?_
  rintro s hist a s' ⟨hi, heq⟩ ⟨hstep, ho⟩
  cases hstep with
  | push hpush =>
    obtain ⟨hi', hheld⟩ := push_ok hi hpush
    refine ⟨hi', ?_⟩
    rw [hheld, pushed_append, ← heq]
    simp [popped, pushed]
  | @pop cap r hpop =>
    obtain ⟨s', w, v, e, ht⟩ := pop_ok s cap
    rw [e] at hpop
    cases hpop
    refine ⟨ht.inv hi, ?_⟩
    rw [pushed_append, ← heq, ht.orderly ho]
    simp [popped, pushed]

theorem fifo_of_orderly_two :
    popped [(.push [1, 2], []), (.pop 1, [1])] <+: pushed [(.push [1, 2], []), (.pop 1, [1])] := by
  have h0 : Fresh (make 0 1 2 2 : FIFOContainer Nat) := ⟨0, 1, 2, 2, by decide, rfl⟩
  have h1 : push false (make 0 1 2 2 : FIFOContainer Nat) [1, 2] 0 =
      .ok (⟨⟨[], 1⟩, ⟨[1, 2], 2⟩, 2, 2⟩, false) := by decide +kernel
  have h2 : pop (⟨⟨[], 1⟩, ⟨[1, 2], 2⟩, 2, 2⟩ : FIFOContainer Nat) 1 =
      .ok ⟨⟨⟨[], 1⟩, ⟨[2], 2⟩, 2, 2⟩, [1], []⟩ := by decide +kernel
  exact (@fifo_of_orderly Nat false _ _ (.step (.step (.init h0) ⟨.push h1, trivial⟩)
    ⟨.pop h2, .inr (.inl rfl)⟩)).2

/-- The queue holds one item: of the batch 1, 2 the item 2 waits, and is popped first. -/
theorem pop_overtakes : ∃ (c : FIFOContainer Nat) (hist : List (Event Nat)),
    Reach Fresh (Step false) c hist ∧ ¬ popped hist <+: pushed hist := by
  have h0 : Fresh (make 0 0 1 2 : FIFOContainer Nat) := ⟨0, 0, 1, 2, by decide, rfl⟩
  have h1 : push false (make 0 0 1 2 : FIFOContainer Nat) [1, 2] 0 =
      .ok (⟨⟨[⟨[2], 0⟩], 1⟩, ⟨[1], 1⟩, 1, 2⟩, true) := by decide +kernel
  have h2 : pop (⟨⟨[⟨[2], 0⟩], 1⟩, ⟨[1], 1⟩, 1, 2⟩ : FIFOContainer Nat) 1 =
      .ok ⟨⟨⟨[], 1⟩, ⟨[1], 1⟩, 1, 2⟩, [2], [0]⟩ := by decide +kernel
  refine ⟨_, _, .step (.step (.init h0) (.push h1)) (.pop h2), ?_⟩
  simp [popped, pushed]

end FifoContainer
