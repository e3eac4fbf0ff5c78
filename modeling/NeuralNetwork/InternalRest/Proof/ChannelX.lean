import Mathlib.Data.List.Nodup
import NeuralNetwork.InternalRest.ChannelX

/-!
# A channel is a bounded FIFO queue

`Ledger` is the account of one channel: the messages pushed are those delivered or dropped, in this
order, followed by the buffered ones; the calls of `pop` are those released, in this order, followed
by the waiting ones; and a call holds exactly what was delivered to it. Every micro-step of the two
critical sections keeps it, and `container_refines_fifo` reads it off after any run.
-/

namespace StickyChannel

open Cpp Loop Stdx

variable {M : Type}

/-! ## What effects say -/

def taken : List (Effect M) → List M
  | [] => []
  | .deliver _ m :: es => m :: taken es
  | .drop m _ :: es => m :: taken es
  | .release _ :: es => taken es

/-- The call of `pop` that a consumer stands for, and what it asked for. -/
def Consumer.call (c : Consumer M) : Nat × Nat := (c.id, c.recvBufferCap)

def released : List (Effect M) → List (Nat × Nat)
  | [] => []
  | .release c :: es => c.call :: released es
  | _ :: es => released es

def deliveredTo (id : Nat) : List (Effect M) → List M
  | [] => []
  | .deliver j m :: es => if j = id then m :: deliveredTo id es else deliveredTo id es
  | _ :: es => deliveredTo id es

@[simp] theorem taken_append (es fs : List (Effect M)) : taken (es ++ fs) = taken es ++ taken fs := by
  induction es with
  | nil => rfl
  | cons e es ih => cases e <;> simp [taken, ih]

@[simp] theorem released_append (es fs : List (Effect M)) :
    released (es ++ fs) = released es ++ released fs := by
  induction es with
  | nil => rfl
  | cons e es ih => cases e <;> simp [released, ih]

@[simp] theorem deliveredTo_append (id : Nat) (es fs : List (Effect M)) :
    deliveredTo id (es ++ fs) = deliveredTo id es ++ deliveredTo id fs := by
  induction es with
  | nil => rfl
  | cons e es ih =>
    cases e with
    | deliver j m => by_cases h : j = id <;> simp [deliveredTo, h, ih]
    | release c => simp [deliveredTo, ih]
    | drop m rest => simp [deliveredTo, ih]

variable {hist : History M} {debug : Bool} {c : Channel} {es : List (Effect M)}

theorem mem_released {c : Consumer M} (h : Effect.release c ∈ es) :
    c.call ∈ released es := by
  induction es with
  | nil => cases h
  | cons e es ih =>
    rcases List.mem_cons.1 h with rfl | h
    · exact List.mem_cons_self
    · have ih := ih h
      cases e with
      | deliver j m => exact ih
      | release k => exact List.mem_cons_of_mem _ ih
      | drop m rest => exact ih

theorem deliveredTo_eq_nil {id : Nat} (h : ∀ m, Effect.deliver id m ∉ es) : deliveredTo id es = [] := by
  induction es with
  | nil => rfl
  | cons e es ih =>
    have ih' := ih fun m hm => h m (List.mem_cons_of_mem _ hm)
    cases e with
    | deliver j m =>
      by_cases hj : j = id
      · subst hj; exact absurd List.mem_cons_self (h m)
      · simp [deliveredTo, hj, ih']
    | release c => simpa [deliveredTo] using ih'
    | drop m rest => simpa [deliveredTo] using ih'

/-! ## The account of a channel -/

/-- The account of a channel of queue capacity `cap`: `pushed` and `arrivals` are the messages pushed
and the calls of `pop` that asked for messages (with how many), `es` the effects so far, `waiting` and `buf` the
consumers and messages it holds. -/
structure Ledger (cap : Nat) (pushed : List M) (arrivals : List (Nat × Nat)) (es : List (Effect M))
    (waiting : List (Consumer M)) (buf : List M) : Prop where
  messages : pushed = taken es ++ buf
  pops : arrivals = released es ++ waiting.map Consumer.call
  nodup : (arrivals.map Prod.fst).Nodup
  waits : ∀ k ∈ waiting, k.recvBuffer = deliveredTo k.id es ∧
    k.recvBuffer.length < k.recvBufferCap
  releases : ∀ k, Effect.release k ∈ es → k.recvBuffer = deliveredTo k.id es ∧
    1 ≤ k.recvBuffer.length ∧ k.recvBuffer.length ≤ k.recvBufferCap
  delivers : ∀ id m, Effect.deliver id m ∈ es → id ∈ arrivals.map Prod.fst
  drops : ∀ m rest, Effect.drop m rest ∈ es → rest.length + 1 = cap

variable {cap : Nat} {pushed : List M} {arrivals : List (Nat × Nat)} {es : List (Effect M)}
  {waiting : List (Consumer M)} {buf : List M} {front : Consumer M} {m : M}

theorem Ledger.front_fresh (h : Ledger cap pushed arrivals es (front :: waiting) buf) :
    (∀ k, Effect.release k ∈ es → front.id ≠ k.id) ∧ ∀ k ∈ waiting, k.id ≠ front.id := by
  have hn := h.nodup
  rw [h.pops, List.map_append, List.nodup_append] at hn
  obtain ⟨-, h2, h3⟩ := hn
  rw [List.map_cons, List.map_cons, List.nodup_cons] at h2
  refine ⟨fun k hk he => h3 _ (List.mem_map_of_mem (mem_released hk)) _ List.mem_cons_self he.symm,
    fun k hk he => h2.1 ?_⟩
  simp only [Consumer.call] at h2 ⊢
  rw [← he]
  exact List.mem_map_of_mem (List.mem_map_of_mem (f := Consumer.call) hk)

theorem Ledger.deliver_keep (h : Ledger cap pushed arrivals es (front :: waiting) [])
    (hroom : (front.receive m).recvBuffer.length < front.recvBufferCap) :
    Ledger cap (pushed ++ [m]) arrivals (es ++ [.deliver front.id m])
      (front.receive m :: waiting) [] := by
  obtain ⟨hrel, hother⟩ := h.front_fresh
  have hfront := (h.waits front List.mem_cons_self).1
  have hid : front.id ∈ arrivals.map Prod.fst := by rw [h.pops]; simp [Consumer.call]
  constructor
  · rw [h.messages]; simp [taken]
  · rw [h.pops]; simp [released, Consumer.receive, Consumer.call]
  · exact h.nodup
  · intro k hk
    rcases List.mem_cons.1 hk with rfl | hk
    · exact ⟨by simp [Consumer.receive, deliveredTo, hfront], hroom⟩
    · have hne := hother k hk
      obtain ⟨h1, h2⟩ := h.waits k (List.mem_cons_of_mem _ hk)
      exact ⟨by simp [deliveredTo, h1, hne.symm], h2⟩
  · intro k hk
    have hk : Effect.release k ∈ es := by simpa using hk
    obtain ⟨h1, h2⟩ := h.releases k hk
    have hne := hrel k hk
    exact ⟨by simp [deliveredTo, hne, ← h1], h2⟩
  · intro id m' hm
    rcases List.mem_append.1 hm with hm | hm
    · exact h.delivers id m' hm
    · cases List.mem_singleton.1 hm; exact hid
  · intro m' rest hm
    exact h.drops m' rest (by simpa using hm)

theorem Ledger.release (h : Ledger cap pushed arrivals es (front :: waiting) buf)
    (hpos : 1 ≤ front.recvBuffer.length) :
    Ledger cap pushed arrivals (es ++ [.release front]) waiting buf := by
  constructor
  · rw [h.messages]; simp [taken]
  · rw [h.pops]; simp [released]
  · exact h.nodup
  · intro k hk
    obtain ⟨h1, h2⟩ := h.waits k (List.mem_cons_of_mem _ hk)
    exact ⟨by simp [deliveredTo, ← h1], h2⟩
  · intro k hk
    rcases List.mem_append.1 hk with hk | hk
    · obtain ⟨h1, h2⟩ := h.releases k hk
      exact ⟨by simp [deliveredTo, ← h1], h2⟩
    · obtain rfl : k = front := by simpa using hk
      obtain ⟨h1, h2⟩ := h.waits k List.mem_cons_self
      exact ⟨by simp [deliveredTo, ← h1], hpos, by omega⟩
  · intro id m' hm
    exact h.delivers id m' (by simpa using hm)
  · intro m' rest hm
    exact h.drops m' rest (by simpa using hm)

theorem Ledger.deliver_release (h : Ledger cap pushed arrivals es (front :: waiting) [])
    (hfull : (front.receive m).recvBuffer.length = front.recvBufferCap) :
    Ledger cap (pushed ++ [m]) arrivals
      (es ++ [.deliver front.id m] ++ [.release (front.receive m)]) waiting [] := by
  obtain ⟨hrel, hother⟩ := h.front_fresh
  obtain ⟨hfront, -⟩ := h.waits front List.mem_cons_self
  have hid : front.id ∈ arrivals.map Prod.fst := by rw [h.pops]; simp [Consumer.call]
  constructor
  · rw [h.messages]; simp [taken]
  · rw [h.pops]; simp [released, Consumer.receive, Consumer.call]
  · exact h.nodup
  · intro k hk
    have hne := hother k hk
    obtain ⟨h1, h2⟩ := h.waits k (List.mem_cons_of_mem _ hk)
    exact ⟨by simp [deliveredTo, ← h1, hne.symm], h2⟩
  · intro k hk
    rcases List.mem_append.1 hk with hk | hk
    · have hk : Effect.release k ∈ es := by simpa using hk
      obtain ⟨h1, h2⟩ := h.releases k hk
      have hne := hrel k hk
      exact ⟨by simp [deliveredTo, hne, ← h1], h2⟩
    · obtain rfl : k = front.receive m := by simpa using hk
      exact ⟨by simp [Consumer.receive, deliveredTo, ← hfront], by simp [Consumer.receive],
        Nat.le_of_eq hfull⟩
  · intro id m' hm
    rcases List.mem_append.1 hm with hm | hm
    · rcases List.mem_append.1 hm with hm | hm
      · exact h.delivers id m' hm
      · cases List.mem_singleton.1 hm; exact hid
    · simp at hm
  · intro m' rest hm
    exact h.drops m' rest (by simpa using hm)

theorem Ledger.buffer (h : Ledger cap pushed arrivals es waiting buf) (m : M) :
    Ledger cap (pushed ++ [m]) arrivals es waiting (buf ++ [m]) :=
  { h with messages := by rw [h.messages, List.append_assoc] }

theorem Ledger.drop {rest : List M} (h : Ledger cap pushed arrivals es waiting (m :: rest))
    (hfull : rest.length + 1 = cap) :
    Ledger cap pushed arrivals (es ++ [.drop m rest]) waiting rest := by
  constructor
  · rw [h.messages]; simp [taken]
  · rw [h.pops]; simp [released]
  · exact h.nodup
  · intro k hk
    obtain ⟨h1, h2⟩ := h.waits k hk
    exact ⟨by simp [deliveredTo, ← h1], h2⟩
  · intro k hk
    obtain ⟨h1, h2⟩ := h.releases k (by simpa using hk)
    exact ⟨by simp [deliveredTo, ← h1], h2⟩
  · intro id m' hm
    exact h.delivers id m' (by simpa using hm)
  · intro m' rest' hm
    rcases List.mem_append.1 hm with hm | hm
    · exact h.drops m' rest' hm
    · cases List.mem_singleton.1 hm; exact hfull

theorem nodup_concat {xs : List Nat} {x : Nat} (h : xs.Nodup) (hx : x ∉ xs) :
    (xs ++ [x]).Nodup := by
  rw [List.nodup_append]
  refine ⟨h, List.nodup_singleton _, fun a ha b hb => ?_⟩
  rintro rfl
  exact hx (by rwa [List.mem_singleton.1 hb] at ha)

theorem Ledger.arrive {id c : Nat} (h : Ledger cap pushed arrivals es waiting buf)
    (hid : id ∉ arrivals.map Prod.fst) (hc : 0 < c) :
    Ledger cap pushed (arrivals ++ [(id, c)]) es (waiting ++ [⟨id, [], c⟩]) buf := by
  constructor
  · exact h.messages
  · rw [h.pops]; simp [Consumer.call]
  · rw [List.map_append]
    exact nodup_concat h.nodup hid
  · intro k hk
    rcases List.mem_append.1 hk with hk | hk
    · exact h.waits k hk
    · obtain rfl := List.mem_singleton.1 hk
      exact ⟨(deliveredTo_eq_nil fun m hm => hid (h.delivers _ m hm)).symm, hc⟩
  · exact h.releases
  · intro i m hm
    rw [List.map_append]
    exact List.mem_append_left _ (h.delivers i m hm)
  · exact h.drops

def drainEffects (id c : Nat) (xs : List M) : List (Effect M) :=
  xs.map (.deliver id) ++ [.release ⟨id, xs, c⟩]

@[simp] theorem taken_drainEffects (id c : Nat) (xs : List M) :
    taken (drainEffects id c xs) = xs := by
  induction xs with
  | nil => rfl
  | cons x xs ih =>
    simp only [drainEffects, taken_append, List.map_cons, taken] at ih ⊢
    simpa using ih

@[simp] theorem released_drainEffects (id c : Nat) (xs : List M) :
    released (drainEffects id c xs) = [(id, c)] := by
  have : ∀ xs : List M, released (xs.map (Effect.deliver id)) = [] := fun xs => by
    induction xs with
    | nil => rfl
    | cons x xs ih => simpa [released] using ih
  simp [drainEffects, this, released, Consumer.call]

theorem deliveredTo_drainEffects (id c j : Nat) (xs : List M) :
    deliveredTo j (drainEffects id c xs) = if id = j then xs else [] := by
  have : deliveredTo j (xs.map (Effect.deliver id)) = if id = j then xs else [] := by
    induction xs with
    | nil => simp [deliveredTo]
    | cons x xs ih => by_cases h : id = j <;> simp_all [deliveredTo]
  simp [drainEffects, this, deliveredTo]

theorem mem_drainEffects {id c : Nat} {xs : List M} {e : Effect M} :
    e ∈ drainEffects id c xs ↔ (∃ m ∈ xs, Effect.deliver id m = e) ∨ e = .release ⟨id, xs, c⟩ := by
  simp only [drainEffects, List.mem_append, List.mem_map, List.mem_singleton]

theorem Ledger.drain {id c n : Nat} (h : Ledger cap pushed arrivals es [] buf)
    (hid : id ∉ arrivals.map Prod.fst) (h1 : 1 ≤ (buf.take n).length)
    (hc : (buf.take n).length ≤ c) :
    Ledger cap pushed (arrivals ++ [(id, c)]) (es ++ drainEffects id c (buf.take n)) []
      (buf.drop n) := by
  have hnil : deliveredTo id es = [] := deliveredTo_eq_nil fun m hm => hid (h.delivers _ m hm)
  constructor
  · rw [h.messages]; simp
  · rw [h.pops]; simp
  · rw [List.map_append]
    exact nodup_concat h.nodup hid
  · exact fun k hk => absurd hk List.not_mem_nil
  · intro k hk
    rw [deliveredTo_append, deliveredTo_drainEffects]
    rcases List.mem_append.1 hk with hk | hk
    · obtain ⟨h2, h3⟩ := h.releases k hk
      have hne : id ≠ k.id := fun he => by
        refine hid (List.mem_map.2 ⟨k.call, ?_, he.symm⟩)
        rw [h.pops]
        exact List.mem_append_left _ (mem_released hk)
      exact ⟨by simp [hne, ← h2], h3⟩
    · obtain ⟨m, -, hm⟩ | hk := mem_drainEffects.1 hk
      · cases hm
      · cases hk
        exact ⟨by simp [hnil], h1, hc⟩
  · intro i m hm
    rw [List.map_append]
    rcases List.mem_append.1 hm with hm | hm
    · exact List.mem_append_left _ (h.delivers i m hm)
    · obtain ⟨m', -, hm⟩ | hm := mem_drainEffects.1 hm
      · cases hm
        exact List.mem_append_right _ (List.mem_singleton.2 rfl)
      · cases hm
  · intro m rest hm
    rcases List.mem_append.1 hm with hm | hm
    · exact h.drops m rest hm
    · obtain ⟨m', -, hm⟩ | hm := mem_drainEffects.1 hm <;> cases hm

/-! ## The critical sections -/

def waitingOn (s : StickyChannelContainer M) (c : Channel) : List (Consumer M) :=
  (s.consumerBufferMap c).getD []

def bufferedOn (s : StickyChannelContainer M) (c : Channel) : List M :=
  (s.channelBufferMap c).getD []

theorem StickyChannelContainer.queueCapacity_pos (s : StickyChannelContainer M) :
    0 < s.queueCapacity := Nat.two_pow_pos _

structure ChanInv (cap : Nat) (pushed : List M) (arrivals : List (Nat × Nat))
    (es : List (Effect M)) (waiting : List (Consumer M)) (buf : List M) : Prop where
  ledger : Ledger cap pushed arrivals es waiting buf
  fresh : ∀ k ∈ waiting, k.recvBuffer = []
  apart : buf ≠ [] → waiting = []
  bound : buf.length ≤ cap

/-- Only the first consumer may hold messages, and it does when the flag is set. -/
def PartlyFilled : Bool → List (Consumer M) → Prop
  | true, [] => False
  | true, front :: others => 1 ≤ front.recvBuffer.length ∧ ∀ k ∈ others, k.recvBuffer = []
  | false, waiting => ∀ k ∈ waiting, k.recvBuffer = []

theorem PartlyFilled.tail {need : Bool} {front : Consumer M} {others : List (Consumer M)}
    (h : PartlyFilled need (front :: others)) : ∀ k ∈ others, k.recvBuffer = [] := by
  cases need with
  | false => exact fun k hk => h k (List.mem_cons_of_mem _ hk)
  | true => exact h.2

/-- The loop over the consumers hands out a first part of the messages, all of them unless it runs
out of consumers. -/
theorem handOut_ok (debug : Bool) (ms : List M) {need : Bool} {es acc : List (Effect M)}
    (h : Ledger cap pushed arrivals (es ++ acc) waiting buf) (hbuf : waiting ≠ [] → buf = [])
    (hp : PartlyFilled need waiting) :
    ∃ r handed, handOut debug ms waiting need acc = .ok r ∧ ms = handed ++ r.baseStrArr ∧
      Ledger cap (pushed ++ handed) arrivals (es ++ r.effects) r.consumers buf ∧
      PartlyFilled r.needReleaseFront r.consumers ∧ (r.baseStrArr ≠ [] → r.consumers = []) ∧
      (r.consumers ≠ [] → waiting ≠ []) := by
  induction ms generalizing pushed waiting need acc with
  | nil =>
    exact ⟨⟨[], waiting, need, acc⟩, [], by rw [handOut], rfl, by simpa using h, hp, by simp, id⟩
  | cons m ms ih =>
    cases waiting with
    | nil =>
      exact ⟨⟨m :: ms, [], need, acc⟩, [], rfl, rfl, by simpa using h, hp, fun _ => rfl, id⟩
    | cons front others =>
      obtain rfl : buf = [] := hbuf (by simp)
      have hroom := (h.waits front List.mem_cons_self).2
      have hdebug : ¬ (debug ∧ front.recvBuffer.length = front.recvBufferCap) := by omega
      have hlen : (front.receive m).recvBuffer.length = front.recvBuffer.length + 1 := by
        simp [Consumer.receive]
      have hcap' : (front.receive m).recvBufferCap = front.recvBufferCap := rfl
      simp only [handOut, if_neg hdebug]
      by_cases hfull : (front.receive m).recvBuffer.length = (front.receive m).recvBufferCap
      · have hl := h.deliver_release hfull
        rw [List.append_assoc, List.append_assoc] at hl
        obtain ⟨r, handed, e, hms, hr, hp', hrest, -⟩ := ih hl (fun _ => rfl)
          (show PartlyFilled false others from hp.tail)
        refine ⟨r, m :: handed, ?_, by simp [hms], by simpa using hr, hp', hrest, by simp⟩
        rw [if_pos hfull, List.append_assoc]
        exact e
      · have hl := h.deliver_keep (m := m) (by omega)
        rw [List.append_assoc] at hl
        obtain ⟨r, handed, e, hms, hr, hp', hrest, -⟩ := ih hl (fun _ => rfl)
          (show PartlyFilled true (front.receive m :: others) from ⟨by omega, hp.tail⟩)
        refine ⟨r, m :: handed, ?_, by simp [hms], by simpa using hr, hp', hrest, by simp⟩
        rw [if_neg hfull]
        exact e

theorem releaseFront_ok {r : HandOut M} (h : Ledger cap pushed arrivals (es ++ r.effects)
    r.consumers buf) (hp : PartlyFilled r.needReleaseFront r.consumers) :
    ∃ r', releaseFront r = .ok r' ∧ r'.baseStrArr = r.baseStrArr ∧
      Ledger cap pushed arrivals (es ++ r'.effects) r'.consumers buf ∧
      (∀ k ∈ r'.consumers, k.recvBuffer = []) ∧ (r.consumers = [] → r'.consumers = []) := by
  obtain ⟨ms, consumers, need, effects⟩ := r
  cases need with
  | false => exact ⟨_, rfl, rfl, h, hp, id⟩
  | true =>
    cases consumers with
    | nil => exact absurd hp id
    | cons front others =>
      refine ⟨_, rfl, rfl, ?_, hp.2, by simp⟩
      have := h.release hp.1
      rwa [List.append_assoc] at this

theorem bufferRest_ok (hcap : 0 < cap) (ms : List M) {acc : List (Effect M)}
    (h : Ledger cap pushed arrivals (es ++ acc) waiting buf) (hb : buf.length ≤ cap) :
    ∃ queue effects, bufferRest cap ms buf acc = .ok (queue, effects) ∧
      Ledger cap (pushed ++ ms) arrivals (es ++ effects) waiting queue ∧ queue.length ≤ cap := by
  induction ms generalizing pushed buf acc with
  | nil => exact ⟨buf, acc, rfl, by simpa using h, hb⟩
  | cons m ms ih =>
    by_cases hfull : buf.length = cap
    · cases buf with
      | nil => simp at hfull; omega
      | cons oldest rest =>
        rw [List.length_cons] at hfull
        have hl := (h.drop hfull).buffer m
        rw [List.append_assoc] at hl
        obtain ⟨queue, effects, e, hr, hq⟩ := ih hl (by simp; omega)
        refine ⟨queue, effects, ?_, by simpa using hr, hq⟩
        have hne : ¬ rest.length = cap := by omega
        simp only [bufferRest, List.length_cons, if_pos hfull, pushBack, if_neg hne, ok_bind, e]
    · obtain ⟨queue, effects, e, hr, hq⟩ := ih (h.buffer m) (by simp; omega)
      refine ⟨queue, effects, ?_, by simpa using hr, hq⟩
      simp only [bufferRest, if_neg hfull, pushBack, ok_bind, e]

structure Frame (s s' : StickyChannelContainer M) (c : Channel) : Prop where
  waiting : ∀ d, d ≠ c → waitingOn s' d = waitingOn s d
  buffered : ∀ d, d ≠ c → bufferedOn s' d = bufferedOn s d
  pow2 : s'.pow2MaxChannelBufferSz = s.pow2MaxChannelBufferSz
  consume : s'.maxConsumeSz = s.maxConsumeSz

variable {s : StickyChannelContainer M}

/-- The first half of `push` hands out a first part of the messages and leaves the rest only to a
channel without waiting consumers. -/
theorem serveConsumers_ok (debug : Bool) (strArr : List M)
    (h : ChanInv cap pushed arrivals es (waitingOn s c) (bufferedOn s c)) :
    ∃ s' r handed, serveConsumers debug s c strArr = .ok (s', r) ∧ Frame s s' c ∧
      s'.channelBufferMap = s.channelBufferMap ∧ strArr = handed ++ r.baseStrArr ∧
      Ledger cap (pushed ++ handed) arrivals (es ++ r.effects) (waitingOn s' c) (bufferedOn s c) ∧
      (∀ k ∈ waitingOn s' c, k.recvBuffer = []) ∧ (r.baseStrArr ≠ [] → waitingOn s' c = []) ∧
      (waitingOn s' c ≠ [] → waitingOn s c ≠ []) := by
  cases hq : s.consumerBufferMap c with
  | none =>
    have hw : waitingOn s c = [] := by simp [waitingOn, hq]
    refine ⟨s, ⟨strArr, [], false, []⟩, [], by simp only [serveConsumers, hq],
      ⟨fun _ _ => rfl, fun _ _ => rfl, rfl, rfl⟩, rfl, rfl, by simpa using h.ledger, h.fresh,
      fun _ => hw, id⟩
  | some consumers =>
    have hw : waitingOn s c = consumers := by simp [waitingOn, hq]
    obtain ⟨h1, h2, h3, h4⟩ := h
    rw [hw] at h1 h2 h3
    have hbuf : consumers ≠ [] → bufferedOn s c = [] := fun hne => by
      by_contra hb; exact hne (h3 hb)
    have hl0 : Ledger cap pushed arrivals (es ++ []) consumers (bufferedOn s c) := by simpa using h1
    obtain ⟨r, handed, e1, hms, hl, hp, hrest, hc⟩ := handOut_ok debug strArr hl0 hbuf
      (show PartlyFilled false consumers from h2)
    obtain ⟨r', e2, hb, hl', hfresh, hnil⟩ := releaseFront_ok hl hp
    have hw' : waitingOn { s with consumerBufferMap := setAt s.consumerBufferMap c r'.consumers } c
        = r'.consumers := by simp [waitingOn, setAt]
    refine ⟨{ s with consumerBufferMap := setAt s.consumerBufferMap c r'.consumers }, r', handed,
      by simp only [serveConsumers, hq, e1, e2, ok_bind],
      ⟨fun d hdc => by simp [waitingOn, setAt, hdc], fun _ _ => rfl, rfl, rfl⟩, rfl,
      by rw [hb]; exact hms, ?_⟩
    rw [hw', hb, hw]
    exact ⟨hl', hfresh, fun hne => hnil (hrest hne), fun hne => hc fun hr => hne (hnil hr)⟩

theorem push_ok {strArr : List M} (hd : debug → strArr.length ≤ s.maxConsumeSz)
    (h : ChanInv s.queueCapacity pushed arrivals es (waitingOn s c) (bufferedOn s c)) :
    ∃ s' effects, push debug s c strArr = .ok (s', effects) ∧ Frame s s' c ∧
      ChanInv s.queueCapacity (pushed ++ strArr) arrivals (es ++ effects) (waitingOn s' c)
        (bufferedOn s' c) := by
  have hdebug : ¬ (debug ∧ strArr.length > s.maxConsumeSz) := fun ⟨h1, h2⟩ => by
    have := hd h1; omega
  obtain ⟨s1, r, handed, e, hf, hb1, hms, hl, hfresh, hrest, hw⟩ :=
    serveConsumers_ok debug strArr h
  have hb : bufferedOn s1 c = bufferedOn s c := by simp [bufferedOn, hb1]
  simp only [push, if_neg hdebug, e, ok_bind]
  by_cases hz : r.baseStrArr.length = 0
  · have hz' : r.baseStrArr = [] := List.length_eq_zero_iff.1 hz
    rw [hz', List.append_nil] at hms
    refine ⟨s1, r.effects, by simp only [if_pos hz], hf, ?_, hfresh, fun hne => ?_, by
      rw [hb]; exact h.bound⟩
    · rw [hms, hb]; exact hl
    · by_contra hw'
      rw [hb] at hne
      exact hw hw' (h.apart hne)
  · have hw0 := hrest fun h0 => hz (by rw [h0]; rfl)
    obtain ⟨queue, effects, e3, hl', hq⟩ :=
      bufferRest_ok s.queueCapacity_pos r.baseStrArr hl h.bound
    have hcap1 : s1.queueCapacity = s.queueCapacity := by
      simp only [StickyChannelContainer.queueCapacity, hf.pow2]
    have hq' : bufferedOn { s1 with channelBufferMap := setAt s1.channelBufferMap c queue } c
        = queue := by simp [bufferedOn, setAt]
    refine ⟨{ s1 with channelBufferMap := setAt s1.channelBufferMap c queue }, effects, ?_,
      ⟨hf.waiting, fun d hdc => ?_, hf.pow2, hf.consume⟩, ?_, hfresh, fun _ => hw0, ?_⟩
    · rw [← hb, bufferedOn] at e3
      simp only [if_neg hz, hcap1, e3, ok_bind]
    · have := hf.buffered d hdc
      simpa [bufferedOn, setAt, hdc] using this
    · rw [hq', hms, ← List.append_assoc]
      exact hl'
    · rw [hq']; exact hq

theorem pop_ok {id n : Nat} (hn : n ≠ 0) (hid : id ∉ arrivals.map Prod.fst)
    (h : ChanInv s.queueCapacity pushed arrivals es (waitingOn s c) (bufferedOn s c)) :
    Frame s (pop s c id n).1 c ∧
      ChanInv s.queueCapacity pushed (arrivals ++ [(id, n)]) (es ++ (pop s c id n).2)
        (waitingOn (pop s c id n).1 c) (bufferedOn (pop s c id n).1 c) := by
  have hwait : bufferedOn s c = [] →
      ChanInv s.queueCapacity pushed (arrivals ++ [(id, n)]) es
        (waitingOn s c ++ [⟨id, [], n⟩]) (bufferedOn s c) := fun hb => by
    refine ⟨h.ledger.arrive hid (by omega), fun k hk => ?_, fun hne => absurd hb hne, h.bound⟩
    rcases List.mem_append.1 hk with hk | hk
    · exact h.fresh k hk
    · rw [List.mem_singleton.1 hk]
  cases hq : s.channelBufferMap c with
  | none =>
    have hb : bufferedOn s c = [] := by simp [bufferedOn, hq]
    simp only [pop, if_neg hn, hq]
    refine ⟨⟨fun d hd => by simp [waitingOn, setAt, hd], fun _ _ => rfl, rfl, rfl⟩, ?_⟩
    simpa [waitingOn, setAt, bufferedOn] using hwait hb
  | some queue =>
    cases queue with
    | nil =>
      have hb : bufferedOn s c = [] := by simp [bufferedOn, hq]
      simp only [pop, if_neg hn, hq]
      refine ⟨⟨fun d hd => by simp [waitingOn, setAt, hd], fun _ _ => rfl, rfl, rfl⟩, ?_⟩
      simpa [waitingOn, setAt, bufferedOn] using hwait hb
    | cons m ms =>
      have hb : bufferedOn s c = m :: ms := by simp [bufferedOn, hq]
      have hw : waitingOn s c = [] := h.apart (by rw [hb]; simp)
      obtain ⟨h1, h2, -, h4⟩ := h
      rw [hb, hw] at h1
      rw [hb] at h4
      simp only [pop, if_neg hn, hq]
      refine ⟨⟨fun _ _ => rfl, fun d hd => by simp [bufferedOn, setAt, hd], rfl, rfl⟩, ?_⟩
      have hlen : (List.take (min n (m :: ms).length) (m :: ms)).length =
          min n (m :: ms).length := by rw [List.length_take]; omega
      have hpos : 0 < (m :: ms).length := by simp
      have hdrain := h1.drain (n := min n (m :: ms).length) hid
        (by rw [hlen]; omega) (show _ ≤ n by rw [hlen]; omega)
      refine ⟨?_, h2, fun _ => hw, ?_⟩
      · rw [show ∀ s', waitingOn ({ s with channelBufferMap := s' } : StickyChannelContainer M) c =
          waitingOn s c from fun _ => rfl, hw]
        simpa [bufferedOn, setAt, drainEffects] using hdrain
      · simp only [bufferedOn, setAt, if_true, Option.getD_some, List.length_drop]
        omega

/-! ## Runs -/

def pushedOn (c : Channel) : History M → List M
  | [] => []
  | (.push d ms, _) :: hist => (if d = c then ms else []) ++ pushedOn c hist
  | (.pop _ _, _) :: hist => pushedOn c hist

/-- The calls of `pop` on a channel that ask for messages, in order, each with what it asks for;
the first call of the history has the id `i`. -/
def arrivalsFrom (c : Channel) : Nat → History M → List (Nat × Nat)
  | _, [] => []
  | i, (.push _ _, _) :: hist => arrivalsFrom c (i + 1) hist
  | i, (.pop d n, _) :: hist =>
    (if d = c ∧ n ≠ 0 then [(i, n)] else []) ++ arrivalsFrom c (i + 1) hist

def arrivalsOn (c : Channel) (hist : History M) : List (Nat × Nat) := arrivalsFrom c 0 hist

def effectsOn (c : Channel) : History M → List (Effect M)
  | [] => []
  | (op, es) :: hist => (if op.channel = c then es else []) ++ effectsOn c hist

theorem pushedOn_concat (c : Channel) (hist : History M) (op : Op M) (es : List (Effect M)) :
    pushedOn c (hist ++ [(op, es)]) = pushedOn c hist ++ pushedOn c [(op, es)] := by
  induction hist with
  | nil => rfl
  | cons x hist ih =>
    obtain ⟨o, es'⟩ := x
    cases o <;> simp [pushedOn, ih]

theorem effectsOn_concat (c : Channel) (hist : History M) (op : Op M) (es : List (Effect M)) :
    effectsOn c (hist ++ [(op, es)]) = effectsOn c hist ++ if op.channel = c then es else [] := by
  induction hist with
  | nil => simp [effectsOn]
  | cons x hist ih => simp [effectsOn, ih]

theorem arrivalsFrom_concat (c : Channel) (i : Nat) (hist : History M) (op : Op M)
    (es : List (Effect M)) :
    arrivalsFrom c i (hist ++ [(op, es)]) =
      arrivalsFrom c i hist ++ arrivalsFrom c (i + hist.length) [(op, es)] := by
  induction hist generalizing i with
  | nil => rfl
  | cons x hist ih =>
    obtain ⟨o, es'⟩ := x
    have e : i + 1 + hist.length = i + (hist.length + 1) := by omega
    cases o <;> simp [arrivalsFrom, ih, e]

theorem arrivalsFrom_lt (c : Channel) (i : Nat) (hist : History M) :
    ∀ x ∈ (arrivalsFrom c i hist).map Prod.fst, i ≤ x ∧ x < i + hist.length := by
  induction hist generalizing i with
  | nil => intro x hx; cases hx
  | cons y hist ih =>
    intro x hx
    obtain ⟨o, es'⟩ := y
    rw [List.length_cons]
    cases o with
    | push d ms =>
      have := ih (i + 1) x hx; omega
    | pop d n =>
      simp only [arrivalsFrom, List.map_append, List.mem_append] at hx
      rcases hx with hx | hx
      · split at hx
        · simp at hx; omega
        · cases hx
      · have := ih (i + 1) x hx; omega

structure RunInv (pow2 maxConsumeSz : Nat) (s : StickyChannelContainer M) (hist : History M) :
    Prop where
  pow2 : s.pow2MaxChannelBufferSz = pow2
  consume : s.maxConsumeSz = maxConsumeSz
  chan : ∀ c, ChanInv s.queueCapacity (pushedOn c hist) (arrivalsOn c hist) (effectsOn c hist)
    (waitingOn s c) (bufferedOn s c)

/-- The channel a call works on keeps its account and the others are not touched. -/
theorem RunInv.of_frame {pow2 n : Nat} {s' : StickyChannelContainer M} {op : Op M}
    {effects : List (Effect M)} (h : RunInv pow2 n s hist) (hf : Frame s s' op.channel)
    (hc : ChanInv s.queueCapacity (pushedOn op.channel (hist ++ [(op, effects)]))
      (arrivalsOn op.channel (hist ++ [(op, effects)]))
      (effectsOn op.channel (hist ++ [(op, effects)])) (waitingOn s' op.channel)
      (bufferedOn s' op.channel)) : RunInv pow2 n s' (hist ++ [(op, effects)]) where
  pow2 := hf.pow2.trans h.pow2
  consume := hf.consume.trans h.consume
  chan := fun c => by
    have hcap : s'.queueCapacity = s.queueCapacity := by
      simp only [StickyChannelContainer.queueCapacity, hf.pow2]
    rw [hcap]
    by_cases hco : c = op.channel
    · rw [hco]; exact hc
    · have h1 : pushedOn c [(op, effects)] = [] := by
        cases op with
        | push d ms => simp [pushedOn, show ¬ d = c from fun e => hco e.symm]
        | pop d n => rfl
      have h2 : ∀ i, arrivalsFrom c i [(op, effects)] = [] := fun i => by
        cases op with
        | push d ms => rfl
        | pop d n => simp [arrivalsFrom, show ¬ d = c from fun e => hco e.symm]
      rw [pushedOn_concat, h1, arrivalsOn, arrivalsFrom_concat, h2, effectsOn_concat,
        if_neg fun e => hco e.symm, List.append_nil, List.append_nil, List.append_nil,
        hf.waiting c hco, hf.buffered c hco]
      exact h.chan c

theorem RunInv.step {pow2 n : Nat} (h : RunInv pow2 n s hist) (op : Op M)
    (hd : debug → ∀ c ms, op = .push c ms → ms.length ≤ n) :
    ∃ s' effects, step debug s hist.length op = .ok (s', effects) ∧
      RunInv pow2 n s' (hist ++ [(op, effects)]) := by
  cases op with
  | push c ms =>
    obtain ⟨s', effects, e, hf, hc⟩ := push_ok (c := c)
      (fun hdb => by rw [h.consume]; exact hd hdb c ms rfl) (h.chan c)
    refine ⟨s', effects, e, h.of_frame hf ?_⟩
    simpa [pushedOn_concat, pushedOn, arrivalsOn, arrivalsFrom_concat, arrivalsFrom,
      effectsOn_concat, Op.channel] using hc
  | pop c k =>
    by_cases hk : k = 0
    · have e : pop s c hist.length k = (s, []) := if_pos hk
      refine ⟨s, [], congrArg Except.ok e, h.of_frame ⟨fun _ _ => rfl, fun _ _ => rfl, rfl, rfl⟩ ?_⟩
      simpa [hk, pushedOn_concat, pushedOn, arrivalsOn, arrivalsFrom_concat, arrivalsFrom,
        effectsOn_concat, Op.channel] using h.chan c
    · have hid : hist.length ∉ (arrivalsOn c hist).map Prod.fst := fun hm => by
        have := arrivalsFrom_lt c 0 hist _ hm; omega
      obtain ⟨hf, hc⟩ := pop_ok hk hid (h.chan c)
      refine ⟨(pop s c hist.length k).1, (pop s c hist.length k).2, rfl, h.of_frame hf ?_⟩
      simpa [pushedOn_concat, pushedOn, arrivalsOn, arrivalsFrom_concat, arrivalsFrom,
        effectsOn_concat, Op.channel, hk] using hc

theorem Reach.inv {maxBuf n : Nat} (hr : Reach debug maxBuf n s hist) :
    ∃ pow2, ceil2 maxBuf = .ok pow2 ∧ RunInv pow2 n s hist := by
  induction hr with
  | make hs =>
    unfold StickyChannel.make at hs
    split at hs
    · cases hs
    split at hs
    · cases hs
    obtain ⟨pow2, e, hs⟩ := bind_eq_ok hs
    cases hs
    exact ⟨pow2, e, rfl, rfl, fun c => ⟨⟨rfl, rfl, .nil, fun k hk => absurd hk List.not_mem_nil,
      fun k hk => absurd hk List.not_mem_nil, fun _ _ hk => absurd hk List.not_mem_nil,
      fun _ _ hk => absurd hk List.not_mem_nil⟩, fun k hk => absurd hk List.not_mem_nil,
      fun hne => absurd rfl hne, Nat.zero_le _⟩⟩
  | @step s s' hist op effects _ e ih =>
    obtain ⟨pow2, e2, hi⟩ := ih
    refine ⟨pow2, e2, ?_⟩
    have hd : debug → ∀ c ms, op = .push c ms → ms.length ≤ n := by
      rintro hdb c ms rfl
      by_contra hlt
      simp only [StickyChannel.step, push] at e
      rw [if_pos ⟨hdb, by rw [hi.consume]; omega⟩] at e
      cases e
    obtain ⟨s1, effects1, e1, hi1⟩ := hi.step op hd
    cases e1.symm.trans e
    exact hi1

/-- **Every channel is a bounded FIFO queue**, in every state that any interleaving of the critical
sections reaches. The messages pushed are, in push order, those delivered or dropped and then those buffered;
a dropped message is the oldest of a full queue; no channel has both a buffered message and a waiting
consumer; the calls of `pop` return in the order they came, each with at least one message and at most what
it asked for. -/
theorem container_refines_fifo {debug : Bool} {maxBuf n : Nat} {s : StickyChannelContainer M}
    {hist : History M} (hr : Reach debug maxBuf n s hist) :
    (∀ op : Op M, (debug → ∀ c ms, op = .push c ms → ms.length ≤ n) →
      ∃ s' effects, step debug s hist.length op = .ok (s', effects)) ∧
    ∀ c, pushedOn c hist = taken (effectsOn c hist) ++ bufferedOn s c ∧
      (bufferedOn s c).length ≤ s.queueCapacity ∧
      (∀ m rest, Effect.drop m rest ∈ effectsOn c hist → (m :: rest).length = s.queueCapacity) ∧
      (bufferedOn s c ≠ [] → waitingOn s c = []) ∧
      arrivalsOn c hist = released (effectsOn c hist) ++ (waitingOn s c).map Consumer.call ∧
      ((arrivalsOn c hist).map Prod.fst).Nodup ∧
      (∀ id m, Effect.deliver id m ∈ effectsOn c hist → id ∈ (arrivalsOn c hist).map Prod.fst) ∧
      (∀ k, Effect.release k ∈ effectsOn c hist →
        k.recvBuffer = deliveredTo k.id (effectsOn c hist) ∧
        1 ≤ k.recvBuffer.length ∧ k.recvBuffer.length ≤ k.recvBufferCap) ∧
      ∀ k ∈ waitingOn s c, deliveredTo k.id (effectsOn c hist) = [] := by
  obtain ⟨pow2, -, hi⟩ := hr.inv
  refine ⟨fun op hd => ?_, fun c => ?_⟩
  · obtain ⟨s', effects, e, -⟩ := hi.step op hd
    exact ⟨s', effects, e⟩
  · obtain ⟨hl, hfresh, hapart, hbound⟩ := hi.chan c
    exact ⟨hl.messages, hbound, hl.drops, hapart, hl.pops, hl.nodup, hl.delivers, hl.releases,
      fun k hk => by rw [← (hl.waits k hk).1]; exact hfresh k hk⟩

/-- A consumer that asks for two messages, and a push of four to a queue of one: two are handed over,
one is dropped and one is buffered. -/
theorem container_refines_fifo_drop :
    ∃ (s : StickyChannelContainer Nat) (hist : History Nat), Reach true 1 4 s hist ∧
      taken (effectsOn 0 hist) = [10, 11, 12] ∧
      pushedOn 0 hist = taken (effectsOn 0 hist) ++ bufferedOn s 0 := by
  have h0 : Reach (M := Nat) true 1 4 _ [] := .make rfl
  have h1 : Reach (M := Nat) true 1 4 _ ([] ++ [(.pop 0 2, _)]) := .step h0 rfl
  have h2 : Reach (M := Nat) true 1 4 _ (_ ++ [(.push 0 [10, 11, 12, 13], _)]) := .step h1 rfl
  exact ⟨_, _, h2, rfl, ((container_refines_fifo h2).2 0).1⟩

end StickyChannel
