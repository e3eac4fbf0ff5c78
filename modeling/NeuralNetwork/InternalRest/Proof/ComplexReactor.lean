import Mathlib.Data.List.Perm.Subperm
import NeuralNetwork.InternalRest.ComplexReactor

/-!
# ComplexReactor loses no wake-up

`Inv.step`: while the counter is at the threshold and the queue is not empty, some call of `increment`
is on its way to the release (`Armed`). `no_lost_wakeup` reads this off for the threads that wait. It
needs that no counter overflows (`InRange`).
-/

namespace Reactor

open Cpp Run

variable {T : Type} [DecidableEq T] {debug : Bool} {w w' : World T} {t u : T}

/-! ## What is observed -/

/-- The thread is enqueued and waits: it was not released, and it has not timed out. -/
def Queued (w : World T) (t : T) : Prop := ∃ smp, w.phase t = .waiting smp ∧ smp ∉ w.released

/-- The thread has updated the counter in `increment`, to a value that reaches the threshold, and
has not finished its test of the queue and the release. -/
def Armed (w : World T) (t : T) : Prop :=
  (∃ current, w.phase t = .incremented current ∧
    w.reactor.wakeupThreshold.toInt ≤ current.toInt) ∨
  w.phase t = .reached ∨ w.phase t = .releasing

/-- The step overflows no counter: neither `fetch_sub` in `decrement` nor the count of the queue. -/
def InRange (w : World T) : Event T → Prop
  | .decrement _ sz => -2 ^ 63 ≤ w.reactor.counter.toInt - sz.toNat
  | .go t => (∃ expected, w.phase t = .enqueuing expected) → w.reactor.mtxQueueSz + 1 < 2 ^ 64
  | _ => True

/-! ## The sections -/

theorem toInt_sub_le {x y : BitVec 64} (h : -2 ^ 63 ≤ x.toInt - y.toNat) :
    (x - y).toInt ≤ x.toInt := by
  have hx := x.isLt
  have hy := y.isLt
  rw [BitVec.toInt_eq_toNat_cond] at h
  rw [BitVec.toInt_eq_toNat_cond, BitVec.toInt_eq_toNat_cond, BitVec.toNat_sub]
  split at h <;> split <;> omega

/-- Either the caller is at the end of the queue and the counter below its threshold, or everybody is
released. -/
theorem enqueue_cases {r r' : ComplexReactor T} {smp : Nat} {expected : BitVec 64}
    {smps : List Nat} (e : r.enqueue debug t smp expected = .ok (r', smps)) :
    r'.counter = r.counter ∧ r'.wakeupThreshold = r.wakeupThreshold ∧
    ((r.counter.toInt < expected.toInt ∧ smps = [] ∧
        r'.mtxQueue = r.mtxQueue.filter (fun entry => entry.1 ≠ t) ++ [(t, smp)] ∧
        r'.mtxQueueSz =
          if t ∈ r.mtxQueue.map Prod.fst then r.mtxQueueSz else sizeT (r.mtxQueueSz + 1)) ∨
      (r'.mtxQueue = [] ∧ r'.mtxQueueSz = 0 ∧ smp ∈ smps ∧
        ∀ entry ∈ r.mtxQueue, entry.1 ≠ t → entry.2 ∈ smps)) := by
  unfold ComplexReactor.enqueue at e
  dsimp only at e
  split at e
  · cases e
  · split at e
    · cases e
      refine ⟨rfl, rfl, .inr ⟨rfl, rfl, ?_, fun entry hm hne => ?_⟩⟩
      · exact List.mem_map.2 ⟨(t, smp), by simp, rfl⟩
      · exact List.mem_map.2 ⟨entry, by simp [hm, hne], rfl⟩
    · rename_i hlt
      cases e
      exact ⟨rfl, rfl, .inl ⟨Int.not_le.1 hlt, rfl, rfl, rfl⟩⟩

theorem length_filter_ne {queue : List (T × Nat)} (h : t ∈ queue.map Prod.fst) :
    (queue.filter fun entry => entry.1 ≠ t).length < queue.length := by
  obtain ⟨entry, hm, rfl⟩ := List.mem_map.1 h
  exact List.length_filter_lt_length_iff_exists.2 ⟨entry, hm, by simp⟩

/-! ## The invariant -/

structure Inv (w : World T) : Prop where
  counted : w.reactor.mtxQueue.length ≤ w.reactor.mtxQueueSz
  queued : ∀ t smp, w.phase t = .waiting smp → smp ∉ w.released → (t, smp) ∈ w.reactor.mtxQueue
  expected : ∀ t expected, w.phase t = .enqueuing expected → expected = w.reactor.wakeupThreshold
  armed : w.reactor.wakeupThreshold.toInt ≤ w.reactor.counter.toInt → w.reactor.mtxQueue ≠ [] →
    ∃ t, Armed w t

omit [DecidableEq T] in
theorem Inv.of_fresh (h : Fresh w) : Inv w := by
  obtain ⟨cap, threshold, rfl⟩ := h
  refine ⟨Nat.le_refl _, ?_, ?_, fun _ hne => absurd rfl hne⟩
  · intro t smp ht
    cases ht
  · intro t expected ht
    cases ht

theorem Inv.setPhase {p : Phase} (hi : Inv w)
    (hqueued : ∀ smp, p ≠ .waiting smp)
    (hexpected : ∀ expected, p = .enqueuing expected → expected = w.reactor.wakeupThreshold)
    (harmed : Armed w t → w.reactor.mtxQueue ≠ [] → Armed (w.setPhase t p) t) :
    Inv (w.setPhase t p) := by
  refine ⟨hi.counted, ?_, ?_, ?_⟩
  · intro u smp hu hr
    by_cases hut : u = t
    · subst hut
      exact absurd (by simpa [World.setPhase] using hu) (hqueued smp)
    · exact hi.queued u smp (by simpa [World.setPhase, hut] using hu) hr
  · intro u expected hu
    by_cases hut : u = t
    · subst hut
      exact hexpected expected (by simpa [World.setPhase] using hu)
    · exact hi.expected u expected (by simpa [World.setPhase, hut] using hu)
  · intro hle hne
    obtain ⟨u, hu⟩ := hi.armed hle hne
    by_cases hut : u = t
    · subst hut
      exact ⟨u, harmed hu hne⟩
    · exact ⟨u, by simpa [Armed, World.setPhase, hut] using hu⟩

theorem Inv.section {p : Phase} {r : ComplexReactor T} {n : Nat} {l : List Nat}
    (hi : Inv w)
    (hw : w' = { w.setPhase t p with
      reactor := r, semaphores := n, released := w.released ++ l })
    (hthreshold : r.wakeupThreshold = w.reactor.wakeupThreshold)
    (hcounted : r.mtxQueue.length ≤ r.mtxQueueSz)
    (hexpected : ∀ expected, p ≠ .enqueuing expected)
    (hself : ∀ smp, p = .waiting smp → smp ∈ l ∨ (t, smp) ∈ r.mtxQueue)
    (hothers : ∀ entry ∈ w.reactor.mtxQueue, entry.1 ≠ t →
      entry.2 ∈ l ∨ entry ∈ r.mtxQueue)
    (harmed : r.wakeupThreshold.toInt ≤ r.counter.toInt → r.mtxQueue ≠ [] →
      ∃ t, Armed w' t) : Inv w' := by
  subst hw
  refine ⟨hcounted, ?_, ?_, harmed⟩
  · intro u smp hu hr
    rw [List.mem_append, not_or] at hr
    by_cases hut : u = t
    · subst hut
      exact (hself smp (by simpa [World.setPhase] using hu)).resolve_left hr.2
    · have hm := hi.queued u smp (by simpa [World.setPhase, hut] using hu) hr.1
      exact (hothers (u, smp) hm hut).resolve_left hr.2
  · intro u expected hu
    by_cases hut : u = t
    · subst hut
      exact absurd (by simpa [World.setPhase] using hu) (hexpected expected)
    · rw [hthreshold]
      exact hi.expected u expected (by simpa [World.setPhase, hut] using hu)

/-! ## Steps -/

theorem Inv.go (hi : Inv w) (hr : InRange w (.go t)) (e : w.go debug t = .ok (some w')) : Inv w' := by
  unfold World.go at e
  cases hp : w.phase t with
  | incremented current =>
    rw [hp] at e
    dsimp only at e
    split at e
    · rename_i hlt
      cases e
      refine hi.setPhase (by simp) (by simp) fun ha _ => ?_
      -- a call that returns here was not armed
      rcases ha with ⟨current', hc, hle⟩ | hc | hc <;> rw [hp] at hc <;> cases hc
      omega
    · cases e
      exact hi.setPhase (by simp) (by simp) fun _ _ => .inr (.inl (by simp [World.setPhase]))
  | reached =>
    rw [hp] at e
    dsimp only at e
    split at e
    · rename_i hsz
      cases e
      refine hi.setPhase (by simp) (by simp) fun _ hne => ?_
      have hlen := hi.counted
      rw [hsz] at hlen
      exact absurd (List.length_eq_zero_iff.1 (Nat.le_zero.1 hlen)) hne
    · cases e
      exact hi.setPhase (by simp) (by simp) fun _ _ => .inr (.inr (by simp [World.setPhase]))
  | releasing =>
    rw [hp] at e
    cases e
    refine hi.section (t := t) (p := .idle) rfl rfl (Nat.le_refl _) (by simp) (by simp) ?_
      fun _ hne => absurd rfl hne
    intro entry hm _
    exact .inl (List.mem_map_of_mem hm)
  | subscribing current =>
    rw [hp] at e
    dsimp only at e
    split at e
    · cases e
      exact hi.setPhase (by simp) (by simp) fun ha _ => by simp [Armed, hp] at ha
    · cases e
      exact hi.setPhase (by simp) (by simp) fun ha _ => by simp [Armed, hp] at ha
  | enqueuing expected =>
    rw [hp] at e
    dsimp only at e
    split at e
    · cases e
    · rename_i reactor smps hq
      cases e
      obtain ⟨hcounter, hthreshold, hc⟩ := enqueue_cases hq
      have hexp := hi.expected t expected hp
      have hlen := hi.counted
      have hroom := hr ⟨expected, hp⟩
      rcases hc with ⟨hlt, rfl, hqueue, hsz⟩ | ⟨hqueue, hsz, hself, hothers⟩
      · -- the counter is below the threshold
        refine hi.section (t := t) (p := .waiting w.semaphores) rfl hthreshold ?_ (by simp) ?_ ?_ ?_
        · rw [hqueue, hsz, List.length_append, List.length_singleton]
          split
          · rename_i hm
            have := length_filter_ne hm
            omega
          · have := List.length_filter_le (fun entry => decide (entry.1 ≠ t)) w.reactor.mtxQueue
            rw [sizeT_of_lt hroom]
            omega
        · intro smp hs
          cases hs
          exact .inr (by simp [hqueue])
        · intro entry hm hne
          exact .inr (by simp [hqueue, hm, hne])
        · intro hle
          rw [hcounter, hthreshold, ← hexp] at hle
          omega
      · -- everybody is released
        refine hi.section (t := t) (p := .waiting w.semaphores) rfl hthreshold ?_ (by simp) ?_ ?_ ?_
        · rw [hqueue, hsz]
          exact Nat.le_refl _
        · intro smp hs
          cases hs
          exact .inl hself
        · intro entry hm hne
          exact .inl (hothers entry hm hne)
        · exact fun _ hne => absurd hqueue hne
  | timedOut =>
    rw [hp] at e
    cases e
    have hlen := hi.counted
    refine hi.section (t := t) (p := .idle) (r := w.reactor.erase t) (n := w.semaphores) (l := [])
      (by rw [List.append_nil]; rfl) rfl ?_ (by simp) (by simp) ?_ ?_
    · exact Nat.le_trans (List.length_filter_le _ _) hlen
    · intro entry hm hne
      exact .inr (by simp [ComplexReactor.erase, hm, hne])
    · intro hle hne
      obtain ⟨u, hu⟩ := hi.armed hle (fun h => hne (by simp [ComplexReactor.erase, h]))
      have hut : u ≠ t := by
        rintro rfl
        simp [Armed, hp] at hu
      exact ⟨u, by simpa [Armed, World.setPhase, hut, ComplexReactor.erase] using hu⟩
  | idle =>
    rw [hp] at e
    cases e
  | waiting smp =>
    rw [hp] at e
    cases e

theorem Inv.step {a : Event T} (hi : Inv w) (hr : InRange w a) (e : Step debug w a w') : Inv w' := by
  unfold Step World.step at e
  cases a with
  | increment t sz =>
    dsimp only at e
    split at e
    · cases e
      have hs := hi.setPhase (t := t) (p := .incremented (w.reactor.counter + sz)) (by simp)
        (by simp) fun ha _ => by simp_all [Armed]
      exact ⟨hs.counted, hs.queued, hs.expected, fun hle _ =>
        ⟨t, .inl ⟨_, by simp [World.setPhase], hle⟩⟩⟩
    · cases e
  | decrement t sz =>
    dsimp only at e
    split at e
    · cases e
      refine ⟨hi.counted, hi.queued, hi.expected, fun hle hne => ?_⟩
      have hlow : (w.reactor.counter - sz).toInt ≤ w.reactor.counter.toInt := toInt_sub_le hr
      exact hi.armed (Int.le_trans hle hlow) hne
    · cases e
  | subscribe t =>
    dsimp only at e
    split at e
    · rename_i hidle
      cases e
      exact hi.setPhase (by simp) (by simp) fun ha _ => by simp [Armed, hidle] at ha
    · cases e
  | go t => exact hi.go hr e
  | acquire t =>
    dsimp only at e
    split at e
    · rename_i smp hp
      split at e
      · cases e
        exact hi.setPhase (by simp) (by simp) fun ha _ => by simp [Armed, hp] at ha
      · cases e
    · cases e
  | timeOut t =>
    dsimp only at e
    split at e
    · rename_i smp hp
      split at e
      · cases e
        exact hi.setPhase (by simp) (by simp) fun ha _ => by simp [Armed, hp] at ha
      · cases e
    · cases e
  | throws t =>
    dsimp only at e
    split at e
    · rename_i smp hp
      cases e
      exact hi.setPhase (by simp) (by simp) fun ha _ => by simp [Armed, hp] at ha
    · cases e

/-- **No wake-up is lost while no counter overflows**: in every interleaving, `mtx_queue_sz` is at
least the number of queued subscribers, and if the counter is at the threshold while one of them is
queued, some call of `increment` that reached the threshold has still to release the queue. -/
theorem no_lost_wakeup {hist : List (Event T)}
    (h : Reach Fresh (fun w a w' => Step debug w a w' ∧ InRange w a) w hist) :
    w.reactor.mtxQueue.length ≤ w.reactor.mtxQueueSz ∧
    (∀ ts : List T, ts.Nodup → (∀ t ∈ ts, Queued w t) → ts.length ≤ w.reactor.mtxQueueSz) ∧
    ∀ t, Queued w t → w.reactor.wakeupThreshold.toInt ≤ w.reactor.counter.toInt →
      ∃ u, Armed w u := by
  have hi : Inv w := h.inv (fun w _ => Inv w) (fun _ => Inv.of_fresh)
    fun _ _ _ _ hi hstep => hi.step hstep.2 hstep.1
  refine ⟨hi.counted, fun ts hnodup hts => ?_, ?_⟩
  · have hsub : ts ⊆ w.reactor.mtxQueue.map Prod.fst := by
      intro t ht
      obtain ⟨smp, hp, hr⟩ := hts t ht
      exact List.mem_map.2 ⟨_, hi.queued t smp hp hr, rfl⟩
    have hle := (List.subperm_of_subset hnodup hsub).length_le
    rw [List.length_map] at hle
    exact Nat.le_trans hle hi.counted
  · rintro t ⟨smp, hp, hr⟩ hle
    exact hi.armed hle (List.ne_nil_of_mem (hi.queued t smp hp hr))

/-- Thread 0 is enqueued below the threshold 1, and thread 1 has just incremented. -/
theorem no_lost_wakeup_two : ∃ w : World Nat, Queued w 0 ∧
    w.reactor.wakeupThreshold.toInt ≤ w.reactor.counter.toInt ∧ ∃ u, Armed w u := by
  obtain ⟨w0, h0, w1, h1, w2, h2, w3, h3, w4, h4, hq, hle⟩ : ∃ w0 : World Nat, Fresh w0 ∧
      ∃ w1, Step false w0 (.subscribe 0) w1 ∧ ∃ w2, (Step false w1 (.go 0) w2 ∧
        InRange w1 (.go 0)) ∧ ∃ w3, (Step false w2 (.go 0) w3 ∧ InRange w2 (.go 0)) ∧
      ∃ w4, Step false w3 (.increment 1 1) w4 ∧ Queued w4 0 ∧
        w4.reactor.wakeupThreshold.toInt ≤ w4.reactor.counter.toInt :=
    ⟨_, ⟨4, 1, rfl⟩, _, rfl, _, ⟨rfl, fun _ => by decide⟩, _, ⟨rfl, fun _ => by decide⟩, _, rfl,
      ⟨0, rfl, by decide⟩, by decide⟩
  exact ⟨w4, hq, hle, (no_lost_wakeup (.step (.step (.step (.step (.init h0) ⟨h1, trivial⟩)
    h2) h3) ⟨h4, trivial⟩)).2.2 0 hq hle⟩

/-- A `decrement` that overflows takes the counter over the threshold 1, and nobody releases the
subscriber. -/
theorem decrement_raises_counter : ∃ (w : World Nat) (hist : List (Event Nat)),
    Reach Fresh (Step false) w hist ∧ Queued w 0 ∧
    w.reactor.wakeupThreshold.toInt ≤ w.reactor.counter.toInt ∧ ∀ u, ¬ ∃ current,
      w.phase u = .incremented current ∨ w.phase u = .reached ∨ w.phase u = .releasing := by
  obtain ⟨w0, h0, w, hrun, hq, hle, hu⟩ : ∃ w0 : World Nat, Fresh w0 ∧ ∃ w,
      [Event.subscribe 0, .go 0, .go 0, .decrement 1 0x8000000000000000, .decrement 1 1].foldlM
        (fun w e => ofStep (World.step w false e)) w0 = some w ∧ Queued w 0 ∧
      w.reactor.wakeupThreshold.toInt ≤ w.reactor.counter.toInt ∧
      w.phase = Function.update (fun _ => .idle) 0 (.waiting 0) :=
    ⟨_, ⟨4, 1, rfl⟩, _, rfl, ⟨0, rfl, by decide⟩, by decide, by simp [World.setPhase]⟩
  refine ⟨w, _, (Reach.init h0).runM id hrun, hq, hle, ?_⟩
  rintro u ⟨current, hp⟩
  rw [hu] at hp
  by_cases h : u = 0
  · subst h
    simp at hp
  · simp [h] at hp

end Reactor
