import Mathlib.Algebra.BigOperators.Intervals
import Mathlib.Data.Finsupp.Weight
import NeuralNetwork.InternalRest.Mailbox.ReactingRetransmissionController
import NeuralNetwork.InternalRest.Proof.ComplexReactor
import NeuralNetwork.InternalRest.Proof.RetransmissionBound

/-!
# The counter of ReactingRetransmissionController

The counter of the reactor is raised by what the callers are told was accepted, and lowered by what
they are given, but not by what they acknowledge. `Inv.step` says so for every interleaving;
**`counter_tracks_backlog`**: between calls the counter is the number of packets that the base holds,
exactly if the acknowledgements erased none.
-/

/-! ## What a step of the reactor does with the counter -/

namespace Reactor

open Cpp

variable {T : Type} [DecidableEq T] {debug : Bool} {w w' : World T} {t : T}

structure Moved (t : T) (amount : BitVec 64) (w w' : World T) : Prop where
  counter : w'.reactor.counter = w.reactor.counter + amount
  others : ∀ u, u ≠ t → w'.phase u = w.phase u

omit [DecidableEq T] in
theorem Moved.of_counter (h : w'.reactor.counter = w.reactor.counter)
    (hothers : ∀ u, u ≠ t → w'.phase u = w.phase u) : Moved t 0 w w' :=
  ⟨by simp [h], hothers⟩

theorem Moved.setPhase (t : T) (p : Phase) (w : World T) : Moved t 0 w (w.setPhase t p) :=
  .of_counter rfl fun _ hu => Function.update_of_ne hu _ _

theorem go_counter (e : w.go debug t = .ok (some w')) :
    w'.reactor.counter = w.reactor.counter ∧ ∀ u, u ≠ t → w'.phase u = w.phase u := by
  have hothers : ∀ p u, u ≠ t → (w.setPhase t p).phase u = w.phase u := fun p u hu =>
    Function.update_of_ne hu _ _
  unfold World.go at e
  cases hp : w.phase t with
  | idle =>
    rw [hp] at e
    cases e
  | incremented current =>
    rw [hp] at e
    dsimp only at e
    split at e
    · cases e
      exact ⟨rfl, hothers _⟩
    · cases e
      exact ⟨rfl, hothers _⟩
  | reached =>
    rw [hp] at e
    dsimp only at e
    split at e
    · cases e
      exact ⟨rfl, hothers _⟩
    · cases e
      exact ⟨rfl, hothers _⟩
  | releasing =>
    rw [hp] at e
    cases e
    exact ⟨rfl, hothers .idle⟩
  | subscribing current =>
    rw [hp] at e
    dsimp only at e
    split at e
    · cases e
      exact ⟨rfl, hothers _⟩
    · cases e
      exact ⟨rfl, hothers _⟩
  | enqueuing expected =>
    rw [hp] at e
    dsimp only at e
    split at e
    · cases e
    · next smps hq =>
      cases e
      exact ⟨(enqueue_cases hq).1, hothers (.waiting w.semaphores)⟩
  | waiting smp =>
    rw [hp] at e
    cases e
  | timedOut =>
    rw [hp] at e
    cases e
    exact ⟨rfl, hothers .idle⟩

def Event.thread : Event T → T
  | .increment t _ => t
  | .decrement t _ => t
  | .subscribe t => t
  | .go t => t
  | .acquire t => t
  | .timeOut t => t
  | .throws t => t

def Event.amount : Event T → BitVec 64
  | .increment _ sz => sz
  | .decrement _ sz => -sz
  | _ => 0

theorem step_moved {e : Event T} (h : w.step debug e = .ok (some w')) :
    Moved e.thread e.amount w w' := by
  cases e with
  | increment t sz =>
    simp only [World.step] at h
    split at h
    · cases h
      exact ⟨rfl, fun _ hu => Function.update_of_ne hu _ _⟩
    · cases h
  | decrement t sz =>
    simp only [World.step] at h
    split at h
    · cases h
      exact ⟨BitVec.sub_eq_add_neg .., fun _ _ => rfl⟩
    · cases h
  | subscribe t =>
    simp only [World.step] at h
    split at h
    · cases h
      exact .setPhase t _ w
    · cases h
  | go t => exact .of_counter (go_counter h).1 (go_counter h).2
  | acquire t =>
    simp only [World.step] at h
    split at h
    · split at h
      · cases h
        exact .setPhase t _ w
      · cases h
    · cases h
  | timeOut t =>
    simp only [World.step] at h
    split at h
    · split at h
      · cases h
        exact .setPhase t _ w
      · cases h
    · cases h
  | throws t =>
    simp only [World.step] at h
    split at h
    · cases h
      exact .setPhase t _ w
    · cases h

theorem decrement_phase {sz : BitVec 64} (h : w.step debug (.decrement t sz) = .ok (some w')) :
    w'.phase = w.phase := by
  simp only [World.step] at h
  split at h
  · cases h
    rfl
  · cases h

/-! ### Subscribing below the threshold -/

theorem go_subscribing {current : BitVec 64} (ht : w.phase t = .subscribing current)
    (hbelow : current.toInt < w.reactor.wakeupThreshold.toInt) :
    w.go debug t = .ok (some (w.setPhase t (.enqueuing w.reactor.wakeupThreshold))) := by
  unfold World.go
  rw [ht]
  exact if_neg (Int.not_le.2 hbelow)

theorem go_enqueuing {expected : BitVec 64} (ht : w.phase t = .enqueuing expected)
    (hbelow : w.reactor.counter.toInt < expected.toInt) (h : w.go debug t = .ok (some w')) :
    ∃ smp, w'.phase t = .waiting smp ∧ (t, smp) ∈ w'.reactor.mtxQueue := by
  unfold World.go at h
  rw [ht] at h
  dsimp only at h
  split at h
  · cases h
  · next smps hq =>
    cases h
    unfold ComplexReactor.enqueue at hq
    split at hq
    · cases hq
    · rw [if_neg (Int.not_le.2 hbelow)] at hq
      cases hq
      exact ⟨w.semaphores, Function.update_self .., List.mem_append_right _ List.mem_cons_self⟩

end Reactor

namespace ReactingRetransmission

open Cpp FlashStream Mailbox Run
open Retransmission (BoundInv Outside bump calm coins numbered oneConfig returned)

variable {T : Type}

/-! ## Calls in flight -/

def Event.baseEvent : Event T → Option Retransmission.Event
  | .critical _ e => some e
  | _ => none

def sections (hist : List (Event T)) : List Retransmission.Event := hist.filterMap Event.baseEvent

def Phase.Owns : Phase → Nat → Prop
  | .adding _ first sz, p => first ≤ p ∧ p < first + sz
  | _, _ => False

/-- What the call has taken from the base and not yet from the counter. -/
def Phase.owed : Phase → Nat
  | .taken sz => sz
  | _ => 0

def IsAdding (p : Phase) : Prop := ∃ smp first sz, p = .adding smp first sz

variable {p : Phase} {e : Retransmission.Event}

theorem Phase.isAdding_of_owns {q : Nat} (h : p.Owns q) : IsAdding p := by
  cases p with
  | adding smp first sz => exact ⟨smp, first, sz, rfl⟩
  | idle => cases h
  | incrementing => cases h
  | subscribing => cases h
  | taken sz => cases h

def SuccessAt (cells : List Retransmission.Cell) (p : Nat) : Prop :=
  ∃ cell, cells[p]? = some cell ∧ cell.exception = .success

/-- The cell belongs to a call that was not yet added to the counter. -/
def InFlight (w : World T) (p : Nat) : Prop := ∃ t, (w.phase t).Owns p

open Classical in
/-- The accepted cells that were added to the counter. -/
noncomputable def counted (w : World T) : Finset Nat :=
  (Finset.range w.base.cells.length).filter fun p => SuccessAt w.base.cells p ∧ ¬ InFlight w p

theorem mem_counted {w : World T} {p : Nat} :
    p ∈ counted w ↔ p < w.base.cells.length ∧ SuccessAt w.base.cells p ∧ ¬ InFlight w p := by
  simp only [counted, Finset.mem_filter, Finset.mem_range]

open Classical in
theorem card_successAt (cells : List Retransmission.Cell) (first sz : Nat) :
    ((Finset.Ico first (first + sz)).filter (SuccessAt cells)).card =
      ((cells.drop first).take sz).countP fun cell => cell.exception = .success := by
  rw [Finset.card_filter, Finset.sum_Ico_eq_sum_range, Nat.add_sub_cancel_left]
  induction sz with
  | zero => rfl
  | succ sz ih =>
    rw [Finset.sum_range_succ, ih, List.take_add_one, List.countP_append, List.getElem?_drop]
    refine congrArg _ ?_
    unfold SuccessAt
    cases hcell : cells[first + sz]? with
    | none => simp
    | some cell => simp [List.countP_cons]

theorem degree_update (owed : T →₀ Nat) (t : T) (n : Nat) :
    (owed.update t n).degree + owed t = owed.degree + n := by
  classical
  have herase := congrArg Finsupp.degree (Finsupp.erase_add_single t owed)
  rw [Finsupp.update_eq_erase_add_single, map_add, Finsupp.degree_single]
  rw [map_add, Finsupp.degree_single] at herase
  omega

/-- What holds in every run: of the accepted packets, those whose calls have been counted and that
were not returned, or not yet subtracted, make the counter. -/
structure Inv (env : Outside) (config : Retransmission.Config) (w : World T)
    (hist : List (Event T)) : Prop where
  base : BoundInv env config w.base (sections hist)
  capacity : w.base.controller.pktMap.capacity ≤ 2 ^ 30
  calm : ∀ t, w.phase t ≠ .incrementing → w.phase t ≠ .subscribing → w.reactor.phase t = .idle
  range : ∀ t p, (w.phase t).Owns p → p < w.base.cells.length
  apart : ∀ t u p, (w.phase t).Owns p → (w.phase u).Owns p → t = u
  owner : ∀ item ∈ w.base.items, ∃ t first sz, w.phase t = .adding item.smp first sz ∧
    ∀ p ∈ item.pktArr, first ≤ p ∧ p < first + sz
  waiting : (w.base.items.map (·.smp)).Perm w.base.waiting
  counter : ∃ owed : T →₀ Nat, (∀ t, owed t = (w.phase t).owed) ∧
    w.reactor.reactor.counter + BitVec.ofNat 64 (returned (sections hist)).length =
      BitVec.ofNat 64 ((counted w).card + owed.degree)

variable {debug : Bool} {env : Outside} {config : Retransmission.Config}
  {w w' : World T} {t : T} {hist : List (Event T)}

theorem Inv.of_fresh (h : Fresh config w) : Inv env config w [] := by
  obtain ⟨hbase, ⟨cap, threshold, hreactor⟩, hidle⟩ := h
  have howns : ∀ t p, ¬ (w.phase t).Owns p := by
    intro t p ho
    rw [hidle t] at ho
    exact ho
  obtain ⟨c, hc, hw⟩ := hbase
  have hmade := Retransmission.World.made env hc
  have hitems : w.base.items = [] := by
    rw [hw]
    unfold Retransmission.World.items
    rw [hmade.first.1, hmade.second]
    rfl
  have hcap : w.base.controller.pktMap.capacity ≤ 2 ^ 30 := by
    rw [hw]
    rw [hmade.map]
    exact List.length_range.trans_le hmade.cap_le
  refine ⟨.fresh ⟨c, hc, hw⟩, hcap, fun t _ _ => by rw [hreactor], fun t p ho => absurd ho (howns t p),
    fun t u p ho => absurd ho (howns t p), fun item hm => ?_, ?_, 0, fun t => by rw [hidle t]; rfl, ?_⟩
  · rw [hitems] at hm
    cases hm
  · rw [hitems, hw]
    exact List.Perm.refl _
  · have hcounted : counted w = ∅ := by
      unfold counted
      rw [hw]
      rfl
    rw [hcounted, hreactor]
    rfl

theorem Inv.inFlight (h : Inv env config w hist) {p : Nat} (hp : p ∈ w.base.waitPtrs) :
    InFlight w p := by
  obtain ⟨item, hm, hp⟩ := Retransmission.World.mem_waitPtrs.1 hp
  obtain ⟨t, first, sz, ht, hptrs⟩ := h.owner item hm
  refine ⟨t, ?_⟩
  rw [ht]
  exact hptrs p hp

/-! ## Steps -/

variable [DecidableEq T]

theorem phase_setPhase {u : T} (hu : u ≠ t) : (w.setPhase t p).phase u = w.phase u :=
  Function.update_of_ne hu _ _

theorem phase_setPhase_self : (w.setPhase t p).phase t = p := Function.update_self _ _ _

theorem owed_setPhase {owed : T →₀ Nat} (h : ∀ u, owed u = (w.phase u).owed) (u : T) :
    owed.update t p.owed u = ((w.setPhase t p).phase u).owed := by
  by_cases hut : u = t
  · subst hut
    rw [Finsupp.coe_update, Function.update_self, phase_setPhase_self]
  · rw [Finsupp.coe_update, Function.update_of_ne hut, h, phase_setPhase hut]

theorem owns_setPhase {u : T} {q : Nat} :
    ((w.setPhase t p).phase u).Owns q ↔ u = t ∧ p.Owns q ∨ u ≠ t ∧ (w.phase u).Owns q := by
  by_cases hut : u = t
  · subst hut
    rw [phase_setPhase_self]
    simp
  · rw [phase_setPhase hut]
    simp [hut]

theorem inFlight_setPhase {q : Nat} :
    InFlight (w.setPhase t p) q ↔ p.Owns q ∨ ∃ u, u ≠ t ∧ (w.phase u).Owns q := by
  constructor
  · rintro ⟨u, hu⟩
    rcases owns_setPhase.1 hu with ⟨-, ho⟩ | ⟨hut, ho⟩
    · exact .inl ho
    · exact .inr ⟨u, hut, ho⟩
  · rintro (ho | ⟨u, hut, ho⟩)
    · exact ⟨t, owns_setPhase.2 (.inl ⟨rfl, ho⟩)⟩
    · exact ⟨u, owns_setPhase.2 (.inr ⟨hut, ho⟩)⟩

structure Enters (w : World T) (t : T) (e : Retransmission.Event) (p : Phase) : Prop where
  before : ¬ IsAdding (w.phase t)
  owed : (w.phase t).owed = 0
  idle : w.reactor.phase t = .idle
  owns : ∀ q, p.Owns q ↔ w.base.cells.length ≤ q ∧ q < w.base.cells.length + e.op.given.length
  adding : 0 < e.op.given.length → ∃ first sz, p = .adding w.base.calls first sz
  returned : p.owed = e.returned.length

omit [DecidableEq T] in
theorem Inv.enters_idle (hi : Inv env config w hist)
    (hp : w.phase t = .idle)
    (howns : ∀ q, p.Owns q ↔ w.base.cells.length ≤ q ∧ q < w.base.cells.length + e.op.given.length)
    (hadding : 0 < e.op.given.length → ∃ first sz, p = .adding w.base.calls first sz)
    (hreturned : p.owed = e.returned.length) : Enters w t e p := by
  refine ⟨?_, by rw [hp]; rfl, hi.calm t ?_ ?_, howns, hadding, hreturned⟩
  · rintro ⟨smp, first, sz, ht⟩
    exact Phase.noConfusion (hp.symm.trans ht)
  · exact fun ht => Phase.noConfusion (hp.symm.trans ht)
  · exact fun ht => Phase.noConfusion (hp.symm.trans ht)

omit [DecidableEq T] in
theorem Inv.enters (hi : Inv env config w hist)
    {base' : Retransmission.World} (h : w.afterSection t e = some p)
    (hs : Retransmission.Step debug env w.base e base') : Enters w t e p := by
  obtain ⟨op, returned, erased⟩ := e
  obtain ⟨hs, -⟩ := hs
  have hnone : ∀ q, False ↔ w.base.cells.length ≤ q ∧ q < w.base.cells.length + 0 := fun q =>
    ⟨False.elim, fun h => by omega⟩
  unfold World.afterSection at h
  cases op with
  | addRetriables pktArr now =>
    obtain ⟨w1, -, hs⟩ := Loop.bind_eq_ok hs
    cases hs
    cases hp : w.phase t with
    | idle =>
      rw [hp] at h
      cases h
      exact hi.enters_idle hp (fun _ => Iff.rfl) (fun _ => ⟨_, _, rfl⟩) rfl
    | _ =>
      rw [hp] at h
      cases h
  | reentrantAddRetriables pktArr now =>
    obtain ⟨w1, -, hs⟩ := Loop.bind_eq_ok hs
    cases hs
    cases hp : w.phase t with
    | idle =>
      rw [hp] at h
      cases h
      exact hi.enters_idle hp (fun _ => Iff.rfl) (fun _ => ⟨_, _, rfl⟩) rfl
    | _ =>
      rw [hp] at h
      cases h
  | ack idArr rounds =>
    obtain ⟨w1, -, hs⟩ := Loop.bind_eq_ok hs
    cases hs
    cases hp : w.phase t with
    | idle =>
      rw [hp] at h
      cases h
      exact hi.enters_idle hp hnone (fun h0 => absurd h0 (Nat.lt_irrefl 0)) rfl
    | _ =>
      rw [hp] at h
      cases h
  | getRetriables outputArrCap timeBar rounds =>
    cases hp : w.phase t with
    | subscribing =>
      rw [hp] at h
      dsimp only at h
      split at h
      · next hidle =>
        cases h
        refine ⟨?_, by rw [hp]; rfl, hidle, hnone, fun h0 => absurd h0 (Nat.lt_irrefl 0), rfl⟩
        rintro ⟨smp, first, sz, ht⟩
        exact Phase.noConfusion (hp.symm.trans ht)
      · cases h
    | _ =>
      rw [hp] at h
      cases h

theorem critical_cases (h : w.critical debug env t e = .ok (some w')) :
    ∃ p base', w.afterSection t e = some p ∧ Retransmission.Step debug env w.base e base' ∧
      w' = { w.setPhase t p with base := base' } := by
  unfold World.critical at h
  split at h
  · cases h
  · next p hp =>
    obtain ⟨⟨base', returned⟩, hstep, h⟩ := Loop.bind_eq_ok h
    dsimp only at h
    split at h
    · next hsame =>
      cases h
      exact ⟨p, base', hp, ⟨hsame.1 ▸ hstep, hsame.2⟩, rfl⟩
    · cases h

theorem react_cases {e : Reactor.Event T} (h : w.react debug t p e = .ok (some w')) :
    ∃ r, w.reactor.step debug e = .ok (some r) ∧ w' = { w.setPhase t p with reactor := r } := by
  obtain ⟨o, hstep, h⟩ := Loop.bind_eq_ok h
  cases o with
  | none => cases h
  | some r =>
    cases h
    exact ⟨r, hstep, rfl⟩

theorem Inv.critical (hi : Inv env config w hist)
    (h : w.critical debug env t e = .ok (some w')) :
    Inv env config w' (hist ++ [.critical t e]) := by
  obtain ⟨p, base', hp, hs, rfl⟩ := critical_cases h
  have hen := hi.enters hp hs
  have hbase := hi.base.step hs
  have hout := Retransmission.World.Step.outcome debug hi.base.good hi.base.small hs
  have hnotOwns : ∀ q, ¬ (w.phase t).Owns q := fun q ho => hen.before (Phase.isAdding_of_owns ho)
  have hsections : sections (hist ++ [.critical t e]) = sections hist ++ [e] := by
    simp [sections, Event.baseEvent]
  rw [← hsections] at hbase
  have hlimits := (Retransmission.World.Step.keeps debug hi.base.good hi.base.small hs).limits
  simp only [Retransmission.World.limits, Retransmission.World.settings, Prod.mk.injEq] at hlimits
  refine ⟨hbase, hlimits.2.2.2.trans_le hi.capacity, fun u h1 h2 => ?_, fun u q ho => ?_,
    fun u v q hu hv => ?_, fun item hm => ?_,
    hout.waiting hi.waiting, ?_⟩
  · by_cases hut : u = t
    · rw [hut]
      exact hen.idle
    · exact hi.calm u (phase_setPhase hut ▸ h1) (phase_setPhase hut ▸ h2)
  · rw [hout.length]
    rcases owns_setPhase.1 ho with ⟨-, ho⟩ | ⟨-, ho⟩
    · exact ((hen.owns q).1 ho).2
    · exact Nat.lt_add_right _ (hi.range u q ho)
  · rcases owns_setPhase.1 hu with ⟨hut, hu'⟩ | ⟨-, hu'⟩
    · rcases owns_setPhase.1 hv with ⟨hvt, -⟩ | ⟨-, hv'⟩
      · exact hut.trans hvt.symm
      · exact absurd (hi.range v q hv') (Nat.not_lt.2 ((hen.owns q).1 hu').1)
    · rcases owns_setPhase.1 hv with ⟨-, hv'⟩ | ⟨-, hv'⟩
      · exact absurd (hi.range u q hu') (Nat.not_lt.2 ((hen.owns q).1 hv').1)
      · exact hi.apart u v q hu' hv'
  · rcases hout.items item hm with ⟨old, hold, hsmp, hsub⟩ | ⟨hsmp, hptrs⟩
    · obtain ⟨u, first, sz, hu, hown⟩ := hi.owner old hold
      have hut : u ≠ t := by
        rintro rfl
        exact hen.before ⟨_, _, _, hu⟩
      exact ⟨u, first, sz, (phase_setPhase hut).trans (hsmp ▸ hu), fun q hq => hown q (hsub hq)⟩
    · -- the call itself waits, so that it has packets
      obtain ⟨q, hq⟩ := List.exists_mem_of_ne_nil _ (hbase.good.items item hm)
      obtain ⟨first, sz, rfl⟩ := hen.adding (by have := hptrs q hq; omega)
      refine ⟨t, first, sz, phase_setPhase_self.trans (hsmp ▸ rfl), fun q hq => ?_⟩
      exact (hen.owns q).2 (hptrs q hq)
  · obtain ⟨owed, howed, hcounter⟩ := hi.counter
    have hcounted : counted { w.setPhase t p with base := base' } = counted w := by
      ext q
      have hflight : InFlight { w.setPhase t p with base := base' } q ↔ InFlight w q ∨
          (w.base.cells.length ≤ q ∧ q < w.base.cells.length + e.op.given.length) := by
        refine inFlight_setPhase.trans ?_
        rw [hen.owns, or_comm]
        refine or_congr_left ?_
        constructor
        · rintro ⟨u, -, hu⟩
          exact ⟨u, hu⟩
        · rintro ⟨u, hu⟩
          refine ⟨u, ?_, hu⟩
          rintro rfl
          exact hnotOwns q hu
      rw [mem_counted, mem_counted, hflight]
      rw [hout.length]
      by_cases hq : q < w.base.cells.length
      · by_cases hf : InFlight w q
        · simp [hf]
        · have hsame := hout.cells q hq fun hm => hf (hi.inFlight hm)
          have h1 : q < w.base.cells.length + e.op.given.length := by omega
          have h2 : ¬ w.base.cells.length ≤ q := Nat.not_le.2 hq
          unfold SuccessAt
          rw [hsame]
          simp only [hf, hq, h1, h2, or_self, not_false_eq_true, and_true, true_and]
      · constructor
        · intro h
          omega
        · exact fun h => absurd h.1 hq
    refine ⟨owed.update t p.owed, owed_setPhase howed, ?_⟩
    have hdegree := degree_update owed t p.owed
    rw [howed t, hen.owed, Nat.add_zero, hen.returned] at hdegree
    have hreturned : (returned (sections hist ++ [e])).length =
        (returned (sections hist)).length + e.returned.length := by
      simp [returned]
    rw [hcounted, hsections, hreturned, hen.returned, hdegree, ← Nat.add_assoc, BitVec.ofNat_add,
      BitVec.ofNat_add (_ + _), ← hcounter, BitVec.add_assoc]
    rfl

/-- A step of the thread `t` outside of the base, in which `n` cells of its call are counted. -/
structure Moves (w : World T) (t : T) (p : Phase) (n : Nat) (r : Reactor.World T) : Prop where
  after : ¬ IsAdding p
  served : ∀ item ∈ w.base.items, ∀ first sz, w.phase t ≠ .adding item.smp first sz
  calm : p ≠ .incrementing → p ≠ .subscribing → r.phase t = .idle
  others : ∀ u, u ≠ t → r.phase u = w.reactor.phase u
  landed : (counted (w.setPhase t p)).card = (counted w).card + n
  counter : r.reactor.counter + BitVec.ofNat 64 (w.phase t).owed =
    w.reactor.reactor.counter + BitVec.ofNat 64 (n + p.owed)

variable {e : Event T} {re : Reactor.Event T} {r : Reactor.World T}

/-- **A step outside of the base** keeps the invariant. -/
theorem Inv.moves (hi : Inv env config w hist) {n : Nat} (hm : Moves w t p n r)
    (he : e.baseEvent = none) :
    Inv env config { w.setPhase t p with reactor := r } (hist ++ [e]) := by
  have hsections : sections (hist ++ [e]) = sections hist := by
    simp [sections, he]
  have hnotOwns : ∀ q, ¬ p.Owns q := fun q ho => hm.after (Phase.isAdding_of_owns ho)
  have hold : ∀ u q, ((w.setPhase t p).phase u).Owns q → (w.phase u).Owns q := by
    intro u q ho
    rcases owns_setPhase.1 ho with ⟨-, ho⟩ | ⟨-, ho⟩
    · exact absurd ho (hnotOwns q)
    · exact ho
  refine ⟨hsections ▸ hi.base, hi.capacity, fun u h1 h2 => ?_, fun u q ho => hi.range u q (hold u q ho),
    fun u v q hu hv => hi.apart u v q (hold u q hu) (hold v q hv), fun item hitem => ?_,
    hi.waiting, ?_⟩
  · by_cases hut : u = t
    · subst hut
      refine hm.calm (fun hp => h1 ?_) fun hp => h2 ?_
      · exact phase_setPhase_self.trans hp
      · exact phase_setPhase_self.trans hp
    · exact (hm.others u hut).trans (hi.calm u (phase_setPhase hut ▸ h1) (phase_setPhase hut ▸ h2))
  · obtain ⟨u, first, sz, hu, hown⟩ := hi.owner item hitem
    have hut : u ≠ t := by
      rintro rfl
      exact hm.served item hitem first sz hu
    exact ⟨u, first, sz, (phase_setPhase hut).trans hu, hown⟩
  · obtain ⟨owed, howed, hcounter⟩ := hi.counter
    refine ⟨owed.update t p.owed, owed_setPhase howed, ?_⟩
    have hdegree := degree_update owed t p.owed
    rw [howed t] at hdegree
    have hcard : (counted { w.setPhase t p with reactor := r }).card = (counted w).card + n :=
      hm.landed
    rw [hsections, hcard]
    -- both sides with what the thread owed before
    refine (BitVec.add_left_inj (BitVec.ofNat 64 (w.phase t).owed)).1 ?_
    calc r.reactor.counter + BitVec.ofNat 64 (returned (sections hist)).length +
          BitVec.ofNat 64 (w.phase t).owed
        = (r.reactor.counter + BitVec.ofNat 64 (w.phase t).owed) +
            BitVec.ofNat 64 (returned (sections hist)).length := by
          rw [BitVec.add_assoc, BitVec.add_comm (BitVec.ofNat 64 _), ← BitVec.add_assoc]
      _ = (w.reactor.reactor.counter +
            BitVec.ofNat 64 (returned (sections hist)).length) +
            BitVec.ofNat 64 (n + p.owed) := by
          rw [hm.counter, BitVec.add_assoc, BitVec.add_comm (BitVec.ofNat 64 _), ← BitVec.add_assoc]
      _ = BitVec.ofNat 64 ((counted w).card + n +
            (owed.update t p.owed).degree) + BitVec.ofNat 64 (w.phase t).owed := by
          rw [hcounter, ← BitVec.ofNat_add, ← BitVec.ofNat_add]
          congr 1
          omega

theorem Moves.of_uncounted (hbefore : ¬ IsAdding (w.phase t)) (hafter : ¬ IsAdding p)
    (hcalm : p ≠ .incrementing → p ≠ .subscribing → r.phase t = .idle)
    (hothers : ∀ u, u ≠ t → r.phase u = w.reactor.phase u)
    (hcounter : r.reactor.counter + BitVec.ofNat 64 (w.phase t).owed =
      w.reactor.reactor.counter + BitVec.ofNat 64 p.owed) : Moves w t p 0 r := by
  refine ⟨hafter, fun item _ first sz ht => hbefore ⟨_, _, _, ht⟩, hcalm, hothers, ?_,
    by rw [hcounter, Nat.zero_add]⟩
  have hflight : ∀ q, InFlight (w.setPhase t p) q ↔ InFlight w q := by
    intro q
    refine inFlight_setPhase.trans ⟨?_, ?_⟩
    · rintro (ho | ⟨u, -, ho⟩)
      · exact absurd (Phase.isAdding_of_owns ho) hafter
      · exact ⟨u, ho⟩
    · rintro ⟨u, ho⟩
      refine .inr ⟨u, ?_, ho⟩
      rintro rfl
      exact hbefore (Phase.isAdding_of_owns ho)
  have hcounted : counted (w.setPhase t p) = counted w := by
    ext q
    rw [mem_counted, mem_counted, hflight]
    rfl
  rw [hcounted, Nat.add_zero]

theorem Inv.card_counted (hi : Inv env config w hist) (hafter : ¬ IsAdding p)
    {smp first sz : Nat} (ht : w.phase t = .adding smp first sz) :
    (counted (w.setPhase t p)).card = (counted w).card + w.thruSz first sz := by
  classical
  have hown : ∀ q, (w.phase t).Owns q ↔ q ∈ Finset.Ico first (first + sz) := by
    intro q
    rw [ht, Finset.mem_Ico]
    rfl
  have hcounted : counted (w.setPhase t p) = counted w ∪
      (Finset.Ico first (first + sz)).filter (SuccessAt w.base.cells) := by
    ext q
    rw [mem_counted, Finset.mem_union, mem_counted, Finset.mem_filter, ← hown]
    constructor
    · rintro ⟨hq, hok, hnot⟩
      by_cases ho : (w.phase t).Owns q
      · exact .inr ⟨ho, hok⟩
      · refine .inl ⟨hq, hok, ?_⟩
        rintro ⟨u, hu⟩
        refine hnot (inFlight_setPhase.2 (.inr ⟨u, ?_, hu⟩))
        rintro rfl
        exact ho hu
    · rintro (⟨hq, hok, hnot⟩ | ⟨ho, hok⟩)
      · refine ⟨hq, hok, fun hf => hnot ?_⟩
        rcases inFlight_setPhase.1 hf with ho | ⟨u, -, ho⟩
        · exact absurd (Phase.isAdding_of_owns ho) hafter
        · exact ⟨u, ho⟩
      · refine ⟨hi.range t q ho, hok, fun hf => ?_⟩
        rcases inFlight_setPhase.1 hf with ho' | ⟨u, hut, hu⟩
        · exact hafter (Phase.isAdding_of_owns ho')
        · exact hut (hi.apart u t q hu ho)
  rw [hcounted, Finset.card_union_of_disjoint, card_successAt]
  · rfl
  · refine Finset.disjoint_left.2 fun q hq hq' => ?_
    exact (mem_counted.1 hq).2.2 ⟨t, (hown q).2 (Finset.mem_filter.1 hq').1⟩

omit [DecidableEq T] in
theorem not_isAdding_idle : ¬ IsAdding .idle := by
  rintro ⟨_, _, _, h⟩
  cases h

omit [DecidableEq T] in
theorem not_isAdding_incrementing : ¬ IsAdding .incrementing := by
  rintro ⟨_, _, _, h⟩
  cases h

omit [DecidableEq T] in
theorem not_isAdding_subscribing : ¬ IsAdding .subscribing := by
  rintro ⟨_, _, _, h⟩
  cases h

omit [DecidableEq T] in
theorem not_isAdding_taken (sz : Nat) : ¬ IsAdding (.taken sz) := by
  rintro ⟨_, _, _, h⟩
  cases h

theorem Inv.react (hi : Inv env config w hist) (h : w.react debug t p re = .ok (some w'))
    (hthread : re.thread = t) (hbefore : ¬ IsAdding (w.phase t)) (hafter : ¬ IsAdding p)
    (hcalm : ∀ r, w.reactor.step debug re = .ok (some r) → p ≠ .incrementing → p ≠ .subscribing →
      r.phase t = .idle)
    (hamount : re.amount + BitVec.ofNat 64 (w.phase t).owed = BitVec.ofNat 64 p.owed)
    (he : e.baseEvent = none) : Inv env config w' (hist ++ [e]) := by
  obtain ⟨r, hr, rfl⟩ := react_cases h
  have hmoved := Reactor.step_moved hr
  rw [hthread] at hmoved
  refine hi.moves (.of_uncounted hbefore hafter (hcalm r hr) hmoved.others ?_) he
  rw [hmoved.counter, BitVec.add_assoc, hamount]

theorem Inv.inReactor (hi : Inv env config w hist) (h : w.inReactor debug t re = .ok (some w'))
    (hthread : re.thread = t) (hamount : re.amount = 0) (he : e.baseEvent = none) :
    Inv env config w' (hist ++ [e]) := by
  unfold World.inReactor at h
  split at h
  · next hp =>
    have hnot : ¬ IsAdding (w.phase t) := by
      rcases hp with hp | hp
      · rw [hp]
        exact not_isAdding_incrementing
      · rw [hp]
        exact not_isAdding_subscribing
    refine hi.react h hthread hnot hnot (fun r _ h1 h2 => ?_)
      (by rw [hamount]; exact BitVec.zero_add _) he
    rcases hp with hp | hp
    · exact absurd hp h1
    · exact absurd hp h2
  · cases h

theorem Inv.step (hi : Inv env config w hist) (hs : Step debug env w e w') :
    Inv env config w' (hist ++ [e]) := by
  replace hs : w.step debug env e = .ok (some w') := hs
  cases e with
  | critical t e => exact hi.critical hs
  | increment t =>
    simp only [World.step] at hs
    cases ht : w.phase t with
    | adding smp first sz =>
      rw [ht] at hs
      dsimp only at hs
      split at hs
      · cases hs
      · next hsmp =>
        obtain ⟨r, hr, rfl⟩ := react_cases hs
        have hmoved : Reactor.Moved t _ w.reactor r := Reactor.step_moved hr
        refine hi.moves (n := w.thruSz first sz) ⟨not_isAdding_incrementing, ?_,
          fun h => absurd rfl h, hmoved.others, hi.card_counted not_isAdding_incrementing ht, ?_⟩ rfl
        · -- the semaphore of the call was released, so that no item has it
          intro item hm first' sz' ht'
          cases ht.symm.trans ht'
          exact hsmp (hi.waiting.mem_iff.1 (List.mem_map_of_mem hm))
        · rw [hmoved.counter, ht]
          exact BitVec.add_zero _
    | _ =>
      rw [ht] at hs
      cases hs
  | subscribe t =>
    simp only [World.step] at hs
    split at hs
    · next ht =>
      refine hi.react hs rfl (ht ▸ not_isAdding_idle) not_isAdding_subscribing
        (fun r _ _ h => absurd rfl h) ?_ rfl
      rw [ht]
      rfl
    · cases hs
  | go t => exact hi.inReactor hs rfl rfl rfl
  | acquire t => exact hi.inReactor hs rfl rfl rfl
  | timeOut t => exact hi.inReactor hs rfl rfl rfl
  | throws t => exact hi.inReactor hs rfl rfl rfl
  | incremented t =>
    simp only [World.step] at hs
    split at hs
    · next ht =>
      cases hs
      refine hi.moves (r := w.reactor) (.of_uncounted (ht.1 ▸ not_isAdding_incrementing)
        not_isAdding_idle (fun _ _ => ht.2) (fun _ _ => rfl) ?_) rfl
      rw [ht.1]
      rfl
    · cases hs
  | decrement t =>
    simp only [World.step] at hs
    cases ht : w.phase t with
    | taken sz =>
      rw [ht] at hs
      have hidle : w.reactor.phase t = .idle := by
        apply hi.calm t
        · exact fun h => Phase.noConfusion (ht.symm.trans h)
        · exact fun h => Phase.noConfusion (ht.symm.trans h)
      refine hi.react hs rfl (ht ▸ not_isAdding_taken sz) not_isAdding_idle (fun r hr _ _ => ?_) ?_ rfl
      · rw [Reactor.decrement_phase hr]
        exact hidle
      · rw [ht]
        exact BitVec.add_left_neg _
    | _ =>
      rw [ht] at hs
      cases hs

theorem reach_inv (h : Reach (Fresh config) (Step debug env) w hist) : Inv env config w hist :=
  h.inv (Inv env config) (fun _ h0 => .of_fresh h0) fun _ _ _ _ hi hs => hi.step hs

/-! ## Between calls -/

/-- The packets that the acknowledgements of a run erased from the map of the base. -/
def erased (hist : List (Event T)) : List Packet := (sections hist).flatMap Retransmission.Event.erased

omit [DecidableEq T] in
theorem Inv.waitPtrs_eq_nil (hi : Inv env config w hist) (hq : Quiescent w) :
    w.base.waitPtrs = [] := by
  refine List.eq_nil_iff_forall_not_mem.2 fun p hp => ?_
  obtain ⟨t, ho⟩ := hi.inFlight hp
  rw [hq t] at ho
  exact ho

omit [DecidableEq T] in
theorem Inv.counter_eq (hi : Inv env config w hist) (hq : Quiescent w) :
    w.reactor.reactor.counter = BitVec.ofNat 64 (held w + (erased hist).length) := by
  have howns : ∀ q, ¬ InFlight w q := by
    rintro q ⟨t, ho⟩
    rw [hq t] at ho
    exact ho
  have hwaiting := hi.waitPtrs_eq_nil hq
  have hbook : w.base.acceptedPkts.length = held w +
      ((returned (sections hist)).length + (erased hist).length) := by
    have hbalanced := hi.base.accepted_perm.length_eq
    have hgone := (List.flatMap_append_perm (sections hist) Retransmission.Event.returned
      Retransmission.Event.erased).length_eq
    have hkept := hi.base.good.map.length_entries
    rw [hwaiting] at hbalanced
    simp only [List.length_map, List.length_append, List.filterMap_nil, List.length_nil] at hbalanced hgone
    unfold held erased returned
    rw [hwaiting, List.length_nil]
    omega
  have hcounted : (counted w).card = w.base.acceptedPkts.length := by
    classical
    have hcard := card_successAt w.base.cells 0 w.base.cells.length
    rw [Nat.zero_add, ← Finset.range_eq_Ico, List.drop_zero, List.take_length] at hcard
    have hall : counted w = (Finset.range w.base.cells.length).filter (SuccessAt w.base.cells) := by
      ext q
      rw [mem_counted, Finset.mem_filter, Finset.mem_range]
      simp only [howns q, not_false_eq_true, and_true]
    rw [hall, hcard, Retransmission.World.acceptedPkts, List.length_map, List.countP_eq_length_filter]
  obtain ⟨owed, howed, hcounter⟩ := hi.counter
  have hnone : owed = 0 := by
    ext t
    rw [howed, hq t]
    rfl
  rw [hnone, map_zero, Nat.add_zero, hcounted, hbook, ← Nat.add_assoc, Nat.add_right_comm,
    BitVec.ofNat_add _ (List.length _)] at hcounter
  exact (BitVec.add_left_inj _).1 hcounter

/-- The acknowledgement, if the step is one, names no packet that the map of the base has. -/
def AcksNothingHeld (w : World T) : Event T → Prop
  | .critical _ e => w.base.erasedBy e.op = []
  | _ => True

/-- `get_retriables` of the thread, if it is called next, comes to the section in which it is put
into the queue, and waits after it. -/
def Waits (debug : Bool) (env : Outside) (w : World T) (t : T) : Prop :=
  ∃ w1 w2, Step debug env w (.subscribe t) w1 ∧ Step debug env w1 (.go t) w2 ∧
    (∃ expected, w2.reactor.phase t = .enqueuing expected) ∧
    ∀ w3, Step debug env w2 (.go t) w3 →
      ∃ smp, w3.reactor.phase t = .waiting smp ∧ (t, smp) ∈ w3.reactor.reactor.mtxQueue

theorem toInt_counter {held erased : Nat} (h : held ≤ 2 ^ 30) :
    (BitVec.ofNat 64 (held + erased)).toInt = held ↔ 2 ^ 64 ∣ erased := by
  rw [BitVec.toInt_eq_toNat_cond, BitVec.toNat_ofNat, Nat.dvd_iff_mod_eq_zero]
  split
  · omega
  · omega

omit [DecidableEq T] in
/-- Between calls the counter tells what the base holds, unless packets were erased. -/
theorem Inv.tracks (hi : Inv env config w hist) (hq : Quiescent w) :
    w.reactor.reactor.counter.toInt = held w ↔ 2 ^ 64 ∣ (erased hist).length := by
  have hheld : held w ≤ 2 ^ 30 := by
    unfold held
    rw [hi.waitPtrs_eq_nil hq]
    exact hi.base.good.size_le.trans hi.capacity
  rw [hi.counter_eq hq]
  exact toInt_counter hheld

theorem Inv.waits (hi : Inv env config w hist) (hq : Quiescent w)
    (hbelow : w.reactor.reactor.counter.toInt < w.reactor.reactor.wakeupThreshold.toInt) (t : T) :
    Waits debug env w t := by
  have hidle : w.reactor.phase t = .idle := by
    apply hi.calm t
    · exact fun h => Phase.noConfusion ((hq t).symm.trans h)
    · exact fun h => Phase.noConfusion ((hq t).symm.trans h)
  let r1 := w.reactor.setPhase t (.subscribing w.reactor.reactor.counter)
  let r2 := r1.setPhase t (.enqueuing r1.reactor.wakeupThreshold)
  let w1 : World T := { w.setPhase t .subscribing with reactor := r1 }
  let w2 : World T := { w1.setPhase t .subscribing with reactor := r2 }
  have h1 : Step debug env w (.subscribe t) w1 := by
    have hr : w.reactor.step debug (.subscribe t) = .ok (some r1) := if_pos hidle
    refine (if_pos (hq t)).trans ?_
    unfold World.react
    rw [hr]
    rfl
  have hp1 : w1.phase t = .subscribing := phase_setPhase_self
  have h2 : Step debug env w1 (.go t) w2 := by
    have hr : w1.reactor.step debug (.go t) = .ok (some r2) :=
      Reactor.go_subscribing (Function.update_self ..) hbelow
    refine (if_pos (.inr hp1)).trans ?_
    unfold World.react
    rw [hr, hp1]
    rfl
  have hp2 : w2.phase t = .subscribing := phase_setPhase_self
  refine ⟨w1, w2, h1, h2, ⟨_, Function.update_self ..⟩, fun w3 h3 => ?_⟩
  replace h3 : w2.inReactor debug t (.go t) = .ok (some w3) := h3
  rw [World.inReactor, if_pos (.inr hp2)] at h3
  obtain ⟨r3, hr3, rfl⟩ := react_cases h3
  exact Reactor.go_enqueuing (w := r2) (Function.update_self ..) hbelow hr3

theorem erased_eq_nil
    (h : Reach (Fresh config) (fun w e w' => Step debug env w e w' ∧ AcksNothingHeld w e) w hist) :
    erased hist = [] ∧ Reach (Fresh config) (Step debug env) w hist := by
  refine h.inv (fun w hist => erased hist = [] ∧ Reach (Fresh config) (Step debug env) w hist)
    (fun w h0 => ⟨rfl, .init h0⟩) fun w hist e w' hi hs => ⟨?_, .step hi.2 hs.1⟩
  unfold erased sections at hi ⊢
  rw [List.filterMap_append, List.flatMap_append, hi.1, List.nil_append]
  cases e with
  | critical t e =>
    obtain ⟨p, base', -, hbase, -⟩ := critical_cases hs.1
    have : e.erased = [] := hbase.2.trans hs.2
    simpa [Event.baseEvent] using this
  | _ => rfl

/-- **When the counter tracks the backlog.** Between calls the counter is the number of packets that
the base holds, and with nothing held a call waits, as long as no acknowledgement names a packet of the
map; and otherwise the counter is larger by what was erased. -/
theorem counter_tracks_backlog {T : Type} [DecidableEq T] (config : Retransmission.Config)
    (debug : Bool) (env : Outside) :
    (∀ (w : World T) (hist : List (Event T)),
      Reach (Fresh config) (fun w e w' => Step debug env w e w' ∧ AcksNothingHeld w e) w hist →
      Quiescent w → w.reactor.reactor.counter.toInt = held w ∧
        (held w = 0 → 0 < w.reactor.reactor.wakeupThreshold.toInt → ∀ t, Waits debug env w t)) ∧
    ∀ (w : World T) (hist : List (Event T)), Reach (Fresh config) (Step debug env) w hist →
      Quiescent w → (w.reactor.reactor.counter.toInt = held w ↔ 2 ^ 64 ∣ (erased hist).length) := by
  refine ⟨fun w hist h hq => ?_, fun w hist h hq => (reach_inv h).tracks hq⟩
  obtain ⟨hnone, h⟩ := erased_eq_nil h
  have hi := reach_inv h
  have htracks : w.reactor.reactor.counter.toInt = held w := by
    refine (hi.tracks hq).2 ?_
    rw [hnone]
    exact Nat.dvd_zero _
  refine ⟨htracks, fun hheld hthreshold t => hi.waits hq ?_ t⟩
  rw [htracks, hheld]
  exact hthreshold

/-- A controller with one place, and a reactor with the threshold 1, which one thread calls. -/
def oneController (c : Retransmission.MemoryEfficientRetransmissionController) : World Unit :=
  ⟨⟨c, [], 0, []⟩, ⟨(Reactor.ComplexReactor.make 1).setWakeupThreshold 1, fun _ => .idle, 0, []⟩,
    fun _ => .idle⟩

def addsOne : List (Event Unit) :=
  [.critical () ⟨.addRetriables [numbered 0] 0, [], []⟩, .increment (), .go (), .go (),
    .incremented ()]

def getsOne : List (Event Unit) :=
  [.subscribe (), .go (), .critical () ⟨.getRetriables 1 1 coins,
    [bump (numbered 0)], []⟩, .decrement ()]

def acksOne : List (Event Unit) :=
  [.critical () ⟨.ack [(numbered 0).id] coins, [],
    [bump (numbered 0)]⟩]

def World.next (w : World Unit) (e : Event Unit) : Option (World Unit) :=
  ofStep (w.step true calm e)

theorem oneController_fresh {c : Retransmission.MemoryEfficientRetransmissionController}
    (hc : Retransmission.getMemoryEfficientRetransmissionController oneConfig = .ok c) :
    Fresh oneConfig (oneController c) :=
  ⟨⟨c, hc, rfl⟩, ⟨1, 1, rfl⟩, fun _ => rfl⟩

/-- The packet is added and returned, and the next call waits. -/
theorem counter_tracks_backlog_one : ∃ w : World Unit, Quiescent w ∧
    w.reactor.reactor.counter.toInt = held w ∧ Waits true calm w () ∧
    (w.reactor.reactor.counter.toInt = held w ↔ 2 ^ 64 ∣ (erased (addsOne ++ getsOne)).length) := by
  obtain ⟨c, hc, w, hrun, hidle, hheld, hthreshold⟩ : ∃ c,
      Retransmission.getMemoryEfficientRetransmissionController oneConfig = .ok c ∧
      ∃ w, (addsOne ++ getsOne).foldlM World.next (oneController c) = some w ∧ w.phase () = .idle ∧
        held w = 0 ∧ w.reactor.reactor.wakeupThreshold.toInt = 1 :=
    ⟨_, rfl, _, rfl, rfl, rfl, rfl⟩
  have hacks : ∀ e ∈ addsOne ++ getsOne, ∀ w : World Unit, AcksNothingHeld w e := by
    simp [addsOne, getsOne, AcksNothingHeld, Retransmission.World.erasedBy]
  have h0 : Reach (Fresh oneConfig) (fun w e w' =>
      Step true calm w e w' ∧ AcksNothingHeld w e) (oneController c) [] :=
    .init (oneController_fresh hc)
  have h := h0.foldlM_of (f := World.next) (fun ha e => ⟨ofStep_eq_some e, ha _⟩) hacks hrun
  have hq : Quiescent w := fun _ => hidle
  obtain ⟨htracks, hwaits⟩ := (counter_tracks_backlog _ _ _).1 w _ h hq
  refine ⟨w, hq, htracks, hwaits hheld (by rw [hthreshold]; exact Int.one_pos) (), ?_⟩
  exact (counter_tracks_backlog _ _ _).2 w _ (erased_eq_nil h).2 hq

/-- The packet is added and acknowledged: nothing is held, and the next call does not wait. -/
theorem acked_packet_counted : ∃ w : World Unit,
    Reach (Fresh oneConfig) (Step true calm) w (addsOne ++ acksOne) ∧
    Quiescent w ∧ held w = 0 ∧ w.reactor.reactor.counter.toInt = 1 ∧
    w.reactor.reactor.wakeupThreshold.toInt = 1 ∧ ¬ Waits true calm w () := by
  obtain ⟨c, hc, w, hrun, hidle, hheld, hcounter, hthreshold, w1, h1, w2, h2, hp⟩ : ∃ c,
      Retransmission.getMemoryEfficientRetransmissionController oneConfig = .ok c ∧
      ∃ w, (addsOne ++ acksOne).foldlM World.next (oneController c) = some w ∧ w.phase () = .idle ∧
        held w = 0 ∧ w.reactor.reactor.counter.toInt = 1 ∧
        w.reactor.reactor.wakeupThreshold.toInt = 1 ∧ ∃ w1, w.next (.subscribe ()) = some w1 ∧
        ∃ w2, w1.next (.go ()) = some w2 ∧ w2.reactor.phase () = .idle :=
    ⟨_, rfl, _, rfl, rfl, rfl, rfl, rfl, _, rfl, _, rfl, rfl⟩
  refine ⟨w, (Reach.init (oneController_fresh hc)).runM id hrun, fun _ => hidle, hheld, hcounter,
    hthreshold, ?_⟩
  rintro ⟨w1', w2', h1', h2', ⟨expected, hp'⟩, -⟩
  -- a step has one result
  cases (ofStep_eq_some h1).symm.trans h1'
  cases (ofStep_eq_some h2).symm.trans h2'
  exact Reactor.Phase.noConfusion (hp.symm.trans hp')

end ReactingRetransmission
