import NeuralNetwork.Lib.ListUpdate
import NeuralNetwork.Lib.Loop
import NeuralNetwork.InternalRest.ContainerCalls

/-!
# What calls around a container of vectors keep

For a class whose critical sections are those of a hub (`Refines`):

* `put_moves`, `pop_moves`, `finish_moves`: what a critical section does to any measure of the
  vectors in the queues and in the hands of the callers.
* `Inv.step`: the calls that wait are those the hub knows, and nobody waits who need not.
-/

namespace ContainerCalls

open Cpp Loop HandOver ListUpdate Mailbox World
open Hub (setLane)

variable {C κ T : Type} {s : Sections C κ T} {order : List κ}
  {hub : C → Hub κ (Vec T) Nat Nat} {w w' : World C κ T}

/-! ## The classes -/

/-- The critical sections that return are those of a hub. -/
structure Refines [DecidableEq κ] (s : Sections C κ T) (order : List κ)
    (hub : C → Hub κ (Vec T) Nat Nat) : Prop where
  nodup : order.Nodup
  complete : ∀ k, k ∈ order
  groups : ∀ {c arr i groups}, s.groups c arr i = .ok groups →
    (groups.flatMap Prod.snd).Perm arr.zipIdx
  push : ∀ {c c' k vec i r}, s.push c k vec i = .ok (c', r) → (hub c).offer k vec i = (hub c', r)
  pop : ∀ {c c' j r}, s.pop c j = .ok (c', r) → (hub c).take order j = (hub c', r)
  popLeftover : ∀ {c c' vec r}, s.popLeftover c vec = .ok (c', r) →
    (hub c).giveBack vec = (hub c', r)

/-! ## What a step can do -/

variable {pushes : List (PushCall κ T)} {j : Nat} {pops : List (PopCall T)} {call : PushCall κ T}
  {i : Nat}

theorem get_cases (e : Step s w (.get i) w') :
    ∃ arr exceptionArr key args todo,
      w.pushes[i]? = some ⟨arr, exceptionArr, (key, args) :: todo, .running⟩ ∧
      ((∃ vec, w.allocator.get = (w'.allocator, some vec) ∧ w' = { w.setPush i
            ⟨arr, exceptionArr, todo, .holding key ⟨vec.id, args.map Prod.fst⟩⟩ with
          allocator := w'.allocator }) ∨
        w.allocator.get = (w'.allocator, none) ∧ w' = { w.setPush i
            ⟨arr, refuse exceptionArr args, todo, .running⟩ with
          allocator := w'.allocator }) := by
  unfold Step World.step at e
  dsimp only at e
  split at e
  · rename_i arr exceptionArr key args todo hi
    refine ⟨arr, exceptionArr, key, args, todo, hi, ?_⟩
    split at e
    · rename_i allocator vec hget
      cases e
      exact .inl ⟨vec, hget, rfl⟩
    · rename_i allocator hget
      cases e
      exact .inr ⟨hget, rfl⟩
  · cases e

theorem put_cases (e : Step s w (.put i) w') :
    ∃ arr exceptionArr todo key vec container r,
      w.pushes[i]? = some ⟨arr, exceptionArr, todo, .holding key vec⟩ ∧
      s.push w.container key vec i = .ok (container, r) ∧
      w' = { w with container := container }.afterPut i
        ⟨arr, exceptionArr, todo, .holding key vec⟩ key vec r := by
  unfold Step World.step at e
  dsimp only at e
  split at e
  · rename_i arr exceptionArr todo key vec hi
    obtain ⟨⟨container, r⟩, hpush, e⟩ := bind_eq_ok e
    cases e
    exact ⟨arr, exceptionArr, todo, key, vec, container, r, hi, hpush, rfl⟩
  · cases e

theorem pop_cases {cap : Nat} (e : Step s w (.pop cap) w') :
    ∃ container r, s.pop w.container w.pops.length = .ok (container, r) ∧
      w' = { w with container := container }.afterPop cap r := by
  obtain ⟨⟨container, r⟩, hpop, e⟩ := bind_eq_ok e
  cases e
  exact ⟨container, r, hpop, rfl⟩

theorem finish_cases (e : Step s w (.finish j) w') :
    ∃ cap vec, w.pops[j]? = some ⟨cap, .holding vec⟩ ∧
      ((remainderOf cap vec.items ≠ [] ∧ ∃ container r,
          s.popLeftover w.container ⟨vec.id, remainderOf cap vec.items⟩ = .ok (container, r) ∧
          w' = { w.setPop j ⟨cap, .returned (outputOf cap vec.items)⟩ with
              container := container }.afterLeftover
            ⟨vec.id, remainderOf cap vec.items⟩ r) ∨
        remainderOf cap vec.items = [] ∧
          w' = { w.setPop j ⟨cap, .returned (outputOf cap vec.items)⟩ with
            allocator := w.allocator.free ⟨vec.id, []⟩ }) := by
  unfold Step World.step at e
  dsimp only at e
  split at e
  · rename_i cap vec hj
    refine ⟨cap, vec, hj, ?_⟩
    split at e
    · rename_i hrem
      obtain ⟨⟨container, r⟩, hback, e⟩ := bind_eq_ok e
      cases e
      exact .inl ⟨hrem, container, r, hback, rfl⟩
    · rename_i hrem
      have hrem := not_not.1 hrem
      rw [hrem] at e
      cases e
      exact .inr ⟨hrem, rfl⟩
  · cases e

theorem push_cases {arr : List T} (e : Step s w (.push arr) w') :
    ∃ groups, s.groups w.container arr w.pushes.length = .ok groups ∧ w' = { w with
      pushes := w.pushes ++ [⟨arr, List.replicate arr.length .success, groups, .running⟩] } := by
  obtain ⟨groups, hgroups, e⟩ := bind_eq_ok e
  cases e
  exact ⟨groups, hgroups, rfl⟩

/-! ## Who waits -/

def PopWaits (pops : List (PopCall T)) (j : Nat) : Prop :=
  ∃ call, pops[j]? = some call ∧ call.phase = .waiting

def PushWaits (pushes : List (PushCall κ T)) (k : κ) (i : Nat) : Prop :=
  ∃ call, pushes[i]? = some call ∧ call.phase = .waiting k

theorem popWaits_set {j p : Nat} {call : PopCall T} (hlt : p < pops.length)
    (hcall : call.phase ≠ .waiting) :
    PopWaits (pops.set p call) j ↔ j ≠ p ∧ PopWaits pops j := by
  unfold PopWaits
  by_cases hjp : j = p
  · subst hjp
    simp [hlt, hcall]
  · rw [List.getElem?_set_ne (fun he => hjp he.symm)]
    simp [hjp]

theorem popWaits_append {call : PopCall T} :
    PopWaits (pops ++ [call]) j ↔
      PopWaits pops j ∨ j = pops.length ∧ call.phase = .waiting := by
  unfold PopWaits
  rcases Nat.lt_trichotomy j pops.length with hlt | heq | hgt
  · rw [List.getElem?_append_left hlt]
    simp [Nat.ne_of_lt hlt]
  · subst heq
    simp
  · have h1 : (pops ++ [call])[j]? = none := List.getElem?_eq_none (by simp; omega)
    have h2 : pops[j]? = none := List.getElem?_eq_none (by omega)
    simp [h1, h2, Nat.ne_of_gt hgt]

theorem pushWaits_set {k : κ} {i j : Nat} (hlt : i < pushes.length) :
    PushWaits (pushes.set i call) k j ↔
      if j = i then call.phase = .waiting k else PushWaits pushes k j := by
  unfold PushWaits
  by_cases hji : j = i
  · subst hji
    simp [hlt]
  · rw [List.getElem?_set_ne (fun he => hji he.symm)]
    simp [hji]

theorem pushWaits_append {k : κ} (hcall : call.phase ≠ .waiting k) :
    PushWaits (pushes ++ [call]) k j ↔ PushWaits pushes k j := by
  unfold PushWaits
  rcases Nat.lt_trichotomy j pushes.length with hlt | heq | hgt
  · rw [List.getElem?_append_left hlt]
  · subst heq
    simp [hcall]
  · have h1 : (pushes ++ [call])[j]? = none := List.getElem?_eq_none (by simp; omega)
    have h2 : pushes[j]? = none := List.getElem?_eq_none (by omega)
    simp [h1, h2]

structure Knows (h : Hub κ (Vec T) Nat Nat) (pops : List (PopCall T))
    (pushes : List (PushCall κ T)) : Prop where
  waiting_nodup : h.waiting.Nodup
  waiting : ∀ j, j ∈ h.waiting ↔ PopWaits pops j
  blocked_nodup : ∀ k, ((h.lane k).blocked.map Prod.snd).Nodup
  blocked : ∀ k i, i ∈ (h.lane k).blocked.map Prod.snd ↔ PushWaits pushes k i

section Knows

variable {h h' : Hub κ (Vec T) Nat Nat} {pops : List (PopCall T)} {pushes : List (PushCall κ T)}

theorem Knows.congr (hk : Knows h pops pushes) (hw : h'.waiting = h.waiting)
    (hb : ∀ k, (h'.lane k).blocked = (h.lane k).blocked) : Knows h' pops pushes := by
  refine ⟨hw ▸ hk.waiting_nodup, hw ▸ hk.waiting, fun k => ?_, fun k => ?_⟩
  · rw [hb]
    exact hk.blocked_nodup k
  · rw [hb]
    exact hk.blocked k

theorem Knows.deliver (hk : Knows h pops pushes) {p : Nat} {rest : List Nat}
    (hw : h.waiting = p :: rest) :
    ∃ cap, pops[p]? = some ⟨cap, .waiting⟩ ∧
      ∀ vec, Knows { h with waiting := rest } (pops.set p ⟨cap, .holding vec⟩) pushes := by
  obtain ⟨⟨cap, phase⟩, hp, hphase⟩ := (hk.waiting p).1 (by simp [hw])
  obtain rfl : phase = .waiting := hphase
  have hlt := (List.getElem?_eq_some_iff.1 hp).1
  have hnodup := hk.waiting_nodup
  rw [hw, List.nodup_cons] at hnodup
  refine ⟨cap, hp, fun vec => ⟨hnodup.2, fun j => ?_, hk.blocked_nodup, hk.blocked⟩⟩
  rw [popWaits_set hlt (by simp), ← hk.waiting, hw]
  constructor
  · intro hj
    exact ⟨fun he => hnodup.1 (he ▸ hj), List.mem_cons_of_mem _ hj⟩
  · rintro ⟨hne, hj⟩
    exact (List.mem_cons.1 hj).resolve_left hne

variable {call call' : PushCall κ T}

section

variable (hk : Knows h pops pushes)

include hk

theorem Knows.setPush {i : Nat} (hi : pushes[i]? = some call)
    (hcall : ∀ k, call.phase ≠ .waiting k) (hcall' : ∀ k, call'.phase ≠ .waiting k) :
    Knows h pops (pushes.set i call') := by
  refine ⟨hk.waiting_nodup, hk.waiting, hk.blocked_nodup, fun k j => ?_⟩
  rw [hk.blocked, pushWaits_set (List.getElem?_eq_some_iff.1 hi).1]
  split
  · rename_i he
    subst he
    simp [PushWaits, hi, hcall, hcall']
  · rfl

theorem Knows.setPop {j : Nat} {call call' : PopCall T}
    (hj : pops[j]? = some call) (hcall : call.phase ≠ .waiting) (hcall' : call'.phase ≠ .waiting) :
    Knows h (pops.set j call') pushes := by
  refine ⟨hk.waiting_nodup, fun i => ?_, hk.blocked_nodup, hk.blocked⟩
  rw [hk.waiting, popWaits_set (List.getElem?_eq_some_iff.1 hj).1 hcall']
  refine ⟨fun hi => ⟨?_, hi⟩, fun hi => hi.2⟩
  rintro rfl
  obtain ⟨call0, h0, hphase⟩ := hi
  rw [hj] at h0
  cases h0
  exact hcall hphase

theorem Knows.appendPush {call : PushCall κ T}
    (hcall : ∀ k, call.phase ≠ .waiting k) : Knows h pops (pushes ++ [call]) := by
  refine ⟨hk.waiting_nodup, hk.waiting, hk.blocked_nodup, fun k j => ?_⟩
  rw [hk.blocked, pushWaits_append (hcall k)]

theorem Knows.appendPop {call : PopCall T}
    (hcall : call.phase ≠ .waiting) : Knows h (pops ++ [call]) pushes := by
  refine ⟨hk.waiting_nodup, fun j => ?_, hk.blocked_nodup, hk.blocked⟩
  rw [hk.waiting, popWaits_append]
  simp [hcall]

theorem Knows.wait (cap : Nat) :
    Knows { h with waiting := h.waiting ++ [pops.length] } (pops ++ [⟨cap, .waiting⟩]) pushes := by
  have hnew : pops.length ∉ h.waiting := by
    rw [hk.waiting]
    rintro ⟨call, hcall, -⟩
    simp at hcall
  refine ⟨?_, fun j => ?_, hk.blocked_nodup, hk.blocked⟩
  · rw [List.nodup_append]
    refine ⟨hk.waiting_nodup, by simp, fun a ha b hb he => ?_⟩
    obtain rfl := List.mem_singleton.1 hb
    exact hnew (he ▸ ha)
  · rw [popWaits_append, ← hk.waiting]
    simp

end

variable [DecidableEq κ]

theorem Knows.block (hk : Knows h pops pushes) {i : Nat} {k : κ} (hi : pushes[i]? = some call)
    (hcall : ∀ k, call.phase ≠ .waiting k) (hcall' : call'.phase = .waiting k) (vec : Vec T) :
    Knows (h.setLane k { h.lane k with blocked := (h.lane k).blocked ++ [(vec, i)] }) pops
      (pushes.set i call') := by
  have hnew : ∀ k, i ∉ (h.lane k).blocked.map Prod.snd := by
    intro k hmem
    obtain ⟨call0, h0, hphase⟩ := (hk.blocked k i).1 hmem
    rw [hi] at h0
    cases h0
    exact hcall k hphase
  refine ⟨hk.waiting_nodup, hk.waiting, fun k' => ?_, fun k' j => ?_⟩
  · by_cases hkk : k' = k
    · subst hkk
      simp only [setLane, Function.update_self, List.map_append, List.map_singleton]
      rw [List.nodup_append]
      refine ⟨hk.blocked_nodup k', by simp, fun a ha b hb he => ?_⟩
      obtain rfl := List.mem_singleton.1 hb
      exact hnew k' (he ▸ ha)
    · simpa [setLane, hkk] using hk.blocked_nodup k'
  · rw [pushWaits_set (List.getElem?_eq_some_iff.1 hi).1, ← hk.blocked]
    by_cases hkk : k' = k
    · subst hkk
      by_cases hji : j = i
      · simp [setLane, hji, hcall']
      · simp [setLane, hji]
    · by_cases hji : j = i
      · subst hji
        have := hnew k'
        simp [setLane, hkk, hcall', Ne.symm hkk]
        simpa using this
      · simp [setLane, hkk, hji]

theorem Knows.release (hk : Knows h pops pushes) {k : κ} {vec : Vec T} {q : Nat}
    {rest : List (Vec T × Nat)} (hb : (h.lane k).blocked = (vec, q) :: rest) :
    ∃ call, pushes[q]? = some call ∧ call.phase = .waiting k ∧
      Knows (h.setLane k { h.lane k with blocked := rest }) pops
        (pushes.set q { call with phase := .running }) := by
  obtain ⟨call, hq, hphase⟩ := (hk.blocked k q).1 (by simp [hb])
  have hlt := (List.getElem?_eq_some_iff.1 hq).1
  have hnodup := hk.blocked_nodup k
  rw [hb, List.map_cons, List.nodup_cons] at hnodup
  refine ⟨call, hq, hphase, hk.waiting_nodup, hk.waiting, fun k' => ?_, fun k' j => ?_⟩
  · by_cases hkk : k' = k
    · subst hkk
      simpa [setLane] using hnodup.2
    · simpa [setLane, hkk] using hk.blocked_nodup k'
  · rw [pushWaits_set hlt, ← hk.blocked]
    by_cases hkk : k' = k
    · subst hkk
      by_cases hjq : j = q
      · subst hjq
        simpa [setLane] using hnodup.1
      · simp only [setLane, Function.update_self, hb, List.map_cons, List.mem_cons, if_neg hjq]
        simp [hjq]
    · by_cases hjq : j = q
      · subst hjq
        have hnot : j ∉ (h.lane k').blocked.map Prod.snd := by
          intro hmem
          obtain ⟨call0, h0, hphase0⟩ := (hk.blocked k' j).1 hmem
          rw [hq] at h0
          cases h0
          rw [hphase] at hphase0
          cases hphase0
          exact hkk rfl
        simpa [setLane, hkk] using hnot
      · simp [setLane, hkk, hjq]

end Knows

/-! ## What is in flight -/

def PushPhase.weight (φ : Vec T → Nat) : PushPhase κ T → Nat
  | .running => 0
  | .holding _ vec => φ vec
  | .waiting _ => 0

def PopPhase.weight (φ : Vec T → Nat) : PopPhase T → Nat
  | .waiting => 0
  | .holding vec => φ vec
  | .returned _ => 0

/-- A measure of the vectors in the queues and in the hands of the callers. -/
def World.inFlight (hub : C → Hub κ (Vec T) Nat Nat) (order : List κ) (φ : Vec T → Nat)
    (w : World C κ T) : Nat :=
  (hub w.container).weight φ order + (w.pushes.map fun call => call.phase.weight φ).sum +
    (w.pops.map fun call => call.phase.weight φ).sum

def World.held (w : World C κ T) : Nat := (w.pops.map fun call => call.phase.weight fun _ => 1).sum

def PushCall.core (call : PushCall κ T) : List T × List ExceptionT × List (κ × List (T × Nat)) :=
  (call.arr, call.exceptionArr, call.todo)

def PopCall.output (call : PopCall T) : List T :=
  match call.phase with
  | .returned output => output
  | _ => []

structure Inv (hub : C → Hub κ (Vec T) Nat Nat) (w : World C κ T) : Prop where
  fair : Fair (hub w.container)
  knows : Knows (hub w.container) w.pops w.pushes

/-- A step that moves vectors between the queues and the callers, and nothing else. -/
structure Moves (hub : C → Hub κ (Vec T) Nat Nat) (order : List κ) (w w' : World C κ T) : Prop where
  inv : Inv hub w'
  inFlight : ∀ φ, w'.inFlight hub order φ = w.inFlight hub order φ
  core : w'.pushes.map PushCall.core = w.pushes.map PushCall.core
  allocator : w'.allocator = w.allocator
  leftover : (hub w'.container).leftover.length + w'.held ≤
    (hub w.container).leftover.length + w.held ∨ (hub w'.container).leftover = []

variable [DecidableEq κ]

theorem put_moves (hr : Refines s order hub) (hi : Inv hub w) (e : Step s w (.put i) w') :
    Moves hub order w w' ∧ w'.pops.map PopCall.output = w.pops.map PopCall.output := by
  obtain ⟨arr, exceptionArr, todo, key, vec, container, r, hcall, hpush, rfl⟩ := put_cases e
  have hoffer := hr.push hpush
  have hfair := hi.fair.offer hoffer
  have hnot : ∀ k, (⟨arr, exceptionArr, todo, .holding key vec⟩ : PushCall κ T).phase ≠
      .waiting k := fun k => by simp
  rcases offer_cases hoffer with ⟨p, rest, hw, hh, rfl⟩ | ⟨hw, hroom, hh, rfl⟩ |
    ⟨hw, hfull, hh, rfl⟩
  · -- a waiting call of `pop` gets the vector
    obtain ⟨cap, hp, hk⟩ := hi.knows.deliver hw
    have hset : w.pops.modify p (fun call => { call with phase := .holding vec }) =
        w.pops.set p ⟨cap, .holding vec⟩ := modify_eq_set hp _
    have hweight := fun φ => offer_weight φ hr.nodup (hr.complete key) hoffer
    refine ⟨⟨⟨hfair, ?_⟩, fun φ => ?_, ?_, rfl, .inr ?_⟩, ?_⟩
    · show Knows (hub container) (w.pops.modify p _) (w.pushes.set i _)
      rw [hh, hset]
      exact (hk vec).setPush hcall hnot (fun k => by simp)
    · have h1 := sum_map_set (fun call : PushCall κ T => call.phase.weight φ)
        (b := ⟨arr, exceptionArr, todo, .running⟩) hcall
      have h2 := sum_map_set (fun call : PopCall T => call.phase.weight φ)
        (b := ⟨cap, .holding vec⟩) hp
      have h3 := hweight φ
      show (hub container).weight φ order + ((w.pushes.set i _).map _).sum +
        ((w.pops.modify p _).map _).sum = _
      rw [hset]
      simp only [World.inFlight, PushPhase.weight, PopPhase.weight, Offer.weight] at h1 h2 h3 ⊢
      omega
    · exact map_set_same PushCall.core hcall rfl
    · show (hub container).leftover = []
      rw [hh]
      exact (hi.fair.idle (by simp [hw])).1
    · show (w.pops.modify p _).map _ = _
      rw [hset]
      exact map_set_same PopCall.output hp rfl
  · -- the vector is queued
    have hweight := fun φ => offer_weight φ hr.nodup (hr.complete key) hoffer
    refine ⟨⟨⟨hfair, ?_⟩, fun φ => ?_, ?_, rfl, .inl ?_⟩, rfl⟩
    · show Knows (hub container) w.pops (w.pushes.set i _)
      refine Knows.congr (hi.knows.setPush hcall hnot fun k => by simp)
        (by rw [hh]; rfl) fun k => ?_
      rw [hh]
      by_cases hk : k = key
      · subst hk
        simp [setLane]
      · simp [setLane, hk]
    · have h1 := sum_map_set (fun call : PushCall κ T => call.phase.weight φ)
        (b := ⟨arr, exceptionArr, todo, .running⟩) hcall
      have h3 := hweight φ
      show (hub container).weight φ order + ((w.pushes.set i _).map _).sum + (w.pops.map _).sum = _
      simp only [World.inFlight, PushPhase.weight, Offer.weight] at h1 h3 ⊢
      omega
    · exact map_set_same PushCall.core hcall rfl
    · show (hub container).leftover.length + _ ≤ _
      rw [hh]
      exact Nat.le_refl _
  · -- the call waits
    have hweight := fun φ => offer_weight φ hr.nodup (hr.complete key) hoffer
    refine ⟨⟨⟨hfair, ?_⟩, fun φ => ?_, ?_, rfl, .inl ?_⟩, rfl⟩
    · show Knows (hub container) w.pops (w.pushes.set i _)
      rw [hh]
      exact hi.knows.block hcall hnot rfl vec
    · have h1 := sum_map_set (fun call : PushCall κ T => call.phase.weight φ)
        (b := ⟨arr, exceptionArr, todo, .waiting key⟩) hcall
      have h3 := hweight φ
      show (hub container).weight φ order + ((w.pushes.set i _).map _).sum + (w.pops.map _).sum = _
      simp only [World.inFlight, PushPhase.weight, Offer.weight] at h1 h3 ⊢
      omega
    · exact map_set_same PushCall.core hcall rfl
    · show (hub container).leftover.length + _ ≤ _
      rw [hh]
      exact Nat.le_refl _

theorem pop_moves (hr : Refines s order hub) (hi : Inv hub w) {cap : Nat}
    (e : Step s w (.pop cap) w') :
    Moves hub order w w' ∧ ∃ phase, w'.pops = w.pops ++ [⟨cap, phase⟩] ∧
      ∀ output, phase ≠ .returned output := by
  obtain ⟨container, r, hpop, rfl⟩ := pop_cases e
  have htake := hr.pop hpop
  have hfair := hi.fair.take hr.complete htake
  have hweight := fun φ => take_weight φ hr.nodup htake
  rcases take_cases htake with ⟨vec, rest, hl, hh, rfl⟩ | ⟨hl, k, hk, vec, q, rest, hb, hh, rfl⟩ |
    ⟨hl, k, hk, vec, rest, hb, hq, hh, rfl⟩ | ⟨hl, hempty, hh, rfl⟩
  · refine ⟨⟨⟨hfair, ?_⟩, fun φ => ?_, rfl, rfl, .inl ?_⟩, .holding vec, rfl, by simp⟩
    · show Knows (hub container) (w.pops ++ _) w.pushes
      rw [hh]
      exact (hi.knows.appendPop (by simp)).congr rfl fun _ => rfl
    · have := hweight φ
      simp only [World.afterPop, World.inFlight, List.map_append, List.sum_append,
        List.map_singleton, List.sum_singleton, PopPhase.weight, Take.weight] at this ⊢
      omega
    · show (hub container).leftover.length + ((w.pops ++ _).map _).sum ≤ _
      rw [hh, hl]
      simp only [World.held, List.map_append, List.sum_append, List.map_singleton,
        List.sum_singleton, PopPhase.weight, List.length_cons]
      omega
  · -- a call of `push` is released
    obtain ⟨call, hcall, hphase, hknows⟩ := hi.knows.release hb
    have hset : w.pushes.modify q (fun call => { call with phase := .running }) =
        w.pushes.set q { call with phase := .running } := modify_eq_set hcall _
    refine ⟨⟨⟨hfair, ?_⟩, fun φ => ?_, ?_, rfl, .inr ?_⟩, .holding vec, rfl, by simp⟩
    · show Knows (hub container) (w.pops ++ _) (w.pushes.modify q _)
      rw [hh, hset]
      exact hknows.appendPop (by simp)
    · have h1 := sum_map_set (fun call : PushCall κ T => call.phase.weight φ)
        (b := { call with phase := .running }) hcall
      have h3 := hweight φ
      show (hub container).weight φ order + ((w.pushes.modify q _).map _).sum +
        ((w.pops ++ _).map _).sum = _
      rw [hset]
      simp only [World.inFlight, List.map_append, List.sum_append, List.map_singleton,
        List.sum_singleton, PopPhase.weight, PushPhase.weight, Take.weight, hphase] at h1 h3 ⊢
      omega
    · show (w.pushes.modify q _).map _ = _
      rw [hset]
      exact map_set_same PushCall.core hcall rfl
    · show (hub container).leftover = []
      rw [hh]
      exact hl
  · refine ⟨⟨⟨hfair, ?_⟩, fun φ => ?_, rfl, rfl, .inr ?_⟩, .holding vec, rfl, by simp⟩
    · show Knows (hub container) (w.pops ++ _) w.pushes
      rw [hh]
      refine (hi.knows.appendPop (by simp)).congr rfl fun k' => ?_
      by_cases hkk : k' = k
      · subst hkk
        simp [setLane]
      · simp [setLane, hkk]
    · have := hweight φ
      simp only [World.afterPop, World.inFlight, List.map_append, List.sum_append,
        List.map_singleton, List.sum_singleton, PopPhase.weight, Take.weight] at this ⊢
      omega
    · show (hub container).leftover = []
      rw [hh]
      exact hl
  · refine ⟨⟨⟨hfair, ?_⟩, fun φ => ?_, rfl, rfl, .inr ?_⟩, .waiting, rfl, by simp⟩
    · show Knows (hub container) (w.pops ++ _) w.pushes
      rw [hh]
      exact hi.knows.wait cap
    · have := hweight φ
      simp only [World.afterPop, World.inFlight, List.map_append, List.sum_append,
        List.map_singleton, List.sum_singleton, PopPhase.weight, Take.weight] at this ⊢
      omega
    · show (hub container).leftover = []
      rw [hh]
      exact hl

section

omit [DecidableEq κ]

variable {i : Nat} {call call' : PushCall κ T}

theorem Inv.setPush (hi : Inv hub w) (hcall : w.pushes[i]? = some call)
    (hnot : ∀ k, call.phase ≠ .waiting k) (hnot' : ∀ k, call'.phase ≠ .waiting k)
    (allocator : LIFOUnitAllocator T) :
    Inv hub { w.setPush i call' with allocator := allocator } :=
  ⟨hi.fair, hi.knows.setPush hcall hnot hnot'⟩

theorem inFlight_setPush (hub : C → Hub κ (Vec T) Nat Nat) (order : List κ)
    (hcall : w.pushes[i]? = some call) (call' : PushCall κ T)
    (allocator : LIFOUnitAllocator T) (φ : Vec T → Nat) :
    World.inFlight hub order φ { w.setPush i call' with allocator := allocator } +
      call.phase.weight φ = w.inFlight hub order φ + call'.phase.weight φ := by
  have h1 := sum_map_set (fun call : PushCall κ T => call.phase.weight φ) (b := call') hcall
  simp only [World.inFlight, World.setPush] at h1 ⊢
  omega

end

theorem finish_moves (hr : Refines s order hub) (hi : Inv hub w) (e : Step s w (.finish j) w') :
    ∃ cap vec, w.pops[j]? = some ⟨cap, .holding vec⟩ ∧ Inv hub w' ∧
      w'.pushes = w.pushes ∧
      (hub w'.container).leftover.length + w'.held ≤
        (hub w.container).leftover.length + w.held ∧
      (∀ ψ : PopCall T → Nat, (∀ cap vec, ψ ⟨cap, .holding vec⟩ = ψ ⟨cap, .waiting⟩) →
        (w'.pops.map ψ).sum + ψ ⟨cap, .holding vec⟩ = (w.pops.map ψ).sum +
          ψ ⟨cap, .returned (outputOf cap vec.items)⟩) ∧
      ((remainderOf cap vec.items ≠ [] ∧ w'.allocator = w.allocator ∧
          ∀ φ, w'.inFlight hub order φ + φ vec =
            w.inFlight hub order φ + φ ⟨vec.id, remainderOf cap vec.items⟩) ∨
        (remainderOf cap vec.items = [] ∧
          w'.allocator = w.allocator.free ⟨vec.id, []⟩ ∧
          ∀ φ, w'.inFlight hub order φ + φ vec = w.inFlight hub order φ)) := by
  obtain ⟨cap, vec, hcall, hw'⟩ := finish_cases e
  refine ⟨cap, vec, hcall, ?_⟩
  have hreturned : Knows (hub w.container)
      (w.pops.set j ⟨cap, .returned (outputOf cap vec.items)⟩) w.pushes :=
    hi.knows.setPop hcall (by simp) (by simp)
  have hsum := fun ψ : PopCall T → Nat => sum_map_set ψ
    (b := ⟨cap, .returned (outputOf cap vec.items)⟩) hcall
  rcases hw' with ⟨hrem, container, r, hback, rfl⟩ | ⟨hrem, rfl⟩
  · have hgive := hr.popLeftover hback
    have hfair := hi.fair.giveBack hgive
    rcases giveBack_cases hgive with ⟨p, rest, hw, hh, rfl⟩ | ⟨hw, hh, rfl⟩
    · -- a waiting call gets the rest
      obtain ⟨cap', hp, hk⟩ := hreturned.deliver hw
      have hset := modify_eq_set hp (fun call => { call with
        phase := .holding ⟨vec.id, remainderOf cap vec.items⟩ })
      have hsum2 := fun ψ : PopCall T → Nat => sum_map_set ψ
        (b := ⟨cap', .holding ⟨vec.id, remainderOf cap vec.items⟩⟩) hp
      have hpops : (afterLeftover { w.setPop j ⟨cap, .returned
          (outputOf cap vec.items)⟩ with container := container }
          ⟨vec.id, remainderOf cap vec.items⟩ (.handed p)).pops =
          (w.pops.set j ⟨cap, .returned (outputOf cap vec.items)⟩).set p
            ⟨cap', .holding ⟨vec.id, remainderOf cap vec.items⟩⟩ := hset
      have hweight := fun φ => giveBack_weight φ order hgive
      refine ⟨⟨hfair, ?_⟩, rfl, ?_, fun ψ hψ => ?_, .inl ⟨hrem, rfl, fun φ => ?_⟩⟩
      · rw [hpops]
        show Knows (hub container) _ w.pushes
        rw [hh]
        exact hk _
      · have h1 := hsum fun call => call.phase.weight fun _ => 1
        have h2 := hsum2 fun call => call.phase.weight fun _ => 1
        rw [World.held, hpops]
        show (hub container).leftover.length + _ ≤ _
        rw [hh]
        simp only [World.held, PopPhase.weight] at h1 h2 ⊢
        omega
      · have h1 := hsum ψ
        have h2 := hsum2 ψ
        have h3 := hψ cap' ⟨vec.id, remainderOf cap vec.items⟩
        rw [hpops]
        omega
      · have h1 := hsum fun call => call.phase.weight φ
        have h2 := hsum2 fun call => call.phase.weight φ
        have h3 := hweight φ
        rw [World.inFlight, hpops]
        show (hub container).weight φ order + (w.pushes.map _).sum + _ + _ = _
        simp only [World.inFlight, PopPhase.weight, GiveBack.weight] at h1 h2 h3 ⊢
        omega
    · have hweight := fun φ => giveBack_weight φ order hgive
      refine ⟨⟨hfair, ?_⟩, rfl, ?_, fun ψ _ => hsum ψ, .inl ⟨hrem, rfl, fun φ => ?_⟩⟩
      · show Knows (hub container) (w.pops.set j _) w.pushes
        rw [hh]
        exact hreturned.congr rfl fun _ => rfl
      · have h1 := hsum fun call => call.phase.weight fun _ => 1
        show (hub container).leftover.length + ((w.pops.set j _).map _).sum ≤ _
        rw [hh]
        simp only [World.held, PopPhase.weight, List.length_append, List.length_singleton] at h1 ⊢
        omega
      · have h1 := hsum fun call => call.phase.weight φ
        have h3 := hweight φ
        show (hub container).weight φ order + (w.pushes.map _).sum + ((w.pops.set j _).map _).sum +
          _ = _
        simp only [World.inFlight, PopPhase.weight, GiveBack.weight] at h1 h3 ⊢
        omega
  · refine ⟨⟨hi.fair, hreturned⟩, rfl, ?_, fun ψ _ => hsum ψ, .inr ⟨hrem, rfl, fun φ => ?_⟩⟩
    · have h1 := hsum fun call => call.phase.weight fun _ => 1
      show (hub w.container).leftover.length + ((w.pops.set j _).map _).sum ≤ _
      simp only [World.held, PopPhase.weight] at h1 ⊢
      omega
    · have h1 := hsum fun call => call.phase.weight φ
      show (hub w.container).weight φ order + (w.pushes.map _).sum + ((w.pops.set j _).map _).sum +
        _ = _
      simp only [World.inFlight, PopPhase.weight] at h1 ⊢
      omega

/-! ## The waiting calls, over a run -/

theorem Inv.step (hr : Refines s order hub) (hi : Inv hub w) {a : Action T}
    (e : Step s w a w') : Inv hub w' := by
  cases a with
  | push arr =>
    obtain ⟨groups, -, rfl⟩ := push_cases e
    exact ⟨hi.fair, hi.knows.appendPush fun k => by simp⟩
  | get i =>
    obtain ⟨arr, exceptionArr, key, args, todo, hcall, hw'⟩ := get_cases e
    rcases hw' with ⟨vec, -, hw'⟩ | ⟨-, hw'⟩
    · rw [hw']
      exact hi.setPush hcall (fun k => by simp) (fun k => by simp) _
    · rw [hw']
      exact hi.setPush hcall (fun k => by simp) (fun k => by simp) _
  | put i => exact (put_moves hr hi e).1.inv
  | pop cap => exact (pop_moves hr hi e).1.inv
  | finish j =>
    obtain ⟨cap, vec, -, hi', -⟩ := finish_moves hr hi e
    exact hi'

end ContainerCalls
