import Mathlib.Algebra.BigOperators.Group.List.Basic
import Mathlib.Data.List.Nodup
import Mathlib.Tactic.Ring

/-!
# Handing values over

A hub between producers, who bring values on lanes, and consumers. A value goes to a waiting consumer
if there is one, else to the bounded queue of its lane, else its producer is blocked with it; a
consumer may give a value back. What the operations can do is said by `offer_cases`, `take_cases`
and `giveBack_cases`. `Fair` is the waiting discipline, which they keep; `weight` adds up any measure
of the values in the hub, and `offer_weight`, `take_weight` and `giveBack_weight` say that nothing is
lost.
-/

namespace HandOver

structure Lane (V Q : Type) where
  blocked : List (V × Q)
  queue : List V
  capacity : Nat

/-- `κ` names the lanes, `P` the consumers and `Q` the producers. -/
structure Hub (κ V P Q : Type) where
  leftover : List V
  lane : κ → Lane V Q
  waiting : List P

/-- What became of an offered value. -/
inductive Offer (P : Type) where
  | handed (p : P)
  | queued
  | blocked
deriving DecidableEq

/-- What a consumer gets; the producer `q` is released. -/
inductive Take (V Q : Type) where
  | got (v : V)
  | released (v : V) (q : Q)
  | waits
deriving DecidableEq

/-- What became of a value given back. -/
inductive GiveBack (P : Type) where
  | handed (p : P)
  | kept
deriving DecidableEq

variable {κ V P Q : Type}

/-! ## Operations -/

namespace Hub

variable [DecidableEq κ] (h : Hub κ V P Q)

def setLane (k : κ) (l : Lane V Q) : Hub κ V P Q := { h with lane := Function.update h.lane k l }

def offer (k : κ) (v : V) (q : Q) : Hub κ V P Q × Offer P :=
  match h.waiting with
  | p :: rest => ({ h with waiting := rest }, .handed p)
  | [] =>
    if (h.lane k).queue.length = (h.lane k).capacity then
      (h.setLane k { h.lane k with blocked := (h.lane k).blocked ++ [(v, q)] }, .blocked)
    else (h.setLane k { h.lane k with queue := (h.lane k).queue ++ [v] }, .queued)

/-- The lanes of `order`, the blocked producers of a lane before its queue. -/
def takeLanes (p : P) : List κ → Hub κ V P Q × Take V Q
  | [] => ({ h with waiting := h.waiting ++ [p] }, .waits)
  | k :: order =>
    match (h.lane k).blocked, (h.lane k).queue with
    | (v, q) :: rest, _ => (h.setLane k { h.lane k with blocked := rest }, .released v q)
    | [], v :: rest => (h.setLane k { h.lane k with queue := rest }, .got v)
    | [], [] => takeLanes p order

def take (order : List κ) (p : P) : Hub κ V P Q × Take V Q :=
  match h.leftover with
  | v :: rest => ({ h with leftover := rest }, .got v)
  | [] => h.takeLanes p order

def giveBack (v : V) : Hub κ V P Q × GiveBack P :=
  match h.waiting with
  | p :: rest => ({ h with waiting := rest }, .handed p)
  | [] => ({ h with leftover := h.leftover ++ [v] }, .kept)

end Hub

/-! ## The operations, by what they find -/

section Branches

variable [DecidableEq κ] (h : Hub κ V P Q) (k : κ) (v : V) (q : Q)

theorem offer_waiting {p : P} {rest : List P} (hw : h.waiting = p :: rest) :
    h.offer k v q = ({ h with waiting := rest }, .handed p) := by
  unfold Hub.offer
  rw [hw]

theorem offer_room (hw : h.waiting = []) (hroom : (h.lane k).queue.length ≠ (h.lane k).capacity) :
    h.offer k v q =
      (h.setLane k { h.lane k with queue := (h.lane k).queue ++ [v] }, .queued) := by
  unfold Hub.offer
  rw [hw]
  exact if_neg hroom

theorem offer_full (hw : h.waiting = []) (hfull : (h.lane k).queue.length = (h.lane k).capacity) :
    h.offer k v q =
      (h.setLane k { h.lane k with blocked := (h.lane k).blocked ++ [(v, q)] }, .blocked) := by
  unfold Hub.offer
  rw [hw]
  exact if_pos hfull

omit [DecidableEq κ] in
theorem giveBack_waiting {p : P} {rest : List P} (hw : h.waiting = p :: rest) :
    h.giveBack v = ({ h with waiting := rest }, .handed p) := by
  unfold Hub.giveBack
  rw [hw]

omit [DecidableEq κ] in
theorem giveBack_kept (hw : h.waiting = []) :
    h.giveBack v = ({ h with leftover := h.leftover ++ [v] }, .kept) := by
  unfold Hub.giveBack
  rw [hw]

end Branches

/-! ## What the operations can do -/

section Cases

variable [DecidableEq κ] {h h' : Hub κ V P Q} {k : κ} {v : V} {q : Q} {p : P} {order : List κ}

theorem offer_cases {r : Offer P} (e : h.offer k v q = (h', r)) :
    (∃ p rest, h.waiting = p :: rest ∧ h' = { h with waiting := rest } ∧ r = .handed p) ∨
    (h.waiting = [] ∧ (h.lane k).queue.length ≠ (h.lane k).capacity ∧
      h' = h.setLane k { h.lane k with queue := (h.lane k).queue ++ [v] } ∧ r = .queued) ∨
    (h.waiting = [] ∧ (h.lane k).queue.length = (h.lane k).capacity ∧
      h' = h.setLane k { h.lane k with blocked := (h.lane k).blocked ++ [(v, q)] } ∧
      r = .blocked) := by
  unfold Hub.offer at e
  split at e
  · rename_i p rest hw
    cases e
    exact .inl ⟨p, rest, hw, rfl, rfl⟩
  · rename_i hw
    split at e
    · rename_i hfull
      cases e
      exact .inr (.inr ⟨hw, hfull, rfl, rfl⟩)
    · rename_i hroom
      cases e
      exact .inr (.inl ⟨hw, hroom, rfl, rfl⟩)

theorem takeLanes_cases {r : Take V Q} (e : h.takeLanes p order = (h', r)) :
    (∃ k ∈ order, ∃ v q rest, (h.lane k).blocked = (v, q) :: rest ∧
      h' = h.setLane k { h.lane k with blocked := rest } ∧ r = .released v q) ∨
    (∃ k ∈ order, ∃ v rest, (h.lane k).blocked = [] ∧ (h.lane k).queue = v :: rest ∧
      h' = h.setLane k { h.lane k with queue := rest } ∧ r = .got v) ∨
    ((∀ k ∈ order, (h.lane k).blocked = [] ∧ (h.lane k).queue = []) ∧
      h' = { h with waiting := h.waiting ++ [p] } ∧ r = .waits) := by
  induction order with
  | nil =>
    cases e
    exact .inr (.inr ⟨by simp, rfl, rfl⟩)
  | cons k order ih =>
    rw [Hub.takeLanes] at e
    split at e
    · rename_i v q rest hblocked
      cases e
      exact .inl ⟨k, List.mem_cons_self, v, q, rest, hblocked, rfl, rfl⟩
    · rename_i v rest hblocked hqueue
      cases e
      exact .inr (.inl ⟨k, List.mem_cons_self, v, rest, hblocked, hqueue, rfl, rfl⟩)
    · rename_i hblocked hqueue
      rcases ih e with ⟨k', hk', hc⟩ | ⟨k', hk', hc⟩ | ⟨hempty, hc⟩
      · exact .inl ⟨k', List.mem_cons_of_mem _ hk', hc⟩
      · exact .inr (.inl ⟨k', List.mem_cons_of_mem _ hk', hc⟩)
      · refine .inr (.inr ⟨fun k' hk' => ?_, hc⟩)
        rcases List.mem_cons.1 hk' with rfl | hk'
        · exact ⟨hblocked, hqueue⟩
        · exact hempty k' hk'

theorem take_cases {r : Take V Q} (e : h.take order p = (h', r)) :
    (∃ v rest, h.leftover = v :: rest ∧ h' = { h with leftover := rest } ∧ r = .got v) ∨
    (h.leftover = [] ∧ ∃ k ∈ order, ∃ v q rest, (h.lane k).blocked = (v, q) :: rest ∧
      h' = h.setLane k { h.lane k with blocked := rest } ∧ r = .released v q) ∨
    (h.leftover = [] ∧ ∃ k ∈ order, ∃ v rest, (h.lane k).blocked = [] ∧
      (h.lane k).queue = v :: rest ∧
      h' = h.setLane k { h.lane k with queue := rest } ∧ r = .got v) ∨
    (h.leftover = [] ∧ (∀ k ∈ order, (h.lane k).blocked = [] ∧ (h.lane k).queue = []) ∧
      h' = { h with waiting := h.waiting ++ [p] } ∧ r = .waits) := by
  unfold Hub.take at e
  split at e
  · rename_i v rest hl
    cases e
    exact .inl ⟨v, rest, hl, rfl, rfl⟩
  · rename_i hl
    rcases takeLanes_cases e with hc | hc | hc
    · exact .inr (.inl ⟨hl, hc⟩)
    · exact .inr (.inr (.inl ⟨hl, hc⟩))
    · exact .inr (.inr (.inr ⟨hl, hc⟩))

omit [DecidableEq κ] in
theorem giveBack_cases {r : GiveBack P} (e : h.giveBack v = (h', r)) :
    (∃ p rest, h.waiting = p :: rest ∧ h' = { h with waiting := rest } ∧ r = .handed p) ∨
    (h.waiting = [] ∧ h' = { h with leftover := h.leftover ++ [v] } ∧ r = .kept) := by
  unfold Hub.giveBack at e
  split at e
  · rename_i p rest hw
    cases e
    exact .inl ⟨p, rest, hw, rfl, rfl⟩
  · rename_i hw
    cases e
    exact .inr ⟨hw, rfl, rfl⟩

end Cases

/-! ## The waiting discipline -/

/-- A consumer waits only for an empty hub, a producer only for a full queue. -/
structure Fair (h : Hub κ V P Q) : Prop where
  idle : h.waiting ≠ [] →
    h.leftover = [] ∧ ∀ k, (h.lane k).blocked = [] ∧ (h.lane k).queue = []
  full : ∀ k, (h.lane k).blocked ≠ [] → (h.lane k).queue.length = (h.lane k).capacity

variable [DecidableEq κ] {h h' : Hub κ V P Q} {k : κ} {v : V} {q : Q} {p : P} {order : List κ}

omit [DecidableEq κ] in
theorem Fair.waiting_eq_nil (hf : Fair h) (k : κ)
    (hne : (h.lane k).blocked ≠ [] ∨ (h.lane k).queue ≠ []) : h.waiting = [] := by
  by_contra hw
  obtain ⟨hb, hq⟩ := (hf.idle hw).2 k
  rcases hne with hne | hne
  · exact hne hb
  · exact hne hq

theorem Fair.setLane (hf : Fair h) {l : Lane V Q} (hw : h.waiting = [])
    (hl : l.blocked ≠ [] → l.queue.length = l.capacity) : Fair (h.setLane k l) := by
  refine ⟨fun hne => absurd hw hne, fun k' => ?_⟩
  by_cases hk : k' = k
  · subst hk
    simpa [Hub.setLane] using hl
  · simpa [Hub.setLane, hk] using hf.full k'

theorem Fair.offer {r : Offer P} (hf : Fair h) (e : h.offer k v q = (h', r)) : Fair h' := by
  rcases offer_cases e with ⟨p, rest, hw, rfl, rfl⟩ | ⟨hw, hroom, rfl, rfl⟩ | ⟨hw, hfull, rfl, rfl⟩
  · exact ⟨fun _ => hf.idle (by simp [hw]), hf.full⟩
  · exact hf.setLane hw fun hne => absurd (hf.full k hne) hroom
  · exact hf.setLane hw fun _ => hfull

theorem Fair.take {r : Take V Q} (hf : Fair h) (horder : ∀ k, k ∈ order)
    (e : h.take order p = (h', r)) : Fair h' := by
  rcases take_cases e with ⟨v, rest, hl, rfl, rfl⟩ | ⟨hl, k, -, v, q, rest, hb, rfl, rfl⟩ |
    ⟨hl, k, -, v, rest, hb, hq, rfl, rfl⟩ | ⟨hl, hempty, rfl, rfl⟩
  · refine ⟨fun hw => ?_, hf.full⟩
    rw [(hf.idle hw).1] at hl
    cases hl
  · exact hf.setLane (hf.waiting_eq_nil k (.inl (by simp [hb]))) fun _ => hf.full k (by simp [hb])
  · exact hf.setLane (hf.waiting_eq_nil k (.inr (by simp [hq]))) fun hne => absurd hb hne
  · exact ⟨fun _ => ⟨hl, fun k => hempty k (horder k)⟩, hf.full⟩

omit [DecidableEq κ] in
theorem Fair.giveBack {r : GiveBack P} (hf : Fair h) (e : h.giveBack v = (h', r)) : Fair h' := by
  rcases giveBack_cases e with ⟨p, rest, hw, rfl, rfl⟩ | ⟨hw, rfl, rfl⟩
  · exact ⟨fun _ => hf.idle (by simp [hw]), hf.full⟩
  · exact ⟨fun hne => absurd hw hne, hf.full⟩

/-! ## The values in the hub -/

def Lane.weight (φ : V → Nat) (l : Lane V Q) : Nat :=
  (l.blocked.map fun b => φ b.1).sum + (l.queue.map φ).sum

/-- The sum of a measure over the values in the hub. -/
def Hub.weight (φ : V → Nat) (order : List κ) (h : Hub κ V P Q) : Nat :=
  (h.leftover.map φ).sum + (order.map fun k => (h.lane k).weight φ).sum

def Hub.contents (order : List κ) (h : Hub κ V P Q) : List V :=
  h.leftover ++ order.flatMap fun k => (h.lane k).blocked.map Prod.fst ++ (h.lane k).queue

omit [DecidableEq κ] in
theorem weight_eq (φ : V → Nat) (order : List κ) (h : Hub κ V P Q) :
    h.weight φ order = ((h.contents order).map φ).sum := by
  simp only [Hub.weight, Hub.contents, List.map_append, List.sum_append, List.map_flatMap]
  congr 1
  induction order with
  | nil => rfl
  | cons k order ih =>
    rw [List.map_cons, List.sum_cons, List.flatMap_cons, List.sum_append, ih]
    simp only [Lane.weight, List.sum_append, List.map_map]
    rfl

def Offer.weight (w : Nat) : Offer P → Nat
  | .handed _ => 0
  | .queued => w
  | .blocked => w

def Take.weight (φ : V → Nat) : Take V Q → Nat
  | .got v => φ v
  | .released v _ => φ v
  | .waits => 0

def GiveBack.weight (w : Nat) : GiveBack P → Nat
  | .handed _ => 0
  | .kept => w

variable (φ : V → Nat)

theorem weight_setLane (hnodup : order.Nodup) (hk : k ∈ order) (l : Lane V Q) :
    (h.setLane k l).weight φ order + (h.lane k).weight φ = h.weight φ order + l.weight φ := by
  obtain ⟨before, after, rfl⟩ := List.append_of_mem hk
  have hsame : ∀ ks : List κ, k ∉ ks →
      ks.map (fun k' => ((h.setLane k l).lane k').weight φ) =
        ks.map fun k' => (h.lane k').weight φ := by
    refine fun ks hks => List.map_congr_left fun k' hk' => ?_
    have hne : k' ≠ k := fun he => hks (he ▸ hk')
    simp [Hub.setLane, hne]
  obtain ⟨hb, ha⟩ : k ∉ before ∧ k ∉ after := by
    rw [List.nodup_middle, List.nodup_cons, List.mem_append, not_or] at hnodup
    exact hnodup.1
  have hself : ((h.setLane k l).lane k).weight φ = l.weight φ := by simp [Hub.setLane]
  simp only [Hub.weight, List.map_append, List.map_cons, List.sum_append, List.sum_cons,
    hsame before hb, hsame after ha, hself]
  show (h.leftover.map φ).sum + _ + _ = _
  ring

theorem offer_weight {r : Offer P} (hnodup : order.Nodup) (hk : k ∈ order)
    (e : h.offer k v q = (h', r)) :
    h'.weight φ order = h.weight φ order + r.weight (φ v) := by
  rcases offer_cases e with ⟨p, rest, hw, rfl, rfl⟩ | ⟨hw, hroom, rfl, rfl⟩ | ⟨hw, hfull, rfl, rfl⟩
  · rfl
  · have := weight_setLane (h := h) φ hnodup hk
      { h.lane k with queue := (h.lane k).queue ++ [v] }
    simp only [Lane.weight, Offer.weight, List.map_append, List.sum_append, List.map_singleton,
      List.sum_singleton] at this ⊢
    omega
  · have := weight_setLane (h := h) φ hnodup hk
      { h.lane k with blocked := (h.lane k).blocked ++ [(v, q)] }
    simp only [Lane.weight, Offer.weight, List.map_append, List.sum_append, List.map_singleton,
      List.sum_singleton] at this ⊢
    omega

theorem take_weight {r : Take V Q} (hnodup : order.Nodup) (e : h.take order p = (h', r)) :
    h'.weight φ order + r.weight φ = h.weight φ order := by
  rcases take_cases e with ⟨v, rest, hl, rfl, rfl⟩ | ⟨hl, k, hk, v, q, rest, hb, rfl, rfl⟩ |
    ⟨hl, k, hk, v, rest, hb, hq, rfl, rfl⟩ | ⟨hl, hempty, rfl, rfl⟩
  · simp only [Hub.weight, Take.weight, hl, List.map_cons, List.sum_cons]
    ring
  · have := weight_setLane (h := h) φ hnodup hk { h.lane k with blocked := rest }
    simp only [Lane.weight, Take.weight, hb, List.map_cons, List.sum_cons] at this ⊢
    omega
  · have := weight_setLane (h := h) φ hnodup hk { h.lane k with queue := rest }
    simp only [Lane.weight, Take.weight, hq, List.map_cons, List.sum_cons] at this ⊢
    omega
  · rfl

omit [DecidableEq κ] in
theorem giveBack_weight {r : GiveBack P} (order : List κ) (e : h.giveBack v = (h', r)) :
    h'.weight φ order = h.weight φ order + r.weight (φ v) := by
  rcases giveBack_cases e with ⟨p, rest, hw, rfl, rfl⟩ | ⟨hw, rfl, rfl⟩
  · rfl
  · simp only [Hub.weight, GiveBack.weight, List.map_append, List.sum_append, List.map_singleton,
      List.sum_singleton]
    ring

end HandOver
