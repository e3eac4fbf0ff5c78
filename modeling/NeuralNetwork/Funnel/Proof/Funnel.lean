import Mathlib.Data.List.Perm.Basic
import NeuralNetwork.Funnel.Funnel

/-!
# Handles deliver every event once

The batches a plain handle pushes, and then the events it holds, are the events delivered, in their order
(`DeliveryHandle.deliver_flatten`, `DeliveryHandle.clear_flatten`). A key-value handle keeps the order of
the events of one key and delivers all of them up to order (`KVDeliveryHandle.deliver_ok`), wherever it
flushes. No batch is larger than the capacity, or one event where that is 0.
-/

namespace Funnel

open Cpp Loop

/-! ## Plain handles -/

namespace DeliveryHandle

variable {E : Type} (h : DeliveryHandle E) (event : E)

theorem deliver_flatten :
    (h.deliver event).2.flatten ++ (h.deliver event).1.deliverableArr =
      h.deliverableArr ++ [event] := by
  unfold deliver
  by_cases hfull : h.deliverableArr.length = h.deliverableCap
  · by_cases hcap : h.deliverableCap = 0
    · have : h.deliverableArr = [] := List.length_eq_zero_iff.1 (hfull.trans hcap)
      simp [hcap, this]
    · simp [hfull, hcap]
  · simp [hfull]

@[simp] theorem deliver_cap : (h.deliver event).1.deliverableCap = h.deliverableCap := by
  unfold deliver
  split
  · split <;> rfl
  · rfl

theorem deliver_length_le (hle : h.deliverableArr.length ≤ h.deliverableCap) :
    (h.deliver event).1.deliverableArr.length ≤ h.deliverableCap ∧
      ∀ batch ∈ (h.deliver event).2, batch.length ≤ max h.deliverableCap 1 := by
  unfold deliver
  by_cases hfull : h.deliverableArr.length = h.deliverableCap
  · by_cases hcap : h.deliverableCap = 0
    · simp only [hfull, hcap, if_true]
      exact ⟨Nat.le_refl _, by simp⟩
    · simp only [hfull, hcap, if_true, if_false]
      refine ⟨by simp; omega, ?_⟩
      simp [hfull]
  · simp only [hfull, if_false]
    refine ⟨by simp; omega, by simp⟩

theorem clear_flatten : h.clear.2.flatten = h.deliverableArr := by
  unfold clear
  split
  · simp
  · simp_all

@[simp] theorem clear_arr : h.clear.1.deliverableArr = [] := by
  unfold clear
  split
  · rfl
  · simp_all

end DeliveryHandle

/-! ## The events of a list of groups -/

section
variable {K E : Type}

def pairs (groups : List (Group K E)) : List (K × E) :=
  groups.flatMap fun group => group.2.map (group.1, ·)

def flatOf [DecidableEq K] (key : K) (groups : List (Group K E)) : List E :=
  (pairs groups).filterMap fun pair => if pair.1 = key then some pair.2 else none

@[simp] theorem pairs_nil : pairs ([] : List (Group K E)) = [] := rfl

@[simp] theorem pairs_cons (group : Group K E) (groups : List (Group K E)) :
    pairs (group :: groups) = group.2.map (group.1, ·) ++ pairs groups := rfl

@[simp] theorem pairs_append (groups groups' : List (Group K E)) :
    pairs (groups ++ groups') = pairs groups ++ pairs groups' :=
  List.flatMap_append

variable {groups : List (Group K E)}

theorem length_le_of_mem {group : Group K E} (h : group ∈ groups) :
    group.2.length ≤ (pairs groups).length := by
  obtain ⟨before, after, rfl⟩ := List.append_of_mem h
  simp only [pairs_append, pairs_cons, List.length_append, List.length_map]
  omega

variable [DecidableEq K] (key : K)

@[simp] theorem flatOf_append (groups groups' : List (Group K E)) :
    flatOf key (groups ++ groups') = flatOf key groups ++ flatOf key groups' := by
  simp [flatOf]

theorem flatOf_group (key' : K) (events : List E) :
    (events.map (key', ·)).filterMap (fun pair : K × E => if pair.1 = key then some pair.2 else none)
      = if key' = key then events else [] := by
  by_cases h : key' = key
  · simp [h]
  · simp [h]

@[simp] theorem flatOf_nil : flatOf key ([] : List (Group K E)) = [] := rfl

@[simp] theorem flatOf_cons (group : Group K E) (groups : List (Group K E)) :
    flatOf key (group :: groups) =
      (if group.1 = key then group.2 else []) ++ flatOf key groups := by
  rw [← flatOf_group key group.1 group.2, flatOf, pairs_cons, List.filterMap_append]
  rfl

def eventsOf (events : List (K × E)) : List E :=
  events.filterMap fun pair => if pair.1 = key then some pair.2 else none

theorem flatOf_eq_nil (h : key ∉ groups.map Prod.fst) :
    flatOf key groups = [] := by
  induction groups with
  | nil => rfl
  | cons group groups ih =>
    simp only [List.map_cons, List.mem_cons, not_or] at h
    have hne : ¬ group.1 = key := fun he => h.1 he.symm
    simp [hne, ih h.2]

end

/-! ## Key-value handles -/

namespace KVDeliveryHandle

variable {K E : Type} {h h' : KVDeliveryHandle K E} {key : K} {event : E}
  {container : KVEventContainer E} {before after : List (K × KVEventContainer E)}

def groups (h : KVDeliveryHandle K E) : List (Group K E) :=
  h.keyEventMap.map fun node => (node.1, node.2.items)

def caps (nodes : List (K × KVEventContainer E)) : Nat := (nodes.map (·.2.cap)).sum

/-- Between deliveries the containers are at least half full, and what they took of the memory, with
what they took before they grew, is at most twice their capacity. -/
structure Inv (h : KVDeliveryHandle K E) : Prop where
  bump : h.bumpAllocator.cap = totalBcap h.layout h.deliverableCap
  head : h.deliverableCap = 0 → h.bumpAllocator.head = 0
  fits : h.bumpAllocator.sz ≤ h.bumpAllocator.cap
  spent : h.bumpAllocator.sz < h.layout.align + 2 * caps h.keyEventMap * h.layout.size
  count : h.deliverableSz = (pairs h.groups).length
  size : h.deliverableSz ≤ h.deliverableCap
  nodup : (h.keyEventMap.map Prod.fst).Nodup
  room : ∀ node ∈ h.keyEventMap, node.2.items.length ≤ node.2.cap ∧ 1 ≤ node.2.cap
  half : ∀ node ∈ h.keyEventMap, node.2.cap ≤ 2 * node.2.items.length

theorem Inv.bound (hi : Inv h) {group : Group K E} (hg : group ∈ h.groups) :
    group.2 ≠ [] ∧ group.2.length ≤ h.deliverableCap := by
  have hle := length_le_of_mem hg
  rw [← hi.count] at hle
  obtain ⟨node, hn, rfl⟩ := List.mem_map.1 hg
  have hroom := hi.room node hn
  have hhalf := hi.half node hn
  exact ⟨List.ne_nil_of_length_pos (by dsimp only; omega), hle.trans hi.size⟩

/-! ### The memory -/

variable {b : BumpAllocatorResource} {layout : EventLayout} {deliverableCap : Nat}

theorem allocate_of_le {sz : Nat} (hle : b.sz + sz ≤ b.cap) :
    b.allocate sz = some { b with sz := b.sz + sz } := by
  rw [BumpAllocatorResource.allocate, if_neg (by omega)]

theorem caps_append (nodes nodes' : List (K × KVEventContainer E)) :
    caps (nodes ++ nodes') = caps nodes + caps nodes' := by
  simp [caps]

theorem caps_cons (node : K × KVEventContainer E) (nodes : List (K × KVEventContainer E)) :
    caps (node :: nodes) = node.2.cap + caps nodes :=
  List.sum_cons

theorem caps_le {nodes : List (K × KVEventContainer E)}
    (hhalf : ∀ node ∈ nodes, node.2.cap ≤ 2 * node.2.items.length) :
    caps nodes ≤ 2 * (pairs (nodes.map fun node => (node.1, node.2.items))).length := by
  induction nodes with
  | nil => exact Nat.zero_le _
  | cons node nodes ih =>
    have hnode := hhalf node List.mem_cons_self
    have hrest := ih fun n hn => hhalf n (List.mem_cons_of_mem _ hn)
    rw [caps_cons, List.map_cons, pairs_cons, List.length_append, List.length_map]
    dsimp only
    omega

/-- The memory has four places for every event that the handle may hold. -/
theorem Inv.supply (hi : Inv h) {n : Nat} (hn : 2 * caps h.keyEventMap + n ≤ h.deliverableCap * (2 * 2))
    (hcap : h.deliverableCap ≠ 0) : h.bumpAllocator.sz + n * h.layout.size ≤ h.bumpAllocator.cap := by
  have hspent := hi.spent
  have hbump := hi.bump
  unfold totalBcap at hbump
  rw [if_neg hcap] at hbump
  have hmul := Nat.mul_le_mul_right h.layout.size (hn.trans (Nat.le_max_left _ 1))
  rw [Nat.add_mul] at hmul
  omega

theorem Inv.supply_one (hi : Inv h) (hsz : h.deliverableSz < h.deliverableCap) :
    h.bumpAllocator.sz + 1 * h.layout.size ≤ h.bumpAllocator.cap := by
  have hcaps : caps h.keyEventMap ≤ 2 * (pairs h.groups).length := caps_le hi.half
  rw [← hi.count] at hcaps
  exact hi.supply (by omega) (by omega)

theorem Inv.supply_double (hi : Inv h) (hsz : h.deliverableSz < h.deliverableCap)
    (hmap : h.keyEventMap = before ++ (key, container) :: after)
    (hfull : container.items.length = container.cap) :
    h.bumpAllocator.sz + container.cap * 2 * h.layout.size ≤ h.bumpAllocator.cap := by
  have hb := caps_le fun node hn => hi.half node (hmap ▸ List.mem_append_left _ hn)
  have ha := caps_le fun node hn => hi.half node (hmap ▸ List.mem_append_right _ (List.mem_cons_of_mem _ hn))
  have hcount := hi.count
  unfold groups at hcount
  rw [hmap, List.map_append, List.map_cons, pairs_append, pairs_cons, List.length_append,
    List.length_append, List.length_map] at hcount
  refine hi.supply ?_ (by omega)
  rw [hmap, caps_append, caps_cons]
  dsimp only at hcount ⊢
  omega

theorem alignTo_reset (hbump : b.cap = totalBcap layout deliverableCap)
    (hhead : deliverableCap = 0 → b.head = 0) :
    ∃ d, b.reset.alignTo layout.align = some { b with sz := d } ∧ d < layout.align ∧ d ≤ b.cap := by
  obtain ⟨d, hd⟩ : ∃ d, d = b.reset.displacement layout.align := ⟨_, rfl⟩
  have hlt : d < layout.align := hd ▸ Nat.mod_lt _ layout.align_pos
  have hle : d ≤ b.cap := by
    unfold totalBcap at hbump
    split at hbump
    · next hcap =>
      have hzero : d = 0 := by
        rw [hd]
        simp [BumpAllocatorResource.displacement, BumpAllocatorResource.reset, hhead hcap]
      omega
    · omega
  refine ⟨d, ?_, hlt, hle⟩
  rw [BumpAllocatorResource.alignTo, ← hd, allocate_of_le (by simpa [BumpAllocatorResource.reset] using hle)]
  simp [BumpAllocatorResource.reset]

/-! ### Flushing -/

theorem Inv.of_empty (hbump : b.cap = totalBcap layout deliverableCap)
    (hhead : deliverableCap = 0 → b.head = 0) (hlt : b.sz < layout.align) (hle : b.sz ≤ b.cap) :
    Inv (⟨layout, b, 0, deliverableCap, []⟩ : KVDeliveryHandle K E) :=
  ⟨hbump, hhead, hle, Nat.lt_add_right _ hlt, rfl, Nat.zero_le _, List.nodup_nil, by simp, by simp⟩

def SameMemory (h h' : KVDeliveryHandle K E) : Prop :=
  h'.layout = h.layout ∧ h'.bumpAllocator.head = h.bumpAllocator.head

theorem SameMemory.trans {h'' : KVDeliveryHandle K E} (h1 : SameMemory h h') (h2 : SameMemory h' h'') :
    SameMemory h h'' :=
  ⟨h2.1.trans h1.1, h2.2.trans h1.2⟩

theorem clear_ok (hi : Inv h) : ∃ h', h.clear = .ok (h', h.groups) ∧ Inv h' ∧ SameMemory h h' ∧
    h'.deliverableCap = h.deliverableCap ∧ h'.groups = [] ∧ h'.deliverableSz = 0 := by
  obtain ⟨d, e, hlt, hle⟩ := alignTo_reset hi.bump hi.head
  refine ⟨⟨h.layout, { h.bumpAllocator with sz := d }, 0, h.deliverableCap, []⟩, ?_,
    .of_empty hi.bump hi.head hlt hle, ⟨rfl, rfl⟩, rfl, rfl, rfl⟩
  unfold clear
  rw [e]
  rfl

/-! ### Finding and replacing a container -/

variable [DecidableEq K]

theorem find_split (hn : (h.keyEventMap.map Prod.fst).Nodup) (hf : h.find key = some container) :
    ∃ before after, h.keyEventMap = before ++ (key, container) :: after ∧
      key ∉ before.map Prod.fst ∧ key ∉ after.map Prod.fst := by
  obtain ⟨node, hnode, rfl⟩ := Option.map_eq_some_iff.1 hf
  obtain ⟨hkey, before, after, hmap, -⟩ := List.find?_eq_some_iff_append.1 hnode
  obtain rfl : node.1 = key := by simpa using hkey
  rw [hmap, List.map_append, List.map_cons, List.nodup_append] at hn
  obtain ⟨-, hafter, hdisj⟩ := hn
  exact ⟨before, after, hmap, fun hm => hdisj _ hm _ List.mem_cons_self rfl, (List.nodup_cons.1 hafter).1⟩

theorem find_of_split (hmap : h.keyEventMap = before ++ (key, container) :: after)
    (hb : key ∉ before.map Prod.fst) : h.find key = some container := by
  have hnone : before.find? (fun node => decide (node.1 = key)) = none := by
    rw [List.find?_eq_none]
    intro node hm he
    exact hb ((of_decide_eq_true he) ▸ List.mem_map_of_mem hm)
  rw [find, hmap, List.find?_append, hnone]
  simp

theorem assign_split (hmap : h.keyEventMap = before ++ (key, container) :: after)
    (hb : key ∉ before.map Prod.fst) (ha : key ∉ after.map Prod.fst) (container' : KVEventContainer E) :
    h.assign key container' = { h with keyEventMap := before ++ (key, container') :: after } := by
  have hkeep : ∀ {nodes : List (K × KVEventContainer E)}, key ∉ nodes.map Prod.fst →
      nodes.map (fun n => if n.1 = key then (n.1, container') else n) = nodes := by
    intro nodes hnot
    have hcongr : nodes.map (fun n => if n.1 = key then (n.1, container') else n) = nodes.map id := by
      refine List.map_congr_left fun n hm => if_neg fun he => hnot ?_
      exact he ▸ List.mem_map_of_mem hm
    rw [hcongr, List.map_id]
  simp [assign, hmap, hkeep hb, hkeep ha]

theorem find_eq_none_iff : h.find key = none ↔ key ∉ h.keyEventMap.map Prod.fst := by
  rw [← Option.not_isSome_iff_eq_none]
  simp [find]

theorem pushEvent_split (hmap : h.keyEventMap = before ++ (key, container) :: after)
    (hb : key ∉ before.map Prod.fst) (ha : key ∉ after.map Prod.fst)
    (hroom : container.items.length < container.cap) (event : E) :
    h.pushEvent key event = .ok { h with
      keyEventMap := before ++ (key, { container with items := container.items ++ [event] }) :: after,
      deliverableSz := h.deliverableSz + 1 } := by
  unfold pushEvent
  rw [find_of_split hmap hb]
  dsimp only
  rw [if_neg hroom.ne, assign_split hmap hb ha]

/-! ### Delivering -/

/-- `h'` is the handle after the delivery of an event and the push of the groups `pushed`. -/
structure Delivers (h : KVDeliveryHandle K E) (key : K) (event : E) (pushed : List (Group K E))
    (h' : KVDeliveryHandle K E) : Prop where
  inv : Inv h'
  memory : SameMemory h h'
  cap : h'.deliverableCap = h.deliverableCap
  bound : ∀ group ∈ pushed, group.2 ≠ [] ∧ group.2.length ≤ max h.deliverableCap 1
  pairs : (Funnel.pairs pushed ++ Funnel.pairs h'.groups).Perm
    (Funnel.pairs h.groups ++ [(key, event)])
  flat : ∀ key', flatOf key' pushed ++ flatOf key' h'.groups =
    flatOf key' h.groups ++ if key = key' then [event] else []

/-- The event is put into the container `c` of its key, which may have grown, or was empty and not yet
in the map; the memory taken for it is twice the capacity that it gained, at most. -/
theorem Inv.delivers (hi : Inv h) (hsz : h.deliverableSz < h.deliverableCap) {c : KVEventContainer E}
    {sz cap : Nat} (hnodes : ∀ node, node ∈ before ∨ node ∈ after → node ∈ h.keyEventMap)
    (hgroups : pairs h.groups = pairs ((before ++ (key, c) :: after).map fun node => (node.1, node.2.items)))
    (hcaps : caps h.keyEventMap = caps (before ++ (key, c) :: after))
    (hb : key ∉ before.map Prod.fst) (ha : key ∉ after.map Prod.fst)
    (hnodup : ((before ++ after).map Prod.fst).Nodup) (hfits : sz ≤ h.bumpAllocator.cap)
    (hspent : sz + 2 * c.cap * h.layout.size ≤ h.bumpAllocator.sz + 2 * cap * h.layout.size)
    (hroom : c.items.length < cap) (hhalf : cap ≤ 2 * (c.items.length + 1)) :
    Delivers h key event [] { h with
      bumpAllocator := { h.bumpAllocator with sz }
      keyEventMap := before ++ (key, ⟨c.items ++ [event], cap⟩) :: after
      deliverableSz := h.deliverableSz + 1 } := by
  have hcount := hi.count
  rw [hgroups] at hcount
  have hold := hi.spent
  rw [hcaps, caps_append, caps_cons] at hold
  have hnode : ∀ node ∈ before ++ (key, ⟨c.items ++ [event], cap⟩) :: after,
      node ∈ h.keyEventMap ∨ node = (key, ⟨c.items ++ [event], cap⟩) := by
    intro node hn
    rcases List.mem_append.1 hn with hn | hn
    · exact .inl (hnodes node (.inl hn))
    · exact (List.mem_cons.1 hn).symm.imp_left fun hn => hnodes node (.inr hn)
  refine ⟨⟨hi.bump, hi.head, hfits, ?_, ?_, hsz, ?_, fun node hn => ?_, fun node hn => ?_⟩,
    ⟨rfl, rfl⟩, rfl, by simp, ?_, fun key' => ?_⟩
  · simp only [caps_append, caps_cons, Nat.mul_add, Nat.add_mul] at hold ⊢
    omega
  · simp only [groups, List.map_append, List.map_cons, pairs_append, pairs_cons, List.length_append,
      List.length_map, List.length_cons, List.length_nil] at hcount ⊢
    omega
  · rw [List.map_append] at hnodup
    rw [List.map_append, List.map_cons]
    exact List.perm_middle.nodup_iff.2 (List.nodup_cons.2 ⟨fun hm => (List.mem_append.1 hm).elim hb ha, hnodup⟩)
  · rcases hnode node hn with hn | rfl
    · exact hi.room node hn
    · simp
      omega
  · rcases hnode node hn with hn | rfl
    · exact hi.half node hn
    · simpa using hhalf
  · rw [hgroups]
    simp only [groups, List.map_append, List.map_cons, pairs_append, pairs_cons, pairs_nil,
      List.nil_append, List.append_assoc]
    exact (List.perm_append_comm.append_left _).append_left _
  · have hafter : key = key' → flatOf key' (after.map fun node => (node.1, node.2.items)) = [] :=
      fun he => flatOf_eq_nil key' (by simpa [he] using ha)
    have hflat : flatOf key' h.groups = flatOf key' ((before ++ (key, c) :: after).map _) :=
      congrArg (List.filterMap _) hgroups
    rw [hflat]
    simp only [groups, List.map_append, List.map_cons, flatOf_append, flatOf_cons, flatOf_nil,
      List.nil_append]
    by_cases hk : key = key'
    · simp [hk, hafter hk]
    · simp [hk]

theorem pushEvent_ok (hi : Inv h) (hsz : h.deliverableSz < h.deliverableCap)
    (hf : h.find key = some container) (hroom : container.items.length < container.cap) :
    ∃ h', h.pushEvent key event = .ok h' ∧ Delivers h key event [] h' := by
  obtain ⟨before, after, hmap, hb, ha⟩ := find_split hi.nodup hf
  have hnodup := hi.nodup
  have hhalf := hi.half (key, container) (by simp [hmap])
  rw [hmap, List.map_append, List.map_cons] at hnodup
  refine ⟨_, pushEvent_split hmap hb ha hroom event, hi.delivers hsz (fun node hn => ?_)
    (by rw [groups, hmap]) (by rw [hmap]) hb ha ?_ hi.fits (Nat.le_refl _) hroom
    (by dsimp only at hhalf; omega)⟩
  · rw [hmap]
    exact List.mem_append.2 (hn.imp_right (List.mem_cons_of_mem _))
  · rw [List.map_append]
    exact (List.nodup_cons.1 (List.perm_middle.nodup_iff.1 hnodup)).2

/-- **A handle that is not full** has the memory to deliver without a flush. -/
theorem collect_ok (hi : Inv h) (hsz : h.deliverableSz < h.deliverableCap) (key : K) (event : E) :
    ∃ h1 h2 h3, h.ensure key = .ok (h1, []) ∧ h1.grow key = .ok (h2, []) ∧
      h2.pushEvent key event = .ok h3 ∧ Delivers h key event [] h3 := by
  unfold ensure
  cases hf : h.find key with
  | none =>
    have hnew := find_eq_none_iff.1 hf
    have hfits := hi.supply_one hsz
    let h1 : KVDeliveryHandle K E := { h with
      bumpAllocator := { h.bumpAllocator with sz := h.bumpAllocator.sz + 1 * h.layout.size }
      keyEventMap := h.keyEventMap ++ [(key, ⟨[], 1⟩)] }
    have e1 : h.tryEmplace key = some h1 := by rw [tryEmplace, allocate_of_le hfits, Option.map_some]
    have hmap1 : h1.keyEventMap = h.keyEventMap ++ (key, ⟨[], 1⟩) :: [] := rfl
    have e2 : h1.grow key = .ok (h1, []) := by
      unfold grow
      rw [find_of_split hmap1 hnew]
      rfl
    refine ⟨h1, h1, _, by rw [e1], e2, pushEvent_split hmap1 hnew List.not_mem_nil Nat.one_pos event,
      hi.delivers hsz (c := ⟨[], 0⟩) (fun node hn => hn.resolve_right List.not_mem_nil) ?_ ?_ hnew
        List.not_mem_nil ?_ hfits ?_ Nat.one_pos (by simp)⟩
    · simp [groups]
    · simp [caps]
    · rw [List.append_nil]
      exact hi.nodup
    · dsimp only
      omega
  | some c =>
    have hroom : c.items.length ≤ c.cap := by
      obtain ⟨before, after, hmap, -⟩ := find_split hi.nodup hf
      exact (hi.room (key, c) (by simp [hmap])).1
    refine ⟨h, ?_⟩
    unfold grow
    rw [hf]
    dsimp only
    by_cases hfull : c.items.length = c.cap
    · rw [if_pos hfull]
      obtain ⟨before, after, hmap, hb, ha⟩ := find_split hi.nodup hf
      have hfits := hi.supply_double hsz hmap hfull
      have hnodup := hi.nodup
      have hpos : 1 ≤ c.cap := (hi.room (key, c) (by simp [hmap])).2
      rw [hmap, List.map_append, List.map_cons] at hnodup
      let h2 : KVDeliveryHandle K E := { h with
        bumpAllocator := { h.bumpAllocator with sz := h.bumpAllocator.sz + c.cap * 2 * h.layout.size }
        keyEventMap := before ++ (key, { c with cap := c.cap * 2 }) :: after }
      have hmap2 : h2.keyEventMap = before ++ (key, { c with cap := c.cap * 2 }) :: after := rfl
      have hassign := fun b =>
        assign_split (h := { h with bumpAllocator := b }) hmap hb ha { c with cap := c.cap * 2 }
      refine ⟨h2, _, rfl, by rw [allocate_of_le hfits]; dsimp only; rw [hassign],
        pushEvent_split hmap2 hb ha (by dsimp only; omega) event, hi.delivers hsz (c := c) (fun node hn => ?_)
          (by rw [groups, hmap]) (by rw [hmap]) hb ha ?_ hfits ?_ (by dsimp only; omega) (by dsimp only; omega)⟩
      · rw [hmap]
        exact List.mem_append.2 (hn.imp_right (List.mem_cons_of_mem _))
      · rw [List.map_append]
        exact (List.nodup_cons.1 (List.perm_middle.nodup_iff.1 hnodup)).2
      · have : 2 * (c.cap * 2) * h.layout.size =
            c.cap * 2 * h.layout.size + 2 * c.cap * h.layout.size := by ring
        dsimp only
        omega
    · rw [if_neg hfull]
      exact ⟨h, (pushEvent_ok hi hsz hf (by omega)).imp fun h' hd => ⟨rfl, rfl, hd.1, hd.2⟩⟩

theorem deliverSlowPath_ok (hi : Inv h) (key : K) (event : E) :
    ∃ h' pushed, h.deliverSlowPath key event = .ok (h', pushed) ∧
      Delivers h key event pushed h' := by
  unfold deliverSlowPath
  by_cases hzero : h.deliverableSz = h.deliverableCap ∧ h.deliverableCap = 0
  · -- a handle that collects nothing
    have hempty : Funnel.pairs h.groups = [] :=
      List.length_eq_zero_iff.1 (hi.count.symm.trans (hzero.1.trans hzero.2))
    rw [if_pos hzero]
    refine ⟨h, _, rfl, hi, ⟨rfl, rfl⟩, rfl, by simp, by simp [hempty], fun key' => ?_⟩
    have hflat : flatOf key' h.groups = [] := by simp [flatOf, hempty]
    simp [hflat]
  rw [if_neg hzero]
  by_cases hfull : h.deliverableSz = h.deliverableCap
  · obtain ⟨h0, e0, hi0, hmemory, hcap, hgroups, hsz0⟩ := clear_ok hi
    obtain ⟨h1, h2, h3, e1, e2, e3, d⟩ := collect_ok hi0 (by omega) key event
    refine ⟨h3, h.groups, ?_, d.inv, hmemory.trans d.memory, d.cap.trans hcap, fun group hg => ?_, ?_,
      fun key' => ?_⟩
    · simp only [if_pos hfull, e0, e1, e2, e3, ok_bind, List.append_nil]
    · exact ⟨(hi.bound hg).1, (hi.bound hg).2.trans (le_max_left _ _)⟩
    · exact List.Perm.append_left _ (by simpa [hgroups] using d.pairs)
    · exact congrArg _ (by simpa [hgroups] using d.flat key')
  · obtain ⟨h1, h2, h3, e1, e2, e3, d⟩ := collect_ok hi (lt_of_le_of_ne hi.size hfull) key event
    exact ⟨h3, [], by simp only [if_neg hfull, e1, e2, e3, ok_bind, List.append_nil], d⟩

/-- Delivering pushes groups of what was delivered before, or the event itself where nothing is
collected, and keeps the rest. -/
theorem deliver_ok (hi : Inv h) (key : K) (event : E) :
    ∃ h' pushed, h.deliver key event = .ok (h', pushed) ∧ Delivers h key event pushed h' := by
  unfold deliver
  cases hf : h.find key with
  | none => exact deliverSlowPath_ok hi key event
  | some c =>
    dsimp only
    by_cases hstop : h.deliverableSz = h.deliverableCap ∨ c.items.length = c.cap
    · rw [if_pos hstop]
      exact deliverSlowPath_ok hi key event
    · rw [if_neg hstop]
      obtain ⟨before, after, hmap, -⟩ := find_split hi.nodup hf
      have hroom : c.items.length ≤ c.cap := (hi.room (key, c) (by simp [hmap])).1
      have hsz := hi.size
      obtain ⟨h1, e1, d1⟩ : ∃ h1, h.pushEvent key event = .ok h1 ∧ Delivers h key event [] h1 :=
        pushEvent_ok hi (by omega) hf (by omega)
      exact ⟨h1, [], by rw [e1, ok_bind], d1⟩

omit [DecidableEq K] in
theorem cap_le_of_openHandle {layout : EventLayout} {head deliverableCap : Nat}
    (e : openHandle layout head deliverableCap = .ok h) : deliverableCap ≤ maxDeliverableCap := by
  unfold openHandle at e
  split at e
  · cases e
  · omega

omit [DecidableEq K] in
theorem openHandle_ok (layout : EventLayout) (head : Nat) {deliverableCap : Nat}
    (hcap : deliverableCap ≤ maxDeliverableCap) :
    ∃ h : KVDeliveryHandle K E, openHandle layout head deliverableCap = .ok h ∧ Inv h ∧
      h.deliverableCap = deliverableCap ∧ h.groups = [] ∧ h.layout = layout ∧
      (deliverableCap ≠ 0 → h.bumpAllocator.head = head) := by
  obtain ⟨b, hb⟩ : ∃ b : BumpAllocatorResource, b =
      ⟨if totalBcap layout deliverableCap ≠ 0 then head else 0, 0,
        totalBcap layout deliverableCap⟩ := ⟨_, rfl⟩
  have hbump : b.cap = totalBcap layout deliverableCap := by rw [hb]
  have hhead : deliverableCap = 0 → b.head = 0 := by
    intro hc
    simp [hb, totalBcap, hc]
  obtain ⟨d, e, hlt, hle⟩ := alignTo_reset hbump hhead
  have hreset : b.reset = b := by simp [BumpAllocatorResource.reset, hb]
  rw [hreset] at e
  refine ⟨⟨layout, { b with sz := d }, 0, deliverableCap, []⟩, ?_, .of_empty hbump hhead hlt hle, rfl, rfl, rfl,
    fun hc => ?_⟩
  case refine_2 =>
    have hpos := layout.align_pos
    simp only [hb, totalBcap, if_neg hc]
    exact if_pos (by omega)
  unfold openHandle
  rw [if_neg (by omega), ← hb]
  dsimp only
  rw [e]

theorem deliverAll_ok (hi : Inv h) (events : List (K × E)) :
    ∃ h' pushed, h.deliverAll events = .ok (h', pushed) ∧ Inv h' ∧ SameMemory h h' ∧
      h'.deliverableCap = h.deliverableCap ∧
      (∀ group ∈ pushed, group.2 ≠ [] ∧ group.2.length ≤ max h.deliverableCap 1) ∧
      (Funnel.pairs pushed ++ Funnel.pairs h'.groups).Perm (Funnel.pairs h.groups ++ events) ∧
      ∀ key, flatOf key pushed ++ flatOf key h'.groups =
        flatOf key h.groups ++ eventsOf key events := by
  induction events generalizing h with
  | nil => exact ⟨h, [], rfl, hi, ⟨rfl, rfl⟩, rfl, by simp, by simp, by simp [eventsOf]⟩
  | cons event events ih =>
    obtain ⟨key, event⟩ := event
    obtain ⟨h1, pushed, e1, d⟩ := deliver_ok hi key event
    obtain ⟨h2, rest, e2, hi2, hmemory, hcap, hbound, hpairs, hflat⟩ := ih d.inv
    refine ⟨h2, pushed ++ rest, ?_, hi2, d.memory.trans hmemory, hcap.trans d.cap,
      fun group hg => ?_, ?_, fun key' => ?_⟩
    · simp only [deliverAll, e1, ok_bind, e2]
    · rcases List.mem_append.1 hg with hg | hg
      · exact d.bound group hg
      · exact d.cap ▸ hbound group hg
    · have h1 := hpairs.append_left (Funnel.pairs pushed)
      have h2 := d.pairs.append_right events
      simp only [List.append_assoc, pairs_append] at h1 h2 ⊢
      exact h1.trans (by simpa using h2)
    · have h1 := d.flat key'
      rw [flatOf_append, List.append_assoc, hflat, ← List.append_assoc, h1]
      by_cases hk : key = key'
      · simp [eventsOf, hk]
      · simp [eventsOf, hk]

end KVDeliveryHandle

/-! ## Scopes -/

variable {K E : Type}

theorem scope_ok {cap : Nat} (hcap : cap ≤ maxDeliverableCap) (events : List E) :
    ∃ batches, scope cap events = .ok batches ∧ batches.flatten = events ∧
      ∀ batch ∈ batches, batch.length ≤ max cap 1 := by
  have hall : ∀ (events : List E) (h : DeliveryHandle E), h.deliverableCap = cap →
      h.deliverableArr.length ≤ cap →
      (h.deliverAll events).2.flatten ++ (h.deliverAll events).1.deliverableArr =
        h.deliverableArr ++ events ∧
      (h.deliverAll events).1.deliverableArr.length ≤ cap ∧
      ∀ batch ∈ (h.deliverAll events).2, batch.length ≤ max cap 1 := by
    intro events
    induction events with
    | nil => exact fun h _ hle => ⟨by simp [DeliveryHandle.deliverAll], hle, by
        simp [DeliveryHandle.deliverAll]⟩
    | cons event events ih =>
      intro h hc hle
      obtain ⟨hle1, hb1⟩ := h.deliver_length_le event (by omega)
      obtain ⟨hflat, hle2, hb2⟩ := ih (h.deliver event).1 (by simp [hc]) (by omega)
      refine ⟨?_, hle2, fun batch hb => ?_⟩
      · simp only [DeliveryHandle.deliverAll, List.flatten_append, List.append_assoc, hflat]
        rw [← List.append_assoc, h.deliver_flatten]
        simp
      · rcases List.mem_append.1 hb with hb | hb
        · exact hc ▸ hb1 batch hb
        · exact hb2 batch hb
  obtain ⟨hflat, hle, hb⟩ := hall events ⟨[], cap⟩ rfl (Nat.zero_le _)
  refine ⟨_, by rw [scope, DeliveryHandle.openHandle, if_neg (by omega)]; rfl, ?_, ?_⟩
  · rw [List.flatten_append, DeliveryHandle.clear_flatten]
    simpa using hflat
  · intro batch hm
    rcases List.mem_append.1 hm with hm | hm
    · exact hb batch hm
    · unfold DeliveryHandle.clear at hm
      split at hm
      · obtain rfl := List.mem_singleton.1 hm
        exact hle.trans (le_max_left _ _)
      · cases hm

/-- The groups of a scope are the events, each with its key, and in their order for each key. -/
theorem kvScope_ok [DecidableEq K] (layout : EventLayout) (head : Nat) {cap : Nat}
    (hcap : cap ≤ maxDeliverableCap) (events : List (K × E)) :
    ∃ groups, kvScope layout head cap events = .ok groups ∧ (pairs groups).Perm events ∧
      (∀ key, flatOf key groups = eventsOf key events) ∧
      ∀ group ∈ groups, group.2 ≠ [] ∧ group.2.length ≤ max cap 1 := by
  obtain ⟨h, e, hi, hc, hg, -⟩ := KVDeliveryHandle.openHandle_ok (K := K) (E := E) layout head hcap
  obtain ⟨h1, pushed, e1, hi1, -, hc1, hbound, hpairs, hflat⟩ :=
    KVDeliveryHandle.deliverAll_ok hi events
  obtain ⟨h2, e2, -⟩ := KVDeliveryHandle.clear_ok hi1
  rw [hc, hg] at *
  refine ⟨pushed ++ h1.groups, by simp only [kvScope, e, ok_bind, e1, e2], by simpa using hpairs,
    fun key => by simpa using hflat key, fun group hm => ?_⟩
  rcases List.mem_append.1 hm with hm | hm
  · exact hbound group hm
  · have := hi1.bound hm
    exact ⟨this.1, by omega⟩

theorem kvScope_keys [DecidableEq K] {layout : EventLayout} {head cap : Nat}
    {events : List (K × E)} {groups : List (Group K E)}
    (e : kvScope layout head cap events = .ok groups) :
    ∀ group ∈ groups, group.1 ∈ events.map Prod.fst := by
  have hcap : cap ≤ maxDeliverableCap := by
    obtain ⟨h, e0, -⟩ := bind_eq_ok e
    exact KVDeliveryHandle.cap_le_of_openHandle e0
  obtain ⟨groups', e', hpairs, -, hbound⟩ := kvScope_ok layout head hcap events
  obtain rfl := Except.ok.inj (e'.symm.trans e)
  intro group hg
  obtain ⟨event, hevent⟩ := List.exists_mem_of_ne_nil _ (hbound group hg).1
  have hmem : (group.1, event) ∈ pairs groups' :=
    List.mem_flatMap.2 ⟨group, hg, List.mem_map_of_mem hevent⟩
  exact List.mem_map_of_mem (hpairs.mem_iff.1 hmem)

end Funnel
