import NeuralNetwork.Lib.ListUpdate
import NeuralNetwork.MemoryManagement.CudaImmutableMemoryCache

/-!
# CudaImmutableMemoryCache is a least recently used cache

`Refines c l`: the map leads to every node of the heap, every node knows its place, and the nodes are the
entries of the cache `l`. `InOrder` is the order of the heap: it compares strictly, so that equal nodes
may change places, but no node is better than its parent. Each call keeps both and does to `l` what it is
for (`apply_ok`).
-/

namespace MultiplatformMemory

open Cpp Loop DaryTree DaryHeap

/-! ## What is handed out -/

namespace LruCache

variable {l l' : LruCache} {key threshold : Nat} {e : CacheEntry} {out : List MemoryReference}

theorem AutoEvict.entry_none (h : AutoEvict threshold l l') (hk : l.entry key = none) :
    l'.entry key = none := by
  induction h with
  | stop _ => exact hk
  | evict _ _ _ ih =>
    refine ih ?_
    unfold LruCache.remove
    dsimp only
    split
    · rfl
    · exact hk

/-- An entry counts what was handed out of it, and what was handed out is kept. -/
structure Held (out : List MemoryReference) (l : LruCache) : Prop where
  counts : ∀ key e, l.entry key = some e → e.referenceCounter = out.countP fun mr => mr.internalKey == key
  kept : ∀ mr ∈ out, ∃ e, l.entry mr.internalKey = some e ∧ mr = ⟨e.devicePtr, e.size, mr.internalKey⟩

theorem held_empty : Held [] empty where
  counts key e he := by cases he
  kept mr hm := absurd hm List.not_mem_nil

variable {mr : MemoryReference}

section

variable (h : Held out l)

include h

theorem Held.pos (hm : mr ∈ out) (he : l.entry mr.internalKey = some e) :
    0 < e.referenceCounter := by
  rw [h.counts _ e he]
  exact List.countP_pos_iff.2 ⟨mr, hm, beq_self_eq_true _⟩

theorem Held.remove (he : l.entry key = some e) (h0 : e.referenceCounter = 0) :
    Held out (l.remove key e) where
  counts k e' he' := by
    unfold LruCache.remove at he'
    dsimp only at he'
    split at he'
    · cases he'
    · exact h.counts k e' he'
  kept mr hm := by
    obtain ⟨e', he', hmr⟩ := h.kept mr hm
    refine ⟨e', ?_, hmr⟩
    refine (if_neg fun hk => ?_).trans he'
    rw [hk, he] at he'
    cases he'
    have := h.pos hm (hk ▸ he)
    omega

theorem Held.autoEvict (hev : AutoEvict threshold l l') : Held out l' := by
  induction hev with
  | stop _ => exact h
  | evict _ hold _ ih => exact ih (h.remove hold.1 hold.2.1)

theorem Held.add (hk : l.entry key = none) (ptr sz : Nat) (now : Int) :
    Held out (l.add key ⟨ptr, sz, now, 0⟩) := by
  have hne : ∀ mr ∈ out, mr.internalKey ≠ key := by
    intro mr hm he
    obtain ⟨e, hk', -⟩ := h.kept mr hm
    rw [he, hk] at hk'
    cases hk'
  refine ⟨fun k e he => ?_, fun mr hm => ?_⟩
  · unfold LruCache.add at he
    dsimp only at he
    split at he
    · next hkk =>
      cases he
      refine (List.countP_eq_zero.2 fun mr hm => ?_).symm
      rw [hkk, beq_iff_eq]
      exact hne mr hm
    · exact h.counts k e he
  · obtain ⟨e, he, hmr⟩ := h.kept mr hm
    exact ⟨e, (if_neg (hne mr hm)).trans he, hmr⟩

theorem Held.put (he : l.entry key = some e) {out' : List MemoryReference} {n : Nat}
    {now : Int} (hn : n = out'.countP fun mr => mr.internalKey == key)
    (hsame : ∀ k, k ≠ key →
      (out'.countP fun mr => mr.internalKey == k) = out.countP fun mr => mr.internalKey == k)
    (hsub : ∀ mr ∈ out', mr ∈ out ∨ mr = ⟨e.devicePtr, e.size, key⟩) :
    Held out' (l.put key { e with referenceCounter := n, lastUpdated := now }) := by
  refine ⟨fun k e' he' => ?_, fun mr hm => ?_⟩
  · unfold LruCache.put at he'
    dsimp only at he'
    split at he'
    · next hk =>
      cases he'
      rw [hk]
      exact hn
    · next hk =>
      rw [hsame k hk]
      exact h.counts k e' he'
  · unfold LruCache.put
    rcases hsub mr hm with hm | rfl
    · obtain ⟨e', he', hmr⟩ := h.kept mr hm
      by_cases hk : mr.internalKey = key
      · rw [hk, he] at he'
        cases he'
        exact ⟨_, if_pos hk, hmr⟩
      · exact ⟨e', (if_neg hk).trans he', hmr⟩
    · exact ⟨_, if_pos rfl, rfl⟩

theorem Held.hold (he : l.entry key = some e) (now : Int) :
    Held (⟨e.devicePtr, e.size, key⟩ :: out)
      (l.put key { e with referenceCounter := e.referenceCounter + 1, lastUpdated := now }) := by
  refine h.put he ?_ (fun k hk => ?_) fun mr hm => ?_
  · rw [List.countP_cons, if_pos (beq_self_eq_true key), h.counts key e he]
  · rw [List.countP_cons, if_neg, Nat.add_zero]
    rw [beq_iff_eq]
    exact Ne.symm hk
  · rcases List.mem_cons.1 hm with rfl | hm
    · exact .inr rfl
    · exact .inl hm

theorem Held.release (hm : mr ∈ out) (he : l.entry mr.internalKey = some e) (now : Int) :
    Held (out.erase mr)
      (l.put mr.internalKey { e with referenceCounter := e.referenceCounter - 1, lastUpdated := now }) := by
  have hcount := fun k => (List.perm_cons_erase hm).countP_eq fun m => m.internalKey == k
  refine h.put he ?_ (fun k hk => ?_) fun m hm' => .inl (List.mem_of_mem_erase hm')
  · rw [h.counts _ e he, hcount, List.countP_cons, if_pos (beq_self_eq_true _), Nat.add_sub_cancel]
  · rw [hcount, List.countP_cons, if_neg, Nat.add_zero]
    rw [beq_iff_eq]
    exact Ne.symm hk

end

/-- **What was handed out is kept, and counted, whatever is called.** -/
theorem Held.step {w : CacheWorld} (h : Held w.handedOut l) {call : CacheCall} {response : CacheResponse}
    (hc : w.Allowed call) (hs : l.Step threshold (call, response) l') :
    Held (w.handOut call response) l' := by
  cases call with
  | acquireMemory ref now =>
    unfold LruCache.Step at hs
    dsimp only at hs
    split at hs
    · obtain ⟨rfl, rfl⟩ := hs
      exact h
    · next e he =>
      obtain ⟨rfl, rfl⟩ := hs
      exact h.hold he now
  | cacheNAcquireMemory ref sz allocated inserted now =>
    cases allocated with
    | none =>
      obtain ⟨rfl, rfl⟩ := hs
      exact h
    | some ptr =>
      unfold LruCache.Step at hs
      dsimp only at hs
      split at hs
      · next e he =>
        obtain ⟨rfl, rfl⟩ := hs
        exact h.hold he now
      · next hnone =>
        obtain ⟨l1, hev, rfl, rfl⟩ := hs
        exact ((h.autoEvict hev).add (hev.entry_none hnone) ptr sz inserted).hold (if_pos rfl) now
  | releaseMemory mr now =>
    obtain ⟨e, he, -, rfl, rfl⟩ := hs
    exact h.release hc he now
  | evictMemory ref =>
    unfold LruCache.Step at hs
    dsimp only at hs
    split at hs
    · obtain ⟨rfl, rfl⟩ := hs
      exact h
    · next e he =>
      split at hs
      · next h0 =>
        obtain ⟨rfl, rfl⟩ := hs
        exact h.remove he h0
      · obtain ⟨rfl, rfl⟩ := hs
        exact h

end LruCache

namespace CudaImmutableMemoryCache

variable {c c' : CudaImmutableMemoryCache} {l l' : LruCache} {i j idx fuel a key threshold : Nat} {now : Int}

/-! ## The order -/

/-- Fewer references, or as many and not used since. -/
def RankLe (a b : Nat × Int) : Prop := a.1 < b.1 ∨ a.1 = b.1 ∧ a.2 ≤ b.2

theorem rankLe_preorder : TotalPreorder RankLe where
  trans {a b c} hab hbc := by
    unfold RankLe at *
    omega
  total a b := by
    unfold RankLe
    omega

theorem isBetter_decides : Decides isBetter RankLe where
  of_true {a b} h := by
    unfold isBetter at h
    unfold RankLe
    split at h
    · omega
    · split at h
      · cases h
      · split at h
        · omega
        · cases h
  of_false {a b} h := by
    unfold isBetter at h
    unfold RankLe
    split at h
    · cases h
    · split at h
      · omega
      · split at h
        · cases h
        · omega

abbrev Rel : Option (Nat × Int) → Option (Nat × Int) → Prop := orLast RankLe

theorem rel_preorder : TotalPreorder Rel := rankLe_preorder.orLast

theorem rel_decides : Decides (noWorse isBetter) Rel := isBetter_decides.noWorse

def InOrder (c : CudaImmutableMemoryCache) : Prop := Ordered Rel 2 c.rankAt

def rank (c : CudaImmutableMemoryCache) (a : Nat) : Nat × Int :=
  ((c.node a).referenceCounter, (c.node a).lastUpdated)

theorem rankAt_eq (h : c.heapNodeVec[i]? = some a) : c.rankAt i = some (c.rank a) := by
  unfold rankAt
  rw [h]
  rfl

theorem rankAt_none (h : c.heapNodeVec.length ≤ i) : c.rankAt i = none := by
  unfold rankAt
  rw [List.getElem?_eq_none h]
  rfl

theorem rankAt_last (b : Option (Nat × Int)) (i : Nat) (h : c.heapNodeVec.length ≤ i) :
    Rel b (c.rankAt i) := by
  rw [rankAt_none h]
  exact orLast_none b

/-! ## Sifting -/

def Placed (c : CudaImmutableMemoryCache) : Prop :=
  ∀ i a, c.heapNodeVec[i]? = some a → c.heapIdx a = i

structure Moved (c c' : CudaImmutableMemoryCache) : Prop where
  perm : c'.heapNodeVec.Perm c.heapNodeVec
  placed : c'.Placed
  node : c'.node = c.node
  map : c'.referenceMap = c.referenceMap
  sz : c'.autoEvictMemorySz = c.autoEvictMemorySz
  nextAddr : c'.nextAddr = c.nextAddr

theorem Placed.moved (h : c.Placed) : Moved c c := ⟨.refl _, h, rfl, rfl, rfl, rfl⟩

theorem Moved.trans {c'' : CudaImmutableMemoryCache} (h1 : Moved c c') (h2 : Moved c' c'') :
    Moved c c'' :=
  ⟨h2.perm.trans h1.perm, h2.placed, h2.node.trans h1.node, h2.map.trans h1.map, h2.sz.trans h1.sz,
    h2.nextAddr.trans h1.nextAddr⟩

theorem Moved.length (h : Moved c c') : c'.heapNodeVec.length = c.heapNodeVec.length :=
  h.perm.length_eq

theorem swapHeapNode_ok (h : c.Placed) (hi : i < c.heapNodeVec.length) (hj : j < c.heapNodeVec.length) :
    ∃ c', c.swapHeapNode i j = .ok c' ∧ Moved c c' ∧ c'.rankAt = swap c.rankAt i j ∧
      c'.heapNodeVec[j]? = c.heapNodeVec[i]? := by
  have hl := List.getElem?_eq_getElem hi
  have hr := List.getElem?_eq_getElem hj
  generalize c.heapNodeVec[i] = lhs at hl
  generalize c.heapNodeVec[j] = rhs at hr
  have hget := ListUpdate.getElem?_swap hl hr
  have hpl := h i lhs hl
  have hpr := h j rhs hr
  refine ⟨{ c with
    heapNodeVec := (c.heapNodeVec.set i rhs).set j lhs
    heapIdx := c.swapIndex lhs rhs }, ?_, ⟨?_, fun x a ha => ?_, rfl, rfl, rfl, rfl⟩, ?_, ?_⟩
  · unfold swapHeapNode
    rw [hl, hr]
  · obtain ⟨hil, rfl⟩ := List.getElem?_eq_some_iff.1 hl
    obtain ⟨hjl, rfl⟩ := List.getElem?_eq_some_iff.1 hr
    exact List.set_set_perm hil hjl
  · replace ha : ((c.heapNodeVec.set i rhs).set j lhs)[x]? = some a := ha
    show c.swapIndex lhs rhs a = x
    rw [hget] at ha
    unfold swapIndex
    split at ha
    · next hx =>
      cases ha
      by_cases he : lhs = rhs
      · rw [if_pos he, hx, ← hpr, he]
      · rw [if_neg he, if_pos rfl, hpr, hx]
    · split at ha
      · next hx =>
        cases ha
        rw [if_pos rfl, hpl, hx]
      · next hxj hxi =>
        have hpx := h x a ha
        rw [if_neg, if_neg, hpx]
        · exact fun he => hxi (by rw [← hpx, he, hpl])
        · exact fun he => hxj (by rw [← hpx, he, hpr])
  · funext x
    unfold rankAt swap
    dsimp only
    rw [hget]
    split
    · rw [hl]
    · split
      · rw [hr]
      · rfl
  · rw [hget, if_pos rfl, hl]

theorem pushUpAt_ok (h : c.Placed) (hidx : idx < c.heapNodeVec.length) (hfuel : idx < fuel) :
    ∃ c', c.pushUpAt fuel idx = .ok c' ∧ Moved c c' ∧ Up Rel 2 c.rankAt idx c'.rankAt := by
  induction fuel generalizing c idx with
  | zero => omega
  | succ fuel ih =>
    unfold pushUpAt
    rw [if_neg (Nat.not_le.2 hidx)]
    by_cases h0 : idx = 0
    · rw [if_pos h0]
      exact ⟨c, rfl, h.moved, .stop fun hpos => absurd h0 hpos.ne'⟩
    rw [if_neg h0]
    have hpos := Nat.pos_of_ne_zero h0
    have hlt : parent 2 idx < idx := parent_lt hpos
    dsimp only
    rw [show (idx - 1) / 2 = parent 2 idx from rfl]
    cases hb : c.better (parent 2 idx) idx with
    | true =>
      rw [if_pos rfl]
      exact ⟨c, rfl, h.moved, .stop fun _ => rel_decides.of_true hb⟩
    | false =>
      rw [if_neg Bool.false_ne_true]
      obtain ⟨c1, e1, hm1, ht, -⟩ := swapHeapNode_ok h (hlt.trans hidx) hidx
      obtain ⟨c2, e2, hm2, hup⟩ := ih hm1.placed (hm1.length ▸ hlt.trans hidx) (by omega)
      refine ⟨c2, ?_, hm1.trans hm2, .swap hpos (rel_decides.of_false hb) ?_⟩
      · rw [e1, ok_bind, e2]
      · rw [swap_comm, ← ht]
        exact hup

theorem pushDownAt_ok (h : c.Placed) (hidx : idx < c.heapNodeVec.length)
    (hfuel : c.heapNodeVec.length ≤ idx + fuel) :
    ∃ c', c.pushDownAt fuel idx = .ok c' ∧ Moved c c' ∧ Down Rel 2 c.rankAt idx c'.rankAt := by
  induction fuel generalizing c idx with
  | zero => omega
  | succ fuel ih =>
    unfold pushDownAt
    rw [if_neg (Nat.not_le.2 hidx)]
    dsimp only
    by_cases hleaf : idx * 2 + 1 ≥ c.heapNodeVec.length
    · rw [if_pos hleaf]
      exact ⟨c, rfl, h.moved, .stop (leaf_of_two rankAt_last hleaf)⟩
    rw [if_neg hleaf]
    generalize hcand : (if idx * 2 + 1 + 1 < c.heapNodeVec.length ∧
      c.better (idx * 2 + 1 + 1) (idx * 2 + 1) = true then idx * 2 + 1 + 1 else idx * 2 + 1) = cand
    obtain ⟨h0, hc, hp, hbest⟩ :=
      best_of_two rel_preorder rel_decides rankAt_last (Nat.lt_of_not_le hleaf) hcand
    cases hb : c.better idx cand with
    | true =>
      rw [if_pos rfl]
      exact ⟨c, rfl, h.moved, .stop fun i h0 hp => rel_preorder.trans (rel_decides.of_true hb) (hbest i h0 hp)⟩
    | false =>
      rw [if_neg Bool.false_ne_true]
      have hgt : idx < cand := hp ▸ parent_lt h0
      obtain ⟨c1, e1, hm1, ht, -⟩ := swapHeapNode_ok h hidx hc
      obtain ⟨c2, e2, hm2, hd⟩ := ih hm1.placed (hm1.length ▸ hc) (by rw [hm1.length]; omega)
      refine ⟨c2, ?_, hm1.trans hm2, .swap h0 hp (rel_decides.of_false hb) hbest (ht ▸ hd)⟩
      rw [e1, ok_bind, e2]

/-- **A node is put right, whatever its counter and time are.** -/
theorem correctAt_ok (h : c.Placed) (hidx : idx < c.heapNodeVec.length) :
    ∃ c', c.correctAt idx = .ok c' ∧ Moved c c' ∧ (AllBut Rel 2 c.rankAt idx → c'.InOrder) := by
  obtain ⟨c1, e1, hm1, hup⟩ := pushUpAt_ok h hidx (Nat.lt_succ_self idx)
  obtain ⟨c2, e2, hm2, hdown⟩ := pushDownAt_ok hm1.placed (hm1.length ▸ hidx) (Nat.le_add_left _ _)
  refine ⟨c2, ?_, hm1.trans hm2, fun hb => Ordered.corrected rel_preorder hb hup hdown⟩
  unfold correctAt
  rw [e1, ok_bind, e2]

/-! ## What the cache holds -/

def entryOf (c : CudaImmutableMemoryCache) (a : Nat) : CacheEntry where
  devicePtr := (c.node a).cudaMemPtr
  size := (c.node a).cudaMemPtrSz
  lastUpdated := (c.node a).lastUpdated
  referenceCounter := (c.node a).referenceCounter

structure Refines (c : CudaImmutableMemoryCache) (l : LruCache) : Prop where
  placed : c.Placed
  mapped : ∀ a ∈ c.heapNodeVec, c.referenceMap (c.node a).reverseReference = some a
  lookup : ∀ key a, c.referenceMap key = some a → a ∈ c.heapNodeVec ∧ (c.node a).reverseReference = key
  fresh : ∀ a ∈ c.heapNodeVec, a < c.nextAddr
  total : c.autoEvictMemorySz = (c.heapNodeVec.map fun a => (c.node a).cudaMemPtrSz).sum
  entry : ∀ key, l.entry key = (c.referenceMap key).map c.entryOf
  size : l.size = c.autoEvictMemorySz

theorem Refines.moved (h : Refines c l) (hm : Moved c c') : Refines c' l where
  placed := hm.placed
  mapped a ha := by
    rw [hm.map, hm.node]
    exact h.mapped a (hm.perm.mem_iff.1 ha)
  lookup key a ha := by
    rw [hm.map] at ha
    rw [hm.node]
    exact ⟨hm.perm.mem_iff.2 (h.lookup key a ha).1, (h.lookup key a ha).2⟩
  fresh a ha := by
    rw [hm.nextAddr]
    exact h.fresh a (hm.perm.mem_iff.1 ha)
  total := by
    rw [hm.sz, hm.node, h.total]
    exact ((hm.perm.map _).sum_eq).symm
  entry key := by
    have he : c'.entryOf = c.entryOf := by
      funext a
      unfold entryOf
      rw [hm.node]
    rw [hm.map, he]
    exact h.entry key
  size := by rw [hm.sz, h.size]

theorem Refines.at_place (h : Refines c l) (hk : c.referenceMap key = some a) :
    c.heapNodeVec[c.heapIdx a]? = some a := by
  obtain ⟨i, hi⟩ := List.mem_iff_getElem?.1 (h.lookup key a hk).1
  rw [h.placed i a hi, hi]

/-! ## Calls -/

/-- **A node is used, and put right.** -/
theorem touch_ok (h : Refines c l) (ho : c.InOrder) (hk : c.referenceMap key = some a) (n : Nat)
    (now : Int) :
    ∃ c', (c.touch a n now).updateHeapNode a = .ok c' ∧ c'.InOrder ∧
      Refines c' (l.put key { c.entryOf a with referenceCounter := n, lastUpdated := now }) ∧
      c'.memoryReference a key = c.memoryReference a key := by
  have hplace := h.at_place hk
  have hidx := (List.getElem?_eq_some_iff.1 hplace).1
  obtain ⟨c1, e1, hm, hord⟩ := correctAt_ok (c := c.touch a n now) h.placed hidx
  have hother : ∀ b, b ≠ a → (c.touch a n now).node b = c.node b := fun b hb => if_neg hb
  have hself : (c.touch a n now).node a =
      { c.node a with referenceCounter := n, lastUpdated := now } := if_pos rfl
  have href : ∀ b, ((c.touch a n now).node b).reverseReference = (c.node b).reverseReference := by
    intro b
    by_cases hb : b = a
    · rw [hb, hself]
    · rw [hother b hb]
  have hsize : ∀ b, ((c.touch a n now).node b).cudaMemPtrSz = (c.node b).cudaMemPtrSz := by
    intro b
    by_cases hb : b = a
    · rw [hb, hself]
    · rw [hother b hb]
  have hR : Refines (c.touch a n now)
      (l.put key { c.entryOf a with referenceCounter := n, lastUpdated := now }) := by
    refine ⟨h.placed, fun b hb => ?_, fun k b hb => ?_, h.fresh, ?_, fun k => ?_, h.size⟩
    · rw [href]
      exact h.mapped b hb
    · rw [href]
      exact h.lookup k b hb
    · simp only [hsize]
      exact h.total
    · show (if k = key then _ else l.entry k) = (c.referenceMap k).map (c.touch a n now).entryOf
      by_cases hkk : k = key
      · rw [if_pos hkk, hkk, hk, Option.map_some]
        unfold entryOf
        rw [hself]
      · rw [if_neg hkk, h.entry]
        cases hb : c.referenceMap k with
        | none => rfl
        | some b =>
          have hne : b ≠ a := by
            rintro rfl
            exact hkk ((h.lookup k b hb).2.symm.trans (h.lookup key b hk).2)
          rw [Option.map_some, Option.map_some]
          unfold entryOf
          rw [hother b hne]
  refine ⟨c1, e1, hord (Ordered.change rel_preorder ho fun i hi => ?_), hR.moved hm, ?_⟩
  · cases hb : c.heapNodeVec[i]? with
    | none =>
      have hlen := List.getElem?_eq_none_iff.1 hb
      rw [rankAt_none hlen]
      exact rankAt_none hlen
    | some b =>
      have hne : b ≠ a := by
        rintro rfl
        exact hi (h.placed i b hb).symm
      rw [rankAt_eq hb]
      refine (rankAt_eq (c := c.touch a n now) hb).trans ?_
      unfold rank
      rw [hother b hne]
  · unfold memoryReference
    rw [hm.node, hself]

theorem hold_ok (h : Refines c l) (ho : c.InOrder) (hk : c.referenceMap key = some a) (now : Int) :
    ∃ c' e, c.hold a now = .ok c' ∧ c'.InOrder ∧ l.entry key = some e ∧
      Refines c' (l.put key { e with referenceCounter := e.referenceCounter + 1, lastUpdated := now }) ∧
      c'.memoryReference a key = ⟨e.devicePtr, e.size, key⟩ := by
  obtain ⟨c1, e1, ho1, hR1, hmr⟩ := touch_ok h ho hk ((c.node a).referenceCounter + 1) now
  refine ⟨c1, c.entryOf a, e1, ho1, ?_, hR1, hmr⟩
  rw [h.entry, hk]
  rfl

variable {c2 : CudaImmutableMemoryCache}

theorem Refines.forget (h : Refines c l) (hk : c.referenceMap key = some a)
    (hm : Moved (c.forget key (c.node a).cudaMemPtrSz) c2)
    (hlast : c2.heapNodeVec[c.heapNodeVec.length - 1]? = some a) :
    Refines c2.popBack (l.remove key (c.entryOf a)) := by
  have hlen : c2.heapNodeVec.length = c.heapNodeVec.length := hm.length
  have hmem := (h.lookup key a hk).1
  have hsnoc : c2.heapNodeVec.dropLast ++ [a] = c2.heapNodeVec := by
    rw [← hlen] at hlast
    have hne : c2.heapNodeVec ≠ [] := by
      intro he
      rw [he] at hlast
      cases hlast
    have := List.dropLast_append_getLast hne
    rwa [List.getLast_eq_getElem, (List.getElem?_eq_some_iff.1 hlast).2] at this
  have hperm : (c2.heapNodeVec.dropLast ++ [a]).Perm c.heapNodeVec := by
    rw [hsnoc]
    exact hm.perm
  have hnode : ∀ b, c2.popBack.node b = c.node b := fun b => congrFun hm.node b
  have hmap : ∀ k, c2.popBack.referenceMap k = if k = key then none else c.referenceMap k :=
    fun k => congrFun hm.map k
  have hget : ∀ (i b : Nat), c2.heapNodeVec.dropLast[i]? = some b → c2.heapNodeVec[i]? = some b ∧ b ≠ a := by
    intro i b hb
    rw [List.getElem?_dropLast] at hb
    split at hb
    · next hi =>
      refine ⟨hb, ?_⟩
      rintro rfl
      have := hm.placed i b hb
      rw [hm.placed _ b hlast] at this
      omega
    · cases hb
  have hsub : ∀ b ∈ c2.heapNodeVec.dropLast, b ∈ c.heapNodeVec ∧ b ≠ a := by
    intro b hb
    obtain ⟨i, hi⟩ := List.mem_iff_getElem?.1 hb
    exact ⟨hperm.mem_iff.1 (List.mem_append_left _ hb), (hget i b hi).2⟩
  have hne : ∀ b ∈ c.heapNodeVec, b ≠ a → (c.node b).reverseReference ≠ key := by
    rintro b hb hba rfl
    rw [h.mapped b hb] at hk
    exact hba (Option.some.inj hk)
  refine ⟨fun i b hb => hm.placed i b (hget i b hb).1, fun b hb => ?_, fun k b hb => ?_, fun b hb => ?_,
    ?_, fun k => ?_, ?_⟩
  · rw [hmap, hnode, if_neg (hne b (hsub b hb).1 (hsub b hb).2)]
    exact h.mapped b (hsub b hb).1
  · rw [hmap] at hb
    split at hb
    · cases hb
    · next hkk =>
      obtain ⟨hb1, hb2⟩ := h.lookup k b hb
      rw [hnode]
      refine ⟨?_, hb2⟩
      rcases List.mem_append.1 (hperm.mem_iff.2 hb1) with hb3 | hb3
      · exact hb3
      · rw [List.mem_singleton] at hb3
        subst hb3
        exact absurd (hb2.symm.trans (h.lookup key b hk).2) hkk
  · show b < c2.nextAddr
    rw [hm.nextAddr]
    exact h.fresh b (hsub b hb).1
  · show c2.autoEvictMemorySz = _
    have hsum := ((hperm.map fun b => (c.node b).cudaMemPtrSz).sum_eq).symm
    rw [List.map_append, List.sum_append] at hsum
    simp only [List.map_cons, List.map_nil, List.sum_cons, List.sum_nil, Nat.add_zero] at hsum
    simp only [hnode]
    rw [hm.sz]
    show c.autoEvictMemorySz - _ = (c2.heapNodeVec.dropLast.map _).sum
    rw [h.total, hsum, Nat.add_sub_cancel]
  · rw [hmap]
    show (if k = key then none else l.entry k) = _
    by_cases hkk : k = key
    · rw [if_pos hkk, if_pos hkk]
      rfl
    · rw [if_neg hkk, if_neg hkk, h.entry]
      cases c.referenceMap k with
      | none => rfl
      | some b =>
        rw [Option.map_some, Option.map_some]
        unfold entryOf
        rw [hnode]
  · show l.size - _ = c2.autoEvictMemorySz
    rw [hm.sz, h.size]
    rfl

/-- **A node that nobody holds is evicted.** -/
theorem internalEvictMemory_ok (h : Refines c l) (ho : c.InOrder) (hk : c.referenceMap key = some a)
    (h0 : (c.node a).referenceCounter = 0) :
    ∃ c', c.internalEvictMemory key = .ok (c', true) ∧ c'.InOrder ∧
      Refines c' (l.remove key (c.entryOf a)) ∧ c'.heapNodeVec.length + 1 = c.heapNodeVec.length := by
  have hplace := h.at_place hk
  have hidx := (List.getElem?_eq_some_iff.1 hplace).1
  obtain ⟨c2, e2, hm2, ht, hlast⟩ := swapHeapNode_ok (c := c.forget key (c.node a).cudaMemPtrSz)
    (i := c.heapIdx a) (j := c.heapNodeVec.length - 1) h.placed hidx (Nat.sub_one_lt_of_lt hidx)
  have hR := h.forget hk hm2 (hlast.trans hplace)
  have hlen : c2.popBack.heapNodeVec.length = c.heapNodeVec.length - 1 := by
    rw [popBack, List.length_dropLast, hm2.length]
    rfl
  have hnone : ∀ i, c.heapNodeVec.length - 1 < i → c.rankAt i = none := fun i hi => rankAt_none (by omega)
  have hrank : c2.popBack.rankAt =
      dropAt (swap c.rankAt (c.heapIdx a) (c.heapNodeVec.length - 1)) (c.heapNodeVec.length - 1) := by
    funext i
    unfold dropAt
    split
    · next hi => exact rankAt_none (by rw [hlen, hi])
    · next hi =>
      refine Eq.trans ?_ (congrFun ht i)
      unfold rankAt popBack
      rw [List.getElem?_dropLast, hm2.length]
      split
      · rfl
      · next hge =>
        have hge : ¬ i < c.heapNodeVec.length - 1 := hge
        rw [List.getElem?_eq_none (by rw [hm2.length]; show c.heapNodeVec.length ≤ i; omega)]
  unfold internalEvictMemory
  rw [hk]
  dsimp only
  rw [if_neg (not_not_intro h0)]
  change ∃ c', ((c.forget key (c.node a).cudaMemPtrSz).swapHeapNode (c.heapIdx a)
    (c.heapNodeVec.length - 1) >>= _) = _ ∧ _
  rw [e2, ok_bind, hlen]
  by_cases hlt : c.heapIdx a < c.heapNodeVec.length - 1
  · obtain ⟨c3, e3, hm3, hc3⟩ := correctAt_ok hR.placed (hlen ▸ hlt)
    refine ⟨c3, ?_, hc3 (hrank ▸ ho.dropSwapped rankLe_preorder hnone), hR.moved hm3, ?_⟩
    · rw [if_pos hlt, e3]
      rfl
    · rw [hm3.length, hlen]
      omega
  · refine ⟨c2.popBack, if_neg hlt, ?_, hR, ?_⟩
    · unfold InOrder
      rw [hrank, show c.heapIdx a = c.heapNodeVec.length - 1 by omega, dropAt_swap_self]
      exact ho.dropAt rankLe_preorder hnone
    · rw [hlen]
      omega

/-- The front of the heap is the oldest node that nobody holds, if there is one. -/
theorem InOrder.front (ho : c.InOrder) {front : Nat} (hfront : c.heapNodeVec[0]? = some front) :
    ∀ b ∈ c.heapNodeVec, RankLe (c.rank front) (c.rank b) := by
  intro b hb
  obtain ⟨i, hi⟩ := List.mem_iff_getElem?.1 hb
  have := Ordered.root rel_preorder ho i
  rwa [rankAt_eq hfront, rankAt_eq hi] at this

theorem Refines.entry_some (h : Refines c l) {e : CacheEntry} (he : l.entry key = some e) :
    ∃ a, c.referenceMap key = some a ∧ a ∈ c.heapNodeVec ∧ c.entryOf a = e := by
  rw [h.entry] at he
  obtain ⟨a, ha, rfl⟩ := Option.map_eq_some_iff.1 he
  exact ⟨a, ha, (h.lookup key a ha).1, rfl⟩

/-- **Room is made**: the oldest nodes leave until there is enough, or only nodes that are held. -/
theorem autoEvict_ok (threshold : Nat) (h : Refines c l) (ho : c.InOrder)
    (hfuel : c.heapNodeVec.length < fuel) :
    ∃ c' l', autoEvict threshold fuel c = .ok c' ∧ c'.InOrder ∧ Refines c' l' ∧
      LruCache.AutoEvict threshold l l' := by
  induction fuel generalizing c l with
  | zero => omega
  | succ fuel ih =>
    unfold autoEvict
    by_cases hsz : c.autoEvictMemorySz < threshold
    · rw [if_pos hsz]
      exact ⟨c, l, rfl, ho, h, .stop (.inl (h.size ▸ hsz))⟩
    rw [if_neg hsz]
    cases hvec : c.heapNodeVec with
    | nil =>
      refine ⟨c, l, rfl, ho, h, .stop (.inr fun k e he => ?_)⟩
      obtain ⟨b, -, hb, -⟩ := h.entry_some he
      rw [hvec] at hb
      cases hb
    | cons front rest =>
      dsimp only
      have hfront : c.heapNodeVec[0]? = some front := by rw [hvec]; rfl
      have hbest := ho.front hfront
      have hmem := List.mem_of_getElem? hfront
      by_cases h0 : (c.node front).referenceCounter = 0
      · rw [if_neg (not_not_intro h0)]
        obtain ⟨c1, e1, ho1, hR1, hlen⟩ := internalEvictMemory_ok h ho (h.mapped front hmem) h0
        obtain ⟨c2, l2, e2, ho2, hR2, hev⟩ := ih hR1 ho1 (by omega)
        refine ⟨c2, l2, ?_, ho2, hR2, .evict (h.size ▸ Nat.le_of_not_lt hsz) ⟨?_, h0, ?_⟩ hev⟩
        · rw [e1, ok_bind]
          exact e2
        · rw [h.entry, h.mapped front hmem]
          rfl
        · intro k e he hz
          obtain ⟨b, -, hb, rfl⟩ := h.entry_some he
          rcases hbest b hb with hlt | ⟨-, hle⟩
          · have : (c.node b).referenceCounter = 0 := hz
            unfold rank at hlt
            omega
          · exact hle
      · rw [if_pos h0]
        refine ⟨c, l, rfl, ho, h, .stop (.inr fun k e he => ?_)⟩
        obtain ⟨b, -, hb, rfl⟩ := h.entry_some he
        have := hbest b hb
        unfold RankLe rank at this
        show 0 < (c.node b).referenceCounter
        omega

theorem Refines.pushed (h : Refines c l) (hk : c.referenceMap key = none) {n : HeapNode}
    (hn : n.reverseReference = key) (hm : Moved (c.pushBack n) c2) :
    Refines (c2.remember key c.nextAddr n.cudaMemPtrSz)
        (l.add key ⟨n.cudaMemPtr, n.cudaMemPtrSz, n.lastUpdated, n.referenceCounter⟩) ∧
      (c2.remember key c.nextAddr n.cudaMemPtrSz).referenceMap key = some c.nextAddr := by
  have hmem : ∀ b, b ∈ c2.heapNodeVec ↔ b ∈ c.heapNodeVec ∨ b = c.nextAddr := by
    intro b
    rw [hm.perm.mem_iff]
    show b ∈ c.heapNodeVec ++ [c.nextAddr] ↔ _
    rw [List.mem_append, List.mem_singleton]
  have hself : c2.node c.nextAddr = n := (congrFun hm.node _).trans (if_pos rfl)
  have hother : ∀ b ∈ c.heapNodeVec, c2.node b = c.node b :=
    fun b hb => (congrFun hm.node b).trans (if_neg (h.fresh b hb).ne)
  have hmap : ∀ k, (c2.remember key c.nextAddr n.cudaMemPtrSz).referenceMap k =
      if k = key then some c.nextAddr else c.referenceMap k := by
    intro k
    show (if k = key then _ else c2.referenceMap k) = _
    rw [hm.map]
    rfl
  have hne : ∀ b ∈ c.heapNodeVec, (c.node b).reverseReference ≠ key := by
    intro b hb he
    have := h.mapped b hb
    rw [he, hk] at this
    cases this
  refine ⟨⟨hm.placed, fun b hb => ?_, fun k b hb => ?_, fun b hb => ?_, ?_, fun k => ?_, ?_⟩, ?_⟩
  · rw [hmap]
    show (if (c2.node b).reverseReference = key then _ else c.referenceMap (c2.node b).reverseReference) = _
    rcases (hmem b).1 hb with hb | rfl
    · rw [hother b hb, if_neg (hne b hb)]
      exact h.mapped b hb
    · rw [hself, if_pos hn]
  · rw [hmap] at hb
    show b ∈ c2.heapNodeVec ∧ (c2.node b).reverseReference = k
    split at hb
    · next hkk =>
      cases hb
      exact ⟨(hmem _).2 (.inr rfl), by rw [hself, hn, hkk]⟩
    · obtain ⟨hb1, hb2⟩ := h.lookup k b hb
      exact ⟨(hmem b).2 (.inl hb1), by rw [hother b hb1, hb2]⟩
  · show b < c2.nextAddr
    rw [hm.nextAddr]
    rcases (hmem b).1 hb with hb | rfl
    · exact Nat.lt_succ_of_lt (h.fresh b hb)
    · exact Nat.lt_succ_self _
  · show c2.autoEvictMemorySz + _ = (c2.heapNodeVec.map fun b => (c2.node b).cudaMemPtrSz).sum
    have hmap2 : (c.heapNodeVec.map fun b => (c2.node b).cudaMemPtrSz) =
        c.heapNodeVec.map fun b => (c.node b).cudaMemPtrSz := by
      refine List.map_congr_left fun b hb => ?_
      rw [hother b hb]
    have hperm : c2.heapNodeVec.Perm (c.heapNodeVec ++ [c.nextAddr]) := hm.perm
    rw [(hperm.map _).sum_eq, List.map_append, List.sum_append, hmap2, hm.sz, List.map_cons, List.map_nil,
      List.sum_cons, List.sum_nil, hself, Nat.add_zero]
    show c.autoEvictMemorySz + _ = _
    rw [h.total]
  · rw [hmap]
    show (if k = key then _ else l.entry k) = _
    by_cases hkk : k = key
    · rw [if_pos hkk, if_pos hkk]
      show some _ = some (entryOf _ c.nextAddr)
      unfold entryOf remember
      rw [hself]
    · rw [if_neg hkk, if_neg hkk, h.entry]
      cases hb : c.referenceMap k with
      | none => rfl
      | some b =>
        rw [Option.map_some, Option.map_some]
        unfold entryOf remember
        rw [hother b (h.lookup k b hb).1]
  · show l.size + _ = c2.autoEvictMemorySz + _
    rw [hm.sz, h.size]
    rfl
  · rw [hmap, if_pos rfl]

theorem insert_ok (threshold : Nat) (h : Refines c l) (ho : c.InOrder) (hk : c.referenceMap key = none)
    (ptr sz : Nat)
    (now : Int) :
    ∃ c' a l1, c.insert threshold key ptr sz now = .ok (c', a) ∧ c'.InOrder ∧
      LruCache.AutoEvict threshold l l1 ∧ Refines c' (l1.add key ⟨ptr, sz, now, 0⟩) ∧
      c'.referenceMap key = some a := by
  obtain ⟨c1, l1, e1, ho1, hR1, hev⟩ := autoEvict_ok threshold h ho (Nat.lt_succ_self _)
  have hk1 : c1.referenceMap key = none := by
    have hn : l.entry key = none := by rw [h.entry, hk]; rfl
    have := hev.entry_none hn
    rw [hR1.entry] at this
    exact Option.map_eq_none_iff.1 this
  generalize hn : HeapNode.mk ptr sz now 0 key = n
  have hlen : (c1.pushBack n).heapNodeVec.length = c1.heapNodeVec.length + 1 := by
    rw [pushBack, List.length_append, List.length_singleton]
  have hplaced : (c1.pushBack n).Placed := by
    intro i b hb
    replace hb : (c1.heapNodeVec ++ [c1.nextAddr])[i]? = some b := hb
    show (if b = c1.nextAddr then c1.heapNodeVec.length else c1.heapIdx b) = i
    rcases Nat.lt_trichotomy i c1.heapNodeVec.length with hi | rfl | hi
    · rw [List.getElem?_append_left hi] at hb
      rw [if_neg (hR1.fresh b (List.mem_of_getElem? hb)).ne, hR1.placed i b hb]
    · rw [List.getElem?_concat_length] at hb
      cases hb
      exact if_pos rfl
    · rw [List.getElem?_eq_none (by rw [List.length_append]; exact hi)] at hb
      cases hb
  obtain ⟨c2, e2, hm2, hup⟩ := pushUpAt_ok hplaced
    (show c1.heapNodeVec.length < (c1.pushBack n).heapNodeVec.length by omega) (Nat.lt_succ_self _)
  obtain ⟨hR2, hmap⟩ := hR1.pushed hk1 (by rw [← hn]) hm2
  refine ⟨c2.remember key c1.nextAddr sz, c1.nextAddr, l1, ?_, ?_, hev, by rw [← hn] at hR2; exact hR2,
    by rw [← hn] at hmap; exact hmap⟩
  · unfold insert
    rw [e1, ok_bind]
    dsimp only
    rw [hn, hlen, Nat.add_sub_cancel, e2]
    rfl
  · -- the new node stands last, with nothing below it
    have hrest : ∀ i, i ≠ c1.heapNodeVec.length → (c1.pushBack n).rankAt i = c1.rankAt i := by
      intro i hi
      by_cases hlt : i < c1.heapNodeVec.length
      · have hb := List.getElem?_eq_getElem hlt
        have hb' : (c1.pushBack n).heapNodeVec[i]? = some c1.heapNodeVec[i] :=
          (List.getElem?_append_left hlt).trans hb
        rw [rankAt_eq hb, rankAt_eq hb']
        unfold rank
        rw [show (c1.pushBack n).node c1.heapNodeVec[i] = c1.node c1.heapNodeVec[i] from
          if_neg (hR1.fresh _ (List.getElem_mem hlt)).ne]
      · rw [rankAt_none (Nat.le_of_not_lt hlt), rankAt_none (by omega)]
    have hb := Ordered.change rel_preorder ho1 hrest
    refine Up.ordered rel_preorder (hb.upTo fun i h0 hp => ?_) hup
    have hlt : c1.heapNodeVec.length < i := hp ▸ parent_lt h0
    exact rankAt_last _ i (by omega)

theorem apply_ok (threshold : Nat) {w : CacheWorld} (h : Refines w.cache l) (ho : w.cache.InOrder)
    (hw : LruCache.Held w.handedOut l) {call : CacheCall} (hc : w.Allowed call) :
    ∃ c' response l', w.cache.apply threshold call = .ok (c', response) ∧ c'.InOrder ∧ Refines c' l' ∧
      l.Step threshold (call, response) l' := by
  cases call with
  | acquireMemory ref now =>
    unfold apply acquireMemory
    dsimp only
    rw [if_neg hc]
    cases hk : w.cache.referenceMap ref with
    | none =>
      have he : l.entry ref = none := by rw [h.entry, hk]; rfl
      refine ⟨w.cache, .acquired none, l, rfl, ho, h, ?_⟩
      unfold LruCache.Step
      dsimp only
      rw [he]
      exact ⟨rfl, rfl⟩
    | some a =>
      obtain ⟨c1, e, e1, ho1, he, hR1, hmr⟩ := hold_ok h ho hk now
      refine ⟨c1, .acquired (some ⟨e.devicePtr, e.size, ref⟩), _, ?_, ho1, hR1, ?_⟩
      · dsimp only
        rw [e1, ok_bind, hmr]
        rfl
      · unfold LruCache.Step
        dsimp only
        rw [he]
        exact ⟨rfl, rfl⟩
  | cacheNAcquireMemory ref sz allocated inserted now =>
    unfold apply cacheNAcquireMemory
    dsimp only
    rw [if_neg hc]
    cases allocated with
    | none => exact ⟨w.cache, .acquired none, l, rfl, ho, h, rfl, rfl⟩
    | some ptr =>
      cases hk : w.cache.referenceMap ref with
      | some a =>
        obtain ⟨c1, e, e1, ho1, he, hR1, hmr⟩ := hold_ok h ho hk now
        refine ⟨c1, .acquired (some ⟨e.devicePtr, e.size, ref⟩), _, ?_, ho1, hR1, ?_⟩
        · dsimp only
          rw [ok_bind]
          rw [e1, ok_bind, hmr]
          rfl
        · unfold LruCache.Step
          dsimp only
          rw [he]
          exact ⟨rfl, rfl⟩
      | none =>
        have hnone : l.entry ref = none := by rw [h.entry, hk]; rfl
        obtain ⟨c1, a, l1, e1, ho1, hev, hR1, hk1⟩ :=
          insert_ok threshold h ho hk ptr sz inserted
        obtain ⟨c2, e, e2, ho2, he, hR2, hmr⟩ := hold_ok hR1 ho1 hk1 now
        obtain rfl : CacheEntry.mk ptr sz inserted 0 = e := by
          rw [LruCache.add] at he
          dsimp only at he
          rw [if_pos rfl] at he
          exact Option.some.inj he
        refine ⟨c2, .acquired (some ⟨ptr, sz, ref⟩), _, ?_, ho2, hR2, ?_⟩
        · dsimp only
          rw [e1, ok_bind]
          rw [e2, ok_bind, hmr]
          rfl
        · unfold LruCache.Step
          dsimp only
          rw [hnone]
          exact ⟨l1, hev, rfl, rfl⟩
  | releaseMemory mr now =>
    obtain ⟨e, he, -⟩ := hw.kept mr hc
    obtain ⟨a, hk, -, rfl⟩ := h.entry_some he
    have hpos : 0 < (w.cache.node a).referenceCounter := hw.pos hc he
    obtain ⟨c1, e1, ho1, hR1, -⟩ := touch_ok h ho hk ((w.cache.node a).referenceCounter - 1) now
    refine ⟨c1, .released, _, ?_, ho1, hR1, w.cache.entryOf a, he, hpos, rfl, rfl⟩
    unfold apply releaseMemory
    dsimp only
    rw [hk]
    dsimp only
    rw [if_neg hpos.ne', e1]
    rfl
  | evictMemory ref =>
    unfold apply evictMemory
    dsimp only
    rw [if_neg hc]
    cases hk : w.cache.referenceMap ref with
    | none =>
      have he : l.entry ref = none := by rw [h.entry, hk]; rfl
      refine ⟨w.cache, .evicted true, l, ?_, ho, h, ?_⟩
      · unfold internalEvictMemory
        rw [hk]
        rfl
      · unfold LruCache.Step
        dsimp only
        rw [he]
        exact ⟨rfl, rfl⟩
    | some a =>
      have he : l.entry ref = some (w.cache.entryOf a) := by rw [h.entry, hk]; rfl
      by_cases h0 : (w.cache.node a).referenceCounter = 0
      · obtain ⟨c1, e1, ho1, hR1, -⟩ := internalEvictMemory_ok h ho hk h0
        refine ⟨c1, .evicted true, _, ?_, ho1, hR1, ?_⟩
        · rw [e1]
          rfl
        · unfold LruCache.Step
          dsimp only
          rw [he]
          dsimp only
          rw [if_pos (show (w.cache.entryOf a).referenceCounter = 0 from h0)]
          exact ⟨rfl, rfl⟩
      · refine ⟨w.cache, .evicted false, l, ?_, ho, h, ?_⟩
        · unfold internalEvictMemory
          rw [hk]
          dsimp only
          rw [if_pos h0]
          rfl
        · unfold LruCache.Step
          dsimp only
          rw [he]
          dsimp only
          rw [if_neg (show (w.cache.entryOf a).referenceCounter ≠ 0 from h0)]
          exact ⟨rfl, rfl⟩

/-! ## Runs -/

theorem empty_refines : Refines empty LruCache.empty where
  placed i a ha := by cases ha
  mapped a ha := by cases ha
  lookup key a ha := by cases ha
  fresh a ha := by cases ha
  total := rfl
  entry _ := rfl
  size := rfl

/-- **In every run the cache is a least recently used cache**: what its calls return is what calls on the
entries return, the map leads to every node by its place, no node is better than its parent, the memory
counted is that of the nodes, and what was handed out and not released is kept. -/
theorem lru_cache {w : CacheWorld} {calls : List (CacheCall × CacheResponse)}
    (hrun : Run.Reach (· = ⟨empty, []⟩) (CacheWorld.Step threshold) w calls) :
    ∃ l : LruCache, Run.Reach (· = LruCache.empty) (LruCache.Step threshold) l calls ∧
      (∀ key, l.entry key = (w.cache.referenceMap key).map w.cache.entryOf) ∧
      (∀ key a, w.cache.referenceMap key = some a ↔
        w.cache.heapNodeVec[w.cache.heapIdx a]? = some a ∧ (w.cache.node a).reverseReference = key) ∧
      (∀ i a b, 0 < i → w.cache.heapNodeVec[(i - 1) / 2]? = some a → w.cache.heapNodeVec[i]? = some b →
        isBetter (w.cache.rank b) (w.cache.rank a) = false) ∧
      (w.cache.autoEvictMemorySz = (w.cache.heapNodeVec.map fun a => (w.cache.node a).cudaMemPtrSz).sum ∧
        l.size = w.cache.autoEvictMemorySz) ∧
      (∀ mr ∈ w.handedOut, ∃ a, w.cache.referenceMap mr.internalKey = some a ∧
        0 < (w.cache.node a).referenceCounter ∧ mr = w.cache.memoryReference a mr.internalKey) ∧
      ∀ call, w.Allowed call → ∃ response w', w.Step threshold (call, response) w' := by
  have hinv : ∃ l : LruCache, Run.Reach (· = LruCache.empty) (LruCache.Step threshold) l calls ∧
      Refines w.cache l ∧ w.cache.InOrder ∧ LruCache.Held w.handedOut l := by
    induction hrun with
    | init h0 =>
      subst h0
      exact ⟨_, .init rfl, empty_refines, fun _ _ => orLast_none _, LruCache.held_empty⟩
    | @step w w' _ call _ hstep ih =>
      obtain ⟨l, hl, hR, ho, hw⟩ := ih
      obtain ⟨hc, e, hout⟩ := hstep
      obtain ⟨c1, response, l1, e1, ho1, hR1, hs⟩ := apply_ok threshold hR ho hw hc
      rw [e] at e1
      cases e1
      exact ⟨l1, .step hl hs, hR1, ho1, hout ▸ hw.step hc hs⟩
  obtain ⟨l, hl, hR, ho, hw⟩ := hinv
  refine ⟨l, hl, hR.entry, fun key a => ⟨fun hk => ⟨hR.at_place hk, (hR.lookup key a hk).2⟩, ?_⟩,
    fun i a b h0 ha hb => ?_, ⟨hR.total, hR.size⟩, fun mr hm => ?_, fun call hc => ?_⟩
  · rintro ⟨ha, rfl⟩
    exact hR.mapped a (List.mem_of_getElem? ha)
  · have := ho i h0
    rw [show parent 2 i = (i - 1) / 2 from rfl, rankAt_eq ha, rankAt_eq hb] at this
    cases hbet : isBetter (w.cache.rank b) (w.cache.rank a) with
    | false => rfl
    | true =>
      have hle : RankLe (w.cache.rank a) (w.cache.rank b) := this
      unfold isBetter at hbet
      unfold RankLe at hle
      split at hbet
      · omega
      · split at hbet
        · cases hbet
        · split at hbet
          · omega
          · cases hbet
  · obtain ⟨e, he, hmr⟩ := hw.kept mr hm
    obtain ⟨a, hk, -, rfl⟩ := hR.entry_some he
    exact ⟨a, hk, hw.pos hm he, hmr⟩
  · obtain ⟨c1, response, l1, e1, -⟩ := apply_ok threshold hR ho hw hc
    exact ⟨response, ⟨c1, w.handOut call response⟩, hc, e1, rfl⟩

end CudaImmutableMemoryCache

instance (w : CacheWorld) : (call : CacheCall) → Decidable (w.Allowed call)
  | .acquireMemory _ _ => inferInstanceAs (Decidable (_ ≠ _))
  | .cacheNAcquireMemory _ _ _ _ _ => inferInstanceAs (Decidable (_ ≠ _))
  | .releaseMemory mr _ => inferInstanceAs (Decidable (mr ∈ w.handedOut))
  | .evictMemory _ => inferInstanceAs (Decidable (_ ≠ _))

def CacheWorld.next (threshold : Nat) (w : CacheWorld) (call : CacheCall × CacheResponse) :
    Option CacheWorld :=
  if w.Allowed call.1 then
    match w.cache.apply threshold call.1 with
    | .ok (c, response) =>
      if response = call.2 then some ⟨c, w.handOut call.1 call.2⟩ else none
    | .error _ => none
  else none

theorem CacheWorld.next_ok {threshold : Nat} {w w' : CacheWorld} {call : CacheCall × CacheResponse}
    (e : w.next threshold call = some w') : w.Step threshold call w' := by
  unfold CacheWorld.next at e
  split at e
  · next hc =>
    split at e
    · next c response ha =>
      split at e
      · next hr =>
        cases e
        exact ⟨hc, hr ▸ ha, rfl⟩
      · cases e
    · cases e
  · cases e

theorem CudaImmutableMemoryCache.lru_cache_run : ∃ l : LruCache,
    Run.Reach (· = LruCache.empty) (LruCache.Step 15) l
      [(.cacheNAcquireMemory 1 10 (some 100) 0 0, .acquired (some ⟨100, 10, 1⟩)),
        (.releaseMemory ⟨100, 10, 1⟩ 1, .released),
        (.cacheNAcquireMemory 2 10 (some 200) 2 2, .acquired (some ⟨200, 10, 2⟩)),
        (.releaseMemory ⟨200, 10, 2⟩ 3, .released),
        (.cacheNAcquireMemory 3 5 (some 300) 4 4, .acquired (some ⟨300, 5, 3⟩))] ∧
      l.entry 1 = none ∧ l.entry 2 = some ⟨200, 10, 3, 0⟩ := by
  have hinit : Run.Reach (· = ⟨CudaImmutableMemoryCache.empty, []⟩) (CacheWorld.Step 15) _ [] := .init rfl
  obtain ⟨l, hl, hentry, -⟩ := CudaImmutableMemoryCache.lru_cache (hinit.foldlM CacheWorld.next_ok
    (show List.foldlM _ _
      [(.cacheNAcquireMemory 1 10 (some 100) 0 0, .acquired (some ⟨100, 10, 1⟩)),
        (.releaseMemory ⟨100, 10, 1⟩ 1, .released),
        (.cacheNAcquireMemory 2 10 (some 200) 2 2, .acquired (some ⟨200, 10, 2⟩)),
        (.releaseMemory ⟨200, 10, 2⟩ 3, .released),
        (.cacheNAcquireMemory 3 5 (some 300) 4 4, .acquired (some ⟨300, 5, 3⟩))] = some _ from rfl))
  exact ⟨l, hl, (hentry 1).trans rfl, (hentry 2).trans rfl⟩

end MultiplatformMemory
