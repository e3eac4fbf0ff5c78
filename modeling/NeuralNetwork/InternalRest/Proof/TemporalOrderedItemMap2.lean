import NeuralNetwork.InternalRest.TemporalOrderedItemMap2
import NeuralNetwork.Lib.ListUpdate

/-!
# temporal_ordered_item_map_2 keeps a store of items

`HeapOk` says that every node, in use or not, finds its place in its cell. A sift keeps it and only
moves nodes (`Moved`, `upFrom_ok`, `downFrom_ok`). `Holds getId m s` says that the map holds the entries
of the store `s` and that the index leads from each id to its node, and `Sorted` that no node is before
its parent. Every call does to the store what `ItemStore.Step` says (`call_ok`).
-/

namespace ExpiryQueue

open Cpp Loop Mailbox DaryTree DaryHeap

namespace TemporalOrderedItemMap2

variable {K T : Type} {D : Nat} (debug : Bool) {m m' m'' : TemporalOrderedItemMap2 K T}
  {i j idx a fuel : Nat} {n n' : HeapNode2 T}

/-! ## The order of times -/

abbrev NoLater : Option Int → Option Int → Prop := orLast fun a b => a ≤ b

theorem preorder : TotalPreorder NoLater := (totalPreorder_le fun t : Int => t).orLast

theorem decides : Decides (noWorse fun a b : Int => decide (a ≤ b)) NoLater :=
  (decides_le fun t : Int => t).noWorse

def timeAt (m : TemporalOrderedItemMap2 K T) (i : Nat) : Option Int :=
  if i < m.temporalHeapSz then m.schedTimeAt i else none

theorem timeAt_last (m : TemporalOrderedItemMap2 K T) (b : Option Int) (hi : m.temporalHeapSz ≤ i) :
    NoLater b (m.timeAt i) := by
  rw [timeAt, if_neg (Nat.not_lt.2 hi)]
  exact orLast_none b

theorem isEqualBetter_eq (hi : i < m.temporalHeapSz) (hj : j < m.temporalHeapSz) :
    m.isEqualBetter i j = noWorse (fun a b => decide (a ≤ b)) (m.timeAt i) (m.timeAt j) := by
  rw [timeAt, timeAt, if_pos hi, if_pos hj]
  rfl

def Sorted (D : Nat) (m : TemporalOrderedItemMap2 K T) : Prop := Ordered NoLater D m.timeAt

/-! ## The heap -/

structure HeapOk (m : TemporalOrderedItemMap2 K T) : Prop where
  size_le : m.temporalHeapSz ≤ m.temporalHeap.length
  bound : m.temporalHeap.length < 2 ^ 64
  placed : ∀ (i : Nat) (n : HeapNode2 T), m.temporalHeap[i]? = some n →
    m.heapIdxContainer[n.heapIdx]? = some i

def live (m : TemporalOrderedItemMap2 K T) : List (HeapNode2 T) := m.temporalHeap.take m.temporalHeapSz

structure Moved (m m' : TemporalOrderedItemMap2 K T) : Prop where
  ok : HeapOk m'
  live : m'.live.Perm m.live
  sz : m'.temporalHeapSz = m.temporalHeapSz
  cap : m'.temporalHeap.length = m.temporalHeap.length
  ids : m'.idHeapMap = m.idHeapMap

theorem Moved.refl (h : HeapOk m) : Moved m m := ⟨h, List.Perm.refl _, rfl, rfl, rfl⟩

theorem Moved.trans (h : Moved m m') (h' : Moved m' m'') : Moved m m'' where
  ok := h'.ok
  live := h'.live.trans h.live
  sz := h'.sz.trans h.sz
  cap := h'.cap.trans h.cap
  ids := h'.ids.trans h.ids

theorem HeapOk.node (h : HeapOk m) (hi : i < m.temporalHeapSz) :
    ∃ n, m.temporalHeap[i]? = some n :=
  ⟨_, List.getElem?_eq_getElem (hi.trans_le h.size_le)⟩

theorem node_ok (hn : m.temporalHeap[i]? = some n) : m.node i = .ok n := by
  unfold TemporalOrderedItemMap2.node
  rw [hn]

theorem deref_ok (ha : m.heapIdxContainer[a]? = some i) : m.deref a = .ok i := by
  unfold deref
  rw [ha]

theorem checkIdx_ok (hi : i < m.temporalHeapSz) : m.checkIdx debug i = .ok () :=
  if_neg fun hc => absurd hc.2 (Nat.not_le.2 hi)

theorem checkPlace_ok (hn : m.heapIdxContainer[n.heapIdx]? = some i) :
    m.checkPlace debug n i = .ok () := by
  unfold checkPlace
  rw [deref_ok hn, ok_bind]
  exact if_neg fun hc => hc.2 rfl

theorem HeapOk.heapIdx_ne (h : HeapOk m) (hi : m.temporalHeap[i]? = some n)
    (hj : m.temporalHeap[j]? = some n') (hij : i ≠ j) : n.heapIdx ≠ n'.heapIdx := by
  intro ha
  have hpi := h.placed i n hi
  rw [ha, h.placed j n' hj] at hpi
  exact hij (Option.some.inj hpi).symm

theorem getElem?_live : m.live[i]? = some n ↔ i < m.temporalHeapSz ∧ m.temporalHeap[i]? = some n := by
  rw [live, List.getElem?_take]
  by_cases hi : i < m.temporalHeapSz
  · rw [if_pos hi]
    exact (and_iff_right hi).symm
  · rw [if_neg hi]
    exact iff_of_false (by simp) fun h => hi h.1

theorem mem_live : n ∈ m.live ↔ ∃ i, i < m.temporalHeapSz ∧ m.temporalHeap[i]? = some n := by
  rw [List.mem_iff_getElem?]
  exact exists_congr fun i => getElem?_live

theorem HeapOk.live_nodup (h : HeapOk m) : (m.live.map HeapNode2.heapIdx).Nodup := by
  refine List.nodup_iff_getElem?_ne_getElem?.2 fun i j hij hj => ?_
  rw [List.length_map] at hj
  obtain ⟨n, hn⟩ : ∃ n, m.live[i]? = some n := ⟨_, List.getElem?_eq_getElem (hij.trans hj)⟩
  obtain ⟨n', hn'⟩ : ∃ n, m.live[j]? = some n := ⟨_, List.getElem?_eq_getElem hj⟩
  rw [List.getElem?_map, List.getElem?_map, hn, hn']
  intro he
  exact h.heapIdx_ne (getElem?_live.1 hn).2 (getElem?_live.1 hn').2 hij.ne (Option.some.inj he)

def swapped (m : TemporalOrderedItemMap2 K T) (i j : Nat) (l r : HeapNode2 T) :
    TemporalOrderedItemMap2 K T :=
  { m with
    heapIdxContainer := (m.heapIdxContainer.set l.heapIdx j).set r.heapIdx i
    temporalHeap := (m.temporalHeap.set i r).set j l }

variable {l r : HeapNode2 T}

theorem swapHeapNode_eq (h : HeapOk m) (hl : m.temporalHeap[i]? = some l)
    (hr : m.temporalHeap[j]? = some r) : m.swapHeapNode i j = .ok (m.swapped i j l r) := by
  unfold swapHeapNode
  rw [node_ok hl, ok_bind, node_ok hr, ok_bind, deref_ok (h.placed i l hl), ok_bind,
    deref_ok (h.placed j r hr), ok_bind]
  rfl

theorem HeapOk.swapped (h : HeapOk m) (hl : m.temporalHeap[i]? = some l)
    (hr : m.temporalHeap[j]? = some r) : HeapOk (m.swapped i j l r) := by
  have hpl := h.placed i l hl
  have hpr := h.placed j r hr
  refine ⟨?_, ?_, fun x n hn => ?_⟩
  · simpa [TemporalOrderedItemMap2.swapped] using h.size_le
  · simpa [TemporalOrderedItemMap2.swapped] using h.bound
  replace hn : ((m.temporalHeap.set i r).set j l)[x]? = some n := hn
  show ((m.heapIdxContainer.set l.heapIdx j).set r.heapIdx i)[n.heapIdx]? = some x
  rw [ListUpdate.getElem?_swap hl hr] at hn
  rw [ListUpdate.getElem?_swap hpl hpr]
  by_cases hxj : x = j
  · subst hxj
    rw [if_pos rfl] at hn
    cases hn
    by_cases hij : i = x
    · subst hij
      rw [hl] at hr
      cases hr
      rw [if_pos rfl]
    · rw [if_neg (h.heapIdx_ne hl hr hij), if_pos rfl]
  rw [if_neg hxj] at hn
  by_cases hxi : x = i
  · subst hxi
    rw [if_pos rfl] at hn
    cases hn
    rw [if_pos rfl]
  · rw [if_neg hxi] at hn
    rw [if_neg (h.heapIdx_ne hn hr hxj), if_neg (h.heapIdx_ne hn hl hxi)]
    exact h.placed x n hn

theorem timeAt_swapped (hl : m.temporalHeap[i]? = some l) (hr : m.temporalHeap[j]? = some r)
    (hi : i < m.temporalHeapSz) (hj : j < m.temporalHeapSz) :
    (m.swapped i j l r).timeAt = swap m.timeAt i j := by
  funext x
  unfold timeAt swap schedTimeAt
  show (if x < m.temporalHeapSz then (((m.temporalHeap.set i r).set j l)[x]?).map _ else none) = _
  rw [ListUpdate.getElem?_swap hl hr]
  dsimp only
  rw [if_pos hi, if_pos hj]
  by_cases hxj : x = j
  · rw [hxj, if_pos hj, if_pos rfl, if_pos rfl, hl]
  · rw [if_neg hxj, if_neg hxj]
    by_cases hxi : x = i
    · rw [hxi, if_pos hi, if_pos rfl, if_pos rfl, hr]
    · rw [if_neg hxi, if_neg hxi]

theorem swapHeapNode_ok (h : HeapOk m) (hi : i < m.temporalHeapSz) (hj : j < m.temporalHeapSz) :
    ∃ m', m.swapHeapNode i j = .ok m' ∧ Moved m m' ∧ m'.timeAt = swap m.timeAt i j := by
  obtain ⟨l, hl⟩ := h.node hi
  obtain ⟨r, hr⟩ := h.node hj
  refine ⟨_, swapHeapNode_eq h hl hr, ⟨h.swapped hl hr, ?_, rfl, ?_, rfl⟩,
    timeAt_swapped hl hr hi hj⟩
  · show (((m.temporalHeap.set i r).set j l).take m.temporalHeapSz).Perm
      (m.temporalHeap.take m.temporalHeapSz)
    rw [List.take_set, List.take_set]
    rw [← List.getElem?_take_of_lt hi] at hl
    rw [← List.getElem?_take_of_lt hj] at hr
    obtain ⟨hil, rfl⟩ := List.getElem?_eq_some_iff.1 hl
    obtain ⟨hjl, rfl⟩ := List.getElem?_eq_some_iff.1 hr
    exact List.set_set_perm hil hjl
  · simp [TemporalOrderedItemMap2.swapped]

theorem upFrom_ok (h : HeapOk m) (hidx : idx < m.temporalHeapSz) (hfuel : idx < fuel) :
    ∃ m', upFrom D debug fuel m idx = .ok m' ∧ Moved m m' ∧
      Up NoLater D m.timeAt idx m'.timeAt := by
  induction fuel generalizing m idx with
  | zero => omega
  | succ fuel ih =>
    unfold upFrom
    rw [checkIdx_ok debug hidx, ok_bind]
    by_cases h0 : idx = 0
    · rw [if_pos h0]
      exact ⟨m, rfl, .refl h, .stop fun hpos => absurd h0 hpos.ne'⟩
    rw [if_neg h0]
    have hpos := Nat.pos_of_ne_zero h0
    have hlt := parent_lt (D := D) hpos
    have hp := hlt.trans hidx
    show ∃ m', (if m.isEqualBetter (parent D idx) idx then _ else _) = Except.ok m' ∧ _
    rw [isEqualBetter_eq hp hidx]
    cases hc : noWorse (fun a b => decide (a ≤ b)) (m.timeAt (parent D idx)) (m.timeAt idx) with
    | true =>
      rw [if_pos rfl]
      exact ⟨m, rfl, .refl h, .stop fun _ => decides.of_true hc⟩
    | false =>
      rw [if_neg Bool.false_ne_true]
      obtain ⟨m1, e1, h1, ht⟩ := swapHeapNode_ok h hp hidx
      obtain ⟨m2, e2, h2, hup⟩ := ih h1.ok (h1.sz ▸ hp) (by omega)
      rw [swap_comm] at ht
      refine ⟨m2, ?_, h1.trans h2, .swap hpos (decides.of_false hc) (ht ▸ hup)⟩
      show m.swapHeapNode (parent D idx) idx >>= _ = _
      rw [e1, ok_bind]
      exact e2

theorem downFrom_ok (hD : 0 < D) (h : HeapOk m) (hidx : idx < m.temporalHeapSz)
    (hfuel : m.temporalHeapSz < fuel + idx) :
    ∃ m', downFrom D debug fuel m idx = .ok m' ∧ Moved m m' ∧
      Down NoLater D m.timeAt idx m'.timeAt := by
  induction fuel generalizing m idx with
  | zero => omega
  | succ fuel ih =>
    unfold downFrom
    rw [checkIdx_ok debug hidx, ok_bind]
    have hsame : bestChild m.isEqualBetter D m.temporalHeapSz idx =
        bestChild (fun a b => noWorse (fun a b => decide (a ≤ b)) (m.timeAt a) (m.timeAt b)) D
          m.temporalHeapSz idx :=
      bestChild_congr fun a b ha hb => isEqualBetter_eq ha hb
    rw [hsame]
    rcases bestChild_spec hD preorder decides (fun b i hi => timeAt_last m b hi) idx with
      ⟨e, hnone⟩ | ⟨c, e, h0, hc, hp, hbest⟩
    · rw [e]
      exact ⟨m, rfl, .refl h, .stop hnone⟩
    rw [e]
    dsimp only
    have hgt : idx < c := hp ▸ parent_lt h0
    rw [isEqualBetter_eq hidx hc]
    cases hle : noWorse (fun a b => decide (a ≤ b)) (m.timeAt idx) (m.timeAt c) with
    | true =>
      rw [if_pos rfl]
      exact ⟨m, rfl, .refl h, .stop fun i h0 hp => preorder.trans (decides.of_true hle) (hbest i h0 hp)⟩
    | false =>
      rw [if_neg Bool.false_ne_true]
      obtain ⟨m1, e1, h1, ht⟩ := swapHeapNode_ok h hidx hc
      obtain ⟨m2, e2, h2, hdown⟩ := ih h1.ok (h1.sz ▸ hc) (by have := h1.sz; omega)
      refine ⟨m2, ?_, h1.trans h2, .swap h0 hp (decides.of_false hle) hbest (ht ▸ hdown)⟩
      rw [e1, ok_bind, e2]

theorem correctHeapNodeAt_ok (hD : 0 < D) (h : HeapOk m) (hidx : idx < m.temporalHeapSz) :
    ∃ m', m.correctHeapNodeAt D debug idx = .ok m' ∧ Moved m m' ∧
      (AllBut NoLater D m.timeAt idx → Sorted D m') := by
  obtain ⟨m1, e1, h1, hup⟩ := upFrom_ok debug (D := D) h hidx (Nat.lt_succ_self idx)
  obtain ⟨m2, e2, h2, hdown⟩ := downFrom_ok debug hD h1.ok (h1.sz ▸ hidx)
    (show m1.temporalHeapSz < m1.temporalHeapSz + 1 + idx by omega)
  refine ⟨m2, ?_, h1.trans h2, fun hb => Ordered.corrected preorder hb hup hdown⟩
  unfold correctHeapNodeAt correctHeapNodeUpAt
  rw [e1, ok_bind]
  exact e2

/-! ### One node is written -/

theorem HeapOk.setNode (h : HeapOk m) (hn : m.temporalHeap[idx]? = some n) (n' : HeapNode2 T)
    (hc : n'.heapIdx = n.heapIdx) : HeapOk (m.setNode idx n') := by
  refine ⟨?_, ?_, fun x k hk => ?_⟩
  · simpa [TemporalOrderedItemMap2.setNode] using h.size_le
  · simpa [TemporalOrderedItemMap2.setNode] using h.bound
  replace hk : (m.temporalHeap.set idx n')[x]? = some k := hk
  rw [ListUpdate.getElem?_set_of_some hn] at hk
  by_cases hx : x = idx
  · rw [if_pos hx] at hk
    cases hk
    rw [hx, hc]
    exact h.placed idx n hn
  · rw [if_neg hx] at hk
    exact h.placed x k hk

theorem getElem?_setNode (hn : m.temporalHeap[idx]? = some n) (n' : HeapNode2 T) (x : Nat) :
    (m.setNode idx n').temporalHeap[x]? = if x = idx then some n' else m.temporalHeap[x]? :=
  ListUpdate.getElem?_set_of_some hn n' x

theorem timeAt_eq (h0 : i < m.temporalHeapSz) (hn : m.temporalHeap[i]? = some n) :
    m.timeAt i = some n.schedTime := by
  rw [timeAt, if_pos h0, schedTimeAt, hn]
  rfl

theorem timeAt_congr (hlt : i < m.temporalHeapSz ↔ i < m'.temporalHeapSz)
    (hn : m.temporalHeap[i]? = m'.temporalHeap[i]?) : m.timeAt i = m'.timeAt i := by
  unfold timeAt schedTimeAt
  rw [hn]
  simp only [hlt]

/-! ### Nodes come and go -/

structure Adds (m m' : TemporalOrderedItemMap2 K T) (n : HeapNode2 T) : Prop where
  ok : HeapOk m'
  live : m'.live.Perm (m.live ++ [n])
  sz : m'.temporalHeapSz = m.temporalHeapSz + 1
  cap : m'.temporalHeap.length = m.temporalHeap.length
  ids : m'.idHeapMap = m.idHeapMap

theorem live_succ {k : Nat} (hn : m.temporalHeap[k]? = some n) :
    m.temporalHeap.take (k + 1) = m.temporalHeap.take k ++ [n] := by
  rw [List.take_add_one, hn]
  rfl

theorem enqueueBackHeapNode_ok (h : HeapOk m) (hroom : m.temporalHeapSz ≠ m.temporalHeap.length)
    (item : T) (time : Int) :
    ∃ m' n, m.enqueueBackHeapNode debug item time = .ok (m', .success) ∧ Adds m m' n ∧
      m'.temporalHeap[m.temporalHeapSz]? = some n ∧ n.item = some item ∧ n.schedTime = time ∧
      ∀ i, i ≠ m.temporalHeapSz → m'.timeAt i = m.timeAt i := by
  have hlt := Nat.lt_of_le_of_ne h.size_le hroom
  obtain ⟨n, hn⟩ : ∃ n, m.temporalHeap[m.temporalHeapSz]? = some n :=
    ⟨_, List.getElem?_eq_getElem hlt⟩
  have hset := h.setNode hn { n with item := some item, schedTime := time } rfl
  have hget := getElem?_setNode hn { n with item := some item, schedTime := time }
  refine ⟨{ m.setNode m.temporalHeapSz { n with item := some item, schedTime := time } with
    temporalHeapSz := m.temporalHeapSz + 1 }, { n with item := some item, schedTime := time }, ?_,
    ⟨⟨?_, hset.bound, hset.placed⟩, .of_eq ?_, rfl, ?_, rfl⟩, ?_, rfl, rfl,
    fun i hi => timeAt_congr ?_ ?_⟩
  · unfold enqueueBackHeapNode
    rw [if_neg hroom, node_ok hn, ok_bind]
    show checkPlace debug (m.setNode m.temporalHeapSz _) n m.temporalHeapSz >>= _ = _
    rw [checkPlace_ok debug (m := m.setNode m.temporalHeapSz _) (h.placed _ n hn)]
    rfl
  · show m.temporalHeapSz + 1 ≤ (m.temporalHeap.set _ _).length
    rw [List.length_set]
    exact hlt
  · show (m.temporalHeap.set m.temporalHeapSz _).take (m.temporalHeapSz + 1) = _
    rw [List.take_add_one, List.take_set_of_le (Nat.le_refl _)]
    congr 1
    rw [ListUpdate.getElem?_set_of_some hn, if_pos rfl]
    rfl
  · show (m.temporalHeap.set _ _).length = _
    rw [List.length_set]
  · exact (hget _).trans (if_pos rfl)
  · show i < m.temporalHeapSz + 1 ↔ i < m.temporalHeapSz
    omega
  · exact (hget i).trans (if_neg hi)

structure Drops (m m' : TemporalOrderedItemMap2 K T) (n : HeapNode2 T) : Prop where
  ok : HeapOk m'
  live : m.live.Perm (n :: m'.live)
  sz : m'.temporalHeapSz + 1 = m.temporalHeapSz
  cap : m'.temporalHeap.length = m.temporalHeap.length
  ids : m'.idHeapMap = m.idHeapMap

theorem Drops.moved (h : Drops m m' n) (h' : Moved m' m'') : Drops m m'' n where
  ok := h'.ok
  live := h.live.trans (h'.live.symm.cons n)
  sz := h'.sz ▸ h.sz
  cap := h'.cap.trans h.cap
  ids := h'.ids.trans h.ids

theorem Moved.drops (h : Moved m m') (h' : Drops m' m'' n) : Drops m m'' n where
  ok := h'.ok
  live := h.live.symm.trans h'.live
  sz := h'.sz.trans h.sz
  cap := h'.cap.trans h.cap
  ids := h'.ids.trans h.ids

theorem decomissionBackHeapNode_ok (h : HeapOk m) (hpos : 0 < m.temporalHeapSz)
    (hn : m.temporalHeap[m.temporalHeapSz - 1]? = some n) :
    ∃ m', m.decomissionBackHeapNode debug = .ok m' ∧ Drops m m' n ∧
      m'.timeAt = dropAt m.timeAt (m.temporalHeapSz - 1) := by
  have hsz : m.temporalHeapSz < 2 ^ 64 := Nat.lt_of_le_of_lt h.size_le h.bound
  have hback : subT m.temporalHeapSz 1 = m.temporalHeapSz - 1 := subT_of_le hpos hsz
  have hset := h.setNode hn { n with item := none, schedTime := 0 } rfl
  have hget := getElem?_setNode hn { n with item := none, schedTime := 0 }
  obtain ⟨k, hk⟩ : ∃ k, m.temporalHeapSz = k + 1 := ⟨m.temporalHeapSz - 1, by omega⟩
  refine ⟨{ m.setNode (m.temporalHeapSz - 1) { n with item := none, schedTime := 0 } with
    temporalHeapSz := m.temporalHeapSz - 1 }, ?_, ⟨⟨?_, hset.bound, hset.placed⟩, ?_, ?_, ?_, rfl⟩,
    funext fun i => ?_⟩
  · unfold decomissionBackHeapNode
    rw [if_neg fun hc => hpos.ne' hc.2, hback]
    dsimp only
    rw [node_ok hn, ok_bind, checkPlace_ok debug (h.placed _ n hn), ok_bind]
    have hback' : subT (m.setNode (m.temporalHeapSz - 1)
        { n with item := none, schedTime := 0 }).temporalHeapSz 1 = m.temporalHeapSz - 1 := hback
    rw [hback']
  · exact (Nat.sub_le _ _).trans hset.size_le
  · show (m.temporalHeap.take m.temporalHeapSz).Perm
      (n :: (m.temporalHeap.set (m.temporalHeapSz - 1) _).take (m.temporalHeapSz - 1))
    rw [List.take_set_of_le (Nat.le_refl _)]
    rw [hk, Nat.add_sub_cancel] at hn ⊢
    rw [live_succ hn]
    exact List.perm_append_singleton _ _
  · exact Nat.sub_add_cancel hpos
  · show (m.temporalHeap.set _ _).length = _
    rw [List.length_set]
  · unfold dropAt
    by_cases hi : i = m.temporalHeapSz - 1
    · rw [if_pos hi, timeAt, if_neg (by rw [hi]; exact Nat.lt_irrefl _)]
    · rw [if_neg hi]
      refine timeAt_congr ?_ ((hget i).trans (if_neg hi))
      show i < m.temporalHeapSz - 1 ↔ i < m.temporalHeapSz
      omega

theorem eraseHeapNodeAt_ok (hD : 0 < D) (h : HeapOk m) (hs : Sorted D m)
    (hidx : idx < m.temporalHeapSz) (hn : m.temporalHeap[idx]? = some n) :
    ∃ m', m.eraseHeapNodeAt D debug idx = .ok m' ∧ Drops m m' n ∧ Sorted D m' := by
  have hpos : 0 < m.temporalHeapSz := Nat.zero_lt_of_lt hidx
  have hsz : m.temporalHeapSz < 2 ^ 64 := Nat.lt_of_le_of_lt h.size_le h.bound
  have hback : subT m.temporalHeapSz 1 = m.temporalHeapSz - 1 := subT_of_le hpos hsz
  have hlt : m.temporalHeapSz - 1 < m.temporalHeapSz := by omega
  obtain ⟨b, hb⟩ := h.node hlt
  have e1 := swapHeapNode_eq h hn hb
  obtain ⟨m1, e1', h1, ht1⟩ := swapHeapNode_ok h hidx hlt
  obtain rfl := Except.ok.inj (e1.symm.trans e1')
  have hlast : (m.swapped idx (m.temporalHeapSz - 1) n b).temporalHeap[
      (m.swapped idx (m.temporalHeapSz - 1) n b).temporalHeapSz - 1]? = some n :=
    (ListUpdate.getElem?_swap hn hb _).trans (if_pos rfl)
  obtain ⟨m2, e2, h2, ht2⟩ := decomissionBackHeapNode_ok debug h1.ok hpos hlast
  have hrun : m.eraseHeapNodeAt D debug idx =
      if idx < m2.temporalHeapSz then m2.correctHeapNodeAt D debug idx else .ok m2 := by
    unfold eraseHeapNodeAt
    rw [checkIdx_ok debug hidx, ok_bind, hback]
    dsimp only
    rw [e1, ok_bind, e2, ok_bind]
  replace ht2 : m2.timeAt = dropAt (swap m.timeAt idx (m.temporalHeapSz - 1)) (m.temporalHeapSz - 1) :=
    ht2.trans (by rw [ht1]; rfl)
  have hnone : ∀ i, m.temporalHeapSz - 1 < i → m.timeAt i = none := fun i hi =>
    if_neg (Nat.not_lt.2 (by omega))
  rw [hrun]
  have hsz2 := (h1.drops h2).sz
  by_cases hin : idx < m2.temporalHeapSz
  · rw [if_pos hin]
    obtain ⟨m3, e3, h3, hs3⟩ := correctHeapNodeAt_ok debug hD h2.ok hin
    exact ⟨m3, e3, h1.drops (h2.moved h3), hs3 (ht2 ▸ hs.dropSwapped (totalPreorder_le id) hnone)⟩
  · rw [if_neg hin]
    refine ⟨m2, rfl, h1.drops h2, ?_⟩
    obtain rfl : idx = m.temporalHeapSz - 1 := by omega
    unfold Sorted
    rw [ht2, dropAt_swap_self]
    exact hs.dropAt (totalPreorder_le id) hnone

end TemporalOrderedItemMap2

end ExpiryQueue
