import NeuralNetwork.InternalRest.Proof.AckExpiryQueue
import NeuralNetwork.Lib.Run

/-!
# The two maps of items keep the same store

A call on `temporal_ordered_item_map_2` does to the store what `ItemStore.Step` says, and so does one on
`temporal_ordered_item_map`. The index of either leads from each id to the place of its node.
-/

namespace ExpiryQueue

open Cpp Loop Mailbox ItemStore

variable {K T : Type} [DecidableEq K]

namespace ItemStore

variable {s : ItemStore K T} {id : K} {x y : T × Int}

omit [DecidableEq K] in
theorem ext_find {s s' : ItemStore K T} (h : s.find = s'.find) : s = s' := by
  obtain ⟨f, ids, hids⟩ := s
  obtain ⟨f', ids', hids'⟩ := s'
  obtain rfl : f = f' := h
  have : ids = ids' := Finset.ext fun k => (hids k).trans (hids' k).symm
  subst this
  rfl

@[simp] theorem put_find : (s.put id x).find = Function.update s.find id (some x) := rfl

@[simp] theorem remove_find : (s.remove id).find = Function.update s.find id none := rfl

theorem card_put_of_none (h : s.find id = none) : (s.put id x).ids.card = s.ids.card + 1 := by
  refine Finset.card_insert_of_notMem fun hmem => ?_
  rw [s.mem_ids, h] at hmem
  cases hmem

theorem card_put_of_some (h : s.find id = some y) : (s.put id x).ids.card = s.ids.card := by
  have hmem : id ∈ s.ids := by
    rw [s.mem_ids, h]
    rfl
  show (insert id s.ids).card = _
  rw [Finset.insert_eq_self.2 hmem]

theorem card_remove (h : s.find id = some y) : (s.remove id).ids.card + 1 = s.ids.card := by
  refine Finset.card_erase_add_one ?_
  rw [s.mem_ids, h]
  rfl

theorem remove_of_none (h : s.find id = none) : s.remove id = s := by
  apply ext_find
  rw [remove_find, ← h, Function.update_eq_self]

end ItemStore

namespace TemporalOrderedItemMap2

open DaryHeap

variable {D : Nat} (debug : Bool) {m m' m'' : TemporalOrderedItemMap2 K T} {getId : T → K}
  {s : ItemStore K T} {n : HeapNode2 T} {item : T} {itemId : K} {time : Int}

/-! ## temporal_ordered_item_map_2 -/

/-- The map holds the entries of a store, and its index leads to their nodes. -/
structure Holds (getId : T → K) (m : TemporalOrderedItemMap2 K T) (s : ItemStore K T) : Prop
    extends HeapOk m where
  held : ∀ n ∈ m.live, ∃ x, n.item = some x ∧ s.find (getId x) = some (x, n.schedTime) ∧
    m.idHeapMap (getId x) = some n.heapIdx
  lookup : ∀ k a, m.idHeapMap k = some a →
    ∃ n ∈ m.live, n.heapIdx = a ∧ ∃ x, n.item = some x ∧ getId x = k
  absent : ∀ k, m.idHeapMap k = none → s.find k = none
  card : s.ids.card = m.temporalHeapSz

structure Next (D : Nat) (getId : T → K) (m m' : TemporalOrderedItemMap2 K T) (s' : ItemStore K T) :
    Prop where
  holds : Holds getId m' s'
  sorted : Sorted D m'
  cap : m'.capacity = m.capacity

omit [DecidableEq K] in
theorem Holds.same (h : Holds getId m s) (hs : Sorted D m) : Next D getId m m s := ⟨h, hs, rfl⟩

omit [DecidableEq K] in
theorem Holds.moved (h : Holds getId m s) (hm : Moved m m') : Holds getId m' s where
  toHeapOk := hm.ok
  held n hn := by
    rw [hm.ids]
    exact h.held n (hm.live.mem_iff.1 hn)
  lookup k a hk := by
    rw [hm.ids] at hk
    obtain ⟨n, hn, hrest⟩ := h.lookup k a hk
    exact ⟨n, hm.live.mem_iff.2 hn, hrest⟩
  absent k hk := h.absent k (hm.ids ▸ hk)
  card := h.card.trans hm.sz.symm

omit [DecidableEq K] in
/-- **The index leads from an id to the place of its node.** -/
theorem Holds.place (h : Holds getId m s) {a : Nat} (hk : m.idHeapMap itemId = some a) :
    ∃ idx n x, m.heapIdxContainer[a]? = some idx ∧ idx < m.temporalHeapSz ∧
      m.temporalHeap[idx]? = some n ∧ n.heapIdx = a ∧ n.item = some x ∧ getId x = itemId ∧
      s.find itemId = some (x, n.schedTime) := by
  obtain ⟨n, hn, rfl, x, hx, rfl⟩ := h.lookup itemId a hk
  obtain ⟨idx, hidx, hget⟩ := mem_live.1 hn
  obtain ⟨x', hx', hfind, -⟩ := h.held n hn
  obtain rfl : x = x' := Option.some.inj (hx.symm.trans hx')
  exact ⟨idx, n, x, h.placed idx n hget, hidx, hget, rfl, hx, rfl, hfind⟩

omit [DecidableEq K] in
theorem Holds.find_isSome (h : Holds getId m s) (itemId : K) :
    (s.find itemId).isSome = (m.idHeapMap itemId).isSome := by
  cases hk : m.idHeapMap itemId with
  | none => rw [h.absent _ hk]; rfl
  | some a =>
    obtain ⟨idx, n, x, -, -, -, -, -, -, hfind⟩ := h.place hk
    rw [hfind]
    rfl

theorem Holds.added (h : Holds getId m s) (hnew : m.idHeapMap (getId item) = none)
    (hadds : Adds m m' n) (hitem : n.item = some item) (htime : n.schedTime = time) :
    Holds getId (m'.setId (getId item) (some n.heapIdx)) (s.put (getId item) (item, time)) where
  toHeapOk := ⟨hadds.ok.size_le, hadds.ok.bound, hadds.ok.placed⟩
  held k hk := by
    show ∃ x, _ ∧ Function.update s.find _ _ _ = _ ∧ Function.update m'.idHeapMap _ _ _ = _
    rcases List.mem_append.1 (hadds.live.mem_iff.1 hk) with hk | hk
    · obtain ⟨x, hx, hfind, hid⟩ := h.held k hk
      have hne : getId x ≠ getId item := by
        intro he
        rw [he, hnew] at hid
        cases hid
      refine ⟨x, hx, ?_, ?_⟩
      · rw [Function.update_of_ne hne, hfind]
      · rw [Function.update_of_ne hne, hadds.ids, hid]
    · obtain rfl := List.mem_singleton.1 hk
      refine ⟨item, hitem, ?_, Function.update_self ..⟩
      rw [Function.update_self, htime]
  lookup k a hk := by
    have hmem : n ∈ m'.live := hadds.live.mem_iff.2 (by simp)
    by_cases hki : k = getId item
    · subst hki
      have ha : some n.heapIdx = some a :=
        (Function.update_self (getId item) _ m'.idHeapMap).symm.trans hk
      exact ⟨n, hmem, Option.some.inj ha, item, hitem, rfl⟩
    · replace hk : m'.idHeapMap k = some a := (Function.update_of_ne hki ..).symm.trans hk
      rw [hadds.ids] at hk
      obtain ⟨n', hn', hrest⟩ := h.lookup k a hk
      exact ⟨n', hadds.live.mem_iff.2 (List.mem_append_left _ hn'), hrest⟩
  absent k hk := by
    have hki : k ≠ getId item := by
      rintro rfl
      cases (Function.update_self ..).symm.trans hk
    replace hk : m'.idHeapMap k = none := (Function.update_of_ne hki ..).symm.trans hk
    rw [hadds.ids] at hk
    rw [put_find, Function.update_of_ne hki, h.absent k hk]
  card := by
    rw [card_put_of_none (h.absent _ hnew), h.card]
    exact hadds.sz.symm

theorem add_ok (h : Holds getId m s) (hs : Sorted D m) (item : T) (time : Int) :
    ∃ m', m.add D debug getId item time = .ok (m', (s.add m.capacity getId item time).2) ∧
      Next D getId m m' (s.add m.capacity getId item time).1 ∧
      ((s.add m.capacity getId item time).2 ≠ .success → m' = m) := by
  have hsome := h.find_isSome (getId item)
  unfold add ItemStore.add
  rw [hsome, h.card]
  cases hid : m.idHeapMap (getId item) with
  | some a => exact ⟨m, rfl, h.same hs, fun _ => rfl⟩
  | none =>
    rw [Option.isSome_none, if_neg Bool.false_ne_true]
    by_cases hfull : m.temporalHeapSz = m.capacity
    · rw [if_pos hfull]
      refine ⟨m, ?_, h.same hs, fun _ => rfl⟩
      unfold enqueueBackHeapNode
      rw [if_pos (show m.temporalHeapSz = m.temporalHeap.length from hfull)]
      rfl
    rw [if_neg hfull]
    obtain ⟨m1, n, e1, hadds, hget, hitem, htime, hsame⟩ :=
      enqueueBackHeapNode_ok debug h.toHeapOk hfull item time
    have hlast : m1.temporalHeapSz - 1 = m.temporalHeapSz := by
      rw [hadds.sz, Nat.add_sub_cancel]
    have hlt : m.temporalHeapSz < m1.temporalHeapSz := by
      rw [hadds.sz]
      exact Nat.lt_succ_self _
    obtain ⟨m2, e2, hm2, hup⟩ := upFrom_ok debug (D := D) hadds.ok hlt (Nat.lt_succ_self _)
    have hadds2 : Adds m m2 n := ⟨hm2.ok, hm2.live.trans hadds.live, hm2.sz.trans hadds.sz,
      hm2.cap.trans hadds.cap, hm2.ids.trans hadds.ids⟩
    refine ⟨m2.setId (getId item) (some n.heapIdx), ?_, ⟨h.added hid hadds2 hitem htime, ?_,
      hadds2.cap⟩, fun hf => absurd rfl hf⟩
    · rw [e1, ok_bind]
      dsimp only
      rw [if_neg (by simp), hlast, node_ok hget, ok_bind]
      unfold correctHeapNodeUpAt
      rw [e2]
      rfl
    · -- nothing stands below the new node
      refine hup.ordered preorder ((hs.change preorder hsame).upTo fun i h0 hp => timeAt_last m1 _ ?_)
      have := DaryTree.parent_lt (D := D) h0
      rw [hadds.sz]
      omega

theorem Holds.retimed (h : Holds getId m s) {idx : Nat} {x : T} (hidx : idx < m.temporalHeapSz)
    (hget : m.temporalHeap[idx]? = some n) (hx : n.item = some x) (time : Int) :
    Holds getId (m.setNode idx { n with schedTime := time }) (s.put (getId x) (x, time)) := by
  have hset := getElem?_setNode hget { n with schedTime := time }
  obtain ⟨x', hx', hfind, hid⟩ := h.held n (mem_live.2 ⟨idx, hidx, hget⟩)
  obtain rfl : x = x' := Option.some.inj (hx.symm.trans hx')
  have hmem : ∀ k, k ∈ (m.setNode idx { n with schedTime := time }).live ↔
      k = { n with schedTime := time } ∨ k ∈ m.live ∧ k.heapIdx ≠ n.heapIdx := by
    intro k
    rw [mem_live]
    constructor
    · rintro ⟨i, hi, hk⟩
      rw [hset] at hk
      by_cases hii : i = idx
      · rw [if_pos hii] at hk
        exact .inl (Option.some.inj hk).symm
      · rw [if_neg hii] at hk
        exact .inr ⟨mem_live.2 ⟨i, hi, hk⟩, h.heapIdx_ne hk hget hii⟩
    · rintro (rfl | ⟨hk, hne⟩)
      · exact ⟨idx, hidx, by rw [hset, if_pos rfl]⟩
      · obtain ⟨i, hi, hk⟩ := mem_live.1 hk
        refine ⟨i, hi, ?_⟩
        rw [hset, if_neg ?_, hk]
        rintro rfl
        rw [hget] at hk
        cases hk
        exact hne rfl
  refine ⟨h.toHeapOk.setNode hget _ rfl, fun k hk => ?_, fun k a hk => ?_, fun k hk => ?_, ?_⟩
  · rcases (hmem k).1 hk with rfl | ⟨hk, hne⟩
    · exact ⟨x, hx, Function.update_self .., hid⟩
    · obtain ⟨y, hy, hfind', hid'⟩ := h.held k hk
      refine ⟨y, hy, ?_, hid'⟩
      rw [put_find, Function.update_of_ne ?_, hfind']
      intro he
      rw [he, hid] at hid'
      exact hne (Option.some.inj hid').symm
  · obtain ⟨k', hk', ha, y, hy, hky⟩ := h.lookup k a hk
    by_cases hne : k'.heapIdx = n.heapIdx
    · refine ⟨{ n with schedTime := time }, (hmem _).2 (.inl rfl), hne.symm.trans ha, x, hx, ?_⟩
      obtain ⟨i, hi, hget'⟩ := mem_live.1 hk'
      obtain rfl : i = idx := by
        by_contra hii
        exact h.heapIdx_ne hget' hget hii hne
      rw [hget] at hget'
      cases hget'
      rw [hx] at hy
      cases hy
      exact hky
    · exact ⟨k', (hmem _).2 (.inr ⟨hk', hne⟩), ha, y, hy, hky⟩
  · rw [put_find, Function.update_of_ne ?_, h.absent k hk]
    rintro rfl
    cases hid.symm.trans hk
  · rw [card_put_of_some hfind, h.card]
    rfl

theorem update_ok (hD : 0 < D) (h : Holds getId m s) (hs : Sorted D m) (itemId : K) (time : Int) :
    ∃ m', m.update D debug itemId time = .ok (m', (s.update itemId time).2) ∧
      Next D getId m m' (s.update itemId time).1 ∧
      ((s.update itemId time).2 ≠ .success → m' = m) := by
  unfold update ItemStore.update
  cases hid : m.idHeapMap itemId with
  | none =>
    rw [h.absent _ hid]
    exact ⟨m, rfl, h.same hs, fun _ => rfl⟩
  | some a =>
    obtain ⟨idx, n, x, hcell, hidx, hget, -, hx, rfl, hfind⟩ := h.place hid
    rw [hfind]
    have hr := h.retimed hidx hget hx time
    obtain ⟨m1, e1, hm, hsorted⟩ := correctHeapNodeAt_ok debug hD hr.toHeapOk hidx
    refine ⟨m1, ?_, ⟨hr.moved hm, hsorted (hs.change preorder fun i hi => ?_), ?_⟩,
      fun hf => absurd rfl hf⟩
    · dsimp only
      rw [deref_ok hcell, ok_bind, node_ok hget, ok_bind, e1]
      rfl
    · exact timeAt_congr Iff.rfl ((getElem?_setNode hget _ i).trans (if_neg hi))
    · refine hm.cap.trans ?_
      show (m.temporalHeap.set _ _).length = _
      rw [List.length_set]
      rfl

theorem Holds.dropped (h : Holds getId m s) {x : T} (hn : n ∈ m.live) (hx : n.item = some x)
    (hd : Drops (m.setId (getId x) none) m' n) : Holds getId m' (s.remove (getId x)) := by
  obtain ⟨x', hx', hfind, hid⟩ := h.held n hn
  obtain rfl : x = x' := Option.some.inj (hx.symm.trans hx')
  have hids : m'.idHeapMap = Function.update m.idHeapMap (getId x) none := hd.ids
  have hlive : m.live.Perm (n :: m'.live) := hd.live
  have hother : ∀ k ∈ m'.live, k.heapIdx ≠ n.heapIdx := by
    have hnodup := h.live_nodup
    rw [(hlive.map _).nodup_iff, List.map_cons, List.nodup_cons] at hnodup
    exact fun k hk he => hnodup.1 (he ▸ List.mem_map_of_mem hk)
  refine ⟨hd.ok, fun k hk => ?_, fun k a hk => ?_, fun k hk => ?_, ?_⟩
  · obtain ⟨y, hy, hfind', hid'⟩ := h.held k (hlive.mem_iff.2 (List.mem_cons_of_mem _ hk))
    have hne : getId y ≠ getId x := by
      intro he
      rw [he, hid] at hid'
      exact hother k hk (Option.some.inj hid').symm
    refine ⟨y, hy, ?_, ?_⟩
    · rw [remove_find, Function.update_of_ne hne, hfind']
    · rw [hids, Function.update_of_ne hne, hid']
  · rw [hids] at hk
    have hne : k ≠ getId x := by
      rintro rfl
      rw [Function.update_self] at hk
      cases hk
    rw [Function.update_of_ne hne] at hk
    obtain ⟨k', hk', ha, y, hy, rfl⟩ := h.lookup k a hk
    refine ⟨k', ?_, ha, y, hy, rfl⟩
    refine List.mem_of_ne_of_mem ?_ (hlive.mem_iff.1 hk')
    rintro rfl
    rw [hx] at hy
    cases hy
    exact hne rfl
  · by_cases hne : k = getId x
    · rw [hne, remove_find, Function.update_self]
    · rw [hids, Function.update_of_ne hne] at hk
      rw [remove_find, Function.update_of_ne hne, h.absent k hk]
  · have h1 := card_remove hfind
    have h2 : m'.temporalHeapSz + 1 = m.temporalHeapSz := hd.sz
    have h3 := h.card
    omega

theorem eraseNode_ok (hD : 0 < D) (h : Holds getId m s) (hs : Sorted D m) {idx : Nat} {x : T}
    (hidx : idx < m.temporalHeapSz) (hget : m.temporalHeap[idx]? = some n) (hx : n.item = some x) :
    ∃ m', (m.setId (getId x) none).eraseHeapNodeAt D debug idx = .ok m' ∧
      Next D getId m m' (s.remove (getId x)) := by
  obtain ⟨m1, e1, hd, hsorted⟩ := eraseHeapNodeAt_ok debug hD (m := m.setId (getId x) none)
    ⟨h.size_le, h.bound, h.placed⟩ hs hidx hget
  exact ⟨m1, e1, h.dropped (mem_live.2 ⟨idx, hidx, hget⟩) hx hd, hsorted, hd.cap⟩

theorem erase_ok (hD : 0 < D) (h : Holds getId m s) (hs : Sorted D m) (itemId : K) :
    ∃ m', m.erase D debug itemId = .ok m' ∧ Next D getId m m' (s.remove itemId) := by
  unfold erase
  cases hid : m.idHeapMap itemId with
  | none =>
    rw [remove_of_none (h.absent _ hid)]
    exact ⟨m, rfl, h.same hs⟩
  | some a =>
    obtain ⟨idx, n, x, hcell, hidx, hget, -, hx, rfl, -⟩ := h.place hid
    obtain ⟨m1, e1, hnext⟩ := eraseNode_ok debug hD h hs hidx hget hx
    refine ⟨m1, ?_, hnext⟩
    dsimp only
    rw [deref_ok hcell, ok_bind, e1]

omit [DecidableEq K] in
theorem Holds.front_le (h : Holds getId m s) (hs : Sorted D m) (hget : m.temporalHeap[0]? = some n)
    (hpos : 0 < m.temporalHeapSz) {k : K} {x : T × Int} (hx : s.find k = some x) :
    n.schedTime ≤ x.2 := by
  have hsome := h.find_isSome k
  rw [hx] at hsome
  obtain ⟨a, hid⟩ := Option.isSome_iff_exists.1 hsome.symm
  obtain ⟨idx, k', y, -, hidx, hget', -, -, -, hfind⟩ := h.place hid
  rw [hx] at hfind
  cases hfind
  have hroot := hs.root preorder idx
  rwa [timeAt_eq hpos hget, timeAt_eq hidx hget'] at hroot

theorem getExpiredItem_ok (hD : 0 < D) (h : Holds getId m s) (hs : Sorted D m) (timeBar : Int) :
    (m.getExpiredItem D debug getId timeBar = .ok (m, none) ∧
        ∀ id x, s.find id = some x → timeBar ≤ x.2) ∨
      ∃ m' item, m.getExpiredItem D debug getId timeBar = .ok (m', some item) ∧
        s.IsNextExpired getId timeBar item ∧ Next D getId m m' (s.remove (getId item)) := by
  unfold getExpiredItem
  by_cases h0 : m.temporalHeapSz = 0
  · rw [if_pos h0]
    refine .inl ⟨rfl, fun id x hx => ?_⟩
    have hmem : id ∈ s.ids := by
      rw [s.mem_ids, hx]
      rfl
    have hcard := Finset.card_pos.2 ⟨id, hmem⟩
    rw [h.card, h0] at hcard
    exact absurd hcard (Nat.lt_irrefl 0)
  rw [if_neg h0]
  have hpos := Nat.pos_of_ne_zero h0
  obtain ⟨n, hget⟩ := h.node hpos
  rw [node_ok hget, ok_bind]
  by_cases hbar : n.schedTime ≥ timeBar
  · rw [if_pos hbar]
    exact .inl ⟨rfl, fun id x hx => hbar.trans (h.front_le hs hget hpos hx)⟩
  · rw [if_neg hbar]
    obtain ⟨x, hx, hfind, -⟩ := h.held n (mem_live.2 ⟨0, hpos, hget⟩)
    obtain ⟨m1, e1, hnext⟩ := eraseNode_ok debug hD h hs hpos hget hx
    refine .inr ⟨m1, x, ?_, ⟨n.schedTime, hfind, Int.not_le.1 hbar, fun id y hy =>
      h.front_le hs hget hpos hy⟩, hnext⟩
    rw [hx]
    unfold popHeapNode
    dsimp only
    rw [e1]
    rfl

end TemporalOrderedItemMap2

namespace TemporalOrderedItemMap

variable (debug : Bool) {m m' : TemporalOrderedItemMap K T} {getId : T → K} {s s' : ItemStore K T}
  {item : T} {itemId : K} {time : Int} {p : Nat} [Inhabited T]

/-! ## temporal_ordered_item_map -/

structure Holds (getId : T → K) (m : TemporalOrderedItemMap K T) (s : ItemStore K T) : Prop
    extends Inv getId m where
  entry : ∀ id x, s.find id = some x ↔ x ∈ m.entries ∧ getId x.1 = id

structure Next (getId : T → K) (m m' : TemporalOrderedItemMap K T) (s' : ItemStore K T) : Prop where
  holds : Holds getId m' s'
  sorted : m'.Sorted
  cap : m'.capacity = m.capacity

omit [DecidableEq K] [Inhabited T] in
theorem Holds.same (h : Holds getId m s) (hs : m.Sorted) : Next getId m m s := ⟨h, hs, rfl⟩

omit [DecidableEq K] [Inhabited T] in
theorem Holds.find_isSome (h : Holds getId m s) : (s.find itemId).isSome ↔ itemId ∈ m.ids := by
  rw [← h.entries_ids, List.mem_map, Option.isSome_iff_exists]
  exact exists_congr fun x => h.entry itemId x

omit [DecidableEq K] [Inhabited T] in
theorem Holds.find_none (h : Holds getId m s) (hid : itemId ∉ m.ids) : s.find itemId = none := by
  rw [← h.find_isSome] at hid
  exact Option.not_isSome_iff_eq_none.1 hid

omit [Inhabited T] in
theorem Holds.card (h : Holds getId m s) : s.ids.card = m.size := by
  have : s.ids = m.ids.toFinset := Finset.ext fun k => by
    rw [s.mem_ids, h.find_isSome, List.mem_toFinset]
  have hnodup : m.ids.Nodup := h.keys_nodup
  rw [this, List.toFinset_card_of_nodup hnodup, ← h.entries_ids, List.length_map, h.length_entries]

omit [Inhabited T] in
theorem Holds.add_ok (h : Holds getId m s) (hs : m.Sorted) (item : T) (time : Int) :
    ∃ m', m.add debug getId item time = .ok (m', (s.add m.capacity getId item time).2) ∧
      Next getId m m' (s.add m.capacity getId item time).1 ∧
      ((s.add m.capacity getId item time).2 ≠ .success → m' = m) := by
  unfold ItemStore.add
  rcases TemporalOrderedItemMap.add_ok debug h.toInv item time with
    ⟨hid, e⟩ | ⟨hid, hfull, e⟩ | ⟨hid, hfull, m1, e, hinv, hentries, hcap, hsorted⟩
  · rw [if_pos (h.find_isSome.2 hid)]
    exact ⟨m, e, h.same hs, fun _ => rfl⟩
  · rw [if_neg (mt h.find_isSome.1 hid), h.card, if_pos hfull]
    exact ⟨m, e, h.same hs, fun _ => rfl⟩
  · rw [if_neg (mt h.find_isSome.1 hid), h.card, if_neg hfull]
    refine ⟨m1, e, ⟨⟨hinv, fun id x => ?_⟩, hsorted hs, hcap⟩, fun hf => absurd rfl hf⟩
    rw [hentries, List.mem_append, List.mem_singleton, put_find]
    by_cases hne : id = getId item
    · subst hne
      rw [Function.update_self]
      constructor
      · intro hx
        cases hx
        exact ⟨.inr rfl, rfl⟩
      · rintro ⟨hx | rfl, hid'⟩
        · refine absurd ?_ hid
          rw [← h.entries_ids, ← hid']
          exact List.mem_map_of_mem hx
        · rfl
    · rw [Function.update_of_ne hne, h.entry]
      refine and_congr_left fun hid' => (or_iff_left ?_).symm
      rintro rfl
      exact hne hid'.symm

omit [Inhabited T] in
theorem Holds.update_ok (h : Holds getId m s) (hs : m.Sorted) (itemId : K) (time : Int) :
    ∃ m', m.update debug itemId time = .ok (m', (s.update itemId time).2) ∧
      Next getId m m' (s.update itemId time).1 ∧
      ((s.update itemId time).2 ≠ .success → m' = m) := by
  unfold ItemStore.update
  rcases TemporalOrderedItemMap.update_ok debug h.toInv itemId time with
    ⟨hid, e⟩ | ⟨hid, m1, e, hinv, hentries, hcap, hsorted⟩
  · rw [h.find_none hid]
    exact ⟨m, e, h.same hs, fun _ => rfl⟩
  · obtain ⟨y, hy⟩ := Option.isSome_iff_exists.1 (h.find_isSome.2 hid)
    rw [hy]
    refine ⟨m1, e, ⟨⟨hinv, fun id x => ?_⟩, hsorted hs, hcap⟩, fun hf => absurd rfl hf⟩
    rw [hentries, List.mem_map, put_find]
    obtain ⟨hmem, rfl⟩ := (h.entry itemId y).1 hy
    by_cases hne : id = getId y.1
    · subst hne
      rw [Function.update_self]
      constructor
      · intro hx
        cases hx
        exact ⟨⟨y, hmem, if_pos rfl⟩, rfl⟩
      · rintro ⟨⟨z, hz, rfl⟩, hid'⟩
        by_cases hzy : getId z.1 = getId y.1
        · have hz' := (h.entry _ z).2 ⟨hz, hzy⟩
          rw [hy] at hz'
          cases hz'
          rw [if_pos rfl]
        · rw [if_neg hzy] at hid'
          exact absurd hid' hzy
    · rw [Function.update_of_ne hne, h.entry]
      constructor
      · rintro ⟨hx, rfl⟩
        exact ⟨⟨x, hx, if_neg hne⟩, rfl⟩
      · rintro ⟨⟨z, hz, rfl⟩, rfl⟩
        by_cases hzy : getId z.1 = getId y.1
        · rw [if_pos hzy] at hne
          exact absurd hzy hne
        · rw [if_neg hzy]
          exact ⟨hz, rfl⟩

omit [Inhabited T] in
theorem Holds.removed (h : Holds getId m s) (hinv : Inv getId m')
    (hentries : ∀ x, x ∈ m'.entries ↔ x ∈ m.entries ∧ getId x.1 ≠ itemId) :
    Holds getId m' (s.remove itemId) := by
  refine ⟨hinv, fun id x => ?_⟩
  rw [hentries, remove_find]
  by_cases hne : id = itemId
  · rw [hne, Function.update_self]
    exact iff_of_false (by simp) fun hx => hx.1.2 hx.2
  · rw [Function.update_of_ne hne, h.entry]
    refine and_congr_left fun hid => (and_iff_left ?_).symm
    rw [hid]
    exact hne

theorem Holds.erase_ok (h : Holds getId m s) (hs : m.Sorted) (itemId : K) :
    ∃ m', m.erase debug itemId = .ok m' ∧ Next getId m m' (s.remove itemId) := by
  obtain ⟨m1, e, hinv, hentries, hcap, hsorted⟩ := TemporalOrderedItemMap.erase_ok debug h.toInv itemId
  refine ⟨m1, e, h.removed hinv fun x => ?_, hsorted hs, hcap⟩
  rw [hentries, List.mem_filter, decide_eq_true_iff]

omit [DecidableEq K] [Inhabited T] in
theorem Holds.front_le (h : Holds getId m s) (hs : m.Sorted) (hp : m.temporalHeap[0]? = some p)
    {k : K} {x : T × Int} (hx : s.find k = some x) : (m.nodes p).schedTime ≤ x.2 := by
  obtain ⟨i, hi, ht⟩ := (mem_entries_time h.toInv).1 ⟨x.1, ((h.entry k x).1 hx).1⟩
  rw [← timeAt_eq hp, ← ht]
  exact hs.root_le hi

theorem Holds.getExpiredItem_ok (h : Holds getId m s) (hs : m.Sorted) (timeBar : Int) :
    (m.getExpiredItem debug getId timeBar = .ok (m, none) ∧
        ∀ id x, s.find id = some x → timeBar ≤ x.2) ∨
      ∃ m' item, m.getExpiredItem debug getId timeBar = .ok (m', some item) ∧
        s.IsNextExpired getId timeBar item ∧ Next getId m m' (s.remove (getId item)) := by
  obtain ⟨m1, r, e, hinv, hcap, hsorted, hr⟩ :=
    TemporalOrderedItemMap.getExpiredItem_ok debug h.toInv timeBar
  have hrun := e
  unfold getExpiredItem at hrun
  by_cases h0 : m.temporalHeapSz = 0
  · rw [if_pos h0] at hrun
    cases hrun
    refine .inl ⟨e, fun id x hx => ?_⟩
    have hempty : m.entries = [] := List.length_eq_zero_iff.1 (h.length_entries.trans h0)
    have hmem := ((h.entry id x).1 hx).1
    rw [hempty] at hmem
    cases hmem
  rw [if_neg h0] at hrun
  obtain ⟨p, hp, hslot⟩ := h.slot (Nat.pos_of_ne_zero h0)
  rw [hslot, ok_bind] at hrun
  by_cases hbar : (m.nodes p).schedTime ≥ timeBar
  · rw [if_pos hbar] at hrun
    cases hrun
    exact .inl ⟨e, fun id x hx => hbar.trans (h.front_le hs hp hx)⟩
  rw [if_neg hbar] at hrun
  obtain ⟨m2, -, hrun⟩ := bind_eq_ok hrun
  cases hrun
  obtain ⟨hnone, -⟩ | ⟨item, time, hsome, -, hperm⟩ := hr
  · cases hnone
  cases hsome
  have hnodup : ((((m.nodes p).item, time) :: m1.entries).map fun x => getId x.1).Nodup := by
    rw [← (hperm.map _).nodup_iff, h.entries_ids]
    exact h.keys_nodup
  rw [List.map_cons, List.nodup_cons] at hnodup
  have hmem : ((m.nodes p).item, time) ∈ m.entries := hperm.mem_iff.2 List.mem_cons_self
  -- the entry that left is that of the front node
  have hfind : s.find (getId (m.nodes p).item) = some ((m.nodes p).item, (m.nodes p).schedTime) := by
    refine (h.entry _ _).2 ⟨?_, rfl⟩
    have hlive : p ∈ m.live := by
      refine List.mem_iff_getElem?.2 ⟨0, ?_⟩
      rw [live, List.getElem?_take_of_lt (Nat.pos_of_ne_zero h0), hp]
    obtain ⟨entry, hentry, rfl⟩ := List.mem_map.1 (h.index.mem_iff.2 hlive)
    exact List.mem_map.2 ⟨entry, hentry, rfl⟩
  refine .inr ⟨m1, _, e, ⟨_, hfind, Int.not_le.1 hbar, fun id x hx => h.front_le hs hp hx⟩,
    h.removed hinv fun x => ?_, hsorted hs, hcap⟩
  rw [hperm.mem_iff, List.mem_cons]
  constructor
  · intro hx
    exact ⟨.inr hx, fun he => hnodup.1 (he ▸ List.mem_map_of_mem hx)⟩
  · rintro ⟨rfl | hx, hne⟩
    · exact absurd rfl hne
    · exact hx

end TemporalOrderedItemMap

/-! ## Runs -/

/-- A map that started as `init` is `m` after the calls and their answers. -/
def Ran {M : Type} (init : M) (call : M → Call K T → Except Fault (M × Answer T)) (m : M)
    (hist : List (Call K T × Answer T)) : Prop :=
  Run.Reach (· = init) (fun m c m' => call m c.1 = .ok (m', c.2)) m hist

/-- A map that starts as `init` refines the store of `cap` entries: what its calls answered is what the
store answers, it represents the store reached, and a call that fails leaves it as it is. -/
def Refines {M : Type} (init : M) (call : M → Call K T → Except Fault (M × Answer T)) (cap : Nat)
    (getId : T → K) (Represents : M → ItemStore K T → Prop) : Prop :=
  ∀ m hist, Ran init call m hist →
    ∃ s, Run.Reach (· = ItemStore.empty) (ItemStore.Step cap getId) s hist ∧ Represents m s ∧
      ∀ c, ∃ m' a, call m c = .ok (m', a) ∧ (a.failed = true → m' = m)

/-- It is enough that a call keeps an invariant of the map and the store. -/
theorem refines_of_call {M : Type} {init : M} {call : M → Call K T → Except Fault (M × Answer T)}
    {cap : Nat} {getId : T → K} {Represents : M → ItemStore K T → Prop} (Inv : M → ItemStore K T → Prop)
    (hinit : Inv init ItemStore.empty) (hrep : ∀ m s, Inv m s → Represents m s)
    (hcall : ∀ m s c, Inv m s → ∃ m' a s', call m c = .ok (m', a) ∧ s.Step cap getId (c, a) s' ∧
      Inv m' s' ∧ (a.failed = true → m' = m)) : Refines init call cap getId Represents := by
  intro m hist hreach
  have hrun : ∃ s, Run.Reach (· = ItemStore.empty) (ItemStore.Step cap getId) s hist ∧ Inv m s := by
    induction hreach with
    | init hm => exact ⟨ItemStore.empty, .init rfl, hm ▸ hinit⟩
    | step _ e ih =>
      obtain ⟨s, hs, hinv⟩ := ih
      obtain ⟨m', a, s', e', hstep, hinv', -⟩ := hcall _ s _ hinv
      obtain ⟨rfl, rfl⟩ := Prod.mk.inj (Except.ok.inj (e'.symm.trans e))
      exact ⟨s', hs.step hstep, hinv'⟩
  obtain ⟨s, hs, hinv⟩ := hrun
  refine ⟨s, hs, hrep m s hinv, fun c => ?_⟩
  obtain ⟨m', a, s', e, -, -, hfail⟩ := hcall m s c hinv
  exact ⟨m', a, e, hfail⟩

theorem failed_code {err : ExceptionT} (h : (Answer.code err : Answer T).failed = true) :
    err ≠ .success := by
  simpa [Answer.failed] using h

namespace TemporalOrderedItemMap

variable (debug : Bool) (getId : T → K) [Inhabited T]

/-- What the map keeps for an id, found through the index in the place of the heap that the node
knows. -/
def At (m : TemporalOrderedItemMap K T) (id : K) (x : T × Int) : Prop :=
  ∃ p, m.find id = some p ∧ (m.nodes p).heapIdx < m.temporalHeapSz ∧
    m.temporalHeap[(m.nodes p).heapIdx]? = some p ∧ (m.nodes p).item = x.1 ∧
    (m.nodes p).schedTime = x.2 ∧ getId x.1 = id

/-- The map keeps what the store does, its index leads there, and its heap is in order. -/
structure Represents (m : TemporalOrderedItemMap K T) (s : ItemStore K T) : Prop where
  at_iff : ∀ id x, s.find id = some x ↔ m.At getId id x
  size : m.size = s.ids.card
  sorted : ∀ i, 0 < i → i < m.temporalHeapSz → m.timeAt ((i - 1) / 2) ≤ m.timeAt i

variable {getId} {m : TemporalOrderedItemMap K T} {s : ItemStore K T}

omit [Inhabited T] in
theorem Holds.represents (h : Holds getId m s) (hs : m.Sorted) : Represents getId m s where
  at_iff id x := by
    have hpair : ∀ p, m.find id = some p → (id, p) ∈ m.idHeapMap := by
      intro p hp
      obtain ⟨before, after, hmap, -⟩ := h.find_split hp
      rw [hmap]
      simp
    rw [h.entry]
    constructor
    · rintro ⟨hx, rfl⟩
      have hid : getId x.1 ∈ m.ids := by
        rw [← h.entries_ids]
        exact List.mem_map_of_mem hx
      obtain ⟨p, hp⟩ : ∃ p, m.find (getId x.1) = some p := by
        rw [← Option.isSome_iff_exists, Option.isSome_iff_ne_none]
        exact fun hnone => find_eq_none.1 hnone hid
      obtain ⟨entry, hentry, he⟩ := List.mem_map.1 hx
      have hkey : getId x.1 = entry.1 := by
        rw [← he]
        exact h.keys entry hentry
      have hsame : p = entry.2 :=
        congrArg Prod.snd (List.inj_on_of_nodup_map h.keys_nodup (hpair p hp) hentry hkey)
      have hplace := h.live_place (h.find_live hp)
      refine ⟨p, hp, hplace.1, hplace.2, ?_, ?_, rfl⟩
      · rw [← he, hsame]
      · rw [← he, hsame]
    · rintro ⟨p, hp, -, -, hitem, htime, rfl⟩
      refine ⟨List.mem_map.2 ⟨(_, p), hpair p hp, ?_⟩, rfl⟩
      rw [hitem, htime]
  size := h.card.symm
  sorted i h0 hi := hs i h0 hi

theorem Holds.call_ok (h : Holds getId m s) (hs : m.Sorted) (c : Call K T) :
    ∃ m' a s', m.call debug getId c = .ok (m', a) ∧ s.Step m.capacity getId (c, a) s' ∧
      Next getId m m' s' ∧ (a.failed = true → m' = m) := by
  cases c with
  | add item time =>
    obtain ⟨m', e, hnext, hfail⟩ := h.add_ok debug hs item time
    exact ⟨m', _, _, by rw [call, e]; rfl, rfl, hnext, fun hf => hfail (failed_code hf)⟩
  | update itemId time =>
    obtain ⟨m', e, hnext, hfail⟩ := h.update_ok debug hs itemId time
    exact ⟨m', _, _, by rw [call, e]; rfl, rfl, hnext, fun hf => hfail (failed_code hf)⟩
  | addOrUpdate item time =>
    by_cases hin : (s.find (getId item)).isSome
    · have hfind : (m.find (getId item)).isSome := by
        rw [Option.isSome_iff_ne_none]
        exact fun hnone => find_eq_none.1 hnone (h.find_isSome.1 hin)
      obtain ⟨m', e, hnext, hfail⟩ := h.update_ok debug hs (getId item) time
      refine ⟨m', _, _, by rw [call, addOrUpdate, if_pos hfind, e]; rfl, ?_, hnext,
        fun hf => hfail (failed_code hf)⟩
      show _ = Prod.map _ _ (if _ then _ else _)
      rw [if_pos hin]
      rfl
    · have hfind : ¬ (m.find (getId item)).isSome := by
        rw [Option.not_isSome_iff_eq_none]
        exact find_eq_none.2 (mt h.find_isSome.2 hin)
      obtain ⟨m', e, hnext, hfail⟩ := h.add_ok debug hs item time
      refine ⟨m', _, _, by rw [call, addOrUpdate, if_neg hfind, e]; rfl, ?_, hnext,
        fun hf => hfail (failed_code hf)⟩
      show _ = Prod.map _ _ (if _ then _ else _)
      rw [if_neg hin]
      rfl
  | erase itemId =>
    obtain ⟨m', e, hnext⟩ := h.erase_ok debug hs itemId
    exact ⟨m', .done, _, by rw [call, e]; rfl, rfl, hnext, fun hf => nomatch hf⟩
  | getExpiredItem timeBar =>
    rcases h.getExpiredItem_ok debug hs timeBar with ⟨e, hlate⟩ | ⟨m', item, e, hexp, hnext⟩
    · exact ⟨m, .item none, s, by rw [call, e]; rfl, .inl ⟨rfl, rfl, hlate⟩, h.same hs, fun _ => rfl⟩
    · exact ⟨m', .item (some item), _, by rw [call, e]; rfl, .inr ⟨item, rfl, hexp, rfl⟩, hnext,
        fun hf => nomatch hf⟩

end TemporalOrderedItemMap

namespace TemporalOrderedItemMap2

variable (D : Nat) (debug : Bool) (getId : T → K)

/-- What the map keeps for an id, found through the index in the place of the heap that the cell of
the node holds. -/
def At (m : TemporalOrderedItemMap2 K T) (id : K) (x : T × Int) : Prop :=
  ∃ a idx n, m.idHeapMap id = some a ∧ m.heapIdxContainer[a]? = some idx ∧ idx < m.temporalHeapSz ∧
    m.temporalHeap[idx]? = some n ∧ n.heapIdx = a ∧ n.item = some x.1 ∧ n.schedTime = x.2 ∧
    getId x.1 = id

/-- The map keeps what the store does, its index leads there, and its heap is in order. -/
structure Represents (m : TemporalOrderedItemMap2 K T) (s : ItemStore K T) : Prop where
  at_iff : ∀ id x, s.find id = some x ↔ m.At getId id x
  size : m.size = s.ids.card
  sorted : ∀ i t t', 0 < i → i < m.temporalHeapSz → m.schedTimeAt ((i - 1) / D) = some t →
    m.schedTimeAt i = some t' → t ≤ t'

variable {D getId} {m : TemporalOrderedItemMap2 K T} {s : ItemStore K T}

omit [DecidableEq K] in
theorem Holds.represents (h : Holds getId m s) (hs : Sorted D m) : Represents D getId m s where
  at_iff id x := by
    constructor
    · intro hx
      have hsome := h.find_isSome id
      rw [hx] at hsome
      obtain ⟨a, ha⟩ := Option.isSome_iff_exists.1 hsome.symm
      obtain ⟨idx, n, y, hcell, hidx, hget, hn, hy, hid, hfind⟩ := h.place ha
      rw [hx] at hfind
      cases hfind
      exact ⟨a, idx, n, ha, hcell, hidx, hget, hn, hy, rfl, hid⟩
    · rintro ⟨a, idx, n, ha, -, hidx, hget, -, hitem, htime, rfl⟩
      obtain ⟨y, hy, hfind, -⟩ := h.held n (mem_live.2 ⟨idx, hidx, hget⟩)
      rw [hitem] at hy
      cases hy
      rw [hfind, htime]
  size := h.card.symm
  sorted i t t' h0 hi ht ht' := by
    have hp : (i - 1) / D < i := DaryTree.parent_lt h0
    have := hs i h0
    rw [timeAt, timeAt, if_pos hi, ht', DaryTree.parent, if_pos (hp.trans hi), ht] at this
    exact this

theorem Holds.call_ok (hD : 0 < D) (h : Holds getId m s) (hs : Sorted D m) (c : Call K T) :
    ∃ m' a s', m.call debug getId D c = .ok (m', a) ∧ s.Step m.capacity getId (c, a) s' ∧
      Next D getId m m' s' ∧ (a.failed = true → m' = m) := by
  cases c with
  | add item time =>
    obtain ⟨m', e, hnext, hfail⟩ := add_ok debug h hs item time
    exact ⟨m', _, _, by rw [call, e]; rfl, rfl, hnext, fun hf => hfail (failed_code hf)⟩
  | update itemId time =>
    obtain ⟨m', e, hnext, hfail⟩ := update_ok debug hD h hs itemId time
    exact ⟨m', _, _, by rw [call, e]; rfl, rfl, hnext, fun hf => hfail (failed_code hf)⟩
  | addOrUpdate item time =>
    have hsome := h.find_isSome (getId item)
    by_cases hin : (s.find (getId item)).isSome
    · obtain ⟨m', e, hnext, hfail⟩ := update_ok debug hD h hs (getId item) time
      refine ⟨m', _, _, by rw [call, addOrUpdate, if_pos (hsome ▸ hin), e]; rfl, ?_, hnext,
        fun hf => hfail (failed_code hf)⟩
      show _ = Prod.map _ _ (if _ then _ else _)
      rw [if_pos hin]
      rfl
    · obtain ⟨m', e, hnext, hfail⟩ := add_ok debug h hs item time
      refine ⟨m', _, _, by rw [call, addOrUpdate, if_neg (hsome ▸ hin), e]; rfl, ?_, hnext,
        fun hf => hfail (failed_code hf)⟩
      show _ = Prod.map _ _ (if _ then _ else _)
      rw [if_neg hin]
      rfl
  | erase itemId =>
    obtain ⟨m', e, hnext⟩ := erase_ok debug hD h hs itemId
    exact ⟨m', .done, _, by rw [call, e]; rfl, rfl, hnext, fun hf => nomatch hf⟩
  | getExpiredItem timeBar =>
    rcases getExpiredItem_ok debug hD h hs timeBar with ⟨e, hlate⟩ | ⟨m', item, e, hexp, hnext⟩
    · exact ⟨m, .item none, s, by rw [call, e]; rfl, .inl ⟨rfl, rfl, hlate⟩, h.same hs, fun _ => rfl⟩
    · exact ⟨m', .item (some item), _, by rw [call, e]; rfl, .inr ⟨item, rfl, hexp, rfl⟩, hnext,
        fun hf => nomatch hf⟩

omit [DecidableEq K] in
theorem make_holds {cap : Nat} (hcap : cap < 2 ^ 64) :
    Holds getId (make cap : TemporalOrderedItemMap2 K T) ItemStore.empty where
  size_le := Nat.zero_le _
  bound := by simpa [make] using hcap
  placed i n hn := by
    obtain ⟨k, hk, rfl⟩ : ∃ k, (List.range cap)[i]? = some k ∧ (⟨0, k, none⟩ : HeapNode2 T) = n := by
      simpa [make] using hn
    obtain ⟨hi, rfl⟩ := List.getElem?_eq_some_iff.1 hk
    rw [List.length_range] at hi
    show (List.range cap)[_]? = _
    simp [hi]
  held n hn := by
    obtain ⟨i, hi, -⟩ := mem_live.1 hn
    exact absurd hi (Nat.not_lt_zero i)
  lookup _ _ hk := nomatch hk
  absent _ _ := rfl
  card := Finset.card_empty

omit [DecidableEq K] in
theorem make_sorted (cap : Nat) : Sorted D (make cap : TemporalOrderedItemMap2 K T) := by
  intro i _
  exact timeAt_last _ _ (Nat.zero_le i)

theorem refines (getId : T → K) (hD : 0 < D) {cap : Nat} (hcap : cap < 2 ^ 64) :
    Refines (make cap : TemporalOrderedItemMap2 K T) (call debug getId D) cap getId
      (Represents D getId) := by
  refine refines_of_call (fun m s => Holds getId m s ∧ Sorted D m ∧ m.capacity = cap)
    ⟨make_holds hcap, make_sorted cap, by simp [make, capacity]⟩
    (fun m s h => h.1.represents h.2.1) fun m s c h => ?_
  obtain ⟨m', a, s', e, hstep, hnext, hfail⟩ := h.1.call_ok debug hD h.2.1 c
  rw [h.2.2] at hstep
  exact ⟨m', a, s', e, hstep, ⟨hnext.holds, hnext.sorted, hnext.cap.trans h.2.2⟩, hfail⟩

end TemporalOrderedItemMap2

theorem TemporalOrderedItemMap.refines [Inhabited T] (debug : Bool) (getId : T → K) {cap : Nat}
    (hcap : cap < 2 ^ 64) :
    Refines (make cap : TemporalOrderedItemMap K T) (call debug getId) cap getId
      (Represents getId) := by
  refine refines_of_call (fun m s => Holds getId m s ∧ m.Sorted ∧ m.capacity = cap)
    ⟨⟨make_inv hcap, fun id x => ?_⟩, make_sorted cap, by simp [make, capacity]⟩
    (fun m s h => h.1.represents h.2.1) fun m s c h => ?_
  · refine iff_of_false ?_ ?_
    · intro hx
      cases hx
    · rintro ⟨hx, -⟩
      cases hx
  · obtain ⟨m', a, s', e, hstep, hnext, hfail⟩ := h.1.call_ok debug h.2.1 c
    rw [h.2.2] at hstep
    exact ⟨m', a, s', e, hstep, ⟨hnext.holds, hnext.sorted, hnext.cap.trans h.2.2⟩, hfail⟩

namespace ItemStore

variable {cap : Nat} {getId : T → K} {s s₁ s₂ : ItemStore K T} {c : Call K T} {a₁ a₂ : Answer T}

theorem Step.store_eq {a : Answer T} (h₁ : s.Step cap getId (c, a) s₁)
    (h₂ : s.Step cap getId (c, a) s₂) : s₁ = s₂ := by
  have hpair : ∀ r : ItemStore K T × Answer T, (s₁, a) = r → (s₂, a) = r → s₁ = s₂ := by
    intro r e₁ e₂
    exact congrArg Prod.fst (e₁.trans e₂.symm)
  cases c with
  | add item time => exact hpair _ h₁ h₂
  | update itemId time => exact hpair _ h₁ h₂
  | addOrUpdate item time => exact hpair _ h₁ h₂
  | erase itemId => exact hpair _ h₁ h₂
  | getExpiredItem timeBar =>
    rcases h₁ with ⟨rfl, rfl, -⟩ | ⟨item₁, rfl, -, rfl⟩
    · rcases h₂ with ⟨-, rfl, -⟩ | ⟨_, e, -⟩
      · rfl
      · cases e
    · rcases h₂ with ⟨e, -⟩ | ⟨_, e, -, rfl⟩
      · cases e
      · cases e
        rfl

end ItemStore

def failures {M : Type} (call : M → Call K T → Except Fault (M × Answer T)) :
    M → List (Call K T) → Except Fault (List Bool)
  | _, [] => .ok []
  | m, c :: calls => do
    let (m, a) ← call m c
    let rest ← failures call m calls
    .ok (a.failed :: rest)

end ExpiryQueue
