import NeuralNetwork.Lib.Loop
import NeuralNetwork.Lib.Run
import NeuralNetwork.MemoryManagement.ImmutableMemoryCache

/-!
# ImmutableMemoryCache never frees referenced memory

`Sound c held`: the counter of a node is the number of the references `held` to it, and the cache has a
node for each of them. Every operation keeps it, with the references that it hands out or takes back. All
of it is lost when `allocate_from_view` throws: the `catch` of `cache_and_acquire_memory` calls
`release_memory`, which locks the mutex that the thread holds (`locks_twice`).
-/

namespace MultiplatformMemoryX

open Loop ImmutableMemoryCache
open ImmutableMemoryCache (acquireMemory autoEvict evictMemory releaseMemory)

variable {peek : List MemoryNode → Option MemoryNode} {c c' : ImmutableMemoryCache}
  {heap : List MemoryNode} {held : List MemoryReference} {key : Nat} {n : MemoryNode}
  {r : MemoryReference}

/-! ## The keyed priority queue -/

theorem getByKey_some (h : getByKey heap key = some n) : n ∈ heap ∧ n.immutableReference = key := by
  refine ⟨List.mem_of_find?_eq_some h, ?_⟩
  simpa using List.find?_some h

theorem getByKey_none (h : getByKey heap key = none) : ∀ n ∈ heap, n.immutableReference ≠ key := by
  intro n hn
  simpa using List.find?_eq_none.1 h n hn

def Keyed (heap : List MemoryNode) : Prop := (heap.map MemoryNode.immutableReference).Nodup

variable {mutator : MemoryNode → MemoryNode} {m : MemoryNode}

theorem Keyed.eq (h : Keyed heap) (hn : n ∈ heap) (hm : m ∈ heap)
    (he : n.immutableReference = m.immutableReference) : n = m :=
  List.inj_on_of_nodup_map h hn hm he

theorem Keyed.getByKey (h : Keyed heap) (hn : n ∈ heap) :
    getByKey heap n.immutableReference = some n := by
  cases hg : MultiplatformMemoryX.getByKey heap n.immutableReference with
  | none => exact absurd rfl (getByKey_none hg n hn)
  | some m =>
    obtain ⟨hm, he⟩ := getByKey_some hg
    rw [h.eq hm hn he]

theorem mem_eraseByKey :
    m ∈ eraseByKey heap key ↔ m ∈ heap ∧ m.immutableReference ≠ key := by
  unfold eraseByKey
  rw [List.mem_filter, decide_eq_true_eq]

theorem Keyed.eraseByKey (h : Keyed heap) (key : Nat) : Keyed (eraseByKey heap key) :=
  h.sublist (List.filter_sublist.map _)

theorem Keyed.sum_eraseByKey (h : Keyed heap) (hn : n ∈ heap) :
    ((MultiplatformMemoryX.eraseByKey heap n.immutableReference).map MemoryNode.deviceMemPtrSz).sum +
      n.deviceMemPtrSz = (heap.map MemoryNode.deviceMemPtrSz).sum := by
  induction heap with
  | nil => exact absurd hn List.not_mem_nil
  | cons m heap ih =>
    have hm := List.nodup_cons.1 h
    rcases List.mem_cons.1 hn with rfl | hn
    · have hrest : MultiplatformMemoryX.eraseByKey heap n.immutableReference = heap := by
        refine List.filter_eq_self.2 fun a ha => decide_eq_true fun he => hm.1 ?_
        exact he ▸ List.mem_map_of_mem ha
      unfold MultiplatformMemoryX.eraseByKey at hrest ⊢
      rw [List.filter_cons_of_neg (by simp), hrest, List.map_cons, List.sum_cons]
      exact Nat.add_comm _ _
    · have hne : m.immutableReference ≠ n.immutableReference := fun he =>
        hm.1 (he ▸ List.mem_map_of_mem hn)
      have := ih hm.2 hn
      unfold MultiplatformMemoryX.eraseByKey at this ⊢
      rw [List.filter_cons_of_pos (by simpa using hne), List.map_cons, List.map_cons, List.sum_cons,
        List.sum_cons, Nat.add_assoc, this]

theorem updateByKey_map {β : Type} (f : MemoryNode → β)
    (hf : ∀ n ∈ heap, n.immutableReference = key → f (mutator n) = f n) :
    (updateByKey heap key mutator).map f = heap.map f := by
  unfold updateByKey
  rw [List.map_map]
  refine List.map_congr_left fun n hn => ?_
  show f (if n.immutableReference = key then mutator n else n) = f n
  by_cases hk : n.immutableReference = key
  · rw [if_pos hk, hf n hn hk]
  · rw [if_neg hk]

theorem mem_updateByKey :
    m ∈ updateByKey heap key mutator ↔
      ∃ n ∈ heap, m = if n.immutableReference = key then mutator n else n := by
  unfold updateByKey
  rw [List.mem_map]
  simp only [eq_comm]

/-! ## The invariant -/

def heldCount (held : List MemoryReference) (key : Nat) : Nat :=
  held.countP (·.internalKey = key)

structure Sound (c : ImmutableMemoryCache) (held : List MemoryReference) : Prop where
  keyed : Keyed c.managementHeap
  counted : ∀ n ∈ c.managementHeap, n.referenceCounter = heldCount held n.immutableReference
  kept : ∀ r ∈ held, ∃ n ∈ c.managementHeap,
    r = ⟨n.deviceMemPtr, n.deviceMemPtrSz, n.immutableReference⟩
  size : c.occupiedMemorySz = (c.managementHeap.map MemoryNode.deviceMemPtrSz).sum
  freed : ∀ n ∈ c.freeVec, n.referenceCounter = 0

def Wanted (c : ImmutableMemoryCache) : Prop :=
  ∀ k ∈ c.wantedEvictionSet, ∃ n ∈ c.managementHeap, n.immutableReference = k ∧ 0 < n.referenceCounter

theorem heldCount_append (held : List MemoryReference) (r : MemoryReference) (key : Nat) :
    heldCount (held ++ [r]) key = heldCount held key + if r.internalKey = key then 1 else 0 := by
  unfold heldCount
  rw [List.countP_append, List.countP_singleton]
  simp

theorem heldCount_erase (hr : r ∈ held) (key : Nat) :
    heldCount (held.erase r) key + (if r.internalKey = key then 1 else 0) = heldCount held key := by
  have hp := (List.perm_cons_erase hr).countP_eq (fun x => decide (x.internalKey = key))
  unfold heldCount
  rw [hp, List.countP_cons]
  simp

theorem Sound.remove (h : Sound c held) (hn : n ∈ c.managementHeap) (h0 : n.referenceCounter = 0) :
    Sound (c.remove n n.deviceMemPtrSz) held where
  keyed := h.keyed.eraseByKey _
  counted m hm := h.counted m (mem_eraseByKey.1 hm).1
  kept r hr := by
    obtain ⟨m, hm, he⟩ := h.kept r hr
    refine ⟨m, mem_eraseByKey.2 ⟨hm, fun hk => ?_⟩, he⟩
    obtain rfl := h.keyed.eq hm hn hk
    rw [h.counted m hm] at h0
    have hpos : 0 < heldCount held m.immutableReference :=
      List.countP_pos_iff.2 ⟨r, hr, by simp [he]⟩
    omega
  size := by
    have := h.keyed.sum_eraseByKey hn
    show c.occupiedMemorySz - n.deviceMemPtrSz = _
    rw [h.size, ← this, Nat.add_sub_cancel]
    rfl
  freed m hm := by
    rcases List.mem_append.1 hm with hm | hm
    · exact h.freed m hm
    · obtain rfl := List.mem_singleton.1 hm
      exact h0

theorem Wanted.remove (hw : Wanted c) (hkeyed : Keyed c.managementHeap) (hn : n ∈ c.managementHeap)
    (h0 : n.referenceCounter = 0) : Wanted (c.remove n n.deviceMemPtrSz) := by
  intro k hk
  obtain ⟨m, hm, he, hpos⟩ := hw k hk
  refine ⟨m, mem_eraseByKey.2 ⟨hm, fun hkey => ?_⟩, he, hpos⟩
  obtain rfl := hkeyed.eq hm hn hkey
  omega

theorem Sound.count (h : Sound c held) {held' : List MemoryReference} (hn : n ∈ c.managementHeap)
    (t counter clock : Nat) (hcount : counter = heldCount held' n.immutableReference)
    (hother : ∀ k, k ≠ n.immutableReference → heldCount held' k = heldCount held k)
    (hkept : ∀ r ∈ held', r ∈ held ∨ r = ⟨n.deviceMemPtr, n.deviceMemPtrSz, n.immutableReference⟩) :
    Sound { c with
      managementHeap := updateByKey c.managementHeap n.immutableReference fun _ =>
        { n with lastUpdated := t, referenceCounter := counter }
      selfPacedClock := clock } held' where
  keyed := by
    show ((updateByKey _ _ _).map MemoryNode.immutableReference).Nodup
    rw [updateByKey_map MemoryNode.immutableReference fun m _ hk => by exact hk.symm]
    exact h.keyed
  counted m hm := by
    obtain ⟨m', hm', rfl⟩ := mem_updateByKey.1 hm
    by_cases hk : m'.immutableReference = n.immutableReference
    · rw [if_pos hk]
      exact hcount
    · rw [if_neg hk, hother _ hk]
      exact h.counted m' hm'
  kept r hr := by
    have hself : r = ⟨n.deviceMemPtr, n.deviceMemPtrSz, n.immutableReference⟩ →
        ∃ m ∈ updateByKey c.managementHeap n.immutableReference fun _ =>
          { n with lastUpdated := t, referenceCounter := counter },
          r = ⟨m.deviceMemPtr, m.deviceMemPtrSz, m.immutableReference⟩ := fun he =>
      ⟨_, mem_updateByKey.2 ⟨n, hn, (if_pos rfl).symm⟩, he⟩
    rcases hkept r hr with hr | he
    · obtain ⟨m, hm, he⟩ := h.kept r hr
      by_cases hk : m.immutableReference = n.immutableReference
      · obtain rfl := h.keyed.eq hm hn hk
        exact hself he
      · exact ⟨m, mem_updateByKey.2 ⟨m, hm, (if_neg hk).symm⟩, he⟩
    · exact hself he
  size := by
    rw [h.size, updateByKey_map MemoryNode.deviceMemPtrSz]
    intro m hm hk
    rw [h.keyed.eq hm hn hk]
  freed := h.freed

theorem Keyed.updateByKey_eq (h : Keyed heap) (hn : n ∈ heap) (mutator : MemoryNode → MemoryNode) :
    updateByKey heap n.immutableReference mutator =
      updateByKey heap n.immutableReference fun _ => mutator n := by
  refine List.map_congr_left fun m hm => ?_
  by_cases hk : m.immutableReference = n.immutableReference
  · rw [h.eq hm hn hk]
  · rw [if_neg hk, if_neg hk]

/-! ## One element of a batch -/

theorem acquireMemoryOne_ok (h : Sound c held) (hw : Wanted c) {ref : Nat} (hne : ref ≠ 0) :
    ∃ c' rs, c.acquireMemoryOne ref = .ok (c', rs) ∧ Sound c' (held ++ rs.toList) ∧ Wanted c' ∧
      (rs = none → c' = c ∧ ∀ n ∈ c.managementHeap, n.immutableReference ≠ ref) := by
  unfold acquireMemoryOne
  rw [if_neg hne]
  cases hg : getByKey c.managementHeap ref with
  | none =>
    refine ⟨c, none, rfl, ?_, hw, fun _ => ⟨rfl, getByKey_none hg⟩⟩
    rw [Option.toList_none, List.append_nil]
    exact h
  | some n =>
    obtain ⟨hn, rfl⟩ := getByKey_some hg
    rw [h.keyed.updateByKey_eq hn]
    refine ⟨_, _, rfl, ?_, fun k hk => ?_, fun he => nomatch he⟩
    · rw [Option.toList_some]
      refine h.count hn _ _ _ ?_ (fun k hk => ?_) fun r hr => ?_
      · rw [heldCount_append, if_pos rfl, h.counted n hn]
      · rw [heldCount_append, if_neg hk.symm, Nat.add_zero]
      · rcases List.mem_append.1 hr with hr | hr
        · exact .inl hr
        · exact .inr (List.mem_singleton.1 hr)
    · obtain ⟨m, hm, he, hpos⟩ := hw k hk
      by_cases hkey : m.immutableReference = n.immutableReference
      · exact ⟨_, mem_updateByKey.2 ⟨n, hn, (if_pos rfl).symm⟩, hkey ▸ he, Nat.succ_pos _⟩
      · exact ⟨m, mem_updateByKey.2 ⟨m, hm, (if_neg hkey).symm⟩, he, hpos⟩

/-- **auto_evict ends below the threshold or with nodes that are referenced.** What it keeps when a node
that is not referenced leaves the cache, it keeps. -/
theorem autoEvict_rule (hpeek : IsPeek peek) (P : ImmutableMemoryCache → Prop)
    (hstep : ∀ c n, P c → n ∈ c.managementHeap → n.referenceCounter = 0 → P (c.remove n n.deviceMemPtrSz))
    (h : P c) {fuel : Nat} (hfuel : c.managementHeap.length < fuel) :
    ∃ c', autoEvict peek fuel c = .ok c' ∧ P c' ∧
      c'.managementHeap ⊆ c.managementHeap ∧
      (c'.occupiedMemorySz < c'.autoEvictMemoryThreshold ∨
        ∀ n ∈ c'.managementHeap, 0 < n.referenceCounter) := by
  induction fuel generalizing c with
  | zero => omega
  | succ fuel ih =>
    unfold autoEvict
    by_cases hlt : c.occupiedMemorySz < c.autoEvictMemoryThreshold
    · rw [if_pos hlt]
      exact ⟨c, rfl, h, List.Subset.refl _, .inl hlt⟩
    · rw [if_neg hlt]
      cases hp : peek c.managementHeap with
      | none =>
        refine ⟨c, rfl, h, List.Subset.refl _, .inr ?_⟩
        rw [hpeek.none hp]
        exact fun n hn => absurd hn List.not_mem_nil
      | some n =>
        dsimp only
        by_cases h0 : n.referenceCounter = 0
        · rw [if_neg (not_not.2 h0)]
          have hn := hpeek.mem hp
          have hlen : (c.remove n n.deviceMemPtrSz).managementHeap.length < c.managementHeap.length := by
            refine List.length_filter_lt_length_iff_exists.2 ⟨n, hn, ?_⟩
            simp
          obtain ⟨c', e, h', hsub, hend⟩ := ih (hstep c n h hn h0) (by omega)
          exact ⟨c', e, h', fun m hm => (mem_eraseByKey.1 (hsub hm)).1, hend⟩
        · rw [if_pos h0]
          refine ⟨c, rfl, h, List.Subset.refl _, .inr fun m hm => ?_⟩
          have hbest := hpeek.best hp m hm
          unfold memoryNodeComparator at hbest
          by_contra hm0
          have h1 : ¬ n.referenceCounter < m.referenceCounter := by omega
          have h2 : n.referenceCounter > m.referenceCounter := by omega
          rw [if_neg h1, if_pos h2] at hbest
          cases hbest

theorem autoEvict_ok (hpeek : IsPeek peek) (h : Sound c held) (hw : Wanted c) :
    ∃ c', autoEvict peek (c.managementHeap.length + 1) c = .ok c' ∧
      Sound c' held ∧ Wanted c' ∧ c'.managementHeap ⊆ c.managementHeap := by
  obtain ⟨c', e, ⟨h', hw'⟩, hsub, -⟩ := autoEvict_rule hpeek (fun c => Sound c held ∧ Wanted c)
    (fun c n h hn h0 => ⟨h.1.remove hn h0, h.2.remove h.1.keyed hn h0⟩) ⟨h, hw⟩ (Nat.lt_succ_self _)
  exact ⟨c', e, h', hw', hsub⟩

theorem evictIfFull_ok (hpeek : IsPeek peek) (h : Sound c held) (hw : Wanted c) :
    ∃ c', c.evictIfFull peek = .ok c' ∧ Sound c' held ∧ Wanted c' ∧
      c'.managementHeap ⊆ c.managementHeap := by
  unfold evictIfFull
  by_cases hge : c.occupiedMemorySz ≥ c.autoEvictMemoryThreshold
  · rw [if_pos hge]
    exact autoEvict_ok hpeek h hw
  · rw [if_neg hge]
    exact ⟨c, rfl, h, hw, List.Subset.refl _⟩

theorem Sound.push (h : Sound c held) (hnew : ∀ m ∈ c.managementHeap, m.immutableReference ≠ key)
    (ptr sz clock : Nat) : Sound (c.push ⟨key, ptr, sz, clock, 1⟩) (held ++ [⟨ptr, sz, key⟩]) where
  keyed := by
    show ((c.managementHeap ++ [_]).map MemoryNode.immutableReference).Nodup
    rw [List.map_append, List.nodup_append]
    refine ⟨h.keyed, List.nodup_singleton _, fun a ha b hb => ?_⟩
    obtain ⟨m, hm, rfl⟩ := List.mem_map.1 ha
    obtain rfl := List.mem_singleton.1 hb
    exact hnew m hm
  counted m hm := by
    rw [heldCount_append]
    rcases List.mem_append.1 hm with hm | hm
    · rw [if_neg (hnew m hm).symm]
      exact h.counted m hm
    · obtain rfl := List.mem_singleton.1 hm
      have h0 : heldCount held key = 0 := by
        refine List.countP_eq_zero.2 fun r hr => ?_
        obtain ⟨m, hm, rfl⟩ := h.kept r hr
        simpa using hnew m hm
      rw [if_pos rfl, h0]
  kept r hr := by
    rcases List.mem_append.1 hr with hr | hr
    · obtain ⟨m, hm, he⟩ := h.kept r hr
      exact ⟨m, List.mem_append_left _ hm, he⟩
    · obtain rfl := List.mem_singleton.1 hr
      exact ⟨_, List.mem_append_right _ (List.mem_singleton_self _), rfl⟩
  size := by
    show c.occupiedMemorySz + sz = ((c.managementHeap ++ [_]).map MemoryNode.deviceMemPtrSz).sum
    rw [List.map_append, List.sum_append, h.size]
    rfl
  freed := h.freed

theorem Wanted.push (hw : Wanted c) (n : MemoryNode) : Wanted (c.push n) := by
  intro k hk
  obtain ⟨m, hm, hrest⟩ := hw k hk
  exact ⟨m, List.mem_append_left _ hm, hrest⟩

theorem cacheAndAcquireMemoryOne_ok (hpeek : IsPeek peek) (h : Sound c held) (hw : Wanted c)
    {arg : CacheAndAcquireArgument} (hne : arg.immutableReference ≠ 0) (ha : arg.allocation ≠ none) :
    ∃ c' rs, c.cacheAndAcquireMemoryOne peek arg = .ok (c', some rs) ∧ Sound c' (held ++ [rs]) ∧
      Wanted c' := by
  obtain ⟨c1, rs, e1, h1, hw1, hnone⟩ := acquireMemoryOne_ok h hw hne
  unfold cacheAndAcquireMemoryOne
  rw [e1, ok_bind]
  cases rs with
  | some rs => exact ⟨c1, rs, rfl, h1, hw1⟩
  | none =>
    obtain ⟨rfl, hnew⟩ := hnone rfl
    rw [Option.toList_none, List.append_nil] at h1
    obtain ⟨c2, e2, h2, hw2, hsub⟩ := evictIfFull_ok hpeek h1 hw1
    dsimp only
    rw [e2, ok_bind]
    cases hal : arg.allocation with
    | none => exact absurd hal ha
    | some ptr =>
      exact ⟨_, _, rfl, h2.push (fun m hm => hnew m (hsub hm)) ptr _ _, hw2.push _⟩

theorem Wanted.unwant (hw : ∀ k ∈ c.wantedEvictionSet, k ≠ n.immutableReference →
      ∃ m ∈ c.managementHeap, m.immutableReference = k ∧ 0 < m.referenceCounter) (sz : Nat) :
    Wanted ((c.remove n sz).unwant n.immutableReference) := by
  intro k hk
  obtain ⟨hk, hne⟩ := List.mem_filter.1 hk
  obtain ⟨m, hm, he, hpos⟩ := hw k hk (of_decide_eq_true hne)
  exact ⟨m, mem_eraseByKey.2 ⟨hm, he ▸ of_decide_eq_true hne⟩, he, hpos⟩

theorem releaseMemoryOne_ok (h : Sound c held) (hw : Wanted c) (hr : r ∈ held) :
    ∃ c', c.releaseMemoryOne r = .ok c' ∧ Sound c' (held.erase r) ∧ Wanted c' := by
  obtain ⟨n, hn, hrn⟩ := h.kept r hr
  have hkey : r.internalKey = n.immutableReference := by rw [hrn]
  have hsz : r.ptrMemSz = n.deviceMemPtrSz := by rw [hrn]
  have hcount := heldCount_erase hr n.immutableReference
  rw [if_pos hkey, ← h.counted n hn] at hcount
  obtain ⟨n', hn'⟩ : ∃ n' : MemoryNode, n' = { n with referenceCounter := n.referenceCounter - 1 } :=
    ⟨_, rfl⟩
  obtain ⟨c1, hc1⟩ : ∃ c1 : ImmutableMemoryCache, c1 = { c with
      managementHeap := updateByKey c.managementHeap n.immutableReference fun _ => n' } := ⟨_, rfl⟩
  have e : c.releaseMemoryOne r =
      if n'.referenceCounter = 0 ∧ n.immutableReference ∈ c.wantedEvictionSet then
        .ok ((c1.remove n' n.deviceMemPtrSz).unwant n.immutableReference)
      else .ok c1 := by
    rw [hc1, hn']
    unfold releaseMemoryOne
    rw [hkey, hsz, h.keyed.getByKey hn]
    dsimp only
    rw [if_neg (by omega)]
  have hkey' : n'.immutableReference = n.immutableReference := by rw [hn']
  have hmem : n' ∈ c1.managementHeap := by
    rw [hc1]
    exact mem_updateByKey.2 ⟨n, hn, (if_pos rfl).symm⟩
  have h1 : Sound c1 (held.erase r) := by
    rw [hc1, hn']
    refine h.count hn n.lastUpdated (n.referenceCounter - 1) c.selfPacedClock (by omega)
      (fun k hk => ?_) fun a ha => .inl (List.mem_of_mem_erase ha)
    have := heldCount_erase hr k
    rw [if_neg (by rw [hkey]; exact hk.symm)] at this
    exact this
  have hother : ∀ k ∈ c1.wantedEvictionSet, k ≠ n.immutableReference →
      ∃ m ∈ c1.managementHeap, m.immutableReference = k ∧ 0 < m.referenceCounter := by
    rw [hc1]
    intro k hk hne
    obtain ⟨m, hm, he, hpos⟩ := hw k hk
    exact ⟨m, mem_updateByKey.2 ⟨m, hm, (if_neg (he ▸ hne)).symm⟩, he, hpos⟩
  have hset : c1.wantedEvictionSet = c.wantedEvictionSet := by rw [hc1]
  rw [e]
  by_cases hlast : n'.referenceCounter = 0 ∧ n.immutableReference ∈ c.wantedEvictionSet
  · rw [if_pos hlast]
    have h2 := h1.remove hmem hlast.1
    have hsz' : n'.deviceMemPtrSz = n.deviceMemPtrSz := by rw [hn']
    rw [hsz'] at h2
    refine ⟨_, rfl, ⟨h2.keyed, h2.counted, h2.kept, h2.size, h2.freed⟩, ?_⟩
    rw [← hkey']
    exact Wanted.unwant (hkey' ▸ hother) _
  · rw [if_neg hlast]
    refine ⟨c1, rfl, h1, fun k hk => ?_⟩
    by_cases hne : k = n.immutableReference
    · have hpos : n'.referenceCounter ≠ 0 := fun h0 => hlast ⟨h0, hne ▸ hset ▸ hk⟩
      exact ⟨n', hmem, hkey'.trans hne.symm, Nat.pos_of_ne_zero hpos⟩
    · exact hother k hk hne

theorem evictMemoryOne_ok (h : Sound c held) (hw : Wanted c) (ref : Nat) :
    Sound (c.evictMemoryOne ref) held ∧ Wanted (c.evictMemoryOne ref) := by
  unfold evictMemoryOne
  cases hg : getByKey c.managementHeap ref with
  | none => exact ⟨h, hw⟩
  | some n =>
    obtain ⟨hn, rfl⟩ := getByKey_some hg
    dsimp only
    by_cases h0 : n.referenceCounter = 0
    · rw [if_pos h0]
      exact ⟨h.remove hn h0, hw.remove h.keyed hn h0⟩
    · rw [if_neg h0]
      refine ⟨⟨h.keyed, h.counted, h.kept, h.size, h.freed⟩, fun k hk => ?_⟩
      rcases List.mem_insert_iff.1 hk with rfl | hk
      · exact ⟨n, hn, rfl, Nat.pos_of_ne_zero h0⟩
      · exact hw k hk

/-! ## Batches -/

theorem acquireFold_ok (h : Sound c held) (hw : Wanted c) (outputArr : List (Option MemoryReference))
    {arr : List Nat} (hne : 0 ∉ arr) :
    ∃ c' rs, arr.foldlM (fun (c, outputArr) immutableReference => do
        let (c, rs) ← c.acquireMemoryOne immutableReference
        .ok (c, outputArr ++ [rs])) (c, outputArr) = .ok (c', outputArr ++ rs) ∧
      Sound c' (held ++ rs.filterMap id) ∧ Wanted c' := by
  induction arr generalizing c held outputArr with
  | nil => exact ⟨c, [], by simp [pure, Except.pure], by simpa using h, hw⟩
  | cons ref arr ih =>
    obtain ⟨h0, hrest⟩ := not_or.1 (mt List.mem_cons.2 hne)
    obtain ⟨c1, rs1, e1, h1, hw1, -⟩ := acquireMemoryOne_ok h hw (Ne.symm h0)
    obtain ⟨c2, rs, e2, h2, hw2⟩ := ih h1 hw1 (outputArr ++ [rs1]) hrest
    refine ⟨c2, rs1 :: rs, ?_, ?_, hw2⟩
    · rw [List.foldlM_cons]
      dsimp only
      rw [e1, ok_bind]
      rw [ok_bind, e2, List.append_assoc]
      rfl
    · have hfilter : (rs1 :: rs).filterMap id = rs1.toList ++ rs.filterMap id := by
        cases rs1 <;> rfl
      rw [hfilter, ← List.append_assoc]
      exact h2

theorem cacheAndAcquireLoop_ok (hpeek : IsPeek peek) (h : Sound c held) (hw : Wanted c)
    (resultArr : List MemoryReference) {arr : List CacheAndAcquireArgument}
    (hne : ∀ arg ∈ arr, arg.immutableReference ≠ 0) (ha : ∀ arg ∈ arr, arg.allocation ≠ none) :
    ∃ c' rs, cacheAndAcquireLoop peek c resultArr arr =
        .ok (c', some (resultArr ++ rs)) ∧ Sound c' (held ++ rs) ∧ Wanted c' := by
  induction arr generalizing c held resultArr with
  | nil => exact ⟨c, [], by simp [cacheAndAcquireLoop], by simpa using h, hw⟩
  | cons arg arr ih =>
    obtain ⟨c1, rs1, e1, h1, hw1⟩ := cacheAndAcquireMemoryOne_ok hpeek h hw
      (hne arg List.mem_cons_self) (ha arg List.mem_cons_self)
    obtain ⟨c2, rs, e2, h2, hw2⟩ := ih h1 hw1 (resultArr ++ [rs1])
      (fun a hm => hne a (List.mem_cons_of_mem _ hm)) fun a hm => ha a (List.mem_cons_of_mem _ hm)
    refine ⟨c2, rs1 :: rs, ?_, ?_, hw2⟩
    · unfold cacheAndAcquireLoop
      rw [e1, ok_bind]
      dsimp only
      rw [e2, List.append_assoc]
      rfl
    · rw [List.append_cons]
      exact h2

theorem releaseFold_ok (h : Sound c held) (hw : Wanted c) {arr : List MemoryReference}
    (hsub : arr.Subperm held) :
    ∃ c', arr.foldlM releaseMemoryOne c = .ok c' ∧ Sound c' (held.diff arr) ∧
      Wanted c' := by
  induction arr generalizing c held with
  | nil => exact ⟨c, rfl, h, hw⟩
  | cons r arr ih =>
    have hr : r ∈ held := hsub.subset List.mem_cons_self
    obtain ⟨c1, e1, h1, hw1⟩ := releaseMemoryOne_ok h hw hr
    have hsub' : arr.Subperm (held.erase r) := by
      have := hsub.erase r
      rwa [List.erase_cons_head] at this
    obtain ⟨c2, e2, h2, hw2⟩ := ih h1 hw1 hsub'
    refine ⟨c2, ?_, ?_, hw2⟩
    · rw [List.foldlM_cons, e1, ok_bind, e2]
    · rw [List.diff_cons]
      exact h2

theorem evictFold_ok (h : Sound c held) (hw : Wanted c) (arr : List Nat) :
    Sound (arr.foldl evictMemoryOne c) held ∧
      Wanted (arr.foldl evictMemoryOne c) := by
  induction arr generalizing c with
  | nil => exact ⟨h, hw⟩
  | cons ref arr ih =>
    obtain ⟨h1, hw1⟩ := evictMemoryOne_ok h hw ref
    exact ih h1 hw1

/-! ## Runs -/

def ImmutableMemoryCall.Allocates : ImmutableMemoryCall → Prop
  | .cacheAndAcquireMemory arr => ∀ arg ∈ arr, arg.allocation ≠ none
  | _ => True

theorem Sound.empty (threshold : Nat) : Sound (ImmutableMemoryCache.empty threshold) [] where
  keyed := List.nodup_nil
  counted _ hn := absurd hn List.not_mem_nil
  kept _ hr := absurd hr List.not_mem_nil
  size := rfl
  freed _ hn := absurd hn List.not_mem_nil

theorem apply_ok (hpeek : IsPeek peek) {w : ReferenceWorld} (h : Sound w.cache w.handedOut)
    (hw : Wanted w.cache) {call : ImmutableMemoryCall} (hc : w.Allowed call) (ha : call.Allocates) :
    ∃ w', w.apply peek call = .ok w' ∧ Sound w'.cache w'.handedOut ∧ Wanted w'.cache := by
  unfold ReferenceWorld.apply
  cases call with
  | acquireMemory arr =>
    obtain ⟨c', rs, e, h', hw'⟩ := acquireFold_ok h hw [] hc.2
    dsimp only
    unfold acquireMemory
    rw [if_neg (Nat.not_lt.2 hc.1), e]
    exact ⟨_, rfl, h', hw'⟩
  | cacheAndAcquireMemory arr =>
    obtain ⟨c', rs, e, h', hw'⟩ := cacheAndAcquireLoop_ok hpeek h hw [] hc.2 ha
    dsimp only
    unfold ImmutableMemoryCache.cacheAndAcquireMemory
    rw [if_neg (Nat.not_lt.2 hc.1), e]
    exact ⟨_, rfl, h', hw'⟩
  | releaseMemory arr =>
    obtain ⟨c1, e1, h1, hw1⟩ := releaseFold_ok h hw hc.2
    obtain ⟨c2, e2, h2, hw2, -⟩ := autoEvict_ok hpeek h1 hw1
    dsimp only
    unfold releaseMemory
    rw [if_neg (Nat.not_lt.2 hc.1), if_neg Bool.false_ne_true, e1, ok_bind, e2]
    exact ⟨_, rfl, h2, hw2⟩
  | evictMemory arr =>
    obtain ⟨h', hw'⟩ := evictFold_ok h hw arr
    dsimp only
    unfold evictMemory
    rw [if_neg (Nat.not_lt.2 hc)]
    exact ⟨_, rfl, h', hw'⟩

/-- **Without a failing allocation no referenced memory is freed.** In every run whose batches are allowed
and in which no `allocate_from_view` throws: the counter of a node is the number of the references to it, and
each reference has its node; nodes were removed only with counter 0; every further call of this kind
returns. Wherever `auto_evict` is called it ends below the threshold or with referenced nodes. -/
theorem cache_sound (hpeek : IsPeek peek) {threshold : Nat} {w : ReferenceWorld}
    {calls : List ImmutableMemoryCall}
    (hrun : Run.Reach (· = ReferenceWorld.empty threshold)
      (fun w call w' => w.apply peek call = .ok w' ∧ w.Allowed call ∧ call.Allocates) w calls) :
    (∀ n ∈ w.cache.managementHeap,
      n.referenceCounter = w.handedOut.countP (·.internalKey = n.immutableReference)) ∧
    (∀ r ∈ w.handedOut, ∃ n ∈ w.cache.managementHeap, 0 < n.referenceCounter ∧
      r = ⟨n.deviceMemPtr, n.deviceMemPtrSz, n.immutableReference⟩) ∧
    w.cache.occupiedMemorySz = (w.cache.managementHeap.map MemoryNode.deviceMemPtrSz).sum ∧
    (∀ n ∈ w.cache.freeVec, n.referenceCounter = 0) ∧
    (∀ k ∈ w.cache.wantedEvictionSet, ∃ n ∈ w.cache.managementHeap,
      n.immutableReference = k ∧ 0 < n.referenceCounter) ∧
    (∀ call, w.Allowed call → call.Allocates → ∃ w', w.apply peek call = .ok w') ∧
    ∀ c : ImmutableMemoryCache, ∃ c',
      autoEvict peek (c.managementHeap.length + 1) c = .ok c' ∧
      (c'.occupiedMemorySz < c'.autoEvictMemoryThreshold ∨
        ∀ n ∈ c'.managementHeap, 0 < n.referenceCounter) := by
  have hinv : Sound w.cache w.handedOut ∧ Wanted w.cache := by
    refine hrun.inv (fun w _ => Sound w.cache w.handedOut ∧ Wanted w.cache) ?_ ?_
    · rintro _ rfl
      exact ⟨.empty threshold, fun k hk => absurd hk List.not_mem_nil⟩
    · rintro w _ call w' ⟨h, hw⟩ ⟨e, hc, ha⟩
      obtain ⟨w1, e1, h1, hw1⟩ := apply_ok hpeek h hw hc ha
      rw [e] at e1
      cases e1
      exact ⟨h1, hw1⟩
  obtain ⟨h, hw⟩ := hinv
  refine ⟨h.counted, fun r hr => ?_, h.size, h.freed, hw, fun call hc ha => ?_, ?_⟩
  · obtain ⟨n, hn, he⟩ := h.kept r hr
    refine ⟨n, hn, ?_, he⟩
    rw [h.counted n hn]
    exact List.countP_pos_iff.2 ⟨r, hr, by simp [he]⟩
  · obtain ⟨w', e, -⟩ := apply_ok hpeek h hw hc ha
    exact ⟨w', e⟩
  · intro c
    obtain ⟨c', e, -, -, hend⟩ := autoEvict_rule hpeek (fun _ => True) (fun _ _ _ _ _ => True.intro)
      (c := c) True.intro (Nat.lt_succ_self _)
    exact ⟨c', e, hend⟩

/-! ## A scan for the best node -/

def firstBest : List MemoryNode → Option MemoryNode
  | [] => none
  | n :: heap =>
    match firstBest heap with
    | none => some n
    | some m => if memoryNodeComparator n m then some n else some m

theorem memoryNodeComparator_iff {n m : MemoryNode} : memoryNodeComparator n m = true ↔
    n.referenceCounter < m.referenceCounter ∨
      (n.referenceCounter = m.referenceCounter ∧ n.lastUpdated ≤ m.lastUpdated) := by
  unfold memoryNodeComparator
  split
  · simp
    omega
  · split
    · simp
      omega
    · split
      · simp
        omega
      · split
        · simp
          omega
        · simp
          omega

theorem firstBest_isPeek : IsPeek firstBest := by
  have hspec : ∀ heap, (firstBest heap = none → heap = []) ∧ ∀ n, firstBest heap = some n →
      n ∈ heap ∧ ∀ m ∈ heap, memoryNodeComparator n m = true := by
    intro heap
    induction heap with
    | nil => exact ⟨fun _ => rfl, fun n he => nomatch he⟩
    | cons n heap ih =>
      have hself : memoryNodeComparator n n = true :=
        memoryNodeComparator_iff.2 (.inr ⟨rfl, Nat.le_refl _⟩)
      unfold firstBest
      cases hb : firstBest heap with
      | none =>
        refine ⟨fun he => (nomatch he), fun m he => ?_⟩
        obtain rfl := Option.some.inj he
        rw [ih.1 hb]
        exact ⟨List.mem_singleton_self _, fun a ha => List.mem_singleton.1 ha ▸ hself⟩
      | some b =>
        obtain ⟨hmem, hbest⟩ := ih.2 b hb
        dsimp only
        by_cases hc : memoryNodeComparator n b = true
        · rw [if_pos hc]
          refine ⟨fun he => (nomatch he), fun m he => ?_⟩
          obtain rfl := Option.some.inj he
          refine ⟨List.mem_cons_self, fun a ha => ?_⟩
          rcases List.mem_cons.1 ha with rfl | ha
          · exact hself
          · have hba := memoryNodeComparator_iff.1 (hbest a ha)
            rw [memoryNodeComparator_iff] at hc ⊢
            omega
        · rw [if_neg hc]
          refine ⟨fun he => (nomatch he), fun m he => ?_⟩
          obtain rfl := Option.some.inj he
          refine ⟨List.mem_cons_of_mem _ hmem, fun a ha => ?_⟩
          rcases List.mem_cons.1 ha with rfl | ha
          · rw [memoryNodeComparator_iff] at hc ⊢
            omega
          · exact hbest a ha
  exact ⟨fun h => ((hspec _).2 _ h).1, fun h => ((hspec _).2 _ h).2, fun h => (hspec _).1 h⟩

/-- A node that is to be evicted leaves the cache with its last reference. -/
theorem cache_sound_run : ∃ w : ReferenceWorld, w.cache.managementHeap = [] ∧
    w.cache.occupiedMemorySz = 0 ∧ w.cache.freeVec.map MemoryNode.deviceMemPtr = [100] ∧
    ∀ n ∈ w.cache.freeVec, n.referenceCounter = 0 := by
  have hinit : Run.Reach (· = ReferenceWorld.empty 10)
      (fun w call w' => w.apply firstBest call = .ok w' ∧ w.Allowed call ∧ call.Allocates)
      (.empty 10) [] := .init rfl
  have h1 := hinit.step (a := ImmutableMemoryCall.cacheAndAcquireMemory [⟨1, 8, some 100⟩])
    ⟨rfl, ⟨by decide, by simp⟩, by simp [ImmutableMemoryCall.Allocates]⟩
  have h2 := h1.step (a := ImmutableMemoryCall.evictMemory [1]) ⟨rfl, Nat.le_of_ble_eq_true rfl, True.intro⟩
  have h3 := h2.step (a := ImmutableMemoryCall.releaseMemory [⟨100, 8, 1⟩])
    ⟨rfl, ⟨Nat.le_of_ble_eq_true rfl, List.Subperm.refl _⟩, True.intro⟩
  obtain ⟨-, -, -, hfreed, -⟩ := cache_sound firstBest_isPeek h3
  exact ⟨_, rfl, rfl, rfl, hfreed⟩

/-- An allocation fails, and the thread locks the mutex twice. -/
theorem locks_twice :
    (ReferenceWorld.empty 10).Allowed
        (.cacheAndAcquireMemory [⟨1, 8, none⟩]) ∧
    (ReferenceWorld.empty 10).apply firstBest
        (.cacheAndAcquireMemory [⟨1, 8, none⟩]) = .error .deadlock :=
  ⟨⟨by decide, by simp⟩, rfl⟩

end MultiplatformMemoryX
