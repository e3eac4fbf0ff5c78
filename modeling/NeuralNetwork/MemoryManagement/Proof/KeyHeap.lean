import NeuralNetwork.Lib.ListUpdate
import NeuralNetwork.MemoryManagement.KeyHeap

/-!
# KeyHeap keeps the last value of each key

`Refines T h s`: the heap `h` holds the values of the store `s`, every node knows its place, and the
lookup map leads to it. Every call keeps it.
The order is another matter: a sift up compares the place `i` with `i / D`, a sift down with the places
whose parent is `(i - 1) / D`. The two are one place unless `D` divides `i`, so the heap stays in order
in a run where what rises past such places finds itself in order there all the same (`Rises`,
`InOrder`, `keyed_priority_queue`).
-/

namespace MultiplatformMemoryX

open Cpp Loop DaryTree DaryHeap

variable {K V : Type} {T : Traits K V}

def Traits.IsPreorder (T : Traits K V) : Prop := TotalPreorder fun a b => T.comparator a b = true

def Traits.rel (T : Traits K V) (a b : Option V) : Prop := T.noWorse a b = true

instance : DecidableRel T.rel := fun a b => inferInstanceAs (Decidable (T.noWorse a b = true))

theorem Traits.rel_eq : T.rel = orLast fun a b => T.comparator a b = true := by
  funext a b
  cases b with
  | none => cases a <;> simp [Traits.rel, Traits.noWorse, DaryHeap.noWorse]
  | some b => cases a <;> simp [Traits.rel, Traits.noWorse, DaryHeap.noWorse, orLast]

theorem Traits.IsPreorder.rel (h : T.IsPreorder) : TotalPreorder T.rel := Traits.rel_eq ▸ h.orLast

theorem Traits.IsPreorder.decides (h : T.IsPreorder) : Decides T.noWorse T.rel := by
  rw [Traits.rel_eq]
  exact (TotalPreorder.decides h).noWorse

@[simp] theorem Traits.rel_none (a : Option V) : T.rel a none := by
  cases a <;> rfl

theorem Traits.IsPreorder.of_not_rel (h : T.IsPreorder) {a b : Option V} (hn : ¬ T.rel a b) : T.rel b a :=
  (h.rel.total a b).resolve_left hn

namespace KeyHeap

variable {h h' : KeyHeap K V} {s : Store K V} {i j idx fuel : Nat} {n : HeapNode V}

structure Refines (T : Traits K V) (h : KeyHeap K V) (s : Store K V) : Prop where
  placed : ∀ (i : Nat) (n : HeapNode V), h.heapVec[i]? = some n → h.index n.heapIdx = i
  kept : ∀ n ∈ h.heapVec, s (T.keyExtractor n.value) = some n.value
  mapped : ∀ n ∈ h.heapVec, h.reverseLookupMap (T.keyExtractor n.value) = some n.heapIdx
  lookup : ∀ k a, h.reverseLookupMap k = some a →
    ∃ n ∈ h.heapVec, T.keyExtractor n.value = k ∧ n.heapIdx = a
  held : ∀ k v, s k = some v → ∃ n ∈ h.heapVec, n.value = v ∧ T.keyExtractor v = k
  fresh : ∀ n ∈ h.heapVec, n.heapIdx < h.nextAddr

structure Moved (T : Traits K V) (s : Store K V) (h h' : KeyHeap K V) : Prop where
  refines : Refines T h' s
  length : h'.heapVec.length = h.heapVec.length
  map : h'.reverseLookupMap = h.reverseLookupMap

theorem Moved.trans {h'' : KeyHeap K V} (h1 : Moved T s h h') (h2 : Moved T s h' h'') :
    Moved T s h h'' :=
  ⟨h2.refines, h2.length.trans h1.length, h2.map.trans h1.map⟩

theorem Refines.moved (hR : Refines T h s) : Moved T s h h := ⟨hR, rfl, rfl⟩

theorem exists_node (hi : i < h.heapVec.length) : ∃ n, h.heapVec[i]? = some n :=
  ⟨_, List.getElem?_eq_getElem hi⟩

theorem valueAt_eq (hn : h.heapVec[i]? = some n) : h.valueAt i = some n.value := by
  unfold valueAt
  rw [hn]
  rfl

theorem valueAt_none (hi : h.heapVec.length ≤ i) : h.valueAt i = none := by
  unfold valueAt
  rw [List.getElem?_eq_none hi]
  rfl

/-! ## Sifting -/

theorem swapNode_ok (hR : Refines T h s) (hi : i < h.heapVec.length) (hj : j < h.heapVec.length) :
    ∃ h', h.swapNode i j = .ok h' ∧ Moved T s h h' ∧ h'.valueAt = swap h.valueAt i j := by
  obtain ⟨l, hl⟩ := exists_node hi
  obtain ⟨r, hr⟩ := exists_node hj
  have hget := ListUpdate.getElem?_swap hl hr
  have e : h.swapNode i j = .ok { h with
      heapVec := (h.heapVec.set i r).set j l
      index := h.swapIndex l.heapIdx r.heapIdx } := by
    unfold swapNode
    rw [hl, hr]
  have hmem : ∀ n, n ∈ (h.heapVec.set i r).set j l ↔ n ∈ h.heapVec := by
    obtain ⟨hil, rfl⟩ := List.getElem?_eq_some_iff.1 hl
    obtain ⟨hjl, rfl⟩ := List.getElem?_eq_some_iff.1 hr
    exact fun n => (List.set_set_perm hil hjl).mem_iff
  refine ⟨_, e, ⟨⟨?_, ?_, ?_, ?_, ?_, ?_⟩, by simp, rfl⟩, ?_⟩
  · intro x n hn
    replace hn : ((h.heapVec.set i r).set j l)[x]? = some n := hn
    show h.swapIndex l.heapIdx r.heapIdx n.heapIdx = x
    have hpl := hR.placed i l hl
    have hpr := hR.placed j r hr
    rw [hget] at hn
    unfold swapIndex
    split at hn
    · next hxj =>
      cases hn
      by_cases ha : l.heapIdx = r.heapIdx
      · rw [if_pos ha, hxj, ← hpr, ha]
      · rw [if_neg ha, if_pos rfl, hpr, hxj]
    · split at hn
      · next hxi =>
        cases hn
        rw [if_pos rfl, hpl, hxi]
      · next hxj hxi =>
        have hpx := hR.placed x n hn
        have ha : n.heapIdx ≠ r.heapIdx := fun ha => hxj (by rw [← hpx, ha, hpr])
        have hb : n.heapIdx ≠ l.heapIdx := fun hb => hxi (by rw [← hpx, hb, hpl])
        rw [if_neg ha, if_neg hb, hpx]
  · exact fun n hn => hR.kept n ((hmem n).1 hn)
  · exact fun n hn => hR.mapped n ((hmem n).1 hn)
  · intro k a hk
    obtain ⟨n, hn, hkey⟩ := hR.lookup k a hk
    exact ⟨n, (hmem n).2 hn, hkey⟩
  · intro k v hk
    obtain ⟨n, hn, hkey⟩ := hR.held k v hk
    exact ⟨n, (hmem n).2 hn, hkey⟩
  · exact fun n hn => hR.fresh n ((hmem n).1 hn)
  · funext x
    unfold valueAt swap
    dsimp only
    rw [hget]
    split
    · rw [hl]
    · split
      · rw [hr]
      · rfl

theorem better_iff : h.better T i j = true ↔ T.rel (h.valueAt i) (h.valueAt j) := Iff.rfl

theorem pushDownAt_ok (hT : T.IsPreorder) (hR : Refines T h s) (hidx : idx < h.heapVec.length)
    (hfuel : h.heapVec.length ≤ idx + fuel) :
    ∃ h', h.pushDownAt T fuel idx = .ok h' ∧ Moved T s h h' ∧
      Down T.rel T.OUT_DEGREE_SZ h.valueAt idx h'.valueAt := by
  induction fuel generalizing h idx with
  | zero => omega
  | succ fuel ih =>
    unfold pushDownAt
    rw [if_neg (Nat.not_le.2 hidx)]
    have hlast : ∀ b i, h.heapVec.length ≤ i → T.rel b (h.valueAt i) := by
      intro b i hi
      rw [valueAt_none hi]
      exact Traits.rel_none b
    rcases bestChild_spec T.out_degree_pos hT.rel hT.decides hlast idx with
      ⟨e, hn⟩ | ⟨c, e, h0, hc, hp, hbest⟩
    · replace e : bestChild (h.better T) T.OUT_DEGREE_SZ h.heapVec.length idx = none := e
      rw [e]
      exact ⟨h, rfl, hR.moved, .stop hn⟩
    · replace e : bestChild (h.better T) T.OUT_DEGREE_SZ h.heapVec.length idx = some c := e
      rw [e]
      dsimp only
      have hgt : idx < c := hp ▸ parent_lt h0
      by_cases hle : T.rel (h.valueAt idx) (h.valueAt c)
      · rw [if_pos (better_iff.2 hle)]
        exact ⟨h, rfl, hR.moved, .stop fun i h0 hp => hT.rel.trans hle (hbest i h0 hp)⟩
      · rw [if_neg (mt better_iff.1 hle)]
        obtain ⟨h1, e1, hm, ht⟩ := swapNode_ok hR hidx hc
        obtain ⟨h2, e2, hm2, hd⟩ := ih hm.refines (hm.length ▸ hc) (by rw [hm.length]; omega)
        refine ⟨h2, ?_, hm.trans hm2, .swap h0 hp (hT.of_not_rel hle) hbest (ht ▸ hd)⟩
        rw [e1, ok_bind, e2]

/-- What the sift up of a value `v` at the place `i` is compared with. -/
def compared (T : Traits K V) (t : Nat → Option V) (v : Option V) (i : Nat) : Option V :=
  if i / T.OUT_DEGREE_SZ = i then v else t (i / T.OUT_DEGREE_SZ)

/-- Where that is not the parent: a value that stops there is no better than the parent, and a value
that comes down instead is no better than the parent either, and no worse than what stood at `i`. -/
def Meets (T : Traits K V) (t : Nat → Option V) (v : Option V) (i : Nat) : Prop :=
  i % T.OUT_DEGREE_SZ = 0 →
    (T.rel (compared T t v i) v → T.rel (t (parent T.OUT_DEGREE_SZ i)) v) ∧
    (¬ T.rel (compared T t v i) v →
      T.rel (t (parent T.OUT_DEGREE_SZ i)) (compared T t v i) ∧ T.rel (compared T t v i) (t i))

instance (t : Nat → Option V) (v : Option V) (i : Nat) : Decidable (Meets T t v i) :=
  inferInstanceAs (Decidable (_ → (_ → _) ∧ (¬ _ → _ ∧ _)))

/-- What the sift up of a value `v` from the place `i` meets on its way. -/
def Rises (T : Traits K V) (t : Nat → Option V) (v : Option V) : Nat → Nat → Prop
  | 0, _ => True
  | fuel + 1, i => 0 < i →
    Meets T t v i ∧ (¬ T.rel (compared T t v i) v → Rises T t v fuel (i / T.OUT_DEGREE_SZ))

instance Rises.decidable (t : Nat → Option V) (v : Option V) :
    (fuel i : Nat) → Decidable (Rises T t v fuel i)
  | 0, _ => .isTrue True.intro
  | fuel + 1, i =>
    have := Rises.decidable t v fuel (i / T.OUT_DEGREE_SZ)
    inferInstanceAs (Decidable (0 < i → Meets T t v i ∧
      (¬ T.rel (compared T t v i) v → Rises T t v fuel (i / T.OUT_DEGREE_SZ))))

theorem Rises.congr {t t' : Nat → Option V} {v : Option V} (he : ∀ i, i ≤ idx → t' i = t i)
    (hrise : Rises T t v fuel idx) : Rises T t' v fuel idx := by
  induction fuel generalizing idx with
  | zero => exact True.intro
  | succ fuel ih =>
    have hdiv : idx / T.OUT_DEGREE_SZ ≤ idx := Nat.div_le_self _ _
    have hc : compared T t' v idx = compared T t v idx := by
      unfold compared
      rw [he _ hdiv]
    unfold Rises Meets at hrise ⊢
    rw [hc, he _ parent_le, he _ (Nat.le_refl _)]
    exact fun h0 => ⟨(hrise h0).1, fun hn => ih (fun i hi => he i (hi.trans hdiv)) ((hrise h0).2 hn)⟩

/-- Sifting up goes through; if the value rises past the places whose parent is another one, it does
what a sift up must do. `t` is what stood at the places before. -/
theorem pushUpAt_ok (hT : T.IsPreorder) (hR : Refines T h s) (hidx : idx < h.heapVec.length)
    (hfuel : idx < fuel) :
    ∃ h', h.pushUpAt T fuel idx = .ok h' ∧ Moved T s h h' ∧ ∀ t : Nat → Option V,
      (∀ i, i < idx → h.valueAt i = t i) →
      (∀ i, 0 < i → parent T.OUT_DEGREE_SZ i = idx → T.rel (t idx) (h.valueAt i)) →
      AllBut T.rel T.OUT_DEGREE_SZ h.valueAt idx → Rises T t (h.valueAt idx) fuel idx →
      Up T.rel T.OUT_DEGREE_SZ h.valueAt idx h'.valueAt := by
  induction fuel generalizing h idx with
  | zero => omega
  | succ fuel ih =>
    unfold pushUpAt
    rw [if_neg (Nat.not_le.2 hidx)]
    by_cases h0 : idx = 0
    · rw [if_pos h0]
      exact ⟨h, rfl, hR.moved, fun t _ _ _ _ => .stop fun hpos => absurd h0 hpos.ne'⟩
    rw [if_neg h0]
    have hpos := Nat.pos_of_ne_zero h0
    -- where the source takes the parent to be
    generalize hp : idx / T.OUT_DEGREE_SZ = p
    have hple : p ≤ idx := hp ▸ Nat.div_le_self _ _
    have hw : ∀ t : Nat → Option V, (∀ i, i < idx → h.valueAt i = t i) →
        compared T t (h.valueAt idx) idx = h.valueAt p := by
      intro t ht
      unfold compared
      by_cases he : p = idx
      · rw [hp, if_pos he, he]
      · rw [hp, if_neg he, ht p (by omega)]
    by_cases hle : T.rel (h.valueAt p) (h.valueAt idx)
    · rw [if_pos (better_iff.2 hle)]
      refine ⟨h, rfl, hR.moved, fun t ht hlow hb hrise => .stop fun _ => ?_⟩
      by_cases hd : idx % T.OUT_DEGREE_SZ = 0
      · have := ((hrise hpos).1 hd).1
        rw [hw t ht] at this
        rw [ht _ (parent_lt hpos)]
        exact this hle
      · rw [← div_eq_parent T.out_degree_pos hd, hp]
        exact hle
    · rw [if_neg (mt better_iff.1 hle)]
      have hplt : p < idx := by
        refine Nat.lt_of_le_of_ne hple fun he => hle ?_
        rw [he]
        exact hT.rel.refl _
      obtain ⟨h1, e1, hm, ht1⟩ := swapNode_ok hR (hplt.trans hidx) hidx
      obtain ⟨h2, e2, hm2, hup⟩ := ih hm.refines (hm.length ▸ hplt.trans hidx) (by omega)
      refine ⟨h2, ?_, hm.trans hm2, fun t ht hlow hb hrise => ?_⟩
      · rw [e1, ok_bind, e2]
      have hlt := hT.of_not_rel hle
      rw [swap_comm] at ht1
      have hfit : Fits T.rel T.OUT_DEGREE_SZ h.valueAt idx (h.valueAt p) := by
        by_cases hd : idx % T.OUT_DEGREE_SZ = 0
        · have := ((hrise hpos).1 hd).2
          rw [hw t ht] at this
          obtain ⟨habove, hbelow⟩ := this hle
          refine ⟨fun _ => ?_, fun i h0 hi => hT.rel.trans hbelow (hlow i h0 hi)⟩
          rw [ht _ (parent_lt hpos)]
          exact habove
        · rw [← hp, div_eq_parent T.out_degree_pos hd]
          exact hb.2.fits hT.rel hpos
      have hu := hb.move hT.rel hplt hlt hfit
      refine .move hplt hlt hfit ?_
      rw [← ht1]
      refine hup t (fun i hi => ?_) (fun i h0 hi => ?_) (ht1 ▸ hu.allBut) ?_
      · rw [ht1, swap_of_ne (hi.trans hplt).ne hi.ne]
        exact ht i (hi.trans hplt)
      · -- what stands below the place `p` now is no better than what stood there
        rw [← ht p hplt, ht1]
        by_cases hii : i = idx
        · rw [hii, swap_left]
          exact hT.rel.refl _
        · have hpi : p < i := hi ▸ parent_lt h0
          rw [swap_of_ne hii hpi.ne']
          have := hb.1 i h0 hii (by rw [hi]; exact hplt.ne)
          rwa [hi] at this
      · have := (hrise hpos).2
        rw [hw t ht, hp] at this
        rw [ht1, swap_right]
        exact this hle

theorem correctAt_ok (hT : T.IsPreorder) (hR : Refines T h s) (hidx : idx < h.heapVec.length) :
    ∃ h', h.correctAt T idx = .ok h' ∧ Moved T s h h' ∧ ∀ t : Nat → Option V,
      Ordered T.rel T.OUT_DEGREE_SZ t → (∀ i, i ≠ idx → h.valueAt i = t i) →
      Rises T t (h.valueAt idx) (idx + 1) idx → Ordered T.rel T.OUT_DEGREE_SZ h'.valueAt := by
  obtain ⟨h1, e1, hm1, hup⟩ := pushUpAt_ok hT hR hidx (Nat.lt_succ_self idx)
  obtain ⟨h2, e2, hm2, hdown⟩ := pushDownAt_ok hT hm1.refines (hm1.length ▸ hidx) (Nat.le_add_left _ _)
  refine ⟨h2, ?_, hm1.trans hm2, fun t ht he hrise => ?_⟩
  · unfold correctAt
    rw [e1, ok_bind, e2]
  have hb := ht.change hT.rel he
  refine Ordered.corrected hT.rel hb (hup t (fun i hi => he i hi.ne) (fun i h0 hp => ?_) hb hrise) hdown
  have hlt : idx < i := hp ▸ parent_lt h0
  rw [he i hlt.ne', ← hp]
  exact ht i h0

/-! ## Calls -/

variable {op : Op K V} {k : K}

theorem Refines.node (hR : Refines T h s) {a : Nat} (hk : h.reverseLookupMap k = some a) :
    ∃ n, h.heapVec[h.index a]? = some n ∧ n.heapIdx = a ∧ T.keyExtractor n.value = k := by
  obtain ⟨n, hn, hkey, rfl⟩ := hR.lookup k a hk
  obtain ⟨i, hi⟩ := List.mem_iff_getElem?.1 hn
  exact ⟨n, by rw [hR.placed i n hi, hi], rfl, hkey⟩

theorem Refines.of_none (hR : Refines T h s) (hk : h.reverseLookupMap k = none) : s k = none := by
  cases hs : s k with
  | none => rfl
  | some v =>
    obtain ⟨n, hn, rfl, hkey⟩ := hR.held k v hs
    rw [← hkey, hR.mapped n hn] at hk
    cases hk

theorem Refines.addr_inj (hR : Refines T h s) {n n' : HeapNode V} (hn : n ∈ h.heapVec)
    (hn' : n' ∈ h.heapVec) (ha : n.heapIdx = n'.heapIdx) : n = n' := by
  obtain ⟨i, hi⟩ := List.mem_iff_getElem?.1 hn
  obtain ⟨j, hj⟩ := List.mem_iff_getElem?.1 hn'
  have hij : i = j := by rw [← hR.placed i n hi, ← hR.placed j n' hj, ha]
  subst hij
  exact Option.some.inj (hi.symm.trans hj)

/-- **What `get_by_key` returns is what the store keeps for the key.** -/
theorem getByKey_ok (hR : Refines T h s) (k : K) : h.getByKey k = .ok (s k) := by
  unfold getByKey
  cases hk : h.reverseLookupMap k with
  | none => rw [hR.of_none hk]
  | some a =>
    obtain ⟨n, hn, -, hkey⟩ := hR.node hk
    dsimp only
    rw [valueAt_eq hn, ← hkey, hR.kept n (List.mem_of_getElem? hn)]

variable [DecidableEq K]

theorem setValue_ok (hR : Refines T h s) (hn : h.heapVec[idx]? = some n) {v : V}
    (hv : T.keyExtractor v = T.keyExtractor n.value) :
    ∃ h', h.setValue idx v = .ok h' ∧ Refines T h' (s.put (T.keyExtractor v) (some v)) ∧
      h'.heapVec.length = h.heapVec.length ∧ h'.valueAt idx = some v ∧
      ∀ i, i ≠ idx → h'.valueAt i = h.valueAt i := by
  have hidx := (List.getElem?_eq_some_iff.1 hn).1
  have hget := ListUpdate.getElem?_set_of_some hn { n with value := v }
  have hmem := List.mem_of_getElem? hn
  have e : h.setValue idx v = .ok { h with heapVec := h.heapVec.set idx { n with value := v } } := by
    unfold setValue
    rw [hn]
  have hnew : ∀ m, m ∈ h.heapVec.set idx { n with value := v } →
      m = { n with value := v } ∨ m ∈ h.heapVec ∧ m.heapIdx ≠ n.heapIdx := by
    intro m hm
    obtain ⟨i, hi⟩ := List.mem_iff_getElem?.1 hm
    rw [hget] at hi
    split at hi
    · exact .inl (Option.some.inj hi).symm
    · next hne =>
      refine .inr ⟨List.mem_of_getElem? hi, fun ha => hne ?_⟩
      rw [← hR.placed i m hi, ← hR.placed idx n hn, ha]
  have hkeep : ∀ m ∈ h.heapVec, m.heapIdx ≠ n.heapIdx → m ∈ h.heapVec.set idx { n with value := v } := by
    intro m hm hne
    obtain ⟨i, hi⟩ := List.mem_iff_getElem?.1 hm
    refine List.mem_iff_getElem?.2 ⟨i, ?_⟩
    rw [hget, if_neg ?_, hi]
    rintro rfl
    rw [hn] at hi
    cases hi
    exact hne rfl
  have hself : { n with value := v } ∈ h.heapVec.set idx { n with value := v } :=
    List.mem_iff_getElem?.2 ⟨idx, by rw [hget, if_pos rfl]⟩
  refine ⟨_, e, ⟨?_, ?_, ?_, ?_, ?_, ?_⟩, by simp, ?_, fun i hi => ?_⟩
  · intro i m hm
    replace hm : (h.heapVec.set idx { n with value := v })[i]? = some m := hm
    rw [hget] at hm
    split at hm
    · next hi =>
      cases hm
      rw [hi]
      exact hR.placed idx n hn
    · exact hR.placed i m hm
  · intro m hm
    rcases hnew m hm with rfl | ⟨hm, hne⟩
    · exact if_pos rfl
    · unfold Store.put
      rw [if_neg, hR.kept m hm]
      intro hkey
      have := hR.mapped m hm
      rw [hkey, hv, hR.mapped n hmem] at this
      exact hne (Option.some.inj this).symm
  · intro m hm
    rcases hnew m hm with rfl | ⟨hm, hne⟩
    · rw [hv, hR.mapped n hmem]
    · exact hR.mapped m hm
  · intro k a hk
    obtain ⟨m, hm, hkey, ha⟩ := hR.lookup k a hk
    by_cases hne : m.heapIdx = n.heapIdx
    · refine ⟨_, hself, ?_, hne.symm.trans ha⟩
      rw [← hkey, hR.addr_inj hm hmem hne]
      exact hv
    · exact ⟨m, hkeep m hm hne, hkey, ha⟩
  · intro k w hk
    unfold Store.put at hk
    split at hk
    · next hkv =>
      cases hk
      exact ⟨_, hself, rfl, hkv.symm⟩
    · next hkv =>
      obtain ⟨m, hm, hval, hkey⟩ := hR.held k w hk
      refine ⟨m, hkeep m hm fun ha => hkv ?_, hval, hkey⟩
      rw [← hkey, ← hval, hR.addr_inj hm hmem ha, hv]
  · intro m hm
    rcases hnew m hm with rfl | ⟨hm, -⟩
    · exact hR.fresh n hmem
    · exact hR.fresh m hm
  · unfold valueAt
    rw [hget, if_pos rfl]
    rfl
  · unfold valueAt
    rw [hget, if_neg hi]

theorem append_ok (hR : Refines T h s) {v : V} (hk : h.reverseLookupMap (T.keyExtractor v) = none) :
    Refines T (h.append (T.keyExtractor v) v) (s.put (T.keyExtractor v) (some v)) ∧
      (h.append (T.keyExtractor v) v).valueAt h.heapVec.length = some v ∧
      ∀ i, i ≠ h.heapVec.length → (h.append (T.keyExtractor v) v).valueAt i = h.valueAt i := by
  have hmem : ∀ m, m ∈ (h.append (T.keyExtractor v) v).heapVec ↔
      m ∈ h.heapVec ∨ m = { value := v, heapIdx := h.nextAddr } := by
    intro m
    rw [append, List.mem_append, List.mem_singleton]
  have hkey : ∀ m ∈ h.heapVec, T.keyExtractor m.value ≠ T.keyExtractor v := by
    intro m hm he
    rw [← he, hR.mapped m hm] at hk
    cases hk
  refine ⟨⟨?_, ?_, ?_, ?_, ?_, ?_⟩, ?_, fun i hi => ?_⟩
  · intro i m hm
    show (if m.heapIdx = h.nextAddr then h.heapVec.length else h.index m.heapIdx) = i
    have hlen := (List.getElem?_eq_some_iff.1 hm).1
    replace hm : (h.heapVec ++ [{ value := v, heapIdx := h.nextAddr }])[i]? = some m := hm
    by_cases hi : i < h.heapVec.length
    · rw [List.getElem?_append_left hi] at hm
      rw [if_neg (hR.fresh m (List.mem_of_getElem? hm)).ne, hR.placed i m hm]
    · obtain rfl : i = h.heapVec.length := by
        rw [append, List.length_append, List.length_singleton] at hlen
        omega
      rw [List.getElem?_concat_length] at hm
      cases hm
      exact if_pos rfl
  · intro m hm
    rcases (hmem m).1 hm with hm | rfl
    · unfold Store.put
      rw [if_neg (hkey m hm), hR.kept m hm]
    · exact if_pos rfl
  · intro m hm
    show (if _ = _ then _ else _) = _
    rcases (hmem m).1 hm with hm | rfl
    · rw [if_neg (hkey m hm), hR.mapped m hm]
    · exact if_pos rfl
  · intro k a hka
    replace hka : (if k = _ then _ else _) = _ := hka
    split at hka
    · next he =>
      cases hka
      exact ⟨_, (hmem _).2 (.inr rfl), he.symm, rfl⟩
    · obtain ⟨m, hm, hmk⟩ := hR.lookup k a hka
      exact ⟨m, (hmem m).2 (.inl hm), hmk⟩
  · intro k w hkw
    unfold Store.put at hkw
    split at hkw
    · next he =>
      cases hkw
      exact ⟨_, (hmem _).2 (.inr rfl), rfl, he.symm⟩
    · obtain ⟨m, hm, hmk⟩ := hR.held k w hkw
      exact ⟨m, (hmem m).2 (.inl hm), hmk⟩
  · intro m hm
    rcases (hmem m).1 hm with hm | rfl
    · exact Nat.lt_succ_of_lt (hR.fresh m hm)
    · exact Nat.lt_succ_self _
  · unfold valueAt append
    rw [List.getElem?_concat_length]
    rfl
  · unfold valueAt append
    by_cases hlt : i < h.heapVec.length
    · rw [List.getElem?_append_left hlt]
    · rw [List.getElem?_eq_none (by rw [List.length_append, List.length_singleton]; omega),
        List.getElem?_eq_none (Nat.le_of_not_lt hlt)]

theorem popBack_ok (hR : Refines T h s) (hn : h.heapVec[h.heapVec.length - 1]? = some n) :
    Refines T (h.popBack (T.keyExtractor n.value)) (s.put (T.keyExtractor n.value) none) ∧
      (h.popBack (T.keyExtractor n.value)).valueAt (h.heapVec.length - 1) = none ∧
      ∀ i, i ≠ h.heapVec.length - 1 →
        (h.popBack (T.keyExtractor n.value)).valueAt i = h.valueAt i := by
  have hmem := List.mem_of_getElem? hn
  have hget : ∀ i, h.heapVec.dropLast[i]? = if i < h.heapVec.length - 1 then h.heapVec[i]? else none :=
    fun i => List.getElem?_dropLast
  have hsub : ∀ m ∈ h.heapVec.dropLast,
      m ∈ h.heapVec ∧ T.keyExtractor m.value ≠ T.keyExtractor n.value := by
    intro m hm
    obtain ⟨i, hi⟩ := List.mem_iff_getElem?.1 hm
    rw [hget] at hi
    split at hi
    · next hlt =>
      have hm := List.mem_of_getElem? hi
      refine ⟨hm, fun hkey => ?_⟩
      have ha := hR.mapped m hm
      rw [hkey, hR.mapped n hmem] at ha
      have := hR.placed i m hi
      rw [← Option.some.inj ha, hR.placed _ n hn] at this
      omega
    · cases hi
  have hkeep : ∀ m ∈ h.heapVec, T.keyExtractor m.value ≠ T.keyExtractor n.value →
      m ∈ h.heapVec.dropLast := by
    intro m hm hne
    obtain ⟨i, hi⟩ := List.mem_iff_getElem?.1 hm
    refine List.mem_iff_getElem?.2 ⟨i, ?_⟩
    have hlt := (List.getElem?_eq_some_iff.1 hi).1
    rw [hget, if_pos, hi]
    refine Nat.lt_of_le_of_ne (by omega) ?_
    rintro rfl
    rw [hn] at hi
    cases hi
    exact hne rfl
  refine ⟨⟨?_, ?_, ?_, ?_, ?_, ?_⟩, ?_, fun i hi => ?_⟩
  · intro i m hm
    replace hm : h.heapVec.dropLast[i]? = some m := hm
    rw [hget] at hm
    split at hm
    · exact hR.placed i m hm
    · cases hm
  · intro m hm
    obtain ⟨hm, hne⟩ := hsub m hm
    unfold Store.put
    rw [if_neg hne, hR.kept m hm]
  · intro m hm
    obtain ⟨hm, hne⟩ := hsub m hm
    show (if _ = _ then _ else _) = _
    rw [if_neg hne, hR.mapped m hm]
  · intro k a hk
    replace hk : (if k = _ then _ else _) = _ := hk
    split at hk
    · cases hk
    · next hne =>
      obtain ⟨m, hm, hkey, ha⟩ := hR.lookup k a hk
      exact ⟨m, hkeep m hm (hkey ▸ hne), hkey, ha⟩
  · intro k w hk
    unfold Store.put at hk
    split at hk
    · cases hk
    · next hne =>
      obtain ⟨m, hm, rfl, hkey⟩ := hR.held k w hk
      exact ⟨m, hkeep m hm (hkey ▸ hne), rfl, hkey⟩
  · exact fun m hm => hR.fresh m (hsub m hm).1
  · unfold valueAt popBack
    rw [hget, if_neg (Nat.lt_irrefl _)]
    rfl
  · unfold valueAt popBack
    rw [hget]
    split
    · rfl
    · rw [List.getElem?_eq_none (by omega)]

def dropped (h : KeyHeap K V) : Nat → Option V := dropAt h.valueAt (h.heapVec.length - 1)

def InHeapOrder (T : Traits K V) (h : KeyHeap K V) : Prop := Ordered T.rel T.OUT_DEGREE_SZ h.valueAt

omit [DecidableEq K] in
theorem InHeapOrder.dropped (hT : T.IsPreorder) (ho : h.InHeapOrder T) :
    Ordered T.rel T.OUT_DEGREE_SZ h.dropped := by
  unfold InHeapOrder at ho
  rw [Traits.rel_eq] at ho ⊢
  exact ho.dropAt hT fun i hi => valueAt_none (by omega)

theorem remove_ok (hR : Refines T h s) (hn : h.heapVec[idx]? = some n) :
    ∃ h', h.swapNode idx (h.heapVec.length - 1) = .ok h' ∧
      h'.heapVec.length = h.heapVec.length ∧ h'.valueAt (h.heapVec.length - 1) = some n.value ∧
      Refines T (h'.popBack (T.keyExtractor n.value)) (s.put (T.keyExtractor n.value) none) ∧
      (∀ i, i ≠ idx → (h'.popBack (T.keyExtractor n.value)).valueAt i = h.dropped i) ∧
      (h'.popBack (T.keyExtractor n.value)).valueAt idx =
        if idx = h.heapVec.length - 1 then none else h.valueAt (h.heapVec.length - 1) := by
  have hidx := (List.getElem?_eq_some_iff.1 hn).1
  have hlast : h.heapVec.length - 1 < h.heapVec.length := by omega
  obtain ⟨h1, e1, hm, ht⟩ := swapNode_ok hR hidx hlast
  have hval : h1.valueAt (h.heapVec.length - 1) = some n.value := by
    rw [ht, swap_right, valueAt_eq hn]
  obtain ⟨m, hmv⟩ : ∃ m, h1.heapVec[h1.heapVec.length - 1]? = some m := exists_node (by rw [hm.length]; omega)
  have hmn : m.value = n.value := by
    rw [← hm.length, valueAt_eq hmv] at hval
    exact Option.some.inj hval
  obtain ⟨hR2, hend, hrest⟩ := popBack_ok hm.refines hmv
  rw [hmn] at hR2 hend hrest
  rw [hm.length] at hend hrest
  refine ⟨h1, e1, hm.length, hval, hR2, fun i hi => ?_, ?_⟩
  · unfold dropped dropAt
    by_cases hil : i = h.heapVec.length - 1
    · rw [if_pos hil, hil, hend]
    · rw [if_neg hil, hrest i hil, ht, swap_of_ne hi hil]
  · by_cases hil : idx = h.heapVec.length - 1
    · rw [if_pos hil]
      rw [← hil] at hend
      exact hend
    · rw [if_neg hil, hrest idx hil, ht, swap_left]

def RisesInOrder (T : Traits K V) (h : KeyHeap K V) : Op K V → Prop
  | .push value =>
    let idx := match h.reverseLookupMap (T.keyExtractor value) with
      | some addr => h.index addr
      | none => h.heapVec.length
    Rises T h.valueAt (some value) (idx + 1) idx
  | .updateByKey key mutatorFunc =>
    match h.reverseLookupMap key with
    | none => True
    | some addr =>
      let idx := h.index addr
      Rises T h.valueAt ((h.valueAt idx).map mutatorFunc) (idx + 1) idx
  | .eraseByKey key =>
    match h.reverseLookupMap key with
    | none => True
    | some addr =>
      let idx := h.index addr
      idx = h.heapVec.length - 1 ∨
        Rises T h.valueAt (h.valueAt (h.heapVec.length - 1)) (idx + 1) idx
  | .pop => True

instance (T : Traits K V) (h : KeyHeap K V) (op : Op K V) : Decidable (h.RisesInOrder T op) := by
  unfold RisesInOrder
  split
  · exact Rises.decidable _ _ _ _
  · split
    · exact .isTrue True.intro
    · exact Rises.decidable _ _ _ _
  · split
    · exact .isTrue True.intro
    · exact inferInstanceAs (Decidable (_ ∨ Rises _ _ _ _ _))
  · exact .isTrue True.intro

theorem replace_ok (hT : T.IsPreorder) (hR : Refines T h s) (hn : h.heapVec[idx]? = some n) {v : V}
    (hv : T.keyExtractor v = T.keyExtractor n.value) :
    ∃ h', (do
        let h ← h.setValue idx v
        h.correctAt T idx) = .ok h' ∧ Refines T h' (s.put (T.keyExtractor v) (some v)) ∧
      (h.InHeapOrder T → Rises T h.valueAt (some v) (idx + 1) idx → h'.InHeapOrder T) := by
  obtain ⟨h1, e1, hR1, hlen, hval, hrest⟩ := setValue_ok hR hn hv
  obtain ⟨h2, e2, hm, ho⟩ := correctAt_ok hT hR1 (hlen ▸ (List.getElem?_eq_some_iff.1 hn).1)
  refine ⟨h2, ?_, hm.refines, fun hord hrise => ho _ hord hrest (hval ▸ hrise)⟩
  rw [e1, ok_bind, e2]

theorem push_ok (hT : T.IsPreorder) (hR : Refines T h s) (v : V) :
    ∃ h', h.push T v = .ok h' ∧ Refines T h' (s.put (T.keyExtractor v) (some v)) ∧
      (h.InHeapOrder T → h.RisesInOrder T (.push v) → h'.InHeapOrder T) := by
  unfold push RisesInOrder
  dsimp only
  cases hk : h.reverseLookupMap (T.keyExtractor v) with
  | some a =>
    obtain ⟨n, hn, -, hkey⟩ := hR.node hk
    exact replace_ok hT hR hn hkey.symm
  | none =>
    obtain ⟨hR1, hval, hrest⟩ := append_ok hR hk
    have hlen : (h.append (T.keyExtractor v) v).heapVec.length = h.heapVec.length + 1 := by
      rw [append, List.length_append, List.length_singleton]
    rw [hlen, Nat.add_sub_cancel]
    obtain ⟨h2, e2, hm, hup⟩ := pushUpAt_ok hT hR1
      (show h.heapVec.length < _ by rw [hlen]; exact Nat.lt_succ_self _) (Nat.lt_succ_self _)
    refine ⟨h2, e2, hm.refines, fun hord hrise => ?_⟩
    have hnone : ∀ i, 0 < i → parent T.OUT_DEGREE_SZ i = h.heapVec.length →
        (h.append (T.keyExtractor v) v).valueAt i = none := by
      intro i h0 hp
      have hlt : h.heapVec.length < i := hp ▸ parent_lt h0
      rw [hrest i hlt.ne', valueAt_none hlt.le]
    have hb := Ordered.change hT.rel hord hrest
    refine Up.ordered hT.rel (hb.upTo fun i h0 hp => ?_)
      (hup h.valueAt (fun i hi => hrest i hi.ne) (fun i h0 hp => ?_) hb (hval ▸ hrise))
    · rw [hnone i h0 hp]
      exact Traits.rel_none _
    · rw [hnone i h0 hp]
      exact Traits.rel_none _

omit [DecidableEq K] in
theorem updateByKey_missing (hk : h.reverseLookupMap k = none) (f : V → V) :
    h.updateByKey T k f = .error (.invalidArgument "bad key, key not found") := by
  unfold updateByKey
  rw [hk]

theorem updateByKey_ok (hT : T.IsPreorder) (hR : Refines T h s) {a : Nat} {f : V → V}
    (hf : ∀ v, T.keyExtractor (f v) = T.keyExtractor v) (hk : h.reverseLookupMap k = some a) :
    ∃ h', h.updateByKey T k f = .ok h' ∧ Refines T h' (s.put k ((s k).map f)) ∧
      (h.InHeapOrder T → h.RisesInOrder T (.updateByKey k f) → h'.InHeapOrder T) := by
  obtain ⟨n, hn, -, hkey⟩ := hR.node hk
  have hs : s k = some n.value := by rw [← hkey, hR.kept n (List.mem_of_getElem? hn)]
  unfold updateByKey RisesInOrder
  dsimp only
  rw [hk, hs]
  dsimp only
  rw [valueAt_eq hn]
  obtain ⟨h1, e1, hR1, ho⟩ := replace_ok hT hR hn (hf n.value)
  rw [hf, hkey] at hR1
  exact ⟨h1, e1, hR1, ho⟩

theorem eraseByKey_ok (hT : T.IsPreorder) (hR : Refines T h s) (k : K) :
    ∃ h', h.eraseByKey T k = .ok h' ∧ Refines T h' (s.put k none) ∧
      (h.InHeapOrder T → h.RisesInOrder T (.eraseByKey k) → h'.InHeapOrder T) := by
  unfold eraseByKey RisesInOrder
  dsimp only
  cases hk : h.reverseLookupMap k with
  | none =>
    refine ⟨h, rfl, ?_, fun hord _ => hord⟩
    have : s.put k none = s := by
      funext x
      unfold Store.put
      split
      · next hx => rw [hx, hR.of_none hk]
      · rfl
    rw [this]
    exact hR
  | some a =>
    obtain ⟨n, hn, -, hkey⟩ := hR.node hk
    obtain ⟨h1, e1, hlen, -, hR2, hrest, hself⟩ := remove_ok hR hn
    have hlen2 : (h1.popBack k).heapVec.length = h.heapVec.length - 1 := by
      rw [popBack, List.length_dropLast, hlen]
    have hidx := (List.getElem?_eq_some_iff.1 hn).1
    rw [hkey] at hR2 hrest hself
    dsimp only
    rw [e1, ok_bind, hlen2]
    by_cases hlast : h.index a < h.heapVec.length - 1
    · rw [if_pos hlast]
      rw [if_neg hlast.ne] at hself
      obtain ⟨h3, e3, hm, ho⟩ := correctAt_ok hT hR2 (hlen2 ▸ hlast)
      refine ⟨h3, e3, hm.refines, fun hord hrise => ho _ (hord.dropped hT) hrest ?_⟩
      rw [hself]
      refine Rises.congr (fun i hi => ?_) (hrise.resolve_left hlast.ne)
      exact if_neg (hi.trans_lt hlast).ne
    · rw [if_neg hlast]
      have hidx' : h.index a = h.heapVec.length - 1 := by omega
      rw [if_pos hidx'] at hself
      refine ⟨_, rfl, hR2, fun hord _ => ?_⟩
      have he : (h1.popBack k).valueAt = h.dropped := by
        funext i
        by_cases hi : i = h.index a
        · rw [hi, hself, hidx', dropped, dropAt, if_pos rfl]
        · exact hrest i hi
      unfold InHeapOrder
      rw [he]
      exact hord.dropped hT

theorem pop_ok (hT : T.IsPreorder) (hR : Refines T h s) (hn : h.heapVec[0]? = some n) :
    ∃ h', h.pop T = .ok h' ∧ Refines T h' (s.put (T.keyExtractor n.value) none) ∧
      (h.InHeapOrder T → h'.InHeapOrder T) := by
  obtain ⟨h1, e1, hlen, hval, hR2, hrest, -⟩ := remove_ok hR hn
  have hne : h.heapVec.isEmpty = false := by
    cases hv : h.heapVec with
    | nil =>
      rw [hv] at hn
      cases hn
    | cons _ _ => rfl
  unfold pop
  rw [hne, if_neg Bool.false_ne_true, e1, ok_bind, hlen, hval]
  dsimp only
  by_cases hemp : (h1.popBack (T.keyExtractor n.value)).heapVec.isEmpty = true
  · rw [if_pos hemp]
    refine ⟨_, rfl, hR2, fun _ i _ => ?_⟩
    rw [List.isEmpty_iff] at hemp
    have : (h1.popBack (T.keyExtractor n.value)).valueAt i = none :=
      valueAt_none (by rw [hemp]; exact Nat.zero_le i)
    rw [this]
    exact Traits.rel_none _
  · rw [if_neg hemp]
    have hpos : 0 < (h1.popBack (T.keyExtractor n.value)).heapVec.length := by
      rw [List.isEmpty_iff] at hemp
      exact List.length_pos_of_ne_nil hemp
    obtain ⟨h3, e3, hm, hd⟩ := pushDownAt_ok hT hR2 hpos (Nat.le_add_left _ _)
    refine ⟨h3, e3, hm.refines, fun hord => hd.ordered ?_⟩
    have hb := Ordered.change hT.rel (hord.dropped hT) hrest
    exact hb.down fun h0 => absurd h0 (Nat.lt_irrefl 0)

/-! ## Runs -/

omit [DecidableEq K] in
theorem InHeapOrder.isBest (hT : T.IsPreorder) (ho : h.InHeapOrder T) (hR : Refines T h s)
    (hn : h.heapVec[0]? = some n) : s.IsBest T n.value := by
  refine ⟨hR.kept n (List.mem_of_getElem? hn), fun k v hk => ?_⟩
  obtain ⟨m, hm, rfl, -⟩ := hR.held k v hk
  obtain ⟨i, hi⟩ := List.mem_iff_getElem?.1 hm
  have := Ordered.root hT.rel ho i
  rwa [valueAt_eq hn, valueAt_eq hi] at this

omit [DecidableEq K] in
theorem empty_refines : Refines T (empty : KeyHeap K V) fun _ => none where
  placed i n hn := by cases hn
  kept n hn := by cases hn
  mapped n hn := by cases hn
  lookup k a hk := by cases hk
  held k v hk := by cases hk
  fresh n hn := by cases hn

omit [DecidableEq K] in
theorem empty_inHeapOrder : (empty : KeyHeap K V).InHeapOrder T := fun _ _ => Traits.rel_none _

theorem Step.ok (hT : T.IsPreorder) (hR : Refines T h s) (ho : h.InHeapOrder T) (hstep : Step T h op h') :
    ∃ s', Store.Step T s op s' ∧ Refines T h' s' ∧
      (h.RisesInOrder T op → h'.InHeapOrder T) := by
  obtain ⟨hkeeps, hcall⟩ := hstep
  -- a call that goes through cannot do anything else
  have hdone : ∀ {h1 : KeyHeap K V}, apply T h op = .ok h1 → h' = h1 := by
    intro h1 e1
    rcases hcall with e | ⟨-, what, e⟩
    · exact Except.ok.inj (e.symm.trans e1)
    · rw [e1] at e
      cases e
  cases op with
  | push v =>
    obtain ⟨h1, e1, hR1, ho1⟩ := push_ok hT hR v
    obtain rfl := hdone e1
    exact ⟨_, rfl, hR1, ho1 ho⟩
  | updateByKey k f =>
    cases hk : h.reverseLookupMap k with
    | none =>
      obtain rfl : h' = h := by
        rcases hcall with e | ⟨he, -⟩
        · rw [apply, updateByKey_missing hk] at e
          cases e
        · exact he
      refine ⟨s, ?_, hR, fun _ => ho⟩
      show s = s.put k ((s k).map f)
      rw [hR.of_none hk]
      funext x
      unfold Store.put
      split
      · next hx => rw [hx, hR.of_none hk]; rfl
      · rfl
    | some a =>
      obtain ⟨h1, e1, hR1, ho1⟩ := updateByKey_ok hT hR hkeeps hk
      obtain rfl := hdone e1
      exact ⟨_, rfl, hR1, ho1 ho⟩
  | eraseByKey k =>
    obtain ⟨h1, e1, hR1, ho1⟩ := eraseByKey_ok hT hR k
    obtain rfl := hdone e1
    exact ⟨_, rfl, hR1, ho1 ho⟩
  | pop =>
    cases hn : h.heapVec[0]? with
    | none =>
      rcases hcall with e | ⟨-, what, e⟩
      · have : h.heapVec.isEmpty = true := List.isEmpty_iff.2 (by simpa using hn)
        rw [apply, pop, if_pos this] at e
        cases e
      · have : h.heapVec.isEmpty = true := List.isEmpty_iff.2 (by simpa using hn)
        rw [apply, pop, if_pos this] at e
        cases e
    | some n =>
      obtain ⟨h1, e1, hR1, ho1⟩ := pop_ok hT hR hn
      obtain rfl := hdone e1
      exact ⟨_, ⟨n.value, ho.isBest hT hR hn, rfl⟩, hR1, fun _ => ho1 ho⟩

theorem exists_step (hT : T.IsPreorder) (hR : Refines T h s) (hk : op.KeepsKey T) :
    (∃ h', Step T h op h') ∨ op = .pop ∧ h.heapVec = [] := by
  cases op with
  | push v =>
    obtain ⟨h1, e1, -⟩ := push_ok hT hR v
    exact .inl ⟨h1, hk, .inl e1⟩
  | updateByKey k f =>
    cases hl : h.reverseLookupMap k with
    | none => exact .inl ⟨h, hk, .inr ⟨rfl, _, updateByKey_missing hl f⟩⟩
    | some a =>
      obtain ⟨h1, e1, -⟩ := updateByKey_ok hT hR hk hl
      exact .inl ⟨h1, hk, .inl e1⟩
  | eraseByKey k =>
    obtain ⟨h1, e1, -⟩ := eraseByKey_ok hT hR k
    exact .inl ⟨h1, hk, .inl e1⟩
  | pop =>
    cases hn : h.heapVec[0]? with
    | none => exact .inr ⟨rfl, by simpa using hn⟩
    | some n =>
      obtain ⟨h1, e1, -⟩ := pop_ok hT hR hn
      exact .inl ⟨h1, hk, .inl e1⟩

/-- **In a run that rises in order the heap is a keyed priority queue**: some run of the store keeps what
`get_by_key` returns, every node knows its place, no node is better than its parent, and `peek` returns
a best value. -/
theorem keyed_priority_queue (hT : T.IsPreorder) {ops : List (Op K V)}
    (hrun : Run.Reach (· = empty) (fun h op h' => Step T h op h' ∧ h.RisesInOrder T op) h ops) :
    ∃ s : Store K V, Run.Reach (· = fun _ => none) (Store.Step T) s ops ∧
      (∀ i n, h.heapVec[i]? = some n → h.index n.heapIdx = i) ∧
      (∀ k, h.getByKey k = .ok (s k)) ∧
      (∀ i j a b, j < T.OUT_DEGREE_SZ → h.valueAt i = some a →
        h.valueAt (child T.OUT_DEGREE_SZ i j) = some b → T.comparator a b = true) ∧
      ((h.peek = .error .abort ∧ ∀ k, s k = none) ∨ ∃ v, h.peek = .ok v ∧ s.IsBest T v) ∧
      ∀ op : Op K V, op.KeepsKey T → (∃ h', Step T h op h') ∨ op = .pop ∧ h.heapVec = [] := by
  have hinv : ∃ s : Store K V, Run.Reach (· = fun _ => none) (Store.Step T) s ops ∧ Refines T h s ∧
      h.InHeapOrder T := by
    induction hrun with
    | init h0 =>
      subst h0
      exact ⟨_, .init rfl, empty_refines, empty_inHeapOrder⟩
    | step _ hstep ih =>
      obtain ⟨s, hs, hR, ho⟩ := ih
      obtain ⟨s1, hs1, hR1, ho1⟩ := hstep.1.ok hT hR ho
      exact ⟨s1, .step hs hs1, hR1, ho1 hstep.2⟩
  obtain ⟨s, hs, hR, ho⟩ := hinv
  refine ⟨s, hs, hR.placed, getByKey_ok hR, fun i j a b hj ha hb => ?_, ?_, fun op => exists_step hT hR⟩
  · have := ho (child T.OUT_DEGREE_SZ i j) (Nat.lt_of_le_of_lt (Nat.zero_le i) (child_gt hj))
    rw [parent_child hj, ha, hb] at this
    exact this
  · unfold peek
    cases hn : h.heapVec[0]? with
    | none =>
      have hemp : h.heapVec = [] := by simpa using hn
      refine .inl ⟨?_, fun k => ?_⟩
      · rw [valueAt_none (by rw [hemp]; exact Nat.le_refl 0)]
      · cases hk : s k with
        | none => rfl
        | some v =>
          obtain ⟨n, hn, -⟩ := hR.held k v hk
          rw [hemp] at hn
          cases hn
    | some n =>
      rw [valueAt_eq hn]
      exact .inr ⟨n.value, rfl, ho.isBest hT hR hn⟩

/-- Values with a key and a weight, the lighter the better, in a heap of out-degree `D + 1`. -/
def weighted (D : Nat) : Traits Nat (Nat × Nat) where
  comparator a b := decide (a.2 ≤ b.2)
  keyExtractor := Prod.fst
  OUT_DEGREE_SZ := D + 1
  out_degree_pos := Nat.succ_pos D

theorem weighted_isPreorder (D : Nat) : (weighted D).IsPreorder where
  trans hab hbc := by
    rw [weighted, decide_eq_true_eq] at hab hbc ⊢
    exact Nat.le_trans hab hbc
  total a b := by
    unfold weighted
    rw [decide_eq_true_eq, decide_eq_true_eq]
    exact Nat.le_total _ _

theorem Step.of_apply (hk : op.KeepsKey T) (e : (apply T h op).toOption = some h') :
    Step T h op h' := by
  refine ⟨hk, .inl ?_⟩
  cases ha : apply T h op with
  | ok h1 =>
    rw [ha] at e
    cases e
    rfl
  | error f =>
    rw [ha] at e
    cases e

theorem keyed_priority_queue_run :
    ∃ h : KeyHeap Nat (Nat × Nat), ∃ s : Store Nat (Nat × Nat),
      h.peek = .ok (2, 3) ∧ s.IsBest (weighted 7) (2, 3) ∧ h.getByKey 1 = .ok (s 1) := by
  let next := fun (h : KeyHeap Nat (Nat × Nat)) op =>
    if h.RisesInOrder (weighted 7) op then (apply (weighted 7) h op).toOption else none
  have hnext : ∀ {h op h'}, Op.KeepsKey (weighted 7) op → next h op = some h' →
      Step (weighted 7) h op h' ∧ h.RisesInOrder (weighted 7) op := by
    intro h op h' hk e
    obtain ⟨hr, e⟩ := Option.ite_none_right_eq_some.1 e
    exact ⟨Step.of_apply hk e, hr⟩
  have hinit : Run.Reach (· = empty)
      (fun h op h' => Step (weighted 7) h op h' ∧ h.RisesInOrder (weighted 7) op) empty [] := .init rfl
  have hrun := hinit.foldlM_of hnext (by simp [Op.KeepsKey, weighted]) (show List.foldlM next empty
    [.push (0, 5), .push (1, 4), .push (2, 6), .updateByKey 2 fun v => (v.1, 3), .eraseByKey 0] = some _
    from rfl)
  obtain ⟨s, -, -, hget, -, hpeek, -⟩ := keyed_priority_queue (weighted_isPreorder 7) hrun
  refine ⟨_, s, rfl, ?_, hget 1⟩
  rcases hpeek with ⟨e, -⟩ | ⟨v, e, hbest⟩
  · cases e
  · cases e
    exact hbest

/-- In a heap of out-degree 2, a value that is updated may be compared with a node that is not its
parent, and then another value than the best one is at the root. -/
theorem peek_not_best : ∃ (h : KeyHeap Nat (Nat × Nat)) (ops : List (Op Nat (Nat × Nat))),
    (weighted 1).IsPreorder ∧ Run.Reach (· = empty) (Step (weighted 1)) h ops ∧
      h.peek = .ok (1, 10) ∧ h.getByKey 4 = .ok (some (4, 6)) ∧
      (weighted 1).comparator (1, 10) (4, 6) = false := by
  have hinit : Run.Reach (· = empty) (Step (weighted 1)) empty [] := .init rfl
  have hrun := hinit.foldlM_of (f := fun h op => (apply (weighted 1) h op).toOption)
    (P := Op.KeepsKey (weighted 1)) Step.of_apply (by simp [Op.KeepsKey, weighted])
    (show List.foldlM _ empty [.push (0, 4), .push (1, 3), .push (2, 3),
      .updateByKey 1 fun v => (v.1, 10), .push (3, 19), .push (4, 6), .push (5, 12), .pop,
      .updateByKey 0 fun v => (v.1, 13)] = some _ from rfl)
  exact ⟨_, _, weighted_isPreorder 1, hrun, rfl, rfl, rfl⟩

end KeyHeap
end MultiplatformMemoryX
