import NeuralNetwork.InternalRest.AckExpiryQueue
import NeuralNetwork.InternalRest.Proof.TemporalOrderedItemMap2

/-!
# The heap of temporal_ordered_item_map

Its nodes are distinct, and those in use know their place (`HeapOk`). The corrections only move them
(`Shuffles`), and are sifts in a heap of out-degree 2 (`upFrom_ok`, `downFrom_ok`): a node that comes
or goes leaves the heap `Sorted`, no node before its parent.
-/

namespace ExpiryQueue

open Cpp Loop Mailbox DaryTree DaryHeap
open TemporalOrderedItemMap2 (NoLater preorder)

namespace TemporalOrderedItemMap

variable {K T : Type} (debug : Bool) {m m' m'' : TemporalOrderedItemMap K T} {i j p q idx fuel : Nat}

/-! ## The order -/

def timeAt (m : TemporalOrderedItemMap K T) (i : Nat) : Int :=
  match m.temporalHeap[i]? with
  | some p => (m.nodes p).schedTime
  | none => 0

def Sorted (m : TemporalOrderedItemMap K T) : Prop :=
  ∀ i, 0 < i → i < m.temporalHeapSz → m.timeAt ((i - 1) / 2) ≤ m.timeAt i

def keyAt (m : TemporalOrderedItemMap K T) (i : Nat) : Option Int :=
  if i < m.temporalHeapSz then some (m.timeAt i) else none

/-- Whether the node in the place `i` is before the one in the place `j`. -/
def less (m : TemporalOrderedItemMap K T) (i j : Nat) : Bool :=
  noWorse (fun a b => decide (a < b)) (m.keyAt i) (m.keyAt j)

theorem decides : Decides (noWorse fun a b : Int => decide (a < b)) NoLater :=
  Decides.noWorse ⟨fun h => (of_decide_eq_true h).le, fun h => not_lt.1 (of_decide_eq_false h)⟩

theorem timeAt_eq (hp : m.temporalHeap[i]? = some p) : m.timeAt i = (m.nodes p).schedTime := by
  unfold timeAt
  rw [hp]

theorem keyAt_last (b : Option Int) (i : Nat) (hi : m.temporalHeapSz ≤ i) : NoLater b (m.keyAt i) := by
  rw [keyAt, if_neg (Nat.not_lt.2 hi)]
  exact orLast_none b

theorem keyAt_congr (hsz : i < m'.temporalHeapSz ↔ i < m.temporalHeapSz)
    (hheap : m'.temporalHeap = m.temporalHeap)
    (ht : ∀ q, m.temporalHeap[i]? = some q → (m'.nodes q).schedTime = (m.nodes q).schedTime) :
    m'.keyAt i = m.keyAt i := by
  unfold keyAt timeAt
  rw [hheap]
  simp only [hsz]
  cases hq : m.temporalHeap[i]? with
  | none => rfl
  | some q => simp only [ht q hq]

theorem sorted_iff : m.Sorted ↔ Ordered NoLater 2 m.keyAt := by
  constructor
  · intro h i h0
    by_cases hi : i < m.temporalHeapSz
    · rw [keyAt, keyAt, if_pos hi, if_pos ((parent_lt h0).trans hi)]
      exact h i h0 hi
    · exact keyAt_last _ _ (Nat.le_of_not_lt hi)
  · intro h i h0 hi
    have hle := h i h0
    rwa [keyAt, keyAt, if_pos hi, if_pos ((parent_lt h0).trans hi)] at hle

theorem Sorted.root_le (h : m.Sorted) (hi : i < m.temporalHeapSz) : m.timeAt 0 ≤ m.timeAt i := by
  have hle := (sorted_iff.1 h).root preorder i
  rwa [keyAt, keyAt, if_pos hi, if_pos (Nat.zero_lt_of_lt hi)] at hle

/-! ## The heap -/

structure HeapOk (m : TemporalOrderedItemMap K T) : Prop where
  nodup : m.temporalHeap.Nodup
  size_le : m.temporalHeapSz ≤ m.temporalHeap.length
  bound : m.temporalHeap.length < 2 ^ 64
  heapIdx : ∀ i p, i < m.temporalHeapSz → m.temporalHeap[i]? = some p → (m.nodes p).heapIdx = i

def live (m : TemporalOrderedItemMap K T) : List Nat := m.temporalHeap.take m.temporalHeapSz

structure Shuffles (m m' : TemporalOrderedItemMap K T) : Prop where
  ok : HeapOk m'
  live : m'.live.Perm m.live
  sz : m'.temporalHeapSz = m.temporalHeapSz
  cap : m'.temporalHeap.length = m.temporalHeap.length
  ids : m'.idHeapMap = m.idHeapMap
  item : ∀ p, (m'.nodes p).item = (m.nodes p).item
  time : ∀ p, (m'.nodes p).schedTime = (m.nodes p).schedTime

theorem Shuffles.refl (h : HeapOk m) : Shuffles m m :=
  ⟨h, List.Perm.refl _, rfl, rfl, rfl, fun _ => rfl, fun _ => rfl⟩

theorem Shuffles.trans (h : Shuffles m m') (h' : Shuffles m' m'') : Shuffles m m'' where
  ok := h'.ok
  live := h'.live.trans h.live
  sz := h'.sz.trans h.sz
  cap := h'.cap.trans h.cap
  ids := h'.ids.trans h.ids
  item p := (h'.item p).trans (h.item p)
  time p := (h'.time p).trans (h.time p)

theorem HeapOk.slot (h : HeapOk m) (hi : i < m.temporalHeapSz) :
    ∃ p, m.temporalHeap[i]? = some p ∧ m.slot i = .ok p := by
  obtain ⟨p, hp⟩ : ∃ p, m.temporalHeap[i]? = some p :=
    ⟨_, List.getElem?_eq_getElem (Nat.lt_of_lt_of_le hi h.size_le)⟩
  exact ⟨p, hp, by unfold TemporalOrderedItemMap.slot; rw [hp]⟩

theorem checkIdx_ok (hi : i < m.temporalHeapSz) : m.checkIdx debug i = .ok () :=
  if_neg fun hc => absurd hc.2 (Nat.not_le.2 hi)

theorem slot_ok (hp : m.temporalHeap[i]? = some p) : m.slot i = .ok p := by
  unfold slot
  rw [hp]

theorem isLessThan_ok (h : HeapOk m) (hi : i < m.temporalHeapSz) (hj : j < m.temporalHeapSz) :
    m.isLessThan i j = .ok (m.less i j) := by
  obtain ⟨p, hp, ep⟩ := h.slot hi
  obtain ⟨q, hq, eq⟩ := h.slot hj
  unfold isLessThan less keyAt
  rw [ep, ok_bind, eq, ok_bind, if_pos hi, if_pos hj, timeAt_eq hp, timeAt_eq hq]
  rfl

theorem swap_perm {l : List Nat} {a b : Nat} (hi : l[i]? = some a) (hj : l[j]? = some b) :
    ((l.set i b).set j a).Perm l := by
  obtain ⟨hil, rfl⟩ := List.getElem?_eq_some_iff.1 hi
  obtain ⟨hjl, rfl⟩ := List.getElem?_eq_some_iff.1 hj
  exact List.set_set_perm hil hjl

theorem HeapOk.ne_of_ne (h : HeapOk m) (hp : m.temporalHeap[i]? = some p)
    (hq : m.temporalHeap[j]? = some q) (hij : i ≠ j) : p ≠ q := by
  rintro rfl
  exact hij ((List.getElem?_inj (List.getElem?_eq_some_iff.1 hp).1 h.nodup).1 (hp.trans hq.symm))

def swapped (m : TemporalOrderedItemMap K T) (p q r : Nat) : HeapNode T :=
  if r = q then { m.nodes q with heapIdx := (m.nodes p).heapIdx }
  else if r = p then { m.nodes p with heapIdx := (m.nodes q).heapIdx } else m.nodes r

theorem swapped_same (p q r : Nat) : (m.swapped p q r).item = (m.nodes r).item ∧
    (m.swapped p q r).schedTime = (m.nodes r).schedTime := by
  unfold swapped
  split
  · next hr => exact hr ▸ ⟨rfl, rfl⟩
  · split
    · next hr => exact hr ▸ ⟨rfl, rfl⟩
    · exact ⟨rfl, rfl⟩

theorem swapHeapNode_eq (hp : m.temporalHeap[i]? = some p)
    (hq : m.temporalHeap[j]? = some q) :
    m.swapHeapNode i j = .ok { m with
      nodes := m.swapped p q, temporalHeap := (m.temporalHeap.set i q).set j p } := by
  unfold swapHeapNode
  rw [slot_ok hp, ok_bind, slot_ok hq, ok_bind]
  dsimp only [setNode]
  congr 2
  funext r
  simp only [swapped, Function.update_apply]
  by_cases hrq : r = q
  · by_cases hqp : q = p
    · simp [hrq, hqp]
    · simp [hrq, hqp]
  · simp [hrq]

theorem swapHeapNode_ok (h : HeapOk m) (hi : i < m.temporalHeapSz) (hj : j < m.temporalHeapSz) :
    ∃ m', m.swapHeapNode i j = .ok m' ∧ Shuffles m m' ∧
      m'.keyAt = swap m.keyAt i j ∧ m'.temporalHeap[j]? = m.temporalHeap[i]? := by
  obtain ⟨p, hp, -⟩ := h.slot hi
  obtain ⟨q, hq, -⟩ := h.slot hj
  have hpi := h.heapIdx i p hi hp
  have hqj := h.heapIdx j q hj hq
  have hget := ListUpdate.getElem?_swap hp hq
  have htime : ∀ r, (m.swapped p q r).schedTime = (m.nodes r).schedTime := fun r =>
    (swapped_same p q r).2
  refine ⟨_, swapHeapNode_eq hp hq, ⟨⟨?_, ?_, ?_, ?_⟩, ?_, rfl, by simp, rfl, ?_, ?_⟩, ?_, ?_⟩
  · exact (swap_perm hp hq).nodup_iff.2 h.nodup
  · simpa using h.size_le
  · simpa using h.bound
  · intro k r hk hr
    replace hr : ((m.temporalHeap.set i q).set j p)[k]? = some r := hr
    show (m.swapped p q r).heapIdx = k
    rw [hget] at hr
    unfold swapped
    by_cases hkj : k = j
    · rw [if_pos hkj] at hr
      cases hr
      by_cases hpq : p = q
      · rw [if_pos hpq, hpq]
        exact hqj.trans hkj.symm
      · rw [if_neg hpq, if_pos rfl]
        exact hqj.trans hkj.symm
    · rw [if_neg hkj] at hr
      by_cases hki : k = i
      · rw [if_pos hki] at hr
        cases hr
        rw [if_pos rfl]
        exact hpi.trans hki.symm
      · rw [if_neg hki] at hr
        rw [if_neg (h.ne_of_ne hr hq hkj), if_neg (h.ne_of_ne hr hp hki)]
        exact h.heapIdx k r hk hr
  · show (((m.temporalHeap.set i q).set j p).take m.temporalHeapSz).Perm
      (m.temporalHeap.take m.temporalHeapSz)
    rw [List.take_set, List.take_set]
    refine swap_perm ?_ ?_
    · rwa [List.getElem?_take_of_lt hi]
    · rwa [List.getElem?_take_of_lt hj]
  · exact fun r => (swapped_same p q r).1
  · exact htime
  · funext k
    unfold keyAt timeAt swap
    simp only [hget, htime]
    by_cases hkj : k = j
    · simp [hkj, hi, hj, hp]
    · by_cases hki : k = i
      · subst hki
        simp [hkj, hi, hj, hq]
      · simp [hkj, hki]
  · exact (hget j).trans ((if_pos rfl).trans hp.symm)

theorem upFrom_ok (h : HeapOk m) (hidx : idx < m.temporalHeapSz) (hfuel : idx < fuel) :
    ∃ m', upFrom debug fuel m idx = .ok m' ∧ Shuffles m m' ∧ Up NoLater 2 m.keyAt idx m'.keyAt := by
  induction fuel generalizing m idx with
  | zero => omega
  | succ fuel ih =>
    unfold upFrom
    rw [checkIdx_ok debug hidx, ok_bind]
    by_cases h0 : idx = 0
    · rw [if_pos h0]
      exact ⟨m, rfl, .refl h, .stop fun hpos => absurd h0 hpos.ne'⟩
    have hpos := Nat.pos_of_ne_zero h0
    have hlt := parent_lt (D := 2) hpos
    have hp := hlt.trans hidx
    rw [if_neg h0, Nat.shiftRight_one]
    show ∃ m', (m.isLessThan idx (parent 2 idx) >>= _) = Except.ok m' ∧ _
    rw [isLessThan_ok h hidx hp, ok_bind]
    cases hc : m.less idx (parent 2 idx) with
    | false =>
      rw [if_pos Bool.false_ne_true]
      exact ⟨m, rfl, .refl h, .stop fun _ => decides.of_false hc⟩
    | true =>
      rw [if_neg (not_not.2 rfl)]
      obtain ⟨m1, e1, h1, hk, -⟩ := swapHeapNode_ok h hidx hp
      obtain ⟨m2, e2, h2, hup⟩ := ih h1.ok (h1.sz ▸ hp) (by omega)
      refine ⟨m2, ?_, h1.trans h2, .swap hpos (decides.of_true hc) (hk ▸ hup)⟩
      show m.swapHeapNode idx (parent 2 idx) >>= _ = _
      rw [e1, ok_bind]
      exact e2

theorem downFrom_ok (h : HeapOk m) (hidx : idx < m.temporalHeapSz)
    (hfuel : m.temporalHeapSz < fuel + idx) :
    ∃ m', downFrom debug fuel m idx = .ok m' ∧ Shuffles m m' ∧
      Down NoLater 2 m.keyAt idx m'.keyAt := by
  induction fuel generalizing m idx with
  | zero => omega
  | succ fuel ih =>
    unfold downFrom
    rw [checkIdx_ok debug hidx, ok_bind]
    dsimp only
    by_cases hleaf : idx * 2 + 1 ≥ m.temporalHeapSz
    · rw [if_pos hleaf]
      exact ⟨m, rfl, .refl h, .stop (leaf_of_two keyAt_last hleaf)⟩
    rw [if_neg hleaf]
    have hleft : idx * 2 + 1 < m.temporalHeapSz := Nat.lt_of_not_le hleaf
    have hright : (if idx * 2 + 1 + 1 < m.temporalHeapSz then m.isLessThan (idx * 2 + 1 + 1) (idx * 2 + 1)
        else .ok false) = .ok (decide (idx * 2 + 1 + 1 < m.temporalHeapSz ∧
          m.less (idx * 2 + 1 + 1) (idx * 2 + 1) = true)) := by
      by_cases hr : idx * 2 + 1 + 1 < m.temporalHeapSz
      · rw [if_pos hr, isLessThan_ok h hr hleft]
        simp [hr]
      · rw [if_neg hr]
        simp [hr]
    rw [hright, ok_bind]
    simp only [decide_eq_true_eq]
    generalize hcand : (if idx * 2 + 1 + 1 < m.temporalHeapSz ∧
      m.less (idx * 2 + 1 + 1) (idx * 2 + 1) = true then idx * 2 + 1 + 1 else idx * 2 + 1) = c
    obtain ⟨h0, hc, hp, hbest⟩ := best_of_two preorder decides keyAt_last hleft hcand
    rw [isLessThan_ok h hc hidx, ok_bind]
    cases hlt : m.less c idx with
    | false =>
      rw [if_pos Bool.false_ne_true]
      exact ⟨m, rfl, .refl h, .stop fun i h0 hp => preorder.trans (decides.of_false hlt) (hbest i h0 hp)⟩
    | true =>
      rw [if_neg (not_not.2 rfl)]
      have hgt : idx < c := hp ▸ parent_lt h0
      obtain ⟨m1, e1, h1, hk, -⟩ := swapHeapNode_ok h hidx hc
      obtain ⟨m2, e2, h2, hdown⟩ := ih h1.ok (h1.sz ▸ hc) (by have := h1.sz; omega)
      refine ⟨m2, ?_, h1.trans h2, .swap h0 hp (decides.of_true hlt) hbest (hk ▸ hdown)⟩
      rw [e1, ok_bind, e2]

theorem correctHeapNodeAt_ok (h : HeapOk m) (hidx : idx < m.temporalHeapSz) :
    ∃ m', m.correctHeapNodeAt debug idx = .ok m' ∧ Shuffles m m' ∧
      (AllBut NoLater 2 m.keyAt idx → m'.Sorted) := by
  obtain ⟨m1, e1, h1, hup⟩ := upFrom_ok debug h hidx (Nat.lt_succ_self idx)
  obtain ⟨m2, e2, h2, hdown⟩ := downFrom_ok debug h1.ok (h1.sz ▸ hidx)
    (show m1.temporalHeapSz < m1.temporalHeapSz + 1 + idx by omega)
  refine ⟨m2, ?_, h1.trans h2, fun hb => sorted_iff.2 (.corrected preorder hb hup hdown)⟩
  unfold correctHeapNodeAt correctHeapNodeUpAt
  rw [checkIdx_ok debug hidx, ok_bind, e1, ok_bind]
  exact e2

/-! ### Nodes come and go -/

theorem live_succ {k : Nat} (hp : m.temporalHeap[k]? = some p) :
    m.temporalHeap.take (k + 1) = m.temporalHeap.take k ++ [p] := by
  rw [List.take_add_one, hp]
  rfl

theorem HeapOk.live_nodup (h : HeapOk m) : m.live.Nodup :=
  h.nodup.sublist (List.take_sublist _ _)

structure Adds (m m' : TemporalOrderedItemMap K T) (p : Nat) (item : T) (time : Int) : Prop where
  ok : HeapOk m'
  live : m'.live.Perm (m.live ++ [p])
  sz : m'.temporalHeapSz = m.temporalHeapSz + 1
  cap : m'.temporalHeap.length = m.temporalHeap.length
  ids : m'.idHeapMap = m.idHeapMap
  new : (m'.nodes p).item = item ∧ (m'.nodes p).schedTime = time
  old : ∀ q, q ≠ p → (m'.nodes q).item = (m.nodes q).item ∧
    (m'.nodes q).schedTime = (m.nodes q).schedTime
  sorted : m.Sorted → m'.Sorted

def placed (m : TemporalOrderedItemMap K T) (p : Nat) (item : T) (time : Int) :
    TemporalOrderedItemMap K T :=
  { m with
    nodes := Function.update m.nodes p ⟨item, time, m.temporalHeapSz⟩
    temporalHeapSz := m.temporalHeapSz + 1 }

theorem HeapOk.placed (h : HeapOk m) (hp : m.temporalHeap[m.temporalHeapSz]? = some p) (item : T)
    (time : Int) : HeapOk (m.placed p item time) := by
  refine ⟨h.nodup, (List.getElem?_eq_some_iff.1 hp).1, h.bound, fun k r hk hr => ?_⟩
  show (Function.update m.nodes p _ r).heapIdx = k
  replace hk : k < m.temporalHeapSz + 1 := hk
  replace hr : m.temporalHeap[k]? = some r := hr
  by_cases hkm : k = m.temporalHeapSz
  · rw [hkm, hp] at hr
    cases hr
    simp [hkm]
  · rw [Function.update_of_ne (h.ne_of_ne hr hp hkm)]
    exact h.heapIdx k r (by omega) hr

theorem addHeapNode_ok (h : HeapOk m) (hroom : m.temporalHeapSz ≠ m.temporalHeap.length) (item : T)
    (time : Int) : ∃ m' p, m.addHeapNode debug item time = .ok (m', .ok p) ∧
      Adds m m' p item time := by
  obtain ⟨p, hp⟩ : ∃ p, m.temporalHeap[m.temporalHeapSz]? = some p :=
    ⟨_, List.getElem?_eq_getElem (Nat.lt_of_le_of_ne h.size_le hroom)⟩
  obtain ⟨m', e, h', hup⟩ := upFrom_ok debug (h.placed hp item time) (Nat.lt_succ_self m.temporalHeapSz)
    (Nat.lt_succ_self m.temporalHeapSz)
  refine ⟨m', p, ?_, h'.ok, ?_, h'.sz, h'.cap, h'.ids, ?_, fun q hq => ?_, fun hs => ?_⟩
  · unfold addHeapNode
    rw [if_neg hroom, slot_ok hp, ok_bind]
    show (upFrom debug (m.temporalHeapSz + 1) (m.placed p item time) m.temporalHeapSz >>= _) = _
    rw [e]
    rfl
  · exact h'.live.trans (.of_eq (live_succ hp))
  · rw [h'.item, h'.time]
    simp [placed]
  · rw [h'.item, h'.time]
    simp [placed, hq]
  · -- nothing stands below the new node
    refine sorted_iff.2 (hup.ordered preorder (((sorted_iff.1 hs).change preorder fun i hi => ?_).upTo
      fun i h0 hparent => ?_))
    · refine keyAt_congr (show i < m.temporalHeapSz + 1 ↔ _ by omega) rfl fun q hq => ?_
      simp [placed, h.ne_of_ne hq hp hi]
    · have := parent_lt (D := 2) h0
      exact keyAt_last _ _ (show m.temporalHeapSz + 1 ≤ i by omega)

structure Drops (m m' : TemporalOrderedItemMap K T) (p : Nat) : Prop where
  ok : HeapOk m'
  live : m.live.Perm (p :: m'.live)
  sz : m'.temporalHeapSz + 1 = m.temporalHeapSz
  cap : m'.temporalHeap.length = m.temporalHeap.length
  ids : m'.idHeapMap = m.idHeapMap
  old : ∀ q, q ≠ p → (m'.nodes q).item = (m.nodes q).item ∧
    (m'.nodes q).schedTime = (m.nodes q).schedTime

theorem Drops.shuffle (h : Drops m m' p) (h' : Shuffles m' m'') : Drops m m'' p where
  ok := h'.ok
  live := h.live.trans (h'.live.symm.cons p)
  sz := h'.sz ▸ h.sz
  cap := h'.cap.trans h.cap
  ids := h'.ids.trans h.ids
  old q hq := by
    rw [h'.item, h'.time]
    exact h.old q hq

theorem Shuffles.drop (h : Shuffles m m') (h' : Drops m' m'' p) : Drops m m'' p where
  ok := h'.ok
  live := h.live.symm.trans h'.live
  sz := h'.sz.trans h.sz
  cap := h'.cap.trans h.cap
  ids := h'.ids.trans h.ids
  old q hq := by
    rw [← h.item, ← h.time]
    exact h'.old q hq

variable [Inhabited T]

theorem dropBack_ok (h : HeapOk m) (hpos : 0 < m.temporalHeapSz)
    (hp : m.temporalHeap[m.temporalHeapSz - 1]? = some p) :
    ∃ m1, m.nullifyHeapNode (m.temporalHeapSz - 1) = .ok m1 ∧ m1.temporalHeapSz = m.temporalHeapSz ∧
      Drops m { m1 with temporalHeapSz := m.temporalHeapSz - 1 } p ∧
      keyAt { m1 with temporalHeapSz := m.temporalHeapSz - 1 } =
        dropAt m.keyAt (m.temporalHeapSz - 1) := by
  obtain ⟨n, hn⟩ : ∃ n, m.temporalHeapSz = n + 1 := ⟨m.temporalHeapSz - 1, by omega⟩
  rw [hn, Nat.add_sub_cancel] at hp ⊢
  have hle := h.size_le
  rw [hn] at hle
  refine ⟨m.setNode p ⟨default, 0, 0⟩, by unfold nullifyHeapNode; rw [slot_ok hp]; rfl, hn,
    ⟨⟨h.nodup, ?_, h.bound, fun k r hk hr => ?_⟩, ?_, hn.symm, rfl, rfl, fun q hq => ?_⟩, funext fun i => ?_⟩
  · show n ≤ m.temporalHeap.length
    omega
  · replace hk : k < n := hk
    replace hr : m.temporalHeap[k]? = some r := hr
    show (Function.update m.nodes p _ r).heapIdx = k
    rw [Function.update_of_ne (h.ne_of_ne hr hp (Nat.ne_of_lt hk))]
    exact h.heapIdx k r (by omega) hr
  · unfold live
    rw [hn, live_succ hp]
    exact List.perm_append_singleton _ _
  · simp [setNode, hq]
  · unfold dropAt
    by_cases hi : i = n
    · rw [if_pos hi, keyAt, if_neg (by simp [hi])]
    · rw [if_neg hi]
      refine keyAt_congr (show i < n ↔ i < m.temporalHeapSz by omega) rfl fun q hq => ?_
      simp [setNode, h.ne_of_ne hq hp hi]

theorem eraseHeapNodeAt_ok (h : HeapOk m) (hidx : idx < m.temporalHeapSz)
    (hp : m.temporalHeap[idx]? = some p) :
    ∃ m', m.eraseHeapNodeAt debug idx = .ok m' ∧ Drops m m' p ∧ (m.Sorted → m'.Sorted) := by
  have hpos : 0 < m.temporalHeapSz := Nat.zero_lt_of_lt hidx
  have hsz : m.temporalHeapSz < 2 ^ 64 := Nat.lt_of_le_of_lt h.size_le h.bound
  have hback : subT m.temporalHeapSz 1 = m.temporalHeapSz - 1 := subT_of_le hpos hsz
  have hnone : ∀ i, m.temporalHeapSz - 1 < i → m.keyAt i = none := fun i hi =>
    if_neg (Nat.not_lt.2 (by omega))
  unfold eraseHeapNodeAt
  rw [checkIdx_ok debug hidx, ok_bind, hback]
  by_cases hlast : m.temporalHeapSz - 1 = idx
  · rw [if_pos hlast]
    obtain ⟨m1, e1, hsz1, h1, hk⟩ := dropBack_ok h hpos (hlast ▸ hp)
    refine ⟨_, ?_, h1, fun hs => sorted_iff.2 (hk ▸ (sorted_iff.1 hs).dropAt (totalPreorder_le id) hnone)⟩
    rw [e1, ok_bind, hsz1, hback]
  · rw [if_neg hlast]
    obtain ⟨m1, e1, h1, hk1, hmoved⟩ := swapHeapNode_ok h hidx
      (show m.temporalHeapSz - 1 < m.temporalHeapSz by omega)
    obtain ⟨m2, e2, hsz2, h2, hk2⟩ := dropBack_ok h1.ok (h1.sz ▸ hpos) (by rw [h1.sz, hmoved, hp])
    rw [h1.sz] at e2 hsz2 h2 hk2
    obtain ⟨m3, e3, h3, hs3⟩ := correctHeapNodeAt_ok debug h2.ok
      (show idx < m.temporalHeapSz - 1 by omega)
    refine ⟨m3, ?_, h1.drop (h2.shuffle h3), fun hs => hs3 ?_⟩
    · rw [e1, ok_bind, e2, ok_bind, hsz2, hback]
      exact e3
    · rw [hk2, hk1]
      exact (sorted_iff.1 hs).dropSwapped (totalPreorder_le id) hnone

/-- Popping the heap is erasing its root, which has nowhere to go up. -/
theorem popHeapNode_eq (m : TemporalOrderedItemMap K T) :
    m.popHeapNode debug = m.eraseHeapNodeAt debug 0 := by
  have hroot : ∀ m : TemporalOrderedItemMap K T,
      m.correctHeapNodeAt debug 0 = m.correctHeapNodeDownAt debug 0 := by
    intro m
    unfold correctHeapNodeAt correctHeapNodeUpAt correctHeapNodeDownAt
    rw [upFrom]
    cases h : m.checkIdx debug 0 with
    | ok => rfl
    | error fault =>
      rw [downFrom, h]
      rfl
  unfold popHeapNode eraseHeapNodeAt
  simp only [hroot]

end TemporalOrderedItemMap

end ExpiryQueue
