import NeuralNetwork.AlgorithmExtension.ShortHeap
import NeuralNetwork.Lib.ListUpdate
import NeuralNetwork.Lib.Loop

/-!
# push_heap and pop_heap keep a heap

In a heap (`DaryHeap.IsHeap`), `pushHeap` takes up an element at
the end (`pushHeap_ok`) and `popHeap` puts the root there (`popHeap_ok`); both only move elements. The
order `r` may be any that the comparison decides, also a coarser one.
-/

namespace ShortHeap

open Cpp Loop DaryTree DaryHeap

variable {α : Type} {cmp : α → α → Bool} {r : α → α → Prop} {D : Nat} {l : List α} {i j idx n fuel : Nat}

def slots (l : List α) (n i : Nat) : Option α := if i < n then l[i]? else none

theorem slots_of_lt (h : i < n) : slots l n i = l[i]? := if_pos h

theorem slots_of_le (h : n ≤ i) : slots l n i = none := if_neg (Nat.not_lt.2 h)

theorem slots_length : slots l l.length = fun i => l[i]? := by
  funext i
  by_cases h : i < l.length
  · exact slots_of_lt h
  · rw [slots_of_le (Nat.le_of_not_lt h), List.getElem?_eq_none (Nat.le_of_not_lt h)]

structure Moved (n : Nat) (l l' : List α) : Prop where
  perm : l'.Perm l
  after : ∀ i, n ≤ i → l'[i]? = l[i]?

theorem Moved.refl (n : Nat) (l : List α) : Moved n l l := ⟨.refl l, fun _ _ => rfl⟩

theorem Moved.trans {l' l'' : List α} (h1 : Moved n l l') (h2 : Moved n l' l'') : Moved n l l'' :=
  ⟨h2.perm.trans h1.perm, fun i hi => (h2.after i hi).trans (h1.after i hi)⟩

theorem swapAt_ok (hi : i < n) (hj : j < n) (hn : n ≤ l.length) :
    ∃ l', swapAt l i j = .ok l' ∧ Moved n l l' ∧ slots l' n = swap (slots l n) i j := by
  have hil := Nat.lt_of_lt_of_le hi hn
  have hjl := Nat.lt_of_lt_of_le hj hn
  have ha := List.getElem?_eq_getElem hil
  have hb := List.getElem?_eq_getElem hjl
  have hget := ListUpdate.getElem?_swap ha hb
  refine ⟨(l.set i l[j]).set j l[i], ?_, ⟨List.set_set_perm hil hjl, fun k hk => ?_⟩, ?_⟩
  · unfold swapAt
    rw [ha, hb]
  · rw [hget, if_neg (by omega), if_neg (by omega)]
  · funext k
    unfold swap
    by_cases hk : k < n
    · rw [slots_of_lt hk, hget, slots_of_lt hi, slots_of_lt hj, slots_of_lt hk, ha, hb]
    · rw [slots_of_le (Nat.le_of_not_lt hk), if_neg (by omega), if_neg (by omega),
        slots_of_le (Nat.le_of_not_lt hk)]

theorem better_slots (hi : i < n) (hj : j < n) :
    better cmp l i j = noWorse cmp (slots l n i) (slots l n j) := by
  unfold better
  rw [slots_of_lt hi, slots_of_lt hj]

theorem pushUpHeap_ok (hcmp : Decides cmp r) (hidx : idx < n) (hn : n ≤ l.length) (hfuel : idx < fuel) :
    ∃ l', pushUpHeap cmp D fuel l idx n = .ok l' ∧ Moved n l l' ∧
      Up (orLast r) D (slots l n) idx (slots l' n) := by
  induction fuel generalizing l idx with
  | zero => omega
  | succ fuel ih =>
    unfold pushUpHeap
    rw [if_neg (Nat.not_le.2 hidx)]
    by_cases h0 : idx = 0
    · rw [if_pos h0]
      exact ⟨l, rfl, .refl n l, .stop fun hpos => absurd h0 hpos.ne'⟩
    rw [if_neg h0]
    have hpos := Nat.pos_of_ne_zero h0
    have hlt : parent D idx < idx := parent_lt hpos
    have hp := hlt.trans hidx
    dsimp only
    rw [show (idx - 1) / D = parent D idx from rfl, better_slots hp hidx]
    cases hb : noWorse cmp (slots l n (parent D idx)) (slots l n idx) with
    | true =>
      rw [if_pos rfl]
      exact ⟨l, rfl, .refl n l, .stop fun _ => hcmp.noWorse.of_true hb⟩
    | false =>
      rw [if_neg Bool.false_ne_true]
      obtain ⟨l1, e1, hm1, ht⟩ := swapAt_ok hp hidx hn
      obtain ⟨l2, e2, hm2, hup⟩ := ih hp (hm1.perm.length_eq ▸ hn) (by omega)
      refine ⟨l2, ?_, hm1.trans hm2, .swap hpos (hcmp.noWorse.of_false hb) ?_⟩
      · rw [e1, ok_bind, e2]
      · rw [swap_comm, ← ht]
        exact hup

theorem pushDownHeap_ok (hD : 0 < D) (hr : TotalPreorder r) (hcmp : Decides cmp r) (hidx : idx < n)
    (hn : n ≤ l.length) (hfuel : n ≤ idx + fuel) :
    ∃ l', pushDownHeap cmp D fuel l idx n = .ok l' ∧ Moved n l l' ∧
      Down (orLast r) D (slots l n) idx (slots l' n) := by
  induction fuel generalizing l idx with
  | zero => omega
  | succ fuel ih =>
    unfold pushDownHeap
    rw [if_neg (Nat.not_le.2 hidx)]
    have hlast : ∀ b i, n ≤ i → orLast r b (slots l n i) := by
      intro b i hi
      rw [slots_of_le hi]
      exact orLast_none b
    rw [bestChild_congr fun a b ha hb => better_slots ha hb]
    rcases bestChild_spec hD hr.orLast hcmp.noWorse hlast idx with
      ⟨e, hstop⟩ | ⟨c, e, h0, hc, hp, hbest⟩
    · rw [e]
      exact ⟨l, rfl, .refl n l, .stop hstop⟩
    · rw [e]
      dsimp only
      have hgt : idx < c := hp ▸ parent_lt h0
      rw [better_slots hidx hc]
      cases hb : noWorse cmp (slots l n idx) (slots l n c) with
      | true =>
        rw [if_pos rfl]
        refine ⟨l, rfl, .refl n l, .stop fun i h0 hp => ?_⟩
        exact hr.orLast.trans (hcmp.noWorse.of_true hb) (hbest i h0 hp)
      | false =>
        rw [if_neg Bool.false_ne_true]
        obtain ⟨l1, e1, hm1, ht⟩ := swapAt_ok hidx hc hn
        obtain ⟨l2, e2, hm2, hd⟩ := ih hc (hm1.perm.length_eq ▸ hn) (by omega)
        refine ⟨l2, ?_, hm1.trans hm2, .swap h0 hp (hcmp.noWorse.of_false hb) hbest (ht ▸ hd)⟩
        rw [e1, ok_bind, e2]

/-! ## Heaps -/

theorem isHeap_slots (h : IsHeap r D l) (n : Nat) : Ordered (orLast r) D (slots l n) := by
  intro i h0
  by_cases hi : i < n
  · rw [slots_of_lt hi, slots_of_lt ((parent_lt h0).trans hi)]
    exact h i h0
  · rw [slots_of_le (Nat.le_of_not_lt hi)]
    exact orLast_none _

theorem pushHeap_ok (hr : TotalPreorder r) (hcmp : Decides cmp r) (h : IsHeap r D l) (a : α) :
    ∃ l', pushHeap cmp D (l ++ [a]) = .ok l' ∧ l'.Perm (l ++ [a]) ∧ IsHeap r D l' := by
  have hlen : (l ++ [a]).length = l.length + 1 := by rw [List.length_append, List.length_singleton]
  unfold pushHeap
  rw [hlen, if_neg (Nat.succ_ne_zero _), Nat.add_sub_cancel]
  obtain ⟨l', e, hm, hup⟩ := pushUpHeap_ok hcmp (D := D) (n := l.length + 1) (Nat.lt_succ_self l.length)
    (Nat.le_of_eq hlen.symm) (Nat.lt_succ_self _)
  refine ⟨l', e, hm.perm, ?_⟩
  rw [← hlen, slots_length, ← hm.perm.length_eq, slots_length] at hup
  have hb : AllBut (orLast r) D (fun i => (l ++ [a])[i]?) l.length := by
    refine Ordered.change hr.orLast h fun i hi => ?_
    by_cases hlt : i < l.length
    · rw [List.getElem?_append_left hlt]
    · rw [List.getElem?_eq_none (by omega), List.getElem?_eq_none (by omega)]
  refine Up.ordered hr.orLast (hb.upTo fun i h0 hp => ?_) hup
  have hlt : l.length < i := hp ▸ parent_lt h0
  rw [List.getElem?_eq_none (hlen ▸ hlt : (l ++ [a]).length ≤ i)]
  exact orLast_none _

/-- **The root is put at the end, and what stands before it is a heap.** -/
theorem popHeap_ok (hD : 0 < D) (hr : TotalPreorder r) (hcmp : Decides cmp r) {a : α}
    (h : IsHeap r D (a :: l)) :
    ∃ l', popHeap cmp D (a :: l) = .ok (l' ++ [a]) ∧ l'.Perm l ∧ IsHeap r D l' := by
  have hlen : (a :: l).length - 1 = l.length := rfl
  -- the last place takes the root
  obtain ⟨l1, e1, hm1, ht1⟩ := swapAt_ok (l := a :: l) (i := 0) (j := l.length) (n := l.length + 1)
    (by omega) (by omega) (Nat.le_refl _)
  have hend : ∀ l2, Moved l.length l1 l2 → ∃ l', l2 = l' ++ [a] ∧ l'.Perm l := by
    intro l2 hm2
    have hl2 : l2.length = l.length + 1 := (hm2.perm.trans hm1.perm).length_eq
    have hla : l2[l.length]? = some a := by
      rw [hm2.after _ (Nat.le_refl _), ← slots_of_lt (Nat.lt_succ_self _), ht1, swap_right,
        slots_of_lt (by omega)]
      rfl
    have hne : l2 ≠ [] := List.ne_nil_of_length_pos (by omega)
    have hlast : l2.getLast hne = a := by
      rw [List.getLast_eq_getElem]
      rw [List.getElem?_eq_getElem (by omega)] at hla
      simpa [hl2] using hla
    have hsnoc : l2.dropLast ++ [a] = l2 := by
      have := List.dropLast_append_getLast hne
      rwa [hlast] at this
    refine ⟨l2.dropLast, hsnoc.symm, ?_⟩
    have hperm : (l2.dropLast ++ [a]).Perm (a :: l) := by
      rw [hsnoc]
      exact hm2.perm.trans hm1.perm
    exact ((List.perm_append_singleton a _).symm.trans hperm).cons_inv
  unfold popHeap
  dsimp only
  rw [hlen, if_neg (by simp), e1, ok_bind]
  by_cases hpos : l.length > 0
  · rw [if_pos hpos]
    have hl1 : l1.length = l.length + 1 := hm1.perm.length_eq
    obtain ⟨l2, e2, hm2, hd⟩ := pushDownHeap_ok (l := l1) hD hr hcmp hpos (by omega)
      (Nat.le_add_left _ 0)
    obtain ⟨l', rfl, hperm⟩ := hend l2 hm2
    refine ⟨l', e2, hperm, ?_⟩
    have hslots : slots (l' ++ [a]) l.length = fun i => l'[i]? := by
      rw [← hperm.length_eq, ← slots_length]
      funext i
      by_cases hi : i < l'.length
      · rw [slots_of_lt hi, slots_of_lt hi, List.getElem?_append_left hi]
      · rw [slots_of_le (Nat.le_of_not_lt hi), slots_of_le (Nat.le_of_not_lt hi)]
    have hb : AllBut (orLast r) D (slots l1 l.length) 0 := by
      refine Ordered.change hr.orLast (isHeap_slots h l.length) fun i hi => ?_
      by_cases hlt : i < l.length
      · rw [slots_of_lt hlt, slots_of_lt hlt, ← slots_of_lt (Nat.lt_succ_of_lt hlt), ht1,
          swap_of_ne hi hlt.ne, slots_of_lt (Nat.lt_succ_of_lt hlt)]
      · rw [slots_of_le (Nat.le_of_not_lt hlt), slots_of_le (Nat.le_of_not_lt hlt)]
    have hord := hd.ordered (hb.down fun h0 => absurd h0 (Nat.lt_irrefl 0))
    rwa [hslots] at hord
  · rw [if_neg hpos]
    obtain ⟨l', rfl, hperm⟩ := hend l1 (.refl _ l1)
    refine ⟨l', rfl, hperm, ?_⟩
    obtain rfl : l' = [] := List.eq_nil_of_length_eq_zero (by rw [hperm.length_eq]; omega)
    exact isHeap_nil

end ShortHeap
