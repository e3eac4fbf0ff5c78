import Mathlib.Logic.Function.Iterate
import Mathlib.Tactic.Ring

/-!
# The indices of a complete tree stored in an array

The node `k` of a tree of out-degree `D` has the children `child D k i = k * D + (i + 1)`, `i < D`.
`Desc D k m` says that `m` is `k` or lies below it. The subtrees of two siblings share no index
(`Desc.child_inj`), and the greatest index `h` levels below `k` is `lastIdx D h k`
(`lastIdx_closed`). `Below D arr arr' k` says that a step from `arr` to `arr'` has written no other nodes
than those from `k` down.
-/

namespace DaryTree

variable {D k m i j : Nat}

def child (D k i : Nat) : Nat := k * D + (i + 1)

def parent (D k : Nat) : Nat := (k - 1) / D

/-- `m` is `k` or below it. -/
def Desc (D k m : Nat) : Prop := ∃ d, (parent D)^[d] m = k

theorem parent_child (hi : i < D) : parent D (child D k i) = k := by
  have : k * D + (i + 1) - 1 = i + D * k := by rw [Nat.mul_comm]; omega
  simp only [parent, child, this]
  rw [Nat.add_mul_div_left _ _ (by omega), Nat.div_eq_of_lt hi, Nat.zero_add]

theorem child_gt (hi : i < D) : k < child D k i := by
  have : k * 1 ≤ k * D := Nat.mul_le_mul_left k (by omega)
  unfold child; omega

/-- Every place but the root is a child of its parent. -/
theorem exists_child (hD : 0 < D) (hm : 0 < m) : ∃ i, i < D ∧ m = child D (parent D m) i := by
  refine ⟨(m - 1) % D, Nat.mod_lt _ hD, ?_⟩
  have := Nat.div_add_mod (m - 1) D
  rw [Nat.mul_comm] at this
  unfold child parent
  omega

/-- `m / D` is the parent but for the multiples of `D`. -/
theorem div_eq_parent (hD : 0 < D) (hm : m % D ≠ 0) : m / D = parent D m := by
  have hdiv := Nat.div_add_mod m D
  have hlt := Nat.mod_lt m hD
  rw [Nat.mul_comm] at hdiv
  symm
  apply Nat.div_eq_of_lt_le
  · omega
  · rw [Nat.add_one_mul]
    omega

theorem parent_lt (hm : 0 < m) : parent D m < m :=
  Nat.lt_of_le_of_lt (Nat.div_le_self _ _) (by omega)

theorem parent_le : parent D m ≤ m :=
  Nat.le_trans (Nat.div_le_self _ _) (Nat.sub_le _ _)

@[simp] theorem Desc.refl : Desc D k k := ⟨0, rfl⟩

theorem Desc.trans {n : Nat} (h1 : Desc D k m) (h2 : Desc D m n) : Desc D k n := by
  obtain ⟨d, rfl⟩ := h1
  obtain ⟨e, rfl⟩ := h2
  exact ⟨d + e, Function.iterate_add_apply _ _ _ _⟩

theorem desc_child (hi : i < D) : Desc D k (child D k i) := ⟨1, parent_child hi⟩

theorem Desc.of_child {n : Nat} (hi : i < D) (h : Desc D (child D k i) n) : Desc D k n :=
  (desc_child hi).trans h

theorem iterate_parent_le (d : Nat) : (parent D)^[d] m ≤ m := by
  induction d with
  | zero => exact Nat.le_refl _
  | succ d ih => rw [Function.iterate_succ_apply']; exact Nat.le_trans parent_le ih

theorem Desc.le (h : Desc D k m) : k ≤ m := by
  obtain ⟨d, rfl⟩ := h; exact iterate_parent_le d

theorem not_desc_child_self (hi : i < D) : ¬ Desc D (child D k i) k := fun h => by
  have := h.le; have := child_gt (k := k) hi; omega

/-- An index at or below two siblings is below one sibling only. -/
theorem Desc.child_inj (hi : i < D) (hj : j < D) (h1 : Desc D (child D k i) m)
    (h2 : Desc D (child D k j) m) : i = j := by
  obtain ⟨d, hd⟩ := h1
  obtain ⟨e, he⟩ := h2
  have key : ∀ {i j : Nat} {d e : Nat}, i < D → j < D → d < e →
      (parent D)^[d] m = child D k i → (parent D)^[e] m = child D k j → False := by
    intro i j d e hi hj hlt hd he
    obtain ⟨f, rfl⟩ : ∃ f, e = f + (d + 1) := ⟨e - (d + 1), by omega⟩
    rw [Function.iterate_add_apply, Function.iterate_succ_apply', hd, parent_child hi] at he
    have := iterate_parent_le (D := D) (m := k) f
    have := child_gt (k := k) hj
    omega
  rcases Nat.lt_trichotomy d e with h | rfl | h
  · exact (key hi hj h hd he).elim
  · have := hd.symm.trans he
    unfold child at this; omega
  · exact (key hj hi h he hd).elim

/-- The greatest index `h` levels below `k`. -/
def lastIdx (D : Nat) : Nat → Nat → Nat
  | 0, k => k
  | h + 1, k => lastIdx D h (child D k (D - 1))

theorem lastIdx_mono (h : Nat) (hkm : k ≤ m) : lastIdx D h k ≤ lastIdx D h m := by
  induction h generalizing k m with
  | zero => exact hkm
  | succ h ih =>
    refine ih ?_
    have := Nat.mul_le_mul_right D hkm
    unfold child; omega

theorem lastIdx_child_le (h : Nat) (hi : i < D) :
    lastIdx D h (child D k i) ≤ lastIdx D (h + 1) k :=
  lastIdx_mono h (by unfold child; omega)

theorem lastIdx_closed (hD : 0 < D) (h k : Nat) :
    lastIdx D h k * (D - 1) + D = (k * (D - 1) + D) * D ^ h := by
  induction h generalizing k with
  | zero => simp [lastIdx]
  | succ h ih =>
    obtain ⟨E, rfl⟩ : ∃ E, D = E + 1 := ⟨D - 1, by omega⟩
    simp only [lastIdx, child, Nat.add_sub_cancel] at ih ⊢
    rw [ih]
    ring

theorem le_lastIdx (hD : 0 < D) (h k : Nat) : k ≤ lastIdx D h k := by
  induction h generalizing k with
  | zero => exact Nat.le_refl _
  | succ h ih =>
    have := child_gt (k := k) (show D - 1 < D by omega)
    exact Nat.le_trans (Nat.le_of_lt this) (ih _)

/-! ## Writes below a node -/

section

variable {α : Type*} {arr arr' arr'' : List α}

/-- Only nodes from `k` down were written. -/
structure Below (D : Nat) (arr arr' : List α) (k : Nat) : Prop where
  length : arr'.length = arr.length
  frame : ∀ m, ¬ Desc D k m → arr'[m]? = arr[m]?

theorem Below.write (arr : List α) (k : Nat) (a : α) : Below D arr (arr.set k a) k where
  length := List.length_set
  frame m hm := List.getElem?_set_ne (by rintro rfl; exact hm .refl)

theorem Below.trans (h1 : Below D arr arr' k) (h2 : Below D arr' arr'' k) : Below D arr arr'' k where
  length := h2.length.trans h1.length
  frame m hm := (h2.frame m hm).trans (h1.frame m hm)

theorem Below.of_child (hb : Below D arr arr' (child D k i)) (hi : i < D) : Below D arr arr' k where
  length := hb.length
  frame m hm := hb.frame m fun hd => hm (hd.of_child hi)

theorem Below.parent_eq (hb : Below D arr arr' (child D k i)) (hi : i < D) : arr'[k]? = arr[k]? :=
  hb.frame k (not_desc_child_self hi)

theorem Below.sibling_eq (hb : Below D arr arr' (child D k i)) (hi : i < D) (hj : j < D) (hji : j ≠ i)
    (hm : Desc D (child D k j) m) : arr'[m]? = arr[m]? :=
  hb.frame m fun hd => hji (hm.child_inj hj hi hd)

theorem set_above_eq (hi : i < D) (a : α) (hm : Desc D (child D k i) m) :
    (arr.set k a)[m]? = arr[m]? :=
  List.getElem?_set_ne (by rintro rfl; exact not_desc_child_self hi hm)

end

/-! ## The interval of a node of a binary tree -/

theorem half (a h : Nat) : a + (a + 2 ^ (h + 1) - a) / 2 = a + 2 ^ h := by
  rw [Nat.pow_succ]
  omega

theorem pow_succ_half (h : Nat) : 2 ^ (h + 1) = 2 ^ h + 2 ^ h := by
  rw [Nat.pow_succ]
  omega

end DaryTree
