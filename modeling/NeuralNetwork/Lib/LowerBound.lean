import Mathlib.Data.List.TakeWhile

/-!
# std::lower_bound

`lowerBound before l` is the binary search of `std::lower_bound` over a list, where `before x` is the
comparison of `x` with the key. `lowerBound_eq` is what it finds in a partitioned list, and
`exists_partition` says that a sorted list is one.
-/

namespace LowerBound

variable {α : Type} (before : α → Bool)

/-- The loop, at the range of `len` elements from `first` on; a round halves `len`. -/
def search (l : List α) : Nat → Nat → Nat → Nat
  | 0, first, _ => first
  | fuel + 1, first, len =>
    if len = 0 then first
    else
      let half := len / 2
      if (l[first + half]?).any before then search l fuel (first + half + 1) (len - half - 1)
      else search l fuel first half

def lowerBound (l : List α) : Nat := search before l l.length 0 l.length

variable {before} {front back : List α}

theorem any_before (hfront : ∀ x ∈ front, before x = true) (hback : ∀ x ∈ back, before x = false)
    {i : Nat} (hi : i < (front ++ back).length) :
    ((front ++ back)[i]?).any before = decide (i < front.length) := by
  by_cases h : i < front.length
  · rw [List.getElem?_append_left h, List.getElem?_eq_getElem h, decide_eq_true h]
    exact hfront _ (List.getElem_mem h)
  · have hle := Nat.not_lt.1 h
    rw [List.length_append] at hi
    have hlt : i - front.length < back.length := by omega
    rw [List.getElem?_append_right hle, List.getElem?_eq_getElem hlt, decide_eq_false h]
    exact hback _ (List.getElem_mem hlt)

theorem search_eq (hfront : ∀ x ∈ front, before x = true) (hback : ∀ x ∈ back, before x = false)
    {fuel first len : Nat} (hfuel : len ≤ fuel) (hfirst : first ≤ front.length)
    (hlast : front.length ≤ first + len) (hlen : first + len ≤ (front ++ back).length) :
    search before (front ++ back) fuel first len = front.length := by
  induction fuel generalizing first len with
  | zero =>
    unfold search
    omega
  | succ fuel ih =>
    unfold search
    by_cases h0 : len = 0
    · rw [if_pos h0]
      omega
    · rw [if_neg h0]
      dsimp only
      rw [any_before hfront hback (by omega)]
      by_cases hmid : first + len / 2 < front.length
      · rw [decide_eq_true hmid, if_pos rfl]
        exact ih (by omega) (by omega) (by omega) (by omega)
      · rw [decide_eq_false hmid, if_neg Bool.false_ne_true]
        exact ih (by omega) hfirst (by omega) (by omega)

/-- **The search finds the boundary of a partitioned list.** -/
theorem lowerBound_eq (hfront : ∀ x ∈ front, before x = true) (hback : ∀ x ∈ back, before x = false) :
    lowerBound before (front ++ back) = front.length :=
  search_eq hfront hback (Nat.le_refl _) (Nat.zero_le _) (by simp) (by simp)

/-- A list that is sorted in an order with which the comparison agrees is partitioned. -/
theorem exists_partition {r : α → α → Prop} {l : List α} (hsorted : l.Pairwise r)
    (hr : ∀ x y, r x y → before y = true → before x = true) :
    ∃ front back, l = front ++ back ∧ (∀ x ∈ front, before x = true) ∧
      ∀ x ∈ back, before x = false := by
  induction l with
  | nil => exact ⟨[], [], rfl, by simp, by simp⟩
  | cons x l ih =>
    obtain ⟨hx, hl⟩ := List.pairwise_cons.1 hsorted
    by_cases hb : before x = true
    · obtain ⟨front, back, rfl, hfront, hback⟩ := ih hl
      exact ⟨x :: front, back, rfl, List.forall_mem_cons.2 ⟨hb, hfront⟩, hback⟩
    · refine ⟨[], x :: l, rfl, by simp, List.forall_mem_cons.2 ⟨Bool.eq_false_iff.2 hb, fun y hy => ?_⟩⟩
      exact Bool.eq_false_iff.2 fun h => hb (hr x y (hx y hy) h)

end LowerBound
