import Mathlib.Algebra.Order.BigOperators.Group.List
import Mathlib.Algebra.Order.Ring.Nat
import Mathlib.Data.List.Perm.Subperm

/-!
# Values that come back with a counter

Values enter, are accepted while their counter is below a limit, and come back with the counter one
higher; what came back may be handed in again, once for each time. `Rounds` says so for the lists of a
run. `count_add_left_le`: the values of a key come back no more often than those that entered have
rounds left, and a value that may still be handed in has none left if they were used up.
-/

namespace Retry

variable {V K : Type} [DecidableEq K] (key : V → K) (level : V → Nat) (up : V → V) (limit : Nat)

/-- How many values of a key are in a list. -/
def count (k : K) (l : List V) : Nat := l.countP (key · = k)

/-- The rounds that the values of a key have left. -/
def left (k : K) (l : List V) : Nat := ((l.filter (key · = k)).map (limit - level ·)).sum

/-- What was accepted, and what came back. -/
structure Rounds (entered handed accepted returned : List V) : Prop where
  offered : accepted.Subperm (entered ++ handed)
  below : ∀ v ∈ accepted, level v < limit
  back : returned.Subperm (accepted.map up)

variable {key level up limit} {k : K} {l l' : List V}

theorem left_append : left key level limit k (l ++ l') =
    left key level limit k l + left key level limit k l' := by
  unfold left
  rw [List.filter_append, List.map_append, List.sum_append]

variable (key level limit k) in
theorem left_le (h : l.Subperm l') : left key level limit k l ≤ left key level limit k l' := by
  obtain ⟨m, hperm, hsub⟩ := h.filter (key · = k)
  unfold left
  rw [← (hperm.map _).sum_eq]
  exact (hsub.map _).sum_le_sum fun _ _ => Nat.zero_le _

theorem count_add_left_up (hkey : ∀ v, key (up v) = key v)
    (hlevel : ∀ v, level v < limit → level (up v) = level v + 1) (h : ∀ v ∈ l, level v < limit) :
    count key k (l.map up) + left key level limit k (l.map up) = left key level limit k l := by
  induction l with
  | nil => rfl
  | cons v l ih =>
    obtain ⟨hv, hl⟩ := List.forall_mem_cons.1 h
    have hrest := ih hl
    unfold count left at hrest ⊢
    rw [List.map_cons]
    by_cases hk : key v = k
    · have hup : key (up v) = k := (hkey v).trans hk
      rw [List.countP_cons_of_pos (by simpa using hup), List.filter_cons_of_pos (by simpa using hup),
        List.filter_cons_of_pos (by simpa using hk), List.map_cons, List.map_cons, List.sum_cons,
        List.sum_cons, hlevel v hv]
      omega
    · have hup : ¬ key (up v) = k := fun he => hk ((hkey v).symm.trans he)
      rw [List.countP_cons_of_neg (by simpa using hup), List.filter_cons_of_neg (by simpa using hup),
        List.filter_cons_of_neg (by simpa using hk)]
      exact hrest

/-- **The rounds that are left bound the number of returns.** -/
theorem Rounds.count_add_left_le {entered handed accepted returned extra : List V}
    (h : Rounds level up limit entered handed accepted returned) (hkey : ∀ v, key (up v) = key v)
    (hlevel : ∀ v, level v < limit → level (up v) = level v + 1)
    (hback : (handed ++ extra).Subperm returned) :
    count key k returned + left key level limit k extra ≤ left key level limit k entered := by
  have hround := count_add_left_up (k := k) hkey hlevel h.below
  have hcount : count key k returned ≤ count key k (accepted.map up) := h.back.countP_le _
  have hleft := left_le key level limit k h.back
  have hin := left_le key level limit k h.offered
  have hout := left_le key level limit k hback
  rw [left_append] at hin hout
  omega

theorem left_of_zero (h : ∀ v ∈ l, key v = k → level v = 0) :
    left key level limit k l = limit * count key k l := by
  unfold left count
  have hmap : (l.filter (key · = k)).map (limit - level ·) =
      (l.filter (key · = k)).map fun _ => limit := by
    refine List.map_congr_left fun v hv => ?_
    obtain ⟨hm, hk⟩ := List.mem_filter.1 hv
    rw [h v hm (of_decide_eq_true hk), Nat.sub_zero]
  rw [hmap, List.map_const', List.sum_replicate_nat, List.countP_eq_length_filter,
    Nat.mul_comm]

theorem le_level_of_left (h : left key level limit k l = 0) {v : V} (hv : v ∈ l) (hk : key v = k) :
    limit ≤ level v := by
  have hm : limit - level v ∈ (l.filter (key · = k)).map (limit - level ·) :=
    List.mem_map_of_mem (List.mem_filter.2 ⟨hv, decide_eq_true hk⟩)
  exact Nat.sub_eq_zero_iff_le.1 (List.sum_eq_zero_iff.1 h _ hm)

end Retry
