import Mathlib.Data.List.Infix

/-!
# The pieces of a delimited stream

`ended p s` are the pieces of `s` that an element with `p` ends, in order, and `unfinished p s` is what
follows the last of them; together they are `s.splitOnP p`. Each element more either ends the
unfinished piece (`ended_snoc`, `unfinished_snoc`) or makes it longer (`ended_snoc_of_not`,
`unfinished_snoc_of_not`), so that what has ended stays (`ended_isPrefix`) and what is unfinished
begins a later piece (`exists_piece`).
-/

namespace Pieces

variable {α : Type} {p : α → Bool} {s t : List α} {c : α}

def ended (p : α → Bool) (s : List α) : List (List α) := (s.splitOnP p).dropLast

def unfinished (p : α → Bool) (s : List α) : List α := (s.splitOnP p).getLast (List.splitOnP_ne_nil p s)

theorem splitOnP_eq (p : α → Bool) (s : List α) : s.splitOnP p = ended p s ++ [unfinished p s] :=
  (List.dropLast_append_getLast (List.splitOnP_ne_nil p s)).symm

theorem split_inj {l l' : List (List α)} {x x' : List α} (h : l ++ [x] = l' ++ [x']) : l = l' ∧ x = x' := by
  obtain ⟨hl, hx⟩ := List.append_inj' h rfl
  exact ⟨hl, List.singleton_inj.1 hx⟩

theorem split_snoc (hc : p c = true) : ended p (s ++ [c]) = ended p s ++ [unfinished p s] ∧
    unfinished p (s ++ [c]) = [] := by
  apply split_inj
  rw [← splitOnP_eq, List.splitOnP_append_cons s [] hc, splitOnP_eq p s]
  rfl

theorem split_snoc_of_not (hc : p c = false) : ended p (s ++ [c]) = ended p s ∧
    unfinished p (s ++ [c]) = unfinished p s ++ [c] := by
  apply split_inj
  rw [← splitOnP_eq]
  induction s with
  | nil =>
    refine List.splitOnP_eq_singleton fun x hx => ?_
    rw [List.mem_singleton.1 hx, hc]
  | cons x s ih =>
    have hs := splitOnP_eq p (x :: s)
    rw [List.splitOnP_cons_eq_if_modifyHead, splitOnP_eq p s] at hs
    rw [List.cons_append, List.splitOnP_cons_eq_if_modifyHead, ih]
    by_cases hx : p x = true
    · rw [if_pos hx] at hs ⊢
      rw [← List.cons_append] at hs ⊢
      obtain ⟨h1, h2⟩ := split_inj hs
      rw [h1, h2]
    · rw [if_neg hx] at hs ⊢
      cases he : ended p s with
      | nil =>
        rw [he] at hs
        obtain ⟨h1, h2⟩ := split_inj (l := []) hs
        rw [← h1, ← h2]
        rfl
      | cons e es =>
        rw [he] at hs
        obtain ⟨h1, h2⟩ := split_inj (l := (x :: e) :: es) hs
        rw [← h1, ← h2]
        rfl

theorem ended_snoc (hc : p c = true) : ended p (s ++ [c]) = ended p s ++ [unfinished p s] :=
  (split_snoc hc).1

theorem unfinished_snoc (hc : p c = true) : unfinished p (s ++ [c]) = [] := (split_snoc hc).2

theorem ended_snoc_of_not (hc : p c = false) : ended p (s ++ [c]) = ended p s := (split_snoc_of_not hc).1

theorem unfinished_snoc_of_not (hc : p c = false) : unfinished p (s ++ [c]) = unfinished p s ++ [c] :=
  (split_snoc_of_not hc).2

theorem ended_isPrefix (p : α → Bool) (s t : List α) : ended p s <+: ended p (s ++ t) := by
  induction t using List.reverseRecOn with
  | nil => rw [List.append_nil]
  | append_singleton t c ih =>
    rw [← List.append_assoc]
    cases hc : p c with
    | true =>
      rw [ended_snoc hc]
      exact ih.trans (List.prefix_append _ _)
    | false => rwa [ended_snoc_of_not hc]

/-- What is unfinished begins a piece of every longer stream. -/
theorem exists_piece (p : α → Bool) (s t : List α) :
    ∃ q ∈ (s ++ t).splitOnP p, unfinished p s <+: q := by
  induction t using List.reverseRecOn with
  | nil => exact ⟨unfinished p s, by rw [List.append_nil, splitOnP_eq]; simp, List.prefix_rfl⟩
  | append_singleton t c ih =>
    obtain ⟨q, hq, hpre⟩ := ih
    rw [splitOnP_eq] at hq
    rw [← List.append_assoc, splitOnP_eq]
    cases hc : p c with
    | true =>
      rw [ended_snoc hc]
      exact ⟨q, List.mem_append_left _ hq, hpre⟩
    | false =>
      rw [ended_snoc_of_not hc, unfinished_snoc_of_not hc]
      rcases List.mem_append.1 hq with hq | hq
      · exact ⟨q, List.mem_append_left _ hq, hpre⟩
      · obtain rfl := List.mem_singleton.1 hq
        exact ⟨_, List.mem_append_right _ (List.mem_singleton.2 rfl),
          hpre.trans (List.prefix_append _ _)⟩

end Pieces
