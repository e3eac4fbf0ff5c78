import Mathlib.Algebra.BigOperators.Group.Finset.Basic
import Mathlib.Algebra.Order.BigOperators.Group.Finset

/-!
# Binary code trees

A code tree is a binary tree whose leaves carry labels; the code word of a leaf is the path to it,
`false` for left. `decode` reads labels from a string of bits until one of them says to stop.
`decode_word` reads one code word and `decode_flatten` a sequence of them. `cost f` is the sum of
the lengths of the paths to the leaves, each as often as `f` says; `sum_le_cost` bounds the length
of a text by it.
-/

universe u

inductive CodeTree (α : Type u) where
  | leaf (a : α)
  | node (l r : CodeTree α)
deriving DecidableEq, Repr

namespace CodeTree

variable {α β : Type u} {stop : α → Bool} {root t u : CodeTree α} {a : α} {b : Bool}
  {w w' bs bs' rest : List Bool}

/-! ## Paths -/

/-- What is at the end of a path. -/
def follow : CodeTree α → List Bool → Option (CodeTree α)
  | t, [] => some t
  | leaf _, _ :: _ => none
  | node l r, b :: bs => follow (if b then r else l) bs

@[simp] theorem follow_nil : t.follow [] = some t := by
  cases t <;> rfl

@[simp] theorem follow_leaf_cons : (leaf a).follow (b :: bs) = none := rfl

variable {l r : CodeTree α} {a' : α}

@[simp] theorem follow_node_cons :
    (node l r).follow (b :: bs) = (if b then r else l).follow bs := rfl

theorem follow_append : t.follow (w ++ w') = (t.follow w).bind fun u => u.follow w' := by
  induction w generalizing t with
  | nil => simp
  | cons b w ih =>
    cases t with
    | leaf a => rfl
    | node l r => simpa using ih

/-- `a` is the label of a leaf. -/
def HasLeaf (t : CodeTree α) (a : α) : Prop := ∃ w, t.follow w = some (leaf a)

@[simp] theorem hasLeaf_leaf : (leaf a').HasLeaf a ↔ a' = a := by
  constructor
  · rintro ⟨w, hw⟩
    cases w with
    | nil => simpa using hw
    | cons b w => simp at hw
  · rintro rfl
    exact ⟨[], by simp⟩

@[simp] theorem hasLeaf_node :
    (node l r).HasLeaf a ↔ l.HasLeaf a ∨ r.HasLeaf a := by
  constructor
  · rintro ⟨w, hw⟩
    cases w with
    | nil => simp at hw
    | cons b w =>
      cases b with
      | false => exact .inl ⟨w, hw⟩
      | true => exact .inr ⟨w, hw⟩
  · rintro (⟨w, hw⟩ | ⟨w, hw⟩)
    · exact ⟨false :: w, hw⟩
    · exact ⟨true :: w, hw⟩

def map (f : α → β) : CodeTree α → CodeTree β
  | leaf a => leaf (f a)
  | node l r => node (map f l) (map f r)

theorem HasLeaf.map (f : α → β) (h : t.HasLeaf a) : (t.map f).HasLeaf (f a) := by
  induction t with
  | leaf a' => exact hasLeaf_leaf.2 (congrArg f (hasLeaf_leaf.1 h))
  | node l r hl hr => exact hasLeaf_node.2 ((hasLeaf_node.1 h).imp hl hr)

theorem HasLeaf.of_map {f : α → β} {b : β} (h : (t.map f).HasLeaf b) :
    ∃ a, t.HasLeaf a ∧ f a = b := by
  induction t with
  | leaf a' => exact ⟨a', hasLeaf_leaf.2 rfl, hasLeaf_leaf.1 h⟩
  | node l r hl hr =>
    rcases hasLeaf_node.1 h with h | h
    · obtain ⟨a, ha, e⟩ := hl h
      exact ⟨a, hasLeaf_node.2 (.inl ha), e⟩
    · obtain ⟨a, ha, e⟩ := hr h
      exact ⟨a, hasLeaf_node.2 (.inr ha), e⟩

/-- The tree in which `u` stands at the end of the path `w`. -/
def graft (u : CodeTree α) : CodeTree α → List Bool → CodeTree α
  | _, [] => u
  | leaf a, _ :: _ => leaf a
  | node l r, b :: bs => if b then node l (graft u r bs) else node (graft u l bs) r

@[simp] theorem graft_nil : graft u t [] = u := by
  cases t <;> rfl

theorem hasLeaf_of_graft (h : (graft u t w).HasLeaf a) : t.HasLeaf a ∨ u.HasLeaf a := by
  induction w generalizing t with
  | nil => exact .inr (by simpa using h)
  | cons b w ih =>
    cases t with
    | leaf a' => exact .inl h
    | node l r =>
      cases b with
      | false =>
        rcases hasLeaf_node.1 h with h | h
        · exact (ih h).imp_left fun h => hasLeaf_node.2 (.inl h)
        · exact .inl (hasLeaf_node.2 (.inr h))
      | true =>
        rcases hasLeaf_node.1 h with h | h
        · exact .inl (hasLeaf_node.2 (.inl h))
        · exact (ih h).imp_left fun h => hasLeaf_node.2 (.inr h)

theorem hasLeaf_graft (h : t.HasLeaf a) (hw : t.follow w = some (leaf a')) :
    a' = a ∨ (graft u t w).HasLeaf a := by
  induction w generalizing t with
  | nil =>
    obtain rfl : t = leaf a' := by simpa using hw
    exact .inl (hasLeaf_leaf.1 h)
  | cons b w ih =>
    cases t with
    | leaf a => simp at hw
    | node l r =>
      cases b with
      | false =>
        rcases hasLeaf_node.1 h with h | h
        · exact (ih h hw).imp_right fun h => hasLeaf_node.2 (.inl h)
        · exact .inr (hasLeaf_node.2 (.inr h))
      | true =>
        rcases hasLeaf_node.1 h with h | h
        · exact .inr (hasLeaf_node.2 (.inl h))
        · exact (ih h hw).imp_right fun h => hasLeaf_node.2 (.inr h)

theorem hasLeaf_grafted (h : u.HasLeaf a) (hw : t.follow w = some (leaf a')) :
    (graft u t w).HasLeaf a := by
  induction w generalizing t with
  | nil => simpa using h
  | cons b w ih =>
    cases t with
    | leaf a => simp at hw
    | node l r =>
      cases b with
      | false => exact hasLeaf_node.2 (.inl (ih hw))
      | true => exact hasLeaf_node.2 (.inr (ih hw))

theorem graft_ne_leaf (hu : ∀ a, u ≠ leaf a) (hw : t.follow w = some (leaf a')) (a : α) :
    graft u t w ≠ leaf a := by
  cases w with
  | nil => simpa using hu a
  | cons b w =>
    cases t with
    | leaf a => simp at hw
    | node l r => cases b <;> simp [graft]

/-! ## Decoding -/

/-- Reads bits from `cursor` on, starting over at the root after each label, and stops behind the
first label with `stop`. The result is the labels in front of it and the bits behind it. -/
def decode (stop : α → Bool) (root : CodeTree α) :
    CodeTree α → List Bool → Option (List α × List Bool)
  | _, [] => none
  | leaf _, _ :: _ => none
  | node l r, b :: bs =>
    match if b then r else l with
    | leaf a =>
      if stop a then some ([], bs) else (decode stop root root bs).map (Prod.map (a :: ·) id)
    | node l' r' => decode stop root (node l' r') bs

/-- What `decode` does once it has come to `t` by a bit. -/
def arrive (stop : α → Bool) (root : CodeTree α) :
    CodeTree α → List Bool → Option (List α × List Bool)
  | leaf a, bs =>
    if stop a then some ([], bs) else (decode stop root root bs).map (Prod.map (a :: ·) id)
  | node l r, bs => decode stop root (node l r) bs

theorem decode_node_cons :
    decode stop root (node l r) (b :: bs) = arrive stop root (if b then r else l) bs := by
  rw [decode]
  cases (if b then r else l) <;> rfl

theorem decode_word (h : t.follow w = some (leaf a)) (hw : w ≠ []) :
    decode stop root t (w ++ bs) = arrive stop root (leaf a) bs := by
  induction w generalizing t with
  | nil => exact absurd rfl hw
  | cons b w ih =>
    cases t with
    | leaf a => simp at h
    | node l r =>
      rw [follow_node_cons] at h
      rw [List.cons_append, decode_node_cons]
      cases hc : (if b then r else l) with
      | leaf a' =>
        rw [hc] at h
        cases w with
        | nil =>
          obtain rfl : a' = a := by simpa using h
          rfl
        | cons c w => simp at h
      | node l' r' =>
        rw [hc] at h
        have hw' : w ≠ [] := by
          rintro rfl
          simp at h
        exact ih h hw'

/-- **Reading code words up to one that stops** gives the labels and the bits behind. -/
theorem decode_flatten {word : α → List Bool} {as : List α} {d : α}
    (hroot : ∀ a, root ≠ leaf a)
    (has : ∀ a ∈ as, root.follow (word a) = some (leaf a) ∧ stop a = false)
    (hd : root.follow (word d) = some (leaf d)) (hstop : stop d = true) :
    decode stop root root ((as.flatMap word ++ word d) ++ rest) = some (as, rest) := by
  have hne (a : α) (h : root.follow (word a) = some (leaf a)) : word a ≠ [] := by
    intro e
    rw [e, follow_nil] at h
    exact hroot a (Option.some.inj h)
  induction as with
  | nil =>
    rw [List.flatMap_nil, List.nil_append, decode_word hd (hne d hd), arrive, if_pos hstop]
  | cons a as ih =>
    obtain ⟨ha, hs⟩ := has a List.mem_cons_self
    rw [List.flatMap_cons, List.append_assoc, List.append_assoc, decode_word ha (hne a ha), arrive,
      if_neg (by simp [hs]), ← List.append_assoc, ih fun a h => has a (List.mem_cons_of_mem _ h)]
    rfl

/-! ## Weighted path lengths -/

def weight (f : α → Nat) : CodeTree α → Nat
  | leaf a => f a
  | node l r => weight f l + weight f r

def cost (f : α → Nat) : CodeTree α → Nat
  | leaf _ => 0
  | node l r => cost f l + cost f r + (weight f l + weight f r)

def numLeaves : CodeTree α → Nat
  | leaf _ => 1
  | node l r => numLeaves l + numLeaves r

variable {f : α → Nat}

theorem cost_map {g : β → Nat} {h : α → β} : cost g (t.map h) = cost (fun a => g (h a)) t ∧
    weight g (t.map h) = weight (fun a => g (h a)) t := by
  induction t with
  | leaf a => exact ⟨rfl, rfl⟩
  | node l r hl hr => simp only [map, cost, weight, hl, hr, and_self]

/-- Grafting a tree as heavy as the leaf that it replaces. -/
theorem cost_graft (h : t.follow w = some (leaf a)) (hu : weight f u = f a) :
    cost f (graft u t w) = cost f t + cost f u ∧ weight f (graft u t w) = weight f t := by
  induction w generalizing t with
  | nil =>
    obtain rfl : t = leaf a := by simpa using h
    simp [cost, weight, hu]
  | cons b w ih =>
    cases t with
    | leaf a => simp at h
    | node l r =>
      cases b with
      | false =>
        obtain ⟨h1, h2⟩ := ih (t := l) h
        refine ⟨?_, ?_⟩
        · simp only [graft, Bool.false_eq_true, if_false, cost, h1, h2]
          omega
        · simp only [graft, Bool.false_eq_true, if_false, weight, h2]
      | true =>
        obtain ⟨h1, h2⟩ := ih (t := r) h
        refine ⟨?_, ?_⟩
        · simp only [graft, if_true, cost, h1, h2]
          omega
        · simp only [graft, if_true, weight, h2]

/-- **The length of a text**: labels with paths to leaves of theirs. -/
theorem sum_le_cost [DecidableEq α] (S : Finset α) (path : α → List Bool)
    (h : ∀ a ∈ S, t.follow (path a) = some (leaf a)) :
    ∑ a ∈ S, f a ≤ weight f t ∧ ∑ a ∈ S, f a * (path a).length ≤ cost f t := by
  induction t generalizing S path with
  | leaf b =>
    have hb (a : α) (ha : a ∈ S) : path a = [] ∧ a = b := by
      have := h a ha
      cases hp : path a with
      | nil =>
        rw [hp] at this
        exact ⟨rfl, by simpa [eq_comm] using this⟩
      | cons c w =>
        rw [hp] at this
        simp at this
    refine ⟨?_, ?_⟩
    · refine (Finset.sum_le_sum_of_subset (t := {b}) fun a ha => ?_).trans (by simp [weight])
      rw [(hb a ha).2]
      exact Finset.mem_singleton_self b
    · rw [Finset.sum_eq_zero fun a ha => by rw [(hb a ha).1]; simp]
      exact Nat.zero_le _
  | node l r hl hr =>
    have hcons (a : α) (ha : a ∈ S) : path a = (path a).head?.getD false :: (path a).tail := by
      have := h a ha
      cases hp : path a with
      | nil =>
        rw [hp] at this
        simp at this
      | cons c w => rfl
    have hside (a : α) (ha : a ∈ S) :
        (if (path a).head?.getD false then r else l).follow (path a).tail = some (leaf a) := by
      have := h a ha
      rw [hcons a ha] at this
      exact this
    have hlen (a : α) (ha : a ∈ S) : f a * (path a).length = f a + f a * (path a).tail.length := by
      conv_lhs => rw [hcons a ha, List.length_cons, Nat.mul_succ]
      exact Nat.add_comm _ _
    obtain ⟨wr, cr⟩ := hr (S.filter fun a => (path a).head?.getD false = true)
      (fun a => (path a).tail) fun a ha => by
        obtain ⟨ha, hb⟩ := Finset.mem_filter.1 ha
        simpa [hb] using hside a ha
    obtain ⟨wl, cl⟩ := hl (S.filter fun a => ¬ (path a).head?.getD false = true)
      (fun a => (path a).tail) fun a ha => by
        obtain ⟨ha, hb⟩ := Finset.mem_filter.1 ha
        simpa [hb] using hside a ha
    have hw := Finset.sum_filter_add_sum_filter_not S (fun a => (path a).head?.getD false = true) f
    have hc := Finset.sum_filter_add_sum_filter_not S (fun a => (path a).head?.getD false = true)
      fun a => f a * (path a).tail.length
    rw [weight, cost, Finset.sum_congr rfl hlen, Finset.sum_add_distrib]
    omega

end CodeTree
