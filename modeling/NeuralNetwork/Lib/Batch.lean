import Mathlib.Logic.Function.Basic

/-!
# Batched operations

`batch step s as` applies `step` to the elements of an array, one after the other, and collects the
results. `Simulates.batch` transports a batch along a view of the state, `foldlM_view` a loop that may
fail. `atKey f` is an operation on one entry of a table.
-/

namespace Batch

variable {S T A R : Type}

def batch (step : S → A → S × R) (s : S) : List A → S × List R
  | [] => (s, [])
  | a :: as =>
    let (s, r) := step s a
    let (s, rs) := batch step s as
    (s, r :: rs)

theorem batch_cons (step : S → A → S × R) (s : S) (a : A) (as : List A) :
    batch step s (a :: as) = ((batch step (step s a).1 as).1,
      (step s a).2 :: (batch step (step s a).1 as).2) := rfl

theorem batch_map {B : Type} (step : S → A → S × R) (g : B → A) (s : S) (bs : List B) :
    batch step s (bs.map g) = batch (fun s b => step s (g b)) s bs := by
  induction bs generalizing s with
  | nil => rfl
  | cons b bs ih =>
    rw [List.map_cons, batch_cons, batch_cons, ih]

/-- Results that are changed one by one are changed in the batch. -/
theorem batch_mapResult {R' : Type} (step : S → A → S × R) (g : R → R') (s : S) (as : List A) :
    batch (fun s a => ((step s a).1, g (step s a).2)) s as =
      ((batch step s as).1, (batch step s as).2.map g) := by
  induction as generalizing s with
  | nil => rfl
  | cons a as ih =>
    rw [batch_cons, batch_cons, ih]
    rfl

theorem batch_inv (Inv : S → Prop) {step : S → A → S × R} (h : ∀ s a, Inv s → Inv (step s a).1)
    {s : S} (hs : Inv s) (as : List A) : Inv (batch step s as).1 := by
  induction as generalizing s with
  | nil => exact hs
  | cons a as ih => exact ih (h s a hs)

/-- Seen through `view`, one step is the other, with the same result. -/
def Simulates (Inv : S → Prop) (view : S → T) (step : S → A → S × R) (step' : T → A → T × R) :
    Prop :=
  ∀ s a, Inv s → Inv (step s a).1 ∧ step' (view s) a = (view (step s a).1, (step s a).2)

theorem Simulates.batch {Inv : S → Prop} {view : S → T} {step : S → A → S × R}
    {step' : T → A → T × R} (h : Simulates Inv view step step') {s : S} (hs : Inv s) (as : List A) :
    Inv (batch step s as).1 ∧
      Batch.batch step' (view s) as = (view (batch step s as).1, (batch step s as).2) := by
  induction as generalizing s with
  | nil => exact ⟨hs, rfl⟩
  | cons a as ih =>
    obtain ⟨h1, e1⟩ := h s a hs
    obtain ⟨h2, e2⟩ := ih h1
    refine ⟨h2, ?_⟩
    rw [batch_cons, e1, e2]
    rfl

/-- Seen through `view`, the loop over `f` is the loop over `g`, if one step is. -/
theorem foldlM_view {ε : Type} (Inv : S → Prop) (view : S → T) {f : S → A → Except ε S}
    {g : T → A → Except ε T}
    (h : ∀ s a, Inv s → (f s a).map view = g (view s) a ∧ ∀ s', f s a = .ok s' → Inv s') {s : S}
    (hs : Inv s) (as : List A) :
    (as.foldlM f s).map view = as.foldlM g (view s) ∧ ∀ s', as.foldlM f s = .ok s' → Inv s' := by
  induction as generalizing s with
  | nil =>
    refine ⟨rfl, fun s' e => ?_⟩
    cases e
    exact hs
  | cons a as ih =>
    obtain ⟨h1, h2⟩ := h s a hs
    simp only [List.foldlM_cons]
    cases e : f s a with
    | error err =>
      rw [e] at h1
      rw [← h1]
      exact ⟨rfl, fun s' e' => by cases e'⟩
    | ok s1 =>
      rw [e] at h1
      rw [← h1]
      exact ih (h2 s1 e)

/-- An operation on one entry of a table. -/
def atKey {K V : Type} [DecidableEq K] (f : V → A → V × R) (m : K → V) (x : K × A) : (K → V) × R :=
  (Function.update m x.1 (f (m x.1) x.2).1, (f (m x.1) x.2).2)

end Batch
