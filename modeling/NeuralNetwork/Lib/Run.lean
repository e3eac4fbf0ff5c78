import Mathlib.Data.List.Basic

/-!
# Runs of a transition system

`Reach init step s hist`: the system is in state `s` after the labelled steps `hist`. `Reach.inv` is
the invariant rule; `Reach.foldlM` runs an executable step, and `Reach.runM` one that may fail or be
refused.
-/

namespace Run

variable {σ α : Type} {init : σ → Prop} {step : σ → α → σ → Prop} {s : σ} {hist : List α}

inductive Reach (init : σ → Prop) (step : σ → α → σ → Prop) : σ → List α → Prop
  | init {s : σ} : init s → Reach init step s []
  | step {s s' : σ} {hist : List α} {a : α} : Reach init step s hist → step s a s' →
      Reach init step s' (hist ++ [a])

/-- What holds initially and is kept by every step holds of every state reached. -/
theorem Reach.inv (Inv : σ → List α → Prop) (h : Reach init step s hist)
    (h0 : ∀ s, init s → Inv s [])
    (hstep : ∀ s hist a s', Inv s hist → step s a s' → Inv s' (hist ++ [a])) : Inv s hist := by
  induction h with
  | init hs => exact h0 _ hs
  | step _ hs ih => exact hstep _ _ _ _ ih hs

theorem Reach.cases_eq (h : Reach init step s hist) : (hist = [] ∧ init s) ∨
    ∃ s₀ hist₀ a, hist = hist₀ ++ [a] ∧ Reach init step s₀ hist₀ ∧ step s₀ a s := by
  cases h with
  | init hs => exact .inl ⟨rfl, hs⟩
  | step h hs => exact .inr ⟨_, _, _, rfl, h, hs⟩

/-- The labels of a run determine its last state if each label determines its step. -/
theorem Reach.unique {s' : σ} (h0 : ∀ s s', init s → init s' → s = s')
    (hstep : ∀ s a s₁ s₂, step s a s₁ → step s a s₂ → s₁ = s₂) (h : Reach init step s hist)
    (h' : Reach init step s' hist) : s = s' := by
  induction h generalizing s' with
  | init hs =>
    rcases h'.cases_eq with ⟨-, hs'⟩ | ⟨s₀, hist₀, a, e, -⟩
    · exact h0 _ _ hs hs'
    · simp at e
  | step _ hs ih =>
    rcases h'.cases_eq with ⟨e, -⟩ | ⟨s₀, hist₀, a, e, h₀, hs'⟩
    · simp at e
    · obtain ⟨rfl, ha⟩ := List.append_inj' e rfl
      cases ha
      rw [← ih h₀] at hs'
      exact hstep _ _ _ _ hs hs'

theorem Reach.foldlM_of {f : σ → α → Option σ} {P : α → Prop}
    (hf : ∀ {s a s'}, P a → f s a = some s' → step s a s') (h : Reach init step s hist) {acts : List α}
    (hP : ∀ a ∈ acts, P a) {s' : σ} (e : acts.foldlM f s = some s') :
    Reach init step s' (hist ++ acts) := by
  induction acts generalizing s hist with
  | nil =>
    cases e
    simpa using h
  | cons a acts ih =>
    rw [List.foldlM_cons] at e
    obtain ⟨s1, e1, e2⟩ := Option.bind_eq_some_iff.1 e
    rw [List.append_cons]
    exact ih (.step h (hf (hP a List.mem_cons_self) e1)) (fun b hb => hP b (List.mem_cons_of_mem a hb)) e2

theorem Reach.foldlM {f : σ → α → Option σ} (hf : ∀ {s a s'}, f s a = some s' → step s a s')
    (h : Reach init step s hist) {acts : List α} {s' : σ} (e : acts.foldlM f s = some s') :
    Reach init step s' (hist ++ acts) := by
  refine h.foldlM_of (P := fun _ => True) ?_ (fun _ _ => True.intro) e
  intro s a s' _ e
  exact hf e

theorem Reach.foldl (h : Reach init step s hist) {f : σ → α → σ} (hf : ∀ s a, step s a (f s a))
    (acts : List α) : Reach init step (acts.foldl f s) (hist ++ acts) := by
  induction acts generalizing s hist with
  | nil => simpa using h
  | cons a acts ih =>
    rw [List.append_cons, List.foldl_cons]
    exact ih (.step h (hf s a))

/-- The state after a step that neither fails nor is refused. -/
def ofStep {ε : Type} : Except ε (Option σ) → Option σ
  | .ok s => s
  | .error _ => none

theorem ofStep_eq_some {ε : Type} {r : Except ε (Option σ)} (h : ofStep r = some s) :
    r = .ok (some s) := by
  cases r with
  | ok o =>
    cases h
    rfl
  | error _ => cases h

theorem Reach.runM {ε : Type} {f : σ → α → Except ε (Option σ)}
    (hf : ∀ {s a s'}, f s a = .ok (some s') → step s a s') (h : Reach init step s hist)
    {acts : List α} {s' : σ} (e : acts.foldlM (fun s a => ofStep (f s a)) s = some s') :
    Reach init step s' (hist ++ acts) :=
  h.foldlM (f := fun s a => ofStep (f s a)) (fun e => hf (ofStep_eq_some e)) e

end Run
