import Mathlib.Data.List.Forall2
import Mathlib.Tactic.Ring

/-!
# Counted loops that may fault

`forLoop body n s` is `for (i = 0; i < n; ++i)` over a loop state `s`, and `forBreak body n s` the
same loop with a `break`; both stop at the first fault of the body. Their invariant rules are
`forLoop_ok`, `forBreak_ok` (the loop runs to its end), `forLoop_cases` (it does, or faults) and
`forLoop_inv` (what holds if it does).
`whileLoop stuck body n s` is `while (true)` with a `break`, cut off after `n` rounds; `whileLoop_ok`
is its rule, with a measure that every round makes smaller.
-/

namespace Loop

universe u v

variable {ε : Type u} {σ τ : Type v}

@[simp] theorem ok_bind (a : σ) (f : σ → Except ε τ) : (Except.ok a >>= f) = f a := rfl

@[simp] theorem error_bind (e : ε) (f : σ → Except ε τ) : (Except.error e >>= f) = .error e := rfl

theorem bind_eq_ok {x : Except ε σ} {f : σ → Except ε τ} {b : τ} (h : (x >>= f) = .ok b) :
    ∃ a, x = .ok a ∧ f a = .ok b := by
  cases x with
  | error e => cases h
  | ok a => exact ⟨a, rfl, h⟩

theorem mapError_eq_ok {ε' : Type*} {x : Except ε σ} {f : ε → ε'} {a : σ}
    (h : x.mapError f = .ok a) : x = .ok a := by
  cases x with
  | error e => cases h
  | ok b => exact congrArg Except.ok (Except.ok.inj h)

theorem map_some_eq_ok {x : Except ε σ} {a : σ} (h : x.map some = .ok (some a)) : x = .ok a := by
  cases x with
  | error e => cases h
  | ok b =>
    cases h
    rfl

theorem forall₂_of_mapM {f : σ → Except ε τ} {xs : List σ} {ys : List τ} (h : xs.mapM f = .ok ys) :
    List.Forall₂ (fun x y => f x = .ok y) xs ys := by
  induction xs generalizing ys with
  | nil =>
    cases h
    exact .nil
  | cons x xs ih =>
    rw [List.mapM_cons] at h
    obtain ⟨y, hy, h⟩ := bind_eq_ok h
    obtain ⟨zs, hzs, h⟩ := bind_eq_ok h
    cases h
    exact .cons hy (ih hzs)

/-- `for (i = 0; i < n; ++i) s = body(i, s)`. -/
def forLoop (body : Nat → σ → Except ε σ) : Nat → σ → Except ε σ
  | 0, s => .ok s
  | n + 1, s => forLoop body n s >>= body n

variable {body : Nat → σ → Except ε σ} {n : Nat}

/-- The invariant rule: a body that goes through from `Inv i` to `Inv (i + 1)` makes a loop that
goes through from `Inv 0` to `Inv n`. -/
theorem forLoop_ok {s : σ} (Inv : Nat → σ → Prop)
    (h0 : Inv 0 s)
    (hstep : ∀ i, i < n → ∀ s, Inv i s → ∃ s', body i s = .ok s' ∧ Inv (i + 1) s') :
    ∃ s', forLoop body n s = .ok s' ∧ Inv n s' := by
  induction n with
  | zero => exact ⟨s, rfl, h0⟩
  | succ n ih =>
    obtain ⟨s1, e1, i1⟩ := ih fun i hi => hstep i (by omega)
    obtain ⟨s2, e2, i2⟩ := hstep n (by omega) s1 i1
    exact ⟨s2, by simp [forLoop, e1, e2], i2⟩

theorem forLoop_inv {s s' : σ} (Inv : Nat → σ → Prop)
    (h : forLoop body n s = .ok s') (h0 : Inv 0 s)
    (hstep : ∀ i, i < n → ∀ s s', body i s = .ok s' → Inv i s → Inv (i + 1) s') : Inv n s' := by
  induction n generalizing s' with
  | zero => cases h; exact h0
  | succ n ih =>
    obtain ⟨s1, e1, e2⟩ := bind_eq_ok h
    exact hstep n (by omega) s1 s' e2 (ih e1 fun i hi => hstep i (by omega))

/-- A loop whose body may fault runs to its end or faults as one of its rounds does. -/
theorem forLoop_cases {s : σ} (Inv : Nat → σ → Prop)
    (Bad : ε → Prop) (h0 : Inv 0 s)
    (hstep : ∀ i, i < n → ∀ s, Inv i s →
      (∃ s', body i s = .ok s' ∧ Inv (i + 1) s') ∨ ∃ e, body i s = .error e ∧ Bad e) :
    (∃ s', forLoop body n s = .ok s' ∧ Inv n s') ∨ ∃ e, forLoop body n s = .error e ∧ Bad e := by
  induction n with
  | zero => exact .inl ⟨s, rfl, h0⟩
  | succ n ih =>
    rcases ih fun i hi => hstep i (by omega) with ⟨s1, e1, i1⟩ | ⟨e, e1, b1⟩
    · rcases hstep n (by omega) s1 i1 with ⟨s2, e2, i2⟩ | ⟨e, e2, b2⟩
      · exact .inl ⟨s2, by simp [forLoop, e1, e2], i2⟩
      · exact .inr ⟨e, by simp [forLoop, e1, e2], b2⟩
    · exact .inr ⟨e, by simp [forLoop, e1], b1⟩

theorem forLoop_congr {body' : Nat → σ → Except ε σ}
    (h : ∀ i < n, ∀ s, body i s = body' i s) (s : σ) : forLoop body n s = forLoop body' n s := by
  induction n with
  | zero => rfl
  | succ n ih =>
    have hn : body n = body' n := funext (h n (Nat.lt_succ_self n))
    simp only [forLoop, ih fun i hi => h i (by omega), hn]

/-- `n` more rounds from round `i` of a loop whose body says whether it breaks. -/
def forBreakFrom (body : Nat → σ → Except ε (ForInStep σ)) : Nat → Nat → σ → Except ε σ
  | 0, _, s => .ok s
  | n + 1, i, s => body i s >>= fun
    | .done s' => .ok s'
    | .yield s' => forBreakFrom body n (i + 1) s'

/-- `for (i = 0; i < n; ++i)` with a `break`. -/
def forBreak (body : Nat → σ → Except ε (ForInStep σ)) (n : Nat) (s : σ) : Except ε σ :=
  forBreakFrom body n 0 s

theorem forBreak_congr {body body' : Nat → σ → Except ε (ForInStep σ)}
    (h : ∀ i < n, ∀ s, body i s = body' i s) (s : σ) : forBreak body n s = forBreak body' n s := by
  suffices ∀ m i s, i + m = n → forBreakFrom body m i s = forBreakFrom body' m i s from
    this n 0 s (by omega)
  intro m
  induction m with
  | zero => intros; rfl
  | succ m ih =>
    intro i s hi
    simp only [forBreakFrom, h i (by omega) s]
    congr 1
    funext r
    cases r with
    | done s => rfl
    | yield s => exact ih (i + 1) s (by omega)

/-- The invariant rule of a loop with a `break`: `Post` holds at the break or after the last
round. -/
theorem forBreak_ok {body : Nat → σ → Except ε (ForInStep σ)} {s : σ}
    (Inv : Nat → σ → Prop) (Post : σ → Prop) (h0 : Inv 0 s)
    (hstep : ∀ i, i < n → ∀ s, Inv i s → (∃ s', body i s = .ok (.yield s') ∧ Inv (i + 1) s') ∨
      ∃ s', body i s = .ok (.done s') ∧ Post s')
    (hend : ∀ s, Inv n s → Post s) : ∃ s', forBreak body n s = .ok s' ∧ Post s' := by
  suffices ∀ m i s, i + m = n → Inv i s → ∃ s', forBreakFrom body m i s = .ok s' ∧ Post s' from
    this n 0 s (by omega) h0
  intro m
  induction m with
  | zero =>
    intro i s hi hs
    obtain rfl : i = n := by omega
    exact ⟨s, rfl, hend s hs⟩
  | succ m ih =>
    intro i s hi hs
    rcases hstep i (by omega) s hs with ⟨s1, e1, i1⟩ | ⟨s1, e1, p1⟩
    · obtain ⟨s2, e2, p2⟩ := ih (i + 1) s1 (by omega) i1
      exact ⟨s2, by simp [forBreakFrom, e1, e2], p2⟩
    · exact ⟨s1, by simp [forBreakFrom, e1], p1⟩

/-- `while (true) body` with a `break`; `stuck` after `n` rounds without one. -/
def whileLoop (stuck : ε) (body : σ → Except ε (ForInStep σ)) : Nat → σ → Except ε σ
  | 0, _ => .error stuck
  | n + 1, s => body s >>= fun
    | .done s' => .ok s'
    | .yield s' => whileLoop stuck body n s'

variable {body : σ → Except ε (ForInStep σ)}

/-- The rule of a `while (true)`: with more rounds than the measure of the start it breaks, in a
state with `Post`. -/
theorem whileLoop_ok {stuck : ε} {s : σ} (Inv Post : σ → Prop) (measure : σ → Nat) (h0 : Inv s)
    (hn : measure s < n)
    (hstep : ∀ s, Inv s → (∃ s', body s = .ok (.yield s') ∧ Inv s' ∧ measure s' < measure s) ∨
      ∃ s', body s = .ok (.done s') ∧ Post s') :
    ∃ s', whileLoop stuck body n s = .ok s' ∧ Post s' := by
  induction n generalizing s with
  | zero => omega
  | succ n ih =>
    rcases hstep s h0 with ⟨s1, e1, i1, m1⟩ | ⟨s1, e1, p1⟩
    · obtain ⟨s2, e2, p2⟩ := ih i1 (by omega)
      exact ⟨s2, by simp [whileLoop, e1, e2], p2⟩
    · exact ⟨s1, by simp [whileLoop, e1], p1⟩

theorem whileLoop_inv {stuck : ε} {s s' : σ} (Inv Post : σ → Prop)
    (h : whileLoop stuck body n s = .ok s') (h0 : Inv s)
    (hyield : ∀ s s', body s = .ok (.yield s') → Inv s → Inv s')
    (hdone : ∀ s s', body s = .ok (.done s') → Inv s → Post s') : Post s' := by
  induction n generalizing s with
  | zero => cases h
  | succ n ih =>
    obtain ⟨r, e1, e2⟩ := bind_eq_ok h
    cases r with
    | done s1 => cases e2; exact hdone _ _ e1 h0
    | yield s1 => exact ih e2 (hyield _ _ e1 h0)

end Loop
