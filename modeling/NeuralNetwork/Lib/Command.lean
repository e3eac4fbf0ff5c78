import Mathlib.Data.List.Infix

/-!
# Commands that may throw

A `Command` works on a state and returns or throws; the state is kept in both cases. It goes wrong with a
`φ`, which nothing catches. `wp m Q E s`: from the state `s` the command does not go wrong, returns into
`Q` or throws into `E`. There is one rule for each way to build a command, and `wp_foldlM` for loops.
`wlp` asks the same of the commands that do not go wrong.
-/

/-- A computation on a state `σ` that returns an `α`, throws an `ε` or goes wrong with a `φ`. -/
def Command (σ φ ε α : Type) : Type := σ → Except φ (Except ε α × σ)

namespace Command

variable {σ φ ε α β γ : Type}

def bindC (m : Command σ φ ε α) (f : α → Command σ φ ε β) : Command σ φ ε β := fun s =>
  match m s with
  | .ok (.ok a, s') => f a s'
  | .ok (.error e, s') => .ok (.error e, s')
  | .error fault => .error fault

instance : Monad (Command σ φ ε) where
  pure a := fun s => .ok (.ok a, s)
  bind := bindC

def throwC (e : ε) : Command σ φ ε α := fun s => .ok (.error e, s)

def catchC (m : Command σ φ ε α) (handle : ε → Command σ φ ε α) : Command σ φ ε α := fun s =>
  match m s with
  | .ok (.ok a, s') => .ok (.ok a, s')
  | .ok (.error e, s') => handle e s'
  | .error fault => .error fault

instance : MonadExcept ε (Command σ φ ε) where
  throw := throwC
  tryCatch := catchC

def ofExcept : Except ε α → Command σ φ ε α
  | .ok a => pure a
  | .error e => throw e

/-- A computation that needs no state and does not throw. -/
def lift : Except φ α → Command σ φ ε α
  | .ok a => pure a
  | .error fault => fun _ => .error fault

def wrong (fault : φ) : Command σ φ ε α := fun _ => .error fault

def getState : Command σ φ ε σ := fun s => .ok (.ok s, s)

def setState (s' : σ) : Command σ φ ε Unit := fun _ => .ok (.ok (), s')

/-- A command on a part of the state. -/
def zoom {τ : Type} (part : σ → τ) (put : τ → σ → σ) (m : Command τ φ ε α) : Command σ φ ε α := fun s =>
  match m (part s) with
  | .ok (r, t) => .ok (r, put t s)
  | .error fault => .error fault

/-- What the command does from `s`. -/
def wp (m : Command σ φ ε α) (Q : α → σ → Prop) (E : ε → σ → Prop) (s : σ) : Prop :=
  match m s with
  | .ok (.ok a, s') => Q a s'
  | .ok (.error e, s') => E e s'
  | .error _ => False

variable {m : Command σ φ ε α} {Q Q' : α → σ → Prop} {E E' : ε → σ → Prop} {s s' : σ}

theorem wp_iff : wp m Q E s ↔
    ∃ r s', m s = .ok (r, s') ∧ (∀ a, r = .ok a → Q a s') ∧ ∀ e, r = .error e → E e s' := by
  unfold wp
  cases m s with
  | error fault => exact ⟨False.elim, nofun⟩
  | ok p =>
    obtain ⟨r, s'⟩ := p
    cases r with
    | ok a =>
      refine ⟨fun h => ⟨_, _, rfl, fun _ ha => Except.ok.inj ha ▸ h, nofun⟩, ?_⟩
      rintro ⟨r, s'', h, hq, -⟩
      obtain ⟨rfl, rfl⟩ := Prod.mk.inj (Except.ok.inj h)
      exact hq a rfl
    | error e =>
      refine ⟨fun h => ⟨_, _, rfl, nofun, fun _ he => Except.error.inj he ▸ h⟩, ?_⟩
      rintro ⟨r, s'', h, -, he⟩
      obtain ⟨rfl, rfl⟩ := Prod.mk.inj (Except.ok.inj h)
      exact he e rfl

theorem wp.mono (h : wp m Q E s) (hq : ∀ a s', Q a s' → Q' a s') (he : ∀ e s', E e s' → E' e s') :
    wp m Q' E' s := by
  obtain ⟨r, s', hm, hq', he'⟩ := wp_iff.1 h
  exact wp_iff.2 ⟨r, s', hm, fun a ha => hq a s' (hq' a ha), fun e hr => he e s' (he' e hr)⟩

/-! ## The rules -/

@[simp] theorem wp_pure {a : α} : wp (pure a : Command σ φ ε α) Q E s ↔ Q a s := Iff.rfl

@[simp] theorem wp_throw {e : ε} : wp (throw e : Command σ φ ε α) Q E s ↔ E e s := Iff.rfl

theorem wp_ofExcept {r : Except ε α} (hq : ∀ a, r = .ok a → Q a s) (he : ∀ e, r = .error e → E e s) :
    wp (ofExcept r : Command σ φ ε α) Q E s := by
  cases r with
  | ok a => exact hq a rfl
  | error e => exact he e rfl

theorem wp_lift {r : Except φ α} {a : α} (h : r = .ok a) (hq : Q a s) :
    wp (lift r : Command σ φ ε α) Q E s := h ▸ hq

@[simp] theorem wp_getState {Q : σ → σ → Prop} :
    wp (getState : Command σ φ ε σ) Q E s ↔ Q s s := Iff.rfl

@[simp] theorem wp_setState {Q : Unit → σ → Prop} :
    wp (setState s' : Command σ φ ε Unit) Q E s ↔ Q () s' := Iff.rfl

@[simp] theorem wp_bind {f : α → Command σ φ ε β} {Q : β → σ → Prop} :
    wp (m >>= f) Q E s ↔ wp m (fun a s' => wp (f a) Q E s') E s := by
  show wp (bindC m f) Q E s ↔ _
  unfold wp bindC
  cases m s with
  | error fault => exact Iff.rfl
  | ok p =>
    obtain ⟨r, s'⟩ := p
    cases r with
    | ok a => exact Iff.rfl
    | error e => exact Iff.rfl

variable {handle : ε → Command σ φ ε α} {xs : List γ}

@[simp] theorem wp_tryCatch :
    wp (tryCatch m handle) Q E s ↔ wp m Q (fun e s' => wp (handle e) Q E s') s := by
  show wp (catchC m handle) Q E s ↔ _
  unfold wp catchC
  cases m s with
  | error fault => exact Iff.rfl
  | ok p =>
    obtain ⟨r, s'⟩ := p
    cases r with
    | ok a => exact Iff.rfl
    | error e => exact Iff.rfl

@[simp] theorem wp_zoom {τ : Type} {part : σ → τ} {put : τ → σ → σ} {m : Command τ φ ε α} :
    wp (zoom part put m) Q E s ↔ wp m (fun a t => Q a (put t s)) (fun e t => E e (put t s)) (part s) := by
  unfold wp zoom
  cases m (part s) with
  | error fault => exact Iff.rfl
  | ok p =>
    obtain ⟨r, t⟩ := p
    cases r with
    | ok a => exact Iff.rfl
    | error e => exact Iff.rfl

variable {f : β → γ → Command σ φ ε β}

/-- **Loops.** The invariant speaks of what the loop has gone through. -/
theorem wp_foldlM (Inv : List γ → β → σ → Prop) {b : β} (h0 : Inv [] b s)
    (hstep : ∀ done x b s, done ++ [x] <+: xs → Inv done b s →
      wp (f b x) (Inv (done ++ [x])) E s) : wp (xs.foldlM f b) (Inv xs) E s := by
  suffices h : ∀ rest done b s, done ++ rest = xs → Inv done b s → wp (rest.foldlM f b) (Inv xs) E s from
    h xs [] b s rfl h0
  intro rest
  induction rest with
  | nil =>
    intro done b s hxs hinv
    rw [List.append_nil] at hxs
    rw [List.foldlM_nil, wp_pure, ← hxs]
    exact hinv
  | cons x rest ih =>
    intro done b s hxs hinv
    have hxs' : (done ++ [x]) ++ rest = xs := by rw [← hxs, List.append_assoc]; rfl
    rw [List.foldlM_cons, wp_bind]
    exact (hstep done x b s ⟨rest, hxs'⟩ hinv).mono (fun b' s' hb => ih (done ++ [x]) b' s' hxs' hb)
      fun _ _ he => he

theorem wp_foldlM_inv (Inv : β → σ → Prop) {b : β} (h0 : Inv b s)
    (hstep : ∀ x b s, Inv b s → wp (f b x) Inv E s) : wp (xs.foldlM f b) Inv E s :=
  wp_foldlM (fun _ => Inv) h0 fun _ x b s _ hinv => hstep x b s hinv

/-! ## Commands that may go wrong -/

/-- What the command does from `s`, if it does not go wrong. -/
def wlp (m : Command σ φ ε α) (Q : α → σ → Prop) (E : ε → σ → Prop) (s : σ) : Prop :=
  (∃ fault, m s = .error fault) ∨ wp m Q E s

theorem wlp.mono (h : wlp m Q E s) (hq : ∀ a s', Q a s' → Q' a s') (he : ∀ e s', E e s' → E' e s') :
    wlp m Q' E' s := h.imp_right fun h => h.mono hq he

theorem wlp_pure {a : α} (h : Q a s) : wlp (pure a : Command σ φ ε α) Q E s := .inr h

theorem wlp_throw {e : ε} (h : E e s) : wlp (throw e : Command σ φ ε α) Q E s := .inr h

theorem wlp_wrong {fault : φ} : wlp (wrong fault : Command σ φ ε α) Q E s := .inl ⟨fault, rfl⟩

theorem wlp_getState {Q : σ → σ → Prop} (h : Q s s) : wlp (getState : Command σ φ ε σ) Q E s := .inr h

theorem wlp_setState {Q : Unit → σ → Prop} (h : Q () s') :
    wlp (setState s' : Command σ φ ε Unit) Q E s := .inr h

theorem wlp_lift {r : Except φ α} (h : ∀ a, r = .ok a → Q a s) :
    wlp (lift r : Command σ φ ε α) Q E s := by
  cases r with
  | ok a => exact .inr (h a rfl)
  | error fault => exact .inl ⟨fault, rfl⟩

theorem wlp_bind {f : α → Command σ φ ε β} {Q : β → σ → Prop}
    (h : wlp m (fun a s' => wlp (f a) Q E s') E s) : wlp (m >>= f) Q E s := by
  show (∃ fault, bindC m f s = .error fault) ∨ wp (bindC m f) Q E s
  rcases h with ⟨fault, hm⟩ | h
  · exact .inl ⟨fault, by rw [bindC, hm]⟩
  · obtain ⟨r, s', hm, hq, he⟩ := wp_iff.1 h
    unfold wp bindC
    rw [hm]
    cases r with
    | ok a => exact hq a rfl
    | error e => exact .inr (he e rfl)

theorem wlp_tryCatch (h : wlp m Q (fun e s' => wlp (handle e) Q E s') s) :
    wlp (tryCatch m handle) Q E s := by
  show (∃ fault, catchC m handle s = .error fault) ∨ wp (catchC m handle) Q E s
  rcases h with ⟨fault, hm⟩ | h
  · exact .inl ⟨fault, by rw [catchC, hm]⟩
  · obtain ⟨r, s', hm, hq, he⟩ := wp_iff.1 h
    unfold wp catchC
    rw [hm]
    cases r with
    | ok a => exact .inr (hq a rfl)
    | error e => exact he e rfl

/-- Of any command it is known that it returns, throws or goes wrong. -/
theorem wlp_of_forall (hq : ∀ a s', Q a s') (he : ∀ e s', E e s') : wlp m Q E s := by
  unfold wlp wp
  cases m s with
  | error fault => exact .inl ⟨fault, rfl⟩
  | ok p =>
    obtain ⟨r, s'⟩ := p
    cases r with
    | ok a => exact .inr (hq a s')
    | error e => exact .inr (he e s')

theorem wlp_zoom {τ : Type} {part : σ → τ} {put : τ → σ → σ} {m : Command τ φ ε α}
    (h : wlp m (fun a t => Q a (put t s)) (fun e t => E e (put t s)) (part s)) :
    wlp (zoom part put m) Q E s := by
  rcases h with ⟨fault, hm⟩ | h
  · exact .inl ⟨fault, by rw [zoom, hm]⟩
  · exact .inr (wp_zoom.2 h)

/-- A loop whose invariant does not speak of what it has gone through. -/
theorem wlp_foldlM_inv (Inv : β → σ → Prop) {b : β} (h0 : Inv b s)
    (hstep : ∀ x b s, Inv b s → wlp (f b x) Inv E s) : wlp (xs.foldlM f b) Inv E s := by
  induction xs generalizing b s with
  | nil => exact wlp_pure h0
  | cons x xs ih =>
    rw [List.foldlM_cons]
    exact wlp_bind ((hstep x b s h0).mono (fun _ _ h => ih h) fun _ _ he => he)

theorem wlp.ok {r : Except ε α} (h : wlp m Q E s) (e : m s = .ok (r, s')) :
    (∀ a, r = .ok a → Q a s') ∧ ∀ ex, r = .error ex → E ex s' := by
  rcases h with ⟨fault, hm⟩ | h
  · cases e.symm.trans hm
  · obtain ⟨r', s'', hm, hq, he⟩ := wp_iff.1 h
    obtain ⟨rfl, rfl⟩ := Prod.mk.inj (Except.ok.inj (e.symm.trans hm))
    exact ⟨hq, he⟩

end Command
