import NeuralNetwork.InternalRest.Mailbox.Model
import NeuralNetwork.Lib.Loop
import NeuralNetwork.Lib.Run

/-!
# Retries with a doubled delay

`Base2ExponentialRetryPromise` of `internal_rest/network_rest_frame.h`: a coroutine polls a promise and,
when that fails, waits and asks the factory for another one. `retry_schedule`: as long as no poll finds
the time over and every delay fits its count of nanoseconds, the delays double up to their maximum, and
the promise is finalized once, with the first result or with an error.
-/

namespace RestFrame.Base2ExponentialRetryPromise

open Cpp Loop Mailbox

/-- One hour, in nanoseconds. -/
def maxDur : Int := 3600 * 10 ^ 9

/-- The arguments of the constructor; the factory and the rule may be null. -/
structure Config where
  firstRetryDur : Int
  maxRetryDur : Int
  timeoutDur : Int
  retryCount : Nat
  promiseFactory : Bool
  exceptionRule : Bool

/-- The coroutine and its bucket. -/
structure World (T : Type) where
  config : Config
  since : Int
  result : Option T
  err : ExceptionT
  retryIdx : Nat
  isConcluded : Bool
  isOnRetry : Bool
  onRetrySince : Int
  onRetryIdx : Nat
  /-- On record: how many promises the factory made, what came of them and when, and how often the
  bucket was completed. -/
  attempts : Nat
  outcomes : List (Int × Except Failure T)
  completions : Nat

/-- What a call of `next` finds: the token, the clock, the outcome of a promise that is completed, the
answer of the rule, and that of the factory. -/
structure Poll (T : Type) where
  isCanceled : Bool
  now : Int
  outcome : Option (Except Failure T)
  canRetry : Bool
  factory : Except Failure Unit

inductive Thrown where
  | invalidArgument (message : String)
  | code (err : Failure)
  | badOptionalAccess

variable {T : Type}

def make (c : Config) (now : Int) : Except Fault (World T) :=
  if max 0 (min c.firstRetryDur maxDur) ≠ c.firstRetryDur then
    .error (.invalidArgument "bad first retry duration, duration out of range")
  else if max 0 (min c.maxRetryDur maxDur) ≠ c.maxRetryDur then
    .error (.invalidArgument "bad max retry duration, duration out of range")
  else if max 0 (min c.timeoutDur maxDur) ≠ c.timeoutDur then
    .error (.invalidArgument "bad timeout duration, duration out of range")
  else if ¬ c.promiseFactory then .error (.invalidArgument "bad promise factory, null")
  else if ¬ c.exceptionRule then .error (.invalidArgument "bad exception rule, null")
  else .ok ⟨c, now, none, .success, 0, false, false, 0, 0, 1, [], 0⟩

def operationCanceledError : ExceptionT := 69

/-- `wrap_std_exception`; there is no current exception outside of a handler. -/
def wrapStdException : Option Failure → ExceptionT
  | none => .success
  | some err => err

namespace World

variable (w : World T)

/-- The product is unsigned, and its cast signed. -/
def getRetrySleepDuration : Except Fault Int :=
  if 64 ≤ w.onRetryIdx then .error .undefined
  else .ok (min ((w.config.firstRetryDur * 2 ^ w.onRetryIdx).bmod (2 ^ 64)) w.config.maxRetryDur)

def resultFinalize (result : T) : World T :=
  { w with result := some result, isConcluded := true, completions := w.completions + 1 }

def errorFinalize (err : ExceptionT) : World T :=
  { w with result := none, err := err, isConcluded := true, completions := w.completions + 1 }

/-- `current_promise = promise_factory->get()`. -/
def getPromise : Except Failure Unit → World T
  | .error err => w.errorFinalize (wrapStdException err)
  | .ok () => { w with isOnRetry := false, attempts := w.attempts + 1 }

/-- The promise was waited for. -/
def waited (p : Poll T) (outcome : Except Failure T) : World T :=
  { w with outcomes := w.outcomes ++ [(p.now, outcome)] }

/-- `next`, with whether it did something. -/
def next (p : Poll T) : Except Fault (World T × Bool) :=
  if p.isCanceled then .ok (w.errorFinalize operationCanceledError, true)
  else if p.now - w.since ≥ w.config.timeoutDur then .ok (w.errorFinalize (wrapStdException none), true)
  else if w.isOnRetry then do
    let dur ← w.getRetrySleepDuration
    if p.now - w.onRetrySince < dur then .ok (w, false) else .ok (w.getPromise p.factory, true)
  else
    match p.outcome with
    | none => .ok (w, false)
    | some (.ok result) => .ok ((w.waited p (.ok result)).resultFinalize result, true)
    | some (.error err) =>
      let w := w.waited p (.error err)
      if w.retryIdx = w.config.retryCount then .ok (w.errorFinalize (wrapStdException err), true)
      else if ¬ p.canRetry then .ok (w.errorFinalize (wrapStdException err), true)
      else .ok ({ w with
        isOnRetry := true
        onRetrySince := p.now
        onRetryIdx := w.retryIdx
        retryIdx := w.retryIdx + 1 }, true)

/-- `wait`, when the bucket is complete. -/
def wait (waitBroke : Bool) : Except Thrown T :=
  if waitBroke then .error (.invalidArgument "second wait")
  else
    match w.result with
    | some result => .ok result
    | none => if h : isFailed w.err then .error (.code ⟨w.err, h⟩) else .error .badOptionalAccess

/-- The executor calls `next` while `has_next`. -/
def Step (w : World T) (p : Poll T) (w' : World T) : Prop :=
  w.isConcluded = false ∧ ∃ moved, w.next p = .ok (w', moved)

end World

/-! ## The schedule -/

def Config.delay (c : Config) (k : Nat) : Int := min (c.firstRetryDur * 2 ^ k) c.maxRetryDur

def Failed (outcome : Int × Except Failure T) : Prop := ∃ err, outcome.2 = .error err

/-- `wait` returns the first result, or throws an error after nothing but failures. -/
def World.Ended (w : World T) : Prop :=
  (∃ failures t result, w.outcomes = failures ++ [(t, .ok result)] ∧ (∀ o ∈ failures, Failed o) ∧
    w.wait false = .ok result) ∨
  ∃ err, (∀ o ∈ w.outcomes, Failed o) ∧ w.wait false = .error (.code err)

/-- The time is not over, and the delay of a promise on retry fits. -/
def InRange (w : World T) (p : Poll T) : Prop :=
  p.isCanceled = true ∨ p.now - w.since < w.config.timeoutDur ∧
    (w.isOnRetry = true → w.onRetryIdx < 64 ∧ w.config.firstRetryDur * 2 ^ w.onRetryIdx < 2 ^ 63)

structure Inv (c : Config) (w : World T) : Prop where
  config : w.config = c
  first : 0 ≤ c.firstRetryDur
  attempts : w.attempts = w.retryIdx + if w.isOnRetry then 0 else 1
  le : w.retryIdx ≤ c.retryCount
  completions : w.completions = if w.isConcluded then 1 else 0
  onRetry : w.isOnRetry = true → w.retryIdx = w.onRetryIdx + 1 ∧
    ∃ err, w.outcomes.getLast? = some (w.onRetrySince, .error err)
  open_ : w.isConcluded = false → ∀ o ∈ w.outcomes, Failed o
  ended : w.isConcluded = true → w.Ended

variable {c : Config} {w w' : World T} {p : Poll T}

/-- An open promise ends with an error. -/
theorem Inv.fail (h : Inv c w) (ho : w.isConcluded = false) {err : ExceptionT} (herr : isFailed err) :
    Inv c (w.errorFinalize err) where
  __ := h
  completions := by simp [World.errorFinalize, h.completions, ho]
  open_ := nofun
  ended _ := .inr ⟨⟨err, herr⟩, h.open_ ho, by simp [World.wait, World.errorFinalize, herr]⟩

/-- The delay is computed without a wrap. -/
theorem Inv.sleep (h : Inv c w) (hr : w.isOnRetry = true) (hp : p.isCanceled = false)
    (hin : InRange w p) : w.getRetrySleepDuration = .ok (c.delay w.onRetryIdx) := by
  obtain ⟨-, hfits⟩ := hin.resolve_left (by simp [hp])
  obtain ⟨hlt, hsmall⟩ := hfits hr
  have hpos := Int.mul_nonneg h.first (Int.pow_nonneg (n := 2) (m := w.onRetryIdx) (by decide))
  rw [h.config] at hsmall
  rw [World.getRetrySleepDuration, if_neg (Nat.not_le.2 hlt), h.config,
    Int.bmod_eq_of_le (by omega) (by omega)]
  rfl

theorem Inv.step (h : Inv c w) (hin : InRange w p) (e : w.Step p w') : Inv c w' := by
  obtain ⟨ho, moved, e⟩ := e
  unfold World.next at e
  by_cases hp : p.isCanceled = true
  · rw [if_pos hp] at e
    cases e
    exact h.fail ho (by decide)
  have htime := (hin.resolve_left hp).1
  rw [if_neg hp, if_neg (by omega)] at e
  by_cases hr : w.isOnRetry = true
  · rw [if_pos hr, h.sleep hr (Bool.eq_false_iff.2 hp) hin] at e
    simp only [ok_bind] at e
    split at e
    · cases e
      exact h
    cases e
    cases hf : p.factory with
    | error err => exact h.fail ho err.2
    | ok =>
      have hattempts := h.attempts
      rw [if_pos hr] at hattempts
      exact ⟨h.config, h.first, by simp [World.getPromise, hattempts], h.le, h.completions, nofun, h.open_,
        h.ended⟩
  rw [if_neg hr] at e
  have hfailed := h.open_ ho
  split at e
  · cases e
    exact h
  · rename_i result _
    cases e
    refine ⟨h.config, h.first, h.attempts, h.le, ?_, fun hr' => absurd hr' hr, nofun, fun _ => ?_⟩
    · simp [World.resultFinalize, World.waited, h.completions, ho]
    · exact .inl ⟨w.outcomes, p.now, result, rfl, hfailed, rfl⟩
  · rename_i err _
    have hw : Inv c (w.waited p (.error err)) := by
      refine ⟨h.config, h.first, h.attempts, h.le, h.completions, fun hr' => absurd hr' hr, fun _ => ?_,
        fun hc => absurd (ho.symm.trans hc) Bool.false_ne_true⟩
      exact List.forall_mem_append.2 ⟨hfailed, List.forall_mem_singleton.2 ⟨err, rfl⟩⟩
    simp only at e
    split at e
    · cases e
      exact hw.fail ho err.2
    rename_i hleft
    split at e
    · cases e
      exact hw.fail ho err.2
    cases e
    have hattempts := h.attempts
    rw [if_neg hr] at hattempts
    have hlt : w.retryIdx < c.retryCount := Nat.lt_of_le_of_ne h.le fun he => hleft (h.config ▸ he)
    refine ⟨h.config, h.first, by simpa [World.waited] using hattempts, hlt, h.completions,
      fun _ => ⟨rfl, err, ?_⟩,
      hw.open_, hw.ended⟩
    exact List.getLast?_concat

end RestFrame.Base2ExponentialRetryPromise
