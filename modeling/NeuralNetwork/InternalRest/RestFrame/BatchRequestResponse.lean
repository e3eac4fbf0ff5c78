import NeuralNetwork.InternalRest.Mailbox.Model
import NeuralNetwork.Lib.Run

/-!
# BatchRequestResponseBase

The response of a batch of requests, of `internal_rest/network_rest_frame.h`: the calls of `update`,
one for each index, and the call of `response`. One step is one atomic access, or one access to
`resp_vec`; `atomic_smp.wait(0)` blocks exactly while the value is 0, until it is notified.
-/

namespace RestFrame

open Cpp Mailbox

/-- `std::expected<Response, exception_t>`. -/
abbrev Expected (R : Type) := Except ExceptionT R

namespace BatchResponse

structure BatchRequestResponseBase (R : Type) where
  atomicSmp : Int
  respVec : List (Expected R)
  isResponseInvoked : Bool

namespace BatchRequestResponseBase

variable {R : Type}

/-- The constructor, with `zero_throw`. -/
def make (respSz : Nat) : Except Fault (BatchRequestResponseBase R) :=
  if respSz = 0 then .error (.invalidArgument "unsigned non-zero value cannot be zero")
  else if respSz ≥ 2 ^ 63 then
    .error (.lengthError "cannot create std::vector larger than max_size()")
  else .ok ⟨1 - respSz, List.replicate respSz (.error .expectedNotInitialized), false⟩

variable (b : BatchRequestResponseBase R)

def isCompleted : Bool := b.atomicSmp = 1

/-- The value of an `expected` that was never set. -/
def uninitialized : Expected R → Bool
  | .ok _ => false
  | .error err => err = .expectedNotInitialized

/-- `internal_update` up to the store to `resp_vec[idx]`. -/
def store (debug : Bool) (idx : Nat) (response : Expected R) :
    Except Fault (BatchRequestResponseBase R) :=
  match b.respVec[idx]? with
  | none => if debug then .error .abort else .error .outOfBounds
  | some old =>
    if debug ∧ (uninitialized response ∨ old.isOk) then .error .abort
    else .ok { b with respVec := b.respVec.set idx response }

def fetchAdd (debug : Bool) : Except Fault (BatchRequestResponseBase R × Int) :=
  if debug ∧ b.atomicSmp > 0 then .error .abort
  else .ok ({ b with atomicSmp := b.atomicSmp + 1 }, b.atomicSmp)

/-- `assert_all_expected_initialized`, and the move of `resp_vec`. -/
def moveResponses (debug : Bool) : Except Fault (BatchRequestResponseBase R × List (Expected R)) :=
  if debug ∧ b.respVec.any uninitialized then .error .abort
  else .ok ({ b with respVec := [] }, b.respVec)

end BatchRequestResponseBase

/-! ## Calls -/

/-- The call of `update` for one index. -/
inductive UpdatePhase (R : Type) where
  | idle
  | stored (response : Expected R)
  /-- After a `fetch_add` that found 0. -/
  | notifying (response : Expected R)
  | done (response : Expected R)

inductive ResponsePhase (R : Type) where
  | idle
  /-- Before the test in `wait`. -/
  | waiting
  | blocked
  /-- After `wait`. -/
  | reading
  | returned (rs : List (Expected R))

structure World (R : Type) where
  base : BatchRequestResponseBase R
  updates : List (UpdatePhase R)
  response : ResponsePhase R

/-- What happens next: a call of `update` starts with its store, or goes on; the call of `response`
starts with its `test_and_set`, or goes on. -/
inductive Event (R : Type) where
  | update (idx : Nat) (response : Expected R)
  | goUpdate (idx : Nat)
  | response
  | goResponse

namespace World

variable {R : Type} (w : World R)

def setUpdate (idx : Nat) (p : UpdatePhase R) : World R := { w with updates := w.updates.set idx p }

def notifyOne : World R :=
  match w.response with
  | .blocked => { w with response := .waiting }
  | _ => w

def step (debug : Bool) : Event R → Except Fault (Option (World R))
  | .update idx response =>
    match w.updates[idx]? with
    | some .idle => do
      let base ← w.base.store debug idx response
      .ok (some { w.setUpdate idx (.stored response) with base })
    | _ => .ok none
  | .goUpdate idx =>
    match w.updates[idx]? with
    | some (.stored response) => do
      let (base, old) ← w.base.fetchAdd debug
      if old = 0 then .ok (some { w.setUpdate idx (.notifying response) with base })
      else .ok (some { w.setUpdate idx (.done response) with base })
    | some (.notifying response) => .ok (some (w.notifyOne.setUpdate idx (.done response)))
    | _ => .ok none
  | .response =>
    match w.response with
    | .idle =>
      if w.base.isResponseInvoked then .ok none
      else .ok (some { w with
        base := { w.base with isResponseInvoked := true }
        response := .waiting })
    | _ => .ok none
  | .goResponse =>
    match w.response with
    | .waiting =>
      if w.base.atomicSmp = 0 then .ok (some { w with response := .blocked })
      else .ok (some { w with response := .reading })
    | .reading => do
      let (base, rs) ← w.base.moveResponses debug
      .ok (some { w with base, response := .returned rs })
    | _ => .ok none

end World

def Step {R : Type} (debug : Bool) (w : World R) (e : Event R) (w' : World R) : Prop :=
  w.step debug e = .ok (some w')

/-- A new batch, with one call of `update` to come for each index. -/
def Fresh {R : Type} (respSz : Nat) (w : World R) : Prop :=
  ∃ base, BatchRequestResponseBase.make respSz = .ok base ∧
    w = ⟨base, List.replicate respSz .idle, .idle⟩

end BatchResponse

end RestFrame
