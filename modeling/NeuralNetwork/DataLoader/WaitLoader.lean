import NeuralNetwork.DataLoader.Source

/-!
# WaitLoader

`RetryerMachine`, `SourceTransactionBroker` and `WaitLoader` of `data_loader`: the broker retries the
`get` of its source, and the loader keeps the tokens that a call of the broker returned and hands them
out one by one. The environment is given for each call of the source (`pattern`).
-/

namespace DataLoader

open Cpp Command

/-! ## RetryerMachine -/

structure RetryConfig where
  maxRetryCount : Nat
  retryableExceptionVec : Option (List String)

structure RetryerMachine where
  maxRetryCount : Nat
  retryableExceptionVec : Option (List String)

namespace RetryerMachine

variable {σ α : Type} (m : RetryerMachine)

def MIN_RETRY_COUNT : Nat := 0
def MAX_RETRY_COUNT : Nat := 10

def make (config : RetryConfig) : Except LoaderError RetryerMachine :=
  if clamp config.maxRetryCount MIN_RETRY_COUNT MAX_RETRY_COUNT ≠ config.maxRetryCount then
    .error .invalidArgument
  else .ok ⟨config.maxRetryCount, config.retryableExceptionVec⟩

def isUserDefinedRetryableError (err : LoaderError) : Bool :=
  match m.retryableExceptionVec with
  | none => true
  | some ids => ids.contains err.exceptionId

/-- One round of the loop of `run`: the result of the runnable, or the exception that is left over. -/
def round (runnable : Command σ Fault LoaderError α) :
    Command σ Fault LoaderError (Except LoaderError α) :=
  tryCatch (do
    let a ← runnable
    pure (.ok a)) fun err =>
      if err.isRetryable && m.isUserDefinedRetryableError err then pure (.error err) else throw err

/-- The loop of `run`, with the rounds that are left. -/
def runFrom (runnable : Command σ Fault LoaderError α) (sleep : Command σ Fault LoaderError Unit) :
    Nat → Option LoaderError → Command σ Fault LoaderError α
  | 0, none => wrong .undefined
  | 0, some leftoverException => throw leftoverException
  | n + 1, _ => do
    match ← m.round runnable with
    | .ok a => pure a
    | .error err => do
      sleep
      runFrom runnable sleep n (some err)

/-- The runnable returns what it leaves in its result. -/
def run (runnable : Command σ Fault LoaderError α) (sleep : Command σ Fault LoaderError Unit) :
    Command σ Fault LoaderError α :=
  m.runFrom runnable sleep (m.maxRetryCount + 1) none

end RetryerMachine

/-! ## SourceTransactionBroker -/

structure SourceTransactionBroker where
  base : Source
  retryerMachine : RetryerMachine
  /-- The calls of `base->get` so far. -/
  attempts : Nat

namespace SourceTransactionBroker

abbrev M (α : Type) := Command SourceTransactionBroker Fault LoaderError α

variable (pattern : Nat → Attempt)

def runnable (txHintSz : Nat) : M (Option (List (List Byte))) := do
  let b ← getState
  setState { b with attempts := b.attempts + 1 }
  (Source.get (pattern b.attempts) txHintSz).zoom SourceTransactionBroker.base
    fun base b => { b with base }

/-- `sleep_at_index`, which comes to an end. -/
def sleepAtIndex : M Unit := do
  let b ← getState
  if (pattern b.attempts).canceled then throw .operationCanceled else pure ()

def get (txHintSz : Nat) : M (Option (List (List Byte))) := do
  let b ← getState
  b.retryerMachine.run (runnable pattern txHintSz) (sleepAtIndex pattern)

end SourceTransactionBroker

/-! ## WaitLoader -/

/-- The source that a configuration names, with the content of its object. -/
inductive SourceConfig where
  | file (config : FileLoaderConfig) (content : Option (List Byte))
  | s3 (config : S3LoaderConfig) (object : List Byte)

def SourceConfig.make : SourceConfig → Except LoaderError Source
  | file config content => (FileLoader.make config content).map .file
  | s3 config object => .ok (.s3 (.make config object))

structure WaitLoaderConfig where
  txSz : Nat
  sourceConfig : SourceConfig
  retryConfig : RetryConfig

structure WaitLoader where
  broker : SourceTransactionBroker
  prefetchedTokenVec : List (List Byte)
  txSz : Nat
  wasCompleted : Bool
  wasCorrupted : Bool

namespace WaitLoader

abbrev M (α : Type) := Command WaitLoader Fault LoaderError α

def make (config : WaitLoaderConfig) : Except LoaderError WaitLoader := do
  let base ← config.sourceConfig.make
  let retryerMachine ← RetryerMachine.make config.retryConfig
  if config.txSz = 0 then throw .invalidArgument
  else pure {
    broker := { base, retryerMachine, attempts := 0 }
    prefetchedTokenVec := []
    txSz := config.txSz
    wasCompleted := false
    wasCorrupted := false }

variable (pattern : Nat → Attempt)

def brokerGet : M (Option (List (List Byte))) := do
  let l ← getState
  (SourceTransactionBroker.get pattern l.txSz).zoom WaitLoader.broker fun broker l => { l with broker }

/-- The loop of `refill_prefetched_token_vec`, cut off after some rounds. -/
def refillLoop : Nat → M Unit
  | 0 => wrong .outOfFuel
  | fuel + 1 => do
    match ← brokerGet pattern with
    | none => pure ()
    | some [] => refillLoop fuel
    | some rs => do
      let l ← getState
      setState { l with prefetchedTokenVec := l.prefetchedTokenVec ++ rs }

def refillPrefetchedTokenVec (fuel : Nat) : M Unit :=
  tryCatch (refillLoop pattern fuel) fun err => do
    let l ← getState
    setState { l with wasCorrupted := true }
    throw err

/-- `if (prefetched_token_vec.empty()) refill_prefetched_token_vec(..)`. -/
def ensurePrefetched (fuel : Nat) : M Unit := do
  let l ← getState
  if l.prefetchedTokenVec = [] then refillPrefetchedTokenVec pattern fuel else pure ()

def get (fuel : Nat) : M (Option (List Byte)) := do
  let l ← getState
  if l.wasCorrupted then throw .corruptedLoader
  else if l.wasCompleted then pure none
  else do
    ensurePrefetched pattern fuel
    let l ← getState
    match l.prefetchedTokenVec with
    | [] => do
      setState { l with wasCompleted := true }
      pure none
    | rs :: rest => do
      setState { l with prefetchedTokenVec := rest }
      pure (some rs)

/-- What a number of calls of `get` return or throw, one after the other. -/
def calls (fuel : Nat) :
    Nat → WaitLoader → Except Fault (List (Except LoaderError (Option (List Byte))) × WaitLoader)
  | 0, l => .ok ([], l)
  | n + 1, l => do
    let (answers, l) ← calls fuel n l
    let (answer, l) ← get pattern fuel l
    .ok (answers ++ [answer], l)

end WaitLoader

end DataLoader
