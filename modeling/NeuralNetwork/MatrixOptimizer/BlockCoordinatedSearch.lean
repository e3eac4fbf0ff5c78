import Mathlib.Order.Defs.LinearOrder
import NeuralNetwork.Lib.Command
import NeuralNetwork.Lib.Cpp

/-!
# The block-coordinated search

`CoordinatedSearchOptimizerEngine`, `BlockedSearchOptimizerEngine`, `TailBlockedSearchOptimizerEngine` and
the engine that stacks them, of `matrix_optimizer_subsystem`. The coefficient vectors of the matrices are
cells of a store, which `clone` adds to; a coefficient is of any type, and a deviation is NaN or of any
linear order. What the projectors, the time machine optimizers and the context machines do is given with
a call (`Inner`), as is the product of a size with a floating-point factor.
-/

namespace MatrixOptimizer

open Cpp Command

/-! ## nan_cmp -/

inductive EvalFloat (R : Type) where
  | nan
  | num (r : R)

namespace EvalFloat

variable {R : Type} [LinearOrder R]

def isnan : EvalFloat R → Bool
  | nan => true
  | num _ => false

/-- `<` on a floating-point type. -/
def less : EvalFloat R → EvalFloat R → Bool
  | num a, num b => a < b
  | _, _ => false

def nanCmp (lhs rhs : EvalFloat R) : Int :=
  if lhs.isnan < rhs.isnan then -1
  else if lhs.isnan > rhs.isnan then 1
  else if lhs.isnan = true then 0
  else if lhs.less rhs then -1
  else if rhs.less lhs then 1
  else 0

end EvalFloat

/-! ## Matrices -/

inductive Thrown where
  | operationCanceled
  | invalidArgument (what : String)
  | other
deriving DecidableEq, Repr

/-- The coefficient vectors of the matrices that were made. -/
abbrev Store (C : Type) := List (List C)

abbrev M (C α : Type) := Command (Store C) Fault Thrown α

/-- A `MatrixInterface`: one that has its coefficients, or an `InternalRetranslatedMatrix`. -/
inductive Matrix where
  | matrix (addr : Nat)
  | retranslated (baseMatrix : Matrix) (translationTable : List Nat)
deriving DecidableEq, Repr

variable {C R : Type}

def at? (v : List C) (i : Nat) : M C C :=
  match v[i]? with
  | some c => pure c
  | none => wrong .outOfBounds

def assign (v : List C) (i : Nat) (c : C) : M C (List C) :=
  if i < v.length then pure (v.set i c) else wrong .outOfBounds

namespace Matrix

def getCoefficientVector : Matrix → M C (List C)
  | matrix addr => do
    match (← getState)[addr]? with
    | some v => pure v
    | none => wrong .outOfBounds
  | retranslated baseMatrix translationTable => do
    let baseLogit ← baseMatrix.getCoefficientVector
    translationTable.foldlM (fun rs idx => do
      let c ← at? baseLogit idx
      pure (rs ++ [c])) []

def setCoefficientVector : Matrix → List C → M C Unit
  | matrix addr, coeffVec => do
    let store ← getState
    if addr < store.length then setState (store.set addr coeffVec)
    else wrong .outOfBounds
  | retranslated baseMatrix translationTable, coeffVec => do
    if coeffVec.length ≠ translationTable.length then
      throw (.invalidArgument "bad coefficient vector, mismatched size")
    let fullCoeffVec ← baseMatrix.getCoefficientVector
    let fullCoeffVec ← (translationTable.zip coeffVec).foldlM
      (fun full p => assign full p.1 p.2) fullCoeffVec
    baseMatrix.setCoefficientVector fullCoeffVec

def clone : Matrix → M C Matrix
  | matrix addr => do
    let store ← getState
    match store[addr]? with
    | some v => do
      setState (store ++ [v])
      pure (matrix store.length)
    | none => wrong .outOfBounds
  | retranslated baseMatrix translationTable => do
    let baseMatrix ← baseMatrix.clone
    pure (retranslated baseMatrix translationTable)

end Matrix

/-- A `MatrixEvaluatorInterface`: one whose deviation is a function of the coefficients, or an
`InternalRetranslatedMatrixEvaluator` with the base of its `original_matrix`. -/
inductive Evaluator (C R : Type) where
  | evaluator (deviation : List C → EvalFloat R)
  | retranslated (originalBase : Matrix) (translationTable : List Nat) (matrixEvaluator : Evaluator C R)

def Evaluator.getDeviation : Evaluator C R → Matrix → M C (EvalFloat R)
  | evaluator deviation, matrix => do
    let v ← matrix.getCoefficientVector
    pure (deviation v)
  | retranslated originalBase translationTable matrixEvaluator, matrix => do
    let v ← matrix.getCoefficientVector
    (Matrix.retranslated originalBase translationTable).setCoefficientVector v
    let orgMatrix ← originalBase.clone
    matrixEvaluator.getDeviation orgMatrix

/-- `MatrixOptimizerEngineInterface::optimize`. -/
abbrev Engine (C R : Type) := Matrix → Evaluator C R → M C Matrix

/-! ## CoordinatedSearchOptimizerEngine -/

/-- What the machines do in `optimize_one`. -/
structure One (C : Type) where
  isCanceled : Bool
  /-- The vectors for which the time machine is asked for a deviation, and whether the optimizer catches
  what that throws. -/
  evals : List (List C × Bool)
  result : Except Thrown (List C)

/-- What the machines do in `optimize`, and what they throw outside `optimize_one`. -/
structure Inner (C : Type) where
  /-- The generators. -/
  start : Option Thrown
  /-- Before the steps of an epoch, and in the feedback after them. -/
  epoch : Nat → Option Thrown
  epochFeedback : Nat → Option Thrown
  step : Nat → Nat → Option Thrown
  stepFeedback : Nat → Nat → Option Thrown
  loop : Nat → Nat → Nat → Option Thrown
  one : Nat → Nat → Nat → One C
  loopFeedback : Nat → Nat → Nat → Option Thrown

def throwIf : Option Thrown → M C Unit
  | some e => throw e
  | none => pure ()

structure CoordinatedSearchOptimizerEngineConfig where
  optimizationEpochSz : Nat
  optimizationStepSz : Nat
  optimizationLoopSz : Option Nat

def DEFAULT_OPTIMIZATION_LOOP_SZ : Nat := 2 ^ 4

/-- `SpecificMatrixTimeMachine::f`, which the caches in front of it may spare. -/
def timeMachine (matrix : Matrix) (matrixEvaluator : Evaluator C R) (coeffVec : List C) :
    M C (EvalFloat R) := do
  matrix.setCoefficientVector coeffVec
  matrixEvaluator.getDeviation matrix

/-- An evaluation and what the optimizer makes of a throw. -/
def evaluate (matrix : Matrix) (deviationExtractor : Evaluator C R) (eval : List C × Bool) : M C Unit := do
  try
    let _ ← timeMachine matrix deviationExtractor eval.1
    pure ()
  catch e => if eval.2 then pure () else throw e

def optimizeOne (matrix : Matrix) (deviationExtractor : Evaluator C R) (one : One C) :
    M C (List C) :=
  if one.isCanceled then throw .operationCanceled
  else do
    let tmpMatrix ← matrix.clone
    one.evals.foldlM (fun () eval => evaluate tmpMatrix deviationExtractor eval) ()
    Command.ofExcept one.result

variable [LinearOrder R]

/-- Whether a matrix is better than another; the deviations of one that is are read again for the
score. -/
def isBetter (matrixEvaluator : Evaluator C R) (testMatrix tmpMatrix : Matrix) : M C Bool := do
  let test ← matrixEvaluator.getDeviation testMatrix
  let tmp ← matrixEvaluator.getDeviation tmpMatrix
  if test.nanCmp tmp < 0 then do
    let _ ← matrixEvaluator.getDeviation testMatrix
    let _ ← matrixEvaluator.getDeviation tmpMatrix
    pure true
  else pure false

/-- The `try` block of `optimize`: the matrix to go on with. -/
def tryOne (matrixEvaluator : Evaluator C R) (tmpMatrix : Matrix) (one : One C) : M C Matrix := do
  try
    let newCoefficientVec ← optimizeOne tmpMatrix matrixEvaluator one
    let testMatrix ← tmpMatrix.clone
    testMatrix.setCoefficientVector newCoefficientVec
    if ← isBetter matrixEvaluator testMatrix tmpMatrix then pure testMatrix else pure tmpMatrix
  catch e =>
    match e with
    | .operationCanceled => throw e
    | _ => pure tmpMatrix

def stepLoop (inner : Inner C) (loopSz : Nat) (matrixEvaluator : Evaluator C R) (i j : Nat)
    (tmpMatrix : Matrix) : M C Matrix :=
  (List.range loopSz).foldlM (fun tmpMatrix z => do
    throwIf (inner.loop i j z)
    let tmpMatrix ← tryOne matrixEvaluator tmpMatrix (inner.one i j z)
    throwIf (inner.loopFeedback i j z)
    pure tmpMatrix) tmpMatrix

def epochLoop (inner : Inner C) (stepSz loopSz : Nat) (matrixEvaluator : Evaluator C R) (i : Nat)
    (bestMatrix tmpMatrix : Matrix) : M C Matrix :=
  (List.range stepSz).foldlM (fun tmpMatrix j => do
    throwIf (inner.step i j)
    let _ ← bestMatrix.getCoefficientVector
    let tmpMatrix ← stepLoop inner loopSz matrixEvaluator i j tmpMatrix
    throwIf (inner.stepFeedback i j)
    pure tmpMatrix) tmpMatrix

/-- `CoordinatedSearchOptimizerEngine::optimize`. -/
def coordinatedSearch (config : CoordinatedSearchOptimizerEngineConfig) (inner : Inner C) :
    Engine C R := fun matrix matrixEvaluator => do
  let _ ← matrix.getCoefficientVector
  let bestMatrix ← matrix.clone
  throwIf inner.start
  (List.range config.optimizationEpochSz).foldlM (fun bestMatrix i => do
    throwIf (inner.epoch i)
    let tmpMatrix ← bestMatrix.clone
    let tmpMatrix ← epochLoop inner config.optimizationStepSz
      (config.optimizationLoopSz.getD DEFAULT_OPTIMIZATION_LOOP_SZ) matrixEvaluator i bestMatrix tmpMatrix
    let better ← isBetter matrixEvaluator tmpMatrix bestMatrix
    throwIf (inner.epochFeedback i)
    pure (if better then tmpMatrix else bestMatrix)) bestMatrix

/-! ## BlockedSearchOptimizerEngine -/

def getTranslationTable (activationVec : List Bool) (logitVecSz : Nat) : List Nat :=
  (List.range logitVecSz).filter fun i => activationVec.getD i true

/-- `BlockedSearchOptimizerEngine::optimize`. -/
def blockedSearch (base : Engine C R) (activationVec : List Bool) : Engine C R :=
  fun matrix matrixEvaluator => do
    let table := getTranslationTable activationVec (← matrix.getCoefficientVector).length
    let original ← matrix.clone
    let table' := getTranslationTable activationVec (← matrix.getCoefficientVector).length
    let baseMatrix ← matrix.clone
    let rs ← base (.retranslated baseMatrix table) (.retranslated original table' matrixEvaluator)
    let coeffVec ← rs.getCoefficientVector
    (Matrix.retranslated baseMatrix table).setCoefficientVector coeffVec
    baseMatrix.clone

/-! ## TailBlockedSearchOptimizerEngine -/

def EXP_MAX : Nat := 2 ^ 50

structure TailBlockedSearchOptimizerEngine where
  /-- A size times `exp_base`, as `size_t`. -/
  mulExpBase : Nat → Nat
  x0 : Nat
  iterationSz : Nat
  lvlBar0 : Nat
  /-- A size times `lvl_bar_exp_base`. -/
  mulLvlBarExpBase : Nat → Nat

def TailBlockedSearchOptimizerEngine.make (mulExpBase : Nat → Nat) (x0 iterationSz lvlBar0 : Nat)
    (mulLvlBarExpBase : Nat → Nat) : Except Fault TailBlockedSearchOptimizerEngine :=
  if x0 = 0 then .error (.invalidArgument "bad x0, 0")
  else if lvlBar0 = 0 then .error (.invalidArgument "bad lvl bar, 0")
  else .ok ⟨mulExpBase, min x0 EXP_MAX, iterationSz, min lvlBar0 EXP_MAX, mulLvlBarExpBase⟩

/-- The locals of `optimize` that say how much is active. -/
structure Level where
  lvlBarCounter : Nat
  lvlBarGoal : Nat
  activeX : Nat

namespace TailBlockedSearchOptimizerEngine

variable (engine : TailBlockedSearchOptimizerEngine)

def firstLevel : Level := ⟨0, engine.lvlBar0, engine.x0⟩

def raise (level : Level) : Level :=
  if level.lvlBarCounter = level.lvlBarGoal then
    { activeX := min (engine.mulExpBase level.activeX) EXP_MAX
      lvlBarGoal := min (engine.mulLvlBarExpBase level.lvlBarGoal) EXP_MAX
      lvlBarCounter := 0 }
  else level

def getActivationVector (activeSz totalSz : Nat) : List Bool :=
  List.replicate (min activeSz totalSz) true ++ List.replicate (totalSz - min activeSz totalSz) false

/-- `TailBlockedSearchOptimizerEngine::optimize`, with the engine that it has as its base at each
iteration. -/
def optimize (base : Nat → Engine C R) : Engine C R := fun matrix matrixEvaluator => do
  let matrixSz := (← matrix.getCoefficientVector).length
  let operatingMatrix ← matrix.clone
  let r ← (List.range engine.iterationSz).foldlM (fun (operatingMatrix, level) i => do
    let level := engine.raise level
    let operatingMatrix ← blockedSearch (base i) (getActivationVector level.activeX matrixSz)
      operatingMatrix matrixEvaluator
    pure (operatingMatrix, { level with lvlBarCounter := level.lvlBarCounter + 1 }))
    (operatingMatrix, engine.firstLevel)
  pure r.1

end TailBlockedSearchOptimizerEngine

/-- `BlockCoordinatedSearchOptimizerEngine::optimize`. -/
def blockCoordinatedSearch (config : CoordinatedSearchOptimizerEngineConfig)
    (tail : TailBlockedSearchOptimizerEngine) (inner : Nat → Inner C) : Engine C R :=
  tail.optimize fun i => coordinatedSearch config (inner i)

end MatrixOptimizer
