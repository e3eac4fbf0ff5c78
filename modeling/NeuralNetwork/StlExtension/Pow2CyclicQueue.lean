import NeuralNetwork.Lib.Loop
import NeuralNetwork.Lib.Ring
import NeuralNetwork.StlExtension.Stdx

/-!
# Cyclic queues

`simple_pow2_cyclic_queue` and `nontrivial_pow2_cyclic_queue` of `stl_extension/datastructure.h` (and of
`internal_rest/network_datastructure.h`, which repeats them), in debug mode. The slots of the first
always hold a value, those of the second an object or raw storage. `T{}` is `default`. An assignment
that throws leaves some value in its target, which need not be the old one.
-/

namespace CyclicQueue

open Cpp Loop Stdx Ring

/-- What a call returns; `wrapped` is an exception of `T`. -/
inductive Exception where
  | success
  | resourceExhaustion
  | queueFull
  | wrapped
deriving DecidableEq, Repr

def toIndex (off cap virtualOffset : Nat) : Nat := sizeT (off + virtualOffset) &&& subT cap 1

/-! ## Slots that always hold a value -/

structure SimplePow2CyclicQueue (T : Type) where
  dataArr : List T
  off : Nat
  sz : Nat
  cap : Nat

namespace SimplePow2CyclicQueue

variable {T : Type} [Inhabited T]

/-- `simple_pow2_cyclic_queue(pow2_exponent)`. -/
def make (pow2Exponent : Nat) : Except Fault (SimplePow2CyclicQueue T) := do
  let cap ← shiftOne pow2Exponent
  return ⟨List.replicate cap default, 0, 0, cap⟩

variable (q : SimplePow2CyclicQueue T)

/-- `operator[]`. -/
def get (idx : Nat) : Except Fault T :=
  match q.dataArr[toIndex q.off q.cap idx]? with
  | some x => .ok x
  | none => .error .outOfBounds

def store (idx : Nat) (x : T) : Except Fault (SimplePow2CyclicQueue T) :=
  let ptr := toIndex q.off q.cap idx
  if ptr < q.dataArr.length then .ok { q with dataArr := q.dataArr.set ptr x }
  else .error .outOfBounds

def fill (first last : Nat) : Except Fault (SimplePow2CyclicQueue T) :=
  if first ≤ last ∧ last ≤ q.dataArr.length then
    .ok { q with dataArr := fillRange q.dataArr first last default }
  else .error .outOfBounds

def fillTask (virtualIdx n : Nat) : Except Fault (SimplePow2CyclicQueue T) := do
  let first := toIndex q.off q.cap virtualIdx
  let last := sizeT (first + n)
  let eoqLast := min q.cap last
  let wrappedAroundLast := subT last eoqLast
  (← q.fill first eoqLast).fill 0 wrappedAroundLast

/-- `defaultize_range`, by `std::fill` where a copy of `T` cannot throw. -/
def defaultizeRange (nothrowCopy : Bool) (virtualIdx n : Nat) :
    Except Fault (SimplePow2CyclicQueue T) :=
  if nothrowCopy then q.fillTask virtualIdx n
  else forLoop (fun i q => q.store (sizeT (virtualIdx + i)) default) n q

def resize (nothrowCopy : Bool) (newSz : Nat) :
    Except Fault (SimplePow2CyclicQueue T × Exception) := do
  if newSz > q.cap then
    return (q, .resourceExhaustion)
  if newSz ≥ q.sz then
    return ({ q with sz := newSz }, .success)
  let q ← q.defaultizeRange nothrowCopy newSz (q.sz - newSz)
  return ({ q with sz := newSz }, .success)

/-- `push_back`; `thrown` is what an assignment that throws leaves in the slot. -/
def pushBack (value : T) (thrown : Option T) :
    Except Fault (SimplePow2CyclicQueue T × Exception) := do
  if q.sz = q.cap then
    return (q, .queueFull)
  match thrown with
  | some x => return (← q.store q.sz x, .wrapped)
  | none =>
    let q ← q.store q.sz value
    return ({ q with sz := q.sz + 1 }, .success)

def popFront : Except Fault (SimplePow2CyclicQueue T) := do
  if q.sz = 0 then
    throw .abort
  let q ← q.store 0 default
  return { q with off := sizeT (q.off + 1), sz := q.sz - 1 }

def popBack : Except Fault (SimplePow2CyclicQueue T) := do
  if q.sz = 0 then
    throw .abort
  let q ← q.store (q.sz - 1) default
  return { q with sz := q.sz - 1 }

def eraseFrontRange (nothrowCopy : Bool) (n : Nat) : Except Fault (SimplePow2CyclicQueue T) := do
  if n > q.sz then
    throw .abort
  let q ← q.defaultizeRange nothrowCopy 0 n
  return { q with off := sizeT (q.off + n), sz := q.sz - n }

def eraseBackRange (nothrowCopy : Bool) (n : Nat) : Except Fault (SimplePow2CyclicQueue T) := do
  if n > q.sz then
    throw .abort
  return (← q.resize nothrowCopy (q.sz - n)).1

def clear (nothrowCopy : Bool) : Except Fault (SimplePow2CyclicQueue T) := do
  return (← q.resize nothrowCopy 0).1

end SimplePow2CyclicQueue

/-! ## Slots of raw storage -/

structure NontrivialPow2CyclicQueue (T : Type) where
  dataArr : List (Option T)
  off : Nat
  sz : Nat
  cap : Nat

namespace NontrivialPow2CyclicQueue

variable {T : Type}

/-- `nontrivial_pow2_cyclic_queue(pow2_exponent)`. -/
def make (pow2Exponent : Nat) : Except Fault (NontrivialPow2CyclicQueue T) := do
  let cap ← shiftOne pow2Exponent
  return ⟨List.replicate cap none, 0, 0, cap⟩

variable (q : NontrivialPow2CyclicQueue T)

/-- `operator[]`, on a slot with an object. -/
def get (idx : Nat) : Except Fault T :=
  match q.dataArr[toIndex q.off q.cap idx]? with
  | some (some x) => .ok x
  | some none => .error .undefined
  | none => .error .outOfBounds

/-- `new (&data_arr[to_index(idx)]) T(x)`, which would lose an object that is there. -/
def construct (idx : Nat) (x : T) : Except Fault (NontrivialPow2CyclicQueue T) :=
  let ptr := toIndex q.off q.cap idx
  match q.dataArr[ptr]? with
  | some none => .ok { q with dataArr := q.dataArr.set ptr (some x) }
  | some (some _) => .error .undefined
  | none => .error .outOfBounds

/-- `std::destroy_at` of the object in a slot. -/
def destroyAt (idx : Nat) : Except Fault (NontrivialPow2CyclicQueue T) :=
  let ptr := toIndex q.off q.cap idx
  match q.dataArr[ptr]? with
  | some (some _) => .ok { q with dataArr := q.dataArr.set ptr none }
  | some none => .error .undefined
  | none => .error .outOfBounds

def dispatchDestroy (virtualOff n : Nat) : Except Fault (NontrivialPow2CyclicQueue T) :=
  forLoop (fun i q => q.destroyAt (sizeT (virtualOff + i))) n q

/-- `dispatch_default_initialize`; the constructor that throws is given by its number. -/
def dispatchDefaultInitialize [Inhabited T] (virtualOff n : Nat) (throwsAt : Option Nat) :
    Except Fault (NontrivialPow2CyclicQueue T × Exception) := do
  let successSz := min n (throwsAt.getD n)
  let q ← forLoop (fun i q => q.construct (sizeT (virtualOff + i)) default) successSz q
  if successSz < n then
    return (← q.dispatchDestroy virtualOff successSz, .wrapped)
  return (q, .success)

def resize [Inhabited T] (newSz : Nat) (throwsAt : Option Nat) :
    Except Fault (NontrivialPow2CyclicQueue T × Exception) := do
  if newSz > q.cap then
    return (q, .resourceExhaustion)
  if newSz = q.sz then
    return (q, .success)
  if newSz > q.sz then
    match ← q.dispatchDefaultInitialize q.sz (newSz - q.sz) throwsAt with
    | (q, .success) => return ({ q with sz := newSz }, .success)
    | (q, err) => return (q, err)
  else
    let q ← q.dispatchDestroy newSz (q.sz - newSz)
    return ({ q with sz := newSz }, .success)

def pushBack (value : T) (throws : Bool) : Except Fault (NontrivialPow2CyclicQueue T × Exception) := do
  if q.sz = q.cap then
    return (q, .queueFull)
  if throws then
    return (q, .wrapped)
  let q ← q.construct q.sz value
  return ({ q with sz := q.sz + 1 }, .success)

def popFront : Except Fault (NontrivialPow2CyclicQueue T) := do
  if q.sz = 0 then
    throw .abort
  let q ← q.destroyAt 0
  return { q with off := sizeT (q.off + 1), sz := q.sz - 1 }

def popBack : Except Fault (NontrivialPow2CyclicQueue T) := do
  if q.sz = 0 then
    throw .abort
  let q ← q.destroyAt (q.sz - 1)
  return { q with sz := q.sz - 1 }

def eraseFrontRange (n : Nat) : Except Fault (NontrivialPow2CyclicQueue T) :=
  forLoop (fun _ q => q.popFront) n q

def eraseBackRange (n : Nat) : Except Fault (NontrivialPow2CyclicQueue T) :=
  forLoop (fun _ q => q.popBack) n q

def clear : Except Fault (NontrivialPow2CyclicQueue T) := q.eraseBackRange q.sz

end NontrivialPow2CyclicQueue

/-! ## Calls -/

/-- A call, with what `T` throws in it: an assignment or a copy, or one of the default constructors,
given by its number. -/
inductive Op (T : Type) where
  | pushBack (value : T) (thrown : Option T)
  | popFront
  | popBack
  | resize (newSz : Nat) (throwsAt : Option Nat)
  | eraseFrontRange (n : Nat)
  | eraseBackRange (n : Nat)
  | clear

variable {T : Type} [Inhabited T]

/-- The default constructor does not throw in the simple queue, which does not call it to grow. -/
def Op.runSimple (nothrowCopy : Bool) (q : SimplePow2CyclicQueue T) :
    Op T → Except Fault (SimplePow2CyclicQueue T × Exception)
  | .pushBack value thrown => q.pushBack value thrown
  | .popFront => do return (← q.popFront, .success)
  | .popBack => do return (← q.popBack, .success)
  | .resize newSz _ => q.resize nothrowCopy newSz
  | .eraseFrontRange n => do return (← q.eraseFrontRange nothrowCopy n, .success)
  | .eraseBackRange n => do return (← q.eraseBackRange nothrowCopy n, .success)
  | .clear => do return (← q.clear nothrowCopy, .success)

def Op.runNontrivial (q : NontrivialPow2CyclicQueue T) :
    Op T → Except Fault (NontrivialPow2CyclicQueue T × Exception)
  | .pushBack value thrown => q.pushBack value thrown.isSome
  | .popFront => do return (← q.popFront, .success)
  | .popBack => do return (← q.popBack, .success)
  | .resize newSz throwsAt => q.resize newSz throwsAt
  | .eraseFrontRange n => do return (← q.eraseFrontRange n, .success)
  | .eraseBackRange n => do return (← q.eraseBackRange n, .success)
  | .clear => do return (← q.clear, .success)

end CyclicQueue
