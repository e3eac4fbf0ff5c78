import NeuralNetwork.Lib.Cpp
import NeuralNetwork.Lib.DaryHeap
import NeuralNetwork.Lib.Loop
import NeuralNetwork.Lib.Run

/-!
# KeyHeap

The keyed heap of `src/memory_management/key_heap.h`: a vector of nodes, each with the address of an
index of its own, and a map from the key of a value to that address, so that a node can be updated or
erased by its key. `KeyHeap.Op` lists the calls and `Step` is one of them; a call that throws leaves the
heap as it was. `Store` says what the heap is for: it keeps the last value of each key, and `pop`
removes a best one.
-/

namespace MultiplatformMemoryX

open Cpp Loop

structure Traits (K V : Type) where
  comparator : V → V → Bool
  keyExtractor : V → K
  OUT_DEGREE_SZ : Nat
  out_degree_pos : 0 < OUT_DEGREE_SZ

structure HeapNode (V : Type) where
  value : V
  /-- The address of the index. -/
  heapIdx : Nat
deriving DecidableEq, Repr

structure KeyHeap (K V : Type) where
  heapVec : List (HeapNode V)
  /-- What stands at the address of an index. -/
  index : Nat → Nat
  reverseLookupMap : K → Option Nat
  /-- The first address that was never allocated. -/
  nextAddr : Nat

variable {K V : Type}

namespace KeyHeap

def empty : KeyHeap K V where
  heapVec := []
  index _ := 0
  reverseLookupMap _ := none
  nextAddr := 0

def valueAt (h : KeyHeap K V) (i : Nat) : Option V := (h.heapVec[i]?).map HeapNode.value

end KeyHeap

/-- The comparator; a place that is not in use is worse than any other. -/
def Traits.noWorse (T : Traits K V) : Option V → Option V → Bool := DaryHeap.noWorse T.comparator

namespace KeyHeap

def better (T : Traits K V) (h : KeyHeap K V) (i j : Nat) : Bool := T.noWorse (h.valueAt i) (h.valueAt j)

/-! ## Private functions -/

/-- The indices after those at two addresses were swapped. -/
def swapIndex (h : KeyHeap K V) (a b : Nat) : Nat → Nat :=
  fun x => if x = b then h.index a else if x = a then h.index b else h.index x

def swapNode (h : KeyHeap K V) (i j : Nat) : Except Fault (KeyHeap K V) :=
  match h.heapVec[i]?, h.heapVec[j]? with
  | some lhs, some rhs =>
    .ok { h with
      heapVec := (h.heapVec.set i rhs).set j lhs
      index := h.swapIndex lhs.heapIdx rhs.heapIdx }
  | _, _ => .error .outOfBounds

def pushUpAt (T : Traits K V) : Nat → KeyHeap K V → Nat → Except Fault (KeyHeap K V)
  | 0, _, _ => .error .outOfFuel
  | fuel + 1, h, idx =>
    if idx ≥ h.heapVec.length then .error .abort
    else if idx = 0 then .ok h
    else
      let parentIdx := idx / T.OUT_DEGREE_SZ
      if h.better T parentIdx idx then .ok h
      else do
        let h ← h.swapNode parentIdx idx
        pushUpAt T fuel h parentIdx

def pushDownAt (T : Traits K V) : Nat → KeyHeap K V → Nat → Except Fault (KeyHeap K V)
  | 0, _, _ => .error .outOfFuel
  | fuel + 1, h, idx =>
    if idx ≥ h.heapVec.length then .error .abort
    else
      match DaryHeap.bestChild (h.better T) T.OUT_DEGREE_SZ h.heapVec.length idx with
      | none => .ok h
      | some cand =>
        if h.better T idx cand then .ok h
        else do
          let h ← h.swapNode idx cand
          pushDownAt T fuel h cand

def correctAt (T : Traits K V) (h : KeyHeap K V) (idx : Nat) : Except Fault (KeyHeap K V) := do
  let h ← h.pushUpAt T (idx + 1) idx
  h.pushDownAt T h.heapVec.length idx

def setValue (h : KeyHeap K V) (idx : Nat) (value : V) : Except Fault (KeyHeap K V) :=
  match h.heapVec[idx]? with
  | some node => .ok { h with heapVec := h.heapVec.set idx { node with value := value } }
  | none => .error .outOfBounds

def append (h : KeyHeap K V) [DecidableEq K] (key : K) (value : V) : KeyHeap K V where
  heapVec := h.heapVec ++ [{ value := value, heapIdx := h.nextAddr }]
  index := fun a => if a = h.nextAddr then h.heapVec.length else h.index a
  reverseLookupMap := fun k => if k = key then some h.nextAddr else h.reverseLookupMap k
  nextAddr := h.nextAddr + 1

/-- The last node and its key are removed. -/
def popBack (h : KeyHeap K V) [DecidableEq K] (key : K) : KeyHeap K V :=
  { h with
    heapVec := h.heapVec.dropLast
    reverseLookupMap := fun k => if k = key then none else h.reverseLookupMap k }

/-! ## Calls -/

variable [DecidableEq K]

def push (T : Traits K V) (h : KeyHeap K V) (value : V) : Except Fault (KeyHeap K V) :=
  let key := T.keyExtractor value
  match h.reverseLookupMap key with
  | some addr => do
    let heapIdx := h.index addr
    let h ← h.setValue heapIdx value
    h.correctAt T heapIdx
  | none =>
    let h := h.append key value
    h.pushUpAt T (h.heapVec.length - 1 + 1) (h.heapVec.length - 1)

def getByKey (h : KeyHeap K V) (key : K) : Except Fault (Option V) :=
  match h.reverseLookupMap key with
  | none => .ok none
  | some addr =>
    match h.valueAt (h.index addr) with
    | some value => .ok (some value)
    | none => .error .outOfBounds

def updateByKey (T : Traits K V) (h : KeyHeap K V) (key : K) (mutatorFunc : V → V) :
    Except Fault (KeyHeap K V) :=
  match h.reverseLookupMap key with
  | none => .error (.invalidArgument "bad key, key not found")
  | some addr =>
    let heapIdx := h.index addr
    match h.valueAt heapIdx with
    | none => .error .outOfBounds
    | some value => do
      let h ← h.setValue heapIdx (mutatorFunc value)
      h.correctAt T heapIdx

def pop (T : Traits K V) (h : KeyHeap K V) : Except Fault (KeyHeap K V) :=
  if h.heapVec.isEmpty then .error .abort
  else do
    let h ← h.swapNode 0 (h.heapVec.length - 1)
    match h.valueAt (h.heapVec.length - 1) with
    | none => .error .outOfBounds
    | some value =>
      let h := h.popBack (T.keyExtractor value)
      if h.heapVec.isEmpty then .ok h else h.pushDownAt T h.heapVec.length 0

def peek (h : KeyHeap K V) : Except Fault V :=
  match h.valueAt 0 with
  | none => .error .abort
  | some value => .ok value

def eraseByKey (T : Traits K V) (h : KeyHeap K V) (key : K) : Except Fault (KeyHeap K V) :=
  match h.reverseLookupMap key with
  | none => .ok h
  | some addr => do
    let heapIdx := h.index addr
    let h ← h.swapNode heapIdx (h.heapVec.length - 1)
    let h := h.popBack key
    if heapIdx < h.heapVec.length then h.correctAt T heapIdx else .ok h

/-! ## Runs -/

inductive Op (K V : Type) where
  | push (value : V)
  | updateByKey (key : K) (mutatorFunc : V → V)
  | eraseByKey (key : K)
  | pop

/-- A mutator keeps the key of what it changes. -/
def Op.KeepsKey (T : Traits K V) : Op K V → Prop
  | .updateByKey _ mutatorFunc => ∀ value, T.keyExtractor (mutatorFunc value) = T.keyExtractor value
  | _ => True

def apply (T : Traits K V) (h : KeyHeap K V) : Op K V → Except Fault (KeyHeap K V)
  | .push value => h.push T value
  | .updateByKey key mutatorFunc => h.updateByKey T key mutatorFunc
  | .eraseByKey key => h.eraseByKey T key
  | .pop => h.pop T

/-- One call that returns, or throws before it changed anything. -/
def Step (T : Traits K V) (h : KeyHeap K V) (op : Op K V) (h' : KeyHeap K V) : Prop :=
  op.KeepsKey T ∧
    (apply T h op = .ok h' ∨ h' = h ∧ ∃ what, apply T h op = .error (.invalidArgument what))

end KeyHeap

/-! ## What the heap is for -/

abbrev Store (K V : Type) := K → Option V

variable [DecidableEq K]

def Store.put (s : Store K V) (key : K) (value : Option V) : Store K V :=
  fun k => if k = key then value else s k

/-- A value that is kept and no worse than any other. -/
def Store.IsBest (T : Traits K V) (s : Store K V) (value : V) : Prop :=
  s (T.keyExtractor value) = some value ∧ ∀ key v, s key = some v → T.comparator value v = true

def Store.Step (T : Traits K V) (s : Store K V) (op : KeyHeap.Op K V) (s' : Store K V) : Prop :=
  match op with
  | .push value => s' = s.put (T.keyExtractor value) (some value)
  | .updateByKey key mutatorFunc => s' = s.put key ((s key).map mutatorFunc)
  | .eraseByKey key => s' = s.put key none
  | .pop => ∃ value, s.IsBest T value ∧ s' = s.put (T.keyExtractor value) none

end MultiplatformMemoryX
