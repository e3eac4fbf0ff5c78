import NeuralNetwork.Lib.Cpp
import NeuralNetwork.Lib.DaryHeap

/-!
# algorithm_extension::push_heap and pop_heap

The heap of `src/algorithm_extension/short_heap.h` on a vector, for any out-degree `D` and any comparison
`isBetterCmp` (the default is `<=`, out-degree 8). `pushHeap` takes up the last element, `popHeap` puts
the root last.
-/

namespace ShortHeap

open Cpp

variable {α : Type}

def DEFAULT_OUT_DEGREE_SZ : Nat := 8

def better (isBetterCmp : α → α → Bool) (heapArr : List α) (i j : Nat) : Bool :=
  DaryHeap.noWorse isBetterCmp heapArr[i]? heapArr[j]?

def swapAt (heapArr : List α) (i j : Nat) : Except Fault (List α) :=
  match heapArr[i]?, heapArr[j]? with
  | some a, some b => .ok ((heapArr.set i b).set j a)
  | _, _ => .error .outOfBounds

/-- `_push_down_heap`; the loop over the children is `DaryHeap.bestChild`. -/
def pushDownHeap (isBetterCmp : α → α → Bool) (D : Nat) :
    Nat → List α → Nat → Nat → Except Fault (List α)
  | 0, _, _, _ => .error .outOfFuel
  | fuel + 1, heapArr, idx, heapArrSz =>
    if idx ≥ heapArrSz then .error .abort
    else
      match DaryHeap.bestChild (better isBetterCmp heapArr) D heapArrSz idx with
      | none => .ok heapArr
      | some cand =>
        if better isBetterCmp heapArr idx cand then .ok heapArr
        else do
          let heapArr ← swapAt heapArr idx cand
          pushDownHeap isBetterCmp D fuel heapArr cand heapArrSz

def pushUpHeap (isBetterCmp : α → α → Bool) (D : Nat) :
    Nat → List α → Nat → Nat → Except Fault (List α)
  | 0, _, _, _ => .error .outOfFuel
  | fuel + 1, heapArr, idx, heapArrSz =>
    if idx ≥ heapArrSz then .error .abort
    else if idx = 0 then .ok heapArr
    else
      let parentIdx := (idx - 1) / D
      if better isBetterCmp heapArr parentIdx idx then .ok heapArr
      else do
        let heapArr ← swapAt heapArr parentIdx idx
        pushUpHeap isBetterCmp D fuel heapArr parentIdx heapArrSz

def popHeap (isBetterCmp : α → α → Bool) (D : Nat) (heapArr : List α) : Except Fault (List α) :=
  let sz := heapArr.length
  if sz = 0 then .error .abort
  else do
    let heapArr ← swapAt heapArr 0 (sz - 1)
    let newSz := sz - 1
    if newSz > 0 then pushDownHeap isBetterCmp D newSz heapArr 0 newSz else .ok heapArr

def pushHeap (isBetterCmp : α → α → Bool) (D : Nat) (heapArr : List α) : Except Fault (List α) :=
  let sz := heapArr.length
  if sz = 0 then .error .abort else pushUpHeap isBetterCmp D sz heapArr (sz - 1) sz

end ShortHeap
