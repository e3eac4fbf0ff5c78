import NeuralNetwork.Lib.Cpp
import NeuralNetwork.Lib.Loop
import NeuralNetwork.Lib.DaryTree

/-!
# The segment allocator

`SegmentAllocator` of `cuda_management/cuda_malloc/segment_allocator.h`: a complete tree of
out-degree `OutDegreeSize` over the leaves `[0, base_size)`, each node caching the longest free run
at the left end (`l`), at the right end (`r`) and anywhere (`c`) in its interval, with a packed
`trace` to the child the best run starts in. A call that would abort, throw or touch a node outside
the array is a `Fault`; the recursions, which end at the leaves, are bounded by a fuel.
-/

namespace CudaMalloc

open Cpp Loop DaryTree

/-- The template parameters: the out-degree, at least two (a `static_assert`), and the width of the
unsigned `NodeType`. -/
structure Params where
  outDegreeSize : Nat
  nodeBits : Nat
  two_le : 2 ≤ outDegreeSize

structure HeapNode where
  l : Nat
  r : Nat
  c : Nat
  trace : Nat
deriving DecidableEq, Repr

structure SegmentAllocator where
  heapNodeArr : Array HeapNode
  heapNodeArrSz : Nat
  treeHeight : Nat
deriving DecidableEq, Repr

variable (T : Params)

def nodeType (n : Nat) : Nat := n % 2 ^ T.nodeBits

def blockedTrace : Nat := 2 ^ T.nodeBits - 1

def readNode (arr : Array HeapNode) (idx : Nat) : Except Fault HeapNode :=
  match arr[idx]? with
  | some n => .ok n
  | none => .error .outOfBounds

def writeNode (arr : Array HeapNode) (idx : Nat) (n : HeapNode) : Except Fault (Array HeapNode) :=
  if idx < arr.size then .ok (arr.setIfInBounds idx n) else .error .outOfBounds

def makeTrace (offset : Nat) (isRightTrace : Bool) : Nat :=
  sizeT (offset <<< 1) ||| isRightTrace.toNat

def readTrace (trace : Nat) : Nat × Bool :=
  (trace >>> 1, trace &&& 1 != 0)

/-- The node of a wholly free interval of `n` leaves. -/
def freeNode (n : Nat) : HeapNode where
  l := nodeType T n
  r := nodeType T n
  c := nodeType T n
  trace := nodeType T (makeTrace 0 true)

def blockedNode : HeapNode where
  l := nodeType T 0
  r := nodeType T 0
  c := nodeType T 0
  trace := blockedTrace T

/-! ## Construction -/

def unsignedPow (base sz : Nat) : Nat :=
  if sz = 0 then 1
  else
    let halfPow := unsignedPow base (sz / 2)
    let fullPow := sizeT (halfPow * halfPow)
    if sz % 2 ≠ 0 then sizeT (fullPow * base) else fullPow
termination_by sz

def makeHeapNodeVecHelper (fuel : Nat) (arr : Array HeapNode) (idx first last : Nat) :
    Except Fault (Array HeapNode) :=
  match fuel with
  | 0 => .error .outOfFuel
  | fuel + 1 => do
    let arr ← writeNode arr idx (freeNode T (last - first))
    if first + 1 = last then .ok arr
    else
      let subsegmentSz := (last - first) / T.outDegreeSize
      forLoop (fun i arr =>
        let segmentFirst := first + subsegmentSz * i
        makeHeapNodeVecHelper fuel arr (child T.outDegreeSize idx i)
          segmentFirst (segmentFirst + subsegmentSz)) T.outDegreeSize arr

/-- The size of the node array: `(base_sz * D - 1) / (D - 1)` in `size_t`. -/
def fullSize (baseSz : Nat) : Nat :=
  sizeT (sizeT (baseSz * T.outDegreeSize) + (2 ^ 64 - 1)) / (T.outDegreeSize - 1)

def make (treeHeight : Nat) : Except Fault SegmentAllocator :=
  if treeHeight = 0 then .error (.invalidArgument "bad tree height, 0")
  else do
    let baseSz := unsignedPow T.outDegreeSize (treeHeight - 1)
    let fullSz := fullSize T baseSz
    let arr ← makeHeapNodeVecHelper T treeHeight (Array.replicate fullSz ⟨0, 0, 0, 0⟩) 0 0 baseSz
    .ok ⟨arr, fullSz, treeHeight⟩

def getBaseSize (s : SegmentAllocator) : Nat :=
  sizeT (sizeT (s.heapNodeArrSz * (T.outDegreeSize - 1)) + 1) / T.outDegreeSize

/-! ## Finding the best run -/

def seekOffset (fuel : Nat) (arr : Array HeapNode) (idx first last : Nat) : Except Fault Nat :=
  match fuel with
  | 0 => .error .outOfFuel
  | fuel + 1 =>
    if first + 1 = last then .ok first
    else do
      let node ← readNode arr idx
      if node.c = 0 then .error .abort
      else
        let subsegmentSz := (last - first) / T.outDegreeSize
        let (relChildIdx, isRightTrace) := readTrace node.trace
        let childIdx := child T.outDegreeSize idx relChildIdx
        let nextFirst := first + subsegmentSz * relChildIdx
        let nextLast := nextFirst + subsegmentSz
        if isRightTrace then do
          let node ← readNode arr childIdx
          .ok (nextLast - node.r)
        else seekOffset fuel arr childIdx nextFirst nextLast

def seekBlock (s : SegmentAllocator) : Except Fault (Option (Nat × Nat)) :=
  if s.heapNodeArrSz = 0 then .error .abort
  else do
    let root ← readNode s.heapNodeArr 0
    if root.c = 0 then .ok none
    else do
      let offset ← seekOffset T s.treeHeight s.heapNodeArr 0 0 (getBaseSize T s)
      .ok (some (offset, root.c))

/-! ## Rebinding a node to its children -/

/-- The loops over `l` from the first child and over `r` from the last: they add up the children's
end runs up to the first child that is not wholly free. -/
def edgeSize (arr : Array HeapNode) (childIdx : Nat → Nat) (field : HeapNode → Nat)
    (subintervalSz : Nat) : Except Fault Nat :=
  forBreak (fun i sum => do
    let node ← readNode arr (childIdx i)
    let newSz := field node
    if newSz ≠ subintervalSz then .ok (.done (sum + newSz)) else .ok (.yield (sum + newSz)))
    T.outDegreeSize 0

/-- The best run inside one child, and the first child that has it. -/
structure OtherBest where
  sum : Nat
  first : Nat

def otherBest (arr : Array HeapNode) (idx : Nat) : Except Fault OtherBest :=
  forLoop (fun i b => do
    let node ← readNode arr (child T.outDegreeSize idx i)
    if b.sum < node.c then .ok ⟨node.c, i⟩ else .ok b) T.outDegreeSize ⟨0, 0⟩

/-- The state of the loop over the runs that cross children. -/
structure CrossRun where
  cFirst : Nat
  cSum : Nat
  cBestSum : Nat
  cBestFirst : Nat

/-- `if (c_best_sum < c_sum)`: take the current run as the best one. -/
def CrossRun.takeBest (x : CrossRun) : CrossRun :=
  if x.cBestSum < x.cSum then { x with cBestSum := x.cSum, cBestFirst := x.cFirst } else x

def crossRun (arr : Array HeapNode) (idx subintervalSz : Nat) : Except Fault CrossRun :=
  forLoop (fun i x => do
    let node ← readNode arr (child T.outDegreeSize idx i)
    let x := { x with cSum := x.cSum + node.l }
    if node.l ≠ subintervalSz then
      let x := x.takeBest
      .ok { x with cFirst := i + (decide (node.r = 0)).toNat, cSum := node.r }
    else .ok x) T.outDegreeSize ⟨0, 0, 0, 0⟩

def rebindHeapNode (arr : Array HeapNode) (idx intervalFirst intervalLast : Nat) :
    Except Fault (Array HeapNode) :=
  if intervalFirst + 1 ≥ intervalLast then .error .abort
  else do
    let subintervalSz := (intervalLast - intervalFirst) / T.outDegreeSize
    let leftSz ← edgeSize T arr (fun i => child T.outDegreeSize idx i) HeapNode.l subintervalSz
    let rightSz ← edgeSize T arr (fun i => child T.outDegreeSize idx (T.outDegreeSize - i - 1))
      HeapNode.r subintervalSz
    let other ← otherBest T arr idx
    let x ← crossRun T arr idx subintervalSz
    let x := x.takeBest
    let (cBestSum, cBestFirst, isRightTrace) :=
      if x.cBestSum ≤ other.sum then (other.sum, other.first, false)
      else (x.cBestSum, x.cBestFirst, true)
    writeNode arr idx
      { l := nodeType T leftSz
        r := nodeType T rightSz
        c := nodeType T cBestSum
        trace := nodeType T (makeTrace cBestFirst isRightTrace) }

/-! ## Blocking and unblocking an interval -/

/-- The common part of two intervals given as `(first, size)`. -/
def intersect (lhs rhs : Nat × Nat) : Nat × Nat :=
  let first := max lhs.1 rhs.1
  let tentativeLast := min (lhs.1 + lhs.2) (rhs.1 + rhs.2)
  let last := max first tentativeLast
  (first, last - first)

/-- One round of the loop over the children: `recurse` into a child that the interval meets. -/
def markChild
    (recurse : Array HeapNode → Nat → Nat → Nat → Nat → Nat → Except Fault (Array HeapNode))
    (idx markFirst markLast intervalFirst subsegmentSz i : Nat) (arr : Array HeapNode) :
    Except Fault (Array HeapNode) :=
  let nxtFirst := intervalFirst + subsegmentSz * i
  let nxtLast := nxtFirst + subsegmentSz
  let (first, sz) := intersect (markFirst, markLast - markFirst) (nxtFirst, subsegmentSz)
  if sz ≠ 0 then recurse arr (child T.outDegreeSize idx i) first (first + sz) nxtFirst nxtLast
  else .ok arr

/-- The recursion of `block_interval_helper` and `unblock_interval_helper`: an exactly covered node
is overwritten with `mark` of its size and its children are left as they are; every other node is
rebound after its children. -/
def markIntervalHelper (mark : Nat → HeapNode) (fuel : Nat) (arr : Array HeapNode)
    (idx markFirst markLast intervalFirst intervalLast : Nat) : Except Fault (Array HeapNode) :=
  match fuel with
  | 0 => .error .outOfFuel
  | fuel + 1 =>
    if markFirst = intervalFirst ∧ markLast = intervalLast then
      writeNode arr idx (mark (intervalLast - intervalFirst))
    else do
      let subsegmentSz := (intervalLast - intervalFirst) / T.outDegreeSize
      let arr ← forLoop (markChild T (markIntervalHelper mark fuel) idx markFirst markLast
        intervalFirst subsegmentSz) T.outDegreeSize arr
      rebindHeapNode T arr idx intervalFirst intervalLast

def markInterval (mark : Nat → HeapNode) (s : SegmentAllocator) (interval : Nat × Nat) :
    Except Fault SegmentAllocator :=
  let first := interval.1
  let last := interval.1 + interval.2
  let treeLast := getBaseSize T s
  if first ≥ last then .error (.invalidArgument "bad interval, <= 0")
  else if last > treeLast then .error (.invalidArgument "bad interval, out of bound")
  else do
    let arr ← markIntervalHelper T mark s.treeHeight s.heapNodeArr 0 first last 0 treeLast
    .ok { s with heapNodeArr := arr }

def blockInterval (s : SegmentAllocator) (interval : Nat × Nat) : Except Fault SegmentAllocator :=
  markInterval T (fun _ => blockedNode T) s interval

def unblockInterval (s : SegmentAllocator) (interval : Nat × Nat) : Except Fault SegmentAllocator :=
  markInterval T (freeNode T) s interval

/-! ## The two operations -/

def malloc (s : SegmentAllocator) (sz : Nat) :
    Except Fault (Option (Nat × Nat) × SegmentAllocator) := do
  let blk ← seekBlock T s
  if sz = 0 then .ok (none, s)
  else
    match blk with
    | none => .ok (none, s)
    | some (first, blkSz) =>
      if sz > blkSz then .ok (none, s)
      else do
        let s ← blockInterval T s (first, sz)
        .ok (some (first, sz), s)

def free (s : SegmentAllocator) (interval : Nat × Nat) : Except Fault SegmentAllocator :=
  unblockInterval T s interval

end CudaMalloc
