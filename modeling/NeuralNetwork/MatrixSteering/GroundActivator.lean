import NeuralNetwork.Lib.Cpp
import NeuralNetwork.Lib.Loop

/-!
# GroundTree

The tree of `matrix_steering_subsystem/ground_activator.h`. An interval is registered with a ground, a
segment of its own; a query gives the grounds of the intervals that it meets. The tree is an array: the
node `idx` has the children `idx * 2 + 1` and `idx * 2 + 2`, each for one half of its interval. A
segment is its first point and its size.
-/

namespace GroundActivator

open Cpp Loop

abbrev Segment := Nat × Nat

structure TreeNode where
  groundSegmentSet : Option (List Segment)
  totalSegmentSet : Option (List Segment)

structure GroundTree where
  intervalTree : List TreeNode
  sz : Nat

/-! ## Sizes -/

/-- The first power of two that is not less. -/
def ceil2 (sz : Nat) : Except Fault Nat :=
  match (List.range 64).find? fun i => decide (2 ^ i ≥ sz) with
  | some i => .ok (2 ^ i)
  | none => .error (.invalidArgument "bad ceil2 size, upper numeric limits reached")

def baseSizeToTreeSize (baseSz : Nat) : Nat := subT (sizeT (baseSz * 2)) 1

def treeSizeToBaseSize (treeSz : Nat) : Nat := sizeT (treeSz + 1) / 2

/-- `max_size()` of a vector of nodes of 64 bytes. -/
def maxTreeSize : Nat := (2 ^ 63 - 1) / 64

/-! ## Joining segments -/

/-- Not `less(rhs, lhs)`. -/
def segmentLe (lhs rhs : Segment) : Bool := lhs.1 < rhs.1 ∨ lhs.1 = rhs.1 ∧ lhs.2 ≤ rhs.2

/-- One round of the loop, on `result_vec` and `aggregated_interval`. -/
def joinNext (s : List Segment × Option Segment) (nxt : Segment) : List Segment × Option Segment :=
  match s with
  | (resultVec, none) => (resultVec, some nxt)
  | (resultVec, some aggregated) =>
    let nowLast := sizeT (aggregated.1 + aggregated.2)
    let nxtFirst := nxt.1
    let nxtLast := sizeT (nxt.1 + nxt.2)
    if nowLast ≥ nxtFirst then
      if nxtLast > nowLast then (resultVec, some (aggregated.1, subT nxtLast aggregated.1))
      else (resultVec, some aggregated)
    else (resultVec ++ [aggregated], some nxt)

def intervalSortAndAdjecentJoin (argVec : List Segment) : List Segment :=
  let (resultVec, aggregated) := (argVec.mergeSort segmentLe).foldl joinNext ([], none)
  resultVec ++ aggregated.toList

/-! ## The recursion over the tree -/

def treeNodeAddItem (node : TreeNode) (item : Segment) : TreeNode :=
  { node with groundSegmentSet := some (node.groundSegmentSet.getD [] ++ [item]) }

def treeNodeAddTotal (node : TreeNode) (item : Segment) : TreeNode :=
  { node with totalSegmentSet := some (node.totalSegmentSet.getD [] ++ [item]) }

def treeAddGroundHelper : Nat → List TreeNode → (idx nodeFirst nodeLast keyFirst keyLast : Nat) →
    Segment → Except Fault (List TreeNode)
  | 0, _, _, _, _, _, _, _ => .error .outOfFuel
  | fuel + 1, treeArr, idx, nodeFirst, nodeLast, keyFirst, keyLast, item =>
    match treeArr[idx]? with
    | none => .error .outOfBounds
    | some node =>
      let node := treeNodeAddTotal node item
      if nodeFirst = keyFirst ∧ nodeLast = keyLast then .ok (treeArr.set idx (treeNodeAddItem node item))
      else
        let treeArr := treeArr.set idx node
        let intervalSz := nodeLast - nodeFirst
        let nodeNextFirst := nodeFirst + intervalSz / 2
        if keyLast ≤ nodeNextFirst then
          treeAddGroundHelper fuel treeArr (idx * 2 + 1) nodeFirst nodeNextFirst keyFirst keyLast item
        else if keyFirst ≥ nodeNextFirst then
          treeAddGroundHelper fuel treeArr (idx * 2 + 2) nodeNextFirst nodeLast keyFirst keyLast item
        else do
          let treeArr ← treeAddGroundHelper fuel treeArr (idx * 2 + 1) nodeFirst nodeNextFirst keyFirst
            nodeNextFirst item
          treeAddGroundHelper fuel treeArr (idx * 2 + 2) nodeNextFirst nodeLast nodeNextFirst keyLast item

def treeGetGroundUnsortedHelper (treeArr : List TreeNode) :
    Nat → (idx nodeFirst nodeLast keyFirst keyLast : Nat) → List Segment → Except Fault (List Segment)
  | 0, _, _, _, _, _, _ => .error .outOfFuel
  | fuel + 1, idx, nodeFirst, nodeLast, keyFirst, keyLast, result =>
    match treeArr[idx]? with
    | none => .error .outOfBounds
    | some node =>
      let result := result ++ node.groundSegmentSet.getD []
      if nodeFirst = keyFirst ∧ nodeLast = keyLast then .ok (result ++ node.totalSegmentSet.getD [])
      else
        let intervalSz := nodeLast - nodeFirst
        let nodeNextFirst := nodeFirst + intervalSz / 2
        if keyLast ≤ nodeNextFirst then
          treeGetGroundUnsortedHelper treeArr fuel (idx * 2 + 1) nodeFirst nodeNextFirst keyFirst keyLast
            result
        else if keyFirst ≥ nodeNextFirst then
          treeGetGroundUnsortedHelper treeArr fuel (idx * 2 + 2) nodeNextFirst nodeLast keyFirst keyLast
            result
        else do
          let result ← treeGetGroundUnsortedHelper treeArr fuel (idx * 2 + 1) nodeFirst nodeNextFirst
            keyFirst nodeNextFirst result
          treeGetGroundUnsortedHelper treeArr fuel (idx * 2 + 2) nodeNextFirst nodeLast nodeNextFirst
            keyLast result

def treeOptimizeHelper : Nat → List TreeNode → (idx first last : Nat) → Except Fault (List TreeNode)
  | 0, _, _, _, _ => .error .outOfFuel
  | fuel + 1, treeArr, idx, first, last =>
    match treeArr[idx]? with
    | none => .error .outOfBounds
    | some node =>
      let treeArr := treeArr.set idx
        { groundSegmentSet := node.groundSegmentSet.map intervalSortAndAdjecentJoin
          totalSegmentSet := node.totalSegmentSet.map intervalSortAndAdjecentJoin }
      if first + 1 = last then .ok treeArr
      else do
        let intervalSz := last - first
        let nextFirst := first + intervalSz / 2
        let treeArr ← treeOptimizeHelper fuel treeArr (idx * 2 + 1) first nextFirst
        treeOptimizeHelper fuel treeArr (idx * 2 + 2) nextFirst last

/-- A recursion from an interval of `baseSz` points goes no deeper. -/
def depth (baseSz : Nat) : Nat := Nat.log2 baseSz + 1

/-- What `tree_get_ground` and `tree_add_ground` check first; a size of zero is a `std::runtime_error`
("internal corruption"). -/
def checkInterval (baseSz intervalFirst intervalLast : Nat) : Except Fault Unit :=
  if baseSz = 0 then .error .abort
  else if intervalFirst ≥ intervalLast then
    .error (.invalidArgument "bad interval, interval size is 0 or negative")
  else if intervalLast > baseSz then .error (.invalidArgument "bad interval, out of bound access")
  else .ok ()

/-- The joined segments are not what is returned. -/
def treeGetGround (treeArr : List TreeNode) (baseSz intervalFirst intervalLast : Nat) :
    Except Fault (List Segment) := do
  checkInterval baseSz intervalFirst intervalLast
  treeGetGroundUnsortedHelper treeArr (depth baseSz) 0 0 baseSz intervalFirst intervalLast []

def treeAddGround (treeArr : List TreeNode) (baseSz intervalFirst intervalLast : Nat)
    (ground : Segment) : Except Fault (List TreeNode) := do
  checkInterval baseSz intervalFirst intervalLast
  if ground.2 = 0 then .ok treeArr
  else treeAddGroundHelper (depth baseSz) treeArr 0 0 baseSz intervalFirst intervalLast ground

def treeOptimize (treeArr : List TreeNode) (baseSz : Nat) : Except Fault (List TreeNode) :=
  if baseSz = 0 then .error .abort else treeOptimizeHelper (depth baseSz) treeArr 0 0 baseSz

/-! ## GroundTree -/

namespace GroundTree

def make (range : Nat) : Except Fault GroundTree := do
  let ceil2Range ← ceil2 range
  let treeSz := baseSizeToTreeSize ceil2Range
  if treeSz > maxTreeSize then .error (.lengthError "cannot create std::vector larger than max_size()")
  else .ok { intervalTree := List.replicate treeSz ⟨none, none⟩, sz := range }

variable (t : GroundTree)

def baseSize : Nat := treeSizeToBaseSize t.intervalTree.length

def getGround (interval : Segment) : Except Fault (List Segment) :=
  let first := interval.1
  let last := sizeT (interval.1 + interval.2)
  if last > t.sz then .error (.invalidArgument "out of bound access")
  else if first = last then .ok []
  else treeGetGround t.intervalTree t.baseSize first last

def addGround (interval ground : Segment) : Except Fault GroundTree :=
  let first := interval.1
  let last := sizeT (interval.1 + interval.2)
  if last > t.sz then .error (.invalidArgument "out of bound access")
  else if first = last then .ok t
  else do
    let treeArr ← treeAddGround t.intervalTree t.baseSize first last ground
    .ok { t with intervalTree := treeArr }

def optimize : Except Fault GroundTree := do
  let treeArr ← treeOptimize t.intervalTree t.baseSize
  .ok { t with intervalTree := treeArr }

/-! ## Runs -/

inductive Op where
  | addGround (interval ground : Segment)
  | optimize
  | getGround (interval : Segment)
deriving DecidableEq, Repr

/-- Both numbers of a pair are 64 bits wide. -/
def IsPair (s : Segment) : Prop := s.1 < 2 ^ 64 ∧ s.2 < 2 ^ 64

/-- The call takes 64-bit pairs and, as a ground, one whose end is representable. -/
def Op.Valid : Op → Prop
  | .addGround interval ground => IsPair interval ∧ ground.1 + ground.2 < 2 ^ 64
  | .optimize => True
  | .getGround interval => IsPair interval

def apply : Op → Except Fault GroundTree
  | .addGround interval ground => t.addGround interval ground
  | .optimize => t.optimize
  | .getGround interval => (fun _ => t) <$> t.getGround interval

/-- One call that returns, or throws before it changed anything. -/
def Step (t : GroundTree) (op : Op) (t' : GroundTree) : Prop :=
  op.Valid ∧ (t.apply op = .ok t' ∨ t' = t ∧ ∃ what, t.apply op = .error (.invalidArgument what))

/-! ## What the tree is for -/

def Segment.Has (s : Segment) (x : Nat) : Prop := s.1 ≤ x ∧ x < s.1 + s.2

def Segment.Inside (range : Nat) (s : Segment) : Prop := s.1 + s.2 ≤ range

instance (range : Nat) (s : Segment) : Decidable (Segment.Inside range s) :=
  inferInstanceAs (Decidable (_ ≤ _))

/-- The intervals registered by some calls, with their grounds. -/
def registered (range : Nat) : List Op → List (Segment × Segment) :=
  List.filterMap fun
    | .addGround interval ground => if Segment.Inside range interval then some (interval, ground) else none
    | _ => none

end GroundTree

end GroundActivator
