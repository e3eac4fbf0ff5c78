import NeuralNetwork.AllocationBase.GlobalAllocator
import NeuralNetwork.Lib.Run

/-!
# BinaryUnitAllocator with its reservations

The unit of `allocation_base/global_allocator.h` and its batches (`BatchBinaryUnitAllocator`), with what
`GlobalAllocator` leaves out of them: the counters, the capacities of the vectors, and what is undone when
a container has no memory. A call of a unit by itself is a batch of one.
-/

namespace AllocationBase.Reservation

open Cpp Region HashTable

/-! ## Vectors of pointers -/

structure PtrVector where
  elems : List Ptr
  capacity : Nat

namespace PtrVector

def empty : PtrVector := ⟨[], 0⟩

/-- `reserve`, where a new buffer has `more` places than asked for, or is not to be had; `none` if it
throws. -/
def reserve (more : Option Nat) (sz : Nat) (v : PtrVector) : Option PtrVector :=
  if sz ≤ v.capacity then some v else more.map fun more => { v with capacity := sz + more }

/-- `push_back` in a `noexcept` function, which ends the program if it throws. -/
def pushBack (more : Option Nat) (p : Ptr) (v : PtrVector) : Except Fault PtrVector :=
  if v.elems.length < v.capacity then .ok { v with elems := v.elems ++ [p] }
  else
    match more with
    | none => .error .abort
    | some more => .ok ⟨v.elems ++ [p], v.capacity + 1 + more⟩

def popBack (v : PtrVector) : PtrVector := { v with elems := v.elems.dropLast }

end PtrVector

/-! ## BinaryUnitAllocator -/

structure BinaryUnitAllocator where
  unitCounter : List (Nat × Nat)
  unitMap : List (Nat × PtrVector)
  raiiBufVec : List Nat

/-- Which of its requests for memory `enqueue_new_buffer_of_bucket_idx` is granted. -/
structure Answers where
  stdMalloc : Bool
  sharedPtr : Bool
  raiiBufVec : Bool
  unitMap : Bool
  unitCounter : Bool
  reserve : Option Nat

namespace BinaryUnitAllocator

open GlobalAllocator.BinaryUnitAllocator (minPow2Value toOriginalBuffer)

def make : BinaryUnitAllocator := ⟨[], [], []⟩

variable (bucketIdx : Nat) (a : BinaryUnitAllocator)

def units : PtrVector := (a.unitMap.lookup bucketIdx).getD .empty

def counter : Nat := (a.unitCounter.lookup bucketIdx).getD 0

def setUnits (v : PtrVector) : BinaryUnitAllocator :=
  { a with unitMap := alter (fun _ => v) bucketIdx a.unitMap }

def setCounter (n : Nat) : BinaryUnitAllocator :=
  { a with unitCounter := alter (fun _ => n) bucketIdx a.unitCounter }

def insertUnits : BinaryUnitAllocator :=
  { a with unitMap := alter (fun v => v.getD .empty) bucketIdx a.unitMap }

def insertCounter : BinaryUnitAllocator :=
  { a with unitCounter := alter (fun n => n.getD 0) bucketIdx a.unitCounter }

/-- The insertion is undone, if it was one. -/
def eraseUnits (status : Bool) : BinaryUnitAllocator :=
  if status then { a with unitMap := erase bucketIdx a.unitMap } else a

def eraseCounter (unitStatus : Bool) : BinaryUnitAllocator :=
  if unitStatus then { a with unitCounter := erase bucketIdx a.unitCounter } else a

def pushBuf (buf : Ptr) : BinaryUnitAllocator := { a with raiiBufVec := a.raiiBufVec ++ [buf.block] }

def popBuf : BinaryUnitAllocator := { a with raiiBufVec := a.raiiBufVec.dropLast }

/-- `enqueue_new_buffer_of_bucket_idx`; `none` if it throws. -/
def enqueueNewBufferOfBucketIdx (ans : Answers) (m : Memory) :
    Except Fault (Option Ptr × BinaryUnitAllocator × Memory) := do
  let actualSz ← Stdx.shiftOne bucketIdx
  if ans.stdMalloc = false then .ok (none, a, m)
  else
    let (buf, m) := m.allocate actualSz
    if ans.sharedPtr = false then .ok (none, a, m.release buf)
    else do
      let m ← m.store buf (LittleEndian.bytes 1 bucketIdx)
      if ans.raiiBufVec = false then .ok (none, a, m.release buf)
      else
        let a := a.pushBuf buf
        if ans.unitMap = false then .ok (none, a.popBuf, m.release buf)
        else
          let status := (a.unitMap.lookup bucketIdx).isNone
          let a := a.insertUnits bucketIdx
          if ans.unitCounter = false then
            .ok (none, (a.eraseUnits bucketIdx status).popBuf, m.release buf)
          else
            let unitStatus := (a.unitCounter.lookup bucketIdx).isNone
            let a := a.insertCounter bucketIdx
            let newSz := sizeT (a.counter bucketIdx + 1)
            do
            let reservationSz ← Stdx.ceil2 newSz
            match (a.units bucketIdx).reserve ans.reserve reservationSz with
            | none =>
              .ok (none, ((a.eraseCounter bucketIdx unitStatus).eraseUnits bucketIdx status).popBuf,
                m.release buf)
            | some v =>
              .ok (some (buf.next 1), (a.setUnits bucketIdx v).setCounter bucketIdx newSz, m)

def bucketIdxOf (sz : Nat) : Except Fault Nat := do
  let fullSz ← Stdx.ceil2 (sizeT (sz + 1))
  .ok (max (Stdx.ulog2 fullSz) minPow2Value)

/-- `malloc`; the outer `none` if it throws. -/
def malloc (ans : Answers) (sz : Nat) (m : Memory) :
    Except Fault (Option (Option Ptr) × BinaryUnitAllocator × Memory) :=
  if sz = 0 then .ok (some none, a, m)
  else do
    let bucketIdx ← bucketIdxOf sz
    match (a.units bucketIdx).elems.getLast? with
    | none => do
      let (buf, a, m) ← a.enqueueNewBufferOfBucketIdx bucketIdx ans m
      .ok (buf.map some, a, m)
    | some result => .ok (some (some result), a.setUnits bucketIdx (a.units bucketIdx).popBack, m)

/-- `free`, where `more` answers a reallocation. -/
def free (more : Option Nat) (buf : Option Ptr) (m : Memory) : Except Fault BinaryUnitAllocator :=
  match buf with
  | none => .ok a
  | some buf => do
    let (_, bucketIdx) ← toOriginalBuffer buf m
    match a.unitMap.lookup bucketIdx with
    | none => .error .abort
    | some v => do
      let v ← v.pushBack more buf
      .ok (a.setUnits bucketIdx v)

/-! ### BatchBinaryUnitAllocator -/

def freeBatch (more : Option Nat) (bufs : List (Option Ptr)) (m : Memory) :
    Except Fault BinaryUnitAllocator :=
  bufs.foldlM (fun a buf => a.free more buf m) a

/-- `malloc` of the sizes, after `fulfilled`; `none` if it throws, and then it has freed those. -/
def mallocBatch (more : Option Nat) : List (Nat × Answers) → List (Option Ptr) → BinaryUnitAllocator →
    Memory → Except Fault (Option (List (Option Ptr)) × BinaryUnitAllocator × Memory)
  | [], fulfilled, a, m => .ok (some fulfilled, a, m)
  | (sz, ans) :: requests, fulfilled, a, m => do
    let (r, a, m) ← a.malloc ans sz m
    match r with
    | some buf => mallocBatch more requests (fulfilled ++ [buf]) a m
    | none => do
      let a ← a.freeBatch more fulfilled m
      .ok (none, a, m)

end BinaryUnitAllocator

/-! ## The callers -/

/-- The unit, and the blocks that its callers have. -/
structure World where
  allocator : BinaryUnitAllocator
  memory : Memory
  outstanding : List Block

/-- A call, with the answers to its requests for memory, or a write to a block. -/
inductive Event where
  | malloc (requests : List (Nat × Answers)) (more : Option Nat)
  | free (bufs : List (Option Ptr)) (more : Option Nat)
  | write (p : Ptr) (bytes : List Byte)

/-- What the callers have once `bufs` are given back; `none` if one is not theirs. -/
def giveBack : List (Option Ptr) → List Block → Option (List Block)
  | [], live => some live
  | none :: bufs, live => giveBack bufs live
  | some p :: bufs, live =>
    match live.find? (·.ptr = p) with
    | none => none
    | some b => giveBack bufs (live.erase b)

/-- The blocks of the requests that returned a pointer. -/
def blocksOf (sizes : List Nat) (bufs : List (Option Ptr)) : List Block :=
  (sizes.zip bufs).filterMap fun (sz, buf) => buf.map fun p => ⟨p, sz⟩

/-- One call; `none` if the callers may not make it. -/
def World.step (w : World) : Event → Except Fault (Option World)
  | .malloc requests more => do
    let (r, allocator, memory) ← BinaryUnitAllocator.mallocBatch more requests [] w.allocator w.memory
    let blocks := blocksOf (requests.map Prod.fst) (r.getD [])
    .ok (some ⟨allocator, memory, blocks ++ w.outstanding⟩)
  | .free bufs more =>
    match giveBack bufs w.outstanding with
    | none => .ok none
    | some outstanding => do
      let allocator ← w.allocator.freeBatch more bufs w.memory
      .ok (some ⟨allocator, w.memory, outstanding⟩)
  | .write p bytes =>
    match w.outstanding.find? (Block.Within p bytes.length ·) with
    | none => .ok none
    | some _ => do
      let memory ← w.memory.store p bytes
      .ok (some { w with memory })

def Step (w : World) (e : Event) (w' : World) : Prop := w.step e = .ok (some w')

/-- A new unit, which nobody has called, in any memory. -/
def Fresh (w : World) : Prop := w.allocator = .make ∧ w.outstanding = []

end AllocationBase.Reservation
