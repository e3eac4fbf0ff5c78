import NeuralNetwork.Lib.Allocator
import NeuralNetwork.Lib.Command
import NeuralNetwork.Lib.HashTable
import NeuralNetwork.Lib.LittleEndian

/-!
# ConventionalAllocator

The scoped allocators of `src/memory_management/conventional_allocator.h` over a `StdAllocator`. A call is
given what the environment does in it (`Answers`). The cache of an `ExactReuseAllocator` keeps its vectors in
the arena; what a vector writes into its storage is left open. `State.next` is the use of such an allocator by
a caller that closes the scopes it opened and gives back and writes to blocks that it has.
-/

namespace ConventionalAllocator

open Cpp Region Command

inductive Thrown where
  | badAlloc
  | lengthError
  | runtimeError (what : String)
deriving DecidableEq, Repr

/-- What the environment does in a call. -/
structure Answers where
  /-- `new char[sz]` succeeds when there are so many regions. -/
  granted : Nat → Bool
  /-- There is room for one more piece, or saved point, or size. -/
  pieceRoom : Bool
  savedRoom : Bool
  entryRoom : Bool
  /-- The capacity that a full vector grows to, if it is enough. -/
  growth : Nat
  /-- What a vector writes into its storage. -/
  storage : List Byte

structure World (α : Type) where
  obj : α
  mem : Memory

abbrev Call (α β : Type) : Type := Command (World α) Fault Thrown β

variable {α : Type} (answers : Answers)

/-- An exception does not leave a `noexcept` function. -/
def noexcept (m : Call α Unit) : Call α Unit := tryCatch m fun _ => wrong .abort

/-! ## StdAllocator -/

/-- No array is larger than `PTRDIFF_MAX`. -/
def StdAllocator.malloc (sz : Nat) : Call α (Option Ptr) := do
  if sz = 0 then
    return none
  let w ← getState
  if 2 ^ 63 ≤ sz ∨ ¬ answers.granted w.mem.sizes.length then
    throw .badAlloc
  setState { w with mem := (w.mem.allocate sz).2 }
  return some (w.mem.allocate sz).1

def StdAllocator.free : Option Ptr → Call α Unit
  | none => pure ()
  | some buf => do
    let w ← getState
    setState { w with mem := w.mem.release buf }

/-! ## ScopeAllocator -/

structure MemoryPiece where
  buf : Option Ptr
  bufSz : Nat
deriving DecidableEq, Repr

structure SavedPoint where
  mempieceIdx : Nat
  mempieceOffset : Nat
deriving DecidableEq, Repr

structure ScopeAllocator where
  mempieceVec : List MemoryPiece
  savedPointVec : List (Option SavedPoint)
  baseAllocationSz : Nat
  currentPoint : Option SavedPoint

namespace ScopeAllocator

def make (baseAllocationSz : Nat) : Except Fault ScopeAllocator :=
  if baseAllocationSz = 0 then .error (.invalidArgument "bad base allocation size, 0")
  else .ok ⟨[], [], baseAllocationSz, none⟩

def getPow2 (idx : Nat) : Except Fault Nat := if idx < 64 then .ok (2 ^ idx) else .error .undefined

def getMempieceBufferCapacityAt (a : ScopeAllocator) (idx : Nat) : Except Fault Nat := do
  let pow ← getPow2 idx
  .ok (sizeT (pow * a.baseAllocationSz))

def pushMempiece (piece : MemoryPiece) : Call ScopeAllocator Unit := do
  if ¬ answers.pieceRoom then
    throw .badAlloc
  let w ← getState
  setState { w with obj := { w.obj with mempieceVec := w.obj.mempieceVec ++ [piece] } }

/-- One round of the loop of `reserve_mempiece_vec_for`. -/
def reserveOne (i : Nat) : Call ScopeAllocator Unit := do
  let w ← getState
  let offset := w.obj.mempieceVec.length + i
  let bufSz ← lift (w.obj.getMempieceBufferCapacityAt offset)
  let buf ← StdAllocator.malloc answers bufSz
  tryCatch (pushMempiece answers ⟨buf, bufSz⟩) fun e => do
    StdAllocator.free buf
    throw e

def reserveMempieceVecFor (sz : Nat) : Call ScopeAllocator Unit := do
  let w ← getState
  let desiredSz := max sz w.obj.mempieceVec.length
  let diffSz := desiredSz - w.obj.mempieceVec.length
  (List.range diffSz).foldlM (fun _ i => reserveOne answers i) ()

def mallocLoop (sz : Nat) : Nat → SavedPoint → Call ScopeAllocator (Option Ptr)
  | 0, _ => wrong .outOfFuel
  | fuel + 1, validPoint => do
    let w ← getState
    match w.obj.mempieceVec[validPoint.mempieceIdx]? with
    | none => wrong .outOfBounds
    | some piece =>
      if sz ≤ subT piece.bufSz validPoint.mempieceOffset then do
        setState { w with obj := { w.obj with
          currentPoint := some ⟨validPoint.mempieceIdx, validPoint.mempieceOffset + sz⟩ } }
        return piece.buf.map (·.next validPoint.mempieceOffset)
      else do
        reserveMempieceVecFor answers (validPoint.mempieceIdx + 2)
        mallocLoop sz fuel ⟨validPoint.mempieceIdx + 1, 0⟩

/-- There are fewer than 64 pieces, as each is twice as large as the one before. -/
def malloc (sz : Nat) : Call ScopeAllocator (Option Ptr) := do
  let w ← getState
  if w.obj.savedPointVec.isEmpty then
    throw (.runtimeError "base 0 stack_idx")
  match w.obj.currentPoint with
  | none => wrong .abort
  | some validPoint => mallocLoop answers sz 64 validPoint

def free (_buf : Option Ptr) : Call α Unit := pure ()

def saveCurrentPoint : Call ScopeAllocator Unit := do
  if ¬ answers.savedRoom then
    throw .badAlloc
  let w ← getState
  setState { w with obj := { w.obj with savedPointVec := w.obj.savedPointVec ++ [w.obj.currentPoint] } }

def inScope : Call ScopeAllocator Unit := do
  let w ← getState
  if w.obj.currentPoint.isNone then
    reserveMempieceVecFor answers 1
    saveCurrentPoint answers
    let w ← getState
    setState { w with obj := { w.obj with currentPoint := some ⟨0, 0⟩ } }
  else
    saveCurrentPoint answers

def outScope : Call ScopeAllocator Unit := do
  let w ← getState
  match w.obj.savedPointVec.getLast? with
  | none => wrong .abort
  | some savedPoint =>
    setState { w with obj := { w.obj with
      savedPointVec := w.obj.savedPointVec.dropLast, currentPoint := savedPoint } }

end ScopeAllocator

/-! ## Vectors of pointers in the arena -/

/-- A `transparent_vector<char *>` whose storage is from the scope allocator. -/
structure PointerVec where
  storage : Option Block
  capacity : Nat
  elems : List Ptr
deriving DecidableEq, Repr

namespace PointerVec

def maxSize : Nat := (2 ^ 63 - 1) / 8

/-- `object_malloc<char *>`: the size of the elements, of the distance to them and of the room to align
them. -/
def objectMalloc (objectCount : Nat) : Call ScopeAllocator (Option Block) := do
  if objectCount = 0 then
    return none
  let sz := sizeT (objectCount * 8)
  let totalSz := sizeT (sz + 2)
  let alignedTotalSz := sizeT (totalSz + 7)
  let buf ← ScopeAllocator.malloc answers alignedTotalSz
  match buf with
  | none => wrong .undefined
  | some buf => return some ⟨buf, alignedTotalSz⟩

/-- The elements move to a larger storage. The old one goes to `ScopeAllocator::free`, which does nothing. -/
def grow (vec : PointerVec) : Call ScopeAllocator PointerVec := do
  if vec.elems.length = maxSize then
    throw .lengthError
  let capacity := min (max (vec.elems.length + 1) answers.growth) maxSize
  let storage ← objectMalloc answers capacity
  return { vec with storage := storage, capacity := capacity }

def writeStorage (vec : PointerVec) : Call ScopeAllocator Unit := do
  match vec.storage with
  | none => wrong .outOfBounds
  | some storage =>
    let w ← getState
    let m ← lift (w.mem.store storage.ptr (answers.storage.take storage.size))
    setState { w with mem := m }

def pushBack (vec : PointerVec) (buf : Ptr) : Call ScopeAllocator PointerVec := do
  let vec ← (if vec.elems.length < vec.capacity then pure vec else grow answers vec)
  writeStorage answers vec
  return { vec with elems := vec.elems ++ [buf] }

end PointerVec

/-! ## ExactReuseAllocator -/

structure ExactReuseAllocator where
  reuseMap : List (Nat × PointerVec)
  reuseMapGlobalCap : Nat
  reuseMapElementalCap : Nat
  reuseMapElementalSz : Nat

structure ScopeExactReuseAllocator where
  scopeAllocator : ScopeAllocator
  reuseAllocator : ExactReuseAllocator

def scopeCall {β : Type} (m : Call ScopeAllocator β) : Call ScopeExactReuseAllocator β :=
  zoom (fun w => ⟨w.obj.scopeAllocator, w.mem⟩)
    (fun t w => ⟨{ w.obj with scopeAllocator := t.obj }, t.mem⟩) m

namespace ExactReuseAllocator

def make (reuseMapGlobalCap reuseMapElementalCap : Nat) : Except Fault ExactReuseAllocator :=
  if reuseMapGlobalCap = 0 then .error (.invalidArgument "bad reuse map global cap, 0")
  else if reuseMapElementalCap = 0 then .error (.invalidArgument "bad reuse map elemental cap, 0")
  else .ok ⟨[], reuseMapGlobalCap, reuseMapElementalCap, 0⟩

def get : Call ScopeExactReuseAllocator ExactReuseAllocator := do
  let w ← getState
  return w.obj.reuseAllocator

def set (a : ExactReuseAllocator) : Call ScopeExactReuseAllocator Unit := do
  let w ← getState
  setState { w with obj := { w.obj with reuseAllocator := a } }

def setEntry (sz : Nat) (vec : PointerVec) (a : ExactReuseAllocator) : ExactReuseAllocator :=
  { a with reuseMap := HashTable.alter (fun _ => vec) sz a.reuseMap }

def malloc (sz : Nat) : Call ScopeExactReuseAllocator (Option Ptr) := do
  if sz = 0 then
    return none
  let a ← get
  match (a.reuseMap.lookup sz).bind fun vec => vec.elems.getLast?.map fun rs => (vec, rs) with
  | some (vec, rs) =>
    set (a.setEntry sz { vec with elems := vec.elems.dropLast })
    return some rs
  | none =>
    let rs ← scopeCall (ScopeAllocator.malloc answers (sizeT (sz + 8)))
    match rs with
    | none => wrong .undefined
    | some rs =>
      let w ← getState
      let m ← lift (w.mem.store rs (LittleEndian.bytes 8 sz))
      setState { w with mem := m }
      return some (rs.next 8)

def internalFlush : Call ScopeExactReuseAllocator Unit := do
  let a ← get
  (a.reuseMap.flatMap (·.2.elems)).foldlM (fun _ buf => do
    let internal ← lift (buf.prev 8)
    ScopeAllocator.free (some internal)) ()
  set { a with reuseMap := [], reuseMapElementalSz := 0 }

/-- The size gets an entry; `false` if there is no room for it. -/
def addEntry (sz : Nat) : Call ScopeExactReuseAllocator Bool := do
  let a ← get
  if a.reuseMap.length = a.reuseMapGlobalCap then
    internalFlush
  if answers.entryRoom then
    let a ← get
    set (a.setEntry sz ⟨none, 0, []⟩)
    return true
  else
    return false

def pushEntry (sz : Nat) (buf : Ptr) : Call ScopeExactReuseAllocator Unit := do
  let a ← get
  match a.reuseMap.lookup sz with
  | none => wrong .undefined
  | some vec =>
    let vec ← scopeCall (vec.pushBack answers buf)
    let a ← get
    set { a.setEntry sz vec with reuseMapElementalSz := a.reuseMapElementalSz + 1 }

def free : Option Ptr → Call ScopeExactReuseAllocator Unit
  | none => pure ()
  | some buf => do
    let previousBuf ← lift (buf.prev 8)
    let w ← getState
    let bytes ← lift (w.mem.load previousBuf 8)
    let sz := LittleEndian.value bytes
    if w.obj.reuseAllocator.reuseMapElementalSz = w.obj.reuseAllocator.reuseMapElementalCap then
      internalFlush
    let a ← get
    let found ← (if (a.reuseMap.lookup sz).isNone then addEntry answers sz else pure true)
    if found then
      tryCatch (pushEntry answers sz buf) fun _ => ScopeAllocator.free (some previousBuf)
    else
      ScopeAllocator.free (some previousBuf)

end ExactReuseAllocator

/-! ## The interface -/

/-- A `ScopeAllocatorInterface` over an arena, with the blocks and the storage that its cache holds. -/
structure ScopedAllocator (α : Type) where
  malloc : Answers → Nat → Call α (Option Ptr)
  free : Answers → Option Ptr → Call α Unit
  inScope : Answers → Call α Unit
  outScope : Call α Unit
  arena : α → ScopeAllocator
  cache : α → List (Nat × PointerVec)

def ScopeAllocator.interface : ScopedAllocator ScopeAllocator where
  malloc := ScopeAllocator.malloc
  free _ := ScopeAllocator.free
  inScope := ScopeAllocator.inScope
  outScope := ScopeAllocator.outScope
  arena a := a
  cache _ := []

namespace ScopeExactReuseAllocator

def make (scopeAllocatorBaseAllocationSz reuseMapGlobalCap reuseMapElementalCap : Nat) :
    Except Fault ScopeExactReuseAllocator := do
  let scopeAllocator ← ScopeAllocator.make scopeAllocatorBaseAllocationSz
  let reuseAllocator ← ExactReuseAllocator.make reuseMapGlobalCap reuseMapElementalCap
  .ok ⟨scopeAllocator, reuseAllocator⟩

def outScope : Call ScopeExactReuseAllocator Unit := do
  ExactReuseAllocator.internalFlush
  scopeCall ScopeAllocator.outScope

def interface : ScopedAllocator ScopeExactReuseAllocator where
  malloc := ExactReuseAllocator.malloc
  free := ExactReuseAllocator.free
  inScope answers := scopeCall (ScopeAllocator.inScope answers)
  outScope := outScope
  arena := scopeAllocator
  cache a := a.reuseAllocator.reuseMap

end ScopeExactReuseAllocator

/-! ## Use -/

inductive Op where
  | inScope
  | outScope
  | malloc (sz : Nat)
  | free (buf : Option Ptr)
  | write (p : Ptr) (bytes : List Byte)

/-- An open scope: where the arena stood when it was opened, and the blocks that the caller got in it. -/
structure Scope where
  opened : Option SavedPoint
  live : List Block

/-- The open scopes, the innermost one first. -/
structure State (α : Type) where
  world : World α
  scopes : List Scope

namespace State

/-- The blocks that the caller has. -/
def live (s : State α) : List Block := s.scopes.flatMap (·.live)

def lend (b : Block) : List Scope → List Scope
  | [] => []
  | scope :: rest => { scope with live := b :: scope.live } :: rest

def giveBack (p : Ptr) (scopes : List Scope) : List Scope :=
  scopes.map fun scope => { scope with live := scope.live.filter (·.ptr ≠ p) }

/-- One operation; `none` if the caller may not do it. -/
def next (I : ScopedAllocator α) (s : State α) : Answers × Op → Except Fault (Option (State α))
  | (answers, .inScope) => do
    let (rs, w) ← I.inScope answers s.world
    match rs with
    | .ok _ => .ok (some ⟨w, ⟨(I.arena s.world.obj).currentPoint, []⟩ :: s.scopes⟩)
    | .error _ => .ok (some ⟨w, s.scopes⟩)
  | (_, .outScope) =>
    match s.scopes with
    | [] => .ok none
    | _ :: rest => do
      let (_, w) ← noexcept I.outScope s.world
      .ok (some ⟨w, rest⟩)
  | (answers, .malloc sz) => do
    let (rs, w) ← I.malloc answers sz s.world
    match rs with
    | .ok (some p) => .ok (some ⟨w, lend ⟨p, sz⟩ s.scopes⟩)
    | .ok none | .error _ => .ok (some ⟨w, s.scopes⟩)
  | (answers, .free buf) =>
    if ∀ p ∈ buf, ∃ b ∈ s.live, b.ptr = p then do
      let (_, w) ← noexcept (I.free answers buf) s.world
      .ok (some ⟨w, buf.elim s.scopes (giveBack · s.scopes)⟩)
    else .ok none
  | (_, .write p bytes) =>
    if ∃ b ∈ s.live, Block.Within p bytes.length b then do
      let m ← s.world.mem.store p bytes
      .ok (some { s with world := { s.world with mem := m } })
    else .ok none

def Step (I : ScopedAllocator α) (s : State α) (e : Answers × Op) (s' : State α) : Prop :=
  s.next I e = .ok (some s')

end State

/-! ## object_malloc, object_free -/

variable {σ : Type} (allocator : BlockAllocator σ) (addr : Nat → Nat)

/-- `align`, whose alignment is a power of two by its type. -/
def align (ptr : Ptr) (alignmentSz : Nat) : Except Fault Ptr := ptr.alignUp addr alignmentSz

/-- `object_malloc` of a type with these `sizeof` and `alignof`; `none` if it throws. -/
def objectMalloc (sizeofT alignofT objectCount : Nat) (w : σ × Memory) :
    Except Fault (Option (Option Ptr) × σ × Memory) :=
  if objectCount = 0 then .ok (some none, w)
  else do
    let fwdSz := alignofT - 1
    let sz := sizeT (objectCount * sizeofT)
    let totalSz := sizeT (sz + 2)
    let alignedTotalSz := sizeT (totalSz + fwdSz)
    let (r, s, m) ← allocator.malloc alignedTotalSz w
    match r with
    | none => .ok (none, s, m)
    | some none => .error .undefined
    | some (some buf) => do
      let fwdBuf := buf.next 2
      let alignedFwdBuf ← align addr fwdBuf alignofT
      let prevAlignedFwdBuf ← alignedFwdBuf.prev 2
      let dist := alignedFwdBuf.offset - fwdBuf.offset
      let m ← m.store prevAlignedFwdBuf (LittleEndian.bytes 2 dist)
      .ok (some (some alignedFwdBuf), s, m)

def objectFree (buf : Option Ptr) (w : σ × Memory) : Except Fault (σ × Memory) :=
  match buf with
  | none => .ok w
  | some charBuf => do
    let prevBuf ← charBuf.prev 2
    let dist ← w.2.load prevBuf 2
    let fwdBuf ← charBuf.prev (LittleEndian.value dist)
    let orgBuf ← fwdBuf.prev 2
    allocator.free (some orgBuf) w

end ConventionalAllocator
