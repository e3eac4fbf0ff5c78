import NeuralNetwork.InternalRest.Mailbox.Model
import NeuralNetwork.Lib.Run

/-!
# The kernel block pool

`BatchAllocator` and `AffinedAllocator` of `internal_rest/network_kernel_allocator.h`, with their
factory, and the calls of any number of affined allocators over one batch allocator. A block is the
number of its allocation, and the back of a vector is the end of its list. A call that needs the batch
allocator is two steps: its critical section there, with what the call does before, and the rest.
-/

namespace KernelAllocator

open Cpp Mailbox

/-! ## BatchAllocator -/

structure BatchAllocator where
  memreferenceQueue : List Nat
  memQueue : List Nat
  memQueueCap : Nat
  mempieceSz : Nat
  maxConsumePerLoad : Nat
deriving DecidableEq

/-- `ret_mem_arr[i]`, if it was written, and `exception_arr[i]`. -/
abbrev Slot := Option Nat × ExceptionT

namespace BatchAllocator

variable (b : BatchAllocator)

/-- One round of `noexcept_allocate`; `std::aligned_alloc` returns a new block. -/
def allocateOne : BatchAllocator :=
  { b with
    memreferenceQueue := b.memreferenceQueue ++ [b.memreferenceQueue.length]
    memQueue := b.memQueue ++ [b.memreferenceQueue.length] }

def noexceptAllocate : Nat → BatchAllocator → BatchAllocator
  | 0, b => b
  | allocatableSz + 1, b => noexceptAllocate allocatableSz b.allocateOne

def malloc (debug : Bool) (requestMemBlkCount : Nat) : Except Fault (BatchAllocator × List Slot) :=
  if debug ∧ requestMemBlkCount > b.maxConsumePerLoad then .error .abort
  else
    let allocatableSz := subT b.memQueueCap b.memreferenceQueue.length
    let missingSz := requestMemBlkCount - min requestMemBlkCount b.memQueue.length
    let doableSz := min allocatableSz missingSz
    let b := noexceptAllocate doableSz b
    let fulfillableSz := min b.memQueue.length requestMemBlkCount
    let remSz := b.memQueue.length - fulfillableSz
    .ok ({ b with memQueue := b.memQueue.take remSz },
      (b.memQueue.drop remSz).map (fun p => (some p, .success)) ++
        List.replicate (requestMemBlkCount - fulfillableSz) (none, .resourceExhaustion))

def free (freeMemArr : List Nat) : BatchAllocator := { b with memQueue := b.memQueue ++ freeMemArr }

end BatchAllocator

/-! ## AffinedAllocator -/

structure AffinedAllocator where
  refillSz : Nat
  memVec : List Nat
  memVecCapacity : Nat
  freeVec : List Nat
  freeVecCapacity : Nat
deriving DecidableEq

namespace AffinedAllocator

variable (a : AffinedAllocator)

/-- `mem_vec.back()` and `mem_vec.pop_back()`. -/
def popBack : Except Fault (AffinedAllocator × Nat) :=
  match a.memVec.getLast? with
  | some p => .ok ({ a with memVec := a.memVec.dropLast }, p)
  | none => .error .undefined

/-- `refill_mem_vec` from a `free_vec` that is not empty. -/
def refillFromFreeVec : AffinedAllocator :=
  let moveSz := min a.freeVec.length a.memVecCapacity
  let remSz := a.freeVec.length - moveSz
  { a with memVec := a.memVec ++ a.freeVec.drop remSz, freeVec := a.freeVec.take remSz }

/-- The loop of `refill_mem_vec` over what the batch allocator returned. -/
def takeSlots : List Slot → AffinedAllocator → Except Fault AffinedAllocator
  | [], a => .ok a
  | (p, err) :: slots, a =>
    if isFailed err then takeSlots slots a
    else
      match p with
      | some p => takeSlots slots { a with memVec := a.memVec ++ [p] }
      | none => .error .undefined

/-- `free_vec.clear()`, and `free_vec.push_back(mem_ptr)`. -/
def refillFreeVec (memPtr : Nat) : AffinedAllocator := { a with freeVec := [memPtr] }

end AffinedAllocator

/-! ## The factory -/

def makeBatchAllocator (mempieceCount mempieceSz consumeDecayFactor : Nat) :
    Except Fault BatchAllocator :=
  if ¬ (1 ≤ mempieceCount ∧ mempieceCount ≤ 2 ^ 30) then .error (.invalidArgument "INVALID_ARGUMENT")
  else if ¬ (1 ≤ mempieceSz ∧ mempieceSz ≤ 2 ^ 30) then .error (.invalidArgument "INVALID_ARGUMENT")
  else if consumeDecayFactor ≥ 64 then .error .undefined
  else .ok ⟨[], [], mempieceCount, mempieceSz, max 1 (mempieceCount >>> consumeDecayFactor)⟩

/-- `make_affined_allocator`, over a batch allocator. -/
def makeAffinedAllocator (base : BatchAllocator) (refillSz memVecCapacity freeVecCapacity : Nat) :
    Except Fault AffinedAllocator :=
  if ¬ (1 ≤ refillSz ∧ refillSz ≤ 2 ^ 30) then .error (.invalidArgument "INVALID_ARGUMENT")
  else if ¬ (1 ≤ memVecCapacity ∧ memVecCapacity ≤ 2 ^ 30) then
    .error (.invalidArgument "INVALID_ARGUMENT")
  else if ¬ (1 ≤ freeVecCapacity ∧ freeVecCapacity ≤ 2 ^ 30) then
    .error (.invalidArgument "INVALID_ARGUMENT")
  else .ok ⟨min refillSz base.maxConsumePerLoad, [], memVecCapacity, [], freeVecCapacity⟩

/-! ## Calls -/

/-- What the call of an affined allocator holds after its critical section. -/
inductive Phase where
  | idle
  /-- `malloc` with the answer of the batch allocator. -/
  | refilling (slots : List Slot)
  /-- `free`, with `free_vec` copied to the batch allocator. -/
  | flushed (memPtr : Nat)
deriving DecidableEq

structure Member where
  allocator : AffinedAllocator
  phase : Phase
deriving DecidableEq

structure World where
  base : BatchAllocator
  members : List Member
  /-- The blocks that the calls of `malloc` returned and no call of `free` was given. -/
  outstanding : List Nat
deriving DecidableEq

/-- What happens next: a call starts, or goes on after its critical section. -/
inductive Event where
  | malloc (i : Nat)
  | free (i : Nat) (memPtr : Nat)
  | finish (i : Nat)

namespace World

variable (w : World)

def setMember (i : Nat) (a : AffinedAllocator) (phase : Phase) : World :=
  { w with members := w.members.set i ⟨a, phase⟩ }

/-- `malloc` returns the back of `mem_vec`. -/
def handOut (i : Nat) (a : AffinedAllocator) : Except Fault (Option World) := do
  let (a, p) ← a.popBack
  .ok (some { w.setMember i a .idle with outstanding := p :: w.outstanding })

/-- `malloc` up to its critical section, if it has one. -/
def malloc (debug : Bool) (i : Nat) (a : AffinedAllocator) : Except Fault (Option World) :=
  if a.memVec ≠ [] then w.handOut i a
  else if a.freeVec ≠ [] then w.handOut i a.refillFromFreeVec
  else do
    let (base, slots) ← w.base.malloc debug a.refillSz
    .ok (some { w.setMember i a (.refilling slots) with base })

/-- `free` up to its critical section, if it has one. -/
def free (i : Nat) (a : AffinedAllocator) (memPtr : Nat) : World :=
  let w := { w with outstanding := w.outstanding.erase memPtr }
  if a.memVec.length = a.memVecCapacity then
    if a.freeVec.length = a.freeVecCapacity then
      if a.freeVec = [] then w.setMember i (a.refillFreeVec memPtr) .idle
      else { w.setMember i a (.flushed memPtr) with base := w.base.free a.freeVec }
    else w.setMember i { a with freeVec := a.freeVec ++ [memPtr] } .idle
  else w.setMember i { a with memVec := a.memVec ++ [memPtr] } .idle

/-- One step; `none` if the allocator is in a call, or the block is not outstanding. -/
def step (debug : Bool) : Event → Except Fault (Option World)
  | .malloc i =>
    match w.members[i]? with
    | some ⟨a, .idle⟩ => w.malloc debug i a
    | _ => .ok none
  | .free i memPtr =>
    match w.members[i]? with
    | some ⟨a, .idle⟩ => if memPtr ∈ w.outstanding then .ok (some (w.free i a memPtr)) else .ok none
    | _ => .ok none
  | .finish i =>
    match w.members[i]? with
    | some ⟨a, .refilling slots⟩ => do
      let a ← a.takeSlots slots
      if a.memVec = [] then .ok (some (w.setMember i a .idle)) else w.handOut i a
    | some ⟨a, .flushed memPtr⟩ => .ok (some (w.setMember i (a.refillFreeVec memPtr) .idle))
    | _ => .ok none

end World

def Step (debug : Bool) (w : World) (e : Event) (w' : World) : Prop :=
  w.step debug e = .ok (some w')

/-- A pool that the factory made, before any call. -/
def Fresh (w : World) : Prop :=
  (∃ mempieceCount mempieceSz consumeDecayFactor,
    makeBatchAllocator mempieceCount mempieceSz consumeDecayFactor = .ok w.base) ∧
  (∀ m ∈ w.members, m.phase = .idle ∧ ∃ refillSz memVecCapacity freeVecCapacity,
    makeAffinedAllocator w.base refillSz memVecCapacity freeVecCapacity = .ok m.allocator) ∧
  w.outstanding = []

end KernelAllocator
