import NeuralNetwork.Funnel.Funnel
import NeuralNetwork.Lib.Allocator
import NeuralNetwork.Lib.HashTable
import NeuralNetwork.Lib.LittleEndian
import NeuralNetwork.StlExtension.Stdx

/-!
# The allocation stack

The allocators of `allocation_base/global_allocator.h`, from the one that asks `std::malloc` to the one that
rounds a size to a bucket. Each puts a header before what the one below it returns: the bucket
(`BinaryUnitAllocator`), the index of the unit
(`DistributedThreadSafeBatchBinaryUnitAllocator`), the size (`AffinedAllocator`) and whether the block is
large (`LargeSmallAffinedAllocator`). `AffinedAllocator` is over any allocator of batches.

The counters of `BinaryUnitAllocator`, which only reserve room for the pointers that come back, and the
debug checks are left out.
-/

namespace AllocationBase.GlobalAllocator

open Cpp Region HashTable

/-- What the allocators take from outside: which requests `std::malloc` answers (one that it does not, or
for which a container has no memory, throws `std::bad_alloc`), the numbers drawn in a call, and where the
memory of its feeder lies. -/
structure Env where
  stdMalloc : Memory → Nat → Bool
  randomizeInt : Nat → Nat → Nat
  stackAddr : Nat → Nat

/-- What is done through a pointer that may be null. -/
def deref : Option Ptr → Except Fault Ptr
  | none => .error .undefined
  | some p => .ok p

/-! ## BinaryUnitAllocator -/

/-- The regions that were used and are free, by bucket, and the regions owned. -/
structure BinaryUnitAllocator where
  unitMap : List (Nat × List Ptr)
  raiiBufVec : List Nat

namespace BinaryUnitAllocator

def minPow2Value : Nat := max 5 (Stdx.ulog2 1)

/-- `enqueue_new_buffer_of_bucket_idx`; `none` if it throws. -/
def enqueueNewBufferOfBucketIdx (env : Env) (bucketIdx : Nat) (a : BinaryUnitAllocator) (m : Memory) :
    Except Fault (Option Ptr × BinaryUnitAllocator × Memory) := do
  let actualSz ← Stdx.shiftOne bucketIdx
  if env.stdMalloc m actualSz then do
    let m' ← (m.allocate actualSz).2.store (m.allocate actualSz).1 (LittleEndian.bytes 1 bucketIdx)
    .ok (some ((m.allocate actualSz).1.next 1),
      ⟨alter (fun ptrs => ptrs.getD []) bucketIdx a.unitMap,
        a.raiiBufVec ++ [(m.allocate actualSz).1.block]⟩, m')
  else .ok (none, a, m)

/-- `malloc`; the outer `none` if it throws. -/
def malloc (env : Env) (sz : Nat) (a : BinaryUnitAllocator) (m : Memory) :
    Except Fault (Option (Option Ptr) × BinaryUnitAllocator × Memory) :=
  if sz = 0 then .ok (some none, a, m)
  else do
    let fullSz := sizeT (sz + 1)
    let bucketIdx := max (Stdx.ulog2 (← Stdx.ceil2 fullSz)) minPow2Value
    match ((a.unitMap.lookup bucketIdx).getD []).getLast? with
    | none => do
      let (buf, a, m) ← enqueueNewBufferOfBucketIdx env bucketIdx a m
      .ok (buf.map some, a, m)
    | some result =>
      .ok (some (some result),
        { a with unitMap := alter (fun ptrs => (ptrs.getD []).dropLast) bucketIdx a.unitMap }, m)

def toOriginalBuffer (buf : Ptr) (m : Memory) : Except Fault (Ptr × Nat) := do
  let previousBuf ← buf.prev 1
  let header ← m.load previousBuf 1
  .ok (previousBuf, LittleEndian.value header)

def free (buf : Option Ptr) (a : BinaryUnitAllocator) (m : Memory) : Except Fault BinaryUnitAllocator :=
  match buf with
  | none => .ok a
  | some buf => do
    let (_, bucketIdx) ← toOriginalBuffer buf m
    match a.unitMap.lookup bucketIdx with
    | none => .error .abort
    | some _ =>
      .ok { a with unitMap := alter (fun ptrs => ptrs.getD [] ++ [buf]) bucketIdx a.unitMap }

/-! ### The batches of `BatchBinaryUnitAllocator` -/

def freeBatch (bufs : List (Option Ptr)) (a : BinaryUnitAllocator) (m : Memory) :
    Except Fault BinaryUnitAllocator :=
  bufs.foldlM (fun a buf => free buf a m) a

/-- `malloc` of `sizes`, after `fulfilled`; `none` if it throws, and then it has freed those. -/
def mallocBatch (env : Env) : List Nat → List (Option Ptr) → BinaryUnitAllocator → Memory →
    Except Fault (Option (List (Option Ptr)) × BinaryUnitAllocator × Memory)
  | [], fulfilled, a, m => .ok (some fulfilled, a, m)
  | sz :: sizes, fulfilled, a, m => do
    let (r, a, m) ← malloc env sz a m
    match r with
    | some buf => mallocBatch env sizes (fulfilled ++ [buf]) a m
    | none => do
      let a ← freeBatch fulfilled a m
      .ok (none, a, m)

end BinaryUnitAllocator

/-! ## DistributedThreadSafeBatchBinaryUnitAllocator -/

/-- The units, and the number of calls so far. -/
structure DistributedAllocator where
  allocatorVec : List BinaryUnitAllocator
  calls : Nat

namespace DistributedAllocator

def concurrencySz : Nat := 4

def feedSz : Nat := 2 ^ 8

def make : DistributedAllocator := ⟨List.replicate concurrencySz ⟨[], []⟩, 0⟩

theorem argument_pos : 0 < 16 := by decide

theorem align_pos : 0 < 8 := by decide

/-- `sizeof` and `alignof` of a `MallocArgument`. -/
def mallocLayout : Funnel.EventLayout := ⟨16, 8, argument_pos, align_pos⟩

def pointerLayout : Funnel.EventLayout := ⟨8, 8, align_pos, align_pos⟩

/-- A request: its size and the place of its result. -/
structure MallocArgument where
  sz : Nat
  result : Nat

/-- What a delivery of requests changes: the units, the memory and the results. -/
structure Delivery where
  allocatorVec : List BinaryUnitAllocator
  memory : Memory
  results : List (Option Ptr)

/-- The end of a request: the index is written before the result. -/
def writeIndex (idx : Nat) (s : Delivery) (r : MallocArgument × Option Ptr) : Except Fault Delivery := do
  let mem ← deref r.2
  let memory ← s.memory.store mem (LittleEndian.bytes 1 idx)
  .ok { s with memory := memory, results := s.results.set r.1.result (some (mem.next 1)) }

/-- `MallocFeedResolutor::push`. -/
def mallocPush (env : Env) (s : Delivery) (group : Nat × List MallocArgument) : Except Fault Delivery :=
  match s.allocatorVec[group.1]? with
  | none => .error .outOfBounds
  | some a => do
    let (mem, a, m) ← a.mallocBatch env (group.2.map fun arg => sizeT (arg.sz + 1)) [] s.memory
    match mem with
    | none => .error .abort
    | some mem =>
      (group.2.zip mem).foldlM (writeIndex group.1) ⟨s.allocatorVec.set group.1 a, m, s.results⟩

/-- The requests of a call, with the units they go to. -/
def requests (env : Env) (calls : Nat) (sizes : List Nat) : List (Nat × MallocArgument) :=
  sizes.zipIdx.filterMap fun (sz, i) =>
    if sz = 0 then none else some (env.randomizeInt calls i % 2 ^ 8 &&& (concurrencySz - 1), ⟨sz, i⟩)

def malloc (env : Env) (sizes : List Nat) (s : DistributedAllocator × Memory) :
    Except Fault (List (Option Ptr) × DistributedAllocator × Memory) := do
  let groups ← Funnel.kvScope mallocLayout (env.stackAddr s.1.calls) (min sizes.length feedSz)
    (requests env s.1.calls sizes)
  let d ← groups.foldlM (mallocPush env) ⟨s.1.allocatorVec, s.2, List.replicate sizes.length none⟩
  .ok (d.results, ⟨d.allocatorVec, s.1.calls + 1⟩, d.memory)

/-- Where a pointer goes back to: the index before it, and the pointer of the unit. -/
def owner (m : Memory) (buf : Ptr) : Except Fault (Nat × Ptr) := do
  let bufHead ← buf.prev 1
  let idx ← m.load bufHead 1
  .ok (LittleEndian.value idx, bufHead)

/-- `FreeFeedResolutor::push`. -/
def freePush (m : Memory) (allocatorVec : List BinaryUnitAllocator) (group : Nat × List Ptr) :
    Except Fault (List BinaryUnitAllocator) :=
  match allocatorVec[group.1]? with
  | none => .error .outOfBounds
  | some a => do
    let a ← a.freeBatch (group.2.map some) m
    .ok (allocatorVec.set group.1 a)

def free (env : Env) (bufs : List (Option Ptr)) (s : DistributedAllocator × Memory) :
    Except Fault (DistributedAllocator × Memory) := do
  let owners ← bufs.reduceOption.mapM (owner s.2)
  let groups ← Funnel.kvScope pointerLayout (env.stackAddr s.1.calls) (min bufs.length feedSz) owners
  let allocatorVec ← groups.foldlM (freePush s.2) s.1.allocatorVec
  .ok (⟨allocatorVec, s.1.calls + 1⟩, s.2)

/-- As the allocator of batches that the ones above are given. -/
def allocator (env : Env) : Allocator DistributedAllocator := ⟨malloc env, free env⟩

end DistributedAllocator

/-! ## AffinedAllocator -/

/-- The idle queues, the queue of each cached size, and what is about to be freed. -/
structure AffinedAllocator where
  poolVec : List (List Ptr)
  cacheMap : List (Nat × List Ptr)
  freeVec : List Ptr

namespace AffinedAllocator

def stackCapturePoolSz : Nat := 2 ^ 6

/-- `STACK_CAPTURE_POOL_POPULATION`, the capacity of a queue. -/
def stackCapturePoolPopulation : Nat := 2 ^ 6

def freeVecCapacity : Nat := 2 ^ 6

def refillSz : Nat := 2 ^ 4

def freeSz : Nat := 2 ^ 4

def make : AffinedAllocator := ⟨List.replicate stackCapturePoolSz [], [], []⟩

/-- `pow2_cyclic_queue::push_back`, which a full queue refuses. -/
def pushBack (ptr : Ptr) (queue : List Ptr) : List Ptr :=
  if queue.length = stackCapturePoolPopulation then queue else queue ++ [ptr]

/-- `buf_usr_sz`: the size before a block. -/
def readSize (buf : Ptr) (m : Memory) : Except Fault Nat := do
  let previousBuf ← buf.prev 4
  let header ← m.load previousBuf 4
  .ok (LittleEndian.value header)

variable {σ : Type} (base : Allocator σ)

abbrev World (σ : Type) := AffinedAllocator × σ × Memory

def flushFreeVec (w : World σ) : Except Fault (World σ) := do
  let s ← base.free (w.1.freeVec.map some) w.2
  .ok ({ w.1 with freeVec := [] }, s)

def freeUserPtr (w : World σ) (ptr : Ptr) : Except Fault (World σ) := do
  let w ← (if w.1.freeVec.length = freeVecCapacity then flushFreeVec base w else .ok w)
  let previous ← ptr.prev 4
  .ok ({ w.1 with freeVec := w.1.freeVec ++ [previous] }, w.2)

/-- The queue of a size goes back to the pool. -/
def flushQueue (w : World σ) (entry : Nat × List Ptr) : Except Fault (World σ) := do
  let w ← entry.2.foldlM (freeUserPtr base) w
  .ok ({ w.1 with poolVec := w.1.poolVec ++ [[]] }, w.2)

/-- The cached sizes are gone through in an order of the map's own. -/
def flushCacheMap (iteration : HashTable.Order (Nat × List Ptr)) (w : World σ) :
    Except Fault (World σ) := do
  let w ← (iteration.order w.1.cacheMap).foldlM (flushQueue base) w
  .ok ({ w.1 with cacheMap := [] }, w.2)

/-- A queue of the pool is made the queue of a size that has none. -/
def insertQueue (iteration : HashTable.Order (Nat × List Ptr)) (sz : Nat) (w : World σ) :
    Except Fault (World σ) := do
  let w ← (if w.1.poolVec.isEmpty then flushCacheMap base iteration w else .ok w)
  match w.1.poolVec.getLast? with
  | none => .error .undefined
  | some pool =>
    .ok ({ w.1 with
      cacheMap := alter (fun queue => queue.getD pool) sz w.1.cacheMap
      poolVec := w.1.poolVec.dropLast }, w.2)

/-- `map_ptr->second.back()` and its `pop_back()`. -/
def popBack (sz : Nat) (queue : List Ptr) (w : World σ) : Except Fault (Option Ptr × World σ) :=
  match queue.getLast? with
  | none => .error .undefined
  | some rs =>
    .ok (some rs, { w.1 with cacheMap := alter (fun _ => queue.dropLast) sz w.1.cacheMap }, w.2)

/-- A block that the base returned gets its size and is cached. -/
def refill (sz : Nat) (w : World σ) (result : Option Ptr) : Except Fault (World σ) := do
  let ptr ← deref result
  let m ← w.2.2.store ptr (LittleEndian.bytes 4 sz)
  .ok ({ w.1 with
    cacheMap := alter (fun queue => pushBack (ptr.next 4) (queue.getD [])) sz w.1.cacheMap },
    w.2.1, m)

def slowMalloc (iteration : HashTable.Order (Nat × List Ptr)) (sz : Nat) (w : World σ) :
    Except Fault (Option Ptr × World σ) :=
  if sz = 0 then .ok (none, w)
  else
    match w.1.cacheMap.lookup sz with
    | some queue => do
      let (rs, w) ← popBack sz queue w
      if queue.dropLast.isEmpty then
        .ok (rs, { w.1 with
          poolVec := w.1.poolVec ++ [queue.dropLast]
          cacheMap := HashTable.erase sz w.1.cacheMap }, w.2)
      else .ok (rs, w)
    | none =>
      if sz > 2 ^ 32 - 1 then .error .abort
      else do
        let w ← insertQueue base iteration sz w
        let (result, s) ← base.malloc (List.replicate refillSz (sizeT (sz + 4))) w.2
        let w ← result.foldlM (refill sz) (w.1, s)
        popBack sz ((w.1.cacheMap.lookup sz).getD []) w

def malloc (iteration : HashTable.Order (Nat × List Ptr)) (sz : Nat) (w : World σ) :
    Except Fault (Option Ptr × World σ) :=
  match w.1.cacheMap.lookup sz with
  | some queue => if queue.length > 1 then popBack sz queue w else slowMalloc base iteration sz w
  | none => slowMalloc base iteration sz w

/-- The queue of a size that is full loses the oldest of its blocks. -/
def drain (sz : Nat) (queue : List Ptr) (w : World σ) : Except Fault (World σ) := do
  let w ← (queue.take (min queue.length freeSz)).foldlM (freeUserPtr base) w
  .ok ({ w.1 with
    cacheMap := alter (fun _ => queue.drop (min queue.length freeSz)) sz w.1.cacheMap }, w.2)

/-- `push_back` to the queue of a size. -/
def cache (sz : Nat) (buf : Ptr) (w : World σ) : World σ :=
  ({ w.1 with
    cacheMap := alter (fun queue => pushBack buf (queue.getD [])) sz w.1.cacheMap }, w.2)

def slowFree (iteration : HashTable.Order (Nat × List Ptr)) (buf : Ptr) (w : World σ) :
    Except Fault (World σ) := do
  let sz ← readSize buf w.2.2
  let w ← (if w.1.cacheMap.lookup sz = none then insertQueue base iteration sz w else .ok w)
  let queue := (w.1.cacheMap.lookup sz).getD []
  let w ← (if queue.length = stackCapturePoolPopulation then drain base sz queue w else .ok w)
  .ok (cache sz buf w)

def free (iteration : HashTable.Order (Nat × List Ptr)) (buf : Option Ptr) (w : World σ) :
    Except Fault (World σ) :=
  match buf with
  | none => .ok w
  | some buf => do
    let sz ← readSize buf w.2.2
    match w.1.cacheMap.lookup sz with
    | none => slowFree base iteration buf w
    | some queue =>
      if queue.length ≠ stackCapturePoolPopulation then .ok (cache sz buf w)
      else slowFree base iteration buf w

/-- `~AffinedAllocator`. -/
def destroy (iteration : HashTable.Order (Nat × List Ptr)) (w : World σ) : Except Fault (World σ) := do
  let w ← flushCacheMap base iteration w
  flushFreeVec base w

end AffinedAllocator

/-! ## LargeSmallAffinedAllocator -/

namespace LargeSmallAffinedAllocator

def smallAllocationFlag : Nat := 0

def largeAllocationFlag : Nat := 1

def largeBufferSize : Nat := 2 ^ 14

open AffinedAllocator (World)

variable {σ : Type} (base : Allocator σ) (iteration : HashTable.Order (Nat × List Ptr))

def writeFlag (flag : Nat) (rs : Option Ptr) (w : World σ) : Except Fault (Option Ptr × World σ) := do
  let rs ← deref rs
  let m ← w.2.2.store rs (LittleEndian.bytes 1 flag)
  .ok (some (rs.next 1), w.1, w.2.1, m)

def smallMalloc (sz : Nat) (w : World σ) : Except Fault (Option Ptr × World σ) := do
  let (rs, w) ← AffinedAllocator.malloc base iteration (sizeT (sz + 1)) w
  writeFlag smallAllocationFlag rs w

def largeMalloc (sz : Nat) (w : World σ) : Except Fault (Option Ptr × World σ) := do
  let (rs, s) ← base.malloc [sizeT (sz + 1)] w.2
  writeFlag largeAllocationFlag (rs.head?.getD none) (w.1, s)

def malloc (sz : Nat) (w : World σ) : Except Fault (Option Ptr × World σ) :=
  if sz = 0 then .ok (none, w)
  else if sz < largeBufferSize then smallMalloc base iteration sz w
  else largeMalloc base sz w

def readAllocationHeader (usrPtr : Ptr) (m : Memory) : Except Fault Nat := do
  let prevUsrPtr ← usrPtr.prev 1
  let header ← m.load prevUsrPtr 1
  .ok (LittleEndian.value header)

def free (buf : Option Ptr) (w : World σ) : Except Fault (World σ) :=
  match buf with
  | none => .ok w
  | some buf => do
    let header ← readAllocationHeader buf w.2.2
    let internalPtr ← buf.prev 1
    if header = smallAllocationFlag then AffinedAllocator.free base iteration (some internalPtr) w
    else do
      let s ← base.free [some internalPtr] w.2
      .ok (w.1, s)

end LargeSmallAffinedAllocator

/-! ## RoundBucketAffinedAllocator -/

namespace RoundBucketAffinedAllocator

def slackBufferSz : Nat := 8

open AffinedAllocator (World)

variable {σ : Type} (base : Allocator σ) (iteration : HashTable.Order (Nat × List Ptr))

/-- `promote_size`: to the next power of two less the slack. -/
def promoteSize (sz : Nat) : Except Fault Nat := do
  let rounded ← Stdx.ceil2 (sizeT (sz + slackBufferSz))
  .ok (subT rounded slackBufferSz)

def malloc (sz : Nat) (w : World σ) : Except Fault (Option Ptr × World σ) := do
  let promoted ← promoteSize sz
  LargeSmallAffinedAllocator.malloc base iteration promoted w

def free (buf : Option Ptr) (w : World σ) : Except Fault (World σ) :=
  LargeSmallAffinedAllocator.free base iteration buf w

end RoundBucketAffinedAllocator

/-! ## dg_aligned_alloc, dg_aligned_free -/

variable {σ : Type} (base : BlockAllocator σ) (addr : Nat → Nat)

def dgAlign (buf : Ptr) (alignmentSz : Nat) : Except Fault Ptr :=
  if ¬ Stdx.isPow2 alignmentSz then .error .abort else buf.alignUp addr alignmentSz

/-- `dg_aligned_alloc`, where the instance of the allocator is `base`; `none` if it throws. -/
def dgAlignedAlloc (alignment blkSz : Nat) (w : σ × Memory) :
    Except Fault (Option (Option Ptr) × σ × Memory) :=
  if ¬ Stdx.isPow2 alignment then .ok (none, w)
  else
    let maxFwdSz := sizeT (alignment + (4 - 1))
    if maxFwdSz > 2 ^ 32 - 1 then .ok (none, w)
    else if blkSz = 0 then .ok (some none, w)
    else do
      let adjBlkSz := sizeT (blkSz + maxFwdSz)
      let (r, s, m) ← base.malloc adjBlkSz w
      match r with
      | none => .ok (none, s, m)
      | some none => .error .abort
      | some (some ptr) => do
        let alignedPtr ← dgAlign addr (ptr.next 4) alignment
        let difference := alignedPtr.offset - ptr.offset
        let alignmentHeaderAddr ← alignedPtr.prev 4
        let m ← m.store alignmentHeaderAddr (LittleEndian.bytes 4 difference)
        .ok (some (some alignedPtr), s, m)

def dgAlignedFree (ptr : Option Ptr) (w : σ × Memory) : Except Fault (σ × Memory) :=
  match ptr with
  | none => .ok w
  | some ptr => do
    let alignmentHeaderAddr ← ptr.prev 4
    let difference ← w.2.load alignmentHeaderAddr 4
    let orgPtr ← ptr.prev (LittleEndian.value difference)
    base.free (some orgPtr) w

end AllocationBase.GlobalAllocator
