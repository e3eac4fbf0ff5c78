import NeuralNetwork.Funnel.Proof.Funnel
import NeuralNetwork.Lib.Allocator
import NeuralNetwork.StlExtension.Proof.UnorderedNodeMap
import Mathlib.Algebra.BigOperators.Group.List.Basic

/-!
# The memory of a preallocated key-value handle

`delvrsrv_kv_open_preallocated_handle` lays the buckets and the nodes of the key map, the memory of the
containers with its allocator, a pointer and the handle into one block of `delvrsrv_kv_allocation_cost`
bytes. **`feeder_memory`**: they lie there one after the other, and whatever is delivered, a handle that
is not full has the memory for the next event, and its map the room.
-/

namespace Funnel

open Cpp Loop Stdx UnorderedMapVariants Region HashChain

/-- `sizeof(T)` and `alignof(T)`, which is a power of two. -/
structure TypeLayout where
  size : Nat
  alignLog : Nat
  alignLog_lt : alignLog < 64

structure Extent where
  start : Nat
  size : Nat

namespace TypeLayout

variable (T : TypeLayout)

def align : Nat := 2 ^ T.alignLog

/-- What is set aside for `n` values, wherever it begins. -/
def room (n : Nat) : Nat := n * T.size + T.align

/-- Where `n` values are put, behind `dg_memalign(buf)`. -/
def place (n buf : Nat) : Extent := ⟨alignUp buf T.align, n * T.size⟩

/-- `KeyValueConventionalAllocator::allocate(n)`, and the buffer that it leaves. -/
def allocate (n buf : Nat) : Option Extent × Nat :=
  if n = 0 ∨ T.size = 0 then (none, buf) else (some (T.place n buf), buf + T.room n)

end TypeLayout

/-- `size_t` and `char *`. -/
def word : TypeLayout := ⟨8, 3, by decide⟩

/-- `BumpAllocatorResource`. -/
def bumpLayout : TypeLayout := ⟨24, 3, by decide⟩

/-- The template arguments of `kv_feed_unordered_map_t`. -/
def kvParams : Params := ⟨64, ⟨7, by decide, by decide⟩⟩

def rightSizeToCapacity (sz : Nat) : Nat := sizeT (sz / kvParams.loadFactor.num * kvParams.loadFactor.den)

def bucketCountForSizeOf (elementSz : Nat) : Except Fault Nat :=
  if elementSz = 0 then .ok minCapacity
  else do
    let num := kvParams.loadFactor.num
    let upround := sizeT ((subT elementSz 1 / num + 1) * num)
    let tentative ← ceil2 (rightSizeToCapacity upround)
    .ok (max tentative minCapacity)

/-- `allocation_size`, of a map with such nodes. -/
def allocationSize (node : TypeLayout) (bucketCount : Nat) : Except Fault Nat := do
  let upCeil := max (← ceil2 bucketCount) minCapacity
  .ok (word.room upCeil + node.room (kvParams.rightCapacityToSize upCeil))

/-- `delvrsrv_kv_allocation_cost`. -/
def allocationCost (event : EventLayout) (node handle : TypeLayout) (deliverableCap : Nat) :
    Except Fault Nat := do
  let bucketCount ← bucketCountForSizeOf (deliverableCap + 1)
  let mapSz ← allocationSize node bucketCount
  .ok (totalBcap event deliverableCap + bumpLayout.room 1 + mapSz + word.room 1 + handle.room 1)

/-- A handle, where it and what it uses lie, and the node capacity of its map. -/
structure Opened (K E : Type) where
  delivery : KVDeliveryHandle K E
  nodeCap : Nat
  map : List Extent
  arena : Extent
  others : List Extent

def Opened.extents {K E : Type} (o : Opened K E) : List Extent := o.map ++ o.arena :: o.others

/-- `delvrsrv_kv_open_preallocated_handle`. -/
def openPreallocatedHandle {K E : Type} (keys : Keys K) (event : EventLayout) (node handle : TypeLayout)
    (deliverableCap preallocatedBuf : Nat) : Except Fault (Opened K E) :=
  if deliverableCap > maxDeliverableCap then .error .abort
  else do
    let bucketCount ← bucketCountForSizeOf (deliverableCap + 1)
    let ptrBuf := preallocatedBuf + (← allocationSize node bucketCount)
    let bumpSz := totalBcap event deliverableCap
    let delivery ← KVDeliveryHandle.openHandle event ptrBuf deliverableCap
    let map : UnorderedNodeMap K Unit ← UnorderedNodeMap.make kvParams keys bucketCount
    let (buckets, mapBuf) := word.allocate map.bucketVec.length preallocatedBuf
    let (nodes, _) := node.allocate map.virtualStorageVec.cap mapBuf
    let pointerBuf := ptrBuf + (bumpSz + bumpLayout.room 1)
    .ok {
      delivery
      nodeCap := map.virtualStorageVec.cap
      map := buckets.toList ++ nodes.toList
      arena := ⟨ptrBuf, bumpSz⟩
      others := [bumpLayout.place 1 (ptrBuf + bumpSz), word.place 1 pointerBuf,
        handle.place 1 (pointerBuf + word.room 1)] }

/-! ## Extents in a row -/

/-- The extents lie between two addresses, one after the other. -/
def InRow (lo hi : Nat) : List Extent → Prop
  | [] => lo ≤ hi
  | x :: xs => lo ≤ x.start ∧ InRow (x.start + x.size) hi xs

variable {xs : List Extent}

theorem InRow.mono {lo lo' hi : Nat} (h : InRow lo hi xs) (hle : lo' ≤ lo) :
    InRow lo' hi xs := by
  cases xs with
  | nil => exact hle.trans h
  | cons x xs => exact ⟨hle.trans h.1, h.2⟩

theorem InRow.cons_of_le {lo mid hi : Nat} {x : Extent} (h : InRow mid hi xs) (hlo : lo ≤ x.start)
    (hmid : x.start + x.size ≤ mid) : InRow lo hi (x :: xs) :=
  ⟨hlo, h.mono hmid⟩

theorem InRow.place {T : TypeLayout} {n buf hi : Nat} (h : InRow (buf + T.room n) hi xs)
    (hfit : buf + T.room n ≤ 2 ^ 64) : InRow buf hi (T.place n buf :: xs) := by
  unfold TypeLayout.room TypeLayout.align at hfit
  have heq := alignUp_two_pow (x := buf) T.alignLog_lt (by omega)
  have hdiv := Nat.div_add_mod' (buf + (2 ^ T.alignLog - 1)) (2 ^ T.alignLog)
  have hmod := Nat.mod_lt (buf + (2 ^ T.alignLog - 1)) (Nat.two_pow_pos T.alignLog)
  rw [← heq] at hdiv
  refine h.cons_of_le ?_ ?_
  · unfold TypeLayout.place TypeLayout.align
    dsimp only
    omega
  · unfold TypeLayout.place TypeLayout.room TypeLayout.align
    dsimp only
    omega

theorem InRow.allocate {T : TypeLayout} {n buf hi : Nat} (h : InRow (T.allocate n buf).2 hi xs)
    (hfit : buf + T.room n ≤ 2 ^ 64) :
    InRow buf hi ((T.allocate n buf).1.toList ++ xs) := by
  unfold TypeLayout.allocate at h ⊢
  split at h
  · next h0 =>
    rw [if_pos h0]
    exact h
  · next h0 =>
    rw [if_neg h0]
    exact h.place hfit

theorem allocate_le (T : TypeLayout) (n buf : Nat) : (T.allocate n buf).2 ≤ buf + T.room n := by
  unfold TypeLayout.allocate
  split
  · exact Nat.le_add_right _ _
  · exact Nat.le_refl _

/-! ## The map -/

/-- The buckets are a power of two, and the nodes more than the handle holds keys. -/
theorem bucketCountForSizeOf_ok {cap : Nat} (hcap : cap ≤ maxDeliverableCap) :
    ∃ x, 3 ≤ x ∧ x ≤ 50 ∧ bucketCountForSizeOf (cap + 1) = .ok (2 ^ x) ∧ cap < 2 ^ (x - 3) * 7 := by
  unfold maxDeliverableCap at hcap
  have hnum : kvParams.loadFactor.num = 7 := rfl
  have hden : kvParams.loadFactor.den = 8 := rfl
  have hround : rightSizeToCapacity (sizeT ((subT (cap + 1) 1 / 7 + 1) * 7)) = (cap / 7 + 1) * 8 := by
    have hsub : subT (cap + 1) 1 = cap := subT_of_le (Nat.succ_pos cap) (by omega)
    rw [hsub, sizeT_of_lt (by omega), rightSizeToCapacity, hnum, hden, Nat.mul_div_cancel _ (by decide),
      sizeT_of_lt (by omega)]
  obtain ⟨x, -, hx, hle⟩ := ceil2_ok (show (cap / 7 + 1) * 8 ≤ 2 ^ 63 by omega)
  have hx32 : 2 ^ x ≤ 2 ^ 32 := ceil2_le_two_pow hx (by omega)
  have h3 : 3 ≤ x := (Nat.pow_le_pow_iff_right Nat.one_lt_two).1 (show 2 ^ 3 ≤ 2 ^ x by omega)
  have h32 : x ≤ 32 := (Nat.pow_le_pow_iff_right Nat.one_lt_two).1 hx32
  have hsplit : 2 ^ (x - 3) * 2 ^ 3 = 2 ^ x := by rw [← Nat.pow_add, Nat.sub_add_cancel h3]
  refine ⟨x, h3, by omega, ?_, by omega⟩
  unfold bucketCountForSizeOf
  rw [if_neg (Nat.succ_ne_zero cap)]
  dsimp only
  rw [hnum, hround, hx, ok_bind, Nat.max_eq_left (by unfold minCapacity; omega)]

theorem allocationSize_two_pow (node : TypeLayout) {x : Nat} (h3 : 3 ≤ x) (h50 : x ≤ 50) :
    allocationSize node (2 ^ x) = .ok (word.room (2 ^ x) + node.room (2 ^ (x - 3) * 7)) := by
  have h8 : 2 ^ 3 ≤ 2 ^ x := Nat.pow_le_pow_right Nat.two_pos h3
  unfold allocationSize
  rw [ceil2_two_pow (by omega), ok_bind]
  dsimp only
  rw [Nat.max_eq_left (by unfold minCapacity; omega), kvParams.rightCapacityToSize_pow h3 h50]
  rfl

theorem make_two_pow {K : Type} (keys : Keys K) {x : Nat} (h3 : 3 ≤ x) (h50 : x ≤ 50) :
    ∃ m : UnorderedNodeMap K Unit, UnorderedNodeMap.make kvParams keys (2 ^ x) = .ok m ∧
      m.bucketVec.length = 2 ^ x ∧ m.virtualStorageVec.cap = 2 ^ (x - 3) * 7 := by
  have h8 : 2 ^ 3 ≤ 2 ^ x := Nat.pow_le_pow_right Nat.two_pos h3
  have hmax : 2 ^ x ≤ 2 ^ 50 := Nat.pow_le_pow_right Nat.two_pos h50
  have hclamp : minSizeClamp (2 ^ x) minCapacity maxCapacity = .ok (2 ^ x) := by
    unfold minSizeClamp minCapacity maxCapacity
    rw [if_neg (by omega), Nat.max_eq_left (by omega)]
  rw [UnorderedNodeMap.make, ceil2_two_pow (by omega), ok_bind, hclamp]
  refine ⟨_, rfl, List.length_replicate, ?_⟩
  rw [kvParams.rightCapacityToSize_pow h3 h50]
  exact Nat.max_eq_right (Nat.zero_le _)

/-! ## The feeder -/

/-- What the delivery of an event for `key` asks for is there: a node and the first container of a new
key, or the memory for a full container to grow. -/
structure Supplied {K E : Type} [DecidableEq K] (nodeCap : Nat) (h : KVDeliveryHandle K E) (key : K) :
    Prop where
  emplace : h.find key = none → h.keyEventMap.length < nodeCap ∧
    (h.bumpAllocator.allocate (1 * h.layout.size)).isSome
  grow : ∀ container, h.find key = some container → container.items.length = container.cap →
    (h.bumpAllocator.allocate (container.cap * 2 * h.layout.size)).isSome

theorem KVDeliveryHandle.Inv.supplied {K E : Type} [DecidableEq K] {h : KVDeliveryHandle K E} {nodeCap : Nat}
    (hi : h.Inv) (hsz : h.deliverableSz < h.deliverableCap) (hcap : h.deliverableCap < nodeCap) (key : K) :
    Supplied nodeCap h key where
  emplace _ := by
    have hlen : h.keyEventMap.length ≤ (pairs h.groups).length := by
      have hfull : ∀ group ∈ h.groups, 1 ≤ group.2.length := fun group hg =>
        List.length_pos_iff.2 (hi.bound hg).1
      have hsum := List.length_le_sum_of_one_le _ (List.forall_mem_map.2 hfull)
      simpa [pairs, KVDeliveryHandle.groups, Function.comp_def] using hsum
    rw [← hi.count] at hlen
    exact ⟨by omega, by rw [KVDeliveryHandle.allocate_of_le (hi.supply_one hsz)]; rfl⟩
  grow container hf hfull := by
    obtain ⟨before, after, hmap, -⟩ := KVDeliveryHandle.find_split hi.nodup hf
    rw [KVDeliveryHandle.allocate_of_le (hi.supply_double hsz hmap hfull)]
    rfl

/-- **The block is large enough** for every capacity that the opener takes: what the handle uses lies in
it in a row, and after any deliveries, at most the memory of the containers is taken, and as long as
the handle is not full, then or once it is flushed, it and its map have what the next delivery asks for. -/
theorem feeder_memory {K E : Type} [DecidableEq K] (keys : Keys K) (event : EventLayout)
    (node handle : TypeLayout) {cap : Nat} (hcap : cap ≤ maxDeliverableCap) :
    ∃ cost, allocationCost event node handle cap = .ok cost ∧ ∀ block, block + cost ≤ 2 ^ 64 →
      ∃ o : Opened K E, openPreallocatedHandle keys event node handle cap block = .ok o ∧
        InRow block (block + cost) o.extents ∧
        ∀ events : List (K × E), ∃ h pushed, o.delivery.deliverAll events = .ok (h, pushed) ∧
          (cap ≠ 0 → h.bumpAllocator.head = o.arena.start) ∧ h.bumpAllocator.cap = o.arena.size ∧
          h.bumpAllocator.sz ≤ h.bumpAllocator.cap ∧
          (h.deliverableSz < cap → ∀ key, Supplied o.nodeCap h key) ∧
          (cap ≠ 0 → ∃ h0, h.clear = .ok (h0, h.groups) ∧ ∀ key, Supplied o.nodeCap h0 key) := by
  obtain ⟨x, h3, h50, hcount, hnodes⟩ := bucketCountForSizeOf_ok hcap
  have hsize := allocationSize_two_pow node h3 h50
  refine ⟨_, by rw [allocationCost, hcount, ok_bind, hsize, ok_bind], fun block hfit => ?_⟩
  obtain ⟨m, hm, hbuckets, hcapacity⟩ := make_two_pow keys h3 h50
  obtain ⟨d, hd, hi, hdcap, -, hlayout, hhead⟩ := KVDeliveryHandle.openHandle_ok (K := K) (E := E) event
    (block + (word.room (2 ^ x) + node.room (2 ^ (x - 3) * 7))) hcap
  rw [openPreallocatedHandle, if_neg (Nat.not_lt.2 hcap), hcount, ok_bind, hsize, ok_bind]
  dsimp only
  rw [hd, ok_bind, hm, ok_bind]
  refine ⟨_, rfl, ?_, fun events => ?_⟩
  · unfold Opened.extents
    dsimp only
    rw [hbuckets, hcapacity, List.append_assoc]
    have hmap := allocate_le word (2 ^ x) block
    have hmap' := allocate_le node (2 ^ (x - 3) * 7) (word.allocate (2 ^ x) block).2
    refine .allocate (.allocate (.cons_of_le (.place (.place (.place (show _ ≤ _ from ?_) ?_) ?_) ?_)
      (by dsimp only; omega) (by dsimp only; omega)) ?_) ?_
    all_goals omega
  · obtain ⟨h, pushed, e, hi', hmemory, hcap', -⟩ := KVDeliveryHandle.deliverAll_ok hi events
    obtain ⟨h0, e0, hi0, -, hcap0, -, hsz0⟩ := KVDeliveryHandle.clear_ok hi'
    have hbump := hi'.bump
    rw [hcap', hdcap, hmemory.1, hlayout] at hbump
    refine ⟨h, pushed, e, fun hne => hmemory.2.trans (hhead hne), hbump, hi'.fits, fun hsz key => ?_,
      fun hne => ⟨h0, e0, fun key => ?_⟩⟩
    · exact hi'.supplied (by omega) (by dsimp only; omega) key
    · exact hi0.supplied (by omega) (by dsimp only; omega) key

theorem feeder_memory_three :
    let event : EventLayout := ⟨8, 8, by decide, by decide⟩
    let node : TypeLayout := ⟨16, 3, by decide⟩
    ∃ cost, allocationCost event node node 3 = .ok cost ∧ ∀ block, block + cost ≤ 2 ^ 64 →
      ∃ o : Opened Nat Nat, openPreallocatedHandle (Keys.ofHash fun _ => 0) event node node 3 block = .ok o ∧
        InRow block (block + cost) o.extents :=
  have ⟨cost, hcost, hrun⟩ := feeder_memory (E := Nat) (Keys.ofHash fun _ : Nat => 0)
    ⟨8, 8, by decide, by decide⟩ ⟨16, 3, by decide⟩ ⟨16, 3, by decide⟩ (show 3 ≤ maxDeliverableCap by decide)
  ⟨cost, hcost, fun block h => have ⟨o, ho, hrow, _⟩ := hrun block h; ⟨o, ho, hrow⟩⟩

end Funnel
