import NeuralNetwork.CudaMalloc.Proof.Refine
import NeuralNetwork.Lib.Run

/-!
# The dedicated allocator

`DedicatedAllocator` of `cuda_management/cuda_malloc/dedicated_allocator.h`: bytes of one block of
device memory, handed out in leaves by a segment allocator of out-degree 8. The address of the block is
`cuMem`; the host memory of the node array and of the map is granted. `malloc_disjoint`: in every run
the ranges handed out lie in the block and apart from each other, a `malloc` that throws changes
nothing and no call aborts, for sizes up to the last of `size_t`.
-/

namespace CudaMalloc

open Cpp Loop FreeRun

/-- `BaseAllocatorType`. -/
def heapParams : Params := ⟨8, 64, by decide⟩

structure DedicatedAllocatorConfig where
  heapMemorySz : Nat
  heapLeafSz : Nat

/-- The map holds an interval of leaves for each address handed out. -/
structure DedicatedAllocator where
  allocator : SegmentAllocator
  cuMem : Nat
  leafSz : Nat
  allocationMap : List (Nat × Interval)

namespace DedicatedAllocator

/-- The loop of `get_tree_height_from_leaf_count`. -/
def heightFrom (leafCount : Nat) : (rounds currentBaseSz currentHeight : Nat) → Except Fault Nat
  | 0, _, _ => .error .outOfFuel
  | rounds + 1, currentBaseSz, currentHeight =>
    if leafCount = currentBaseSz then .ok currentHeight
    else if leafCount < currentBaseSz then
      .error (.invalidArgument "invalid leaf count, leaf count is not HEAP_OUTDEGREE_SZ ^ x")
    else
      let nextBaseSz := currentBaseSz * heapParams.outDegreeSize
      if nextBaseSz > 2 ^ 60 then
        .error (.invalidArgument "invalid leaf count, base size out of numeric range")
      else heightFrom leafCount rounds nextBaseSz (currentHeight + 1)

def getTreeHeightFromLeafCount (leafCount : Nat) : Except Fault Nat :=
  if leafCount = 0 then .ok 0 else heightFrom leafCount 64 1 1

def getTreeHeight (memSz leafSz : Nat) : Except Fault Nat :=
  if leafSz = 0 then .error (.invalidArgument "bad leaf size, 0")
  else if memSz % leafSz ≠ 0 then
    .error (.invalidArgument "bad mem size, mem size is not multiples of leaf size")
  else getTreeHeightFromLeafCount (memSz / leafSz)

/-- The constructor, when `cudaMalloc` grants a block at `cuMem`. -/
def make (config : DedicatedAllocatorConfig) (cuMem : Nat) : Except Fault DedicatedAllocator := do
  let height ← getTreeHeight config.heapMemorySz config.heapLeafSz
  let allocator ← CudaMalloc.make heapParams height
  return ⟨allocator, cuMem, config.heapLeafSz, []⟩

def mulCeil (value multiplier : Nat) : Except Fault Nat :=
  if value = 0 then .ok 0
  else if multiplier = 0 then .error (.invalidArgument "bad multiplier, 0")
  else
    let demotedSlot := (value - 1) / multiplier
    let promotedSlot := sizeT (demotedSlot + 1)
    .ok (sizeT (promotedSlot * multiplier))

/-- `none` for a `cuda_bad_alloc`; the null pointer is 0. -/
def malloc (a : DedicatedAllocator) (sz : Nat) : Except Fault (Option Nat × DedicatedAllocator) := do
  if sz = 0 then
    return (some 0, a)
  let roundSz ← mulCeil sz a.leafSz
  let leafCount := roundSz / a.leafSz
  let (interval, allocator) ← CudaMalloc.malloc heapParams a.allocator leafCount
  match interval with
  | none => return (none, { a with allocator })
  | some interval =>
    let bufFirst := sizeT (interval.1 * a.leafSz)
    let mem := a.cuMem + bufFirst
    if a.allocationMap.any fun entry => entry.1 = mem then .error .abort
    else
      return (some mem, { a with allocator, allocationMap := (mem, interval) :: a.allocationMap })

def free (a : DedicatedAllocator) (ptr : Nat) : Except Fault DedicatedAllocator :=
  if ptr = 0 then .ok a
  else
    match a.allocationMap.find? fun entry => entry.1 = ptr with
    | none => .error .abort
    | some entry => do
      let allocator ← CudaMalloc.free heapParams a.allocator entry.2
      return { a with allocator, allocationMap := a.allocationMap.erase entry }

/-! ## Runs -/

inductive Op where
  | malloc (sz : Nat)
  | free (ptr : Nat)

/-- The allocator and the ranges handed out: an address and the size that was asked for. -/
structure World where
  alloc : DedicatedAllocator
  outs : List (Nat × Nat)

def World.step (w : World) : Op → Except Fault World
  | .malloc sz => do
    let (mem, alloc) ← w.alloc.malloc sz
    match mem with
    | none | some 0 => return { w with alloc }
    | some (p + 1) => return ⟨alloc, (p + 1, sz) :: w.outs⟩
  | .free ptr => do
    return ⟨← w.alloc.free ptr, w.outs.filter fun r => r.1 ≠ ptr⟩

/-- A size is a `size_t`; only outstanding pointers, or null, are freed. -/
def World.Allows (w : World) : Op → Prop
  | .malloc sz => sz < 2 ^ 64
  | .free ptr => ptr = 0 ∨ ∃ sz, (ptr, sz) ∈ w.outs

def Apart (r s : Nat × Nat) : Prop := r.1 + r.2 ≤ s.1 ∨ s.1 + s.2 ≤ r.1

variable {config : DedicatedAllocatorConfig} {cuMem : Nat} {a : DedicatedAllocator} {w : World}

/-! ## Construction -/

theorem heightFrom_ok {leafCount rounds k height : Nat} (hk : 8 ^ k ≤ 2 ^ 60)
    (e : heightFrom leafCount rounds (8 ^ k) (k + 1) = .ok height) :
    ∃ n, leafCount = 8 ^ n ∧ height = n + 1 ∧ 8 ^ n ≤ 2 ^ 60 := by
  induction rounds generalizing k with
  | zero => cases e
  | succ rounds ih =>
    simp only [heightFrom] at e
    split at e
    · exact ⟨k, by assumption, (Except.ok.inj e).symm, hk⟩
    split at e
    · cases e
    split at e
    · cases e
    · rename_i hle
      exact ih (k := k + 1) (Nat.not_lt.1 hle) e

theorem fits_of_le {n : Nat} (h : 8 ^ n ≤ 2 ^ 60) : Fits heapParams (n + 1) where
  pos := n.succ_pos
  size := by show 8 * 8 ^ n < 2 ^ 64; omega
  node := by show 8 ^ n < 2 ^ 64; omega
  trace _ := by decide

structure Held (config : DedicatedAllocatorConfig) (cuMem : Nat) (w : World) : Prop where
  cuMem_eq : w.alloc.cuMem = cuMem
  leaf_eq : w.alloc.leafSz = config.heapLeafSz
  leaf_pos : 0 < config.heapLeafSz
  tree : ∃ n intervals, 8 ^ n ≤ 2 ^ 60 ∧ 8 ^ n * config.heapLeafSz = config.heapMemorySz ∧
    Inv heapParams (n + 1) w.alloc.allocator intervals ∧
    (w.alloc.allocationMap.map Prod.snd).Perm intervals
  address : ∀ entry ∈ w.alloc.allocationMap, entry.1 = cuMem + entry.2.1 * config.heapLeafSz
  entry : ∀ r ∈ w.outs, ∃ I, (r.1, I) ∈ w.alloc.allocationMap ∧ r.2 ≤ I.2 * config.heapLeafSz
  inside : ∀ r ∈ w.outs, cuMem ≤ r.1 ∧ r.1 + r.2 ≤ cuMem + config.heapMemorySz
  apart : w.outs.Pairwise Apart

theorem held_make (e : make config cuMem = .ok a) : Held config cuMem ⟨a, []⟩ := by
  obtain ⟨height, e1, e⟩ := bind_eq_ok e
  obtain ⟨s, e2, e⟩ := bind_eq_ok e
  obtain rfl := Except.ok.inj e
  simp only [getTreeHeight] at e1
  split at e1
  · cases e1
  split at e1
  · cases e1
  rename_i hleaf hmul
  rw [getTreeHeightFromLeafCount] at e1
  split at e1
  · obtain rfl := Except.ok.inj e1
    cases e2
  obtain ⟨n, hn, rfl, hle⟩ := heightFrom_ok (k := 0) (by decide) e1
  obtain ⟨s', e3, hi⟩ := make_ok (fits_of_le hle)
  obtain rfl := Except.ok.inj (e3.symm.trans e2)
  refine ⟨rfl, rfl, Nat.pos_of_ne_zero hleaf, ⟨n, [], hle, ?_, hi, .nil⟩, ?_, ?_, ?_, .nil⟩
  · rw [← hn]
    exact Nat.div_mul_cancel (Nat.dvd_of_mod_eq_zero (not_not.1 hmul))
  all_goals simp

/-! ## `malloc` -/

theorem mulCeil_ok {sz leaf : Nat} (h0 : sz ≠ 0) (hsz : sz < 2 ^ 64) (hleaf : 0 < leaf) :
    ∃ round, mulCeil sz leaf = .ok round ∧ (round / leaf = 0 ∨ sz ≤ round / leaf * leaf) := by
  have hq : (sz - 1) / leaf ≤ sz - 1 := Nat.div_le_self ..
  have hslot : sizeT ((sz - 1) / leaf + 1) = (sz - 1) / leaf + 1 := sizeT_of_lt (by omega)
  have hlow : ((sz - 1) / leaf + 1) * leaf ≤ sz - 1 + leaf := by
    rw [Nat.succ_mul]
    exact Nat.add_le_add_right (Nat.div_mul_le_self ..) _
  have hup : sz - 1 < leaf * ((sz - 1) / leaf + 1) := Nat.lt_mul_div_succ _ hleaf
  refine ⟨sizeT (((sz - 1) / leaf + 1) * leaf), by simp [mulCeil, h0, hleaf.ne', hslot], ?_⟩
  rw [Nat.mul_comm] at hup
  generalize (sz - 1) / leaf + 1 = q at *
  by_cases hwrap : q * leaf < 2 ^ 64
  · rw [sizeT_of_lt hwrap, Nat.mul_div_cancel _ hleaf]
    exact .inr (by omega)
  · refine .inl (Nat.div_eq_of_lt ?_)
    have hmod : sizeT (q * leaf) = (q * leaf - 2 ^ 64) % 2 ^ 64 := Nat.mod_eq_sub_mod (by omega)
    have := Nat.mod_le (q * leaf - 2 ^ 64) (2 ^ 64)
    omega

/-- `malloc` gives null, throws without an effect, or hands out a new range. -/
theorem Held.malloc_ok (h : Held config cuMem w) (hpos : 0 < cuMem)
    (hmem : cuMem + config.heapMemorySz ≤ 2 ^ 64) {sz : Nat} (hsz : sz < 2 ^ 64) :
    (∃ mem, (mem = none ∨ mem = some 0) ∧ w.alloc.malloc sz = .ok (mem, w.alloc)) ∨
    ∃ p alloc, w.alloc.malloc sz = .ok (some (p + 1), alloc) ∧
      Held config cuMem ⟨alloc, (p + 1, sz) :: w.outs⟩ := by
  by_cases h0 : sz = 0
  · exact .inl ⟨_, .inr rfl, by simp only [malloc, if_pos h0]; rfl⟩
  obtain ⟨n, intervals, hn, hsize, hi, hperm⟩ := h.tree
  obtain ⟨round, eround, hround⟩ := mulCeil_ok h0 hsz (h.leaf_eq ▸ h.leaf_pos)
  have hbase := hi.baseSize (fits_of_le hn)
  simp only [malloc, if_neg h0, eround, ok_bind]
  generalize round / w.alloc.leafSz = leafCount at *
  rw [h.leaf_eq] at hround
  rcases hi.malloc_ok (fits_of_le hn) leafCount with ⟨-, e⟩ | ⟨⟨h1, -⟩, first, s, e, hle, hrun, hi'⟩
  · exact .inl ⟨none, .inl rfl, by rw [e]; rfl⟩
  replace hle : first + leafCount ≤ 8 ^ n := hbase ▸ hle
  have hend : first * config.heapLeafSz + leafCount * config.heapLeafSz ≤ config.heapMemorySz := by
    rw [← Nat.add_mul, ← hsize]
    exact Nat.mul_le_mul_right _ hle
  have hround' := hround.resolve_left (by omega)
  have hfirst : sizeT (first * w.alloc.leafSz) = first * config.heapLeafSz := by
    rw [h.leaf_eq]
    exact sizeT_of_lt (by omega)
  -- the leaves of the entries that the map holds end before the run or start behind it
  have hother : ∀ entry ∈ w.alloc.allocationMap, 0 < entry.2.2 ∧
      (entry.2.1 + entry.2.2 ≤ first ∨ first + leafCount ≤ entry.2.1) := by
    intro entry hentry
    have hI : entry.2 ∈ intervals := hperm.mem_iff.1 (List.mem_map_of_mem hentry)
    have hI0 := hi.pos _ hI
    refine ⟨hI0, ?_⟩
    by_contra hne
    exact hrun (max first entry.2.1) (by omega) (by omega) _ hI ⟨by omega, by omega⟩
  have hnew : (w.alloc.allocationMap.any fun entry =>
      entry.1 = w.alloc.cuMem + first * config.heapLeafSz) = false := by
    simp only [List.any_eq_false, decide_eq_true_eq]
    intro entry hentry heq
    rw [h.address entry hentry, h.cuMem_eq, Nat.add_left_cancel_iff,
      Nat.mul_left_inj h.leaf_pos.ne'] at heq
    have := hother entry hentry
    omega
  have hmem0 : w.alloc.cuMem + first * config.heapLeafSz =
      (w.alloc.cuMem + first * config.heapLeafSz - 1) + 1 := by
    have := h.cuMem_eq
    omega
  refine .inr ⟨w.alloc.cuMem + first * config.heapLeafSz - 1, { w.alloc with
    allocator := s
    allocationMap := (w.alloc.cuMem + first * config.heapLeafSz, (first, leafCount)) ::
      w.alloc.allocationMap }, ?_, ?_⟩
  · rw [← hmem0, e]
    simp only [ok_bind, hfirst, hnew]
    rfl
  rw [← hmem0, h.cuMem_eq]
  refine ⟨h.cuMem_eq, h.leaf_eq, h.leaf_pos, ⟨n, _, hn, hsize, hi', hperm.cons _⟩, ?_, ?_, ?_, ?_⟩
  · rintro entry (_ | ⟨_, hentry⟩)
    · rfl
    · exact h.address entry hentry
  · rintro r (_ | ⟨_, hr⟩)
    · exact ⟨_, .head _, hround'⟩
    · obtain ⟨I, hI, hle⟩ := h.entry r hr
      exact ⟨I, .tail _ hI, hle⟩
  · rintro r (_ | ⟨_, hr⟩)
    · omega
    · exact h.inside r hr
  · refine .cons (fun r hr => ?_) h.apart
    obtain ⟨I, hI, hr2⟩ := h.entry r hr
    have hr1 : r.1 = cuMem + I.1 * config.heapLeafSz := h.address _ hI
    have hI2 : I.1 + I.2 ≤ first ∨ first + leafCount ≤ I.1 := (hother _ hI).2
    rcases hI2 with hlt | hlt
    · have := Nat.mul_le_mul_right config.heapLeafSz hlt
      rw [Nat.add_mul] at this
      refine .inr ?_
      omega
    · have := Nat.mul_le_mul_right config.heapLeafSz hlt
      rw [Nat.add_mul] at this
      exact .inl (by dsimp only; omega)

/-! ## `free` -/

theorem Held.free_ok (h : Held config cuMem w) {ptr : Nat} (hptr : w.Allows (.free ptr)) :
    ∃ alloc, w.alloc.free ptr = .ok alloc ∧
      Held config cuMem ⟨alloc, w.outs.filter fun r => r.1 ≠ ptr⟩ := by
  have hinside : ∀ r ∈ w.outs.filter fun r => r.1 ≠ ptr, cuMem ≤ r.1 ∧
      r.1 + r.2 ≤ cuMem + config.heapMemorySz := fun r hr => h.inside r (List.mem_of_mem_filter hr)
  by_cases h0 : ptr = 0
  · refine ⟨_, by rw [free, if_pos h0], { h with inside := hinside, apart := h.apart.filter _, entry := ?_ }⟩
    exact fun r hr => h.entry r (List.mem_of_mem_filter hr)
  obtain ⟨n, intervals, hn, hsize, hi, hperm⟩ := h.tree
  cases hfind : w.alloc.allocationMap.find? fun entry => entry.1 = ptr with
  | none =>
    obtain ⟨sz, hr⟩ := hptr.resolve_left h0
    obtain ⟨I, hI, -⟩ := h.entry _ hr
    simpa using List.find?_eq_none.1 hfind _ hI
  | some entry =>
    have hmem : entry ∈ w.alloc.allocationMap := List.mem_of_find?_eq_some hfind
    have hkey : entry.1 = ptr := by simpa using List.find?_some hfind
    have hI : entry.2 ∈ intervals := hperm.mem_iff.1 (List.mem_map_of_mem hmem)
    obtain ⟨s, e, hi'⟩ := hi.free_ok (fits_of_le hn) hI
    have hrest : ((w.alloc.allocationMap.erase entry).map Prod.snd).Perm (intervals.erase entry.2) := by
      have h1 := (List.perm_cons_erase hmem).map Prod.snd
      exact (h1.symm.trans (hperm.trans (List.perm_cons_erase hI))).cons_inv
    refine ⟨{ w.alloc with allocator := s, allocationMap := w.alloc.allocationMap.erase entry }, ?_,
      h.cuMem_eq, h.leaf_eq, h.leaf_pos, ⟨n, _, hn, hsize, hi', hrest⟩,
      fun x hx => h.address x (List.mem_of_mem_erase hx), fun r hr => ?_, hinside, h.apart.filter _⟩
    · simp only [free, if_neg h0, hfind, e, ok_bind]
      rfl
    · obtain ⟨hr, hne⟩ := List.mem_filter.1 hr
      obtain ⟨I, hI, hle⟩ := h.entry r hr
      refine ⟨I, (List.mem_erase_of_ne ?_).2 hI, hle⟩
      rintro rfl
      simp [← hkey] at hne

/-! ## Main result -/

theorem Held.step (h : Held config cuMem w) (hpos : 0 < cuMem)
    (hmem : cuMem + config.heapMemorySz ≤ 2 ^ 64) {op : Op} (hop : w.Allows op) {w' : World}
    (e : w.step op = .ok w') : Held config cuMem w' := by
  cases op with
  | malloc sz =>
    rcases h.malloc_ok hpos hmem hop with ⟨mem, rfl | rfl, e'⟩ | ⟨p, alloc, e', h'⟩ <;>
      simp only [World.step, e', ok_bind] at e <;> cases e
    · exact h
    · exact h
    · exact h'
  | free ptr =>
    obtain ⟨alloc, e', h'⟩ := h.free_ok hop
    simp only [World.step, e', ok_bind] at e
    cases e
    exact h'

/-- **In every run the ranges handed out lie in the heap and apart from each other; a `malloc` of any
size that throws changes nothing, and neither call aborts.** -/
theorem malloc_disjoint (hpos : 0 < cuMem) (hmem : cuMem + config.heapMemorySz ≤ 2 ^ 64)
    {hist : List Op} (hr : Run.Reach (fun w => ∃ a, make config cuMem = .ok a ∧ w = ⟨a, []⟩)
      (fun w op w' => w.Allows op ∧ w.step op = .ok w') w hist) :
    (∀ r ∈ w.outs, cuMem ≤ r.1 ∧ r.1 + r.2 ≤ cuMem + config.heapMemorySz) ∧
    w.outs.Pairwise Apart ∧
    (∀ sz < 2 ^ 64, ∃ mem alloc, w.alloc.malloc sz = .ok (mem, alloc) ∧
      (mem = none → alloc = w.alloc)) ∧
    ∀ ptr, (ptr = 0 ∨ ∃ sz, (ptr, sz) ∈ w.outs) → ∃ alloc, w.alloc.free ptr = .ok alloc := by
  have h : Held config cuMem w := by
    apply hr.inv fun w _ => Held config cuMem w
    · rintro w ⟨a, e, rfl⟩
      exact held_make e
    · rintro w hist op w' h ⟨hop, e⟩
      exact h.step hpos hmem hop e
  refine ⟨h.inside, h.apart, fun sz hsz => ?_, fun ptr hptr => ?_⟩
  · rcases h.malloc_ok hpos hmem hsz with ⟨mem, -, e⟩ | ⟨p, alloc, e, -⟩
    · exact ⟨mem, _, e, fun _ => rfl⟩
    · exact ⟨_, _, e, fun hn => by cases hn⟩
  · obtain ⟨alloc, e, -⟩ := h.free_ok hptr
    exact ⟨alloc, e⟩

/-- A heap of eight leaves of ten bytes, after a request for five bytes. -/
theorem malloc_disjoint_eight : ∃ w w' : World, w.step (.malloc 5) = .ok w' ∧
    (∀ r ∈ w'.outs, 100 ≤ r.1 ∧ r.1 + r.2 ≤ 180) ∧ w'.outs.Pairwise Apart := by
  obtain ⟨s, hs, -⟩ := make_ok (fits_of_le (show 8 ^ 1 ≤ 2 ^ 60 by decide))
  have hmake : make ⟨80, 10⟩ 100 = .ok ⟨s, 100, 10, []⟩ := by
    rw [make, show getTreeHeight 80 10 = .ok 2 from rfl, ok_bind, hs]
    rfl
  have hr : Run.Reach (fun w => ∃ a, make ⟨80, 10⟩ 100 = .ok a ∧ w = ⟨a, []⟩)
      (fun w op w' => w.Allows op ∧ w.step op = .ok w') (World.mk ⟨s, 100, 10, []⟩ []) [] :=
    .init ⟨_, hmake, rfl⟩
  obtain ⟨-, -, hmalloc, -⟩ := malloc_disjoint (by decide) (by decide) hr
  obtain ⟨mem, alloc, e, -⟩ := hmalloc 5 (by decide)
  have hstep : ∃ w', World.step ⟨⟨s, 100, 10, []⟩, []⟩ (.malloc 5) = .ok w' := by
    simp only [World.step, e, ok_bind]
    rcases mem with _ | _ | p <;> exact ⟨_, rfl⟩
  obtain ⟨w', e'⟩ := hstep
  have h := malloc_disjoint (by decide) (by decide) (hr.step (a := Op.malloc 5) ⟨show 5 < 2 ^ 64 by decide, e'⟩)
  exact ⟨_, w', e', h.1, h.2.1⟩

end DedicatedAllocator

end CudaMalloc
