import NeuralNetwork.AllocationBase.Caller
import NeuralNetwork.AllocationBase.Proof.DistributedAllocator
import NeuralNetwork.AllocationBase.Proof.LargeSmallAllocator
import NeuralNetwork.Lib.Run

/-!
# The whole allocation stack

A caller of the round bucket allocator over the distributed one. In every run whose requests are at most
`2 ^ 63 - 8`, **`usable`**: each outstanding block has the bytes asked for in a region of its own behind its
headers, these lead back to the start of the region, its unit and its bucket, and what is not held is in the
list of its bucket.
-/

namespace AllocationBase.GlobalAllocator.RoundBucketAffinedAllocator

open Cpp Loop Region HashTable AffinedAllocator LargeSmallAffinedAllocator DistributedAllocator

/-! ## Sizes -/

/-- **A size is not shrunk.** -/
theorem promoteSize_ok {sz : Nat} (h : sz ≤ 2 ^ 63 - 8) :
    ∃ n, promoteSize sz = .ok n ∧ sz ≤ n ∧ n ≤ 2 ^ 63 - 8 := by
  have hle : sz + slackBufferSz ≤ 2 ^ 63 := by
    simp only [slackBufferSz]
    omega
  obtain ⟨e, he, hc, hge⟩ := Stdx.ceil2_ok hle
  have hpow : 2 ^ e ≤ 2 ^ 63 := Nat.pow_le_pow_right (by decide) (by omega)
  simp only [slackBufferSz] at hle hc hge
  refine ⟨2 ^ e - 8, ?_, by omega, by omega⟩
  simp only [promoteSize, slackBufferSz]
  rw [sizeT_of_lt (by omega), hc, ok_bind, subT_of_le (by omega) (by omega)]

/-! ## The stack as a whole -/

/-- What the frees of all layers read before a block: the unit, the start of the region and its bucket. -/
def released (m : Memory) (buf : Ptr) : Except Fault (Nat × Ptr × Nat) := do
  let header ← readAllocationHeader buf m
  let internalPtr ← buf.prev 1
  let given ← (if header = smallAllocationFlag then internalPtr.prev 4 else .ok internalPtr)
  let (idx, bufHead) ← owner m given
  let (org, bucketIdx) ← BinaryUnitAllocator.toOriginalBuffer bufHead m
  .ok (idx, org, bucketIdx)

/-- The region of the block is the unit's own and has `2 ^ bucket` bytes, the block has its bytes in it
behind at least three of headers, and they lead back. -/
structure Served (w : World DistributedAllocator) (b : Block) (idx bucket : Nat) : Prop where
  owned : ∃ u, w.2.1.allocatorVec[idx]? = some u ∧ b.ptr.block ∈ u.raiiBufVec
  size : w.2.2.sizes[b.ptr.block]? = some (2 ^ bucket)
  headers : 3 ≤ b.ptr.offset
  usable : b.ptr.offset + b.size ≤ 2 ^ bucket
  released : released w.2.2 b.ptr = .ok (idx, ⟨b.ptr.block, 0⟩, bucket)

/-- The regions of the blocks that are out, cached or about to be freed. -/
def held (s : Caller DistributedAllocator) : List Nat :=
  s.outstanding.map (·.ptr.block) ++ (cachedBlocks s.world.1).map (·.ptr.block) ++
    s.world.1.freeVec.map Ptr.block

/-- A region is in the list of its unit, of the bucket that its size says. -/
def Idle (w : World DistributedAllocator) (u : BinaryUnitAllocator) (r : Nat) : Prop :=
  ∃ e ∈ u.unitMap, ⟨r, 1⟩ ∈ e.2 ∧ w.2.2.sizes[r]? = some (2 ^ e.1)

variable {env : Env} {iteration : Order (Nat × List Ptr)} {w : World DistributedAllocator}
  {s s' : Caller DistributedAllocator} {live live' : List Block} {b : Block} {m : Memory}
  {hist : List Call} {c : Call}

/-- The invariant: a block of the caller is one of the layer below with at least its size. -/
def StackInv (w : World DistributedAllocator) (live : List Block) : Prop :=
  ∃ promoted : List (Block × Nat), (promoted.map fun x => ⟨x.1.ptr, x.2⟩).Perm live ∧
    (∀ x ∈ promoted, 0 < x.2 ∧ x.2 ≤ x.1.size) ∧ LargeSmallInv DistInv w (promoted.map Prod.fst)

def Fits : Call → Prop
  | .malloc sz => sz ≤ 2 ^ 63 - 8
  | _ => True

theorem StackInv.malloc_ok (h : StackInv w live) (env : Env) (iteration : Order (Nat × List Ptr))
    {sz : Nat} (hsz : sz ≤ 2 ^ 63 - 8) : Ends env.Short (malloc (allocator env) iteration sz w) fun r =>
      (r.1 = none → sz = 0) ∧ StackInv r.2 ((r.1.map fun p => (⟨p, sz⟩ : Block)).toList ++ live) := by
  obtain ⟨n, hn, hle, hmax⟩ := promoteSize_ok hsz
  obtain ⟨promoted, hperm, hsizes, hi⟩ := h
  unfold malloc
  rw [hn, ok_bind]
  rcases Nat.eq_zero_or_pos sz with rfl | hpos
  · have hzero : promoteSize 0 = .ok 0 := by decide
    obtain rfl := Except.ok.inj (hzero.symm.trans hn)
    exact .ok ⟨fun _ => rfl, promoted, hperm, hsizes, hi⟩
  · refine (LargeSmallInv.malloc_ok (lawful env) (by decide) (by decide) hi iteration (by omega)
      (by omega)).mono fun r hr => ?_
    obtain ⟨b, hb, rfl, hi'⟩ := hr
    rw [hb]
    exact ⟨nofun, (b, sz) :: promoted, hperm.cons _,
      fun x hx => (List.mem_cons.1 hx).elim (fun e => e ▸ ⟨hpos, hle⟩) (hsizes x), hi'⟩

theorem StackInv.keeps (env : Env) (iteration : Order (Nat × List Ptr)) :
    Caller.Keeps (free (allocator env) iteration) StackInv where
  perm := by
    intro w live live' hi hp
    obtain ⟨promoted, hperm, h⟩ := hi
    exact ⟨promoted, hperm.trans hp, h⟩
  free_null _ := rfl
  free := by
    intro w b live hi
    obtain ⟨promoted, hperm, hsizes, hi⟩ := hi
    obtain ⟨all, hall, hmap⟩ := exists_perm_map hperm
    cases all with
    | nil => cases hmap
    | cons x all =>
      obtain ⟨rfl, rfl⟩ := List.cons.inj hmap
      obtain ⟨w', e, hi'⟩ := (hi.perm (hall.map Prod.fst).symm).free_ok (lawful env) iteration
      exact ⟨w', e, all, .refl _, fun y hy => hsizes y (hall.mem_iff.1 (List.mem_cons_of_mem _ hy)), hi'⟩
  write := by
    intro w b live p bs hi hw
    obtain ⟨promoted, hperm, hsizes, hi⟩ := hi
    obtain ⟨all, hall, hmap⟩ := exists_perm_map hperm
    cases all with
    | nil => cases hmap
    | cons x all =>
      obtain ⟨rfl, rfl⟩ := List.cons.inj hmap
      have hx := hsizes x (hall.mem_iff.1 List.mem_cons_self)
      have hw' : Block.Within p bs.length x.1 := ⟨hw.1, hw.2.1, hw.2.2.trans (Nat.add_le_add_left hx.2 _)⟩
      obtain ⟨m', e, hi'⟩ := (hi.perm (hall.map Prod.fst).symm).write (lawful env) bs hw'
      exact ⟨m', e, x :: all, .refl _, fun y hy => hsizes y (hall.mem_iff.1 hy), hi'⟩

/-! ## What the invariant says -/

theorem StackInv.base (h : StackInv w live) : ∃ (promoted : List (Block × Nat)) (small large pend : List Block),
    (promoted.map fun x => ⟨x.1.ptr, x.2⟩).Perm live ∧ (∀ x ∈ promoted, 0 < x.2 ∧ x.2 ≤ x.1.size) ∧
    (small ++ large).Perm (promoted.map Prod.fst) ∧ pend.map Block.ptr = w.1.freeVec ∧
    (∀ b ∈ small, Flagged w.2.2 smallAllocationFlag b ∧ 4 ≤ (b.outer 1).ptr.offset) ∧
    (∀ b ∈ large, Flagged w.2.2 largeAllocationFlag b) ∧
    DistInv w.2.1 w.2.2 (pend ++ ((small.map (Block.outer 1) ++ cachedBlocks w.1).map (Block.outer 4) ++
      large.map (Block.outer 1))) := by
  obtain ⟨promoted, hperm, hsizes, small, large, hsl, haff, hsmall, hlarge⟩ := h
  obtain ⟨pend, hptr, -, hi⟩ := haff.pending
  refine ⟨promoted, small, large, pend, hperm, hsizes, hsl, hptr, fun b hb => ⟨hsmall b hb, ?_⟩, hlarge, hi⟩
  exact (haff.sized _ (List.mem_append_left _ (List.mem_map_of_mem hb))).offset

theorem StackInv.served (h : StackInv w live) (hb : b ∈ live) :
    ∃ idx bucket, Served w b idx bucket := by
  obtain ⟨promoted, small, large, pend, hperm, hsizes, hsl, -, hsmall, hlarge, hi⟩ := h.base
  obtain ⟨x, hx, rfl⟩ := List.mem_map.1 (hperm.mem_iff.2 hb)
  obtain ⟨hpos, hle⟩ := hsizes x hx
  rcases List.mem_append.1 (hsl.mem_iff.2 (List.mem_map_of_mem hx)) with hm | hm
  · obtain ⟨hf, hoff⟩ := hsmall _ hm
    obtain ⟨idx, k, hu, hsize, ho, hle', howner, horg⟩ := hi.block_ok (b := (x.1.outer 1).outer 4)
      (List.mem_append_right _ (List.mem_append_left _ (List.mem_map_of_mem
        (List.mem_append_left _ (List.mem_map_of_mem hm)))))
    have hread := LargeSmallInv.readAllocationHeader_ok hf (by decide)
    have hpre := hf.offset
    have hreleased : RoundBucketAffinedAllocator.released w.2.2 x.1.ptr =
        .ok (idx, ⟨x.1.ptr.block, 0⟩, k) := by
      rw [RoundBucketAffinedAllocator.released, hread, ok_bind, Block.prev_ptr hf.offset, ok_bind,
        if_pos rfl, Block.prev_ptr hoff, ok_bind, howner, ok_bind]
      exact congrArg (· >>= _) horg
    simp only [Block.outer] at ho hle' hoff
    exact ⟨idx, k, hu, hsize, by dsimp only; omega, by dsimp only; omega, hreleased⟩
  · have hf := hlarge _ hm
    obtain ⟨idx, k, hu, hsize, ho, hle', howner, horg⟩ := hi.block_ok (b := x.1.outer 1)
      (List.mem_append_right _ (List.mem_append_right _ (List.mem_map_of_mem hm)))
    have hread := LargeSmallInv.readAllocationHeader_ok hf (by decide)
    have hpre := hf.offset
    have hreleased : RoundBucketAffinedAllocator.released w.2.2 x.1.ptr =
        .ok (idx, ⟨x.1.ptr.block, 0⟩, k) := by
      rw [RoundBucketAffinedAllocator.released, hread, ok_bind, Block.prev_ptr hf.offset, ok_bind,
        if_neg (by decide), ok_bind, howner, ok_bind]
      exact congrArg (· >>= _) horg
    simp only [Block.outer] at ho hle'
    exact ⟨idx, k, hu, hsize, by dsimp only; omega, by dsimp only; omega, hreleased⟩

theorem StackInv.disjoint (h : StackInv w live) : (live.map (·.ptr.block)).Nodup := by
  obtain ⟨promoted, small, large, pend, hperm, -, hsl, -, -, -, tagged, htags, ht⟩ := h.base
  have hnodup := (htags.map (·.ptr.block)).nodup_iff.1 (by rw [List.map_map]; exact ht.nodup)
  rw [List.map_append, List.nodup_append] at hnodup
  have hrest := hnodup.2.1
  rw [List.map_append, List.map_map, List.map_map, List.map_append, List.map_map] at hrest
  refine (hperm.map (·.ptr.block)).nodup_iff.1 ?_
  rw [List.map_map]
  have hfst : ((small ++ large).map (·.ptr.block)).Nodup := by
    rw [List.map_append]
    exact hrest.sublist ((List.sublist_append_left _ _).append_right _)
  have := (hsl.map (·.ptr.block)).nodup_iff.1 hfst
  rwa [List.map_map] at this

theorem StackInv.owned_cases (h : StackInv s.world s.outstanding) {idx : Nat} {u : BinaryUnitAllocator}
    (hu : s.world.2.1.allocatorVec[idx]? = some u) {r : Nat} (hr : r ∈ u.raiiBufVec) :
    r ∈ held s ∨ Idle s.world u r := by
  obtain ⟨promoted, small, large, pend, hperm, -, hsl, hptr, -, -, hi⟩ := h.base
  have hout : ∀ b ∈ small ++ large, b.ptr.block ∈ s.outstanding.map (·.ptr.block) := by
    intro b hb
    obtain ⟨x, hx, rfl⟩ := List.mem_map.1 (hsl.mem_iff.1 hb)
    refine List.mem_map.2 ⟨⟨x.1.ptr, x.2⟩, hperm.mem_iff.1 ?_, rfl⟩
    exact List.mem_map_of_mem (f := fun x : Block × Nat => (⟨x.1.ptr, x.2⟩ : Block)) hx
  refine (hi.owned_cases hu hr).imp (fun hb => ?_) id
  obtain ⟨b, hb, rfl⟩ := hb
  rcases List.mem_append.1 hb with hb | hb
  · refine List.mem_append_right _ (List.mem_map.2 ⟨b.ptr, ?_, rfl⟩)
    rw [← hptr]
    exact List.mem_map_of_mem hb
  rcases List.mem_append.1 hb with hb | hb
  · obtain ⟨c, hc, rfl⟩ := List.mem_map.1 hb
    rcases List.mem_append.1 hc with hc | hc
    · obtain ⟨d, hd, rfl⟩ := List.mem_map.1 hc
      exact List.mem_append_left _ (List.mem_append_left _ (hout d (List.mem_append_left _ hd)))
    · exact List.mem_append_left _ (List.mem_append_right _ (List.mem_map.2 ⟨c, hc, rfl⟩))
  · obtain ⟨d, hd, rfl⟩ := List.mem_map.1 hb
    exact List.mem_append_left _ (List.mem_append_left _ (hout d (List.mem_append_right _ hd)))

/-! ## Runs -/

def call (env : Env) (iteration : Order (Nat × List Ptr)) :
    Caller DistributedAllocator → Call → Except Fault (Option (Caller DistributedAllocator)) :=
  Caller.call (malloc (allocator env) iteration) (free (allocator env) iteration)

def Step (env : Env) (iteration : Order (Nat × List Ptr)) :
    Caller DistributedAllocator → Call → Caller DistributedAllocator → Prop :=
  Caller.Step (malloc (allocator env) iteration) (free (allocator env) iteration)

/-- Nothing was asked for yet, with any regions of others in the memory. -/
def start (m : Memory) : Caller DistributedAllocator := ⟨(.make, .make, m), []⟩

theorem stackInv_start (m : Memory) : StackInv (start m).world (start m).outstanding := by
  refine ⟨[], .refl _, nofun, [], [], .refl _, ⟨⟨List.nodup_nil, rfl,
    fun q hq => List.eq_of_mem_replicate hq, by simp [start, AffinedAllocator.make]⟩, nofun, [], rfl,
    Nat.zero_le _, distInv_make m⟩, nofun, nofun⟩

theorem StackInv.call (h : StackInv s.world s.outstanding) (iteration : Order (Nat × List Ptr)) {c : Call}
    (hc : Fits c) : Ends env.Short (call env iteration s c)
      fun r => ∀ s', r = some s' → StackInv s'.world s'.outstanding := by
  refine Caller.call_ends (StackInv.keeps env iteration) h c fun sz e => ?_
  subst e
  exact (h.malloc_ok env iteration hc).mono fun r hr => hr.2

theorem StackInv.reach (hfits : ∀ c ∈ hist, Fits c)
    (h : Run.Reach (· = start m) (Step env iteration) s hist) : StackInv s.world s.outstanding := by
  refine h.inv (fun s hist => (∀ c ∈ hist, Fits c) → StackInv s.world s.outstanding)
    (fun _ e _ => e ▸ stackInv_start m) (fun s hist c s' hi hs hf => ?_) hfits
  have hbefore := hi fun d hd => hf d (List.mem_append_left _ hd)
  exact (hbefore.call iteration (hf c (by simp))).of_eq_ok hs s' rfl

/-- **The stack serves its callers.** In every run whose requests are at most `2 ^ 63 - 8`: an outstanding
block has the bytes asked for behind its headers, in a region of its own, and its headers name the unit, the
start and the bucket of that region; a region that is not held is in the list of its unit and bucket; a
request for a byte gets a block; and a call aborts only if `std::malloc` refused. -/
theorem usable (hfits : ∀ c ∈ hist, Fits c)
    (h : Run.Reach (· = start m) (Step env iteration) s hist) :
    (∀ b ∈ s.outstanding, ∃ idx bucket, Served s.world b idx bucket) ∧
      (s.outstanding.map (·.ptr.block)).Nodup ∧
      (∀ (idx : Nat) (u : BinaryUnitAllocator), s.world.2.1.allocatorVec[idx]? = some u → ∀ r ∈ u.raiiBufVec,
        r ∈ held s ∨ Idle s.world u r) ∧
      (∀ sz w, sz ≤ 2 ^ 63 - 8 → malloc (allocator env) iteration sz s.world = .ok (none, w) → sz = 0) ∧
      ∀ c fault, Fits c → call env iteration s c = .error fault → fault = .abort ∧ env.Short := by
  have hi := StackInv.reach hfits h
  exact ⟨fun b hb => hi.served hb, hi.disjoint, fun idx u hu r hr => hi.owned_cases hu hr,
    fun sz w hsz e => ((hi.malloc_ok env iteration hsz).of_eq_ok e).1 rfl,
    fun c fault hc e => (hi.call iteration hc).of_eq_error e⟩

def sampleEnv : Env := ⟨fun _ _ => true, fun calls i => calls + i, fun _ => 0⟩

/-- A small block that is written to, a large one, and the small one given back. -/
def sampleCalls : List Call :=
  [.malloc 10, .malloc 20000, .write ⟨15, 7⟩ [1#8], .free (some ⟨15, 7⟩)]

theorem usable_sample : ∃ s : Caller DistributedAllocator, s.outstanding = [⟨⟨16, 3⟩, 20000⟩] ∧
    (∃ idx bucket, Served s.world ⟨⟨16, 3⟩, 20000⟩ idx bucket) ∧
    ∀ (idx : Nat) (u : BinaryUnitAllocator), s.world.2.1.allocatorVec[idx]? = some u → ∀ r ∈ u.raiiBufVec,
      r ∈ held s ∨ Idle s.world u r := by
  have hrun : (sampleCalls.foldlM (fun s c => Run.ofStep (call sampleEnv (Order.id _) s c))
      (start ⟨[], fun _ => 0⟩)).map (·.outstanding) = some [⟨⟨16, 3⟩, 20000⟩] := by
    decide +kernel
  obtain ⟨s, hs, hout⟩ := Option.map_eq_some_iff.1 hrun
  have hinit : Run.Reach (· = start ⟨[], fun _ => 0⟩) (Step sampleEnv (Order.id _))
      (start ⟨[], fun _ => 0⟩) [] := .init rfl
  have hfits : ∀ c ∈ [] ++ sampleCalls, Fits c := by
    simp [sampleCalls, Fits]
  obtain ⟨hserved, -, howned, -⟩ := usable hfits (hinit.runM (fun e => e) hs)
  exact ⟨s, hout, hserved _ (by rw [hout]; exact List.mem_singleton.2 rfl), howned⟩

/-- A request of `2 ^ 63` bytes shifts by 64, and one of `2 ^ 64 - 1` is taken for a request of none. -/
theorem usable_fails :
    (∀ (env : Env) (iteration : Order (Nat × List Ptr)) (w : World DistributedAllocator),
      malloc (allocator env) iteration (2 ^ 63) w = .error .undefined) ∧
    ∀ (env : Env) (iteration : Order (Nat × List Ptr)) (w : World DistributedAllocator),
      malloc (allocator env) iteration (2 ^ 64 - 1) w = .ok (none, w) := by
  have h1 : promoteSize (2 ^ 63) = .error .undefined := by decide +kernel
  have h2 : promoteSize (2 ^ 64 - 1) = .ok 0 := by decide +kernel
  refine ⟨fun env iteration w => ?_, fun env iteration w => ?_⟩
  · rw [malloc, h1]
    rfl
  · rw [malloc, h2]
    rfl

end AllocationBase.GlobalAllocator.RoundBucketAffinedAllocator
