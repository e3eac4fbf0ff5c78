import NeuralNetwork.AllocationBase.Proof.RoundBucketAllocator
import NeuralNetwork.MemoryManagement.ConventionalAllocator

/-!
# Aligned allocations

`dg_aligned_alloc` and `object_malloc` ask for a larger block than their caller and write before the
aligned pointer how far it is from the start. **`aligned_allocations`**: the pointer is aligned, it and its
header are of the larger block, and the frees find the start of that block again.
-/

namespace AllocationBase.AlignedAllocation

open Cpp Loop Region
open GlobalAllocator (dgAlign dgAlignedAlloc dgAlignedFree)
open ConventionalAllocator (objectMalloc objectFree)

variable {σ : Type} {addr : Nat → Nat} {m m' : Memory} {p q : Ptr} {k n width sz : Nat}

structure Granted (addr : Nat → Nat) (m : Memory) (b : Block) : Prop where
  inside : m.Inside b.ptr b.size
  fits : b.ptr.address addr + b.size ≤ 2 ^ 64

def header (width : Nat) (q : Ptr) : Block := ⟨⟨q.block, q.offset - width⟩, width⟩

/-- The region of the pointer is still there, with the same header. -/
structure Spared (width : Nat) (q : Ptr) (m m' : Memory) : Prop where
  region : m'.sizes.getD q.block 0 = m.sizes.getD q.block 0
  bytes : ∀ x, (header width q).Covers x → m'.bytes x = m.bytes x

/-- The pointer `q` for `sz` bytes is aligned in the block `b`, which is given back with it. -/
structure Serves (free giveBack : Option Ptr → σ × Memory → Except Fault (σ × Memory))
    (addr : Nat → Nat) (a width sz : Nat) (b : Block) (m : Memory) (q : Ptr) : Prop where
  aligned : a ∣ q.address addr
  header_le : width ≤ q.offset
  header : Block.Within (header width q).ptr width b
  payload : Block.Within q sz b
  recovers : ∀ s m', Spared width q m m' → free (some q) (s, m') = giveBack (some b.ptr) (s, m')

/-! ## Where the pointer is -/

/-- The pointer behind a header of `width` bytes, and that header. -/
structure Placed (addr : Nat → Nat) (k width : Nat) (p q : Ptr) : Prop where
  block : q.block = p.block
  le : p.offset + width ≤ q.offset
  lt : q.offset < p.offset + width + 2 ^ k
  aligned : 2 ^ k ∣ q.address addr

theorem exists_placed (hk : k < 64) (hsz : 0 < sz) (hn : n = sz + (width + (2 ^ k - 1)))
    (hfits : p.address addr + n ≤ 2 ^ 64) :
    ∃ q, (p.next width).alignUp addr (2 ^ k) = .ok q ∧ Placed addr k width p q := by
  have hpos := Nat.two_pow_pos k
  have hfit : (p.next width).address addr + 2 ^ k ≤ 2 ^ 64 := by
    unfold Ptr.address at hfits ⊢
    simp only [Ptr.next]
    omega
  obtain ⟨q, hq, hblock, hle, hlt, haligned⟩ := Ptr.alignUp_ok hk hfit
  exact ⟨q, hq, hblock, hle, hlt, haligned⟩

namespace Placed

variable {bs : List Byte}

section

variable (h : Placed addr k width p q)

include h

theorem header_within (hn : n = sz + (width + (2 ^ k - 1))) (hsz : 0 < sz) :
    Block.Within (header width q).ptr width ⟨p, n⟩ := by
  have hpos := Nat.two_pow_pos k
  have hle := h.le
  have hlt := h.lt
  refine ⟨h.block, ?_, ?_⟩
  · simp only [header]
    omega
  · simp only [header]
    omega

theorem payload_within (hn : n = sz + (width + (2 ^ k - 1))) :
    Block.Within q sz ⟨p, n⟩ := by
  have hpos := Nat.two_pow_pos k
  have hle := h.le
  have hlt := h.lt
  refine ⟨h.block, ?_, ?_⟩
  · dsimp only
    omega
  · dsimp only
    omega

theorem prev : q.prev width = .ok (header width q).ptr :=
  if_pos (Nat.le_trans (Nat.le_add_left _ _) h.le)

theorem store_ok (hn : n = sz + (width + (2 ^ k - 1))) (hsz : 0 < sz)
    (hin : m.Inside p n) (hbs : bs.length = width) : ∃ m', m.store (header width q).ptr bs = .ok m' := by
  refine Memory.store_ok bs ?_
  rw [hbs]
  have hw := h.header_within hn hsz
  exact hin.of_offset hw.1 hw.2.2

end

theorem load_ok (hbs : bs.length = width) (hm : m.store (header width q).ptr bs = .ok m') {m2 : Memory}
    (hs : Spared width q m' m2) : m2.load (header width q).ptr width = .ok bs := by
  have hload := Memory.load_store hm
  rw [hbs] at hload
  rw [← hload]
  refine Memory.load_congr ?_ hs.bytes
  exact iff_of_eq (congrArg (_ ≤ ·) hs.region)

end Placed

/-! ## dg_aligned_alloc -/

theorem dgAlignedAlloc_ok (base : BlockAllocator σ) {w : σ × Memory} {s : σ} {blkSz : Nat} {ptr : Ptr}
    (hk : 2 ^ k + 3 ≤ 2 ^ 32 - 1) (hpos : 0 < blkSz) (hfit : blkSz + (2 ^ k + 3) < 2 ^ 64)
    (hbase : base.malloc (blkSz + (2 ^ k + 3)) w = .ok (some (some ptr), s, m))
    (hg : Granted addr m ⟨ptr, blkSz + (2 ^ k + 3)⟩) :
    ∃ q m', dgAlignedAlloc base addr (2 ^ k) blkSz w = .ok (some (some q), s, m') ∧
      Serves (dgAlignedFree base) base.free addr (2 ^ k) 4 blkSz ⟨ptr, blkSz + (2 ^ k + 3)⟩ m' q := by
  have hk64 : k < 64 := by
    by_contra h
    have := Nat.pow_le_pow_right Nat.two_pos (Nat.not_lt.1 h)
    omega
  have hone := Nat.two_pow_pos k
  have hn : blkSz + (2 ^ k + 3) = blkSz + (4 + (2 ^ k - 1)) := by omega
  obtain ⟨q, hq, hplaced⟩ : ∃ q, (ptr.next 4).alignUp addr (2 ^ k) = .ok q ∧ Placed addr k 4 ptr q :=
    exists_placed hk64 hpos hn hg.fits
  have hle := hplaced.le
  have hlt := hplaced.lt
  let bs := LittleEndian.bytes 4 (q.offset - ptr.offset)
  have hbs : bs.length = 4 := LittleEndian.length_bytes _ _
  obtain ⟨m', hm⟩ := hplaced.store_ok hn hpos hg.inside hbs
  refine ⟨q, m', ?_, hplaced.aligned, ?_, hplaced.header_within hn hpos, hplaced.payload_within hn,
    fun s2 m2 hs => ?_⟩
  · have halign : dgAlign addr (ptr.next 4) (2 ^ k) = .ok q := by
      unfold dgAlign
      rw [if_neg (not_not_intro (Stdx.isPow2_two_pow k)), hq]
    unfold dgAlignedAlloc
    rw [if_neg (not_not_intro (Stdx.isPow2_two_pow k)), sizeT_of_lt (by omega)]
    dsimp only
    rw [if_neg (by omega), if_neg (by omega), sizeT_of_lt (by omega), hbase]
    simp only [ok_bind, halign, hplaced.prev]
    exact congrArg (· >>= _) hm
  · omega
  · have hvalue : LittleEndian.value bs = q.offset - ptr.offset := by
      rw [LittleEndian.value_bytes]
      exact Nat.mod_eq_of_lt (by omega)
    have horg : q.prev (q.offset - ptr.offset) = .ok ptr := Ptr.prev_sub hplaced.block (by omega)
    simp only [dgAlignedFree, hplaced.prev, ok_bind, Placed.load_ok hbs hm hs, hvalue, horg]

/-! ## object_malloc -/

def paddedSize (sizeofT alignofT objectCount : Nat) : Nat :=
  objectCount * sizeofT + (2 + (alignofT - 1))

theorem objectMalloc_ok (allocator : BlockAllocator σ) {w : σ × Memory} {s : σ} {sizeofT objectCount : Nat}
    {buf : Ptr} (hk : k ≤ 16) (hsize : 0 < sizeofT) (hcount : 0 < objectCount)
    (hfit : paddedSize sizeofT (2 ^ k) objectCount < 2 ^ 64)
    (hbase : allocator.malloc (paddedSize sizeofT (2 ^ k) objectCount) w = .ok (some (some buf), s, m))
    (hg : Granted addr m ⟨buf, paddedSize sizeofT (2 ^ k) objectCount⟩) :
    ∃ q m', objectMalloc allocator addr sizeofT (2 ^ k) objectCount w = .ok (some (some q), s, m') ∧
      Serves (objectFree allocator) allocator.free addr (2 ^ k) 2 (objectCount * sizeofT)
        ⟨buf, paddedSize sizeofT (2 ^ k) objectCount⟩ m' q := by
  unfold paddedSize at *
  have hpos : 0 < objectCount * sizeofT := Nat.mul_pos hcount hsize
  have hpow : 2 ^ k ≤ 2 ^ 16 := Nat.pow_le_pow_right Nat.two_pos hk
  obtain ⟨q, hq, hplaced⟩ : ∃ q, (buf.next 2).alignUp addr (2 ^ k) = .ok q ∧ Placed addr k 2 buf q :=
    exists_placed (by omega) hpos rfl hg.fits
  have hle := hplaced.le
  have hlt := hplaced.lt
  let bs := LittleEndian.bytes 2 (q.offset - (buf.next 2).offset)
  have hbs : bs.length = 2 := LittleEndian.length_bytes _ _
  obtain ⟨m', hm⟩ := hplaced.store_ok rfl hpos hg.inside hbs
  refine ⟨q, m', ?_, hplaced.aligned, Nat.le_trans (Nat.le_add_left _ _) hle, hplaced.header_within rfl hpos,
    hplaced.payload_within rfl, fun s2 m2 hs => ?_⟩
  · unfold objectMalloc ConventionalAllocator.align
    rw [if_neg hcount.ne']
    dsimp only
    have h1 : sizeT (objectCount * sizeofT) = objectCount * sizeofT := sizeT_of_lt (by omega)
    have h2 : sizeT (objectCount * sizeofT + 2) = objectCount * sizeofT + 2 := sizeT_of_lt (by omega)
    rw [h1, h2, Nat.add_assoc, sizeT_of_lt hfit, hbase]
    simp only [ok_bind, hq, hplaced.prev]
    exact congrArg (· >>= _) hm
  · have hvalue : LittleEndian.value bs = q.offset - (buf.next 2).offset := by
      rw [LittleEndian.value_bytes]
      refine Nat.mod_eq_of_lt ?_
      simp only [Ptr.next]
      omega
    have hfwd : q.prev (q.offset - (buf.next 2).offset) = .ok (buf.next 2) :=
      Ptr.prev_sub hplaced.block hle
    simp only [objectFree, hplaced.prev, ok_bind, Placed.load_ok hbs hm hs, hvalue, hfwd, Ptr.prev_next]

/-! ## Both -/

theorem dgAlignedAlloc_refused (base : BlockAllocator σ) (w : σ × Memory) (blkSz : Nat) (hk : 32 ≤ k)
    (hk64 : k < 64) : dgAlignedAlloc base addr (2 ^ k) blkSz w = .ok (none, w) := by
  have hle : 2 ^ 32 ≤ 2 ^ k := Nat.pow_le_pow_right Nat.two_pos hk
  have hlt : 2 ^ k ≤ 2 ^ 63 := Nat.pow_le_pow_right Nat.two_pos (Nat.le_of_lt_succ hk64)
  unfold dgAlignedAlloc
  rw [if_neg (not_not_intro (Stdx.isPow2_two_pow k)), sizeT_of_lt (by omega)]
  exact if_pos (by omega)

/-- **Aligned allocations.** For every alignment below `2 ^ 32`, and every size whose padded size fits, if
the allocator below grants that size: the pointer is aligned, it and its header are in the block that was
granted, and that block is what the allocator below is given back. Larger alignments are refused. -/
theorem aligned_allocations {σ : Type} (base : BlockAllocator σ) (addr : Nat → Nat) (w : σ × Memory) :
    (∀ k blkSz ptr s m, 2 ^ k + 3 ≤ 2 ^ 32 - 1 → 0 < blkSz → blkSz + (2 ^ k + 3) < 2 ^ 64 →
      base.malloc (blkSz + (2 ^ k + 3)) w = .ok (some (some ptr), s, m) →
      Granted addr m ⟨ptr, blkSz + (2 ^ k + 3)⟩ →
      ∃ q m', dgAlignedAlloc base addr (2 ^ k) blkSz w = .ok (some (some q), s, m') ∧
        Serves (dgAlignedFree base) base.free addr (2 ^ k) 4 blkSz ⟨ptr, blkSz + (2 ^ k + 3)⟩ m' q) ∧
    (∀ k blkSz, 32 ≤ k → k < 64 → dgAlignedAlloc base addr (2 ^ k) blkSz w = .ok (none, w)) ∧
    (∀ k, 2 ^ k + 3 ≤ 2 ^ 32 - 1 → dgAlignedAlloc base addr (2 ^ k) 0 w = .ok (some none, w)) ∧
    (∀ k sizeofT objectCount buf s m, k ≤ 16 → 0 < sizeofT → 0 < objectCount →
      paddedSize sizeofT (2 ^ k) objectCount < 2 ^ 64 →
      base.malloc (paddedSize sizeofT (2 ^ k) objectCount) w = .ok (some (some buf), s, m) →
      Granted addr m ⟨buf, paddedSize sizeofT (2 ^ k) objectCount⟩ →
      ∃ q m', objectMalloc base addr sizeofT (2 ^ k) objectCount w = .ok (some (some q), s, m') ∧
        Serves (objectFree base) base.free addr (2 ^ k) 2 (objectCount * sizeofT)
          ⟨buf, paddedSize sizeofT (2 ^ k) objectCount⟩ m' q) ∧
    ∀ sizeofT alignofT, objectMalloc base addr sizeofT alignofT 0 w = .ok (some none, w) := by
  refine ⟨fun k blkSz ptr s m hk hpos hfit hbase hg => dgAlignedAlloc_ok base hk hpos hfit hbase hg,
    fun k blkSz hk hk64 => dgAlignedAlloc_refused base w blkSz hk hk64, fun k hk => ?_,
    fun k sizeofT objectCount buf s m hk hsize hcount hfit hbase hg =>
      objectMalloc_ok base hk hsize hcount hfit hbase hg, fun _ _ => rfl⟩
  unfold dgAlignedAlloc
  rw [if_neg (not_not_intro (Stdx.isPow2_two_pow k)), sizeT_of_lt (by omega)]
  exact (if_neg (by omega)).trans (if_pos rfl)

def granting : BlockAllocator Unit where
  malloc n w := .ok (some (some (w.2.allocate n).1), w.1, (w.2.allocate n).2)
  free buf w := .ok (w.1, buf.elim w.2 w.2.release)

def places (r : Nat) : Nat := 2 ^ 40 * r + 3

def emptyMemory : Memory := ⟨[], fun _ => 0⟩

theorem granted_first {n : Nat} (h : n ≤ 2 ^ 63) :
    Granted places (emptyMemory.allocate n).2 ⟨(emptyMemory.allocate n).1, n⟩ := by
  refine ⟨?_, ?_⟩
  · exact (Nat.zero_add n).le
  · show 2 ^ 40 * 0 + 3 + 0 + n ≤ 2 ^ 64
    omega

/-- 100 bytes at a multiple of 16, and 3 elements of 24 bytes at a multiple of 8. -/
theorem aligned_allocations_sample :
    (∃ q m', dgAlignedAlloc granting places (2 ^ 4) 100 ((), emptyMemory) = .ok (some (some q), (), m') ∧
      Serves (dgAlignedFree granting) granting.free places (2 ^ 4) 4 100
        ⟨⟨0, 0⟩, 100 + (2 ^ 4 + 3)⟩ m' q) ∧
    dgAlignedAlloc granting places (2 ^ 32) 100 ((), emptyMemory) = .ok (none, (), emptyMemory) ∧
    dgAlignedAlloc granting places (2 ^ 4) 0 ((), emptyMemory) = .ok (some none, (), emptyMemory) ∧
    ∃ q m', objectMalloc granting places 24 (2 ^ 3) 3 ((), emptyMemory) = .ok (some (some q), (), m') ∧
      Serves (objectFree granting) granting.free places (2 ^ 3) 2 (3 * 24) ⟨⟨0, 0⟩, paddedSize 24 (2 ^ 3) 3⟩
        m' q := by
  obtain ⟨hserves, hrefused, hnone, hobject, -⟩ := aligned_allocations granting places ((), emptyMemory)
  refine ⟨hserves 4 100 _ _ _ (by decide) (by decide) (by decide) rfl (granted_first (by decide)),
    hrefused 32 100 (by decide) (by decide), hnone 4 (by decide), ?_⟩
  exact hobject 3 24 3 _ _ _ (by decide) (by decide) (by decide) (by decide) rfl (granted_first (by decide))

/-- One byte at a multiple of `2 ^ 32` would be granted, but is not asked for. -/
theorem large_alignment_refused : Stdx.isPow2 (2 ^ 32) ∧ 1 + (2 ^ 32 + 3) < 2 ^ 64 ∧
    (∃ ptr m, granting.malloc (1 + (2 ^ 32 + 3)) ((), emptyMemory) = .ok (some (some ptr), (), m) ∧
      Granted places m ⟨ptr, 1 + (2 ^ 32 + 3)⟩) ∧
    ¬ ∃ q s m, dgAlignedAlloc granting places (2 ^ 32) 1 ((), emptyMemory) = .ok (some (some q), s, m) := by
  refine ⟨Stdx.isPow2_two_pow 32, by decide, ⟨_, _, rfl, granted_first (by decide)⟩, ?_⟩
  rintro ⟨q, s, m, h⟩
  cases (dgAlignedAlloc_refused granting ((), emptyMemory) 1 (Nat.le_refl 32) (by decide)).symm.trans h

end AllocationBase.AlignedAllocation
