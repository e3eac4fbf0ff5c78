import NeuralNetwork.AllocationBase.Proof.AffinedAllocator

/-!
# Large and small blocks

The layer that sends large requests past the affined allocator. `LargeSmallInv` divides the blocks of the
caller by the flag before them: the small ones are the affined allocator's, the large ones are other blocks of
the base.
-/

namespace AllocationBase.GlobalAllocator.LargeSmallAffinedAllocator

open Cpp Loop Region HashTable AffinedAllocator

variable {σ : Type} {base : Allocator σ} {short : Prop} {limit : Nat}
  {inv : σ → Memory → List Block → Prop} {w : World σ} {live live' : List Block} {b : Block}
  {m m' : Memory} {flag : Nat}

structure Flagged (m : Memory) (flag : Nat) (b : Block) : Prop where
  offset : 1 ≤ b.ptr.offset
  pos : 0 < b.size
  header : m.load (b.outer 1).ptr 1 = .ok (LittleEndian.bytes 1 flag)

/-- The blocks of the caller: the small ones are of the affined allocator, the large ones of the base. -/
def LargeSmallInv (inv : σ → Memory → List Block → Prop) (w : World σ) (live : List Block) : Prop :=
  ∃ small large : List Block, (small ++ large).Perm live ∧
    AffInv inv none w (small.map (Block.outer 1)) (large.map (Block.outer 1)) ∧
    (∀ b ∈ small, Flagged w.2.2 smallAllocationFlag b) ∧
    ∀ b ∈ large, Flagged w.2.2 largeAllocationFlag b

theorem Flagged.congr (h : Flagged m flag b) (hload : m'.load (b.outer 1).ptr 1 = m.load (b.outer 1).ptr 1) :
    Flagged m' flag b := ⟨h.offset, h.pos, hload.trans h.header⟩

theorem within_outer (b : Block) (n : Nat) : Block.Within (b.outer 1).ptr 1 ((b.outer 1).outer n) := by
  refine ⟨rfl, Nat.sub_le _ _, ?_⟩
  simp only [Block.outer]
  omega

theorem flagged_inner {flag : Nat} (hsz : 2 ≤ b.size)
    (h : m.load b.ptr 1 = .ok (LittleEndian.bytes 1 flag)) : Flagged m flag (b.inner 1) := by
  refine ⟨Nat.le_add_left _ _, Nat.sub_pos_of_lt hsz, ?_⟩
  rw [Block.outer_inner (by omega)]
  exact h

theorem Flagged.of_kept {w' : World σ} {small large live' others others' : List Block}
    (hA : Lawful base short limit inv) (h : AffInv inv none w live others)
    (h' : AffInv inv none w' live' others')
    (hs : small.map (Block.outer 1) ⊆ live ∧ small.map (Block.outer 1) ⊆ live')
    (hl : large.map (Block.outer 1) ⊆ others ∧ large.map (Block.outer 1) ⊆ others')
    (hk : Kept ((small.map (Block.outer 1)).map (Block.outer 4) ++ large.map (Block.outer 1)) w.2.2 w'.2.2)
    (hsmall : ∀ b ∈ small, Flagged w.2.2 smallAllocationFlag b)
    (hlarge : ∀ b ∈ large, Flagged w.2.2 largeAllocationFlag b) :
    (∀ b ∈ small, Flagged w'.2.2 smallAllocationFlag b) ∧
      ∀ b ∈ large, Flagged w'.2.2 largeAllocationFlag b := by
  have hin : ∀ {w : World σ} {live others : List Block}, AffInv inv none w live others → ∀ c ∈ live,
      w.2.2.Inside (c.outer 4).ptr (c.outer 4).size := fun h c hc =>
    (h.pending.inside hA (List.mem_append_left _ (List.mem_map_of_mem (List.mem_append_left _ hc)))).2
  refine ⟨fun b hb => (hsmall b hb).congr ?_, fun b hb => (hlarge b hb).congr ?_⟩
  · have hmem := List.mem_map_of_mem (f := Block.outer 1) hb
    exact hk.load (List.mem_append_left _ (List.mem_map_of_mem hmem)) (hin h _ (hs.1 hmem))
      (hin h' _ (hs.2 hmem)) (within_outer b 4)
  · have hmem := List.mem_map_of_mem (f := Block.outer 1) hb
    exact hk.load (List.mem_append_right _ hmem)
      (h.pending.inside hA (List.mem_append_right _ (hl.1 hmem))).2
      (h'.pending.inside hA (List.mem_append_right _ (hl.2 hmem))).2 (within_outer b 0)

namespace LargeSmallInv

theorem perm (h : LargeSmallInv inv w live) (hp : live.Perm live') : LargeSmallInv inv w live' := by
  obtain ⟨small, large, hperm, h⟩ := h
  exact ⟨small, large, hperm.trans hp, h⟩

theorem smallMalloc_ok (hA : Lawful base short limit inv) (hlimit : 2 ^ 32 + 3 ≤ limit)
    (h : LargeSmallInv inv w live) (iteration : Order (Nat × List Ptr)) {sz : Nat} (hpos : 0 < sz)
    (hsz : sz < largeBufferSize) : Ends short (smallMalloc base iteration sz w) fun r =>
      ∃ b : Block, r.1 = some b.ptr ∧ b.size = sz ∧ LargeSmallInv inv r.2 (b :: live) := by
  obtain ⟨small, large, hperm, h, hsmall, hlarge⟩ := h
  have hlt : sz < 2 ^ 14 := hsz
  unfold smallMalloc
  rw [sizeT_of_lt (by omega)]
  refine ((h.malloc_ok hA hlimit iteration (sz + 1)).weaken fun hs => hs.resolve_right (by omega)).bind
    fun r hr => ?_
  obtain ⟨rs, w1⟩ := r
  rcases hr with ⟨h0, -⟩ | ⟨b, hb, hbs, h1, hk1⟩
  · omega
  obtain rfl : rs = some b.ptr := hb
  have hw : Block.Within b.ptr (LittleEndian.bytes 1 smallAllocationFlag).length b :=
    ⟨rfl, Nat.le_refl _, by rw [LittleEndian.length_bytes]; omega⟩
  obtain ⟨m2, e2, h2, hk2⟩ := h1.write hA hw
  have hload := Memory.load_store e2
  rw [LittleEndian.length_bytes] at hload
  have hflags := Flagged.of_kept hA h h2
    ⟨List.Subset.refl _, List.subset_cons_self _ _⟩ ⟨List.Subset.refl _, List.Subset.refl _⟩
      (hk1.trans hk2) hsmall hlarge
  have houter : (b.inner 1).outer 1 = b := Block.outer_inner (by omega)
  refine .of_ok ⟨(some (b.ptr.next 1), w1.1, w1.2.1, m2), ?_, b.inner 1, rfl,
    by rw [Block.inner, hbs, Nat.add_sub_cancel], b.inner 1 :: small, large, hperm.cons _, ?_, ?_, hflags.2⟩
  · simp only [writeFlag, deref, ok_bind, e2]
  · rw [List.map_cons, houter]
    exact h2
  · intro c hc
    rcases List.mem_cons.1 hc with rfl | hc
    · exact flagged_inner (by omega) hload
    · exact hflags.1 c hc

theorem largeMalloc_ok (hA : Lawful base short limit inv) (h : LargeSmallInv inv w live) {sz : Nat}
    (hpos : 0 < sz) (hsz : sz + 1 ≤ limit) (hlimit : limit < 2 ^ 64) :
    Ends short (largeMalloc base sz w) fun r =>
      ∃ b : Block, r.1 = some b.ptr ∧ b.size = sz ∧ LargeSmallInv inv r.2 (b :: live) := by
  obtain ⟨small, large, hperm, h, hsmall, hlarge⟩ := h
  unfold largeMalloc
  rw [sizeT_of_lt (by omega)]
  refine (h.malloc_other hA ⟨Nat.succ_pos sz, hsz⟩).bind fun r hr => ?_
  obtain ⟨rs, s⟩ := r
  obtain ⟨b, rfl, hbs, h1, hk1⟩ := hr
  have hw : Block.Within b.ptr (LittleEndian.bytes 1 largeAllocationFlag).length b :=
    ⟨rfl, Nat.le_refl _, by rw [LittleEndian.length_bytes]; omega⟩
  obtain ⟨m2, e2, h2, hk2⟩ := h1.write_other hA hw
  have hload := Memory.load_store e2
  rw [LittleEndian.length_bytes] at hload
  have hflags := Flagged.of_kept hA h h2
    ⟨List.Subset.refl _, List.Subset.refl _⟩ ⟨List.Subset.refl _, List.subset_cons_self _ _⟩
      (hk1.trans hk2) hsmall hlarge
  have houter : (b.inner 1).outer 1 = b := Block.outer_inner (by omega)
  refine .of_ok ⟨(some (b.ptr.next 1), w.1, s.1, m2), ?_, b.inner 1, rfl,
    by rw [Block.inner, hbs]; rfl, small, b.inner 1 :: large,
    List.perm_middle.trans (hperm.cons _), ?_, hflags.1, ?_⟩
  · simp only [writeFlag, List.head?_cons, Option.getD_some, deref, ok_bind, e2]
  · rw [List.map_cons, houter]
    exact h2
  · intro c hc
    rcases List.mem_cons.1 hc with rfl | hc
    · exact flagged_inner (by omega) hload
    · exact hflags.2 c hc

theorem malloc_ok (hA : Lawful base short limit inv) (hlimit : 2 ^ 32 + 3 ≤ limit) (hmax : limit < 2 ^ 64)
    (h : LargeSmallInv inv w live) (iteration : Order (Nat × List Ptr)) {sz : Nat} (hpos : 0 < sz)
    (hsz : sz + 1 ≤ limit) : Ends short (malloc base iteration sz w) fun r =>
      ∃ b : Block, r.1 = some b.ptr ∧ b.size = sz ∧ LargeSmallInv inv r.2 (b :: live) := by
  unfold malloc
  rw [if_neg (by omega)]
  by_cases hs : sz < largeBufferSize
  · rw [if_pos hs]
    exact h.smallMalloc_ok hA hlimit iteration hpos hs
  · rw [if_neg hs]
    exact h.largeMalloc_ok hA hpos hsz hmax

theorem readAllocationHeader_ok {flag : Nat} (h : Flagged m flag b) (hflag : flag < 256) :
    readAllocationHeader b.ptr m = .ok flag := by
  rw [readAllocationHeader, Block.prev_ptr h.offset, ok_bind, h.header, ok_bind, LittleEndian.value_bytes,
    Nat.mod_eq_of_lt (by simpa using hflag)]

/-- **A block comes back** to the layer that it is of. -/
theorem free_ok (hA : Lawful base short limit inv) (h : LargeSmallInv inv w (b :: live))
    (iteration : Order (Nat × List Ptr)) :
    ∃ w', free base iteration (some b.ptr) w = .ok w' ∧ LargeSmallInv inv w' live := by
  obtain ⟨small, large, hperm, h, hsmall, hlarge⟩ := h
  rcases List.mem_append.1 (hperm.mem_iff.2 List.mem_cons_self) with hb | hb
  · have hf := hsmall b hb
    have hsplit := List.perm_cons_erase hb
    obtain ⟨w', e, h', hk⟩ := (h.perm hA (hsplit.map _)).free_ok hA iteration
    have hsub : (small.erase b).map (Block.outer 1) ⊆ small.map (Block.outer 1) :=
      List.map_subset _ (List.erase_subset)
    have hflags := Flagged.of_kept hA h h' ⟨hsub, List.Subset.refl _⟩
      ⟨List.Subset.refl _, List.Subset.refl _⟩ hk
      (fun c hc => hsmall c (List.mem_of_mem_erase hc)) hlarge
    refine ⟨w', ?_, small.erase b, large, ?_, h', hflags⟩
    · rw [free, readAllocationHeader_ok hf (by decide), ok_bind, Block.prev_ptr hf.offset, ok_bind,
        if_pos rfl]
      exact e
    · exact ((hsplit.append_right _).symm.trans hperm).cons_inv
  · have hf := hlarge b hb
    have hsplit := List.perm_cons_erase hb
    obtain ⟨s', e, h', hk⟩ := (h.perm_others hA (hsplit.map _)).free_other hA
    have hsub : (large.erase b).map (Block.outer 1) ⊆ large.map (Block.outer 1) :=
      List.map_subset _ (List.erase_subset)
    have hflags := Flagged.of_kept hA h h' ⟨List.Subset.refl _, List.Subset.refl _⟩
      ⟨hsub, List.Subset.refl _⟩ hk hsmall (fun c hc => hlarge c (List.mem_of_mem_erase hc))
    refine ⟨(w.1, s'), ?_, small, large.erase b, ?_, h', hflags⟩
    · rw [free, readAllocationHeader_ok hf (by decide), ok_bind, Block.prev_ptr hf.offset, ok_bind,
        if_neg (by decide), e, ok_bind]
    · exact (((hsplit.append_left _).trans List.perm_middle).symm.trans hperm).cons_inv

theorem flagged_store {p : Ptr} {bs : List Byte} (h : Flagged m flag b) (hw : Block.Within p bs.length b)
    (e : m.store p bs = .ok m') : Flagged m' flag b := by
  refine h.congr (Memory.load_congr (Memory.inside_congr (Memory.sizes_store e)) fun q hq => ?_)
  refine Memory.bytes_store e fun hcov => ?_
  have h1 : q.offset < b.ptr.offset - 1 + 1 := hq.2.2
  have h2 : p.offset ≤ q.offset := hcov.2.1
  have h3 := hw.2.1
  have h4 := h.offset
  omega

theorem write (hA : Lawful base short limit inv) (h : LargeSmallInv inv w (b :: live)) {p : Ptr}
    (bs : List Byte) (hw : Block.Within p bs.length b) :
    ∃ m', w.2.2.store p bs = .ok m' ∧ LargeSmallInv inv (w.1, w.2.1, m') (b :: live) := by
  obtain ⟨small, large, hperm, h, hsmall, hlarge⟩ := h
  have houter : ∀ {flag}, Flagged w.2.2 flag b → Block.Within p bs.length (b.outer 1) := by
    intro flag hf
    obtain ⟨hblock, hlo, hhi⟩ := hw
    have := hf.offset
    exact ⟨hblock, by simp only [Block.outer]; omega, by simp only [Block.outer]; omega⟩
  rcases List.mem_append.1 (hperm.mem_iff.2 List.mem_cons_self) with hb | hb
  · have hf := hsmall b hb
    have hsplit := List.perm_cons_erase hb
    obtain ⟨m', e, h', hk⟩ := (h.perm hA (hsplit.map _)).write hA (houter hf)
    have h'' := h'.perm hA (hsplit.map _).symm
    have hsub : (small.erase b).map (Block.outer 1) ⊆ small.map (Block.outer 1) :=
      List.map_subset _ List.erase_subset
    have hflags := Flagged.of_kept hA h h'' ⟨hsub, hsub⟩ ⟨List.Subset.refl _, List.Subset.refl _⟩ hk
      (fun c hc => hsmall c (List.mem_of_mem_erase hc)) hlarge
    refine ⟨m', e, small, large, hperm, h'', fun c hc => ?_, hflags.2⟩
    rcases List.mem_cons.1 (hsplit.mem_iff.1 hc) with rfl | hc
    · exact flagged_store hf hw e
    · exact hflags.1 c hc
  · have hf := hlarge b hb
    have hsplit := List.perm_cons_erase hb
    obtain ⟨m', e, h', hk⟩ := (h.perm_others hA (hsplit.map _)).write_other hA (houter hf)
    have h'' := h'.perm_others hA (hsplit.map _).symm
    have hsub : (large.erase b).map (Block.outer 1) ⊆ large.map (Block.outer 1) :=
      List.map_subset _ List.erase_subset
    have hflags := Flagged.of_kept hA h h'' ⟨List.Subset.refl _, List.Subset.refl _⟩ ⟨hsub, hsub⟩ hk
      hsmall (fun c hc => hlarge c (List.mem_of_mem_erase hc))
    refine ⟨m', e, small, large, hperm, h'', hflags.1, fun c hc => ?_⟩
    rcases List.mem_cons.1 (hsplit.mem_iff.1 hc) with rfl | hc
    · exact flagged_store hf hw e
    · exact hflags.2 c hc

end LargeSmallInv

end AllocationBase.GlobalAllocator.LargeSmallAffinedAllocator
