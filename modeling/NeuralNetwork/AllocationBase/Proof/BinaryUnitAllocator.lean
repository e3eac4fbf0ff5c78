import NeuralNetwork.AllocationBase.GlobalAllocator

/-!
# The units of the allocation stack

A unit keeps its regions by their buckets: `UnitInv` says that each region it owns is handed out or in the
list of its own bucket, that its first byte names that bucket and that it has `2 ^ bucket` bytes. A unit
looks at nothing but the first bytes of its own regions (`UnitInv.congr`), so it does not notice what others
do with the memory (`Extends`).
-/

namespace AllocationBase.GlobalAllocator

open Cpp Loop Region HashTable BinaryUnitAllocator

/-! ## A memory that grows -/

structure Extends (m m' : Memory) : Prop where
  length : m.sizes.length ≤ m'.sizes.length
  sizes : ∀ r, r < m.sizes.length → m'.sizes[r]? = m.sizes[r]?
  bytes : ∀ q : Ptr, q.block < m.sizes.length → m'.bytes q = m.bytes q

namespace Extends

variable {m m' m'' : Memory}

theorem refl (m : Memory) : Extends m m := ⟨Nat.le_refl _, fun _ _ => rfl, fun _ _ => rfl⟩

theorem trans (h : Extends m m') (h' : Extends m' m'') : Extends m m'' where
  length := Nat.le_trans h.length h'.length
  sizes r hr := (h'.sizes r (Nat.lt_of_lt_of_le hr h.length)).trans (h.sizes r hr)
  bytes q hq := (h'.bytes q (Nat.lt_of_lt_of_le hq h.length)).trans (h.bytes q hq)

end Extends

theorem allocate_store (m : Memory) {n : Nat} (bs : List Byte) (h : bs.length ≤ n) :
    ∃ m', (m.allocate n).2.store (m.allocate n).1 bs = .ok m' ∧ Extends m m' ∧
      m'.sizes = m.sizes ++ [n] ∧ m'.load ⟨m.sizes.length, 0⟩ bs.length = .ok bs := by
  have hin : (m.allocate n).2.Inside (m.allocate n).1 bs.length := by
    simp only [Memory.allocate, Memory.Inside, List.getD_eq_getElem?_getD, List.getElem?_concat_length,
      Option.getD_some]
    omega
  obtain ⟨m', hm⟩ := Memory.store_ok bs hin
  have hsizes : m'.sizes = m.sizes ++ [n] := Memory.sizes_store hm
  refine ⟨m', hm, ⟨?_, fun r hr => ?_, fun q hq => ?_⟩, hsizes, Memory.load_store hm⟩
  · rw [hsizes, List.length_append]
    omega
  · rw [hsizes, List.getElem?_append_left hr]
  · refine Memory.bytes_store (m := (m.allocate n).2) hm fun hc => ?_
    have := hc.1
    simp only [Memory.allocate] at this
    omega

/-- What an operation of a unit may do to the world: it gets new regions, and leaves the others alone. -/
structure Grows (u u' : BinaryUnitAllocator) (m m' : Memory) : Prop where
  memory : Extends m m'
  regions : ∀ r ∈ u'.raiiBufVec, r ∈ u.raiiBufVec ∨ m.sizes.length ≤ r

namespace Grows

variable {u u' u'' : BinaryUnitAllocator} {m m' m'' : Memory}

theorem refl (u : BinaryUnitAllocator) (m : Memory) : Grows u u m m := ⟨.refl m, fun _ hr => .inl hr⟩

theorem trans (h : Grows u u' m m') (h' : Grows u' u'' m' m'') : Grows u u'' m m'' := by
  refine ⟨h.memory.trans h'.memory, fun r hr => ?_⟩
  rcases h'.regions r hr with hr | hr
  · exact h.regions r hr
  · exact .inr (Nat.le_trans h.memory.length hr)

end Grows

/-! ## The invariant of a unit -/

/-- The region of a pointer of a unit is of this bucket. -/
structure Classed (m : Memory) (p : Ptr) (bucket : Nat) : Prop where
  offset : p.offset = 1
  bucket_lt : bucket < 64
  size : m.sizes[p.block]? = some (2 ^ bucket)
  header : m.load ⟨p.block, 0⟩ 1 = .ok (LittleEndian.bytes 1 bucket)

def BinaryUnitAllocator.freePtrs (u : BinaryUnitAllocator) : List Ptr := u.unitMap.flatMap Prod.snd

structure UnitInv (u : BinaryUnitAllocator) (m : Memory) (live : List Block) : Prop where
  keys : (u.unitMap.map Prod.fst).Nodup
  owned : u.raiiBufVec.Perm (live.map (·.ptr.block) ++ u.freePtrs.map Ptr.block)
  nodup : u.raiiBufVec.Nodup
  live : ∀ b ∈ live, 0 < b.size ∧
    ∃ k ∈ u.unitMap.map Prod.fst, Classed m b.ptr k ∧ b.size + 1 ≤ 2 ^ k
  free : ∀ e ∈ u.unitMap, ∀ p ∈ e.2, Classed m p e.1

theorem Classed.congr {m m' : Memory} {p : Ptr} {k : Nat} (h : Classed m p k)
    (hs : m'.sizes[p.block]? = m.sizes[p.block]?)
    (hb : m'.bytes ⟨p.block, 0⟩ = m.bytes ⟨p.block, 0⟩) : Classed m' p k := by
  refine ⟨h.offset, h.bucket_lt, hs.trans h.size, ?_⟩
  rw [← h.header]
  refine Memory.load_congr ?_ fun q hq => ?_
  · unfold Memory.Inside
    rw [List.getD_eq_getElem?_getD, List.getD_eq_getElem?_getD, hs]
  · obtain ⟨h1, h2, h3⟩ := hq
    obtain ⟨block, offset⟩ := q
    simp only at h1 h2 h3
    obtain rfl : offset = 0 := by omega
    rw [h1]
    exact hb

theorem Classed.toOriginalBuffer {m : Memory} {p : Ptr} {k : Nat} (h : Classed m p k) :
    BinaryUnitAllocator.toOriginalBuffer p m = .ok (⟨p.block, 0⟩, k) := by
  have hprev : p.prev 1 = .ok ⟨p.block, 0⟩ := by
    rw [Ptr.prev, if_pos h.offset.ge, h.offset]
  have hvalue : LittleEndian.value (LittleEndian.bytes 1 k) = k := by
    rw [LittleEndian.value_bytes]
    exact Nat.mod_eq_of_lt (Nat.lt_trans h.bucket_lt (by decide))
  simp only [BinaryUnitAllocator.toOriginalBuffer, hprev, ok_bind, h.header, hvalue]

theorem Classed.unique {m : Memory} {p : Ptr} {k k' : Nat} (h : Classed m p k) (h' : Classed m p k') :
    k = k' :=
  Nat.pow_right_injective (Nat.le_refl 2) (Option.some.inj (h.size.symm.trans h'.size))

namespace UnitInv

variable {u : BinaryUnitAllocator} {m m' : Memory} {live live' : List Block} {b : Block} {env : Env}

section

variable (hi : UnitInv u m live)

include hi

theorem perm (hp : live.Perm live') : UnitInv u m live' :=
  ⟨hi.keys, hi.owned.trans ((hp.map _).append_right _), hi.nodup,
    fun b hb => hi.live b (hp.mem_iff.2 hb), hi.free⟩

theorem mem_owned (hb : b ∈ live) : b.ptr.block ∈ u.raiiBufVec :=
  hi.owned.mem_iff.2 (List.mem_append_left _ (List.mem_map_of_mem hb))

theorem mem_owned_of_free {e : Nat × List Ptr} (he : e ∈ u.unitMap) {p : Ptr}
    (hp : p ∈ e.2) : p.block ∈ u.raiiBufVec :=
  hi.owned.mem_iff.2 (List.mem_append_right _
    (List.mem_map_of_mem (List.mem_flatMap.2 ⟨e, he, hp⟩)))

theorem owned_lt {r : Nat} (hr : r ∈ u.raiiBufVec) : r < m.sizes.length := by
  rcases List.mem_append.1 (hi.owned.mem_iff.1 hr) with hr | hr
  · obtain ⟨b, hb, rfl⟩ := List.mem_map.1 hr
    obtain ⟨-, k, -, hc, -⟩ := hi.live b hb
    exact (List.getElem?_eq_some_iff.1 hc.size).1
  · obtain ⟨p, hp, rfl⟩ := List.mem_map.1 hr
    obtain ⟨e, he, hp⟩ := List.mem_flatMap.1 hp
    exact (List.getElem?_eq_some_iff.1 (hi.free e he p hp).size).1

theorem congr
    (h : ∀ r ∈ u.raiiBufVec, m'.sizes[r]? = m.sizes[r]? ∧ m'.bytes ⟨r, 0⟩ = m.bytes ⟨r, 0⟩) :
    UnitInv u m' live := by
  refine ⟨hi.keys, hi.owned, hi.nodup, fun b hb => ?_, fun e he p hp => ?_⟩
  · obtain ⟨hpos, k, hk, hc, hsz⟩ := hi.live b hb
    have := h _ (hi.mem_owned hb)
    exact ⟨hpos, k, hk, hc.congr this.1 this.2, hsz⟩
  · have := h _ (hi.mem_owned_of_free he hp)
    exact (hi.free e he p hp).congr this.1 this.2

theorem grow (h : Extends m m') : UnitInv u m' live :=
  hi.congr fun r hr => ⟨h.sizes r (hi.owned_lt hr), h.bytes _ (hi.owned_lt hr)⟩

end

theorem freePtrs_alter (f : Option (List Ptr) → List Ptr) (k : Nat) (l : List (Nat × List Ptr)) :
    ((alter f k l).flatMap Prod.snd ++ (l.lookup k).getD []).Perm
      (l.flatMap Prod.snd ++ f (l.lookup k)) := by
  have h := flatMap_alter f k l Prod.snd
  rwa [Option.map_id'] at h

theorem bucket_ok {sz : Nat} (h : sz + 1 ≤ 2 ^ 63) : ∃ c, Stdx.ceil2 (sizeT (sz + 1)) = .ok c ∧
    max (Stdx.ulog2 c) minPow2Value < 64 ∧
    sz + 1 ≤ 2 ^ max (Stdx.ulog2 c) minPow2Value := by
  obtain ⟨e, he, hc, hle⟩ := Stdx.ceil2_ok h
  refine ⟨2 ^ e, by rw [sizeT_of_lt (by omega), hc], ?_⟩
  rw [Stdx.ulog2_two_pow]
  refine ⟨max_lt he (by decide), hle.trans ?_⟩
  exact Nat.pow_le_pow_right (by decide) (Nat.le_max_left _ _)

theorem enqueue_ok (hi : UnitInv u m live) {k sz : Nat} (hk : k < 64) (hpos : 0 < sz)
    (hsz : sz + 1 ≤ 2 ^ k) (hgrant : env.stdMalloc m (2 ^ k) = true) :
    ∃ b u' m', u.enqueueNewBufferOfBucketIdx env k m = .ok (some b.ptr, u', m') ∧ b.size = sz ∧
      UnitInv u' m' (b :: live) ∧ Grows u u' m m' := by
  obtain ⟨m', hm, hext, hsizes, hload⟩ := allocate_store m (n := 2 ^ k)
    (LittleEndian.bytes 1 k) (by simpa using Nat.one_le_two_pow)
  let b : Block := ⟨⟨m.sizes.length, 1⟩, sz⟩
  let u' : BinaryUnitAllocator :=
    ⟨alter (fun ptrs => ptrs.getD []) k u.unitMap, u.raiiBufVec ++ [m.sizes.length]⟩
  refine ⟨b, u', m', ?_, rfl, ?_, hext, fun r hr => ?_⟩
  · rw [BinaryUnitAllocator.enqueueNewBufferOfBucketIdx, Stdx.shiftOne, if_pos hk]
    simp only [ok_bind, hgrant, if_true, hm]
    rfl
  · have hg := hi.grow hext
    have hfresh : m.sizes.length ∉ u.raiiBufVec := fun h => Nat.lt_irrefl _ (hi.owned_lt h)
    have hfree : u'.freePtrs.Perm u.freePtrs := by
      have h := freePtrs_alter (fun ptrs => ptrs.getD []) k u.unitMap
      exact (List.perm_append_right_iff _).1 h
    have hclass : Classed m' b.ptr k := by
      refine ⟨rfl, hk, ?_, ?_⟩
      · rw [hsizes]
        exact List.getElem?_concat_length
      · rw [LittleEndian.length_bytes] at hload
        exact hload
    refine ⟨nodup_keys_alter hi.keys, ?_, ?_, fun c hc => ?_, fun e he p hp => ?_⟩
    · refine (List.perm_append_singleton _ _).trans (List.Perm.cons _ ?_)
      exact hi.owned.trans ((hfree.map _).symm.append_left _)
    · exact (List.perm_append_singleton _ _).nodup_iff.2 (List.nodup_cons.2 ⟨hfresh, hi.nodup⟩)
    · rcases List.mem_cons.1 hc with rfl | hc
      · exact ⟨hpos, k, mem_keys_alter.2 (.inl rfl), hclass, hsz⟩
      · obtain ⟨hp, k', hk', hc'⟩ := hg.live c hc
        exact ⟨hp, k', mem_keys_alter.2 (.inr hk'), hc'⟩
    · rcases mem_alter he with he | rfl
      · exact hg.free e he p hp
      · cases hl : u.unitMap.lookup k with
        | none =>
          rw [hl] at hp
          cases hp
        | some ptrs =>
          rw [hl] at hp
          exact hg.free _ (mem_of_lookup hl) p hp
  · rcases List.mem_append.1 hr with hr | hr
    · exact .inl hr
    · exact .inr (List.mem_singleton.1 hr).ge

theorem reuse_ok (hi : UnitInv u m live) {k sz : Nat} {p : Ptr} (hpos : 0 < sz) (hsz : sz + 1 ≤ 2 ^ k)
    (hp : ((u.unitMap.lookup k).getD []).getLast? = some p) :
    UnitInv { u with unitMap := alter (fun ptrs => (ptrs.getD []).dropLast) k u.unitMap } m
      (⟨p, sz⟩ :: live) := by
  obtain ⟨ptrs, hl, hlast⟩ : ∃ ptrs, u.unitMap.lookup k = some ptrs ∧ ptrs.getLast? = some p := by
    cases hl : u.unitMap.lookup k with
    | none =>
      rw [hl] at hp
      cases hp
    | some ptrs =>
      rw [hl] at hp
      exact ⟨ptrs, rfl, hp⟩
  have hmem := mem_of_lookup hl
  have hsplit : ptrs = ptrs.dropLast ++ [p] := (List.dropLast_append_getLast? p hlast).symm
  have hfree : u.freePtrs.Perm
      (p :: (alter (fun ptrs => (ptrs.getD []).dropLast) k u.unitMap).flatMap Prod.snd) := by
    have h := freePtrs_alter (fun ptrs => (ptrs.getD []).dropLast) k u.unitMap
    rw [hl, Option.getD_some, hsplit] at h
    rw [List.dropLast_concat, ← List.append_assoc] at h
    refine List.perm_iff_count.2 fun q => ?_
    have hq := List.perm_iff_count.1 h q
    simp only [List.count_append, List.count_cons, List.count_nil] at hq ⊢
    unfold freePtrs
    omega
  refine ⟨nodup_keys_alter hi.keys, ?_, hi.nodup, fun c hc => ?_, fun e he q hq => ?_⟩
  · refine hi.owned.trans (((hfree.map Ptr.block).append_left _).trans ?_)
    exact List.perm_middle
  · rcases List.mem_cons.1 hc with rfl | hc
    · refine ⟨hpos, k, mem_keys_alter.2 (.inl rfl), hi.free _ hmem p ?_, hsz⟩
      exact List.mem_of_getLast? hlast
    · obtain ⟨hp', k', hk', hc'⟩ := hi.live c hc
      exact ⟨hp', k', mem_keys_alter.2 (.inr hk'), hc'⟩
  · rcases mem_alter he with he | rfl
    · exact hi.free e he q hq
    · rw [hl] at hq
      exact hi.free _ hmem q (List.dropLast_subset _ hq)

/-- **A request is served**, unless `std::malloc` refuses a region. -/
theorem malloc_ok (env : Env) (hi : UnitInv u m live) {sz : Nat} (hpos : 0 < sz) (hsz : sz + 1 ≤ 2 ^ 63) :
    (∃ b u' m', u.malloc env sz m = .ok (some (some b.ptr), u', m') ∧ b.size = sz ∧
      UnitInv u' m' (b :: live) ∧ Grows u u' m m') ∨
    u.malloc env sz m = .ok (none, u, m) ∧ ∃ m n, env.stdMalloc m n = false := by
  obtain ⟨c, hc, hlt, hle⟩ := bucket_ok hsz
  rw [BinaryUnitAllocator.malloc, if_neg (by omega)]
  simp only [hc, ok_bind]
  generalize max (Stdx.ulog2 c) minPow2Value = k at hlt hle
  cases hlast : ((u.unitMap.lookup k).getD []).getLast? with
  | some p => exact .inl ⟨⟨p, sz⟩, _, m, rfl, rfl, hi.reuse_ok hpos hle hlast, .refl m, fun r hr => .inl hr⟩
  | none =>
    cases hgrant : env.stdMalloc m (2 ^ k) with
    | true =>
      obtain ⟨b, u', m', e, h⟩ := hi.enqueue_ok hlt hpos hle hgrant
      exact .inl ⟨b, u', m', by simp only [e, ok_bind, Option.map_some], h⟩
    | false =>
      refine .inr ⟨?_, m, 2 ^ k, hgrant⟩
      simp [BinaryUnitAllocator.enqueueNewBufferOfBucketIdx, Stdx.shiftOne, hlt, hgrant]

/-- **A block goes back to the bucket of its region.** -/
theorem free_ok (hi : UnitInv u m (b :: live)) :
    ∃ u', u.free (some b.ptr) m = .ok u' ∧ UnitInv u' m live ∧ u'.raiiBufVec = u.raiiBufVec := by
  obtain ⟨hpos, k, hk, hc, hsz⟩ := hi.live b List.mem_cons_self
  obtain ⟨ptrs, hl, hmem⟩ := exists_lookup hk
  refine ⟨{ u with unitMap := alter (fun ptrs => ptrs.getD [] ++ [b.ptr]) k u.unitMap }, ?_, ?_, rfl⟩
  · simp only [BinaryUnitAllocator.free, hc.toOriginalBuffer, ok_bind, hl]
  have hfree : ((alter (fun ptrs => ptrs.getD [] ++ [b.ptr]) k u.unitMap).flatMap Prod.snd).Perm
      (b.ptr :: u.freePtrs) := by
    have h := freePtrs_alter (fun ptrs => ptrs.getD [] ++ [b.ptr]) k u.unitMap
    rw [hl, Option.getD_some] at h
    refine List.perm_iff_count.2 fun q => ?_
    have hq := List.perm_iff_count.1 h q
    simp only [List.count_append, List.count_cons, List.count_nil] at hq ⊢
    unfold freePtrs
    omega
  refine ⟨nodup_keys_alter hi.keys, ?_, hi.nodup, fun c hc' => ?_, fun e he q hq => ?_⟩
  · refine hi.owned.trans ?_
    refine List.Perm.trans ?_ ((hfree.map Ptr.block).symm.append_left _)
    exact List.perm_middle.symm
  · obtain ⟨hp', k', hk', hc''⟩ := hi.live c (List.mem_cons_of_mem _ hc')
    exact ⟨hp', k', mem_keys_alter.2 (.inr hk'), hc''⟩
  · rcases mem_alter he with he | rfl
    · exact hi.free e he q hq
    · rw [hl] at hq
      rcases List.mem_append.1 hq with hq | hq
      · exact hi.free _ hmem q hq
      · rw [List.mem_singleton.1 hq]
        exact hc

/-! ## Batches -/

theorem freeBatch_ok {bs : List Block} (hi : UnitInv u m (bs ++ live)) :
    ∃ u', u.freeBatch (bs.map fun b => some b.ptr) m = .ok u' ∧ UnitInv u' m live ∧
      u'.raiiBufVec = u.raiiBufVec := by
  unfold BinaryUnitAllocator.freeBatch
  induction bs generalizing u with
  | nil => exact ⟨u, rfl, hi, rfl⟩
  | cons b bs ih =>
    obtain ⟨u1, e1, i1, r1⟩ := hi.free_ok
    obtain ⟨u2, e2, i2, r2⟩ := ih i1
    refine ⟨u2, ?_, i2, r2.trans r1⟩
    rw [List.map_cons, List.foldlM_cons, e1, ok_bind, e2]

theorem mallocBatch_ok (env : Env) (sizes : List Nat) {fulfilled : List Block}
    (hi : UnitInv u m (fulfilled ++ live)) (hsizes : ∀ n ∈ sizes, 0 < n ∧ n + 1 ≤ 2 ^ 63) :
    ∃ r u' m', u.mallocBatch env sizes (fulfilled.map fun b => some b.ptr) m = .ok (r, u', m') ∧
      ((∃ bs : List Block, r = some ((fulfilled ++ bs).map fun b => some b.ptr) ∧
        bs.map Block.size = sizes ∧ UnitInv u' m' (fulfilled ++ bs ++ live) ∧ Grows u u' m m') ∨
      r = none ∧ ∃ m n, env.stdMalloc m n = false) := by
  induction sizes generalizing u m fulfilled with
  | nil =>
    refine ⟨_, u, m, rfl, .inl ⟨[], by rw [List.append_nil], rfl, ?_, .refl u m⟩⟩
    rwa [List.append_nil]
  | cons sz sizes ih =>
    have hsz := hsizes sz List.mem_cons_self
    rcases hi.malloc_ok env hsz.1 hsz.2 with ⟨b, u1, m1, e1, rfl, i1, g1⟩ | ⟨e1, hshort⟩
    · have i1' : UnitInv u1 m1 ((fulfilled ++ [b]) ++ live) :=
        i1.perm (by rw [List.append_assoc]; exact List.perm_middle.symm)
      obtain ⟨r, u2, m2, e2, h2⟩ := ih i1' fun n hn => hsizes n (List.mem_cons_of_mem _ hn)
      refine ⟨r, u2, m2, ?_, ?_⟩
      · simp only [BinaryUnitAllocator.mallocBatch, e1, ok_bind]
        rw [List.map_append] at e2
        exact e2
      · rcases h2 with ⟨bs, hr, hbs, i2, g2⟩ | h2
        · rw [List.append_assoc fulfilled [b] bs, List.singleton_append] at hr i2
          exact .inl ⟨b :: bs, hr, by rw [List.map_cons, hbs], i2, g1.trans g2⟩
        · exact .inr h2
    · obtain ⟨u2, e2, -, -⟩ := hi.freeBatch_ok
      refine ⟨none, u2, m, ?_, .inr ⟨rfl, hshort⟩⟩
      simp only [BinaryUnitAllocator.mallocBatch, e1, ok_bind, e2]

end UnitInv

end AllocationBase.GlobalAllocator
