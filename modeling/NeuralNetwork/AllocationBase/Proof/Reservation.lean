import NeuralNetwork.AllocationBase.BinaryUnitAllocator
import NeuralNetwork.AllocationBase.Proof.BinaryUnitAllocator

/-!
# The reservations of BinaryUnitAllocator

A unit without its counters and capacities is the unit of `GlobalAllocator` (`forget`). `Inv` adds to what
is known of that one that each bucket has reserved a place for every region made for it, whether its
pointer is free or handed out. **`free_never_reallocates`**: so a pointer that comes back finds a place,
also when a failed batch gives it back, and a bucket only has its own pointers, each once.
-/

namespace AllocationBase.Reservation

open Cpp Loop Region HashTable Run BinaryUnitAllocator
open GlobalAllocator (UnitInv Classed Extends)
open BinaryUnitAllocator (freeBatch mallocBatch)

/-! ## Without the reservations -/

def BinaryUnitAllocator.forget (a : BinaryUnitAllocator) : GlobalAllocator.BinaryUnitAllocator :=
  ⟨a.unitMap.map fun e => (e.1, e.2.elems), a.raiiBufVec⟩

namespace BinaryUnitAllocator

variable {a a' : BinaryUnitAllocator} {m m' : Memory} {k : Nat}

theorem lookup_forget (k : Nat) (a : BinaryUnitAllocator) :
    a.forget.unitMap.lookup k = (a.unitMap.lookup k).map PtrVector.elems :=
  lookup_map_snd _ _ _

theorem units_elems (k : Nat) (a : BinaryUnitAllocator) :
    (a.units k).elems = (a.forget.unitMap.lookup k).getD [] := by
  rw [lookup_forget, units]
  cases a.unitMap.lookup k with
  | none => rfl
  | some v => rfl

theorem forget_alter {v : PtrVector} {f : Option (List Ptr) → List Ptr}
    (hv : v.elems = f (a.forget.unitMap.lookup k)) :
    (alter (fun _ => v) k a.unitMap).map (fun e => (e.1, e.2.elems)) = alter f k a.forget.unitMap := by
  have hmap : (alter (fun _ => v) k a.unitMap).map (fun e => (e.1, e.2.elems)) =
      alter (fun _ => v.elems) k a.forget.unitMap := map_alter fun _ => rfl
  rw [hmap, hv]
  exact alter_const.symm

/-! ## A new region -/

theorem reserve_eq_some {v v' : PtrVector} {more : Option Nat} {sz : Nat}
    (h : v.reserve more sz = some v') : v'.elems = v.elems ∧ sz ≤ v'.capacity := by
  unfold PtrVector.reserve at h
  split at h
  · next hle =>
    cases h
    exact ⟨rfl, hle⟩
  · obtain ⟨n, -, rfl⟩ := Option.map_eq_some_iff.1 h
    exact ⟨rfl, Nat.le_add_right _ _⟩

theorem eraseUnits_insertUnits (k : Nat) (a : BinaryUnitAllocator) :
    (a.insertUnits k).eraseUnits k (a.unitMap.lookup k).isNone = a := by
  unfold eraseUnits insertUnits
  cases hl : a.unitMap.lookup k with
  | none =>
    rw [Option.isNone_none, if_pos rfl, erase_alter_of_lookup hl]
  | some v =>
    rw [Option.isNone_some, if_neg Bool.false_ne_true, alter_of_lookup hl]

theorem eraseCounter_insertCounter (k : Nat) (a : BinaryUnitAllocator) :
    (a.insertCounter k).eraseCounter k (a.unitCounter.lookup k).isNone = a := by
  unfold eraseCounter insertCounter
  cases hl : a.unitCounter.lookup k with
  | none =>
    rw [Option.isNone_none, if_pos rfl, erase_alter_of_lookup hl]
  | some n =>
    rw [Option.isNone_some, if_neg Bool.false_ne_true, alter_of_lookup hl]

theorem popBuf_pushBuf (buf : Ptr) (a : BinaryUnitAllocator) : (a.pushBuf buf).popBuf = a := by
  unfold popBuf pushBuf
  rw [List.dropLast_concat]

theorem counter_insertCounter (k : Nat) (a : BinaryUnitAllocator) :
    (a.insertCounter k).counter k = a.counter k := by
  unfold counter insertCounter
  rw [lookup_alter, if_pos rfl]
  rfl

theorem units_insertUnits (k : Nat) (a : BinaryUnitAllocator) :
    (a.insertUnits k).units k = a.units k := by
  unfold units insertUnits
  rw [lookup_alter, if_pos rfl]
  rfl

theorem extends_release {bs : List Byte} {n : Nat}
    (h : (m.allocate n).2.store (m.allocate n).1 bs = .ok m') (hext : Extends m m') :
    Extends m (m'.release (m.allocate n).1) := by
  refine ⟨?_, fun r hr => ?_, hext.bytes⟩
  · show m.sizes.length ≤ (m'.sizes.set _ _).length
    rw [List.length_set]
    exact hext.length
  · show (m'.sizes.set m.sizes.length 0)[r]? = _
    rw [List.getElem?_set_ne (Nat.ne_of_gt hr)]
    exact hext.sizes r hr

theorem extends_allocate_release (m : Memory) (n : Nat) :
    Extends m ((m.allocate n).2.release (m.allocate n).1) := by
  have h := Memory.grew_release m n
  refine ⟨h.sizes.length_le, fun r hr => ?_, fun q _ => congrFun h.bytes q⟩
  obtain ⟨l, hl⟩ := h.sizes
  rw [← hl, List.getElem?_append_left hr]

/-- **A new region is counted, or nothing is changed.** -/
theorem enqueue_cases {ans : Answers} {r : Option Ptr}
    (h : a.enqueueNewBufferOfBucketIdx k ans m = .ok (r, a', m')) :
    k < 64 ∧ ((r = none ∧ a' = a ∧ Extends m m') ∨
      ∃ v n, r = some ((m.allocate (2 ^ k)).1.next 1) ∧
        a' = ⟨alter (fun _ => n) k a.unitCounter, alter (fun _ => v) k a.unitMap,
          a.raiiBufVec ++ [(m.allocate (2 ^ k)).1.block]⟩ ∧
        (m.allocate (2 ^ k)).2.store (m.allocate (2 ^ k)).1 (LittleEndian.bytes 1 k) = .ok m' ∧
        v.elems = (a.units k).elems ∧ n = sizeT (a.counter k + 1) ∧ n ≤ v.capacity ∧ n ≤ 2 ^ 63) := by
  obtain ⟨actualSz, hsz, h⟩ := bind_eq_ok h
  obtain ⟨hk, rfl⟩ := Stdx.shiftOne_eq_ok hsz
  refine ⟨hk, ?_⟩
  obtain ⟨m1, hm1, hext, -, -⟩ := GlobalAllocator.allocate_store m (n := 2 ^ k)
    (LittleEndian.bytes 1 k) (by simpa using Nat.one_le_two_pow)
  have hrelease := extends_release hm1 hext
  dsimp only at h
  split at h
  · cases h
    exact .inl ⟨rfl, rfl, .refl m⟩
  split at h
  · cases h
    exact .inl ⟨rfl, rfl, extends_allocate_release m _⟩
  rw [hm1, ok_bind] at h
  split at h
  · cases h
    exact .inl ⟨rfl, rfl, hrelease⟩
  split at h
  · cases h
    exact .inl ⟨rfl, popBuf_pushBuf _ a, hrelease⟩
  split at h
  · cases h
    refine .inl ⟨rfl, ?_, hrelease⟩
    rw [eraseUnits_insertUnits]
    exact popBuf_pushBuf _ a
  rw [counter_insertCounter] at h
  obtain ⟨c, hc, h⟩ := bind_eq_ok h
  split at h
  · cases h
    refine .inl ⟨rfl, ?_, hrelease⟩
    rw [eraseCounter_insertCounter, eraseUnits_insertUnits]
    exact popBuf_pushBuf _ a
  · next v hv =>
    cases h
    obtain ⟨helems, hcap⟩ := reserve_eq_some hv
    have hle := Stdx.ceil2_le hc
    obtain ⟨e, he, rfl⟩ := Stdx.ceil2_pow hc
    have hbound : 2 ^ e ≤ 2 ^ 63 := Nat.pow_le_pow_right (by decide) (Nat.le_of_lt_succ he)
    refine .inr ⟨v, _, rfl, ?_, hm1, helems.trans ?_, rfl, hle.trans hcap, hle.trans hbound⟩
    · simp only [setCounter, setUnits, insertCounter, insertUnits, pushBuf, alter_alter]
      rfl
    · exact congrArg PtrVector.elems (units_insertUnits k (a.pushBuf _))

end BinaryUnitAllocator

def BinaryUnitAllocator.capacities (a : BinaryUnitAllocator) : List (Nat × Nat) :=
  a.unitMap.map fun e => (e.1, e.2.capacity)

/-! ## The invariant -/

/-- What `GlobalAllocator` knows of a block whatever was asked for: there is a byte of it. -/
def unitBlock (b : Block) : Block := ⟨b.ptr, 1⟩

def ofBucket (k : Nat) (live : List Block) : Nat :=
  live.countP fun b => decide (bucketIdxOf b.size = .ok k)

structure Inv (a : BinaryUnitAllocator) (m : Memory) (live : List Block) : Prop where
  unit : UnitInv a.forget m (live.map unitBlock)
  classed : ∀ b ∈ live, ∃ k, bucketIdxOf b.size = .ok k ∧ Classed m b.ptr k
  counters : ∀ k, a.unitMap.lookup k = none → a.unitCounter.lookup k = none
  reserved : ∀ k v, a.unitMap.lookup k = some v → a.counter k ≤ v.capacity ∧ a.counter k ≤ 2 ^ 63 ∧
    v.elems.length + ofBucket k live = a.counter k

namespace Inv

variable {a a' : BinaryUnitAllocator} {m m' : Memory} {live live' : List Block} {b : Block} {k : Nat}

theorem perm (hi : Inv a m live) (hp : live.Perm live') : Inv a m live' := by
  refine ⟨hi.unit.perm (hp.map _), fun b hb => hi.classed b (hp.mem_iff.2 hb), hi.counters,
    fun k v hv => ?_⟩
  have hcount : ofBucket k live' = ofBucket k live := (hp.countP_eq _).symm
  rw [hcount]
  exact hi.reserved k v hv

theorem make (m : Memory) : Inv .make m [] := by
  refine ⟨⟨List.nodup_nil, List.Perm.refl _, List.nodup_nil, ?_, ?_⟩, ?_, fun _ _ => rfl, ?_⟩
  · exact fun b hb => absurd hb List.not_mem_nil
  · exact fun e he => absurd he List.not_mem_nil
  · exact fun b hb => absurd hb List.not_mem_nil
  · intro k v hv
    cases hv

section

variable (hi : Inv a m live)

include hi

theorem congr (h : ∀ r ∈ a.raiiBufVec, m'.sizes[r]? = m.sizes[r]? ∧
    m'.bytes ⟨r, 0⟩ = m.bytes ⟨r, 0⟩) : Inv a m' live := by
  refine ⟨hi.unit.congr h, fun b hb => ?_, hi.counters, hi.reserved⟩
  obtain ⟨k, hk, hc⟩ := hi.classed b hb
  have := h _ (hi.unit.mem_owned (List.mem_map_of_mem (f := unitBlock) hb))
  exact ⟨k, hk, hc.congr this.1 this.2⟩

theorem grow (h : Extends m m') : Inv a m' live :=
  hi.congr fun _ hr => ⟨h.sizes _ (hi.unit.owned_lt hr), h.bytes _ (hi.unit.owned_lt hr)⟩

theorem exists_units (hb : b ∈ live)
    (hk : bucketIdxOf b.size = .ok k) :
    Classed m b.ptr k ∧ ∃ v, a.unitMap.lookup k = some v := by
  obtain ⟨k1, hk1, hc⟩ := hi.classed b hb
  obtain rfl := Except.ok.inj (hk.symm.trans hk1)
  obtain ⟨-, k2, hk2, hc2, -⟩ := hi.unit.live _ (List.mem_map_of_mem (f := unitBlock) hb)
  obtain rfl := hc.unique hc2
  obtain ⟨ptrs, hl, -⟩ := exists_lookup hk2
  rw [lookup_forget] at hl
  obtain ⟨v, hv, -⟩ := Option.map_eq_some_iff.1 hl
  exact ⟨hc, v, hv⟩

theorem ofBucket_of_none (h : a.unitMap.lookup k = none) : ofBucket k live = 0 := by
  refine List.countP_eq_zero.2 fun b hb hk => ?_
  obtain ⟨-, v, hv⟩ := hi.exists_units hb (of_decide_eq_true hk)
  rw [h] at hv
  cases hv

theorem counted (k : Nat) : a.counter k ≤ 2 ^ 63 ∧
    (a.units k).elems.length + ofBucket k live = a.counter k := by
  unfold BinaryUnitAllocator.units
  cases hl : a.unitMap.lookup k with
  | none =>
    rw [hi.ofBucket_of_none hl, BinaryUnitAllocator.counter, hi.counters k hl]
    exact ⟨Nat.zero_le _, rfl⟩
  | some v => exact (hi.reserved k v hl).2

theorem update {v : PtrVector} (hunit : UnitInv a'.forget m' (live'.map unitBlock))
    (hclassed : ∀ b ∈ live', ∃ k, bucketIdxOf b.size = .ok k ∧ Classed m' b.ptr k)
    (hmap : a'.unitMap = alter (fun _ => v) k a.unitMap)
    (hothers : ∀ k' ≠ k, a'.unitCounter.lookup k' = a.unitCounter.lookup k' ∧
      ofBucket k' live' = ofBucket k' live)
    (hv : a'.counter k ≤ v.capacity ∧ a'.counter k ≤ 2 ^ 63 ∧
      v.elems.length + ofBucket k live' = a'.counter k) : Inv a' m' live' := by
  refine ⟨hunit, hclassed, fun k' hl => ?_, fun k' v' hl => ?_⟩
  · rw [hmap, lookup_alter] at hl
    split at hl
    · cases hl
    · next hk => exact (hothers k' hk).1.trans (hi.counters k' hl)
  · rw [hmap, lookup_alter] at hl
    split at hl
    · next hk =>
      cases hl
      rw [hk]
      exact hv
    · next hk =>
      have hcounter : a'.counter k' = a.counter k' := congrArg (Option.getD · 0) (hothers k' hk).1
      rw [hcounter, (hothers k' hk).2]
      exact hi.reserved k' v' hl

end

/-! ### malloc -/

theorem ofBucket_cons (hk : bucketIdxOf b.size = .ok k) (k' : Nat) (live : List Block) :
    ofBucket k' (b :: live) = ofBucket k' live + if k' = k then 1 else 0 := by
  unfold ofBucket
  rw [List.countP_cons, hk]
  simp [eq_comm]

variable {sizes : List Nat} {sz : Nat} {requests : List (Nat × Answers)}

theorem two_le_of_bucketIdxOf (h : bucketIdxOf sz = .ok k) :
    1 + 1 ≤ 2 ^ k := by
  obtain ⟨c, -, h⟩ := bind_eq_ok h
  obtain rfl := Except.ok.inj h
  have h5 : 1 ≤ GlobalAllocator.BinaryUnitAllocator.minPow2Value := by decide
  exact Nat.pow_le_pow_right Nat.two_pos (h5.trans (Nat.le_max_right _ _))

theorem lookup_of_getLast? {p : Ptr} (h : (a.units k).elems.getLast? = some p) :
    a.unitMap.lookup k = some (a.units k) := by
  unfold BinaryUnitAllocator.units at h ⊢
  cases hl : a.unitMap.lookup k with
  | none =>
    rw [hl] at h
    cases h
  | some v => rfl

theorem reuse (hi : Inv a m live) (hsz : bucketIdxOf sz = .ok k) {p : Ptr}
    (hp : (a.units k).elems.getLast? = some p) :
    Inv (a.setUnits k (a.units k).popBack) m (⟨p, sz⟩ :: live) := by
  have hl := lookup_of_getLast? hp
  have hlast := hp
  rw [units_elems] at hlast
  have hunit := hi.unit.reuse_ok Nat.one_pos (two_le_of_bucketIdxOf hsz) hlast
  have hforget : (a.setUnits k (a.units k).popBack).forget =
      { a.forget with unitMap := alter (fun ptrs => (ptrs.getD []).dropLast) k a.forget.unitMap } := by
    refine congrArg (GlobalAllocator.BinaryUnitAllocator.mk · a.raiiBufVec) ?_
    refine forget_alter ?_
    rw [← units_elems]
    rfl
  rw [← hforget] at hunit
  obtain ⟨-, k1, -, hc1, -⟩ := hunit.live _ List.mem_cons_self
  have hclass : Classed m p k := by
    rw [units_elems, lookup_forget, hl] at hp
    refine hi.unit.free (k, (a.units k).elems) ?_ p (List.mem_of_getLast? hp)
    refine List.mem_map.2 ⟨(k, a.units k), mem_of_lookup hl, rfl⟩
  obtain ⟨hcap, hbound, hcount⟩ := hi.reserved k _ hl
  refine hi.update hunit (fun b hb => ?_) rfl (fun k' hk' => ⟨rfl, ?_⟩) ⟨hcap, hbound, ?_⟩
  · rcases List.mem_cons.1 hb with rfl | hb
    · exact ⟨k, hsz, hclass⟩
    · exact hi.classed b hb
  · rw [ofBucket_cons hsz, if_neg hk', Nat.add_zero]
  · have hpos : 0 < (a.units k).elems.length := List.length_pos_of_mem (List.mem_of_getLast? hp)
    rw [ofBucket_cons hsz, if_pos rfl]
    show (a.units k).elems.dropLast.length + _ = a.counter k
    rw [List.length_dropLast]
    omega

theorem enqueue (hi : Inv a m live) (hsz : bucketIdxOf sz = .ok k) (hk : k < 64) {v : PtrVector}
    {n : Nat}
    (hm : (m.allocate (2 ^ k)).2.store (m.allocate (2 ^ k)).1 (LittleEndian.bytes 1 k) = .ok m')
    (hv : v.elems = (a.units k).elems) (hn : n = sizeT (a.counter k + 1)) (hcap : n ≤ v.capacity)
    (hbound : n ≤ 2 ^ 63) :
    Inv ⟨alter (fun _ => n) k a.unitCounter, alter (fun _ => v) k a.unitMap,
      a.raiiBufVec ++ [(m.allocate (2 ^ k)).1.block]⟩ m' (⟨(m.allocate (2 ^ k)).1.next 1, sz⟩ :: live) := by
  obtain ⟨hold, hcount⟩ := hi.counted k
  rw [sizeT_of_lt (by omega)] at hn
  -- the unit without reservations, when `std::malloc` grants everything
  let env : GlobalAllocator.Env := ⟨fun _ _ => true, fun _ _ => 0, fun _ => 0⟩
  have hgrant : env.stdMalloc m (2 ^ k) = true := rfl
  obtain ⟨⟨ptr, size⟩, u', m1, e, hsize, hunit, hgrow⟩ := hi.unit.enqueue_ok hk Nat.one_pos
    (two_le_of_bucketIdxOf hsz) hgrant
  have hmap := forget_alter (a := a) (k := k) (f := fun ptrs => ptrs.getD [])
    (hv.trans (units_elems k a))
  rw [GlobalAllocator.BinaryUnitAllocator.enqueueNewBufferOfBucketIdx, Stdx.shiftOne, if_pos hk, ok_bind,
    if_pos rfl, hm, ok_bind] at e
  cases e
  subst hsize
  obtain ⟨m2, hm2, hext, hsizes, hload⟩ := GlobalAllocator.allocate_store m (n := 2 ^ k)
    (LittleEndian.bytes 1 k) (by simpa using Nat.one_le_two_pow)
  obtain rfl := Except.ok.inj (hm.symm.trans hm2)
  rw [LittleEndian.length_bytes] at hload
  have hclass : Classed m' ((m.allocate (2 ^ k)).1.next 1) k :=
    ⟨rfl, hk, by rw [hsizes]; exact List.getElem?_concat_length, hload⟩
  have hcounter : BinaryUnitAllocator.counter k ⟨alter (fun _ => n) k a.unitCounter,
      alter (fun _ => v) k a.unitMap, a.raiiBufVec ++ [(m.allocate (2 ^ k)).1.block]⟩ = n := by
    unfold BinaryUnitAllocator.counter
    rw [lookup_alter, if_pos rfl, Option.getD_some]
  refine (hi.grow hext).update ?_ (fun b hb => ?_) rfl (fun k' hk' => ⟨?_, ?_⟩) ?_
  · unfold BinaryUnitAllocator.forget
    rw [hmap]
    exact hunit
  · rcases List.mem_cons.1 hb with rfl | hb
    · exact ⟨k, hsz, hclass⟩
    · exact (hi.grow hext).classed b hb
  · rw [lookup_alter, if_neg hk']
  · rw [ofBucket_cons hsz, if_neg hk', Nat.add_zero]
  · rw [hcounter, ofBucket_cons hsz, if_pos rfl, hv]
    exact ⟨hcap, hbound, by omega⟩

/-- **A request** is served, or nothing is changed. -/
theorem malloc_cases (hi : Inv a m live) {ans : Answers} {r : Option (Option Ptr)}
    (h : a.malloc ans sz m = .ok (r, a', m')) : Extends m m' ∧
      ((r = none ∧ a' = a) ∨ (r = some none ∧ sz = 0 ∧ a' = a) ∨
        ∃ p, r = some (some p) ∧ sz ≠ 0 ∧ Inv a' m' (⟨p, sz⟩ :: live)) := by
  unfold BinaryUnitAllocator.malloc at h
  split at h
  · next hzero =>
    cases h
    exact ⟨.refl m, .inr (.inl ⟨rfl, hzero, rfl⟩)⟩
  · next hzero =>
    obtain ⟨k, hsz, h⟩ := bind_eq_ok h
    split at h
    · obtain ⟨⟨buf, a1, m1⟩, he, h⟩ := bind_eq_ok h
      cases h
      obtain ⟨hk, ⟨rfl, rfl, hext⟩ | ⟨v, n, rfl, rfl, hm, hv, hn, hcap, hbound⟩⟩ :=
        BinaryUnitAllocator.enqueue_cases he
      · exact ⟨hext, .inl ⟨rfl, rfl⟩⟩
      · obtain ⟨m2, hm2, hext, -, -⟩ := GlobalAllocator.allocate_store m (n := 2 ^ k)
          (LittleEndian.bytes 1 k) (by simpa using Nat.one_le_two_pow)
        obtain rfl := Except.ok.inj (hm.symm.trans hm2)
        exact ⟨hext, .inr (.inr ⟨_, rfl, hzero, hi.enqueue hsz hk hm hv hn hcap hbound⟩)⟩
    · next p hp =>
      cases h
      exact ⟨.refl m, .inr (.inr ⟨p, rfl, hzero, hi.reuse hsz hp⟩)⟩

/-! ### free -/

/-- **A block that comes back** finds a place that is reserved for it. -/
theorem free_ok (hi : Inv a m (b :: live)) : ∃ a', (∀ more, a.free more (some b.ptr) m = .ok a') ∧
    Inv a' m live ∧ a'.capacities = a.capacities := by
  obtain ⟨k, hsz, hclass⟩ := hi.classed b List.mem_cons_self
  obtain ⟨-, v, hv⟩ := hi.exists_units List.mem_cons_self hsz
  obtain ⟨hcap, hbound, hcount⟩ := hi.reserved k v hv
  rw [ofBucket_cons hsz, if_pos rfl] at hcount
  let v' : PtrVector := { v with elems := v.elems ++ [b.ptr] }
  have hlookup : a.forget.unitMap.lookup k = some v.elems := by
    rw [lookup_forget, hv, Option.map_some]
  refine ⟨a.setUnits k v', fun more => ?_, ?_, ?_⟩
  · have hpush : v.pushBack more b.ptr = .ok v' := if_pos (by omega)
    simp only [BinaryUnitAllocator.free, hclass.toOriginalBuffer, ok_bind, hv, hpush]
  · have hunit := hi.unit
    rw [List.map_cons] at hunit
    obtain ⟨u', hu', hunit', -⟩ := hunit.free_ok
    replace hu' : a.forget.free (some b.ptr) m = .ok u' := hu'
    have hforget : (a.setUnits k v').forget = u' := by
      rw [GlobalAllocator.BinaryUnitAllocator.free, hclass.toOriginalBuffer, ok_bind] at hu'
      simp only [hlookup] at hu'
      rw [← Except.ok.inj hu']
      refine congrArg (GlobalAllocator.BinaryUnitAllocator.mk · a.raiiBufVec) ?_
      refine forget_alter (f := fun ptrs => ptrs.getD [] ++ [b.ptr]) ?_
      rw [hlookup]
      rfl
    refine hi.update (hforget ▸ hunit') (fun c hc => hi.classed c (List.mem_cons_of_mem _ hc)) rfl
      (fun k' hk' => ⟨rfl, ?_⟩) ⟨hcap, hbound, ?_⟩
    · rw [ofBucket_cons hsz, if_neg hk', Nat.add_zero]
    · show (v.elems ++ [b.ptr]).length + _ = a.counter k
      rw [List.length_append, List.length_singleton]
      omega
  · have hlookup' : (a.capacities).lookup k = some v.capacity := by
      rw [capacities, lookup_map_snd, hv, Option.map_some]
    have hsame := alter_of_lookup (d := v.capacity) hlookup'
    rw [alter_const, hlookup'] at hsame
    refine Eq.trans ?_ hsame
    exact map_alter fun _ => rfl

variable {bufs : List (Option Ptr)}

theorem freeBatch_ok (hi : Inv a m live)
    (h : giveBack bufs live = some live') : ∃ a', (∀ more, a.freeBatch more bufs m = .ok a') ∧
      Inv a' m live' ∧ a'.capacities = a.capacities := by
  unfold freeBatch
  induction bufs generalizing a live with
  | nil =>
    cases h
    exact ⟨a, fun _ => rfl, hi, rfl⟩
  | cons buf bufs ih =>
    cases buf with
    | none =>
      obtain ⟨a', e, hi', hcap⟩ := ih hi h
      exact ⟨a', e, hi', hcap⟩
    | some p =>
      unfold giveBack at h
      cases hf : live.find? (·.ptr = p) with
      | none =>
        rw [hf] at h
        cases h
      | some b =>
        rw [hf] at h
        obtain rfl : b.ptr = p := by simpa using List.find?_some hf
        have hmem := List.mem_of_find?_eq_some hf
        obtain ⟨a1, e1, hi1, hcap1⟩ := (hi.perm (List.perm_cons_erase hmem)).free_ok
        obtain ⟨a2, e2, hi2, hcap2⟩ := ih hi1 h
        refine ⟨a2, fun more => ?_, hi2, hcap2.trans hcap1⟩
        rw [List.foldlM_cons, e1, ok_bind, e2]

/-! ### Batches -/

theorem giveBack_blocksOf (h : sizes.length = bufs.length) (live : List Block) :
    giveBack bufs (blocksOf sizes bufs ++ live) = some live := by
  induction bufs generalizing sizes with
  | nil =>
    obtain rfl := List.length_eq_zero_iff.1 h
    rfl
  | cons buf bufs ih =>
    cases sizes with
    | nil => cases h
    | cons sz sizes =>
      rw [List.length_cons, List.length_cons, Nat.add_right_cancel_iff] at h
      cases buf with
      | none => exact ih h
      | some p =>
        have hcons : blocksOf (sz :: sizes) (some p :: bufs) ++ live =
            ⟨p, sz⟩ :: (blocksOf sizes bufs ++ live) := rfl
        rw [hcons, giveBack, List.find?_cons_of_pos (by simp)]
        simp only [List.erase_cons_head]
        exact ih h

theorem blocksOf_concat (h : sizes.length = bufs.length) (sz : Nat) (buf : Option Ptr) :
    blocksOf (sizes ++ [sz]) (bufs ++ [buf]) =
      blocksOf sizes bufs ++ (buf.map fun p => (⟨p, sz⟩ : Block)).toList := by
  unfold blocksOf
  rw [List.zip_append h, List.filterMap_append]
  cases buf with
  | none => rfl
  | some p => rfl

variable (hi : Inv a m (blocksOf sizes bufs ++ live))

include hi

theorem malloc_next {ans : Answers} {buf : Option Ptr}
    (hlen : sizes.length = bufs.length) (h : a.malloc ans sz m = .ok (some buf, a', m')) :
    Extends m m' ∧ Inv a' m' (blocksOf (sizes ++ [sz]) (bufs ++ [buf]) ++ live) := by
  rw [blocksOf_concat hlen]
  obtain ⟨hext, ⟨hr, -⟩ | ⟨hr, -, rfl⟩ | ⟨p, hr, -, hi'⟩⟩ := hi.malloc_cases h
  · cases hr
  · cases hr
    refine ⟨hext, ?_⟩
    rw [Option.map_none, Option.toList_none, List.append_nil]
    exact hi.grow hext
  · cases hr
    refine ⟨hext, hi'.perm ?_⟩
    rw [Option.map_some, Option.toList_some, List.append_assoc]
    exact List.perm_middle.symm

/-- **A batch** is served, or what was served of it is given back. -/
theorem mallocBatch_cases {more : Option Nat} {r : Option (List (Option Ptr))}
    (hlen : sizes.length = bufs.length)
    (h : mallocBatch more requests bufs a m = .ok (r, a', m')) :
    Extends m m' ∧ Inv a' m' (blocksOf (sizes ++ requests.map Prod.fst) (r.getD []) ++ live) := by
  induction requests generalizing a m sizes bufs with
  | nil =>
    cases h
    rw [List.map_nil, List.append_nil]
    exact ⟨.refl _, hi⟩
  | cons request requests ih =>
    obtain ⟨sz, ans⟩ := request
    obtain ⟨⟨r1, a1, m1⟩, e1, h1⟩ := bind_eq_ok h
    cases r1 with
    | some buf =>
      obtain ⟨hext, hi1⟩ := hi.malloc_next hlen e1
      obtain ⟨hext', hi2⟩ := ih hi1 (by simp [hlen]) h1
      rw [List.append_assoc] at hi2
      exact ⟨hext.trans hext', hi2⟩
    | none =>
      obtain ⟨hext, ⟨-, rfl⟩ | ⟨hr, -⟩ | ⟨p, hr, -⟩⟩ := hi.malloc_cases e1
      · obtain ⟨a2, e2, hi2, -⟩ := (hi.grow hext).freeBatch_ok (giveBack_blocksOf hlen live)
        obtain ⟨a3, e3, h2⟩ := bind_eq_ok h1
        obtain rfl := Except.ok.inj ((e2 more).symm.trans e3)
        cases h2
        have hnone : ∀ l, blocksOf l [] = [] := fun l => by
          rw [blocksOf, List.zip_nil_right, List.filterMap_nil]
        rw [Option.getD_none, hnone]
        exact ⟨hext, hi2⟩
      · cases hr
      · cases hr

theorem mallocBatch_more
    (hlen : sizes.length = bufs.length) (more more' : Option Nat) : mallocBatch more requests bufs a m =
      mallocBatch more' requests bufs a m := by
  induction requests generalizing a m sizes bufs with
  | nil => rfl
  | cons request requests ih =>
    obtain ⟨sz, ans⟩ := request
    unfold mallocBatch
    cases e1 : a.malloc ans sz m with
    | error fault => rfl
    | ok x =>
      obtain ⟨r1, a1, m1⟩ := x
      rw [ok_bind, ok_bind]
      cases r1 with
      | some buf => exact ih (hi.malloc_next hlen e1).2 (by simp [hlen])
      | none =>
        obtain ⟨hext, ⟨-, rfl⟩ | ⟨hr, -⟩ | ⟨p, hr, -⟩⟩ := hi.malloc_cases e1
        · obtain ⟨a2, e2, -⟩ := (hi.grow hext).freeBatch_ok (giveBack_blocksOf hlen live)
          dsimp only
          rw [e2 more, e2 more']
        · cases hr
        · cases hr

end Inv

/-! ## Runs -/

/-- What a run keeps: the invariant, and the sizes of the regions there were. -/
structure RunInv (sizes : List Nat) (w : World) : Prop where
  inv : Inv w.allocator w.memory w.outstanding
  length : sizes.length ≤ w.memory.sizes.length
  sizes : ∀ r < sizes.length, w.memory.sizes[r]? = sizes[r]?

variable {w w' : World} {sizes : List Nat} {hist : List Event}

theorem Inv.write {a : BinaryUnitAllocator} {m m' : Memory} {live : List Block} {b : Block} {p : Ptr}
    {bs : List Byte} (hi : Inv a m live) (hb : b ∈ live) (hw : Block.Within p bs.length b)
    (hm : m.store p bs = .ok m') : Inv a m' live := by
  refine hi.congr fun r _ => ⟨by rw [Memory.sizes_store hm], Memory.bytes_store hm fun hc => ?_⟩
  obtain ⟨k, -, hclass⟩ := hi.classed b hb
  have hoffset := hclass.offset
  have hstart := hw.2.1
  have hzero : p.offset ≤ 0 := hc.2.1
  omega

theorem RunInv.step (hi : RunInv sizes w) {e : Event} (hs : Step w e w') : RunInv sizes w' := by
  replace hs : w.step e = .ok (some w') := hs
  cases e with
  | malloc requests more =>
    obtain ⟨⟨r, a, m⟩, e, hs⟩ := bind_eq_ok hs
    cases hs
    have h0 : Inv w.allocator w.memory (blocksOf [] [] ++ w.outstanding) := hi.inv
    obtain ⟨hext, hinv⟩ := h0.mallocBatch_cases rfl e
    rw [List.nil_append] at hinv
    refine ⟨hinv, hi.length.trans hext.length, fun r hr => ?_⟩
    exact (hext.sizes r (Nat.lt_of_lt_of_le hr hi.length)).trans (hi.sizes r hr)
  | free bufs more =>
    simp only [World.step] at hs
    split at hs
    · cases hs
    · next outstanding hgive =>
      obtain ⟨a, e, hinv, -⟩ := hi.inv.freeBatch_ok hgive
      rw [e, ok_bind] at hs
      cases hs
      exact ⟨hinv, hi.length, hi.sizes⟩
  | write p bs =>
    simp only [World.step] at hs
    split at hs
    · cases hs
    · next b hf =>
      obtain ⟨m, hm, hs⟩ := bind_eq_ok hs
      cases hs
      have hsizes := Memory.sizes_store hm
      have hw : Block.Within p bs.length b := by simpa using List.find?_some hf
      refine ⟨hi.inv.write (List.mem_of_find?_eq_some hf) hw hm, hi.length.trans_eq ?_, fun r hr => ?_⟩
      · exact (congrArg List.length hsizes).symm
      · exact (congrArg (·[r]?) hsizes).trans (hi.sizes r hr)

theorem reach_inv (h : Reach Fresh Step w hist) : Inv w.allocator w.memory w.outstanding := by
  refine h.inv (fun w _ => Inv w.allocator w.memory w.outstanding) (fun w h0 => ?_)
    fun w _ _ w' hi hs => ?_
  · rw [h0.1, h0.2]
    exact .make w.memory
  · exact (RunInv.step ⟨hi, Nat.le_refl _, fun _ _ => rfl⟩ hs).inv

def World.IsFree (w : World) (k : Nat) (p : Ptr) : Prop :=
  ∃ v, w.allocator.unitMap.lookup k = some v ∧ p ∈ v.elems

structure Sound (w : World) : Prop where
  /-- Whatever the callers give back, no vector is reallocated. -/
  free : ∀ bufs outstanding, giveBack bufs w.outstanding = some outstanding →
    ∃ a, (∀ more, w.allocator.freeBatch more bufs w.memory = .ok a) ∧
      a.capacities = w.allocator.capacities
  /-- Nor is one if a batch fails and gives back what it has. -/
  rollback : ∀ requests more more',
    mallocBatch more requests [] w.allocator w.memory =
      mallocBatch more' requests [] w.allocator w.memory
  /-- Every unit of a bucket is free or outstanding, and has a place. -/
  reserved : ∀ k v, w.allocator.unitMap.lookup k = some v →
    v.elems.length + ofBucket k w.outstanding = w.allocator.counter k ∧
      w.allocator.counter k ≤ v.capacity
  /-- No block is in two free lists, or in one and outstanding. -/
  nodup : (w.outstanding.map (·.ptr.block) ++
    w.allocator.unitMap.flatMap fun e => e.2.elems.map Ptr.block).Nodup
  separate : ∀ k k' p, w.IsFree k p → w.IsFree k' p → k = k'

theorem Inv.classed_free (hi : Inv w.allocator w.memory w.outstanding) {k : Nat} {p : Ptr}
    (h : w.IsFree k p) : Classed w.memory p k := by
  obtain ⟨v, hv, hp⟩ := h
  exact hi.unit.free (k, v.elems) (List.mem_map.2 ⟨(k, v), mem_of_lookup hv, rfl⟩) p hp

theorem Inv.sound (hi : Inv w.allocator w.memory w.outstanding) : Sound w := by
  refine ⟨fun bufs outstanding h => ?_, fun requests more more' => ?_, fun k v hv => ?_, ?_,
    fun k k' p h h' => (hi.classed_free h).unique (hi.classed_free h')⟩
  · obtain ⟨a, e, -, hcap⟩ := hi.freeBatch_ok h
    exact ⟨a, e, hcap⟩
  · have h0 : Inv w.allocator w.memory (blocksOf [] [] ++ w.outstanding) := hi
    exact h0.mallocBatch_more rfl more more'
  · obtain ⟨hcap, -, hcount⟩ := hi.reserved k v hv
    exact ⟨hcount, hcap⟩
  · have h := hi.unit.owned.nodup_iff.1 hi.unit.nodup
    rw [List.map_map, GlobalAllocator.BinaryUnitAllocator.freePtrs, BinaryUnitAllocator.forget,
      List.flatMap_map, List.map_flatMap] at h
    exact h

/-- **The free of a unit does not fail**, as it never reallocates, in any run of batches that may fail
anywhere; no block is in two free lists, and one that was in a free list is only ever handed out for a
size of that bucket. -/
theorem free_never_reallocates (h : Reach Fresh Step w hist) : Sound w ∧
    ∀ w' hist', Reach (· = w) Step w' hist' → ∀ k p, w.IsFree k p →
      (∀ b ∈ w'.outstanding, b.ptr = p → bucketIdxOf b.size = .ok k) ∧
      ∀ k', w'.IsFree k' p → k' = k := by
  have hi := reach_inv h
  refine ⟨hi.sound, fun w' hist' h' k p hfree => ?_⟩
  have hrun : RunInv w.memory.sizes w' := by
    refine h'.inv (fun w' _ => RunInv w.memory.sizes w') ?_ fun _ _ _ _ hr hs => hr.step hs
    rintro w rfl
    exact ⟨hi, Nat.le_refl _, fun _ _ => rfl⟩
  have hclass := hi.classed_free hfree
  -- the size of the region says which bucket it is of
  have hsize : ∀ k', Classed w'.memory p k' → k' = k := by
    intro k' hc
    have hlt := (List.getElem?_eq_some_iff.1 hclass.size).1
    have hsame := (hc.size.symm.trans (hrun.sizes _ hlt)).trans hclass.size
    exact Nat.pow_right_injective (Nat.le_refl 2) (Option.some.inj hsame)
  refine ⟨fun b hb hp => ?_, fun k' hf => hsize k' (hrun.inv.classed_free hf)⟩
  obtain ⟨k', hk', hc⟩ := hrun.inv.classed b hb
  rw [hk', hsize k' (hp ▸ hc)]

def granted : Answers := ⟨true, true, true, true, true, some 0⟩

def refused : Answers := { granted with reserve := none }

/-- The second request of a batch fails; the block of the first is then used again. -/
theorem free_never_reallocates_again : ∃ (w w' : World) (p : Ptr), Sound w ∧ w.IsFree 7 p ∧
    w'.outstanding = [⟨p, 100⟩] ∧ bucketIdxOf 100 = .ok 7 := by
  obtain ⟨w, hw, p, hfree, w', hw', hout⟩ : ∃ w,
      World.step ⟨.make, ⟨[], fun _ => 0⟩, []⟩ (.malloc [(100, granted), (40, refused)] none) =
        .ok (some w) ∧ ∃ p, w.IsFree 7 p ∧ ∃ w', w.step (.malloc [(100, granted)] none) = .ok (some w') ∧
      w'.outstanding = [⟨p, 100⟩] :=
    ⟨_, rfl, ⟨0, 1⟩, ⟨_, rfl, List.mem_singleton.2 rfl⟩, _, rfl, rfl⟩
  have hrun : Reach Fresh Step w _ := .step (.init ⟨rfl, rfl⟩) hw
  obtain ⟨hsound, hreuse⟩ := free_never_reallocates hrun
  have hsame := (hreuse w' _ (.step (.init rfl) hw') 7 p hfree).1 ⟨p, 100⟩
  rw [hout] at hsame
  exact ⟨w, w', p, hsound, hfree, hout, hsame (List.mem_singleton.2 rfl) rfl⟩

end AllocationBase.Reservation
