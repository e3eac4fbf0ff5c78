import NeuralNetwork.CudaMalloc.Proof.Mark

/-!
# The segment allocator refines a set of outstanding intervals

`Reach T height s outs`: calls of `malloc` and `free` from the constructed allocator lead to `s`
with the intervals `outs` outstanding, `free` being called on these only. `Inv` holds in every such
state (`Reach.inv`), so a request is served exactly when a long enough free run exists
(`malloc_refines`), with the arithmetic exact under `Fits`.
-/

namespace CudaMalloc

open Cpp Loop DaryTree FreeRun

variable {T : Params} {arr : Array HeapNode} {outs : List Interval} {h idx a : Nat}

/-- The sizes the arithmetic is exact for: the product that sizes the node array fits `size_t`, the
number of leaves fits `NodeType`, and so does every packed trace (from three levels on the number
of leaves already bounds it, and with one level no trace is read). -/
structure Fits (T : Params) (height : Nat) : Prop where
  pos : 0 < height
  size : T.outDegreeSize * T.outDegreeSize ^ (height - 1) < 2 ^ 64
  node : T.outDegreeSize ^ (height - 1) < 2 ^ T.nodeBits
  trace : height = 2 → 2 * T.outDegreeSize ≤ 2 ^ T.nodeBits

theorem Fits.level (hf : Fits T (h + 1)) : FitsLevel T h := by
  have hD := T.two_le
  obtain ⟨-, hsize, hnode, htrace⟩ := hf
  rw [Nat.add_sub_cancel] at hsize hnode
  refine ⟨hnode, fun h0 => ⟨?_, ?_⟩⟩
  · rcases Nat.lt_or_ge h 2 with h1 | h2
    · exact htrace (by omega)
    · have h3 : T.outDegreeSize ^ 2 ≤ T.outDegreeSize ^ h := Nat.pow_le_pow_right T.pos h2
      have h4 : 2 * T.outDegreeSize ≤ T.outDegreeSize ^ 2 := by
        rw [Nat.pow_two]; exact Nat.mul_le_mul_right _ hD
      omega
  · have h3 : 1 < T.outDegreeSize ^ h := Nat.one_lt_pow h0 (by omega)
    have h4 : T.outDegreeSize * 2 ≤ T.outDegreeSize * T.outDegreeSize ^ h :=
      Nat.mul_le_mul_left _ (by omega)
    omega

/-! ## Construction -/

theorem unsignedPow_eq {base : Nat} (hb : 0 < base) (sz : Nat) (h : base ^ sz < 2 ^ 64) :
    unsignedPow base sz = base ^ sz := by
  induction sz using Nat.strongRecOn with
  | ind sz ih =>
    rw [unsignedPow]
    by_cases h0 : sz = 0
    · simp [h0]
    have hhalf : base ^ (sz / 2) ≤ base ^ sz := Nat.pow_le_pow_right hb (by omega)
    have hfull : base ^ (sz / 2) * base ^ (sz / 2) = base ^ (sz / 2 + sz / 2) :=
      (Nat.pow_add ..).symm
    rw [if_neg h0, ih (sz / 2) (by omega) (by omega)]
    by_cases hodd : sz % 2 ≠ 0
    · have e : base ^ (sz / 2 + sz / 2) * base = base ^ sz := by
        rw [← Nat.pow_succ]; congr 1; omega
      have hle : base ^ (sz / 2 + sz / 2) ≤ base ^ sz := Nat.pow_le_pow_right hb (by omega)
      have hlt : base ^ (sz / 2 + sz / 2) < 2 ^ 64 := by omega
      simp only [if_pos hodd, sizeT, hfull, Nat.mod_eq_of_lt hlt, e, Nat.mod_eq_of_lt h]
    · have e : sz / 2 + sz / 2 = sz := by omega
      simp only [if_neg hodd, sizeT, hfull, e, Nat.mod_eq_of_lt h]

theorem fullSize_eq (hsize : T.outDegreeSize * T.outDegreeSize ^ h < 2 ^ 64) :
    fullSize T (T.outDegreeSize ^ h) = lastIdx T.outDegreeSize h 0 + 1 := by
  have hD := T.two_le
  have hcl := lastIdx_closed T.pos h 0
  rw [Nat.zero_mul, Nat.zero_add] at hcl
  have hpos : 0 < T.outDegreeSize * T.outDegreeSize ^ h := Nat.mul_pos T.pos (T.leaves_pos h)
  have e : sizeT (sizeT (T.outDegreeSize ^ h * T.outDegreeSize) + (2 ^ 64 - 1)) =
      (lastIdx T.outDegreeSize h 0 + 1) * (T.outDegreeSize - 1) := by
    rw [Nat.mul_comm, Nat.succ_mul]
    simp only [sizeT, Nat.mod_eq_of_lt hsize]
    omega
  rw [fullSize, e, Nat.mul_div_cancel _ (by omega)]

theorem getBaseSize_eq {s : SegmentAllocator}
    (hsize : T.outDegreeSize * T.outDegreeSize ^ h < 2 ^ 64)
    (hs : s.heapNodeArrSz = lastIdx T.outDegreeSize h 0 + 1) :
    getBaseSize T s = T.outDegreeSize ^ h := by
  have hD := T.two_le
  have hcl := lastIdx_closed T.pos h 0
  rw [Nat.zero_mul, Nat.zero_add] at hcl
  have hmul : (lastIdx T.outDegreeSize h 0 + 1) * (T.outDegreeSize - 1) + 1 =
      T.outDegreeSize * T.outDegreeSize ^ h := by rw [Nat.succ_mul]; omega
  have hlt : (lastIdx T.outDegreeSize h 0 + 1) * (T.outDegreeSize - 1) < 2 ^ 64 := by omega
  simp only [getBaseSize, hs, sizeT, Nat.mod_eq_of_lt hlt, hmul, Nat.mod_eq_of_lt hsize]
  rw [Nat.mul_div_cancel_left _ T.pos]

theorem not_meets_nil {n : Nat} : ∀ I ∈ ([] : List Interval), ¬ Meets I a n :=
  fun _ hI => absurd hI List.not_mem_nil

theorem makeHeapNodeVecHelper_ok {fuel : Nat} (hfit : FitsLevel T h) (hfuel : h < fuel)
    (hlast : lastIdx T.outDegreeSize h idx < arr.size) :
    ∃ arr', makeHeapNodeVecHelper T fuel arr idx a (a + T.outDegreeSize ^ h) = .ok arr' ∧
      arr'.size = arr.size ∧ (∀ k, ¬ Desc T.outDegreeSize idx k → arr'[k]? = arr[k]?) ∧
      Rep T arr' [] h idx a := by
  induction h generalizing arr idx a fuel with
  | zero =>
    obtain ⟨fuel, rfl⟩ : ∃ f, fuel = f + 1 := ⟨fuel - 1, by omega⟩
    have hidx : idx < arr.size := hlast
    refine ⟨arr.setIfInBounds idx (freeNode T (T.outDegreeSize ^ 0)), ?_, by simp, set_frame,
      rep_freeNode hfit (by simp [hidx]) not_meets_nil fun g hg => by omega⟩
    simp [makeHeapNodeVecHelper, writeNode_ok hidx]
  | succ h ih =>
    obtain ⟨fuel, rfl⟩ : ∃ f, fuel = f + 1 := ⟨fuel - 1, by omega⟩
    have hidx : idx < arr.size := Nat.lt_of_le_of_lt (le_lastIdx T.pos _ _) hlast
    simp only [makeHeapNodeVecHelper, writeNode_ok hidx, ok_bind, if_neg (T.not_leaf h a),
      Nat.add_sub_cancel_left, T.leaves_div]
    set arr0 := arr.setIfInBounds idx (freeNode T (T.outDegreeSize ^ (h + 1))) with harr0
    obtain ⟨arr1, e1, hk⟩ := forLoop_ok (n := T.outDegreeSize) (s := arr0)
      (KidsInv T arr0 [] h idx a) .init fun i hi arr1 hk => by
        have hlast' : lastIdx T.outDegreeSize h (child T.outDegreeSize idx i) < arr1.size := by
          rw [hk.size, harr0, Array.size_setIfInBounds]
          exact Nat.lt_of_le_of_lt (lastIdx_child_le h hi) hlast
        obtain ⟨arr2, e2, hsz, hfr, hr⟩ := @ih arr1 _ (a + T.outDegreeSize ^ h * i) fuel hfit.pred
          (by omega) hlast'
        exact ⟨arr2, e2, hk.step hi hsz hfr hr⟩
    refine ⟨arr1, e1, by simp [hk.size, harr0],
      fun k hd => (hk.frame_self (.inr hd)).trans (set_frame k hd), rep_freeNode hfit ?_
        not_meets_nil ?_⟩
    · rw [hk.frame_self (.inl rfl), harr0]
      simp [hidx]
    · intro g hg i hi
      obtain rfl : h = g := by omega
      exact hk.done i hi

/-! ## Finding a run -/

/-- **The trace leads to a run** of the node's best length; the abort is not reached. -/
theorem seekOffset_ok {fuel : Nat} {n : HeapNode} (hfuel : h < fuel) (hr : Rep T arr outs h idx a)
    (hn : arr[idx]? = some n) (hc : n.c ≠ 0) :
    ∃ s, seekOffset T fuel arr idx a (a + T.outDegreeSize ^ h) = .ok s ∧ a ≤ s ∧
      s + n.c ≤ a + T.outDegreeSize ^ h ∧ Run (Free outs) s n.c := by
  induction h generalizing idx a fuel n with
  | zero =>
    obtain ⟨fuel, rfl⟩ : ∃ f, fuel = f + 1 := ⟨fuel - 1, by omega⟩
    obtain ⟨n', hn', hs⟩ := hr
    cases hn.symm.trans hn'
    obtain ⟨s, h1, h2, hrun⟩ := hs.best.run
    obtain rfl : s = a := by omega
    exact ⟨s, by simp [seekOffset], Nat.le_refl _, h2, hrun⟩
  | succ h ih =>
    obtain ⟨fuel, rfl⟩ : ∃ f, fuel = f + 1 := ⟨fuel - 1, by omega⟩
    obtain ⟨n', hn', hs, hin, hout⟩ := hr
    cases hn.symm.trans hn'
    have hI : ¬ Inside outs a (T.outDegreeSize ^ (h + 1)) := fun ⟨I, hI, h1, h2⟩ => by
      obtain ⟨s, h3, h4, hrun⟩ := hs.best.run
      exact hrun s (Nat.le_refl _) (by omega) I hI ⟨by omega, by omega⟩
    obtain ⟨ht, hkids⟩ := hout hI
    simp only [seekOffset, if_neg (T.not_leaf h a), readNode_of_getElem? hn, ok_bind, if_neg hc,
      Nat.add_sub_cancel_left, T.leaves_div]
    obtain ⟨j, hj, k, hk, ⟨htr, hkr, hbd, hrun⟩ | ⟨htr, hkc⟩⟩ := ht hc
    · have e := Nat.mul_succ (T.outDegreeSize ^ h) j
      rw [Nat.succ_eq_add_one] at e
      rw [← T.leaves_succ] at hbd
      have e' : a + T.outDegreeSize ^ h * j + T.outDegreeSize ^ h - k.r =
          a + T.outDegreeSize ^ h * (j + 1) - k.r := by omega
      simp only [htr, readNode_of_getElem? hk, ok_bind, if_true, e']
      exact ⟨_, rfl, by omega, hbd, hrun⟩
    · have hblk := T.block_le h hj
      obtain ⟨s, es, h1, h2, hrun⟩ := @ih _ _ fuel k (by omega) (hkids j hj) hk (by omega)
      simp only [htr]
      rw [hkc] at h2 hrun
      exact ⟨s, by simpa using es, by omega, by omega, hrun⟩

/-! ## Runs of calls -/

/-- The states that calls of `malloc` and `free` reach from the constructed allocator, with the
intervals returned and not freed since; `free` is called on these only. -/
inductive Reach (T : Params) (height : Nat) : SegmentAllocator → List Interval → Prop
  | make {s} : make T height = .ok s → Reach T height s []
  | malloc {s s' outs sz I} : Reach T height s outs → malloc T s sz = .ok (some I, s') →
      Reach T height s' (I :: outs)
  | mallocNone {s s' outs sz} : Reach T height s outs → malloc T s sz = .ok (none, s') →
      Reach T height s' outs
  | free {s s' outs I} : Reach T height s outs → I ∈ outs → free T s I = .ok s' →
      Reach T height s' (outs.erase I)

structure Inv (T : Params) (height : Nat) (s : SegmentAllocator) (outs : List Interval) :
    Prop where
  treeHeight : s.treeHeight = height
  arrSz : s.heapNodeArrSz = lastIdx T.outDegreeSize (height - 1) 0 + 1
  rep : Rep T s.heapNodeArr outs (height - 1) 0 0
  sep : Separate outs
  pos : ∀ I ∈ outs, 0 < I.2
  le : ∀ I ∈ outs, I.1 + I.2 ≤ T.outDegreeSize ^ (height - 1)

section
variable {s : SegmentAllocator} {height : Nat}

theorem make_ok (hf : Fits T height) : ∃ s, make T height = .ok s ∧ Inv T height s [] := by
  obtain ⟨h, rfl⟩ : ∃ h, height = h + 1 := ⟨height - 1, by have := hf.pos; omega⟩
  have hsize := hf.size
  rw [Nat.add_sub_cancel] at hsize
  have hbase : T.outDegreeSize ^ h < 2 ^ 64 :=
    Nat.lt_of_le_of_lt (Nat.le_mul_of_pos_left _ T.pos) hsize
  have hlast : lastIdx T.outDegreeSize h 0 <
      (Array.replicate (lastIdx T.outDegreeSize h 0 + 1) (⟨0, 0, 0, 0⟩ : HeapNode)).size := by simp
  obtain ⟨arr, e, hsz, -, hr⟩ := makeHeapNodeVecHelper_ok (a := 0) hf.level (Nat.lt_succ_self h)
    hlast
  rw [Nat.zero_add] at e
  refine ⟨⟨arr, lastIdx T.outDegreeSize h 0 + 1, h + 1⟩, ?_, rfl, rfl, hr, .nil,
    fun I hI => absurd hI List.not_mem_nil, fun I hI => absurd hI List.not_mem_nil⟩
  simp only [make, if_neg (Nat.succ_ne_zero h), Nat.add_sub_cancel,
    unsignedPow_eq T.pos h hbase, fullSize_eq hsize, e, ok_bind]

theorem Inv.baseSize (hi : Inv T height s outs) (hf : Fits T height) :
    getBaseSize T s = T.outDegreeSize ^ (height - 1) :=
  getBaseSize_eq hf.size hi.arrSz

theorem Inv.mark {outs' : List Interval} {mark : Nat → HeapNode} {I : Interval}
    (hi : Inv T height s outs) (hf : Fits T height) (hm : MarkStep T mark outs outs' I)
    (hpos : 0 < I.2) (hle : I.1 + I.2 ≤ T.outDegreeSize ^ (height - 1)) (hsep : Separate outs')
    (hpos' : ∀ J ∈ outs', 0 < J.2)
    (hle' : ∀ J ∈ outs', J.1 + J.2 ≤ T.outDegreeSize ^ (height - 1)) :
    ∃ s', markInterval T mark s I = .ok s' ∧ Inv T height s' outs' := by
  have hh := hf.pos
  have hlev : FitsLevel T (height - 1) := Fits.level (by rwa [Nat.sub_add_cancel hh])
  have e1 : max I.1 0 = I.1 := by omega
  have e2 : min (I.1 + I.2) (0 + T.outDegreeSize ^ (height - 1)) = I.1 + I.2 := by omega
  obtain ⟨arr', e, hsz, -, hr⟩ := markIntervalHelper_ok hm hlev
    (show height - 1 < s.treeHeight by rw [hi.treeHeight]; omega) s.heapNodeArr 0 0
    (by omega) hi.rep
  rw [e1, e2, Nat.zero_add] at e
  refine ⟨{ s with heapNodeArr := arr' }, ?_, hi.treeHeight, hi.arrSz, hr, hsep, hpos', hle'⟩
  simp only [markInterval, hi.baseSize hf, if_neg (show ¬ I.1 ≥ I.1 + I.2 by omega),
    if_neg (show ¬ I.1 + I.2 > T.outDegreeSize ^ (height - 1) by omega), e, ok_bind]

theorem Inv.free_ok {I : Interval} (hi : Inv T height s outs) (hf : Fits T height) (hI : I ∈ outs) :
    ∃ s', free T s I = .ok s' ∧ Inv T height s' (outs.erase I) :=
  hi.mark hf (markStep_unblock hi.sep hi.pos hI) (hi.pos I hI) (hi.le I hI)
    (hi.sep.sublist List.erase_sublist) (fun J hJ => hi.pos J (List.mem_of_mem_erase hJ))
    fun J hJ => hi.le J (List.mem_of_mem_erase hJ)

def HasRun (T : Params) (s : SegmentAllocator) (outs : List Interval) (sz : Nat) : Prop :=
  ∃ first, first + sz ≤ getBaseSize T s ∧ Run (Free outs) first sz

theorem Inv.malloc_ok (hi : Inv T height s outs) (hf : Fits T height) (sz : Nat) :
    (¬ (1 ≤ sz ∧ HasRun T s outs sz) ∧ malloc T s sz = .ok (none, s)) ∨
    ((1 ≤ sz ∧ HasRun T s outs sz) ∧ ∃ first s', malloc T s sz = .ok (some (first, sz), s') ∧
      first + sz ≤ getBaseSize T s ∧ Run (Free outs) first sz ∧
      Inv T height s' ((first, sz) :: outs)) := by
  have hh := hf.pos
  obtain ⟨root, hroot, hs⟩ := hi.rep.get
  have hbase := hi.baseSize hf
  have hmax : HasRun T s outs sz → sz ≤ root.c := fun ⟨f, h1, hrun⟩ =>
    hs.best.max f sz (by omega) (by omega) hrun
  have hsz : s.heapNodeArrSz ≠ 0 := by rw [hi.arrSz]; omega
  simp only [malloc, seekBlock, if_neg hsz, readNode_of_getElem? hroot, ok_bind]
  by_cases hc : root.c = 0
  · refine .inl ⟨fun ⟨h1, h2⟩ => by have := hmax h2; omega, ?_⟩
    by_cases h0 : sz = 0 <;> simp [hc, h0]
  obtain ⟨first, e, -, h2, hrun⟩ := seekOffset_ok
    (show height - 1 < s.treeHeight by rw [hi.treeHeight]; omega) hi.rep hroot hc
  rw [Nat.zero_add, ← hbase] at e h2
  simp only [if_neg hc, e, ok_bind]
  by_cases h0 : sz = 0
  · exact .inl ⟨fun ⟨h1, _⟩ => by omega, by simp [h0]⟩
  by_cases hlt : sz > root.c
  · exact .inl ⟨fun ⟨_, h2⟩ => by have := hmax h2; omega, by simp [h0, hlt]⟩
  have hrun' : Run (Free outs) first sz := hrun.sub (Nat.le_refl _) (by omega)
  have hsep : Separate ((first, sz) :: outs) := List.Pairwise.cons
    (fun J hJ i hc hcJ => hrun' i hc.1 hc.2 J hJ hcJ) hi.sep
  obtain ⟨s', e', hi'⟩ := hi.mark hf (markStep_block (I := (first, sz))
      fun i hc => hrun' i hc.1 hc.2) (by dsimp only; omega) (by dsimp only; omega) hsep
    (fun J hJ => by
      rcases List.mem_cons.1 hJ with rfl | hJ
      · dsimp only; omega
      · exact hi.pos J hJ)
    (fun J hJ => by
      rcases List.mem_cons.1 hJ with rfl | hJ
      · dsimp only; omega
      · exact hi.le J hJ)
  refine .inr ⟨⟨by omega, first, by omega, hrun'⟩, first, s', ?_, by omega, hrun', hi'⟩
  simp only [if_neg h0, if_neg hlt, blockInterval, e', ok_bind]

theorem Reach.inv (hf : Fits T height) (hr : Reach T height s outs) : Inv T height s outs := by
  induction hr with
  | make hs =>
    obtain ⟨s', e, hi⟩ := make_ok hf
    cases e.symm.trans hs
    exact hi
  | @malloc s s' outs sz I _ e ih =>
    rcases ih.malloc_ok hf sz with ⟨-, e'⟩ | ⟨-, first, s1, e', -, -, hi⟩
    · cases e'.symm.trans e
    · cases e'.symm.trans e
      exact hi
  | @mallocNone s s' outs sz _ e ih =>
    rcases ih.malloc_ok hf sz with ⟨-, e'⟩ | ⟨-, first, s1, e', -⟩
    · cases e'.symm.trans e
      exact ih
    · cases e'.symm.trans e
  | @free s s' outs I _ hI e ih =>
    obtain ⟨s1, e', hi⟩ := ih.free_ok hf hI
    cases e'.symm.trans e
    exact hi

end

/-- **The allocator refines a set of outstanding intervals**: from every reachable state a free of
an outstanding interval goes through, and `malloc` returns a free interval of the asked size exactly
when the size is positive and the tree has one, and otherwise changes nothing. -/
theorem malloc_refines {T : Params} {height : Nat} (hf : Fits T height) :
    (∃ s, make T height = .ok s ∧ Reach T height s []) ∧
    ∀ s outs, Reach T height s outs →
      getBaseSize T s = T.outDegreeSize ^ (height - 1) ∧
      (∀ I ∈ outs, ∃ s', free T s I = .ok s') ∧
      ∀ sz, ∃ res s', malloc T s sz = .ok (res, s') ∧
        (res.isSome ↔ 1 ≤ sz ∧ HasRun T s outs sz) ∧
        (∀ I, res = some I → I.2 = sz ∧ I.1 + sz ≤ getBaseSize T s ∧
          ∀ J ∈ outs, ∀ i, Covers I i → ¬ Covers J i) ∧
        (res = none → s' = s) := by
  obtain ⟨s, e, -⟩ := make_ok hf
  refine ⟨⟨s, e, .make e⟩, fun s outs hr => ?_⟩
  have hi := hr.inv hf
  refine ⟨hi.baseSize hf, fun I hI => ?_, fun sz => ?_⟩
  · obtain ⟨s', e', -⟩ := hi.free_ok hf hI
    exact ⟨s', e'⟩
  · rcases hi.malloc_ok hf sz with ⟨hno, e'⟩ | ⟨hyes, first, s', e', hle, hrun, -⟩
    · exact ⟨none, s, e', by simpa using hno, fun I hI => (by cases hI), fun _ => rfl⟩
    · refine ⟨some (first, sz), s', e', by simpa using hyes, fun I hI => ?_, fun hn => by cases hn⟩
      cases hI
      exact ⟨rfl, hle, fun J hJ i h1 h2 => hrun i h1.1 h1.2 J hJ h2⟩

/-- A tree of 16 leaves over `uint8_t` fits, and its first request for all of them is served. -/
theorem malloc_refines_sixteen : Fits ⟨4, 8, by decide⟩ 3 ∧
    ∃ s, make ⟨4, 8, by decide⟩ 3 = .ok s ∧
      ∃ I s', malloc ⟨4, 8, by decide⟩ s 16 = .ok (some I, s') ∧ I.1 + 16 ≤ 16 := by
  have hf : Fits ⟨4, 8, by decide⟩ 3 := ⟨by decide, by decide, by decide, by decide⟩
  obtain ⟨⟨s, e, hr⟩, hall⟩ := malloc_refines hf
  obtain ⟨hbase, -, hmalloc⟩ := hall s [] hr
  have hbase : getBaseSize ⟨4, 8, by decide⟩ s = 16 := hbase
  obtain ⟨res, s', e', hiff, hsome, -⟩ := hmalloc 16
  obtain ⟨I, rfl⟩ := Option.isSome_iff_exists.1
    (hiff.2 ⟨by decide, 0, by omega, fun i _ _ => free_nil i⟩)
  exact ⟨hf, s, e, I, s', e', by have := (hsome I rfl).2.1; omega⟩

/-- `malloc(128)` and `malloc(1)` after construction with two levels of out-degree 129 over
`uint8_t`. -/
def twoRequests : Except Fault (Option Interval × Option Interval) := do
  let T : Params := ⟨129, 8, by decide⟩
  let s ← make T 2
  let (b1, s) ← malloc T s 128
  let (b2, _) ← malloc T s 1
  .ok (b1, b2)

/-- A construction that goes through has written its first node inside the array. -/
theorem makeHeapNodeVecHelper_size {fuel first last : Nat} {arr' : Array HeapNode}
    (he : makeHeapNodeVecHelper T fuel arr idx first last = .ok arr') :
    idx < arr.size ∧ arr'.size = arr.size := by
  induction fuel generalizing arr arr' idx first last with
  | zero => cases he
  | succ fuel ih =>
    obtain ⟨arr1, e1, e2⟩ := bind_eq_ok he
    by_cases hidx : idx < arr.size
    swap
    · simp [writeNode, hidx] at e1
    rw [writeNode_ok hidx] at e1
    cases e1
    refine ⟨hidx, ?_⟩
    by_cases hleaf : first + 1 = last
    · rw [if_pos hleaf] at e2
      cases e2
      simp
    · rw [if_neg hleaf] at e2
      exact forLoop_inv (fun _ (a : Array HeapNode) => a.size = arr.size) e2 (by simp)
        fun i hi a a' e hs => (ih e).2.trans hs

theorem makeHeapNodeVecHelper_two {fuel n : Nat} {arr' : Array HeapNode} (hn : n ≠ 1)
    (he : makeHeapNodeVecHelper T (fuel + 1) arr 0 0 n = .ok arr') :
    T.outDegreeSize < arr.size := by
  have hD := T.two_le
  obtain ⟨arr1, e1, e2⟩ := bind_eq_ok he
  have hsz : arr1.size = arr.size := by
    have hidx := (makeHeapNodeVecHelper_size he).1
    rw [writeNode_ok hidx] at e1
    cases e1
    simp
  rw [if_neg (by omega)] at e2
  refine (forLoop_inv (fun i (a : Array HeapNode) => a.size = arr.size ∧ (i ≠ 0 → i < arr.size)) e2
    ⟨hsz, fun h => absurd rfl h⟩ fun i hi a a' e ⟨hs, _⟩ => ?_).2 (by omega)
  obtain ⟨h1, h2⟩ := makeHeapNodeVecHelper_size e
  unfold child at h1
  exact ⟨h2.trans hs, fun _ => by omega⟩

/-- **Two sizes the arithmetic is not exact for.** 129 leaves fit `uint8_t`, but the trace
`128 << 1` does not, and the second request is answered with a leaf of the first. With out-degree
`2 ^ 33` and two levels the product that sizes the array does not fit. -/
theorem malloc_overlap : (129 ^ (2 - 1) < 2 ^ 8 ∧ 129 * 129 ^ (2 - 1) < 2 ^ 64 ∧
      twoRequests = .ok (some (0, 128), some (0, 1))) ∧
    ∀ s, make ⟨2 ^ 33, 64, by decide⟩ 2 ≠ .ok s := by
  refine ⟨⟨by decide, by decide, ?_⟩, fun s hs => ?_⟩
  · simp only [twoRequests, make, unsignedPow_eq (show 0 < 129 by decide) (2 - 1) (by decide)]
    decide +kernel
  · simp only [make, if_neg (show ¬ 2 = 0 by decide),
      unsignedPow_eq (show 0 < 2 ^ 33 by decide) (2 - 1) (by decide)] at hs
    obtain ⟨arr, e, -⟩ := bind_eq_ok hs
    have := makeHeapNodeVecHelper_two (by decide) e
    rw [Array.size_replicate] at this
    exact absurd this (by decide)

end CudaMalloc
