import NeuralNetwork.CudaMalloc.Proof.Rebind

/-!
# The node array represents the outstanding intervals

`Rep T arr outs h idx a`: the subtree of height `h` at `idx`, over the `D ^ h` leaves from `a` on,
caches the runs of leaves that no interval of `outs` covers. A node inside one outstanding interval
is blocked, and its children are those of a wholly free tree: they are the ones it had when it was
blocked, and no call descends below it until it is freed.
-/

namespace CudaMalloc

open Cpp Loop DaryTree FreeRun

/-- `(first, size)`. -/
abbrev Interval := Nat × Nat

def Covers (I : Interval) (i : Nat) : Prop := I.1 ≤ i ∧ i < I.1 + I.2

/-- No outstanding interval covers the leaf. -/
def Free (outs : List Interval) (i : Nat) : Prop := ∀ I ∈ outs, ¬ Covers I i

/-- The `n` leaves from `a` on lie inside one outstanding interval. -/
def Inside (outs : List Interval) (a n : Nat) : Prop :=
  ∃ I ∈ outs, I.1 ≤ a ∧ a + n ≤ I.1 + I.2

def Meets (I : Interval) (a n : Nat) : Prop := ∃ i, a ≤ i ∧ i < a + n ∧ Covers I i

def Rep (T : Params) (arr : Array HeapNode) : List Interval → Nat → Nat → Nat → Prop
  | outs, 0, idx, a => ∃ n, arr[idx]? = some n ∧ Summary (Free outs) a 1 n.l n.r n.c
  | outs, h + 1, idx, a => ∃ n, arr[idx]? = some n ∧
      Summary (Free outs) a (T.outDegreeSize ^ (h + 1)) n.l n.r n.c ∧
      (Inside outs a (T.outDegreeSize ^ (h + 1)) → ∀ i < T.outDegreeSize,
        Rep T arr [] h (child T.outDegreeSize idx i) (a + T.outDegreeSize ^ h * i)) ∧
      (¬ Inside outs a (T.outDegreeSize ^ (h + 1)) →
        TraceOk T (Free outs) arr idx a (T.outDegreeSize ^ h) n ∧ ∀ i < T.outDegreeSize,
          Rep T arr outs h (child T.outDegreeSize idx i) (a + T.outDegreeSize ^ h * i))

variable {T : Params} {P Q : Nat → Prop} {arr arr' : Array HeapNode} {outs outs' : List Interval}
  {h idx a : Nat}

theorem Params.pos (T : Params) : 0 < T.outDegreeSize := by have := T.two_le; omega

theorem Params.leaves_pos (T : Params) (h : Nat) : 0 < T.outDegreeSize ^ h := Nat.pow_pos T.pos

theorem Params.leaves_succ (T : Params) (h : Nat) :
    T.outDegreeSize ^ (h + 1) = T.outDegreeSize ^ h * T.outDegreeSize := Nat.pow_succ ..

theorem Params.leaves_div (T : Params) (h : Nat) :
    T.outDegreeSize ^ (h + 1) / T.outDegreeSize = T.outDegreeSize ^ h := by
  rw [T.leaves_succ, Nat.mul_div_cancel _ T.pos]

theorem Params.not_leaf (T : Params) (h a : Nat) : ¬ a + 1 = a + T.outDegreeSize ^ (h + 1) := by
  have hpos := T.leaves_pos h
  have : T.outDegreeSize ^ h * 2 ≤ T.outDegreeSize ^ (h + 1) := by
    rw [T.leaves_succ]; exact Nat.mul_le_mul_left _ T.two_le
  omega

theorem Params.block_le (T : Params) {i : Nat} (h : Nat) (hi : i < T.outDegreeSize) :
    T.outDegreeSize ^ h * i + T.outDegreeSize ^ h ≤ T.outDegreeSize ^ (h + 1) := by
  rw [T.leaves_succ, ← Nat.mul_succ]; exact Nat.mul_le_mul_left _ hi

theorem Rep.get (hr : Rep T arr outs h idx a) : ∃ n, arr[idx]? = some n ∧
    Summary (Free outs) a (T.outDegreeSize ^ h) n.l n.r n.c := by
  cases h with
  | zero => simpa only [Rep, Nat.pow_zero] using hr
  | succ h => obtain ⟨n, hn, hs, -⟩ := hr; exact ⟨n, hn, hs⟩

/-! ## What `Rep` depends on -/

variable {n : HeapNode}

theorem TraceOk.frame {sub : Nat} (ht : TraceOk T P arr idx a sub n) (hf : ∀ i < T.outDegreeSize,
      arr'[child T.outDegreeSize idx i]? = arr[child T.outDegreeSize idx i]?) :
    TraceOk T P arr' idx a sub n := fun h0 => by
  obtain ⟨j, hj, k, hk, hcase⟩ := ht h0
  exact ⟨j, hj, k, (hf j hj).trans hk, hcase⟩

theorem TraceOk.congr {sub : Nat} (ht : TraceOk T P arr idx a sub n)
    (hPQ : ∀ i, a ≤ i → i < a + sub * T.outDegreeSize → (P i → Q i)) :
    TraceOk T Q arr idx a sub n := fun h0 => by
  obtain ⟨j, hj, k, hk, ⟨htr, hkr, hbd, hrun⟩ | hleft⟩ := ht h0
  · refine ⟨j, hj, k, hk, .inl ⟨htr, hkr, hbd, hrun.congr fun i h1 h2 => hPQ i ?_ (by omega)⟩⟩
    have := Nat.mul_succ sub j
    rw [Nat.succ_eq_add_one] at this
    omega
  · exact ⟨j, hj, k, hk, .inr hleft⟩

theorem Rep.frame (hr : Rep T arr outs h idx a)
    (hf : ∀ k, Desc T.outDegreeSize idx k → arr'[k]? = arr[k]?) : Rep T arr' outs h idx a := by
  induction h generalizing outs idx a with
  | zero =>
    obtain ⟨n, hn, hs⟩ := hr
    exact ⟨n, (hf idx .refl).trans hn, hs⟩
  | succ h ih =>
    obtain ⟨n, hn, hs, hin, hout⟩ := hr
    refine ⟨n, (hf idx .refl).trans hn, hs, fun hI i hi => ?_, fun hI => ⟨?_, fun i hi => ?_⟩⟩
    · exact ih (hin hI i hi) fun k hk => hf k (hk.of_child hi)
    · exact (hout hI).1.frame fun i hi => hf _ (desc_child hi)
    · exact ih ((hout hI).2 i hi) fun k hk => hf k (hk.of_child hi)

/-- The two lists have the same intervals that meet `[a, a + n)`. -/
def Agree (outs outs' : List Interval) (a n : Nat) : Prop :=
  ∀ I, Meets I a n → (I ∈ outs ↔ I ∈ outs')

theorem Agree.symm {n : Nat} (h : Agree outs outs' a n) : Agree outs' outs a n :=
  fun I hI => (h I hI).symm

theorem Agree.sub {n b m : Nat} (h : Agree outs outs' a n) (h1 : a ≤ b) (h2 : b + m ≤ a + n) :
    Agree outs outs' b m := fun I ⟨i, hi, hi', hc⟩ => h I ⟨i, by omega, by omega, hc⟩

theorem Agree.free {n i : Nat} (h : Agree outs outs' a n) (h1 : a ≤ i) (h2 : i < a + n) :
    Free outs i → Free outs' i := fun hf I hI hc => hf I ((h I ⟨i, h1, h2, hc⟩).2 hI) hc

theorem Agree.inside {n : Nat} (h : Agree outs outs' a n) (hn : 0 < n) :
    Inside outs a n → Inside outs' a n := fun ⟨I, hI, h1, h2⟩ =>
  ⟨I, (h I ⟨a, Nat.le_refl _, by omega, h1, by omega⟩).1 hI, h1, h2⟩

theorem Rep.congr (hr : Rep T arr outs h idx a) (ha : Agree outs outs' a (T.outDegreeSize ^ h)) :
    Rep T arr outs' h idx a := by
  induction h generalizing outs outs' idx a with
  | zero =>
    obtain ⟨n, hn, hs⟩ := hr
    exact ⟨n, hn, hs.congr fun i h1 h2 => ⟨ha.free h1 h2, ha.symm.free h1 h2⟩⟩
  | succ h ih =>
    obtain ⟨n, hn, hs, hin, hout⟩ := hr
    have hpos := T.leaves_pos (h + 1)
    refine ⟨n, hn, hs.congr fun i h1 h2 => ⟨ha.free h1 h2, ha.symm.free h1 h2⟩,
      fun hI => hin (ha.symm.inside hpos hI), fun hI => ?_⟩
    obtain ⟨ht, hc⟩ := hout fun hI' => hI (ha.inside hpos hI')
    refine ⟨ht.congr fun i h1 h2 => ha.free h1 (by rwa [T.leaves_succ]), fun i hi => ?_⟩
    have := T.block_le h hi
    exact ih (hc i hi) (ha.sub (by omega) (by omega))

theorem Rep.of_free (hr : Rep T arr outs h idx a)
    (hf : ∀ I ∈ outs, ¬ Meets I a (T.outDegreeSize ^ h)) : Rep T arr [] h idx a :=
  hr.congr fun I hI => ⟨fun hm => (hf I hm hI).elim, fun hm => absurd hm List.not_mem_nil⟩

theorem Rep.to_free (hr : Rep T arr [] h idx a)
    (hf : ∀ I ∈ outs, ¬ Meets I a (T.outDegreeSize ^ h)) : Rep T arr outs h idx a :=
  hr.congr fun I hI => ⟨fun hm => absurd hm List.not_mem_nil, fun hm => (hf I hm hI).elim⟩

theorem Rep.set_child {i : Nat} (hi : i < T.outDegreeSize)
    (hr : Rep T arr outs h (child T.outDegreeSize idx i) a) :
    Rep T (arr.setIfInBounds idx n) outs h (child T.outDegreeSize idx i) a :=
  hr.frame fun k hk => by
    rw [Array.getElem?_setIfInBounds, if_neg]
    rintro rfl
    exact not_desc_child_self hi hk

theorem kids_of_rep {kid : Nat → HeapNode}
    (hr : ∀ i < T.outDegreeSize,
      Rep T arr outs h (child T.outDegreeSize idx i) (a + T.outDegreeSize ^ h * i))
    (hk : ∀ i < T.outDegreeSize, arr[child T.outDegreeSize idx i]? = some (kid i)) :
    Kids T (Free outs) arr idx a (T.outDegreeSize ^ h) kid where
  get := hk
  sum := fun i hi => by
    obtain ⟨n, hn, hs⟩ := (hr i hi).get
    rw [hk i hi] at hn
    cases hn
    exact hs

theorem exists_kids
    (hr : ∀ i < T.outDegreeSize,
      Rep T arr outs h (child T.outDegreeSize idx i) (a + T.outDegreeSize ^ h * i)) :
    ∃ kid, Kids T (Free outs) arr idx a (T.outDegreeSize ^ h) kid := by
  refine ⟨fun i => (arr[child T.outDegreeSize idx i]?).getD ⟨0, 0, 0, 0⟩,
    kids_of_rep hr fun i hi => ?_⟩
  obtain ⟨n, hn, -⟩ := (hr i hi).get
  simp [hn]

/-! ## Free and blocked nodes -/

def FitsLevel (T : Params) (h : Nat) : Prop :=
  T.outDegreeSize ^ h < 2 ^ T.nodeBits ∧
    (h ≠ 0 → 2 * T.outDegreeSize ≤ 2 ^ T.nodeBits ∧ 2 * T.outDegreeSize ≤ 2 ^ 64)

theorem FitsLevel.pred (hf : FitsLevel T (h + 1)) : FitsLevel T h :=
  ⟨Nat.lt_of_le_of_lt (Nat.pow_le_pow_right T.pos (by omega)) hf.1, fun _ => hf.2 (by omega)⟩

theorem freeNode_summary (hf : FitsLevel T h)
    (hfree : Run (Free outs) a (T.outDegreeSize ^ h)) :
    Summary (Free outs) a (T.outDegreeSize ^ h) (freeNode T (T.outDegreeSize ^ h)).l
      (freeNode T (T.outDegreeSize ^ h)).r (freeNode T (T.outDegreeSize ^ h)).c := by
  have e : nodeType T (T.outDegreeSize ^ h) = T.outDegreeSize ^ h := Nat.mod_eq_of_lt hf.1
  simp only [freeNode, e]
  exact summary_free hfree

/-- The trace of a wholly free node points at the start of its first child. -/
theorem freeNode_traceOk (hf : FitsLevel T (h + 1))
    (hfree : Run (Free outs) a (T.outDegreeSize ^ (h + 1)))
    (hr : ∀ i < T.outDegreeSize,
      Rep T arr outs h (child T.outDegreeSize idx i) (a + T.outDegreeSize ^ h * i)) :
    TraceOk T (Free outs) arr idx a (T.outDegreeSize ^ h)
      (freeNode T (T.outDegreeSize ^ (h + 1))) := fun _ => by
  have hD := T.two_le
  obtain ⟨k, hk, hs⟩ := (hr 0 T.pos).get
  have hle := T.block_le h T.pos
  have hkr : k.r = T.outDegreeSize ^ h := Nat.le_antisymm hs.tail.le
    (hs.tail.le_of_run (Nat.le_refl _) (hfree.sub (by omega) (by omega)))
  have e : nodeType T (T.outDegreeSize ^ (h + 1)) = T.outDegreeSize ^ (h + 1) :=
    Nat.mod_eq_of_lt hf.1
  have e0 : a + T.outDegreeSize ^ h * (0 + 1) - k.r = a := by rw [hkr]; omega
  obtain ⟨hw, h64⟩ := hf.2 (by omega)
  refine ⟨0, T.pos, k, hk, .inl ⟨readTrace_makeTrace _ (by omega) (by omega), hs.tail.le, ?_, ?_⟩⟩
  · simp only [freeNode, e, e0]
    rw [T.leaves_succ]
  · simp only [freeNode, e, e0]
    exact hfree

@[simp] theorem free_nil (i : Nat) : Free [] i := fun _ hI => absurd hI List.not_mem_nil

theorem not_inside_nil {n : Nat} : ¬ Inside [] a n := fun ⟨_, hI, _⟩ => absurd hI List.not_mem_nil

/-- **Writing a free node** over children that represent a free interval. -/
theorem rep_freeNode (hf : FitsLevel T h) (hidx : arr[idx]? = some (freeNode T (T.outDegreeSize ^ h)))
    (hfree : ∀ I ∈ outs, ¬ Meets I a (T.outDegreeSize ^ h))
    (hr : ∀ g, h = g + 1 → ∀ i < T.outDegreeSize,
      Rep T arr [] g (child T.outDegreeSize idx i) (a + T.outDegreeSize ^ g * i)) :
    Rep T arr outs h idx a := by
  refine Rep.to_free ?_ hfree
  have hrun : Run (Free []) a (T.outDegreeSize ^ h) := fun i _ _ => free_nil i
  cases h with
  | zero => exact ⟨_, hidx, by simpa using freeNode_summary hf hrun⟩
  | succ h =>
    exact ⟨_, hidx, freeNode_summary hf hrun, fun hI => absurd hI not_inside_nil,
      fun _ => ⟨freeNode_traceOk hf hrun (hr h rfl), hr h rfl⟩⟩

/-- **Writing a blocked node** over children that represent a free interval. -/
theorem rep_blockedNode (hidx : arr[idx]? = some (blockedNode T))
    (hin : Inside outs a (T.outDegreeSize ^ h))
    (hr : ∀ g, h = g + 1 → ∀ i < T.outDegreeSize,
      Rep T arr [] g (child T.outDegreeSize idx i) (a + T.outDegreeSize ^ g * i)) :
    Rep T arr outs h idx a := by
  have hs : Summary (Free outs) a (T.outDegreeSize ^ h) 0 0 0 := summary_taken fun i h1 h2 hf => by
    obtain ⟨I, hI, hI1, hI2⟩ := hin
    exact hf I hI ⟨by omega, by omega⟩
  have e : nodeType T 0 = 0 := Nat.zero_mod _
  cases h with
  | zero => exact ⟨_, hidx, by simpa [blockedNode, e] using hs⟩
  | succ h =>
    exact ⟨_, hidx, by simpa only [blockedNode, e] using hs, fun _ => hr h rfl,
      fun hI => absurd hin hI⟩

end CudaMalloc
