import NeuralNetwork.CudaMalloc.Proof.Refine

/-!
# The node array is a function of the outstanding intervals

`Canon T arr outs h idx a`: the subtree of height `h` at `idx` is the one that the intervals `outs`
determine. A node inside one of them is the blocked node over a wholly free subtree, and any other
node above the leaves is the one that `rebind_heap_node` would write (`rebound`). Marking an interval
keeps this (`markIntervalHelper_canon`) and two arrays that are canonical for the same intervals are
equal (`Canon.unique`), so the allocator forgets its history (`history_independent`).
-/

namespace CudaMalloc

open Cpp Loop DaryTree FreeRun

variable {T : Params} {arr arr' : Array HeapNode} {outs outs' : List Interval} {h idx a : Nat}

/-! ## The node that rebinding writes -/

def rebound (T : Params) (arr : Array HeapNode) (idx sub : Nat) : Except Fault HeapNode := do
  let leftSz ← edgeSize T arr (fun i => child T.outDegreeSize idx i) HeapNode.l sub
  let rightSz ← edgeSize T arr (fun i => child T.outDegreeSize idx (T.outDegreeSize - i - 1))
    HeapNode.r sub
  let other ← otherBest T arr idx
  let x ← crossRun T arr idx sub
  let best := if x.takeBest.cBestSum ≤ other.sum then (other.sum, other.first, false)
    else (x.takeBest.cBestSum, x.takeBest.cBestFirst, true)
  .ok ⟨nodeType T leftSz, nodeType T rightSz, nodeType T best.1,
    nodeType T (makeTrace best.2.1 best.2.2)⟩

variable {sub : Nat} {n : HeapNode} {field : HeapNode → Nat} {childIdx : Nat → Nat}

theorem writeNode_inv (he : writeNode arr idx n = .ok arr') :
    idx < arr.size ∧ arr' = arr.setIfInBounds idx n := by
  unfold writeNode at he
  split at he
  · case isTrue hlt => exact ⟨hlt, (Except.ok.inj he).symm⟩
  · cases he

theorem rebindHeapNode_inv {last : Nat} (he : rebindHeapNode T arr idx a last = .ok arr') :
    ∃ n, rebound T arr idx ((last - a) / T.outDegreeSize) = .ok n ∧ idx < arr.size ∧
      arr' = arr.setIfInBounds idx n := by
  unfold rebindHeapNode at he
  split at he
  · cases he
  obtain ⟨l, el, he⟩ := bind_eq_ok he
  obtain ⟨r, er, he⟩ := bind_eq_ok he
  obtain ⟨b, eb, he⟩ := bind_eq_ok he
  obtain ⟨x, ex, he⟩ := bind_eq_ok he
  obtain ⟨hlt, harr⟩ := writeNode_inv he
  refine ⟨_, ?_, hlt, harr⟩
  simp only [rebound, el, er, eb, ex, ok_bind]
  rfl

theorem readNode_congr {k : Nat} (hk : arr[k]? = arr'[k]?) : readNode arr k = readNode arr' k := by
  unfold readNode
  rw [hk]

theorem edgeSize_congr (hk : ∀ i < T.outDegreeSize, arr[childIdx i]? = arr'[childIdx i]?) :
    edgeSize T arr childIdx field sub = edgeSize T arr' childIdx field sub := by
  apply forBreak_congr
  intro i hi sum
  rw [readNode_congr (hk i hi)]

theorem rebound_congr (hk : ∀ i < T.outDegreeSize,
      arr[child T.outDegreeSize idx i]? = arr'[child T.outDegreeSize idx i]?) :
    rebound T arr idx sub = rebound T arr' idx sub := by
  have hother : otherBest T arr idx = otherBest T arr' idx := by
    apply forLoop_congr
    intro i hi b
    rw [readNode_congr (hk i hi)]
  have hcross : crossRun T arr idx sub = crossRun T arr' idx sub := by
    apply forLoop_congr
    intro i hi x
    rw [readNode_congr (hk i hi)]
  unfold rebound
  rw [edgeSize_congr hk, edgeSize_congr fun i hi => hk (T.outDegreeSize - i - 1) (by omega), hother,
    hcross]

theorem edgeSize_free (hk : ∀ i < T.outDegreeSize, ∃ n, arr[childIdx i]? = some n ∧ field n = sub) :
    edgeSize T arr childIdx field sub = .ok (sub * T.outDegreeSize) := by
  have hrun : ∃ l, edgeSize T arr childIdx field sub = .ok l ∧ l = sub * T.outDegreeSize := by
    refine forBreak_ok (fun i sum => sum = sub * i) _ (Nat.mul_zero sub).symm ?_ fun s hs => hs
    rintro i hi sum rfl
    obtain ⟨n, hn, hfield⟩ := hk i hi
    refine .inl ⟨sub * i + sub, ?_, rfl⟩
    rw [readNode_of_getElem? hn, ok_bind, hfield]
    simp
  obtain ⟨l, e, rfl⟩ := hrun
  exact e

/-- **Rebinding over free children** writes the free node. -/
theorem rebound_free (hf : FitsLevel T (h + 1))
    (hk : ∀ i < T.outDegreeSize,
      arr[child T.outDegreeSize idx i]? = some (freeNode T (T.outDegreeSize ^ h))) :
    rebound T arr idx (T.outDegreeSize ^ h) = .ok (freeNode T (T.outDegreeSize ^ (h + 1))) := by
  have hD := T.two_le
  have hpos := T.leaves_pos h
  have e : nodeType T (T.outDegreeSize ^ h) = T.outDegreeSize ^ h := Nat.mod_eq_of_lt hf.pred.1
  have hleft : edgeSize T arr (fun i => child T.outDegreeSize idx i) HeapNode.l (T.outDegreeSize ^ h) =
      .ok (T.outDegreeSize ^ h * T.outDegreeSize) := edgeSize_free fun i hi => ⟨_, hk i hi, e⟩
  have hright : edgeSize T arr (fun i => child T.outDegreeSize idx (T.outDegreeSize - i - 1))
      HeapNode.r (T.outDegreeSize ^ h) = .ok (T.outDegreeSize ^ h * T.outDegreeSize) :=
    edgeSize_free fun i hi => ⟨_, hk _ (by omega), e⟩
  obtain ⟨b, hother, hb⟩ : ∃ b, otherBest T arr idx = .ok b ∧ b.sum ≤ T.outDegreeSize ^ h := by
    refine forLoop_ok (fun _ (b : OtherBest) => b.sum ≤ T.outDegreeSize ^ h) (Nat.zero_le _) ?_
    intro i hi b hb
    rw [readNode_of_getElem? (hk i hi), ok_bind]
    by_cases hlt : b.sum < (freeNode T (T.outDegreeSize ^ h)).c
    · exact ⟨_, if_pos hlt, e.le⟩
    · exact ⟨_, if_neg hlt, hb⟩
  obtain ⟨x, hcross, rfl⟩ : ∃ x, crossRun T arr idx (T.outDegreeSize ^ h) = .ok x ∧
      x = ⟨0, T.outDegreeSize ^ h * T.outDegreeSize, 0, 0⟩ := by
    refine forLoop_ok (fun i (x : CrossRun) => x = ⟨0, T.outDegreeSize ^ h * i, 0, 0⟩) rfl ?_
    rintro i hi x rfl
    rw [readNode_of_getElem? (hk i hi), ok_bind]
    refine ⟨_, if_neg (not_not.2 e), ?_⟩
    simp only [freeNode, e, Nat.mul_succ]
  have hlong : T.outDegreeSize ^ h * 2 ≤ T.outDegreeSize ^ h * T.outDegreeSize :=
    Nat.mul_le_mul_left _ hD
  have htake : CrossRun.takeBest ⟨0, T.outDegreeSize ^ h * T.outDegreeSize, 0, 0⟩ =
      ⟨0, T.outDegreeSize ^ h * T.outDegreeSize, T.outDegreeSize ^ h * T.outDegreeSize, 0⟩ :=
    if_pos (by dsimp only; omega)
  have hnot : ¬ T.outDegreeSize ^ h * T.outDegreeSize ≤ b.sum := by omega
  simp only [rebound, hleft, hright, hother, hcross, htake, ok_bind, if_neg hnot, T.leaves_succ]
  rfl

/-! ## The canonical array -/

def Canon (T : Params) (arr : Array HeapNode) : List Interval → Nat → Nat → Nat → Prop
  | outs, 0, idx, a =>
      (Inside outs a 1 → arr[idx]? = some (blockedNode T)) ∧
      (¬ Inside outs a 1 → arr[idx]? = some (freeNode T 1))
  | outs, h + 1, idx, a =>
      (Inside outs a (T.outDegreeSize ^ (h + 1)) → arr[idx]? = some (blockedNode T) ∧
        ∀ i < T.outDegreeSize,
          Canon T arr [] h (child T.outDegreeSize idx i) (a + T.outDegreeSize ^ h * i)) ∧
      (¬ Inside outs a (T.outDegreeSize ^ (h + 1)) →
        (∃ n, rebound T arr idx (T.outDegreeSize ^ h) = .ok n ∧ arr[idx]? = some n) ∧
        ∀ i < T.outDegreeSize,
          Canon T arr outs h (child T.outDegreeSize idx i) (a + T.outDegreeSize ^ h * i))

theorem Canon.free_node (hf : FitsLevel T h) (hc : Canon T arr [] h idx a) :
    arr[idx]? = some (freeNode T (T.outDegreeSize ^ h)) := by
  induction h generalizing idx a with
  | zero => exact hc.2 not_inside_nil
  | succ h ih =>
    obtain ⟨⟨n, hn, hget⟩, hkids⟩ := hc.2 not_inside_nil
    rw [rebound_free hf fun i hi => ih hf.pred (hkids i hi)] at hn
    rw [hget, ← Except.ok.inj hn]

theorem Canon.frame (hc : Canon T arr outs h idx a)
    (hf : ∀ k, Desc T.outDegreeSize idx k → arr'[k]? = arr[k]?) : Canon T arr' outs h idx a := by
  induction h generalizing outs idx a with
  | zero =>
    rw [Canon, hf idx .refl]
    exact hc
  | succ h ih =>
    rw [Canon, hf idx .refl, rebound_congr fun i hi => hf _ (desc_child hi)]
    obtain ⟨hin, hout⟩ := hc
    refine ⟨fun hI => ⟨(hin hI).1, fun i hi => ?_⟩, fun hI => ⟨(hout hI).1, fun i hi => ?_⟩⟩
    · exact ih ((hin hI).2 i hi) fun k hk => hf k (hk.of_child hi)
    · exact ih ((hout hI).2 i hi) fun k hk => hf k (hk.of_child hi)

theorem Canon.congr (hc : Canon T arr outs h idx a) (ha : Agree outs outs' a (T.outDegreeSize ^ h)) :
    Canon T arr outs' h idx a := by
  induction h generalizing outs outs' idx a with
  | zero =>
    have hI : Inside outs' a 1 ↔ Inside outs a 1 := ⟨ha.symm.inside Nat.one_pos, ha.inside Nat.one_pos⟩
    rw [Canon, hI]
    exact hc
  | succ h ih =>
    have hpos := T.leaves_pos (h + 1)
    have hI : Inside outs' a (T.outDegreeSize ^ (h + 1)) ↔ Inside outs a (T.outDegreeSize ^ (h + 1)) :=
      ⟨ha.symm.inside hpos, ha.inside hpos⟩
    rw [Canon, hI]
    obtain ⟨hin, hout⟩ := hc
    refine ⟨hin, fun hn => ⟨(hout hn).1, fun i hi => ?_⟩⟩
    have := T.block_le h hi
    exact ih ((hout hn).2 i hi) (ha.sub (by omega) (by omega))

theorem Canon.of_free (hc : Canon T arr outs h idx a)
    (hf : ∀ I ∈ outs, ¬ Meets I a (T.outDegreeSize ^ h)) : Canon T arr [] h idx a :=
  hc.congr fun I hI => ⟨fun hm => (hf I hm hI).elim, fun hm => absurd hm List.not_mem_nil⟩

theorem Canon.to_free (hc : Canon T arr [] h idx a)
    (hf : ∀ I ∈ outs, ¬ Meets I a (T.outDegreeSize ^ h)) : Canon T arr outs h idx a :=
  hc.congr fun I hI => ⟨fun hm => absurd hm List.not_mem_nil, fun hm => (hf I hm hI).elim⟩

theorem Canon.set_child {i : Nat} (hi : i < T.outDegreeSize)
    (hc : Canon T arr outs h (child T.outDegreeSize idx i) a) :
    Canon T (arr.setIfInBounds idx n) outs h (child T.outDegreeSize idx i) a := by
  apply hc.frame
  intro k hk
  rw [Array.getElem?_setIfInBounds, if_neg]
  rintro rfl
  exact not_desc_child_self hi hk

theorem rebound_set :
    rebound T (arr.setIfInBounds idx n) idx sub = rebound T arr idx sub := by
  apply rebound_congr
  intro i hi
  rw [Array.getElem?_setIfInBounds, if_neg]
  exact Nat.ne_of_lt (child_gt hi)

/-- **Two arrays that are canonical for the same intervals are equal** on the subtree. -/
theorem Canon.unique (hc : Canon T arr outs h idx a) (hc' : Canon T arr' outs h idx a) :
    ∀ d ≤ h, ∀ k, (parent T.outDegreeSize)^[d] k = idx → arr[k]? = arr'[k]? := by
  induction h generalizing outs idx a with
  | zero =>
    intro d hd k hk
    obtain rfl : d = 0 := by omega
    obtain rfl : k = idx := hk
    by_cases hI : Inside outs a 1
    · rw [hc.1 hI, hc'.1 hI]
    · rw [hc.2 hI, hc'.2 hI]
  | succ h ih =>
    have hkids : ∀ i < T.outDegreeSize, ∀ d ≤ h, ∀ k,
        (parent T.outDegreeSize)^[d] k = child T.outDegreeSize idx i → arr[k]? = arr'[k]? := by
      intro i hi
      by_cases hI : Inside outs a (T.outDegreeSize ^ (h + 1))
      · exact ih ((hc.1 hI).2 i hi) ((hc'.1 hI).2 i hi)
      · exact ih ((hc.2 hI).2 i hi) ((hc'.2 hI).2 i hi)
    have hroot : arr[idx]? = arr'[idx]? := by
      by_cases hI : Inside outs a (T.outDegreeSize ^ (h + 1))
      · rw [(hc.1 hI).1, (hc'.1 hI).1]
      · obtain ⟨n, hn, hget⟩ := (hc.2 hI).1
        obtain ⟨n', hn', hget'⟩ := (hc'.2 hI).1
        rw [rebound_congr fun i hi => hkids i hi 0 (Nat.zero_le _) _ rfl, hn'] at hn
        rw [hget, hget', Except.ok.inj hn]
    intro d hd k hk
    induction d with
    | zero =>
      obtain rfl : k = idx := hk
      exact hroot
    | succ d ihd =>
      rw [Function.iterate_succ_apply'] at hk
      rcases Nat.eq_zero_or_pos ((parent T.outDegreeSize)^[d] k) with h0 | hpos
      · apply ihd (by omega)
        rw [h0, ← hk, h0]
        simp [parent]
      · obtain ⟨i, hi, hm⟩ := exists_child T.pos hpos
        rw [hk] at hm
        exact hkids i hi d (by omega) k hm

/-! ## Marking an interval -/

section
variable {mark : Nat → HeapNode} {I : Interval} {fuel : Nat}

theorem markIntervalHelper_frame {f l e : Nat}
    (he : markIntervalHelper T mark fuel arr idx f l a e = .ok arr') :
    arr'.size = arr.size ∧ ∀ k, ¬ Desc T.outDegreeSize idx k → arr'[k]? = arr[k]? := by
  induction fuel generalizing arr arr' idx f l a e with
  | zero => cases he
  | succ fuel ih =>
    unfold markIntervalHelper at he
    split at he
    · obtain ⟨-, rfl⟩ := writeNode_inv he
      exact ⟨by simp, set_frame⟩
    · obtain ⟨arr1, eloop, he⟩ := bind_eq_ok he
      obtain ⟨n, -, -, rfl⟩ := rebindHeapNode_inv he
      have hloop : arr1.size = arr.size ∧ ∀ k, ¬ Desc T.outDegreeSize idx k → arr1[k]? = arr[k]? := by
        refine forLoop_inv (fun _ (b : Array HeapNode) => b.size = arr.size ∧
          ∀ k, ¬ Desc T.outDegreeSize idx k → b[k]? = arr[k]?) eloop ⟨rfl, fun k _ => rfl⟩ ?_
        rintro i hi b b' hb ⟨hsz, hfr⟩
        simp only [markChild] at hb
        split at hb
        · obtain ⟨hsz', hfr'⟩ := ih hb
          exact ⟨hsz'.trans hsz, fun k hk => (hfr' k fun hd => hk (hd.of_child hi)).trans (hfr k hk)⟩
        · cases hb
          exact ⟨hsz, hfr⟩
      refine ⟨by simp [hloop.1], fun k hk => (set_frame k hk).trans (hloop.2 k hk)⟩

/-- Overwriting a node inside `I` with `mark` writes what the new intervals determine. -/
def WritesCanon (T : Params) (mark : Nat → HeapNode) (outs outs' : List Interval) (I : Interval) :
    Prop :=
  ∀ {arr h idx a}, FitsLevel T h → I.1 ≤ a → a + T.outDegreeSize ^ h ≤ I.1 + I.2 →
    idx < arr.size → Canon T arr outs h idx a →
    Canon T (arr.setIfInBounds idx (mark (T.outDegreeSize ^ h))) outs' h idx a

/-- The loop over the children: those behind it are canonical for the new intervals, the others
still for the old ones. -/
theorem markKids_canon (hm : MarkStep T mark outs outs' I)
    (ih : ∀ {arr arr' idx a}, max I.1 a < min (I.1 + I.2) (a + T.outDegreeSize ^ h) →
      Canon T arr outs h idx a →
      markIntervalHelper T mark fuel arr idx (max I.1 a) (min (I.1 + I.2) (a + T.outDegreeSize ^ h)) a
        (a + T.outDegreeSize ^ h) = .ok arr' → Canon T arr' outs' h idx a)
    (hmeet : max I.1 a < min (I.1 + I.2) (a + T.outDegreeSize ^ (h + 1)))
    (hkids : ∀ i < T.outDegreeSize,
      Canon T arr outs h (child T.outDegreeSize idx i) (a + T.outDegreeSize ^ h * i))
    (he : forLoop (markChild T (markIntervalHelper T mark fuel) idx (max I.1 a)
        (min (I.1 + I.2) (a + T.outDegreeSize ^ (h + 1))) a (T.outDegreeSize ^ h))
        T.outDegreeSize arr = .ok arr') :
    ∀ i < T.outDegreeSize,
      Canon T arr' outs' h (child T.outDegreeSize idx i) (a + T.outDegreeSize ^ h * i) := by
  have hpos := T.leaves_pos h
  refine (forLoop_inv (fun i (b : Array HeapNode) =>
    (∀ j < i, Canon T b outs' h (child T.outDegreeSize idx j) (a + T.outDegreeSize ^ h * j)) ∧
    ∀ j, i ≤ j → j < T.outDegreeSize →
      Canon T b outs h (child T.outDegreeSize idx j) (a + T.outDegreeSize ^ h * j)) he
    ⟨fun j hj => by omega, fun j _ hj => hkids j hj⟩ ?_).1
  rintro i hi b b' hb ⟨hdone, htodo⟩
  have hblk := T.block_le h hi
  obtain ⟨hin, hout⟩ := intersect_block hmeet
    (show a ≤ a + T.outDegreeSize ^ h * i by omega)
    (show a + T.outDegreeSize ^ h * i + T.outDegreeSize ^ h ≤ a + T.outDegreeSize ^ (h + 1) by
      omega) hpos
  by_cases hc : max I.1 (a + T.outDegreeSize ^ h * i) <
      min (I.1 + I.2) (a + T.outDegreeSize ^ h * i + T.outDegreeSize ^ h)
  · simp only [markChild, hin hc] at hb
    rw [if_pos (by omega), Nat.add_sub_cancel' (by omega)] at hb
    have hother : ∀ j < T.outDegreeSize, j ≠ i → ∀ k,
        Desc T.outDegreeSize (child T.outDegreeSize idx j) k → b'[k]? = b[k]? := by
      intro j hj hne k hd
      exact (markIntervalHelper_frame hb).2 k fun hd' => hne (hd.child_inj hj hi hd')
    refine ⟨fun j hj => ?_, fun j hj hjD => ?_⟩
    · rcases Nat.lt_succ_iff_lt_or_eq.1 hj with hj | rfl
      · exact (hdone j hj).frame (hother j (by omega) (by omega))
      · exact ih hc (htodo j (Nat.le_refl _) hi) hb
    · exact (htodo j (by omega) hjD).frame (hother j hjD (by omega))
  · simp only [markChild] at hb
    rw [if_neg (not_not.2 (hout hc))] at hb
    obtain rfl := Except.ok.inj hb
    refine ⟨fun j hj => ?_, fun j hj hjD => htodo j (by omega) hjD⟩
    rcases Nat.lt_succ_iff_lt_or_eq.1 hj with hj | rfl
    · exact hdone j hj
    · apply (htodo j (Nat.le_refl _) hi).congr
      rintro J ⟨p, h1, h2, hJ⟩
      apply hm.agree J
      rintro rfl
      exact hc (by obtain ⟨h3, h4⟩ := hJ; omega)

theorem markIntervalHelper_canon (hm : MarkStep T mark outs outs' I)
    (hw : WritesCanon T mark outs outs' I) (hfit : FitsLevel T h)
    (hmeet : max I.1 a < min (I.1 + I.2) (a + T.outDegreeSize ^ h)) (hc : Canon T arr outs h idx a)
    (he : markIntervalHelper T mark fuel arr idx (max I.1 a)
      (min (I.1 + I.2) (a + T.outDegreeSize ^ h)) a (a + T.outDegreeSize ^ h) = .ok arr') :
    Canon T arr' outs' h idx a := by
  induction h generalizing arr arr' idx a fuel with
  | zero =>
    obtain ⟨fuel, rfl⟩ : ∃ f, fuel = f + 1 := by
      cases fuel with
      | zero => cases he
      | succ f => exact ⟨f, rfl⟩
    rw [Nat.pow_zero] at hmeet he
    rw [markIntervalHelper, if_pos (by omega), Nat.add_sub_cancel_left] at he
    obtain ⟨hidx, rfl⟩ := writeNode_inv he
    exact hw hfit (by omega) (by rw [Nat.pow_zero]; omega) hidx hc
  | succ h ih =>
    obtain ⟨fuel, rfl⟩ : ∃ f, fuel = f + 1 := by
      cases fuel with
      | zero => cases he
      | succ f => exact ⟨f, rfl⟩
    have hsub : (a + T.outDegreeSize ^ (h + 1) - a) / T.outDegreeSize = T.outDegreeSize ^ h := by
      rw [Nat.add_sub_cancel_left, T.leaves_div]
    by_cases hexact : max I.1 a = a ∧
        min (I.1 + I.2) (a + T.outDegreeSize ^ (h + 1)) = a + T.outDegreeSize ^ (h + 1)
    · rw [markIntervalHelper, if_pos hexact, Nat.add_sub_cancel_left] at he
      obtain ⟨hidx, rfl⟩ := writeNode_inv he
      exact hw hfit (by omega) (by omega) hidx hc
    obtain ⟨hnin, hnin'⟩ := hm.not_inside
      (a := a) (n := T.outDegreeSize ^ (h + 1)) ⟨max I.1 a, by omega, by omega, by omega, by omega⟩
      (fun hI => hexact (by omega))
    simp only [markIntervalHelper, if_neg hexact, hsub] at he
    obtain ⟨arr1, eloop, he⟩ := bind_eq_ok he
    obtain ⟨n, hn, hidx, rfl⟩ := rebindHeapNode_inv he
    rw [hsub] at hn
    have hkids := markKids_canon hm (ih hfit.pred) hmeet (hc.2 hnin).2 eloop
    refine ⟨fun hI => absurd hI hnin', fun _ => ⟨⟨n, ?_, ?_⟩, fun i hi => (hkids i hi).set_child hi⟩⟩
    · rw [rebound_set, hn]
    · simp [hidx]

end

/-! ## Blocking and unblocking -/

theorem Canon.kids_of_free (hc : Canon T arr [] (h + 1) idx a) {i : Nat} (hi : i < T.outDegreeSize) :
    Canon T arr [] h (child T.outDegreeSize idx i) (a + T.outDegreeSize ^ h * i) :=
  (hc.2 not_inside_nil).2 i hi

theorem writesCanon_block {I : Interval} (hfree : ∀ i, Covers I i → Free outs i) :
    WritesCanon T (fun _ => blockedNode T) outs (I :: outs) I := by
  intro arr h idx a _ h1 h2 hidx hc
  have hin : Inside (I :: outs) a (T.outDegreeSize ^ h) := ⟨I, by simp, h1, h2⟩
  have hc' : Canon T arr [] h idx a := by
    apply hc.of_free
    rintro J hJ ⟨p, h3, h4, hp⟩
    exact hfree p ⟨by omega, by omega⟩ J hJ hp
  cases h with
  | zero => exact ⟨fun _ => by simp [hidx], fun hn => absurd hin hn⟩
  | succ h =>
    exact ⟨fun _ => ⟨by simp [hidx], fun i hi => (hc'.kids_of_free hi).set_child hi⟩,
      fun hn => absurd hin hn⟩

theorem canon_freeNode (hfit : FitsLevel T h) (hidx : arr[idx]? = some (freeNode T (T.outDegreeSize ^ h)))
    (hk : ∀ g, h = g + 1 → ∀ i < T.outDegreeSize,
      Canon T arr [] g (child T.outDegreeSize idx i) (a + T.outDegreeSize ^ g * i)) :
    Canon T arr [] h idx a := by
  cases h with
  | zero => exact ⟨fun hI => absurd hI not_inside_nil, fun _ => hidx⟩
  | succ h =>
    refine ⟨fun hI => absurd hI not_inside_nil, fun _ => ⟨⟨_, ?_, hidx⟩, hk h rfl⟩⟩
    exact rebound_free hfit fun i hi => (hk h rfl i hi).free_node hfit.pred

theorem writesCanon_unblock {I : Interval} (hd : Separate outs) (hpos : ∀ J ∈ outs, 0 < J.2)
    (hI : I ∈ outs) : WritesCanon T (freeNode T) outs (outs.erase I) I := by
  intro arr h idx a hfit h1 h2 hidx hc
  apply Canon.to_free
  · apply canon_freeNode hfit (by simp [hidx])
    intro g hg i hi
    subst hg
    exact ((hc.1 ⟨I, hI, h1, h2⟩).2 i hi).set_child hi
  · rintro J hJ ⟨p, h3, h4, hp⟩
    obtain ⟨hne, hJ⟩ := (hd.nodup hpos).mem_erase_iff.1 hJ
    exact hne (hd.eq_of_covers hJ hI hp ⟨by omega, by omega⟩)

/-! ## Construction -/

theorem makeHeapNodeVecHelper_frame {fuel last : Nat}
    (he : makeHeapNodeVecHelper T fuel arr idx a last = .ok arr') :
    ∀ k, ¬ Desc T.outDegreeSize idx k → arr'[k]? = arr[k]? := by
  induction fuel generalizing arr arr' idx a last with
  | zero => cases he
  | succ fuel ih =>
    obtain ⟨arr1, e1, he⟩ := bind_eq_ok he
    obtain ⟨-, rfl⟩ := writeNode_inv e1
    split at he
    · obtain rfl := Except.ok.inj he
      exact set_frame
    · refine forLoop_inv (fun _ (b : Array HeapNode) =>
        ∀ k, ¬ Desc T.outDegreeSize idx k → b[k]? = arr[k]?) he set_frame ?_
      intro i hi b b' hb hfr k hk
      exact (ih hb k fun hd => hk (hd.of_child hi)).trans (hfr k hk)

theorem makeHeapNodeVecHelper_canon {fuel : Nat} (hfit : FitsLevel T h)
    (he : makeHeapNodeVecHelper T fuel arr idx a (a + T.outDegreeSize ^ h) = .ok arr') :
    Canon T arr' [] h idx a := by
  induction h generalizing arr arr' idx a fuel with
  | zero =>
    cases fuel with
    | zero => cases he
    | succ fuel =>
      obtain ⟨arr1, e1, he⟩ := bind_eq_ok he
      rw [Nat.pow_zero, Nat.add_sub_cancel_left] at e1
      obtain ⟨hidx, rfl⟩ := writeNode_inv e1
      rw [if_pos (by rw [Nat.pow_zero])] at he
      obtain rfl := Except.ok.inj he
      exact canon_freeNode hfit (by simp [hidx]) fun g hg => by omega
  | succ h ih =>
    cases fuel with
    | zero => cases he
    | succ fuel =>
      obtain ⟨arr1, e1, he⟩ := bind_eq_ok he
      rw [Nat.add_sub_cancel_left] at e1
      obtain ⟨hidx, rfl⟩ := writeNode_inv e1
      simp only [if_neg (T.not_leaf h a), Nat.add_sub_cancel_left, T.leaves_div] at he
      obtain ⟨hroot, hkids⟩ := forLoop_inv (fun i (b : Array HeapNode) =>
        b[idx]? = some (freeNode T (T.outDegreeSize ^ (h + 1))) ∧ ∀ j < i, i ≤ T.outDegreeSize →
          Canon T b [] h (child T.outDegreeSize idx j) (a + T.outDegreeSize ^ h * j)) he
        ⟨by simp [hidx], fun j hj => by omega⟩ fun i hi b b' hb ⟨hroot, hdone⟩ => by
          have hfr := makeHeapNodeVecHelper_frame hb
          refine ⟨(hfr _ (not_desc_child_self hi)).trans hroot, fun j hj hle => ?_⟩
          rcases Nat.lt_succ_iff_lt_or_eq.1 hj with hj | rfl
          · apply (hdone j hj (by omega)).frame
            intro k hd
            exact hfr k fun hd' => by have := hd.child_inj (by omega) hi hd'; omega
          · exact ih hfit.pred hb
      apply canon_freeNode hfit hroot
      intro g hg i hi
      obtain rfl : h = g := by omega
      exact hkids i hi (Nat.le_refl _)

/-! ## Runs -/

section
variable {s s' : SegmentAllocator} {height : Nat}

structure CanonState (T : Params) (height : Nat) (s : SegmentAllocator) (outs : List Interval) :
    Prop where
  canon : Canon T s.heapNodeArr outs (height - 1) 0 0
  size : s.heapNodeArr.size = lastIdx T.outDegreeSize (height - 1) 0 + 1

theorem make_canon (hf : Fits T height) (he : make T height = .ok s) : CanonState T height s [] := by
  obtain ⟨h, rfl⟩ : ∃ h, height = h + 1 := ⟨height - 1, by have := hf.pos; omega⟩
  have hsize := hf.size
  rw [Nat.add_sub_cancel] at hsize
  have hbase : T.outDegreeSize ^ h < 2 ^ 64 :=
    Nat.lt_of_le_of_lt (Nat.le_mul_of_pos_left _ T.pos) hsize
  rw [make, if_neg (Nat.succ_ne_zero h)] at he
  simp only [Nat.add_sub_cancel, unsignedPow_eq T.pos h hbase, fullSize_eq hsize] at he
  obtain ⟨arr, e, he⟩ := bind_eq_ok he
  obtain rfl := Except.ok.inj he
  refine ⟨makeHeapNodeVecHelper_canon hf.level (by rw [Nat.zero_add]; exact e), ?_⟩
  rw [(makeHeapNodeVecHelper_size e).2, Array.size_replicate, Nat.add_sub_cancel]

theorem CanonState.mark {mark : Nat → HeapNode} {I : Interval} (hc : CanonState T height s outs)
    (hi : Inv T height s outs) (hf : Fits T height) (hm : MarkStep T mark outs outs' I)
    (hw : WritesCanon T mark outs outs' I) (he : markInterval T mark s I = .ok s') :
    CanonState T height s' outs' := by
  have hlev : FitsLevel T (height - 1) := Fits.level (by rwa [Nat.sub_add_cancel hf.pos])
  simp only [markInterval, hi.baseSize hf] at he
  split at he
  · cases he
  split at he
  · cases he
  obtain ⟨arr, e, he⟩ := bind_eq_ok he
  obtain rfl := Except.ok.inj he
  refine ⟨?_, (markIntervalHelper_frame e).1.trans hc.size⟩
  have e1 : max I.1 0 = I.1 := by omega
  have e2 : min (I.1 + I.2) (0 + T.outDegreeSize ^ (height - 1)) = I.1 + I.2 := by omega
  apply markIntervalHelper_canon hm hw hlev (by omega) hc.canon
  rw [e1, e2, Nat.zero_add]
  exact e

theorem malloc_some_inv {sz : Nat} {I : Interval} (he : malloc T s sz = .ok (some I, s')) :
    blockInterval T s I = .ok s' := by
  obtain ⟨blk, -, he⟩ := bind_eq_ok he
  split at he
  · cases he
  cases blk with
  | none => cases he
  | some b =>
    dsimp only at he
    split at he
    · cases he
    · obtain ⟨s1, e, he⟩ := bind_eq_ok he
      cases he
      exact e

theorem Reach.canon (hf : Fits T height) (hr : Reach T height s outs) :
    CanonState T height s outs := by
  induction hr with
  | make hs => exact make_canon hf hs
  | @malloc s s' outs sz I hr e ih =>
    have hi := hr.inv hf
    rcases hi.malloc_ok hf sz with ⟨-, e'⟩ | ⟨-, first, s1, e', -, hrun, -⟩
    · cases e'.symm.trans e
    · cases e'.symm.trans e
      have hfree : ∀ i, Covers (first, sz) i → Free outs i := fun i hc => hrun i hc.1 hc.2
      exact ih.mark hi hf (markStep_block hfree) (writesCanon_block hfree) (malloc_some_inv e)
  | @mallocNone s s' outs sz hr e ih =>
    rcases (hr.inv hf).malloc_ok hf sz with ⟨-, e'⟩ | ⟨-, first, s1, e', -⟩
    · cases e'.symm.trans e
      exact ih
    · cases e'.symm.trans e
  | @free s s' outs I hr hI e ih =>
    have hi := hr.inv hf
    exact ih.mark hi hf (markStep_unblock hi.sep hi.pos hI) (writesCanon_unblock hi.sep hi.pos hI) e

/-- Every index of the array is within the tree's height of the root. -/
theorem iterate_parent_lastIdx {D : Nat} (hD : 0 < D) (h k : Nat) :
    (parent D)^[h] (lastIdx D h k) = k := by
  induction h generalizing k with
  | zero => rfl
  | succ h ih =>
    rw [Function.iterate_succ_apply', lastIdx, ih, parent_child (by omega)]

theorem iterate_parent_eq_zero {D : Nat} (hD : 0 < D) {h k : Nat} (hk : k ≤ lastIdx D h 0) :
    (parent D)^[h] k = 0 := by
  have hmono : Monotone (parent D) := fun m n hmn => Nat.div_le_div_right (by omega)
  have hle := hmono.iterate h hk
  rw [iterate_parent_lastIdx hD] at hle
  exact Nat.le_zero.1 hle

/-- Two states whose arrays are determined by the same intervals are the same. -/
theorem CanonState.eq (hc : CanonState T height s outs) (hc' : CanonState T height s' outs')
    (hi : Inv T height s outs) (hi' : Inv T height s' outs') (ho : ∀ I, I ∈ outs ↔ I ∈ outs') :
    s = s' := by
  have harr : s.heapNodeArr = s'.heapNodeArr := by
    apply Array.ext_getElem?
    intro k
    by_cases hk : k ≤ lastIdx T.outDegreeSize (height - 1) 0
    · apply (hc.canon.congr fun I _ => ho I).unique hc'.canon (height - 1) (Nat.le_refl _)
      exact iterate_parent_eq_zero T.pos hk
    · rw [Array.getElem?_eq_none (by rw [hc.size]; omega), Array.getElem?_eq_none (by rw [hc'.size]; omega)]
  have hsz := hi.arrSz.trans hi'.arrSz.symm
  have hheight := hi.treeHeight.trans hi'.treeHeight.symm
  cases s
  cases s'
  simp only [SegmentAllocator.mk.injEq]
  exact ⟨harr, hsz, hheight⟩

theorem Reach.eq (hf : Fits T height) (hr : Reach T height s outs) (hr' : Reach T height s' outs')
    (ho : ∀ I, I ∈ outs ↔ I ∈ outs') : s = s' :=
  (hr.canon hf).eq (hr'.canon hf) (hr.inv hf) (hr'.inv hf) ho

/-- Freeing all outstanding intervals leads back to the constructed allocator. -/
theorem foldlM_free (hf : Fits T height) (hr : Reach T height s outs) {order : List Interval}
    (ho : order.Perm outs) : order.foldlM (free T) s = make T height := by
  induction order generalizing s outs with
  | nil =>
    obtain ⟨s0, e, -⟩ := make_ok hf
    obtain rfl := ho.nil_eq
    rw [e, hr.eq hf (.make e) fun I => Iff.rfl]
    rfl
  | cons I order ih =>
    have hI : I ∈ outs := ho.subset (List.mem_cons_self ..)
    obtain ⟨s1, e, -⟩ := (hr.inv hf).free_ok hf hI
    rw [List.foldlM_cons, e, ok_bind]
    apply ih (hr.free hI e)
    have hperm := ho.erase I
    rwa [List.erase_cons_head] at hperm

end

/-- **The allocator forgets its history**: the state is determined by the set of outstanding
intervals; a request that is served and freed again leaves the state it met, and freeing all
outstanding intervals, in any order, leaves the constructed allocator. -/
theorem history_independent {T : Params} {height : Nat} (hf : Fits T height) :
    (∀ s s' outs outs', Reach T height s outs → Reach T height s' outs' →
      (∀ I, I ∈ outs ↔ I ∈ outs') → s = s') ∧
    (∀ s outs sz I s', Reach T height s outs → malloc T s sz = .ok (some I, s') →
      free T s' I = .ok s) ∧
    ∀ s outs (order : List Interval), Reach T height s outs → order.Perm outs →
      order.foldlM (free T) s = make T height := by
  refine ⟨fun s s' outs outs' hr hr' ho => hr.eq hf hr' ho, fun s outs sz I s' hr e => ?_,
    fun s outs order hr ho => foldlM_free hf hr ho⟩
  have hI : I ∈ I :: outs := List.mem_cons_self ..
  obtain ⟨s1, e1, -⟩ := ((hr.malloc e).inv hf).free_ok hf hI
  have hr1 := (hr.malloc e).free hI e1
  rw [List.erase_cons_head] at hr1
  rw [e1, hr1.eq hf hr fun I => Iff.rfl]

/-- Two requests of a tree of 16 leaves over `uint8_t`, freed in the order of their calls. -/
theorem history_independent_sixteen : ∃ s I s1 J s2, make ⟨4, 8, by decide⟩ 3 = .ok s ∧
    malloc ⟨4, 8, by decide⟩ s 5 = .ok (some I, s1) ∧ malloc ⟨4, 8, by decide⟩ s1 3 = .ok (some J, s2) ∧
    free ⟨4, 8, by decide⟩ s2 J = .ok s1 ∧ [I, J].foldlM (free ⟨4, 8, by decide⟩) s2 = .ok s := by
  have hf : Fits ⟨4, 8, by decide⟩ 3 := ⟨by decide, by decide, by decide, by decide⟩
  obtain ⟨s, e, -⟩ := make_ok hf
  have hr : Reach ⟨4, 8, by decide⟩ 3 s [] := .make e
  have hbase : getBaseSize ⟨4, 8, by decide⟩ s = 16 := (hr.inv hf).baseSize hf
  rcases (hr.inv hf).malloc_ok hf 5 with ⟨hno, -⟩ | ⟨-, f1, s1, e1, -, -, hi1⟩
  · exact absurd ⟨by decide, 0, by omega, fun i _ _ => free_nil i⟩ hno
  have hbase1 : getBaseSize ⟨4, 8, by decide⟩ s1 = 16 := hi1.baseSize hf
  have hr1 := hr.malloc e1
  have hle : f1 + 5 ≤ 16 := hi1.le (f1, 5) (List.mem_cons_self ..)
  rcases hi1.malloc_ok hf 3 with ⟨hno, -⟩ | ⟨-, f2, s2, e2, -, -, -⟩
  · -- a run of three leaves is free on one side of the first interval
    refine absurd ⟨by decide, if 3 ≤ f1 then 0 else f1 + 5, ?_, ?_⟩ hno
    · split <;> omega
    · intro i h1 h2 K hK hc
      obtain rfl := List.mem_singleton.1 hK
      obtain ⟨h3, h4⟩ := hc
      split at h1 <;> split at h2 <;> omega
  have hr2 := hr1.malloc e2
  have hall := history_independent hf
  refine ⟨s, (f1, 5), s1, (f2, 3), s2, e, e1, e2, hall.2.1 s1 _ 3 _ s2 hr1 e2, ?_⟩
  rw [hall.2.2 s2 _ [(f1, 5), (f2, 3)] hr2 (List.Perm.swap ..), e]

theorem two_le_wide : 2 ≤ 129 := by decide

/-- With two levels of out-degree 129 over `uint8_t`: the constructed state, and those after
`malloc(128)`, after `malloc(1)` and after the `free` of what that returned. -/
def forgottenRequest : Except Fault (SegmentAllocator × SegmentAllocator × SegmentAllocator ×
    SegmentAllocator × Option Interval × Option Interval) := do
  let T : Params := ⟨129, 8, two_le_wide⟩
  let s ← make T 2
  let r1 ← malloc T s 128
  let r2 ← malloc T r1.2 1
  let s3 ← free T r2.2 (0, 1)
  .ok (s, r1.2, r2.2, s3, r1.1, r2.1)

theorem forgottenRequest_eq : forgottenRequest.map (fun r =>
      (r.2.2.2.2.1, r.2.2.2.2.2, r.2.1.heapNodeArr[0]?, r.2.2.2.1.heapNodeArr[0]?)) =
    .ok (some (0, 128), some (0, 1), some ⟨0, 1, 1, 0⟩, some ⟨1, 1, 1, 0⟩) := by
  simp only [forgottenRequest, make, unsignedPow_eq (show 0 < 129 by decide) (2 - 1) (by decide)]
  decide +kernel

/-- **A size at which the allocator remembers.** 129 leaves fit `uint8_t` and the array fits `size_t`,
but the trace of the last child does not fit: the second request is given a leaf of the first, and
freeing it leaves a root that differs although the same interval is outstanding. -/
theorem history_remembered : 129 ^ (2 - 1) < 2 ^ 8 ∧ 129 * 129 ^ (2 - 1) < 2 ^ 64 ∧
    ∃ s s', Reach ⟨129, 8, two_le_wide⟩ 2 s [(0, 128)] ∧ Reach ⟨129, 8, two_le_wide⟩ 2 s' [(0, 128)] ∧
      s.heapNodeArr[0]? ≠ s'.heapNodeArr[0]? := by
  refine ⟨by decide, by decide, ?_⟩
  have hrun := forgottenRequest_eq
  cases e : forgottenRequest with
  | error err => rw [e] at hrun; cases hrun
  | ok r =>
    rw [e] at hrun
    simp only [Except.map, Except.ok.injEq, Prod.mk.injEq] at hrun
    obtain ⟨h1, h2, h3, h4⟩ := hrun
    obtain ⟨s0, e0, e⟩ := bind_eq_ok e
    obtain ⟨⟨b1, s1⟩, e1, e⟩ := bind_eq_ok e
    obtain ⟨⟨b2, s2⟩, e2, e⟩ := bind_eq_ok e
    obtain ⟨s3, e3, e⟩ := bind_eq_ok e
    cases e
    subst h1
    subst h2
    have hr1 : Reach ⟨129, 8, two_le_wide⟩ 2 s1 [(0, 128)] := .malloc (.make e0) e1
    refine ⟨s1, s3, hr1, .free (.malloc hr1 e2) (List.mem_cons_self ..) e3, ?_⟩
    rw [h3, h4]
    simp

end CudaMalloc
