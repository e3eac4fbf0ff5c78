import Mathlib.Data.List.Pairwise
import NeuralNetwork.CudaMalloc.Proof.Rep

/-!
# Marking an interval keeps the representation

`MarkStep T mark outs outs' I` says what overwriting nodes inside `I` with `mark` does to the
outstanding intervals; blocking (`markStep_block`) and unblocking (`markStep_unblock`) are its two
cases. `markIntervalHelper_ok`: under it the recursion takes a subtree from representing `outs` to
representing `outs'` and touches nothing outside the subtree. Each child keeps the others' subtrees
(`KidsInv`).
-/

namespace CudaMalloc

open Cpp Loop DaryTree FreeRun

variable {T : Params} {arr : Array HeapNode} {outs outs' : List Interval} {h idx a : Nat}

/-! ## Marking an interval -/

/-- What marking the interval `I` with `mark` does to the outstanding intervals: only `I` enters or
leaves, it is disjoint from the others, and overwriting a node inside it is right. -/
structure MarkStep (T : Params) (mark : Nat → HeapNode) (outs outs' : List Interval)
    (I : Interval) : Prop where
  agree : ∀ J, J ≠ I → (J ∈ outs ↔ J ∈ outs')
  sep : ∀ J i, J ∈ outs ∨ J ∈ outs' → Covers J i → Covers I i → J = I
  exact : ∀ {arr h idx a}, FitsLevel T h → I.1 ≤ a → a + T.outDegreeSize ^ h ≤ I.1 + I.2 →
    Rep T arr outs h idx a →
    Rep T (arr.setIfInBounds idx (mark (T.outDegreeSize ^ h))) outs' h idx a

variable {I : Interval} {arr0 : Array HeapNode}

theorem MarkStep.not_inside {mark : Nat → HeapNode} {n : Nat} (hm : MarkStep T mark outs outs' I)
    (hmeet : Meets I a n) (hI : ¬ (I.1 ≤ a ∧ a + n ≤ I.1 + I.2)) :
    ¬ Inside outs a n ∧ ¬ Inside outs' a n := by
  obtain ⟨i, h1, h2, hc⟩ := hmeet
  constructor <;> rintro ⟨J, hJ, hJ1, hJ2⟩
  · obtain rfl := hm.sep J i (.inl hJ) ⟨by omega, by omega⟩ hc
    exact hI ⟨hJ1, hJ2⟩
  · obtain rfl := hm.sep J i (.inr hJ) ⟨by omega, by omega⟩ hc
    exact hI ⟨hJ1, hJ2⟩

theorem getElem?_lt {n : HeapNode} (hn : arr[idx]? = some n) : idx < arr.size := by
  by_contra hlt
  rw [Array.getElem?_eq_none (by omega)] at hn
  cases hn

/-- The part of `[f, l)` in an interval that it meets, cut down to a block of that interval, is the
part of `[f, l)` in the block. -/
theorem intersect_block {f l a e b m : Nat} (h1 : max f a < min l e) (hb : a ≤ b) (hm : b + m ≤ e)
    (hpos : 0 < m) :
    (max f b < min l (b + m) →
      intersect (max f a, min l e - max f a) (b, m) = (max f b, min l (b + m) - max f b)) ∧
    (¬ max f b < min l (b + m) →
      (intersect (max f a, min l e - max f a) (b, m)).2 = 0) := by
  simp only [intersect, Prod.mk.injEq]
  omega

theorem set_frame {n : HeapNode} (k : Nat) (hk : ¬ Desc T.outDegreeSize idx k) :
    (arr.setIfInBounds idx n)[k]? = arr[k]? := by
  rw [Array.getElem?_setIfInBounds, if_neg]
  rintro rfl
  exact hk .refl

/-- The invariant of a loop over the children of `idx`: the first `i` subtrees represent `outs`, and
nothing else has changed. -/
structure KidsInv (T : Params) (arr0 : Array HeapNode) (outs : List Interval)
    (h idx a i : Nat) (arr : Array HeapNode) : Prop where
  size : arr.size = arr0.size
  frame : ∀ k, (∀ j < i, ¬ Desc T.outDegreeSize (child T.outDegreeSize idx j) k) →
    arr[k]? = arr0[k]?
  done : ∀ j < i, Rep T arr outs h (child T.outDegreeSize idx j) (a + T.outDegreeSize ^ h * j)

theorem KidsInv.init : KidsInv T arr outs h idx a 0 arr :=
  ⟨rfl, fun _ _ => rfl, fun j hj => by omega⟩

theorem KidsInv.todo {i k : Nat} (hk : KidsInv T arr0 outs h idx a i arr) (hi : i < T.outDegreeSize)
    (hd : Desc T.outDegreeSize (child T.outDegreeSize idx i) k) :
    arr[k]? = arr0[k]? :=
  hk.frame k fun j hj hd' => by have := hd.child_inj hi (by omega) hd'; omega

theorem KidsInv.step {arr0 arr' : Array HeapNode} {i : Nat}
    (hk : KidsInv T arr0 outs h idx a i arr) (hi : i < T.outDegreeSize)
    (hsz : arr'.size = arr.size)
    (hfr : ∀ k, ¬ Desc T.outDegreeSize (child T.outDegreeSize idx i) k → arr'[k]? = arr[k]?)
    (hr : Rep T arr' outs h (child T.outDegreeSize idx i) (a + T.outDegreeSize ^ h * i)) :
    KidsInv T arr0 outs h idx a (i + 1) arr' where
  size := hsz.trans hk.size
  frame := fun k hkd => (hfr k (hkd i (by omega))).trans (hk.frame k fun j hj => hkd j (by omega))
  done := fun j hj => by
    rcases Nat.lt_succ_iff_lt_or_eq.1 hj with hj | rfl
    · exact (hk.done j hj).frame fun k hd => hfr k fun hd' => by
        have := hd.child_inj (by omega) hi hd'; omega
    · exact hr

theorem KidsInv.frame_self {k : Nat} (hk : KidsInv T arr0 outs h idx a T.outDegreeSize arr)
    (hd : k = idx ∨ ¬ Desc T.outDegreeSize idx k) : arr[k]? = arr0[k]? :=
  hk.frame k fun j hj hd' => by
    rcases hd with rfl | hd
    · exact not_desc_child_self hj hd'
    · exact hd (hd'.of_child hj)

/-- Marking the part of `I` in a subtree's interval takes the subtree from representing `outs`
to representing `outs'`, and touches nothing else. -/
def MarkOk (T : Params) (mark : Nat → HeapNode) (outs outs' : List Interval) (I : Interval)
    (h fuel : Nat) : Prop :=
  ∀ arr idx a, max I.1 a < min (I.1 + I.2) (a + T.outDegreeSize ^ h) → Rep T arr outs h idx a →
    ∃ arr', markIntervalHelper T mark fuel arr idx (max I.1 a)
        (min (I.1 + I.2) (a + T.outDegreeSize ^ h)) a (a + T.outDegreeSize ^ h) = .ok arr' ∧
      arr'.size = arr.size ∧ (∀ k, ¬ Desc T.outDegreeSize idx k → arr'[k]? = arr[k]?) ∧
      Rep T arr' outs' h idx a

section
variable {mark : Nat → HeapNode} {I : Interval} {fuel : Nat}

theorem mark_exact (hm : MarkStep T mark outs outs' I) (hfit : FitsLevel T h)
    (hr : Rep T arr outs h idx a) (hexact : max I.1 a = a ∧
      min (I.1 + I.2) (a + T.outDegreeSize ^ h) = a + T.outDegreeSize ^ h) :
    ∃ arr', markIntervalHelper T mark (fuel + 1) arr idx (max I.1 a)
        (min (I.1 + I.2) (a + T.outDegreeSize ^ h)) a (a + T.outDegreeSize ^ h) = .ok arr' ∧
      arr'.size = arr.size ∧ (∀ k, ¬ Desc T.outDegreeSize idx k → arr'[k]? = arr[k]?) ∧
      Rep T arr' outs' h idx a := by
  obtain ⟨n, hn, -⟩ := hr.get
  refine ⟨_, ?_, by simp, set_frame, hm.exact hfit (by omega) (by omega) hr⟩
  simp only [markIntervalHelper, if_pos hexact, writeNode_ok (getElem?_lt hn),
    Nat.add_sub_cancel_left]

theorem markKids_ok (hm : MarkStep T mark outs outs' I) (ih : MarkOk T mark outs outs' I h fuel)
    (hmeet : max I.1 a < min (I.1 + I.2) (a + T.outDegreeSize ^ (h + 1)))
    (hkids : ∀ i < T.outDegreeSize,
      Rep T arr outs h (child T.outDegreeSize idx i) (a + T.outDegreeSize ^ h * i)) :
    ∃ arr', forLoop (markChild T (markIntervalHelper T mark fuel) idx (max I.1 a)
        (min (I.1 + I.2) (a + T.outDegreeSize ^ (h + 1))) a (T.outDegreeSize ^ h))
        T.outDegreeSize arr = .ok arr' ∧
      KidsInv T arr outs' h idx a T.outDegreeSize arr' := by
  have hpos := T.leaves_pos h
  refine forLoop_ok (KidsInv T arr outs' h idx a) .init ?_
  intro i hi arr1 hk
  have htodo := (hkids i hi).frame fun k hd => hk.todo hi hd
  have hblk := T.block_le h hi
  obtain ⟨hin, hout⟩ := intersect_block hmeet
    (show a ≤ a + T.outDegreeSize ^ h * i by omega)
    (show a + T.outDegreeSize ^ h * i + T.outDegreeSize ^ h ≤ a + T.outDegreeSize ^ (h + 1) by
      omega) hpos
  by_cases hc : max I.1 (a + T.outDegreeSize ^ h * i) <
      min (I.1 + I.2) (a + T.outDegreeSize ^ h * i + T.outDegreeSize ^ h)
  · obtain ⟨arr2, e2, hsz, hfr, hr⟩ := ih arr1 _ _ hc htodo
    refine ⟨arr2, ?_, hk.step hi hsz hfr hr⟩
    simp only [markChild, hin hc]
    rw [if_pos (by omega), Nat.add_sub_cancel' (by omega)]
    exact e2
  · refine ⟨arr1, ?_, hk.step hi rfl (fun _ _ => rfl) (htodo.congr ?_)⟩
    · simp only [markChild]
      rw [if_neg (not_not.2 (hout hc))]
    · rintro J ⟨p, h1, h2, hJ⟩
      refine hm.agree J ?_
      rintro rfl
      exact hc (by obtain ⟨h3, h4⟩ := hJ; omega)

theorem markIntervalHelper_ok (hm : MarkStep T mark outs outs' I) (hfit : FitsLevel T h)
    (hfuel : h < fuel) : MarkOk T mark outs outs' I h fuel := by
  induction h generalizing fuel with
  | zero =>
    intro arr idx a hmeet hr
    obtain ⟨fuel, rfl⟩ : ∃ f, fuel = f + 1 := ⟨fuel - 1, by omega⟩
    rw [Nat.pow_zero] at hmeet
    exact mark_exact hm hfit hr (by rw [Nat.pow_zero]; omega)
  | succ h ih =>
    intro arr idx a hmeet hr
    obtain ⟨fuel, rfl⟩ : ∃ f, fuel = f + 1 := ⟨fuel - 1, by omega⟩
    by_cases hexact : max I.1 a = a ∧
        min (I.1 + I.2) (a + T.outDegreeSize ^ (h + 1)) = a + T.outDegreeSize ^ (h + 1)
    · exact mark_exact hm hfit hr hexact
    obtain ⟨hnin, hnin'⟩ := hm.not_inside
      (a := a) (n := T.outDegreeSize ^ (h + 1)) ⟨max I.1 a, by omega, by omega, by omega, by omega⟩
      (fun hI => hexact (by omega))
    obtain ⟨n, hn, -, -, hout⟩ := hr
    have ih' : MarkOk T mark outs outs' I h fuel := ih hfit.pred (by omega)
    obtain ⟨arr1, e1, hk⟩ := markKids_ok hm ih' hmeet (hout hnin).2
    have hkids := fun i hi => hk.done i hi
    obtain ⟨kid, hkid⟩ := exists_kids hkids
    obtain ⟨hw, h64⟩ := hfit.2 (by omega)
    have hsub : (a + T.outDegreeSize ^ (h + 1) - a) / T.outDegreeSize = T.outDegreeSize ^ h := by
      rw [Nat.add_sub_cancel_left, T.leaves_div]
    have hidx : idx < arr1.size := by rw [hk.size]; exact getElem?_lt hn
    have hlen := hfit.1
    rw [T.leaves_succ] at hlen
    obtain ⟨n', e', hs, ht⟩ := rebindHeapNode_ok hkid (T.leaves_pos h) hlen hw h64 hidx
    refine ⟨arr1.setIfInBounds idx n', ?_, by simp [hk.size], fun k hd => ?_, n', ?_, ?_,
      fun hI => absurd hI hnin', fun _ => ⟨?_, fun i hi => (hkids i hi).set_child hi⟩⟩
    · simp only [markIntervalHelper, if_neg hexact, hsub, e1, ok_bind]
      rw [T.leaves_succ]; exact e'
    · exact (set_frame k hd).trans (hk.frame_self (.inr hd))
    · simp [hidx]
    · rw [T.leaves_succ]; exact hs
    · exact ht.frame fun i hi => by
        rw [Array.getElem?_setIfInBounds, if_neg]
        exact Nat.ne_of_lt (child_gt hi)

end

/-! ## Blocking and unblocking -/

def Separate (outs : List Interval) : Prop :=
  outs.Pairwise fun I J => ∀ i, Covers I i → ¬ Covers J i

/-- A node of a free interval has children that represent no intervals. -/
theorem Rep.kids_of_free (hr : Rep T arr outs h idx a)
    (hfree : ∀ I ∈ outs, ¬ Meets I a (T.outDegreeSize ^ h)) (g : Nat) (hg : h = g + 1) :
    ∀ i < T.outDegreeSize,
      Rep T arr [] g (child T.outDegreeSize idx i) (a + T.outDegreeSize ^ g * i) := by
  subst hg
  obtain ⟨n, -, -, -, hout⟩ := hr.of_free hfree
  exact (hout not_inside_nil).2

theorem markStep_block (hfree : ∀ i, Covers I i → Free outs i) :
    MarkStep T (fun _ => blockedNode T) outs (I :: outs) I where
  agree := fun J hJ => by simp [hJ]
  sep := fun J i hJ hc hI => by
    rcases hJ with hJ | hJ
    · exact absurd hc (hfree i hI J hJ)
    · rcases List.mem_cons.1 hJ with rfl | hJ
      · rfl
      · exact absurd hc (hfree i hI J hJ)
  exact := fun {arr h idx a} _ h1 h2 hr => by
    obtain ⟨n, hn, -⟩ := hr.get
    refine rep_blockedNode (by simp [getElem?_lt hn]) ⟨I, by simp, h1, h2⟩ fun g hg i hi => ?_
    refine (hr.kids_of_free (fun J hJ ⟨p, h3, h4, hc⟩ => ?_) g hg i hi).set_child hi
    exact hfree p ⟨by omega, by omega⟩ J hJ hc

theorem Separate.nodup (hd : Separate outs) (hpos : ∀ I ∈ outs, 0 < I.2) : outs.Nodup := by
  refine List.Pairwise.imp_of_mem (fun {I J} hI _ h => ?_) hd
  rintro rfl
  have := hpos I hI
  have hc : Covers I I.1 := ⟨Nat.le_refl _, by omega⟩
  exact h I.1 hc hc

theorem Separate.eq_of_covers (hd : Separate outs) {I J : Interval} (hI : I ∈ outs) (hJ : J ∈ outs)
    {i : Nat} (h1 : Covers I i) (h2 : Covers J i) : I = J := by
  have : Std.Symm fun I J : Interval => ∀ i, Covers I i → ¬ Covers J i :=
    ⟨fun _ _ h i hJ hI => h i hI hJ⟩
  by_contra hne
  exact List.Pairwise.forall hd hI hJ hne i h1 h2

theorem markStep_unblock (hd : Separate outs) (hpos : ∀ J ∈ outs, 0 < J.2) (hI : I ∈ outs) :
    MarkStep T (freeNode T) outs (outs.erase I) I where
  agree := fun J hJ => (List.mem_erase_of_ne hJ).symm
  sep := fun J i hJ hc hcI => by
    have hJ' : J ∈ outs := hJ.elim id List.mem_of_mem_erase
    exact hd.eq_of_covers hJ' hI hc hcI
  exact := fun {arr h idx a} hfit h1 h2 hr => by
    obtain ⟨n, hn, -⟩ := hr.get
    refine rep_freeNode hfit (by simp [getElem?_lt hn]) ?_ fun g hg i hi => ?_
    · rintro J hJ ⟨p, h3, h4, hc⟩
      obtain ⟨hne, hJ⟩ := (hd.nodup hpos).mem_erase_iff.1 hJ
      exact hne (hd.eq_of_covers hJ hI hc ⟨by omega, by omega⟩)
    · subst hg
      obtain ⟨n, -, -, hin, -⟩ := hr
      exact (hin ⟨I, hI, h1, h2⟩ i hi).set_child hi

end CudaMalloc
