import Mathlib.Data.Set.Lattice
import NeuralNetwork.Lib.DaryTree
import NeuralNetwork.Lib.ListUpdate
import NeuralNetwork.Lib.Run
import NeuralNetwork.MatrixSteering.GroundActivator

/-!
# GroundTree answers intersection queries

`Holds arr h regs idx a`: the nodes from `idx` down, for the interval from `a` of `2 ^ h` points, hold
the registrations `regs`. The node itself has the grounds of the registrations that meet its interval
as its total, and of those that cover it as its own; the others go on to the children. A query gives the
grounds of those that share a point with it, but what it returns is not joined.
-/

namespace GroundActivator

open Cpp Loop DaryTree ListUpdate

/-! ## The points of segments -/

namespace GroundTree

def points (l : List Segment) : Set Nat := {x | ∃ g ∈ l, Segment.Has g x}

def Ends (l : List Segment) : Prop := ∀ g ∈ l, g.1 + g.2 < 2 ^ 64

variable {l l' : List Segment} {g : Segment} {x : Nat}

@[simp] theorem points_nil : points [] = ∅ := by
  ext x
  simp [points]

theorem points_append (l l' : List Segment) : points (l ++ l') = points l ∪ points l' := by
  ext x
  simp only [points, List.mem_append, Set.mem_ofPred_eq, Set.mem_union, or_and_right, exists_or]

theorem points_singleton (g : Segment) : points [g] = {x | Segment.Has g x} := by
  ext x
  simp [points]

theorem points_perm (h : l.Perm l') : points l = points l' := by
  ext x
  exact exists_congr fun g => and_congr_left fun _ => h.mem_iff

theorem Ends.append (h : Ends l) (h' : Ends l') : Ends (l ++ l') := fun g hg =>
  (List.mem_append.1 hg).elim (h g) (h' g)

theorem Ends.singleton (h : g.1 + g.2 < 2 ^ 64) : Ends [g] := fun _ hg => List.mem_singleton.1 hg ▸ h

/-! ## Joining -/

/-- What the loop has before the segments `rest`: its points, and an aggregate that starts before
them. -/
structure Joining (s : List Segment × Option Segment) (done rest : List Segment) : Prop where
  points : points (s.1 ++ s.2.toList) = points done
  ends : Ends (s.1 ++ s.2.toList)
  before : ∀ a, s.2 = some a → ∀ g ∈ rest, a.1 ≤ g.1

theorem Joining.nil (rest : List Segment) : Joining ([], none) [] rest where
  points := rfl
  ends _ hg := nomatch hg
  before _ ha := nomatch ha

variable {s : List Segment × Option Segment} {done rest : List Segment}

theorem Joining.next (h : Joining s done (g :: rest)) (hg : g.1 + g.2 < 2 ^ 64)
    (hsorted : ∀ g' ∈ rest, g.1 ≤ g'.1) :
    Joining (joinNext s g) (done ++ [g]) rest := by
  obtain ⟨result, aggregated⟩ := s
  obtain ⟨hpoints, hends, hbefore⟩ := h
  cases aggregated with
  | none =>
    rw [Option.toList_none, List.append_nil] at hpoints hends
    refine ⟨?_, hends.append (.singleton hg), fun a ha g' hg' => ?_⟩
    · show GroundTree.points (result ++ [g]) = _
      rw [points_append, points_append, hpoints]
    · cases ha
      exact hsorted g' hg'
  | some a =>
    have ha : a.1 + a.2 < 2 ^ 64 := hends a (by simp)
    have hag : a.1 ≤ g.1 := hbefore a rfl g List.mem_cons_self
    have hends' : Ends result := fun x hx => hends x (List.mem_append_left _ hx)
    replace hpoints : GroundTree.points (result ++ [a]) = GroundTree.points done := hpoints
    unfold joinNext
    dsimp only
    rw [sizeT_of_lt ha, sizeT_of_lt hg]
    by_cases htouch : a.1 + a.2 ≥ g.1
    · rw [if_pos htouch]
      by_cases hlonger : g.1 + g.2 > a.1 + a.2
      · rw [if_pos hlonger, subT_of_le (by omega) hg]
        refine ⟨?_, hends'.append (.singleton ?_), fun b hb g' hg' => ?_⟩
        · show GroundTree.points (result ++ [(a.1, g.1 + g.2 - a.1)]) = _
          rw [points_append _ [g], ← hpoints, points_append, points_append, Set.union_assoc]
          congr 1
          rw [points_singleton, points_singleton, points_singleton]
          ext x
          simp only [Set.mem_ofPred_eq, Set.mem_union, Segment.Has]
          omega
        · omega
        · cases hb
          exact hag.trans (hsorted g' hg')
      · rw [if_neg hlonger]
        refine ⟨?_, hends, fun b hb g' hg' => ?_⟩
        · show GroundTree.points (result ++ [a]) = _
          rw [points_append _ [g], ← hpoints, Set.union_eq_left.2 ?_]
          rw [points_singleton, points_append, points_singleton]
          intro x hx
          refine .inr ?_
          simp only [Set.mem_ofPred_eq, Segment.Has] at hx ⊢
          omega
        · cases hb
          exact hag.trans (hsorted g' hg')
    · rw [if_neg htouch]
      refine ⟨?_, ?_, fun b hb g' hg' => ?_⟩
      · show GroundTree.points ((result ++ [a]) ++ [g]) = _
        rw [points_append, points_append done, hpoints]
      · exact Ends.append hends (.singleton hg)
      · cases hb
        exact hsorted g' hg'

theorem joining_foldl (h : Joining s done rest) (hends : Ends rest)
    (hsorted : rest.Pairwise fun a b => a.1 ≤ b.1) :
    Joining (rest.foldl joinNext s) (done ++ rest) [] := by
  induction rest generalizing s done with
  | nil => rwa [List.append_nil]
  | cons g rest ih =>
    rw [List.pairwise_cons] at hsorted
    rw [List.foldl_cons, List.append_cons]
    exact ih (h.next (hends g List.mem_cons_self) hsorted.1)
      (fun x hx => hends x (List.mem_cons_of_mem _ hx)) hsorted.2

theorem segmentLe_sorted (l : List Segment) :
    (l.mergeSort segmentLe).Pairwise fun a b => a.1 ≤ b.1 := by
  have htrans : ∀ a b c : Segment, segmentLe a b → segmentLe b c → segmentLe a c := by
    intro a b c hab hbc
    simp only [segmentLe, decide_eq_true_eq] at hab hbc ⊢
    omega
  have htotal : ∀ a b : Segment, segmentLe a b || segmentLe b a := by
    intro a b
    simp only [segmentLe, Bool.or_eq_true, decide_eq_true_eq]
    omega
  refine (List.pairwise_mergeSort htrans htotal l).imp fun h => ?_
  simp only [segmentLe, decide_eq_true_eq] at h
  omega

/-- **Sorting and joining segments keeps their points.** -/
theorem join_points (hends : Ends l) :
    points (intervalSortAndAdjecentJoin l) = points l ∧ Ends (intervalSortAndAdjecentJoin l) := by
  have hperm : (l.mergeSort segmentLe).Perm l := List.mergeSort_perm l segmentLe
  have h := joining_foldl (.nil _) (fun g hg => hends g (hperm.mem_iff.1 hg)) (segmentLe_sorted l)
  exact ⟨h.points.trans (points_perm hperm), h.ends⟩

/-! ## What the nodes hold -/

structure Reg where
  first : Nat
  last : Nat
  ground : Segment

def Reg.Meets (r : Reg) (a h : Nat) : Prop := r.first < a + 2 ^ h ∧ a < r.last

def Reg.Covers (r : Reg) (a h : Nat) : Prop := r.first ≤ a ∧ a + 2 ^ h ≤ r.last

instance (r : Reg) (a h : Nat) : Decidable (r.Covers a h) := inferInstanceAs (Decidable (_ ∧ _))

/-- It has a point of a query in the interval of a node. -/
def Reg.Shares (q r : Reg) (a h : Nat) : Prop :=
  ∃ y, a ≤ y ∧ y < a + 2 ^ h ∧ (r.first ≤ y ∧ y < r.last) ∧ q.first ≤ y ∧ y < q.last

/-- The points of the grounds of the registrations with a property. -/
def grounds (regs : List Reg) (P : Reg → Prop) : Set Nat :=
  {x | ∃ r ∈ regs, P r ∧ Segment.Has r.ground x}

def Twice (x : Nat) (l : List Segment) : Prop := ∃ l1 l2, l = l1 ++ l2 ∧ x ∈ points l1 ∧ x ∈ points l2

/-- What a query collects below a node that holds some registrations. One that was made on the
query's own interval is collected twice. -/
structure Collects (q : Reg) (regs : List Reg) (a h : Nat) (l : List Segment) : Prop where
  points : points l = grounds regs fun r => Reg.Shares q r a h
  twice : ∀ r ∈ regs, r.first = q.first → r.last = q.last → ∀ x, Segment.Has r.ground x → Twice x l

structure Keeps (segs : Option (List Segment)) (regs : List Reg) (P : Reg → Prop) : Prop where
  points : points (segs.getD []) = grounds regs P
  ends : Ends (segs.getD [])

def further (regs : List Reg) (a h : Nat) : List Reg := regs.filter fun r => ¬ r.Covers a h

def NodeHolds (arr : List TreeNode) (regs : List Reg) (idx a h : Nat) : Prop :=
  ∃ node, arr[idx]? = some node ∧ Keeps node.totalSegmentSet regs (fun r => r.Meets a h) ∧
    Keeps node.groundSegmentSet regs fun r => r.Covers a h

def Holds (arr : List TreeNode) : Nat → List Reg → Nat → Nat → Prop
  | 0, regs, idx, a => NodeHolds arr regs idx a 0
  | h + 1, regs, idx, a => NodeHolds arr regs idx a (h + 1) ∧
    Holds arr h (further regs a (h + 1)) (child 2 idx 0) a ∧
    Holds arr h (further regs a (h + 1)) (child 2 idx 1) (a + 2 ^ h)

variable {arr arr' : List TreeNode} {regs : List Reg} {r q : Reg} {idx a h k n : Nat} {P : Reg → Prop}
  {segs : Option (List Segment)} {nd : TreeNode}

theorem Reg.Covers.meets (hc : r.Covers a h) : r.Meets a h := by
  have := Nat.two_pow_pos h
  unfold Reg.Covers at hc
  unfold Reg.Meets
  omega

theorem Reg.Meets.covers_zero (hm : r.Meets a 0) : r.Covers a 0 := by
  unfold Reg.Meets at hm
  unfold Reg.Covers
  omega

theorem grounds_snoc (regs : List Reg) (r : Reg) (P : Reg → Prop) :
    grounds (regs ++ [r]) P = grounds regs P ∪ {x | P r ∧ Segment.Has r.ground x} := by
  ext x
  simp only [grounds, List.mem_append, List.mem_singleton, Set.mem_ofPred_eq, Set.mem_union, or_and_right,
    exists_or, exists_eq_left]

theorem Keeps.skip (hk : Keeps segs regs P) (hP : ¬ P r) : Keeps segs (regs ++ [r]) P where
  points := by
    have : {x | P r ∧ Segment.Has r.ground x} = ∅ := Set.eq_empty_of_forall_notMem fun x hx => hP hx.1
    rw [grounds_snoc, this, Set.union_empty, hk.points]
  ends := hk.ends

theorem Keeps.snoc (hk : Keeps segs regs P) (hP : P r) (hr : r.ground.1 + r.ground.2 < 2 ^ 64) :
    Keeps (some (segs.getD [] ++ [r.ground])) (regs ++ [r]) P where
  points := by
    rw [Option.getD_some, points_append, hk.points, grounds_snoc, points_singleton]
    simp only [hP, true_and]
  ends := hk.ends.append (.singleton hr)

theorem further_snoc_of_covers (hc : r.Covers a h) : further (regs ++ [r]) a h = further regs a h := by
  simp [further, hc]

theorem further_snoc (hc : ¬ r.Covers a h) : further (regs ++ [r]) a h = further regs a h ++ [r] := by
  simp [further, hc]

theorem NodeHolds.congr (hn : NodeHolds arr regs idx a h) (he : arr'[idx]? = arr[idx]?) :
    NodeHolds arr' regs idx a h := by
  unfold NodeHolds
  rwa [he]

theorem Holds.congr (hh : Holds arr h regs idx a) (he : ∀ k, Desc 2 idx k → arr'[k]? = arr[k]?) :
    Holds arr' h regs idx a := by
  induction h generalizing regs idx a with
  | zero => exact NodeHolds.congr hh (he idx .refl)
  | succ h ih =>
    obtain ⟨hn, hl, hr⟩ := hh
    exact ⟨hn.congr (he idx .refl), ih hl fun k hk => he k (hk.of_child (by decide)),
      ih hr fun k hk => he k (hk.of_child (by decide))⟩

theorem Holds.skip (hh : Holds arr h regs idx a) (hr : ¬ r.Meets a h) :
    Holds arr h (regs ++ [r]) idx a := by
  induction h generalizing regs idx a with
  | zero =>
    obtain ⟨node, hget, htotal, hground⟩ := hh
    exact ⟨node, hget, htotal.skip hr, hground.skip (mt Reg.Covers.meets hr)⟩
  | succ h ih =>
    obtain ⟨⟨node, hget, htotal, hground⟩, hleft, hright⟩ := hh
    refine ⟨⟨node, hget, htotal.skip hr, hground.skip (mt Reg.Covers.meets hr)⟩, ?_, ?_⟩
    · rw [further_snoc (mt Reg.Covers.meets hr)]
      refine ih hleft fun hm => hr ?_
      unfold Reg.Meets at hm ⊢
      rw [Nat.pow_succ]
      omega
    · rw [further_snoc (mt Reg.Covers.meets hr)]
      refine ih hright fun hm => hr ?_
      have := Nat.two_pow_pos h
      unfold Reg.Meets at hm ⊢
      rw [Nat.pow_succ]
      omega

theorem Holds.set_above (hh : Holds arr h regs (child 2 idx k) a) (hk : k < 2) (node' : TreeNode) :
    Holds (arr.set idx node') h regs (child 2 idx k) a :=
  hh.congr fun _ hj => set_above_eq hk node' hj

theorem Holds.sibling {j : Nat} (hh : Holds arr h regs (child 2 idx j) a)
    (hb : Below 2 arr arr' (child 2 idx k)) (hk : k < 2) (hj : j < 2) (hjk : j ≠ k) :
    Holds arr' h regs (child 2 idx j) a :=
  hh.congr fun _ hi => hb.sibling_eq hk hj hjk hi

/-! ## An insertion -/

/-- What the source calls the key of a node: the part of an interval in that of the node. -/
theorem key_eq_iff : (a = max r.first a ∧ a + 2 ^ h = min r.last (a + 2 ^ h)) ↔ r.Covers a h := by
  unfold Reg.Covers
  omega

theorem addHelper_ok (hh : Holds arr h regs idx a) (hm : r.Meets a h) (hne : r.first < r.last)
    (hr : r.ground.1 + r.ground.2 < 2 ^ 64) :
    ∃ arr', treeAddGroundHelper (h + 1) arr idx a (a + 2 ^ h) (max r.first a) (min r.last (a + 2 ^ h))
        r.ground = .ok arr' ∧ Holds arr' h (regs ++ [r]) idx a ∧ Below 2 arr arr' idx := by
  induction h generalizing arr regs idx a with
  | zero =>
    obtain ⟨node, hget, htotal, hground⟩ := hh
    unfold treeAddGroundHelper
    rw [hget]
    dsimp only
    rw [if_pos (key_eq_iff.2 hm.covers_zero)]
    exact ⟨_, rfl, ⟨_, getElem?_set_self_of_some hget _, htotal.snoc hm hr, hground.snoc hm.covers_zero hr⟩,
      .write ..⟩
  | succ h ih =>
    obtain ⟨⟨node, hget, htotal, hground⟩, hleft, hright⟩ := hh
    have htotal' := htotal.snoc hm hr
    unfold treeAddGroundHelper
    rw [hget]
    dsimp only
    by_cases hc : r.Covers a (h + 1)
    · rw [if_pos (key_eq_iff.2 hc)]
      refine ⟨_, rfl, ⟨⟨_, getElem?_set_self_of_some hget _, htotal', hground.snoc hc hr⟩, ?_, ?_⟩, .write ..⟩
      · rw [further_snoc_of_covers hc]
        exact hleft.set_above (by decide) _
      · rw [further_snoc_of_covers hc]
        exact hright.set_above (by decide) _
    rw [if_neg (mt key_eq_iff.1 hc), half]
    have hwrite : Below 2 arr _ idx := .write arr idx (treeNodeAddTotal node r.ground)
    have hself := getElem?_set_self_of_some hget (treeNodeAddTotal node r.ground)
    replace hleft := hleft.set_above (by decide) (treeNodeAddTotal node r.ground)
    replace hright := hright.set_above (by decide) (treeNodeAddTotal node r.ground)
    have hpow := pow_succ_half h
    have hpos := Nat.two_pow_pos h
    have hm' := hm
    unfold Reg.Meets at hm'
    -- the node itself, once the children have been written
    have hnode : ∀ arr', arr'[idx]? = (arr.set idx (treeNodeAddTotal node r.ground))[idx]? →
        NodeHolds arr' (regs ++ [r]) idx a (h + 1) := fun arr' he =>
      ⟨_, he.trans hself, htotal', hground.skip hc⟩
    unfold Holds
    rw [further_snoc hc]
    by_cases hl : r.last ≤ a + 2 ^ h
    · have hkey : min r.last (a + 2 ^ (h + 1)) = min r.last (a + 2 ^ h) := by omega
      rw [if_pos (show min r.last (a + 2 ^ (h + 1)) ≤ a + 2 ^ h by omega), hkey]
      obtain ⟨arr2, e2, hleft2, hb⟩ := ih hleft (show r.Meets a h by unfold Reg.Meets; omega)
      refine ⟨arr2, e2, ⟨hnode _ (hb.parent_eq (by decide)), hleft2, ?_⟩, hwrite.trans
        (hb.of_child (by decide))⟩
      exact (hright.sibling hb (by decide) (by decide) (by decide)).skip fun hm => by
        unfold Reg.Meets at hm
        omega
    rw [if_neg (show ¬ min r.last (a + 2 ^ (h + 1)) ≤ a + 2 ^ h by omega)]
    have hmr : r.Meets (a + 2 ^ h) h := by
      unfold Reg.Meets
      omega
    have hlast : a + 2 ^ (h + 1) = a + 2 ^ h + 2 ^ h := by omega
    by_cases hf : a + 2 ^ h ≤ r.first
    · have hkey : max r.first a = max r.first (a + 2 ^ h) := by omega
      rw [if_pos (show max r.first a ≥ a + 2 ^ h by omega), hkey, hlast]
      obtain ⟨arr2, e2, hright2, hb⟩ := ih hright hmr
      refine ⟨arr2, e2, ⟨hnode _ (hb.parent_eq (by decide)), ?_, hright2⟩, hwrite.trans
        (hb.of_child (by decide))⟩
      exact (hleft.sibling hb (by decide) (by decide) (by decide)).skip fun hm => by
        unfold Reg.Meets at hm
        omega
    · rw [if_neg (show ¬ max r.first a ≥ a + 2 ^ h by omega)]
      obtain ⟨arr2, e2, hleft2, hb2⟩ := ih hleft (show r.Meets a h by unfold Reg.Meets; omega)
      have hright2 := hright.sibling hb2 (by decide) (by decide) (by decide)
      obtain ⟨arr3, e3, hright3, hb3⟩ := ih hright2 hmr
      have hkey2 : min r.last (a + 2 ^ h) = a + 2 ^ h := by omega
      have hkey3 : max r.first (a + 2 ^ h) = a + 2 ^ h := by omega
      rw [hkey2] at e2
      rw [hkey3, ← hlast] at e3
      refine ⟨arr3, ?_, ⟨hnode _ ?_, hleft2.sibling hb3 (by decide) (by decide) (by decide), hright3⟩,
        hwrite.trans ((hb2.of_child (by decide)).trans (hb3.of_child (by decide)))⟩
      · rw [show idx * 2 + 1 = child 2 idx 0 from rfl, e2, ok_bind]
        exact e3
      · exact (hb3.parent_eq (by decide)).trans (hb2.parent_eq (by decide))

/-! ## A query -/

/-- A query that covers the interval of a node shares a point there with what meets it. -/
theorem Reg.Covers.shares_iff (hq : q.Covers a h) (hne : r.first < r.last) :
    Reg.Shares q r a h ↔ r.Meets a h := by
  unfold Reg.Covers at hq
  unfold Reg.Shares Reg.Meets
  constructor
  · rintro ⟨y, h1, h2, ⟨h3, h4⟩, -⟩
    omega
  · intro hm
    have := Nat.two_pow_pos h
    exact ⟨max a r.first, by omega, by omega, ⟨by omega, by omega⟩, by omega, by omega⟩

theorem Reg.shares_succ : Reg.Shares q r a (h + 1) ↔
    Reg.Shares q r a h ∨ Reg.Shares q r (a + 2 ^ h) h := by
  constructor
  · rintro ⟨y, h1, h2, h3⟩
    by_cases hy : y < a + 2 ^ h
    · exact .inl ⟨y, h1, hy, h3⟩
    · exact .inr ⟨y, by omega, by omega, h3⟩
  · rintro (⟨y, h1, h2, h3⟩ | ⟨y, h1, h2, h3⟩)
    · exact ⟨y, h1, by omega, h3⟩
    · exact ⟨y, by omega, by omega, h3⟩

theorem Reg.Covers.shares (hr : r.Covers a h) (hq : q.Meets a h) (hne : q.first < q.last) :
    Reg.Shares q r a h := by
  have := Nat.two_pow_pos h
  unfold Reg.Covers at hr
  unfold Reg.Meets at hq
  exact ⟨max a q.first, by omega, by omega, ⟨by omega, by omega⟩, by omega, by omega⟩

theorem not_shares (hq : ¬ q.Meets a h) : ¬ Reg.Shares q r a h := by
  rintro ⟨y, h1, h2, -, h3, h4⟩
  exact hq ⟨by omega, by omega⟩

theorem grounds_shares_succ (hq : q.Meets a (h + 1)) (hne : q.first < q.last) :
    grounds regs (fun r => Reg.Shares q r a (h + 1)) =
      grounds regs (fun r => r.Covers a (h + 1)) ∪
        (grounds (further regs a (h + 1)) (fun r => Reg.Shares q r a h) ∪
          grounds (further regs a (h + 1)) fun r => Reg.Shares q r (a + 2 ^ h) h) := by
  ext x
  simp only [grounds, further, List.mem_filter, decide_eq_true_eq, Set.mem_ofPred_eq, Set.mem_union]
  constructor
  · rintro ⟨r, hr, hs, hx⟩
    by_cases hc : r.Covers a (h + 1)
    · exact .inl ⟨r, hr, hc, hx⟩
    · rcases Reg.shares_succ.1 hs with hs | hs
      · exact .inr (.inl ⟨r, ⟨hr, hc⟩, hs, hx⟩)
      · exact .inr (.inr ⟨r, ⟨hr, hc⟩, hs, hx⟩)
  · rintro (⟨r, hr, hc, hx⟩ | ⟨r, ⟨hr, -⟩, hs, hx⟩ | ⟨r, ⟨hr, -⟩, hs, hx⟩)
    · exact ⟨r, hr, hc.shares hq hne, hx⟩
    · exact ⟨r, hr, Reg.shares_succ.2 (.inl hs), hx⟩
    · exact ⟨r, hr, Reg.shares_succ.2 (.inr hs), hx⟩

theorem grounds_not_shares (hq : ¬ q.Meets a h) : grounds regs (fun r => Reg.Shares q r a h) = ∅ :=
  Set.eq_empty_of_forall_notMem fun _ hx => by
    obtain ⟨r, -, hs, -⟩ := hx
    exact not_shares hq hs

theorem grounds_covered (hq : q.Covers a h) (hregs : ∀ r ∈ regs, r.first < r.last) :
    grounds regs (fun r => r.Covers a h) ∪ grounds regs (fun r => r.Meets a h) =
      grounds regs fun r => Reg.Shares q r a h := by
  ext x
  simp only [grounds, Set.mem_ofPred_eq, Set.mem_union]
  constructor
  · rintro (⟨r, hr, hc, hx⟩ | ⟨r, hr, hm, hx⟩)
    · exact ⟨r, hr, (hq.shares_iff (hregs r hr)).2 hc.meets, hx⟩
    · exact ⟨r, hr, (hq.shares_iff (hregs r hr)).2 hm, hx⟩
  · rintro ⟨r, hr, hs, hx⟩
    exact .inr ⟨r, hr, (hq.shares_iff (hregs r hr)).1 hs, hx⟩

theorem Twice.before (h : Twice x l) (l' : List Segment) : Twice x (l' ++ l) := by
  obtain ⟨l1, l2, rfl, h1, h2⟩ := h
  exact ⟨l' ++ l1, l2, (List.append_assoc ..).symm, points_append l' l1 ▸ .inr h1, h2⟩

theorem Twice.after (h : Twice x l) (l' : List Segment) : Twice x (l ++ l') := by
  obtain ⟨l1, l2, rfl, h1, h2⟩ := h
  exact ⟨l1, l2 ++ l', List.append_assoc .., h1, points_append l2 l' ▸ .inl h2⟩

theorem getHelper_covers (hn : NodeHolds arr regs idx a h) (hq : q.Covers a h)
    (hregs : ∀ r ∈ regs, r.first < r.last) (result : List Segment) :
    ∃ l, treeGetGroundUnsortedHelper arr (h + 1) idx a (a + 2 ^ h) (max q.first a)
        (min q.last (a + 2 ^ h)) result = .ok (result ++ l) ∧ Collects q regs a h l := by
  obtain ⟨node, hget, htotal, hground⟩ := hn
  refine ⟨node.groundSegmentSet.getD [] ++ node.totalSegmentSet.getD [], ?_, ?_,
    fun r hr hfirst hlast x hx => ?_⟩
  · unfold treeGetGroundUnsortedHelper
    rw [hget]
    dsimp only
    rw [if_pos (key_eq_iff.2 hq), List.append_assoc]
  · rw [points_append, hground.points, htotal.points, grounds_covered hq hregs]
  · have hc : r.Covers a h := by
      unfold Reg.Covers
      rwa [hfirst, hlast]
    exact ⟨_, _, rfl, hground.points ▸ ⟨r, hr, hc, hx⟩, htotal.points ▸ ⟨r, hr, hc.meets, hx⟩⟩

theorem getHelper_ok (hh : Holds arr h regs idx a) (hq : q.Meets a h) (hne : q.first < q.last)
    (hregs : ∀ r ∈ regs, r.first < r.last) (result : List Segment) :
    ∃ l, treeGetGroundUnsortedHelper arr (h + 1) idx a (a + 2 ^ h) (max q.first a)
        (min q.last (a + 2 ^ h)) result = .ok (result ++ l) ∧ Collects q regs a h l := by
  induction h generalizing regs idx a result with
  | zero => exact getHelper_covers hh hq.covers_zero hregs result
  | succ h ih =>
    by_cases hc : q.Covers a (h + 1)
    · exact getHelper_covers hh.1 hc hregs result
    obtain ⟨⟨node, hget, -, hground⟩, hleft, hright⟩ := hh
    have hfurther : ∀ r ∈ further regs a (h + 1), r.first < r.last := fun r hr =>
      hregs r (List.mem_of_mem_filter hr)
    have hown : ∀ r ∈ regs, r.first = q.first → r.last = q.last → r ∈ further regs a (h + 1) := by
      intro r hr hfirst hlast
      refine List.mem_filter.2 ⟨hr, decide_eq_true ?_⟩
      unfold Reg.Covers at hc ⊢
      rwa [hfirst, hlast]
    unfold treeGetGroundUnsortedHelper
    rw [hget]
    dsimp only
    rw [if_neg (mt key_eq_iff.1 hc), half]
    have hshares : grounds regs (fun r => Reg.Shares q r a (h + 1)) = _ :=
      grounds_shares_succ hq hne
    rw [← hground.points] at hshares
    have hpow := pow_succ_half h
    have hpos := Nat.two_pow_pos h
    have hlast : a + 2 ^ (h + 1) = a + 2 ^ h + 2 ^ h := by omega
    have hq' := hq
    unfold Reg.Meets at hq'
    by_cases hl : q.last ≤ a + 2 ^ h
    · have hkey : min q.last (a + 2 ^ (h + 1)) = min q.last (a + 2 ^ h) := by omega
      rw [if_pos (show min q.last (a + 2 ^ (h + 1)) ≤ a + 2 ^ h by omega), hkey]
      obtain ⟨l, e, hl'⟩ := ih hleft (show q.Meets a h by unfold Reg.Meets; omega) hfurther
        (result ++ node.groundSegmentSet.getD [])
      refine ⟨node.groundSegmentSet.getD [] ++ l, ?_, ?_, fun r hr h1 h2 x hx =>
        (hl'.twice r (hown r hr h1 h2) h1 h2 x hx).before _⟩
      · rw [← List.append_assoc]
        exact e
      · rw [hshares, points_append, hl'.points, grounds_not_shares (show ¬ q.Meets (a + 2 ^ h) h by
          unfold Reg.Meets; omega), Set.union_empty]
    rw [if_neg (show ¬ min q.last (a + 2 ^ (h + 1)) ≤ a + 2 ^ h by omega)]
    have hqr : q.Meets (a + 2 ^ h) h := by
      unfold Reg.Meets
      omega
    by_cases hf : a + 2 ^ h ≤ q.first
    · have hkey : max q.first a = max q.first (a + 2 ^ h) := by omega
      rw [if_pos (show max q.first a ≥ a + 2 ^ h by omega), hkey, hlast]
      obtain ⟨l, e, hl'⟩ := ih hright hqr hfurther (result ++ node.groundSegmentSet.getD [])
      refine ⟨node.groundSegmentSet.getD [] ++ l, ?_, ?_, fun r hr h1 h2 x hx =>
        (hl'.twice r (hown r hr h1 h2) h1 h2 x hx).before _⟩
      · rw [← List.append_assoc]
        exact e
      · rw [hshares, points_append, hl'.points,
          grounds_not_shares (show ¬ q.Meets a h by unfold Reg.Meets; omega), Set.empty_union]
    · rw [if_neg (show ¬ max q.first a ≥ a + 2 ^ h by omega)]
      obtain ⟨l, e, hl'⟩ := ih hleft (show q.Meets a h by unfold Reg.Meets; omega) hfurther
        (result ++ node.groundSegmentSet.getD [])
      obtain ⟨l2, e2, hl2'⟩ := ih hright hqr hfurther (result ++ node.groundSegmentSet.getD [] ++ l)
      have hkey : min q.last (a + 2 ^ h) = a + 2 ^ h := by omega
      have hkey2 : max q.first (a + 2 ^ h) = a + 2 ^ h := by omega
      rw [hkey] at e
      rw [hkey2, ← hlast] at e2
      refine ⟨node.groundSegmentSet.getD [] ++ (l ++ l2), ?_, ?_, fun r hr h1 h2 x hx =>
        ((hl'.twice r (hown r hr h1 h2) h1 h2 x hx).after l2).before _⟩
      · rw [show idx * 2 + 1 = child 2 idx 0 from rfl, e, ok_bind, ← List.append_assoc,
          ← List.append_assoc]
        exact e2
      · rw [hshares, points_append, points_append, hl'.points, hl2'.points]

/-! ## Optimizing -/

theorem Keeps.optimized (hk : Keeps segs regs P) :
    Keeps (segs.map intervalSortAndAdjecentJoin) regs P := by
  cases segs with
  | none => exact hk
  | some l =>
    obtain ⟨hpoints, hends⟩ := join_points hk.ends
    exact ⟨hpoints.trans hk.points, hends⟩

def joinedNode (node : TreeNode) : TreeNode where
  groundSegmentSet := node.groundSegmentSet.map intervalSortAndAdjecentJoin
  totalSegmentSet := node.totalSegmentSet.map intervalSortAndAdjecentJoin

theorem optimizeHelper_ok (hh : Holds arr h regs idx a) :
    ∃ arr', treeOptimizeHelper (h + 1) arr idx a (a + 2 ^ h) = .ok arr' ∧ Holds arr' h regs idx a ∧
      Below 2 arr arr' idx := by
  induction h generalizing arr regs idx a with
  | zero =>
    obtain ⟨node, hget, htotal, hground⟩ := hh
    unfold treeOptimizeHelper
    rw [hget]
    dsimp only
    rw [if_pos (show a + 1 = a + 2 ^ 0 from rfl)]
    exact ⟨_, rfl, ⟨_, getElem?_set_self_of_some hget _, htotal.optimized, hground.optimized⟩, .write ..⟩
  | succ h ih =>
    obtain ⟨⟨node, hget, htotal, hground⟩, hleft, hright⟩ := hh
    have hpos := Nat.two_pow_pos h
    unfold treeOptimizeHelper
    rw [hget]
    dsimp only
    rw [if_neg (show a + 1 ≠ a + 2 ^ (h + 1) by omega), half]
    obtain ⟨arr2, e2, hleft2, hb2⟩ := ih (hleft.set_above (by decide) (joinedNode node))
    have hright2 := (hright.set_above (by decide) (joinedNode node)).sibling hb2
      (by decide) (by decide) (by decide)
    obtain ⟨arr3, e3, hright3, hb3⟩ := ih hright2
    refine ⟨arr3, ?_, ⟨⟨joinedNode node, ?_, htotal.optimized, hground.optimized⟩,
      hleft2.sibling hb3 (by decide) (by decide) (by decide), hright3⟩,
      (Below.write arr idx _).trans ((hb2.of_child (by decide)).trans (hb3.of_child (by decide)))⟩
    · show treeOptimizeHelper (h + 1) (arr.set idx (joinedNode node)) (child 2 idx 0) a (a + 2 ^ h) >>=
        _ = _
      rw [e2, ok_bind, show a + 2 ^ (h + 1) = a + 2 ^ h + 2 ^ h by omega]
      exact e3
    · exact (hb3.parent_eq (by decide)).trans ((hb2.parent_eq (by decide)).trans
        (getElem?_set_self_of_some hget _))

/-! ## The whole tree -/

theorem nodeHolds_replicate (hidx : idx < n) (a h : Nat) :
    NodeHolds (List.replicate n ⟨none, none⟩) [] idx a h := by
  refine ⟨⟨none, none⟩, by simp [hidx], ?_, ?_⟩
  · exact ⟨by simp [grounds], fun _ hg => nomatch hg⟩
  · exact ⟨by simp [grounds], fun _ hg => nomatch hg⟩

theorem holds_replicate (hn : lastIdx 2 h idx < n) :
    Holds (List.replicate n ⟨none, none⟩) h [] idx a := by
  have hnode := nodeHolds_replicate ((le_lastIdx (D := 2) (by decide) h idx).trans_lt hn) a h
  induction h generalizing idx a with
  | zero => exact hnode
  | succ h ih =>
    have hchild : ∀ k, k < 2 → lastIdx 2 h (child 2 idx k) < n := fun k hk =>
      (lastIdx_child_le h hk).trans_lt hn
    have hidx : ∀ k, k < 2 → child 2 idx k < n := fun k hk =>
      (le_lastIdx (by decide) h _).trans_lt (hchild k hk)
    exact ⟨hnode, ih (hchild 0 (by decide)) (nodeHolds_replicate (hidx 0 (by decide)) _ _),
      ih (hchild 1 (by decide)) (nodeHolds_replicate (hidx 1 (by decide)) _ _)⟩

structure TreeOk (range h : Nat) (t : GroundTree) (regs : List Reg) : Prop where
  length : t.intervalTree.length + 1 = 2 ^ (h + 1)
  bound : h < 63
  range_le : range ≤ 2 ^ h
  sz : t.sz = range
  holds : Holds t.intervalTree h regs 0 0
  nonempty : ∀ r ∈ regs, r.first < r.last

variable {range : Nat} {t t' : GroundTree} {interval ground : Segment}

theorem TreeOk.range_lt (ht : TreeOk range h t regs) : range < 2 ^ 64 :=
  ht.range_le.trans_lt (Nat.pow_lt_pow_right (by decide) (ht.bound.trans (by decide)))

theorem TreeOk.baseSize (ht : TreeOk range h t regs) : t.baseSize = 2 ^ h := by
  have hlt : 2 ^ (h + 1) < 2 ^ 64 := Nat.pow_lt_pow_right (by decide) (by have := ht.bound; omega)
  unfold GroundTree.baseSize treeSizeToBaseSize
  rw [ht.length, sizeT_of_lt hlt, Nat.pow_succ, Nat.mul_div_cancel _ (by decide)]

theorem depth_pow (h : Nat) : depth (2 ^ h) = h + 1 := by
  rw [depth, Nat.log2_two_pow]

theorem outside (hp : IsPair interval) (hout : ¬ Segment.Inside range interval) :
    sizeT (interval.1 + interval.2) > range ∨
      interval.1 ≠ sizeT (interval.1 + interval.2) ∧ interval.1 ≥ sizeT (interval.1 + interval.2) := by
  unfold IsPair at hp
  by_cases hlt : interval.1 + interval.2 < 2 ^ 64
  · rw [sizeT_of_lt hlt]
    exact .inl (Nat.lt_of_not_le hout)
  · refine .inr ?_
    unfold sizeT
    omega

theorem checkInterval_bad {first last baseSz : Nat} (hbase : baseSz ≠ 0) (hle : first ≥ last) :
    checkInterval baseSz first last =
      .error (.invalidArgument "bad interval, interval size is 0 or negative") := by
  unfold checkInterval
  rw [if_neg hbase, if_pos hle]

theorem checkInterval_ok {first last : Nat} (hlt : first < last) (hlast : last ≤ 2 ^ h) :
    checkInterval (2 ^ h) first last = .ok () := by
  unfold checkInterval
  rw [if_neg (Nat.two_pow_pos h).ne', if_neg (Nat.not_le.2 hlt), if_neg (Nat.not_lt.2 hlast)]

theorem TreeOk.addGround_outside (ht : TreeOk range h t regs) (ground : Segment)
    (hp : IsPair interval) (hout : ¬ Segment.Inside range interval) :
    ∃ what, t.addGround interval ground = .error (.invalidArgument what) := by
  unfold addGround
  rw [ht.sz]
  by_cases hlast : sizeT (interval.1 + interval.2) > range
  · rw [if_pos hlast]
    exact ⟨_, rfl⟩
  · obtain ⟨hne, hge⟩ := (outside hp hout).resolve_left hlast
    rw [if_neg hlast, if_neg hne]
    unfold treeAddGround
    rw [ht.baseSize, checkInterval_bad (Nat.two_pow_pos h).ne' hge]
    exact ⟨_, rfl⟩

def regOf (interval ground : Segment) : Reg := ⟨interval.1, interval.1 + interval.2, ground⟩

section

variable (ht : TreeOk range h t regs)

include ht

theorem TreeOk.last_eq (hin : Segment.Inside range interval) :
    sizeT (interval.1 + interval.2) = interval.1 + interval.2 :=
  sizeT_of_lt (Nat.lt_of_le_of_lt hin ht.range_lt)

theorem TreeOk.meets (ground : Segment)
    (hin : Segment.Inside range interval) (hpos : interval.2 ≠ 0) : (regOf interval ground).Meets 0 h ∧
      max (regOf interval ground).first 0 = interval.1 ∧
      min (regOf interval ground).last (0 + 2 ^ h) = interval.1 + interval.2 := by
  have := ht.range_le
  unfold Segment.Inside at hin
  unfold Reg.Meets regOf
  dsimp only
  omega

theorem TreeOk.addGround_ok (hin : Segment.Inside range interval)
    (hends : ground.1 + ground.2 < 2 ^ 64) :
    ∃ t', t.addGround interval ground = .ok t' ∧ TreeOk range h t'
      (if interval.2 = 0 ∨ ground.2 = 0 then regs else regs ++ [regOf interval ground]) := by
  have hin' := hin
  unfold addGround
  rw [ht.sz, ht.last_eq hin, ht.baseSize]
  rw [if_neg (Nat.not_lt.2 hin')]
  by_cases hzero : interval.2 = 0
  · rw [if_pos (show interval.1 = interval.1 + interval.2 by omega), if_pos (.inl hzero)]
    exact ⟨t, rfl, ht⟩
  rw [if_neg (show interval.1 ≠ interval.1 + interval.2 by omega)]
  unfold treeAddGround
  rw [checkInterval_ok (by omega) (hin'.trans ht.range_le)]
  rw [ok_bind]
  by_cases hground : ground.2 = 0
  · rw [if_pos hground, if_pos (Or.inr hground)]
    refine ⟨t, ?_, ht⟩
    rw [← ht.sz]
    rfl
  rw [if_neg hground, if_neg (show ¬ (interval.2 = 0 ∨ ground.2 = 0) by omega), depth_pow]
  obtain ⟨hm, hfirst, hlast⟩ := ht.meets ground hin hzero
  obtain ⟨arr', e, hholds, hb⟩ := addHelper_ok ht.holds hm (show _ < _ by
    show interval.1 < interval.1 + interval.2; omega) hends
  rw [hfirst, hlast, Nat.zero_add] at e
  refine ⟨{ t with intervalTree := arr' }, ?_, ⟨?_, ht.bound, ht.range_le, ht.sz, hholds, ?_⟩⟩
  · show treeAddGroundHelper _ _ _ _ _ _ _ (regOf interval ground).ground >>= _ = _
    rw [e, ← ht.sz]
    rfl
  · rw [hb.length, ht.length]
  · intro r hr
    rcases List.mem_append.1 hr with hr | hr
    · exact ht.nonempty r hr
    · obtain rfl := List.mem_singleton.1 hr
      omega

theorem TreeOk.getGround_ok (hin : Segment.Inside range interval) :
    ∃ l, t.getGround interval = .ok l ∧ points l =
      (grounds regs fun r => ∃ y, (r.first ≤ y ∧ y < r.last) ∧ Segment.Has interval y) ∧
      ∀ ground, regOf interval ground ∈ regs → ∀ x, Segment.Has ground x → Twice x l := by
  have hin' := hin
  have hrange := ht.range_le
  unfold getGround
  rw [ht.sz, ht.last_eq hin, ht.baseSize]
  rw [if_neg (Nat.not_lt.2 hin')]
  by_cases hzero : interval.2 = 0
  · rw [if_pos (show interval.1 = interval.1 + interval.2 by omega)]
    refine ⟨[], rfl, ?_, fun ground hr => ?_⟩
    swap
    · have hlt : interval.1 < interval.1 + interval.2 := ht.nonempty _ hr
      omega
    rw [points_nil]
    refine (Set.eq_empty_of_forall_notMem fun x hx => ?_).symm
    obtain ⟨r, -, ⟨y, -, hy⟩, -⟩ := hx
    unfold Segment.Has at hy
    omega
  rw [if_neg (show interval.1 ≠ interval.1 + interval.2 by omega)]
  unfold treeGetGround
  rw [checkInterval_ok (by omega) (hin'.trans ht.range_le), ok_bind, depth_pow]
  obtain ⟨hm, hfirst, hlast⟩ := ht.meets (0, 0) hin hzero
  obtain ⟨l, e, hl⟩ := getHelper_ok ht.holds hm (show _ < _ by
    show interval.1 < interval.1 + interval.2; omega) ht.nonempty []
  rw [hfirst, hlast, Nat.zero_add] at e
  refine ⟨l, e, hl.points.trans ?_, fun ground hr x hx => hl.twice _ hr rfl rfl x hx⟩
  ext x
  refine exists_congr fun r => and_congr_right fun _ => and_congr_left fun _ => exists_congr fun y => ?_
  show 0 ≤ y ∧ y < 0 + 2 ^ h ∧ (r.first ≤ y ∧ y < r.last) ∧ interval.1 ≤ y ∧
    y < interval.1 + interval.2 ↔ (r.first ≤ y ∧ y < r.last) ∧ interval.1 ≤ y ∧
      y < interval.1 + interval.2
  omega

theorem TreeOk.optimize_ok :
    ∃ t', t.optimize = .ok t' ∧ TreeOk range h t' regs := by
  unfold optimize treeOptimize
  rw [ht.baseSize, if_neg (Nat.two_pow_pos h).ne', depth_pow]
  obtain ⟨arr', e, hholds, hb⟩ := optimizeHelper_ok ht.holds
  rw [Nat.zero_add] at e
  refine ⟨{ t with intervalTree := arr' }, ?_, ⟨?_, ht.bound, ht.range_le, ht.sz, hholds, ht.nonempty⟩⟩
  · rw [e]
    rfl
  · rw [hb.length, ht.length]

end

theorem treeOk_replicate (hbound : h < 63) (hle : range ≤ 2 ^ h) (hn : n + 1 = 2 ^ (h + 1)) :
    TreeOk range h ⟨List.replicate n ⟨none, none⟩, range⟩ [] where
  length := by rw [List.length_replicate, hn]
  bound := hbound
  range_le := hle
  sz := rfl
  holds := by
    refine holds_replicate ?_
    have := lastIdx_closed (D := 2) (by decide) h 0
    rw [Nat.pow_succ] at hn
    omega
  nonempty _ hr := nomatch hr

theorem make_ok (e : make range = .ok t) : ∃ h, TreeOk range h t [] := by
  unfold make ceil2 at e
  cases hf : (List.range 64).find? (fun i => decide (2 ^ i ≥ range)) with
  | none =>
    rw [hf] at e
    cases e
  | some h =>
    rw [hf, ok_bind] at e
    have hlt : h < 64 := List.mem_range.1 (List.mem_of_find?_eq_some hf)
    have hle := List.find?_some hf
    rw [decide_eq_true_iff] at hle
    by_cases hbig : baseSizeToTreeSize (2 ^ h) > maxTreeSize
    · rw [if_pos hbig] at e
      cases e
    rw [if_neg hbig] at e
    obtain rfl := Except.ok.inj e
    have hbound : h < 63 := by
      by_contra hnot
      obtain rfl : h = 63 := by omega
      exact hbig (by decide +kernel)
    have hpow : 2 ^ (h + 1) < 2 ^ 64 := Nat.pow_lt_pow_right (by decide) (by omega)
    have hpos := Nat.two_pow_pos (h + 1)
    have hsize : baseSizeToTreeSize (2 ^ h) = 2 ^ (h + 1) - 1 := by
      unfold baseSizeToTreeSize
      rw [← Nat.pow_succ, sizeT_of_lt hpow, subT_of_le hpos hpow]
    refine ⟨h, treeOk_replicate hbound hle ?_⟩
    rw [hsize]
    omega

/-! ## Runs -/

def regsOf (l : List (Segment × Segment)) : List Reg :=
  l.filterMap fun x => if x.1.2 = 0 ∨ x.2.2 = 0 then none else some (regOf x.1 x.2)

theorem regsOf_snoc (l : List (Segment × Segment)) (interval ground : Segment) :
    regsOf (l ++ [(interval, ground)]) =
      if interval.2 = 0 ∨ ground.2 = 0 then regsOf l else regsOf l ++ [regOf interval ground] := by
  unfold regsOf
  rw [List.filterMap_append]
  by_cases hz : interval.2 = 0 ∨ ground.2 = 0
  · simp [hz]
  · simp [hz]

theorem registered_snoc (range : Nat) (hist : List Op) (op : Op) :
    registered range (hist ++ [op]) = registered range hist ++ registered range [op] :=
  List.filterMap_append

theorem TreeOk.step {hist : List Op} {op : Op} (ht : TreeOk range h t (regsOf (registered range hist)))
    (hs : Step t op t') : TreeOk range h t' (regsOf (registered range (hist ++ [op]))) := by
  obtain ⟨hvalid, hcall⟩ := hs
  rw [registered_snoc]
  cases op with
  | addGround interval ground =>
    by_cases hin : Segment.Inside range interval
    · obtain ⟨t1, e1, h1⟩ := ht.addGround_ok hin hvalid.2
      have hreg : registered range [.addGround interval ground] = [(interval, ground)] := by
        simp [registered, hin]
      rw [hreg, regsOf_snoc]
      rcases hcall with e | ⟨-, what, e⟩
      · rwa [← Except.ok.inj (e1.symm.trans e)]
      · cases e1.symm.trans e
    · have hreg : registered range [.addGround interval ground] = [] := by
        simp [registered, hin]
      rw [hreg, List.append_nil]
      obtain ⟨what, e1⟩ := ht.addGround_outside ground hvalid.1 hin
      rcases hcall with e | ⟨rfl, -⟩
      · cases e1.symm.trans e
      · exact ht
  | optimize =>
    obtain ⟨t1, e1, h1⟩ := ht.optimize_ok
    rw [show registered range [.optimize] = [] from rfl, List.append_nil]
    rcases hcall with e | ⟨-, what, e⟩
    · rwa [← Except.ok.inj (e1.symm.trans e)]
    · cases e1.symm.trans e
  | getGround interval =>
    rw [show registered range [.getGround interval] = [] from rfl, List.append_nil]
    rcases hcall with e | ⟨rfl, -⟩
    · change (fun _ => t) <$> t.getGround interval = .ok t' at e
      cases hget : t.getGround interval with
      | error err =>
        rw [hget] at e
        cases e
      | ok l =>
        rw [hget] at e
        obtain rfl := Except.ok.inj e
        exact ht
    · exact ht

theorem reach_treeOk {hist : List Op} (hr : Run.Reach (fun t => make range = .ok t) Step t hist) :
    ∃ h, TreeOk range h t (regsOf (registered range hist)) := by
  refine hr.inv (fun t hist => ∃ h, TreeOk range h t (regsOf (registered range hist)))
    (fun t e => make_ok e) fun t hist op t' ⟨h, ht⟩ hs => ⟨h, ht.step hs⟩

/-- What the registrations in the tree give is what the registered intervals ask for. -/
theorem mem_grounds_regsOf {l : List (Segment × Segment)} {query : Segment} {x : Nat} :
    (x ∈ grounds (regsOf l) fun r => ∃ y, (r.first ≤ y ∧ y < r.last) ∧ Segment.Has query y) ↔
      ∃ p ∈ l, (∃ y, Segment.Has p.1 y ∧ Segment.Has query y) ∧ Segment.Has p.2 x := by
  constructor
  · rintro ⟨r, hr, hy, hx⟩
    obtain ⟨p, hp, he⟩ := List.mem_filterMap.1 hr
    by_cases hz : p.1.2 = 0 ∨ p.2.2 = 0
    · rw [if_pos hz] at he
      cases he
    · rw [if_neg hz] at he
      cases he
      exact ⟨p, hp, hy, hx⟩
  · rintro ⟨p, hp, ⟨y, hy, hqy⟩, hx⟩
    have hz : ¬ (p.1.2 = 0 ∨ p.2.2 = 0) := by
      unfold Segment.Has at hy hx
      omega
    exact ⟨regOf p.1 p.2, List.mem_filterMap.2 ⟨p, hp, if_neg hz⟩, ⟨y, hy, hqy⟩, hx⟩

/-- Sorted segments that neither overlap nor touch. -/
structure Canonical (l : List Segment) : Prop where
  nonempty : ∀ g ∈ l, 0 < g.2
  apart : l.Pairwise fun a b => a.1 + a.2 < b.1

theorem Canonical.tail (h : Canonical (g :: l)) : Canonical l :=
  ⟨fun b hb => h.nonempty b (List.mem_cons_of_mem _ hb), h.apart.of_cons⟩

theorem Canonical.not_twice (h : Canonical l) : ¬ Twice x l := by
  rintro ⟨l1, l2, rfl, ⟨g1, hg1, h1⟩, g2, hg2, h2⟩
  have := (List.pairwise_append.1 h.apart).2.2 g1 hg1 g2 hg2
  unfold Segment.Has at h1 h2
  omega

theorem Canonical.after (h : Canonical (g :: l)) (hx : x ∈ points l) : g.1 + g.2 < x := by
  obtain ⟨b, hb, hx, -⟩ := hx
  exact (List.rel_of_pairwise_cons h.apart hb).trans_le hx

/-- A point is in the first segment or after its end, which is no point. -/
theorem Canonical.mem_points (h : Canonical (g :: l)) :
    x ∈ points (g :: l) ↔ Segment.Has g x ∨ g.1 + g.2 < x ∧ x ∈ points l := by
  have hcons : x ∈ points (g :: l) ↔ Segment.Has g x ∨ x ∈ points l := by
    simp [points]
  rw [hcons]
  exact or_congr_right (and_iff_right_of_imp h.after).symm

theorem Canonical.first_mem (h : Canonical (g :: l)) : g.1 ∈ points (g :: l) :=
  h.mem_points.2 (.inl ⟨Nat.le_refl _, Nat.lt_add_of_pos_right (h.nonempty g List.mem_cons_self)⟩)

/-- **Canonical segments with the same points are the same.** -/
theorem Canonical.eq_of_points (h : Canonical l) (h' : Canonical l') (hp : points l = points l') :
    l = l' := by
  induction l generalizing l' with
  | nil =>
    cases l' with
    | nil => rfl
    | cons g' l' => exact absurd (hp.symm ▸ h'.first_mem) (by simp)
  | cons g l ih =>
    cases l' with
    | nil => exact absurd (hp ▸ h.first_mem) (by simp)
    | cons g' l' =>
      have hmem : ∀ x, Segment.Has g x ∨ g.1 + g.2 < x ∧ x ∈ points l ↔
          Segment.Has g' x ∨ g'.1 + g'.2 < x ∧ x ∈ points l' := fun x => by
        rw [← h.mem_points, hp, h'.mem_points]
      have hpos := h.nonempty g List.mem_cons_self
      have hpos' := h'.nonempty g' List.mem_cons_self
      simp only [Segment.Has] at hmem
      have hfirst : g.1 = g'.1 := by
        have h1 := hmem g.1
        have h2 := hmem g'.1
        omega
      have hsz : g.2 = g'.2 := by
        have h1 := hmem (g.1 + g.2)
        have h2 := hmem (g'.1 + g'.2)
        omega
      obtain rfl : g = g' := Prod.ext hfirst hsz
      refine congrArg _ (ih h.tail h'.tail (Set.ext fun x => ?_))
      constructor
      · intro hx
        have := h.after hx
        simpa [hx, this, Nat.not_lt.2 this.le] using hmem x
      · intro hx
        have := h'.after hx
        simpa [hx, this, Nat.not_lt.2 this.le] using hmem x

/-- **Answers are not joined.** For a query with a point some history makes the answer contain a segment
twice; for an empty one the answer is empty. Where the answers after two histories of the same
registrations are canonical, they are the same. -/
theorem getGround_canonical_iff (hmake : ∃ t, make range = .ok t) {query : Segment}
    (hin : Segment.Inside range query) :
    ((∀ hist t, Run.Reach (fun t => make range = .ok t) Step t hist →
        ∃ l, t.getGround query = .ok l ∧ Canonical l ∧
          ∀ hist' t', Run.Reach (fun t => make range = .ok t) Step t' hist' →
            (registered range hist').Perm (registered range hist) → t'.getGround query = .ok l) ↔
      query.2 = 0) ∧
    ∀ hist t hist' t', Run.Reach (fun t => make range = .ok t) Step t hist →
      Run.Reach (fun t => make range = .ok t) Step t' hist' →
      (registered range hist').Perm (registered range hist) →
      ∀ l l', t.getGround query = .ok l → t'.getGround query = .ok l' → Canonical l → Canonical l' →
        l = l' := by
  refine ⟨⟨fun hall => ?_, fun hzero hist t hr => ?_⟩,
    fun hist t hist' t' hr hr' hperm l l' e e' hl hl' => ?_⟩
  · by_contra hpos
    obtain ⟨t, e⟩ := hmake
    obtain ⟨h, ht⟩ := make_ok e
    obtain ⟨t1, e1, h1⟩ := ht.addGround_ok hin (show (0, 1).1 + (0, 1).2 < 2 ^ 64 by decide)
    have hlt := ht.range_lt
    have hvalid : Op.Valid (.addGround query (0, 1)) := by
      unfold Segment.Inside at hin
      exact ⟨⟨by omega, by omega⟩, by decide⟩
    obtain ⟨l, e, hl, -⟩ := hall _ _ (.step (.init e) ⟨hvalid, .inl e1⟩)
    obtain ⟨l', e', -, htwice⟩ := h1.getGround_ok hin
    obtain rfl := Except.ok.inj (e.symm.trans e')
    refine hl.not_twice (htwice (0, 1) ?_ 0 ⟨Nat.le_refl 0, Nat.one_pos⟩)
    rw [if_neg (by simpa using hpos)]
    exact List.mem_cons_self
  · have hempty : ∀ {hist t}, Run.Reach (fun t => make range = .ok t) Step t hist →
        t.getGround query = .ok [] := by
      intro hist t hr
      obtain ⟨h, ht⟩ := reach_treeOk hr
      unfold getGround
      rw [ht.sz, ht.last_eq hin, if_neg (Nat.not_lt.2 hin), if_pos (by omega)]
    exact ⟨[], hempty hr, ⟨by simp, .nil⟩, fun hist' t' hr' _ => hempty hr'⟩
  · obtain ⟨h, ht⟩ := reach_treeOk hr
    obtain ⟨h', ht'⟩ := reach_treeOk hr'
    obtain ⟨k, ek, hk, -⟩ := ht.getGround_ok hin
    obtain ⟨k', ek', hk', -⟩ := ht'.getGround_ok hin
    obtain rfl := Except.ok.inj (e.symm.trans ek)
    obtain rfl := Except.ok.inj (e'.symm.trans ek')
    refine hl.eq_of_points hl' ?_
    rw [hk, hk']
    ext x
    rw [mem_grounds_regsOf, mem_grounds_regsOf]
    exact exists_congr fun p => and_congr_left fun _ => hperm.symm.mem_iff

theorem getGround_canonical_iff_one :
    (∃ t, make 1 = .ok t) ∧ ∀ hist t hist' t', Run.Reach (fun t => make 1 = .ok t) Step t hist →
      Run.Reach (fun t => make 1 = .ok t) Step t' hist' →
      (registered 1 hist').Perm (registered 1 hist) →
      ∀ l l', t.getGround (0, 1) = .ok l → t'.getGround (0, 1) = .ok l' → Canonical l → Canonical l' →
        l = l' :=
  ⟨⟨_, rfl⟩, (getGround_canonical_iff ⟨_, rfl⟩ (by decide)).2⟩

theorem getGround_not_canonical : ∃ t t', make 1 = .ok t ∧ t.addGround (0, 1) (7, 3) = .ok t' ∧
    t'.getGround (0, 1) = .ok [(7, 3), (7, 3)] ∧ ¬ Canonical [(7, 3), (7, 3)] :=
  ⟨_, _, rfl, rfl, rfl, fun h => absurd h.apart (by decide)⟩

end GroundTree

end GroundActivator
