import Mathlib.Order.Interval.Set.LinearOrder
import NeuralNetwork.MatrixSteering.Proof.GroundActivator
import NeuralNetwork.StlExtension.Stdx

/-!
# Tainted intervals

`TaintIntervalTree` of `memory_sync/taint_interval_tree.h`: a complete binary tree over a power of two of
positions, in an array. An interval is split at the midpoints until a part is the interval of a node,
which is then blocked; nothing below a blocked node is looked at again. `taint_exact`: in every run
whose pairs do not wrap around to an end inside the tree, the regions are the maximal intervals of the
tainted positions.
-/

namespace MemorySync

open Cpp Stdx DaryTree Loop ListUpdate
open GroundActivator (Segment joinNext)
open GroundActivator.GroundTree (points)

structure TreeNode where
  isVisited : Bool
  isBlocked : Bool
deriving DecidableEq

structure TaintIntervalTree where
  intervalTree : List TreeNode
  actualBaseSz : Nat
  virtualBaseSz : Nat
deriving DecidableEq

/-- `stdx::shrunk_adjecent_interval`, whose loop is that of `interval_sort_and_adjecent_join`. -/
def shrunkAdjecentInterval (argVec : List Segment) : List Segment :=
  let (resultVec, aggregatedInterval) := argVec.foldl joinNext ([], none)
  resultVec ++ aggregatedInterval.toList

namespace TaintIntervalTree

/-- `max_size()` of a vector of nodes of two bytes. -/
def maxTreeSize : Nat := 2 ^ 62 - 1

/-- Deeper than the tree of any vector. -/
def maxDepth : Nat := 64

def makeIntervalTreeOfBaseSize (baseSz : Nat) : Except Fault (List TreeNode) :=
  if ¬ isPow2 baseSz then .error .abort
  else
    let treeSz := subT (sizeT (baseSz * 2)) 1
    if treeSz > maxTreeSize then .error (.lengthError "vector")
    else .ok (.replicate treeSz ⟨false, false⟩)

def make (baseSz : Nat) : Except Fault TaintIntervalTree := do
  let actualBaseSz ← ceil2 baseSz
  return ⟨← makeIntervalTreeOfBaseSize actualBaseSz, actualBaseSz, baseSz⟩

def dispatchBlock : Nat → List TreeNode → (rootIdx rootFirst rootLast intervalFirst intervalLast : Nat) →
    Except Fault (List TreeNode)
  | 0, _, _, _, _, _, _ => .error .outOfFuel
  | fuel + 1, tree, rootIdx, rootFirst, rootLast, intervalFirst, intervalLast =>
    match tree[rootIdx]? with
    | none => .error .outOfBounds
    | some node =>
      if node.isBlocked then .ok tree
      else
        let tree := tree.set rootIdx ⟨true, false⟩
        if rootFirst = intervalFirst ∧ rootLast = intervalLast then .ok (tree.set rootIdx ⟨true, true⟩)
        else
          let nxtFirst := rootFirst + (rootLast - rootFirst) / 2
          if intervalLast ≤ nxtFirst then
            dispatchBlock fuel tree (rootIdx * 2 + 1) rootFirst nxtFirst intervalFirst intervalLast
          else if intervalFirst ≥ nxtFirst then
            dispatchBlock fuel tree (rootIdx * 2 + 2) nxtFirst rootLast intervalFirst intervalLast
          else do
            let tree ←
              dispatchBlock fuel tree (rootIdx * 2 + 1) rootFirst nxtFirst intervalFirst nxtFirst
            dispatchBlock fuel tree (rootIdx * 2 + 2) nxtFirst rootLast nxtFirst intervalLast

/-- The intervals that the visitor of `get_taint_region_vector` is called with. -/
def visitHelper (tree : List TreeNode) : Nat → (rootIdx rootFirst rootLast : Nat) →
    Except Fault (List Segment)
  | 0, _, _, _ => .error .outOfFuel
  | fuel + 1, rootIdx, rootFirst, rootLast =>
    match tree[rootIdx]? with
    | none => .error .outOfBounds
    | some node =>
      if ¬ node.isVisited then .ok []
      else if node.isBlocked then .ok [(rootFirst, rootLast - rootFirst)]
      else if rootFirst + 1 = rootLast then .ok []
      else do
        let nxtFirst := rootFirst + (rootLast - rootFirst) / 2
        let left ← visitHelper tree fuel (rootIdx * 2 + 1) rootFirst nxtFirst
        let right ← visitHelper tree fuel (rootIdx * 2 + 2) nxtFirst rootLast
        return left ++ right

variable (t : TaintIntervalTree)

def getTaintRegionVector : Except Fault (List Segment) := do
  return shrunkAdjecentInterval (← visitHelper t.intervalTree maxDepth 0 0 t.actualBaseSz)

def taint (interval : Segment) : Except Fault TaintIntervalTree := do
  let first := interval.1
  let last := sizeT (first + interval.2)
  if last > t.virtualBaseSz then
    throw (.invalidArgument "bad interval, out of bound access")
  if first = last then
    return t
  return { t with
    intervalTree := ← dispatchBlock maxDepth t.intervalTree 0 0 t.actualBaseSz first last }

def reset : TaintIntervalTree :=
  { t with intervalTree := t.intervalTree.map fun _ => ⟨false, false⟩ }

end TaintIntervalTree

open TaintIntervalTree

/-! ## Runs -/

inductive Op where
  | taint (interval : Segment)
  | reset

/-- The tree and the intervals accepted since the last `reset`. -/
structure World where
  tree : TaintIntervalTree
  accepted : List Segment

def World.step (w : World) : Op → Except Fault World
  | .taint interval =>
    match w.tree.taint interval with
    | .ok tree => .ok ⟨tree, w.accepted ++ [interval]⟩
    | .error (.invalidArgument _) => .ok w
    | .error fault => .error fault
  | .reset => .ok ⟨w.tree.reset, []⟩

/-- The pair does not wrap around to an end that passes the check. -/
def Sound (baseSz : Nat) (interval : Segment) : Prop :=
  interval.1 + interval.2 < 2 ^ 64 ∨ baseSz < sizeT (interval.1 + interval.2)

def Op.Sound (baseSz : Nat) : Op → Prop
  | .taint interval => MemorySync.Sound baseSz interval
  | .reset => True

/-! ## Shrinking -/

/-- The segments so far have gaps between them, and the last ends before the rest. -/
structure Gapped (s : List Segment × Option Segment) (rest : List Segment) : Prop where
  gaps : (s.1 ++ s.2.toList).Pairwise fun g g' => g.1 + g.2 < g'.1
  first : s.2 = none → s.1 = []
  before : ∀ a ∈ s.2, ∀ g ∈ rest, a.1 + a.2 ≤ g.1

variable {s : List Segment × Option Segment} {g : Segment} {l rest : List Segment}

theorem Gapped.next (h : Gapped s (g :: rest)) (hg : 0 < g.2) (hend : g.1 + g.2 < 2 ^ 64)
    (hrest : ∀ g' ∈ rest, g.1 + g.2 ≤ g'.1) : Gapped (joinNext s g) rest := by
  obtain ⟨result, _ | a⟩ := s
  · obtain rfl : result = [] := h.first rfl
    exact ⟨by simp [joinNext], by simp [joinNext], by simpa [joinNext] using hrest⟩
  have hle : a.1 + a.2 ≤ g.1 := h.before a rfl g List.mem_cons_self
  have hgaps := h.gaps
  simp only [Option.toList_some, List.pairwise_append, List.pairwise_singleton, List.mem_singleton,
    forall_eq, true_and] at hgaps
  simp only [joinNext, sizeT_of_lt hend, sizeT_of_lt (show a.1 + a.2 < 2 ^ 64 by omega)]
  by_cases htouch : a.1 + a.2 ≥ g.1
  · rw [if_pos htouch, if_pos (by omega), subT_of_le (by omega) hend]
    refine ⟨by simpa [List.pairwise_append] using hgaps, by simp, ?_⟩
    rintro b ⟨⟩ g' hg'
    have := hrest g' hg'
    omega
  · rw [if_neg htouch]
    refine ⟨?_, by simp, by simpa using hrest⟩
    simp only [Option.toList_some, List.append_assoc, List.pairwise_append]
    refine ⟨hgaps.1, by simp; omega, fun r hr b hb => ?_⟩
    have := hgaps.2 r hr
    rcases List.mem_cons.1 hb with rfl | hb
    · exact this
    · obtain rfl : b = g := by simpa using hb
      omega

/-- Positive segments in order, within `[a, b)`. -/
structure InOrder (l : List Segment) (a b : Nat) : Prop where
  pos : ∀ g ∈ l, 0 < g.2
  within : ∀ g ∈ l, a ≤ g.1 ∧ g.1 + g.2 ≤ b
  sorted : l.Pairwise fun g g' => g.1 + g.2 ≤ g'.1

theorem Gapped.foldl {a b : Nat} (h : Gapped s l) (hl : InOrder l a b) (hb : b < 2 ^ 64) :
    Gapped (l.foldl joinNext s) [] := by
  induction l generalizing s with
  | nil => exact h
  | cons g l ih =>
    obtain ⟨hpos, hwithin, hsorted⟩ := hl
    rw [List.forall_mem_cons] at hpos hwithin
    rw [List.pairwise_cons] at hsorted
    exact ih (h.next hpos.1 (by omega) hsorted.1) ⟨hpos.2, hwithin.2, hsorted.2⟩

theorem shrunk_ok {a b : Nat} (hl : InOrder l a b) (hb : b < 2 ^ 64) :
    points (shrunkAdjecentInterval l) = points l ∧
      (shrunkAdjecentInterval l).Pairwise fun g g' => g.1 + g.2 < g'.1 := by
  have hends : ∀ g ∈ l, g.1 + g.2 < 2 ^ 64 := fun g hg => (hl.within g hg).2.trans_lt hb
  have hfirst : l.Pairwise fun g g' => g.1 ≤ g'.1 := hl.sorted.imp fun h => by omega
  have h0 : Gapped ([], none) l := ⟨.nil, fun _ => rfl, by simp⟩
  exact ⟨(GroundActivator.GroundTree.joining_foldl (.nil _) hends hfirst).points,
    (h0.foldl hl hb).gaps⟩

/-! ## The tree -/

/-- What the flags of a node say about the tainted positions of its interval. -/
structure NodeHolds (node : TreeNode) (S : Set Nat) (a b : Nat) : Prop where
  blocked : node.isBlocked = true → node.isVisited = true ∧ ∀ x ∈ Set.Ico a b, x ∈ S
  unvisited : node.isVisited = false → ∀ x ∈ Set.Ico a b, x ∉ S

/-- The nodes from `idx` down hold the tainted positions of the interval from `a` of `2 ^ h`. -/
def Holds (tree : List TreeNode) (S : Set Nat) : Nat → Nat → Nat → Prop
  | 0, idx, a => ∃ node, tree[idx]? = some node ∧ NodeHolds node S a (a + 2 ^ 0) ∧
    (node.isBlocked = false → a ∉ S)
  | h + 1, idx, a => ∃ node, tree[idx]? = some node ∧ NodeHolds node S a (a + 2 ^ (h + 1)) ∧
    (node.isBlocked = false →
      Holds tree S h (child 2 idx 0) a ∧ Holds tree S h (child 2 idx 1) (a + 2 ^ h))

variable {tree tree' : List TreeNode} {S S' : Set Nat} {h idx a first last fuel : Nat}

theorem Holds.node (hh : Holds tree S h idx a) :
    ∃ node, tree[idx]? = some node ∧ NodeHolds node S a (a + 2 ^ h) := by
  cases h <;> obtain ⟨node, hget, hn, -⟩ := hh <;> exact ⟨node, hget, hn⟩

theorem Holds.of_blocked (hget : tree[idx]? = some ⟨true, true⟩)
    (hall : ∀ x ∈ Set.Ico a (a + 2 ^ h), x ∈ S) : Holds tree S h idx a := by
  cases h <;> exact ⟨_, hget, ⟨fun _ => ⟨rfl, hall⟩, by simp⟩, by simp⟩

variable {node : TreeNode}

theorem NodeHolds.congr {b : Nat} (hn : NodeHolds node S a b) (hS : ∀ x ∈ Set.Ico a b, x ∈ S ↔ x ∈ S') :
    NodeHolds node S' a b where
  blocked hb := ⟨(hn.blocked hb).1, fun x hx => (hS x hx).1 ((hn.blocked hb).2 x hx)⟩
  unvisited hv x hx := (hS x hx).not.1 (hn.unvisited hv x hx)

theorem Ico_left : Set.Ico a (a + 2 ^ h) ⊆ Set.Ico a (a + 2 ^ (h + 1)) :=
  Set.Ico_subset_Ico_right (by rw [pow_succ_half, ← Nat.add_assoc]; exact Nat.le_add_right ..)

theorem Ico_right : Set.Ico (a + 2 ^ h) (a + 2 ^ h + 2 ^ h) ⊆ Set.Ico a (a + 2 ^ (h + 1)) :=
  Set.Ico_subset_Ico (Nat.le_add_right ..) (by rw [pow_succ_half, Nat.add_assoc])

theorem Holds.congr (hh : Holds tree S h idx a) (he : ∀ k, Desc 2 idx k → tree'[k]? = tree[k]?)
    (hS : ∀ x ∈ Set.Ico a (a + 2 ^ h), x ∈ S ↔ x ∈ S') : Holds tree' S' h idx a := by
  induction h generalizing idx a with
  | zero =>
    obtain ⟨node, hget, hn, hleaf⟩ := hh
    exact ⟨node, (he _ .refl).trans hget, hn.congr hS, fun hb => (hS a (by simp)).not.1 (hleaf hb)⟩
  | succ h ih =>
    obtain ⟨node, hget, hn, hchildren⟩ := hh
    refine ⟨node, (he _ .refl).trans hget, hn.congr hS, fun hb => ⟨?_, ?_⟩⟩
    · exact ih (hchildren hb).1 (fun k hk => he k (hk.of_child (by decide)))
        fun x hx => hS x (Ico_left hx)
    · exact ih (hchildren hb).2 (fun k hk => he k (hk.of_child (by decide)))
        fun x hx => hS x (Ico_right hx)

theorem Holds.set_above {i : Nat} (hh : Holds tree S h (child 2 idx i) a) (hi : i < 2)
    (node' : TreeNode) : Holds (tree.set idx node') S h (child 2 idx i) a :=
  hh.congr (fun _ hk => set_above_eq hi node' hk) fun _ _ => Iff.rfl

theorem Holds.sibling {i j : Nat} (hh : Holds tree S h (child 2 idx j) a)
    (hb : Below 2 tree tree' (child 2 idx i)) (hi : i < 2) (hj : j < 2) (hji : j ≠ i)
    (hS : ∀ x ∈ Set.Ico a (a + 2 ^ h), x ∈ S ↔ x ∈ S') : Holds tree' S' h (child 2 idx j) a :=
  hh.congr (fun _ hk => hb.sibling_eq hi hj hji hk) hS

theorem Holds.join (hget : tree[idx]? = some ⟨true, false⟩) (hl : Holds tree S h (child 2 idx 0) a)
    (hr : Holds tree S h (child 2 idx 1) (a + 2 ^ h)) : Holds tree S (h + 1) idx a :=
  ⟨_, hget, ⟨by simp, by simp⟩, fun _ => ⟨hl, hr⟩⟩

/-- What a call for a part of the interval of a node achieves. -/
def Dispatched (tree : List TreeNode) (S : Set Nat) (h idx a first last : Nat)
    (r : Except Fault (List TreeNode)) : Prop :=
  ∃ tree', r = .ok tree' ∧ Below 2 tree tree' idx ∧ Holds tree' (S ∪ Set.Ico first last) h idx a

theorem dispatch_here (hh : Holds tree S h idx a) (hget : tree[idx]? = some node)
    (hdone : node.isBlocked = true ∨ a = first ∧ a + 2 ^ h = last)
    (hin : Set.Ico first last ⊆ Set.Ico a (a + 2 ^ h)) :
    Dispatched tree S h idx a first last
      (dispatchBlock (fuel + 1) tree idx a (a + 2 ^ h) first last) := by
  by_cases hb : node.isBlocked = true
  · obtain ⟨node', hget', hn⟩ := hh.node
    obtain rfl := Option.some.inj (hget'.symm.trans hget)
    refine ⟨tree, by simp [dispatchBlock, hget, hb], ⟨rfl, fun _ _ => rfl⟩, hh.congr (fun _ _ => rfl) ?_⟩
    exact fun x hx => by simp [(hn.blocked hb).2 x hx]
  · obtain ⟨rfl, rfl⟩ := hdone.resolve_left hb
    refine ⟨(tree.set idx ⟨true, false⟩).set idx ⟨true, true⟩, by simp [dispatchBlock, hget, hb],
      (Below.write ..).trans (.write ..), .of_blocked (getElem?_set_self_of_some (getElem?_set_self_of_some hget _) _) ?_⟩
    exact fun x hx => .inr hx

theorem dispatch_ok (hh : Holds tree S h idx a) (hfirst : a ≤ first) (hlt : first < last)
    (hlast : last ≤ a + 2 ^ h) (hfuel : h < fuel) :
    Dispatched tree S h idx a first last (dispatchBlock fuel tree idx a (a + 2 ^ h) first last) := by
  induction h generalizing fuel tree S idx a first last with
  | zero =>
    obtain ⟨fuel, rfl⟩ : ∃ n, fuel = n + 1 := ⟨fuel - 1, by omega⟩
    obtain ⟨node, hget, -⟩ := hh.node
    exact dispatch_here hh hget (.inr (by omega)) (Set.Ico_subset_Ico hfirst hlast)
  | succ h ih =>
    obtain ⟨fuel, rfl⟩ : ∃ n, fuel = n + 1 := ⟨fuel - 1, by omega⟩
    obtain ⟨node, hget, hn, hchildren⟩ := id hh
    by_cases hdone : node.isBlocked = true ∨ a = first ∧ a + 2 ^ (h + 1) = last
    · exact dispatch_here hh hget hdone (Set.Ico_subset_Ico hfirst hlast)
    obtain ⟨hb, hexact⟩ := not_or.1 hdone
    obtain ⟨hl, hr⟩ := hchildren (Bool.eq_false_iff.2 hb)
    have hfuel' : h < fuel := Nat.lt_of_succ_lt_succ hfuel
    have hpow := pow_succ_half h
    have hframe : Below 2 tree _ idx := .write tree idx ⟨true, false⟩
    have hget1 := getElem?_set_self_of_some hget ⟨true, false⟩
    replace hl := hl.set_above (by decide) ⟨true, false⟩
    replace hr := hr.set_above (by decide) ⟨true, false⟩
    have hend : a + 2 ^ (h + 1) = a + 2 ^ h + 2 ^ h := by omega
    simp only [dispatchBlock, hget, if_neg hb, if_neg hexact, half]
    generalize tree.set idx ⟨true, false⟩ = tree1 at *
    have keep : ∀ {first last x : Nat}, x ∉ Set.Ico first last → (x ∈ S ↔ x ∈ S ∪ Set.Ico first last) :=
      fun hx => by simp [hx]
    by_cases hleft : last ≤ a + 2 ^ h
    · rw [if_pos hleft]
      obtain ⟨tree', e, hf, hl'⟩ := ih hl hfirst hlt hleft hfuel'
      refine ⟨tree', e, hframe.trans (hf.of_child (by decide)), .join ?_ hl' ?_⟩
      · exact (hf.parent_eq (by decide)).trans hget1
      · refine hr.sibling hf (by decide) (by decide) (by decide) fun x hx => keep ?_
        simp only [Set.mem_Ico] at hx ⊢
        omega
    rw [if_neg hleft, hend]
    by_cases hright : first ≥ a + 2 ^ h
    · rw [if_pos hright]
      obtain ⟨tree', e, hf, hr'⟩ := ih hr hright hlt (by omega) hfuel'
      refine ⟨tree', e, hframe.trans (hf.of_child (by decide)), .join ?_ ?_ hr'⟩
      · exact (hf.parent_eq (by decide)).trans hget1
      · refine hl.sibling hf (by decide) (by decide) (by decide) fun x hx => keep ?_
        simp only [Set.mem_Ico] at hx ⊢
        omega
    rw [if_neg hright]
    obtain ⟨tree2, e2, hf2, hl2⟩ := ih hl hfirst (Nat.lt_of_not_le hright) (Nat.le_refl _) hfuel'
    have hr2 := hr.sibling hf2 (by decide) (show 1 < 2 by decide) (by decide) fun x _ => Iff.rfl
    obtain ⟨tree3, e3, hf3, hr3⟩ := ih hr2 (Nat.le_refl _) (Nat.lt_of_not_le hleft) (by omega) hfuel'
    refine ⟨tree3, by rw [show idx * 2 + 1 = child 2 idx 0 from rfl, e2]; exact e3,
      (hframe.trans (hf2.of_child (by decide))).trans (hf3.of_child (by decide)), .join ?_ ?_ ?_⟩
    · exact ((hf3.parent_eq (by decide)).trans
        (hf2.parent_eq (by decide))).trans hget1
    · refine hl2.sibling hf3 (by decide) (by decide) (by decide) fun x hx => ?_
      simp only [Set.mem_union, Set.mem_Ico] at hx ⊢
      refine or_congr_right ?_
      omega
    · refine hr3.congr (fun _ _ => rfl) fun x hx => ?_
      simp only [Set.mem_union, Set.mem_Ico] at hx ⊢
      refine or_congr_right ?_
      omega

theorem InOrder.append {l' : List Segment} {b c : Nat} (hl : InOrder l a b) (hl' : InOrder l' b c)
    (hab : a ≤ b) (hbc : b ≤ c) : InOrder (l ++ l') a c where
  pos := List.forall_mem_append.2 ⟨hl.pos, hl'.pos⟩
  within := List.forall_mem_append.2 ⟨fun g hg => ⟨(hl.within g hg).1, (hl.within g hg).2.trans hbc⟩,
    fun g hg => ⟨hab.trans (hl'.within g hg).1, (hl'.within g hg).2⟩⟩
  sorted := List.pairwise_append.2 ⟨hl.sorted, hl'.sorted, fun g hg g' hg' =>
    (hl.within g hg).2.trans (hl'.within g' hg').1⟩

/-- What a visit of a node gives. -/
def Visited (S : Set Nat) (h a : Nat) (r : Except Fault (List Segment)) : Prop :=
  ∃ l, r = .ok l ∧ InOrder l a (a + 2 ^ h) ∧ points l = S ∩ Set.Ico a (a + 2 ^ h)

theorem visited_nil (hno : ∀ x ∈ Set.Ico a (a + 2 ^ h), x ∉ S) : Visited S h a (.ok []) := by
  refine ⟨[], rfl, ⟨by simp, by simp, .nil⟩, ?_⟩
  rw [GroundActivator.GroundTree.points_nil]
  exact (Set.disjoint_iff_inter_eq_empty.1 (Set.disjoint_right.2 hno)).symm

theorem visit_here (hh : Holds tree S h idx a) (hget : tree[idx]? = some node)
    (hdone : node.isVisited = false ∨ node.isBlocked = true) :
    Visited S h a (visitHelper tree (fuel + 1) idx a (a + 2 ^ h)) := by
  obtain ⟨node', hget', hn⟩ := hh.node
  obtain rfl := Option.some.inj (hget'.symm.trans hget)
  by_cases hv : node'.isVisited = false
  · simpa [visitHelper, hget, hv] using visited_nil (hn.unvisited hv)
  · have hb := hdone.resolve_left hv
    refine ⟨[(a, 2 ^ h)], by simp [visitHelper, hget, hv, hb], ⟨by simp, by simp, by simp⟩, ?_⟩
    rw [GroundActivator.GroundTree.points_singleton, Set.inter_eq_right.2 (hn.blocked hb).2]
    rfl

/-- **`visit_helper` finds the tainted positions.** -/
theorem visit_ok (hh : Holds tree S h idx a) (hfuel : h < fuel) :
    Visited S h a (visitHelper tree fuel idx a (a + 2 ^ h)) := by
  induction h generalizing fuel idx a with
  | zero =>
    obtain ⟨fuel, rfl⟩ : ∃ n, fuel = n + 1 := ⟨fuel - 1, by omega⟩
    obtain ⟨node, hget, -, hleaf⟩ := id hh
    by_cases hdone : node.isVisited = false ∨ node.isBlocked = true
    · exact visit_here hh hget hdone
    obtain ⟨hv, hb⟩ := not_or.1 hdone
    simp only [visitHelper, hget, Bool.not_eq_false] at hv hb ⊢
    simp only [hv, hb, not_true_eq_false, if_false, Nat.pow_zero, if_true]
    refine visited_nil fun x hx => ?_
    obtain rfl : x = a := by simp only [Set.mem_Ico] at hx; omega
    exact hleaf (Bool.eq_false_iff.2 hb)
  | succ h ih =>
    obtain ⟨fuel, rfl⟩ : ∃ n, fuel = n + 1 := ⟨fuel - 1, by omega⟩
    obtain ⟨node, hget, -, hchildren⟩ := id hh
    by_cases hdone : node.isVisited = false ∨ node.isBlocked = true
    · exact visit_here hh hget hdone
    obtain ⟨hv, hb⟩ := not_or.1 hdone
    obtain ⟨hl, hr⟩ := hchildren (Bool.eq_false_iff.2 hb)
    have hfuel' : h < fuel := Nat.lt_of_succ_lt_succ hfuel
    have hpow := pow_succ_half h
    have hpos := Nat.two_pow_pos h
    have hend : a + 2 ^ (h + 1) = a + 2 ^ h + 2 ^ h := by omega
    obtain ⟨l, e, hin, hpoints⟩ := ih hl hfuel'
    obtain ⟨l', e', hin', hpoints'⟩ := ih hr hfuel'
    refine ⟨l ++ l', ?_, hend ▸ hin.append hin' (by omega) (by omega), ?_⟩
    · rw [Bool.not_eq_false] at hv
      simp only [visitHelper, hget, hv, hb, not_true_eq_false, if_false,
        if_neg (show ¬ a + 1 = a + 2 ^ (h + 1) by omega), half]
      rw [show idx * 2 + 1 = child 2 idx 0 from rfl, e, hend]
      simp only [ok_bind]
      rw [show idx * 2 + 2 = child 2 idx 1 from rfl, e']
      rfl
    · rw [GroundActivator.GroundTree.points_append, hpoints, hpoints', ← Set.inter_union_distrib_left,
        Set.Ico_union_Ico_eq_Ico (by omega) (by omega), hend]

/-! ## Runs of the tree -/

structure Taints (baseSz : Nat) (w : World) : Prop where
  virtual_eq : w.tree.virtualBaseSz = baseSz
  inside : ∀ g ∈ w.accepted, g.1 + g.2 ≤ baseSz
  tree : ∃ h, h < 62 ∧ baseSz ≤ 2 ^ h ∧ w.tree.actualBaseSz = 2 ^ h ∧
    lastIdx 2 h 0 < w.tree.intervalTree.length ∧ Holds w.tree.intervalTree (points w.accepted) h 0 0

variable {baseSz : Nat} {w : World} {t : TaintIntervalTree}

theorem holds_untainted (hlen : lastIdx 2 h idx < tree.length)
    (hall : ∀ node ∈ tree, node = ⟨false, false⟩) : Holds tree ∅ h idx a := by
  have hnode : ∀ {h idx : Nat}, lastIdx 2 h idx < tree.length → tree[idx]? = some ⟨false, false⟩ := by
    intro h idx hlen
    have hlt := (le_lastIdx (by decide) h idx).trans_lt hlen
    rw [List.getElem?_eq_getElem hlt, hall _ (List.getElem_mem hlt)]
  induction h generalizing idx a with
  | zero => exact ⟨_, hnode hlen, ⟨by simp, by simp⟩, by simp⟩
  | succ h ih =>
    refine ⟨_, hnode hlen, ⟨by simp, by simp⟩, fun _ => ⟨ih ?_, ih ?_⟩⟩
    all_goals exact (lastIdx_child_le h (by decide)).trans_lt hlen

theorem taints_make (e : make baseSz = .ok t) : Taints baseSz ⟨t, []⟩ := by
  obtain ⟨c, hc, e⟩ := bind_eq_ok e
  obtain ⟨tree, etree, e⟩ := bind_eq_ok e
  obtain rfl := Except.ok.inj e
  obtain ⟨h, h64, rfl⟩ := ceil2_pow hc
  simp only [makeIntervalTreeOfBaseSize] at etree
  split at etree
  · cases etree
  split at etree
  · cases etree
  rename_i hmax
  obtain rfl := Except.ok.inj etree
  have hsub : sizeT (2 ^ h * 2) ≤ 2 ^ 62 ∧ 0 < sizeT (2 ^ h * 2) := by
    have := Nat.mod_lt (2 ^ h * 2) (show 0 < 2 ^ 64 by decide)
    simp only [subT, sizeT, maxTreeSize] at hmax ⊢
    omega
  have h62 : h < 62 := by
    by_contra hge
    rcases (by omega : h = 62 ∨ h = 63) with rfl | rfl <;> exact absurd hsub (by decide)
  have hpow : 2 ^ h ≤ 2 ^ 61 := Nat.pow_le_pow_right (by decide) (Nat.le_of_lt_succ h62)
  have htree : subT (sizeT (2 ^ h * 2)) 1 = 2 ^ h * 2 - 1 := by
    have hlt : 2 ^ h * 2 < 2 ^ 64 := by omega
    rw [sizeT_of_lt hlt, subT_of_le (Nat.mul_pos (Nat.two_pow_pos h) two_pos) hlt]
  have hlen : lastIdx 2 h 0 < 2 ^ h * 2 - 1 := by
    have := lastIdx_closed (show 0 < 2 by decide) h 0
    omega
  rw [htree]
  refine ⟨rfl, by simp, h, h62, ceil2_le hc, rfl, by simpa using hlen, ?_⟩
  rw [GroundActivator.GroundTree.points_nil]
  exact holds_untainted (by simpa using hlen) fun node hnode => List.eq_of_mem_replicate hnode

theorem Taints.reset (ht : Taints baseSz w) : Taints baseSz ⟨w.tree.reset, []⟩ := by
  obtain ⟨h, hlt, hle, hsize, hlen, -⟩ := ht.tree
  refine ⟨ht.virtual_eq, by simp, h, hlt, hle, hsize, by simpa [TaintIntervalTree.reset] using hlen, ?_⟩
  rw [GroundActivator.GroundTree.points_nil]
  exact holds_untainted (by simpa [TaintIntervalTree.reset] using hlen) (by simp [TaintIntervalTree.reset])

theorem Taints.taint_ok (ht : Taints baseSz w) {interval : Segment} (hs : Sound baseSz interval) :
    (interval.1 + interval.2 ≤ baseSz ∧ ∃ tree, w.tree.taint interval = .ok tree ∧
      Taints baseSz ⟨tree, w.accepted ++ [interval]⟩) ∨
    (baseSz < interval.1 + interval.2 ∧
      w.tree.taint interval = .error (.invalidArgument "bad interval, out of bound access")) := by
  obtain ⟨h, hlt, hle, hsize, hlen, hh⟩ := ht.tree
  by_cases hbad : baseSz < sizeT (interval.1 + interval.2)
  · refine .inr ⟨hbad.trans_le (Nat.mod_le _ _), ?_⟩
    simp only [taint, ht.virtual_eq, gt_iff_lt, if_pos hbad]
    rfl
  have hsum := sizeT_of_lt (hs.resolve_right hbad)
  rw [hsum] at hbad
  have hpoints : points (w.accepted ++ [interval]) =
      points w.accepted ∪ Set.Ico interval.1 (interval.1 + interval.2) := by
    rw [GroundActivator.GroundTree.points_append, GroundActivator.GroundTree.points_singleton]
    rfl
  have hinside : ∀ g ∈ w.accepted ++ [interval], g.1 + g.2 ≤ baseSz :=
    List.forall_mem_append.2 ⟨ht.inside, by simpa using Nat.not_lt.1 hbad⟩
  refine .inl ⟨Nat.not_lt.1 hbad, ?_⟩
  simp only [taint, ht.virtual_eq, gt_iff_lt, hsum, if_neg hbad, hsize]
  by_cases h0 : interval.1 = interval.1 + interval.2
  · refine ⟨w.tree, by simp only [if_pos h0]; rfl, ht.virtual_eq, hinside, h, hlt, hle, hsize, hlen, ?_⟩
    rw [hpoints, ← h0, Set.Ico_self, Set.union_empty]
    exact hh
  · have hfuel : h < maxDepth := by unfold maxDepth; omega
    have hd := dispatch_ok hh (Nat.zero_le _) (show interval.1 < interval.1 + interval.2 by omega)
      (by omega) hfuel
    rw [Nat.zero_add] at hd
    obtain ⟨tree', e, hf, hh'⟩ := hd
    rw [← hpoints] at hh'
    refine ⟨⟨tree', 2 ^ h, baseSz⟩, ?_, rfl, hinside, h, hlt, hle, rfl, hf.length.symm ▸ hlen, hh'⟩
    simp only [if_neg h0, e]
    rfl

theorem Taints.step (ht : Taints baseSz w) {op : Op} (hop : op.Sound baseSz) {w' : World}
    (e : w.step op = .ok w') : Taints baseSz w' := by
  cases op with
  | taint interval =>
    rcases ht.taint_ok hop with ⟨-, tree, e', ht'⟩ | ⟨-, e'⟩ <;>
      simp only [World.step, e', Except.ok.injEq] at e <;> subst e
    · exact ht'
    · exact ht
  | reset =>
    obtain rfl := Except.ok.inj e
    exact ht.reset

/-- **In every run whose pairs do not wrap around into the tree, a pair outside is rejected, any other
one is accepted, and the regions are separate intervals of exactly the tainted positions.** -/
theorem taint_exact {hist : List Op}
    (hr : Run.Reach (fun w => ∃ t, make baseSz = .ok t ∧ w = ⟨t, []⟩)
      (fun w op w' => op.Sound baseSz ∧ w.step op = .ok w') w hist) :
    (∀ interval, Sound baseSz interval →
      if interval.1 + interval.2 ≤ baseSz then ∃ t, w.tree.taint interval = .ok t
      else w.tree.taint interval = .error (.invalidArgument "bad interval, out of bound access")) ∧
    ∃ l, w.tree.getTaintRegionVector = .ok l ∧ (l.Pairwise fun g g' => g.1 + g.2 < g'.1) ∧
      ∀ x, (∃ g ∈ l, g.1 ≤ x ∧ x < g.1 + g.2) ↔ ∃ g ∈ w.accepted, g.1 ≤ x ∧ x < g.1 + g.2 := by
  have ht : Taints baseSz w := by
    apply hr.inv fun w _ => Taints baseSz w
    · rintro w ⟨t, e, rfl⟩
      exact taints_make e
    · rintro w hist op w' ht ⟨hop, e⟩
      exact ht.step hop e
  refine ⟨fun interval hs => ?_, ?_⟩
  · rcases ht.taint_ok hs with ⟨hle, t, e, -⟩ | ⟨hlt, e⟩
    · rw [if_pos hle]
      exact ⟨t, e⟩
    · rw [if_neg (Nat.not_le.2 hlt)]
      exact e
  · obtain ⟨h, hlt, hle, hsize, -, hh⟩ := ht.tree
    obtain ⟨l, e, hin, hpoints⟩ := visit_ok hh (show h < maxDepth by unfold maxDepth; omega)
    rw [Nat.zero_add] at e hin hpoints
    have h62 : 2 ^ h ≤ 2 ^ 62 := Nat.pow_le_pow_right (by decide) hlt.le
    obtain ⟨hshrunk, hgaps⟩ := shrunk_ok hin (by omega)
    refine ⟨_, by rw [getTaintRegionVector, hsize, e]; rfl, hgaps, fun x => ?_⟩
    refine (Set.ext_iff.1 (hshrunk.trans hpoints) x).trans ⟨fun hx => hx.1, fun hx => ⟨hx, ?_⟩⟩
    obtain ⟨g, hg, hgx⟩ := hx
    have := ht.inside g hg
    exact ⟨Nat.zero_le _, by omega⟩

/-- Two neighbours become one region. -/
theorem taint_exact_eight : ∃ t, make 8 = .ok t ∧ ∃ w : World, w.tree.getTaintRegionVector = .ok [(1, 4)] ∧
    (∀ x, (∃ g ∈ [(1, 4)], g.1 ≤ x ∧ x < g.1 + g.2) ↔
      ∃ g ∈ w.accepted, g.1 ≤ x ∧ x < g.1 + g.2) ∧ w.accepted = [(1, 2), (3, 2)] := by
  have h0 : Run.Reach (fun w : World => ∃ t, make 8 = .ok t ∧ w = ⟨t, []⟩)
    (fun w (op : Op) w' => op.Sound 8 ∧ w.step op = .ok w') ⟨_, []⟩ [] := .init ⟨_, rfl, rfl⟩
  have h1 := h0.step (a := Op.taint (1, 2)) ⟨.inl (by decide), rfl⟩
  have h2 := h1.step (a := Op.taint (3, 2)) ⟨.inl (by decide), rfl⟩
  obtain ⟨-, l, e, -, hl⟩ := taint_exact h2
  obtain rfl : [(1, 4)] = l := Except.ok.inj e
  exact ⟨_, rfl, _, e, hl, rfl⟩

/-- The pair of 5 and `2 ^ 64 - 3` ends at 2 and leads out of the array. -/
theorem taint_wraps : ¬ ∀ t, make 8 = .ok t → ∀ interval : Segment, interval.1 < 2 ^ 64 →
    interval.2 < 2 ^ 64 → 8 < interval.1 + interval.2 →
    t.taint interval = .error (.invalidArgument "bad interval, out of bound access") := by
  intro hall
  have h := hall _ rfl (5, 2 ^ 64 - 3) (by decide) (by decide) (by decide)
  exact absurd h (by decide)

end MemorySync
