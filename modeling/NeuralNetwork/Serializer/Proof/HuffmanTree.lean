import NeuralNetwork.Serializer.Proof.HuffmanDecode

/-!
# The trees and the dictionaries of a Huffman engine

`build_hasLeaf`: every byte that is counted has a leaf in the tree of `build`. `toDelimTree_spec`:
the tree with the delimiter has all leaves of the old one. `follow_encodeDictionarize` and
`follow_findDelim`: the words that the traversals record are paths to leaves. The outermost call of a
traversal pops from an empty trace (`trace_underflows`).
-/

namespace HuffmanEncoder

open Cpp Loop CodeTree Make

/-! ## build -/

variable {heap : List CounterNode} {std : Heap} {c : Byte} {root : CounterNode} {counter : List Nat}

theorem mem_leaves (h : counter.getD c.toNat 0 ≠ 0) :
    CounterNode.leaf (counter.getD c.toNat 0) c ∈ Make.leaves counter := by
  refine List.mem_filterMap.2 ⟨c.toNat, List.mem_range.2 c.isLt, ?_⟩
  rw [leafOf, if_neg h, BitVec.ofNat_toNat, BitVec.setWidth_eq]

def merged (first second : CounterNode) : CounterNode :=
  .node (sizeT (first.count + second.count)) first second

/-- **One round** of `build` takes the two least nodes. -/
theorem merge_cases {n : Nat} (h : merge std (n + 1) heap = .ok root) :
    heap = [root] ∨ ∃ first second rest, heap.Perm (first :: second :: rest) ∧
      (std.IsHeap heap → (∀ y ∈ heap, first.count ≤ y.count) ∧
        (∀ y ∈ second :: rest, second.count ≤ y.count) ∧
        std.IsHeap (std.pushHeap (rest ++ [merged first second]))) ∧
      merge std n (std.pushHeap (rest ++ [merged first second])) = .ok root := by
  unfold merge at h
  split at h
  · exact .inl (by rw [Except.ok.inj h])
  · rename_i heq _
    cases heq
  · rename_i heap _ _ _ heq _
    obtain rfl := Nat.succ.inj heq
    dsimp only at h
    cases h1 : (std.popHeap heap).getLast? with
    | none =>
      rw [h1] at h
      cases h
    | some first =>
      rw [h1] at h
      cases h2 : (std.popHeap (std.popHeap heap).dropLast).getLast? with
      | none =>
        rw [h2] at h
        cases h
      | some second =>
        rw [h2] at h
        obtain ⟨init1, e1⟩ := List.getLast?_eq_some_iff.1 h1
        have hd1 : (std.popHeap heap).dropLast = init1 := by rw [e1, List.dropLast_concat]
        rw [hd1] at h h2
        obtain ⟨rest, e2⟩ := List.getLast?_eq_some_iff.1 h2
        have hd2 : (std.popHeap init1).dropLast = rest := by rw [e2, List.dropLast_concat]
        rw [hd2] at h
        have p2 : init1.Perm (second :: rest) := by
          refine (std.popHeap_perm init1).symm.trans ?_
          rw [e2]
          exact List.perm_append_singleton second rest
        have p1 : heap.Perm (first :: second :: rest) := by
          refine (std.popHeap_perm heap).symm.trans ?_
          rw [e1]
          exact (List.perm_append_singleton first init1).trans (p2.cons first)
        refine .inr ⟨first, second, rest, p1, fun hheap => ?_, h⟩
        have hinit := std.popHeap_isHeap heap hheap
        rw [hd1] at hinit
        have hrest := std.popHeap_isHeap init1 hinit
        rw [hd2] at hrest
        refine ⟨std.popHeap_least heap first hheap h1, fun y hy => ?_, std.pushHeap_isHeap rest _ hrest⟩
        exact std.popHeap_least init1 second hinit h2 y (p2.mem_iff.2 hy)

theorem merge_total (n : Nat) (hne : heap ≠ []) (hn : heap.length ≤ n + 1) :
    ∃ root, merge std n heap = .ok root := by
  induction n generalizing heap with
  | zero =>
    obtain ⟨root, rfl⟩ := List.length_eq_one_iff.1
      (Nat.le_antisymm hn (List.length_pos_iff.2 hne))
    exact ⟨root, rfl⟩
  | succ n ih =>
    unfold merge
    split
    · exact ⟨_, rfl⟩
    · rename_i heq _
      cases heq
    · rename_i heap _ _ m heq hone
      obtain rfl := Nat.succ.inj heq
      have hlen1 := (std.popHeap_perm heap).length_eq
      obtain ⟨init, first, e1⟩ := List.eq_nil_or_concat' (std.popHeap heap) |>.resolve_left fun h => hne
        (List.length_eq_zero_iff.1 (by rw [← hlen1, h]; rfl))
      have hlen2 := (std.popHeap_perm init).length_eq
      rw [e1, List.length_append, List.length_singleton] at hlen1
      obtain ⟨rest, second, e2⟩ := List.eq_nil_or_concat' (std.popHeap init) |>.resolve_left fun h => by
        rw [h] at hlen2
        obtain ⟨root, rfl⟩ := List.length_eq_one_iff.1 (show heap.length = 1 by
          rw [← hlen1, ← hlen2]
          rfl)
        exact hone root rfl
      rw [e2, List.length_append, List.length_singleton] at hlen2
      dsimp only
      rw [e1, List.getLast?_concat, List.dropLast_concat]
      rw [e2, List.getLast?_concat, List.dropLast_concat]
      have hpush := (std.pushHeap_perm (rest ++ [merged first second])).length_eq
      rw [List.length_append, List.length_singleton] at hpush
      refine ih (List.ne_nil_of_length_pos ?_) ?_
      · exact hpush ▸ Nat.succ_pos _
      · exact hpush.le.trans (by omega)

/-- A leaf of one of the trees in a heap is a leaf of the tree that they are merged to. -/
theorem merge_hasLeaf {n : Nat} {c : Word} (h : merge std n heap = .ok root)
    (hc : ∃ cnode ∈ heap, (Make.toModel cnode).HasLeaf c) : (Make.toModel root).HasLeaf c := by
  have hone (hc : ∃ cnode ∈ [root], (Make.toModel cnode).HasLeaf c) :
      (Make.toModel root).HasLeaf c := by simpa using hc
  induction n generalizing heap with
  | zero =>
    unfold merge at h
    split at h
    · obtain rfl := Except.ok.inj h
      exact hone hc
    · cases h
    · rename_i heq _
      cases heq
  | succ n ih =>
    rcases merge_cases h with rfl | ⟨first, second, rest, hperm, -, hnext⟩
    · exact hone hc
    · refine ih hnext ?_
      have hmerged (h : (Make.toModel first).HasLeaf c ∨ (Make.toModel second).HasLeaf c) :
          (Make.toModel (merged first second)).HasLeaf c := hasLeaf_node.2 h
      obtain ⟨cnode, hmem, hleaf⟩ := hc
      rcases List.mem_cons.1 (hperm.mem_iff.1 hmem) with rfl | hmem
      · exact ⟨_, (std.pushHeap_perm _).mem_iff.2 (by simp), hmerged (.inl hleaf)⟩
      · rcases List.mem_cons.1 hmem with rfl | hmem
        · exact ⟨_, (std.pushHeap_perm _).mem_iff.2 (by simp), hmerged (.inr hleaf)⟩
        · exact ⟨cnode, (std.pushHeap_perm _).mem_iff.2 (by simp [hmem]), hleaf⟩

/-- **Every byte that is counted** has a leaf. -/
theorem build_hasLeaf {tree : Node} (h : build std counter = .ok tree) (hc : counter.getD c.toNat 0 ≠ 0) :
    tree.HasLeaf c := by
  obtain ⟨clamped, hclamp, h⟩ := bind_eq_ok h
  obtain ⟨root, hroot, h⟩ := bind_eq_ok h
  obtain rfl := Except.ok.inj h
  have hclamped : clamped.getD c.toNat 0 ≠ 0 := by
    unfold Make.clamp at hclamp
    dsimp only at hclamp
    split at hclamp
    · cases hclamp
    · split at hclamp
      · obtain rfl := Except.ok.inj hclamp
        exact hc
      · rename_i hany
        refine absurd (List.any_eq_true.2 ⟨counter.getD c.toNat 0, ?_, by simpa using hc⟩) hany
        have hlt : c.toNat < counter.length := by
          by_contra hle
          rw [List.getD_eq_getElem?_getD, List.getElem?_eq_none (by omega)] at hc
          exact hc rfl
        rw [List.getD_eq_getElem?_getD, List.getElem?_eq_getElem hlt]
        exact List.getElem_mem hlt
  unfold Make.build at hroot
  split at hroot
  · cases hroot
  · exact merge_hasLeaf hroot ⟨_, (std.makeHeap_perm _).mem_iff.2 (mem_leaves hclamped),
      hasLeaf_leaf.2 rfl⟩

/-! ## The tree with the delimiter -/

theorem follow_findMaxPathToLeaf (t : DelimNode) (depth : Nat) :
    ∃ w, t.follow (findMaxPathToLeaf t depth).1 = some (.leaf w) := by
  induction t generalizing depth with
  | leaf w => exact ⟨w, rfl⟩
  | node l r hl hr =>
    unfold findMaxPathToLeaf
    dsimp only
    split
    · exact hl (depth + 1)
    · exact hr (depth + 1)

def delimWord : DelimWord := ⟨0, 1⟩

theorem toDelimTree_eq (tree : Node) : ∃ path w,
    (toDelimModel tree).follow path = some (.leaf w) ∧
      toDelimTree tree = graft (splitLeaf 0 w) (toDelimModel tree) path := by
  obtain ⟨w, hw⟩ := follow_findMaxPathToLeaf (toDelimModel tree) 0
  refine ⟨_, w, hw, ?_⟩
  unfold toDelimTree
  simp only [alphabetSize, List.range_one, List.foldl_cons, List.foldl_nil, hw]

/-- **The tree of an engine** has the leaves of the old tree and that of the delimiter. -/
theorem toDelimTree_spec (tree : Node) :
    (∀ w, toDelimTree tree ≠ .leaf w) ∧
      (∀ c, tree.HasLeaf c → (toDelimTree tree).HasLeaf ⟨c, 0⟩) ∧
      (toDelimTree tree).HasLeaf delimWord ∧
      ∀ w, (toDelimTree tree).HasLeaf w → w.delimStat = 0 ∨ w = delimWord := by
  obtain ⟨path, w, hw, htree⟩ := toDelimTree_eq tree
  have hsplit (w' : DelimWord) : (splitLeaf 0 w).HasLeaf w' ↔ w = w' ∨ delimWord = w' := by
    rw [splitLeaf, hasLeaf_node, hasLeaf_leaf, hasLeaf_leaf]
    rfl
  have hold (w' : DelimWord) (h : (toDelimModel tree).HasLeaf w') : w'.delimStat = 0 := by
    obtain ⟨c, -, rfl⟩ := h.of_map
    rfl
  rw [htree]
  refine ⟨graft_ne_leaf (fun a => by simp [splitLeaf]) hw, fun c hc => ?_, ?_, fun w' h => ?_⟩
  · rcases hasLeaf_graft (u := splitLeaf 0 w)
      (hc.map fun c => (⟨c, 0⟩ : DelimWord)) hw with h | h
    · exact hasLeaf_grafted ((hsplit _).2 (.inl h)) hw
    · exact h
  · exact hasLeaf_grafted ((hsplit _).2 (.inr rfl)) hw
  · rcases hasLeaf_of_graft h with h | h
    · exact .inl (hold w' h)
    · rcases (hsplit w').1 h with rfl | rfl
      · exact .inl (hold w ⟨path, hw⟩)
      · exact .inr rfl

theorem noTrailing_toDelimTree (tree : Node) : NoTrailing (toDelimTree tree) := by
  intro path w h
  rcases (toDelimTree_spec tree).2.2.2 w ⟨path, h⟩ with h | rfl
  · rw [h]
    decide
  · decide

/-! ## The dictionaries -/

/-- **What a traversal records**: the trace is one shorter, and an entry is either the old one or the
path to a leaf that is recorded there. -/
theorem traverse_spec (slot : DelimWord → Option Nat) (t : DelimNode) (op : List (List Bool))
    (trace : Make.Trace) :
    (Make.traverse slot t op trace).1.length = op.length ∧
      (Make.traverse slot t op trace).2.bits = trace.bits.dropLast ∧
      ∀ i < op.length, ((Make.traverse slot t op trace).1.getD i [] = op.getD i [] ∧
          ∀ w, t.HasLeaf w → slot w ≠ some i) ∨
        ∃ path w, t.follow path = some (.leaf w) ∧ slot w = some i ∧
          (Make.traverse slot t op trace).1.getD i [] = trace.bits ++ path := by
  induction t generalizing op trace with
  | leaf w =>
    unfold Make.traverse
    cases hslot : slot w with
    | none =>
      refine ⟨rfl, rfl, fun i _ => .inl ⟨rfl, fun w' hw' => ?_⟩⟩
      rw [← hasLeaf_leaf.1 hw', hslot]
      exact nofun
    | some k =>
      refine ⟨List.length_set, rfl, fun i hi => ?_⟩
      by_cases hk : k = i
      · subst hk
        refine .inr ⟨[], w, by simp, hslot, ?_⟩
        rw [List.append_nil, List.getD_eq_getElem?_getD, List.getElem?_set_self hi]
        rfl
      · refine .inl ⟨?_, fun w' hw' => ?_⟩
        · rw [List.getD_eq_getElem?_getD, List.getElem?_set_ne hk, List.getD_eq_getElem?_getD]
        · rw [← hasLeaf_leaf.1 hw', hslot]
          simpa using hk
  | node l r hl hr =>
    obtain ⟨len1, tr1, rec1⟩ := hl op (trace.pushBack L)
    unfold Make.traverse
    generalize Make.traverse slot l op (trace.pushBack L) = p1 at len1 tr1 rec1
    obtain ⟨op1, trace1⟩ := p1
    dsimp only at len1 tr1 rec1 ⊢
    obtain ⟨len2, tr2, rec2⟩ := hr op1 (trace1.pushBack R)
    generalize Make.traverse slot r op1 (trace1.pushBack R) = p2 at len2 tr2 rec2
    obtain ⟨op2, trace2⟩ := p2
    have e1 : trace1.bits = trace.bits := by simpa [Make.Trace.pushBack] using tr1
    have e2 : trace2.bits = trace.bits := by simpa [Make.Trace.pushBack, e1] using tr2
    refine ⟨len2.trans len1, by rw [Make.Trace.popBack, e2], fun i hi => ?_⟩
    rcases rec2 i (by omega) with ⟨h2, hno2⟩ | ⟨path, w, hpath, hw, h2⟩
    · rcases rec1 i hi with ⟨h1, hno1⟩ | ⟨path, w, hpath, hw, h1⟩
      · refine .inl ⟨h2.trans h1, fun w hleaf => ?_⟩
        exact (hasLeaf_node.1 hleaf).elim (hno1 w) (hno2 w)
      · refine .inr ⟨L :: path, w, hpath, hw, ?_⟩
        rw [h2, h1, Make.Trace.pushBack, List.append_assoc]
        rfl
    · refine .inr ⟨R :: path, w, hpath, hw, ?_⟩
      rw [h2, Make.Trace.pushBack, e1, List.append_assoc]
      rfl

theorem follow_encodeDictionarize {t : DelimNode} (h : t.HasLeaf ⟨c, 0⟩) :
    t.follow ((encodeDictionarize t).getD c.toNat []) = some (.leaf ⟨c, 0⟩) := by
  obtain ⟨-, -, hrec⟩ := traverse_spec wordSlot t (List.replicate dictSize []) ⟨[], false⟩
  have hlt : c.toNat < (List.replicate dictSize ([] : List Bool)).length := by
    rw [List.length_replicate]
    exact c.isLt
  rcases hrec c.toNat hlt with ⟨-, hno⟩ | ⟨path, w, hpath, hw, hget⟩
  · exact absurd rfl (hno _ h)
  · rw [encodeDictionarize, hget, List.nil_append, hpath]
    unfold wordSlot at hw
    split at hw
    · rename_i hstat
      have hc : w.c = c := BitVec.eq_of_toNat_eq (Option.some.inj hw)
      rw [← hc, ← hstat]
    · cases hw

theorem follow_findDelim (tree : Node) :
    (toDelimTree tree).follow ((findDelim (toDelimTree tree)).getD 0 []) =
      some (.leaf delimWord) := by
  obtain ⟨-, -, hdelim, hstat⟩ := toDelimTree_spec tree
  obtain ⟨-, -, hrec⟩ := traverse_spec delimSlot (toDelimTree tree)
    (List.replicate alphabetSize []) ⟨[], false⟩
  rcases hrec 0 (by decide) with ⟨-, hno⟩ | ⟨path, w, hpath, hw, hget⟩
  · exact absurd rfl (hno _ hdelim)
  · rw [findDelim, hget, List.nil_append, hpath]
    rcases hstat w ⟨path, hpath⟩ with h | rfl
    · rw [delimSlot, if_neg (by simpa using h)] at hw
      cases hw
    · rfl

/-! ## The trace -/

/-- A traversal pops one element more than it pushes. -/
theorem traverse_underflow (slot : DelimWord → Option Nat) (t : DelimNode) (op : List (List Bool))
    (trace : Make.Trace) :
    (Make.traverse slot t op trace).2.underflow = (trace.underflow || trace.bits.isEmpty) := by
  induction t generalizing op trace with
  | leaf w => rfl
  | node l r hl hr =>
    have hbits (t : DelimNode) (op : List (List Bool)) (b : Bool) (trace : Make.Trace) :
        (Make.traverse slot t op (trace.pushBack b)).2.bits = trace.bits := by
      rw [(traverse_spec slot t op _).2.1]
      simp [Make.Trace.pushBack]
    have hfull (trace : Make.Trace) (b : Bool) : (trace.pushBack b).bits.isEmpty = false := by
      simp [Make.Trace.pushBack]
    have hkeep (trace : Make.Trace) (b : Bool) : (trace.pushBack b).underflow = trace.underflow := rfl
    unfold Make.traverse
    dsimp only [Make.Trace.popBack]
    rw [hbits, hr, hkeep, hfull, hbits, hl, hkeep, hfull, Bool.or_false, Bool.or_false]

/-- The entry of a slot that one leaf has is the path to it. -/
theorem traverse_path {slot : DelimWord → Option Nat} {t : DelimNode} {n i : Nat} {path : List Bool}
    {w : DelimWord} (hpath : t.follow path = some (.leaf w)) (hw : slot w = some i) (hi : i < n)
    (hone : ∀ path' w', t.follow path' = some (.leaf w') → slot w' = some i → path' = path) :
    (Make.traverse slot t (List.replicate n []) ⟨[], false⟩).1.getD i [] = path := by
  obtain ⟨-, -, hrec⟩ := traverse_spec slot t (List.replicate n []) ⟨[], false⟩
  rcases hrec i (by rwa [List.length_replicate]) with ⟨-, hno⟩ | ⟨path', w', hpath', hw', hget⟩
  · exact absurd hw (hno w ⟨path, hpath⟩)
  · rw [hget, hone path' w' hpath' hw']
    rfl

/-- **The outermost call of `encode_dictionarize` and of `find_delim` pops from an empty trace**, for
every tree, and no other call does. What is recorded of a leaf, if no other one is recorded in its place,
is the path to it. -/
theorem trace_underflows (root : DelimNode) :
    (∀ slot op, (Make.traverse slot root op ⟨[], false⟩).2.underflow = true ∧
      ∀ b bits, (Make.traverse slot root op ⟨b :: bits, false⟩).2.underflow = false) ∧
    (∀ path w, root.follow path = some (.leaf w) → w.delimStat = 0 →
      (∀ path' w', root.follow path' = some (.leaf w') → wordSlot w' = wordSlot w → path' = path) →
      (encodeDictionarize root).getD w.c.toNat [] = path) ∧
    ∀ path w, root.follow path = some (.leaf w) → w.delimStat ≠ 0 → w.delimStat.toNat ≤ alphabetSize →
      (∀ path' w', root.follow path' = some (.leaf w') → delimSlot w' = delimSlot w → path' = path) →
      (findDelim root).getD (w.delimStat.toNat - 1) [] = path := by
  refine ⟨fun slot op => ⟨traverse_underflow .., fun b bits => traverse_underflow ..⟩,
    fun path w hpath hstat hone => ?_, fun path w hpath hstat hle hone => ?_⟩
  · have hw : wordSlot w = some w.c.toNat := if_pos hstat
    exact traverse_path hpath hw w.c.isLt (hw ▸ hone)
  · have hw : delimSlot w = some (w.delimStat.toNat - 1) := if_pos hstat
    have hpos : w.delimStat.toNat ≠ 0 := fun h => hstat (BitVec.eq_of_toNat_eq h)
    exact traverse_path hpath hw (by omega) (hw ▸ hone)

theorem trace_underflows_two : (encodeDictionarize (.node (.leaf ⟨3, 0⟩) (.leaf ⟨5, 0⟩))).getD 5 [] = [R] := by
  refine (trace_underflows _).2.1 [R] ⟨5, 0⟩ rfl rfl fun path' w' hpath hw => ?_
  match path', hpath with
  | [false], h =>
    cases h
    cases hw
  | [true], _ => rfl

theorem trace_underflows_leaf :
    (Make.traverse wordSlot (.leaf ⟨0, 0⟩) (List.replicate dictSize []) ⟨[], false⟩).2.underflow = true := rfl

end HuffmanEncoder
