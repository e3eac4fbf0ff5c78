import NeuralNetwork.Serializer.Proof.HuffmanEngine

/-!
# The length of a Huffman code

`merge_cost` bounds the weighted path length of the tree that `build` merges: a round takes two
nodes that are not heavier than the others on average. With `sum_div_le` a text has at most 17 bits a
byte and 64 for the delimiter (`size_words_le`), so it fits in the buffer of `encode`.
-/

namespace HuffmanEncoder

open Cpp Loop CodeTree

/-! ## Counting -/

theorem count_fold (inp : List Byte) (counter : List Nat) (hlen : counter.length = 256)
    (hlt : ∀ c : Byte, counter.getD c.toNat 0 + inp.length < 2 ^ 64) :
    (inp.foldl (fun counter numRep =>
        counter.set numRep.toNat (sizeT (counter.getD numRep.toNat 0 + 1))) counter).length = 256 ∧
      ∀ c : Byte, (inp.foldl (fun counter numRep =>
        counter.set numRep.toNat (sizeT (counter.getD numRep.toNat 0 + 1))) counter).getD c.toNat 0 =
          counter.getD c.toNat 0 + inp.count c := by
  induction inp generalizing counter with
  | nil => exact ⟨hlen, fun c => rfl⟩
  | cons b inp ih =>
    have hset (c : Byte) : (counter.set b.toNat (sizeT (counter.getD b.toNat 0 + 1))).getD c.toNat 0 =
        counter.getD c.toNat 0 + if b = c then 1 else 0 := by
      by_cases hc : b = c
      · subst hc
        have hb := hlt b
        have hb' : b.toNat < counter.length := by
          rw [hlen]
          exact b.isLt
        rw [List.length_cons] at hb
        rw [if_pos rfl, List.getD_eq_getElem?_getD, List.getElem?_set_self hb', sizeT_of_lt (by omega)]
        rfl
      · rw [if_neg hc, List.getD_eq_getElem?_getD,
          List.getElem?_set_ne fun e => hc (BitVec.eq_of_toNat_eq e), List.getD_eq_getElem?_getD]
        rfl
    obtain ⟨hlen', hget⟩ := ih (counter.set b.toNat (sizeT (counter.getD b.toNat 0 + 1)))
      (by rw [List.length_set, hlen]) fun c => by
        have := hlt c
        rw [List.length_cons] at this
        rw [hset]
        split <;> omega
    refine ⟨hlen', fun c => ?_⟩
    rw [List.foldl_cons, hget, hset, List.count_cons]
    simp only [beq_iff_eq]
    omega

variable {inp : List Byte} {counter clamped : List Nat}

theorem count_spec (h : inp.length < 2 ^ 64) :
    (Make.count inp).length = 256 ∧ ∀ c : Byte, (Make.count inp).getD c.toNat 0 = inp.count c := by
  have hzero (c : Byte) : (List.replicate dictSize 0).getD c.toNat 0 = 0 := by
    have hc : c.toNat < dictSize := c.isLt
    rw [List.getD_eq_getElem?_getD, List.getElem?_replicate_of_lt hc]
    rfl
  have hfold := count_fold inp (List.replicate dictSize 0) List.length_replicate fun c => by
    rw [hzero]
    omega
  unfold Make.count
  dsimp only
  rw [alphabetSize, Nat.div_one, List.take_length]
  exact ⟨hfold.1, fun c => by rw [hfold.2 c, hzero, Nat.zero_add]⟩

theorem sum_count (inp : List Byte) :
    ∑ i ∈ Finset.range 256, inp.count (BitVec.ofNat 8 i) = inp.length := by
  induction inp with
  | nil => simp
  | cons b inp ih =>
    have hone : ∑ i ∈ Finset.range 256, (if b = BitVec.ofNat 8 i then 1 else 0) = 1 := by
      rw [Finset.sum_eq_single b.toNat]
      · simp
      · intro i hi hne
        rw [if_neg]
        rintro rfl
        refine hne ?_
        rw [BitVec.toNat_ofNat, Nat.mod_eq_of_lt (by simpa using hi)]
      · intro hb
        exact absurd (Finset.mem_range.2 b.isLt) hb
    simp only [List.count_cons, beq_iff_eq, Finset.sum_add_distrib, ih, hone, List.length_cons]

/-! ## Merging -/

variable {std : Heap} {f : Word → Nat} {heap : List CounterNode} {root : CounterNode} {n k : Nat}

def modelWeight (f : Word → Nat) (cnode : CounterNode) : Nat := weight f (Make.toModel cnode)

def modelCost (f : Word → Nat) (cnode : CounterNode) : Nat := cost f (Make.toModel cnode)

def modelLeaves (cnode : CounterNode) : Nat := numLeaves (Make.toModel cnode)

theorem least_two {heap rest : List CounterNode} {first second : CounterNode}
    (hperm : heap.Perm (first :: second :: rest)) (hfirst : ∀ y ∈ heap, first.count ≤ y.count)
    (hsecond : ∀ y ∈ second :: rest, second.count ≤ y.count) :
    (heap.length - 1) * (first.count + second.count) ≤ 2 * (heap.map CounterNode.count).sum := by
  have hsum := (hperm.map CounterNode.count).sum_eq
  have h1 := List.card_nsmul_le_sum (heap.map CounterNode.count) first.count fun x hx => by
    obtain ⟨y, hy, rfl⟩ := List.mem_map.1 hx
    exact hfirst y hy
  have h2 := List.card_nsmul_le_sum ((second :: rest).map CounterNode.count) second.count fun x hx => by
    obtain ⟨y, hy, rfl⟩ := List.mem_map.1 hx
    exact hsecond y hy
  have hlen := hperm.length_eq
  simp only [List.map_cons, List.sum_cons, List.length_map, List.length_cons, nsmul_eq_mul,
    Nat.cast_id] at h1 h2 hsum hlen
  rw [hlen] at h1 ⊢
  rw [Nat.add_sub_cancel, Nat.mul_add]
  have h3 : (rest.length + 1) * first.count ≤ (rest.length + 1 + 1) * first.count :=
    Nat.mul_le_mul_right _ (Nat.le_succ _)
  omega

theorem merge_cost_single (hsum : ([root].map (modelWeight f)).sum = n) : modelWeight f root = n ∧
    modelLeaves root = ([root].map modelLeaves).sum ∧ modelCost f root ≤
      ([root].map (modelCost f)).sum + ∑ j ∈ Finset.range [root].length, 2 * n / j := by
  simpa using hsum

/-- **Merging**: weights and leaves are added up, and a round over `k + 1` nodes of total weight `n`
makes the cost larger by at most `2 n / k`. -/
theorem merge_cost (h : Make.merge std k heap = .ok root) (hheap : std.IsHeap heap)
    (hcount : ∀ x ∈ heap, x.count = modelWeight f x) (hsum : (heap.map (modelWeight f)).sum = n)
    (hn : n < 2 ^ 64) :
    modelWeight f root = n ∧ modelLeaves root = (heap.map modelLeaves).sum ∧
      modelCost f root ≤ (heap.map (modelCost f)).sum + ∑ j ∈ Finset.range heap.length, 2 * n / j := by
  induction k generalizing heap with
  | zero =>
    unfold Make.merge at h
    split at h
    · obtain rfl := Except.ok.inj h
      exact merge_cost_single hsum
    · cases h
    · rename_i heq _
      cases heq
  | succ k ih =>
    rcases merge_cases h with rfl | ⟨first, second, rest, hperm, hleast, hnext⟩
    · exact merge_cost_single hsum
    · obtain ⟨hfirst, hsecond, hheap'⟩ := hleast hheap
      have hcounts : (heap.map CounterNode.count).sum = n := by
        rw [← hsum, List.map_congr_left hcount]
      have hround := least_two hperm hfirst hsecond
      have hw := (hperm.map (modelWeight f)).sum_eq
      have hc := (hperm.map (modelCost f)).sum_eq
      have hl := (hperm.map modelLeaves).sum_eq
      have hlen := hperm.length_eq
      have efirst := hcount first (hperm.mem_iff.2 (by simp))
      have esecond := hcount second (hperm.mem_iff.2 (by simp))
      simp only [List.map_cons, List.sum_cons, List.length_cons] at hw hc hl hlen
      rw [hcounts, hlen, Nat.add_sub_cancel, efirst, esecond, Nat.mul_comm] at hround
      have hround : modelWeight f first + modelWeight f second ≤ 2 * n / (rest.length + 1) :=
        (Nat.le_div_iff_mul_le (Nat.succ_pos _)).2 hround
      have hpush := (std.pushHeap_perm (rest ++ [merged first second])).trans
        (List.perm_append_singleton (merged first second) rest)
      have hmerged : (merged first second).count = modelWeight f (merged first second) := by
        rw [merged, CounterNode.count, efirst, esecond, sizeT_of_lt (by omega)]
        rfl
      have hwm : modelWeight f (merged first second) = modelWeight f first + modelWeight f second := rfl
      have hcm : modelCost f (merged first second) = modelCost f first + modelCost f second +
        (modelWeight f first + modelWeight f second) := rfl
      have hlm : modelLeaves (merged first second) = modelLeaves first + modelLeaves second := rfl
      have hw' := (hpush.map (modelWeight f)).sum_eq
      have hc' := (hpush.map (modelCost f)).sum_eq
      have hl' := (hpush.map modelLeaves).sum_eq
      simp only [List.map_cons, List.sum_cons] at hw' hc' hl'
      obtain ⟨hn', hleaves, hcost⟩ := ih hnext hheap' (fun x hx => by
        rcases List.mem_cons.1 (hpush.mem_iff.1 hx) with rfl | hx
        · exact hmerged
        · exact hcount x (hperm.mem_iff.2 (by simp [hx]))) (by omega)
      rw [hpush.length_eq, List.length_cons] at hcost
      rw [hlen, Finset.sum_range_succ]
      refine ⟨hn', by omega, by omega⟩

theorem sum_div_le (m b : Nat) : ∑ j ∈ Finset.range (2 ^ b), m / j ≤ b * m := by
  induction b with
  | zero => simp
  | succ b ih =>
    have hblock : ∑ i ∈ Finset.range (2 ^ b), m / (2 ^ b + i) ≤ m := by
      calc ∑ i ∈ Finset.range (2 ^ b), m / (2 ^ b + i)
          ≤ ∑ _i ∈ Finset.range (2 ^ b), m / 2 ^ b := Finset.sum_le_sum fun i _ =>
            Nat.div_le_div_left (Nat.le_add_right _ _) (Nat.two_pow_pos b)
        _ = 2 ^ b * (m / 2 ^ b) := by rw [Finset.sum_const, Finset.card_range, Nat.nsmul_eq_mul]
        _ ≤ m := Nat.mul_div_le _ _
    rw [Nat.pow_succ, Nat.mul_two, Finset.sum_range_add, Nat.succ_mul]
    exact Nat.add_le_add ih hblock

/-! ## The tree of a counter -/

theorem leaves_spec (counter : List Nat) (is : List Nat) (h : ∀ i ∈ is, i < 256) :
    let cnodes := is.filterMap (Make.leafOf counter)
    (∀ x ∈ cnodes, x.count = modelWeight (fun c => counter.getD c.toNat 0) x) ∧
      (cnodes.map (modelWeight fun c => counter.getD c.toNat 0)).sum =
        (is.map fun i => counter.getD i 0).sum ∧
      (cnodes.map (modelCost fun c => counter.getD c.toNat 0)).sum = 0 ∧
      (cnodes.map modelLeaves).sum ≤ is.length ∧ cnodes.length ≤ is.length := by
  induction is with
  | nil => simp
  | cons i is ih =>
    obtain ⟨hcount, hsum, hcost, hleaves, hlen⟩ := ih fun i hi => h i (List.mem_cons_of_mem _ hi)
    by_cases hz : counter.getD i 0 = 0
    · rw [List.filterMap_cons_none (show Make.leafOf counter i = none from if_pos hz),
        List.map_cons, List.sum_cons, hz, Nat.zero_add, List.length_cons]
      exact ⟨hcount, hsum, hcost, by omega, by omega⟩
    · have hw : modelWeight (fun c => counter.getD c.toNat 0)
          (CounterNode.leaf (counter.getD i 0) (BitVec.ofNat 8 i)) = counter.getD i 0 := by
        change counter.getD (BitVec.ofNat 8 i).toNat 0 = _
        rw [BitVec.toNat_ofNat, Nat.mod_eq_of_lt (h i List.mem_cons_self)]
      have hleaf : Make.leafOf counter i =
        some (CounterNode.leaf (counter.getD i 0) (BitVec.ofNat 8 i)) := if_neg hz
      rw [List.filterMap_cons_some hleaf]
      simp only [List.map_cons, List.sum_cons, List.length_cons]
      refine ⟨fun x hx => ?_, by rw [hw, hsum], by rw [hcost]; rfl, ?_, by omega⟩
      · rcases List.mem_cons.1 hx with rfl | hx
        · exact hw.symm
        · exact hcount x hx
      · have : modelLeaves (CounterNode.leaf (counter.getD i 0) (BitVec.ofNat 8 i)) = 1 := rfl
        omega

/-- **The tree of a counter**: at most 256 leaves, and on average 16 bits for a byte. -/
theorem build_cost {tree : Node} (h : build std counter = .ok tree)
    (hclamp : Make.clamp counter = .ok clamped) (hn : ∑ i ∈ Finset.range 256, clamped.getD i 0 < 2 ^ 64) :
    numLeaves tree ≤ 256 ∧ cost (fun c => clamped.getD c.toNat 0) tree ≤
      16 * ∑ i ∈ Finset.range 256, clamped.getD i 0 ∧
      weight (fun c => clamped.getD c.toNat 0) tree = ∑ i ∈ Finset.range 256, clamped.getD i 0 := by
  unfold build at h
  rw [hclamp, ok_bind] at h
  obtain ⟨root, hroot, h⟩ := bind_eq_ok h
  obtain rfl := Except.ok.inj h
  unfold Make.build at hroot
  split at hroot
  · cases hroot
  · obtain ⟨hcount, hsum, hcost, hleaves, hlen⟩ := leaves_spec clamped (List.range dictSize)
      fun i hi => List.mem_range.1 hi
    have hperm := std.makeHeap_perm (Make.leaves clamped)
    obtain ⟨hw, hl, hc⟩ := merge_cost (f := fun c => clamped.getD c.toNat 0) hroot
      (std.makeHeap_isHeap _) (fun x hx => hcount x (hperm.mem_iff.1 hx))
      ((hperm.map _).sum_eq.trans hsum) hn
    have hl' := (hperm.map modelLeaves).sum_eq
    have hc' := (hperm.map (modelCost fun c => clamped.getD c.toNat 0)).sum_eq
    have hsub : ∑ j ∈ Finset.range (std.makeHeap (Make.leaves clamped)).length,
        2 * (∑ i ∈ Finset.range 256, clamped.getD i 0) / j ≤
          8 * (2 * ∑ i ∈ Finset.range 256, clamped.getD i 0) := by
      refine (Finset.sum_le_sum_of_subset (Finset.range_mono ?_)).trans (sum_div_le _ 8)
      rw [hperm.length_eq]
      exact hlen.trans (by rw [List.length_range]; decide)
    rw [List.length_range] at hleaves
    refine ⟨?_, ?_, hw⟩
    · exact (hl.trans hl').le.trans hleaves
    · refine (hc.trans (Nat.add_le_add_right ((hc'.trans hcost).le) _)).trans ?_
      rw [Nat.zero_add]
      refine hsub.trans ?_
      omega

/-! ## The length of an encoded text -/

/-- The weight of a leaf of the tree with the delimiter, which has none itself. -/
def delimWeight (f : Word → Nat) (w : DelimWord) : Nat := if w.delimStat = 0 then f w.c else 0

theorem toDelimTree_cost (f : Word → Nat) (tree : Node) :
    cost (delimWeight f) (Make.toDelimTree tree) ≤ cost f tree + weight f tree := by
  obtain ⟨path, w, hw, htree⟩ := toDelimTree_eq tree
  have hsplit : weight (delimWeight f) (Make.splitLeaf 0 w) = delimWeight f w := rfl
  have hcost : cost (delimWeight f) (Make.splitLeaf 0 w) = delimWeight f w := by
    change 0 + 0 + (delimWeight f w + 0) = _
    omega
  have hmap : cost (delimWeight f) (Make.toDelimModel tree) = cost f tree ∧
    weight (delimWeight f) (Make.toDelimModel tree) = weight f tree := cost_map
  have hle := (sum_le_cost (f := delimWeight f) {w} (fun _ => path)
    (by simpa using hw)).1
  rw [Finset.sum_singleton, hmap.2] at hle
  rw [htree, (cost_graft hw hsplit).1, hmap.1, hcost]
  omega

theorem sum_getD_count (h : inp.length < 2 ^ 64) :
    ∑ i ∈ Finset.range 256, (Make.count inp).getD i 0 = inp.length := by
  rw [← sum_count]
  refine Finset.sum_congr rfl fun i hi => ?_
  have hget := (count_spec h).2 (BitVec.ofNat 8 i)
  rwa [BitVec.toNat_ofNat, Nat.mod_eq_of_lt (Finset.mem_range.1 hi)] at hget

theorem clamp_count (h : inp.length < 2 ^ 64) :
    ∃ clamped, Make.clamp (Make.count inp) = .ok clamped ∧
      (inp ≠ [] → clamped = Make.count inp) ∧
      ∑ i ∈ Finset.range 256, clamped.getD i 0 < 2 ^ 64 := by
  cases inp with
  | nil =>
    have hsum : ∑ i ∈ Finset.range 256, (1 :: List.replicate 255 0).getD i 0 = 1 := by
      rw [Finset.sum_eq_single 0 (fun i _ hi => ?_) (fun h => absurd (Finset.mem_range.2 (by decide)) h)]
      · rfl
      · obtain ⟨i, rfl⟩ := Nat.exists_eq_succ_of_ne_zero hi
        rw [List.getD_cons_succ, List.getD_eq_getElem?_getD, List.getElem?_replicate]
        split <;> rfl
    exact ⟨1 :: List.replicate 255 0, clamp_empty, fun h => absurd rfl h, by rw [hsum]; decide⟩
  | cons b inp =>
    obtain ⟨hlen, hget⟩ := count_spec h
    unfold Make.clamp
    rw [if_neg (by rw [hlen]; decide)]
    have hany : (Make.count (b :: inp)).any (· != 0) = true := by
      have hlt : b.toNat < (Make.count (b :: inp)).length := by
        rw [hlen]
        exact b.isLt
      have hb := hget b
      rw [List.getD_eq_getElem?_getD, List.getElem?_eq_getElem hlt, Option.getD_some,
        List.count_cons_self] at hb
      refine List.any_eq_true.2 ⟨_, List.getElem_mem hlt, ?_⟩
      rw [hb]
      rfl
    refine ⟨_, if_pos hany, fun _ => rfl, ?_⟩
    rw [sum_getD_count h]
    exact h

theorem build_total (std : Heap) (h : Make.clamp counter = .ok clamped) {i : Nat} (hi : i < 256)
    (hpos : clamped.getD i 0 ≠ 0) (hlen : clamped.length = 256) :
    ∃ tree, build std counter = .ok tree := by
  have hmem : CounterNode.leaf (clamped.getD i 0) (BitVec.ofNat 8 i) ∈ Make.leaves clamped :=
    List.mem_filterMap.2 ⟨i, List.mem_range.2 hi, if_neg hpos⟩
  have hperm := std.makeHeap_perm (Make.leaves clamped)
  obtain ⟨root, hroot⟩ := merge_total (std.makeHeap (Make.leaves clamped)).length
    (List.ne_nil_of_mem (hperm.mem_iff.2 hmem)) (Nat.le_succ _)
  refine ⟨Make.toModel root, ?_⟩
  unfold build Make.build
  rw [h, ok_bind]
  rw [if_neg (by rw [hlen]; decide), hroot, ok_bind]
  rfl

theorem build_count (std : Heap) (h : inp.length < 2 ^ 64) :
    ∃ tree, build std (Make.count inp) = .ok tree := by
  obtain ⟨hlen, hget⟩ := count_spec h
  obtain ⟨clamped, hclamp, hcount, -⟩ := clamp_count h
  cases inp with
  | nil =>
    have hlen : (1 :: List.replicate 255 0).length = 256 := by
      rw [List.length_cons, List.length_replicate]
    exact build_total std clamp_empty (by decide : 0 < 256) (by decide) hlen
  | cons b inp =>
    rw [hcount (List.cons_ne_nil _ _)] at hclamp
    refine build_total std hclamp b.isLt ?_ hlen
    rw [hget, List.count_cons_self]
    exact Nat.succ_ne_zero _

variable {engine : FastEngine} {tree : Node} {inp : List Byte}

/-- **The length of the code of a text** that was counted for its own tree. -/
theorem size_words_le (hlen : inp.length < 2 ^ 64) (hb : build std (Make.count inp) = .ok tree)
    (hs : spawnFastEngine tree = .ok engine) :
    ((engine.words inp).map BitArray.size).sum ≤ 17 * inp.length + 64 := by
  have hok := engineOk_of_spawn hs
  have hdelim := hok.delim_clean.size_le
  obtain ⟨clamped, hclamp, hcount, hsum⟩ := clamp_count hlen
  rw [FastEngine.words, List.map_append, List.sum_append, List.map_map, List.map_singleton,
    List.sum_singleton]
  by_cases hnil : inp = []
  · subst hnil
    change 0 + _ ≤ _
    omega
  · obtain ⟨-, hcost, hweight⟩ := build_cost hb hclamp hsum
    rw [hcount hnil, sum_getD_count hlen] at hcost hweight
    have hget := (count_spec hlen).2
    have htext : (inp.map (BitArray.size ∘ engine.bitRep)).sum ≤
        cost (delimWeight fun c => (Make.count inp).getD c.toNat 0) engine.delimTree := by
      have hle := (sum_le_cost (f := delimWeight fun c => (Make.count inp).getD c.toNat 0)
        (t := engine.delimTree) (inp.toFinset.map ⟨fun c => (⟨c, 0⟩ : DelimWord), fun c c' e => by
          cases e; rfl⟩) (fun w => (engine.bitRep w.c).bits) fun w hw => by
            obtain ⟨c, hc, rfl⟩ := Finset.mem_map.1 hw
            refine hok.word c (build_hasLeaf hb ?_)
            rw [hget]
            exact (List.count_pos_iff.2 (List.mem_toFinset.1 hc)).ne').2
      rw [Finset.sum_map] at hle
      rw [Finset.sum_list_map_count]
      refine le_of_eq_of_le (Finset.sum_congr rfl fun c _ => ?_) hle
      change inp.count c • (engine.bitRep c).size = (if (0 : Byte) = 0 then _ else 0) * _
      rw [if_pos rfl]
      change _ = (Make.count inp).getD c.toNat 0 * (engine.bitRep c).bits.length
      rw [hget, BitArray.length_bits, Nat.nsmul_eq_mul]
    rw [hok.delimTree] at htext
    have htree := toDelimTree_cost (fun c => (Make.count inp).getD c.toNat 0) tree
    omega

end HuffmanEncoder
