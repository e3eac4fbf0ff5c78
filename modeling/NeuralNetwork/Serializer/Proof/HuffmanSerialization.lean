import NeuralNetwork.Serializer.Proof.Frame
import NeuralNetwork.Serializer.Proof.HuffmanDecode

/-!
# Round trip of a serialised Huffman tree

`toModel_toSerializableModel`: the tree is made again from its header and words.
`ofSerializable_toSerializable`: these come back from the tuple of packed words that is written.
`deserialize_serialize` is the round trip of the stream, and `tree_roundTrip` says it of every tree.
-/

namespace HuffmanEncoder.Serialization

open Cpp Loop Serializer CompactSerializer CodeTree

/-! ## Header and words -/

/-- The header of a tree: its nodes in the order of a walk, inner ones `true`. -/
def treeHeader : Node → List Bool
  | .leaf _ => [false]
  | .node l r => true :: (treeHeader l ++ treeHeader r)

def treeWords : Node → List Word
  | .leaf c => [c]
  | .node l r => treeWords l ++ treeWords r

theorem toSerializableModelInto_eq (t : Node) (op : SerializableModel) :
    toSerializableModelInto t op = ⟨op.header ++ treeHeader t, op.cVec ++ treeWords t⟩ := by
  induction t generalizing op with
  | leaf c => rfl
  | node l r hl hr =>
    rw [toSerializableModelInto, hl, hr, treeHeader, treeWords]
    simp only [List.append_assoc, List.cons_append, List.nil_append]

theorem toSerializableModel_eq (t : Node) :
    toSerializableModel t = ⟨treeHeader t, treeWords t⟩ := by
  rw [toSerializableModel, toSerializableModelInto_eq]
  rfl

theorem getElem?_of_drop {α : Type} {l bs : List α} {i : Nat} {b : α} (h : l.drop i = b :: bs) :
    l[i]? = some b := by
  rw [← List.head?_drop, h]
  rfl

theorem drop_add_of_drop {α : Type} {l u v : List α} {i : Nat} (h : l.drop i = u ++ v) :
    l.drop (i + u.length) = v := by
  rw [← List.drop_drop, h, List.drop_left]

/-- **The recursion of `to_model`** reads one tree. -/
theorem toModelFrom_ok (model : SerializableModel) (t : Node) {fuel i j : Nat} {hs : List Bool}
    {ws : List Word} (hfuel : (treeHeader t).length ≤ fuel) (hh : model.header.drop i = treeHeader t ++ hs)
    (hw : model.cVec.drop j = treeWords t ++ ws) :
    toModelFrom model fuel i j = .ok (t, i + (treeHeader t).length, j + (treeWords t).length) := by
  induction t generalizing fuel i j hs ws with
  | leaf c =>
    cases fuel with
    | zero => cases hfuel
    | succ fuel =>
      rw [toModelFrom, getElem?_of_drop hh]
      rw [getElem?_of_drop hw]
      rfl
  | node l r hl hr =>
    rw [treeHeader, List.length_cons, List.length_append] at hfuel
    cases fuel with
    | zero => omega
    | succ fuel =>
      rw [treeHeader, List.cons_append, List.append_assoc] at hh
      rw [treeWords, List.append_assoc] at hw
      have hh1 : model.header.drop (i + 1) = treeHeader l ++ (treeHeader r ++ hs) := by
        rw [← List.drop_drop, hh]
        rfl
      have h1 : toModelFrom model fuel (i + 1) j =
        .ok (l, i + 1 + (treeHeader l).length, j + (treeWords l).length) := hl (by omega) hh1 hw
      have h2 : toModelFrom model fuel (i + 1 + (treeHeader l).length) (j + (treeWords l).length) =
        .ok (r, i + 1 + (treeHeader l).length + (treeHeader r).length,
          j + (treeWords l).length + (treeWords r).length) :=
        hr (by omega) (drop_add_of_drop hh1) (drop_add_of_drop hw)
      rw [toModelFrom, getElem?_of_drop hh]
      rw [h1, ok_bind]
      dsimp only
      rw [h2, ok_bind, treeHeader, treeWords, List.length_cons, List.length_append, List.length_append]
      refine congrArg (fun p => Except.ok (CodeTree.node l r, p)) (Prod.ext ?_ ?_)
      · dsimp only
        omega
      · dsimp only
        omega

/-- **A tree is made again from its header and words.** -/
theorem toModel_toSerializableModel (t : Node) : toModel (toSerializableModel t) = .ok t := by
  have hh : (treeHeader t).drop 0 = treeHeader t ++ [] := by simp
  have hw : (treeWords t).drop 0 = treeWords t ++ [] := by simp
  rw [toSerializableModel_eq, toModel,
    toModelFrom_ok ⟨treeHeader t, treeWords t⟩ t (Nat.le_succ _) hh hw]
  rfl

/-! ## Packed words -/

theorem getLsbD_packWord (header : List Bool) (slot n : Nat) (hn : n ≤ 32) (i : Nat) :
    ((List.range n).foldl (fun word offs => word |||
      (if header.getD (slot * wordBitSize + offs) false then 1#32 else 0#32) <<< offs) 0).getLsbD i =
      (decide (i < n) && header.getD (slot * wordBitSize + i) false) := by
  induction n with
  | zero => simp
  | succ n ih =>
    rw [List.range_succ, List.foldl_append, List.foldl_cons, List.foldl_nil, BitVec.getLsbD_or,
      ih (by omega), BitVec.getLsbD_shiftLeft]
    rcases Nat.lt_trichotomy i n with h | rfl | h
    · simp [h, Nat.lt_succ_of_lt h]
    · cases header.getD (slot * wordBitSize + i) false
      · simp
      · simp
        omega
    · have hone : (if header.getD (slot * wordBitSize + n) false then 1#32 else 0#32).getLsbD (i - n) =
          false := by
        split
        · rw [BitVec.getLsbD_one]
          simp
          omega
        · exact BitVec.getLsbD_zero
      rw [hone, Bool.and_false, Bool.or_false]
      simp [show ¬ i < n by omega, show ¬ i < n + 1 by omega]

theorem unpackWord_packWord {header : List Bool} {slot : Nat}
    (h : (slot + 1) * wordBitSize ≤ header.length) :
    unpackWord (packWord header slot) = (header.drop (slot * wordBitSize)).take wordBitSize := by
  rw [wordBitSize] at h
  refine List.ext_getElem? fun i => ?_
  rw [unpackWord, wordBitSize]
  by_cases hi : i < 32
  · have hbit : ((1#32 <<< i &&& packWord header slot) != 0) = header.getD (slot * 32 + i) false := by
      rw [BitVec.and_comm, and_toggle_ne_zero _ hi]
      exact (getLsbD_packWord header slot 32 (Nat.le_refl _) i).trans
        (by rw [decide_eq_true hi, Bool.true_and, wordBitSize])
    rw [List.getElem?_map, List.getElem?_range hi, Option.map_some, hbit, List.getElem?_take_of_lt hi,
      List.getElem?_drop, List.getD_eq_getElem?_getD, List.getElem?_eq_getElem (by omega)]
    rfl
  · rw [List.getElem?_eq_none (by simpa using hi), List.getElem?_eq_none (by simp; omega)]

theorem flatMap_unpackWord (header : List Bool) (n : Nat) (h : n * wordBitSize ≤ header.length) :
    ((List.range n).map (packWord header)).flatMap unpackWord = header.take (n * wordBitSize) := by
  induction n with
  | zero => rw [Nat.zero_mul, List.take_zero]; rfl
  | succ n ih =>
    have hle : n * wordBitSize ≤ header.length :=
      Nat.le_trans (Nat.mul_le_mul_right _ (Nat.le_succ n)) h
    rw [List.range_succ, List.map_append, List.flatMap_append, ih hle, Nat.succ_mul, List.take_add,
      ← unpackWord_packWord h]
    simp

theorem mapM_bitCastBool (bs : List Bool) :
    (bs.map fun c => if c then (1 : Byte) else 0).mapM bitCastBool = .ok bs := by
  induction bs with
  | nil => rfl
  | cons b bs ih =>
    rw [List.map_cons, List.mapM_cons, ih]
    cases b <;> rfl

theorem map_fst_unit (cs : List Word) : (cs.map fun c => (c, ())).map Prod.fst = cs := by
  rw [List.map_map]
  exact List.map_id cs

/-- **The model comes back from the tuple.** -/
theorem ofSerializable_toSerializable (model : SerializableModel) :
    ofSerializable (toSerializable model) = .ok model := by
  have hle : model.header.length / wordBitSize * wordBitSize ≤ model.header.length :=
    Nat.div_mul_le_self _ _
  unfold ofSerializable toSerializable
  rw [mapM_bitCastBool, ok_bind, flatMap_unpackWord _ _ hle, List.take_append_drop]
  exact congrArg (fun c => Except.ok (SerializableModel.mk model.header c)) (map_fst_unit model.cVec)

/-! ## The stream -/

variable {env : Env}

theorem wellFormed_toSerializable (env : Env) {model : SerializableModel} (hh : model.header.length < 2 ^ 64)
    (hc : model.cVec.length < 2 ^ 64) :
    WellFormed env modelTy (toSerializable model) ∧ HasValues modelTy (toSerializable model) := by
  have hwords : ((List.range (model.header.length / wordBitSize)).map
      (packWord model.header)).length * 4 < 2 ^ 64 := by
    rw [List.length_map, List.length_range, wordBitSize]
    omega
  have hrem : ((model.header.drop (model.header.length / wordBitSize * wordBitSize)).map
      fun c => if c then (1 : Byte) else 0).length * 1 < 2 ^ 64 := by
    rw [List.length_map, List.length_drop]
    omega
  have hcs : (model.cVec.map fun c => (c, ())).length < 2 ^ 64 := by rwa [List.length_map]
  exact ⟨⟨hwords, hrem, ⟨hcs, fun v _ => ⟨trivial, trivial⟩⟩, trivial⟩,
    trivial, trivial, fun v _ => ⟨trivial, trivial⟩, trivial⟩

theorem length_treeWords_le (t : Node) : (treeWords t).length ≤ (treeHeader t).length := by
  induction t with
  | leaf c => exact Nat.le_refl _
  | node l r hl hr =>
    rw [treeWords, treeHeader, List.length_append, List.length_cons, List.length_append]
    omega

/-- **Round trip of a serialised tree.** -/
theorem deserialize_serialize (hl : env.Lawful) (hm : ∀ n, env.alloc n = true) (t : Node)
    (ht : (treeHeader t).length < 2 ^ 64) :
    ∃ bs, serialize env t = .ok bs ∧ deserialize env bs = .ok t := by
  have hle := length_treeWords_le t
  have hh : (toSerializableModel t).header.length < 2 ^ 64 := by
    rw [toSerializableModel_eq]
    exact ht
  have hc : (toSerializableModel t).cVec.length < 2 ^ 64 := by
    rw [toSerializableModel_eq]
    exact Nat.lt_of_le_of_lt hle ht
  obtain ⟨hwf, hval⟩ := wellFormed_toSerializable env hh hc
  obtain ⟨bs, hser, hdes⟩ := integrityDeserialize_serialize hl hm hwf hval 0
  refine ⟨bs, hser, ?_⟩
  rw [deserialize, hdes, ok_bind, ofSerializable_toSerializable, ok_bind, toModel_toSerializableModel]
  rfl

def nodeCount : Node → Nat
  | .leaf _ => 1
  | .node l r => nodeCount l + nodeCount r + 1

theorem treeHeader_length (t : Node) : (treeHeader t).length = nodeCount t := by
  induction t with
  | leaf c => rfl
  | node l r hl hr => rw [treeHeader, List.length_cons, List.length_append, hl, hr, nodeCount]

/-- **A serialised tree is the same tree again**: every tree whose nodes a `size_t` can count comes
back from its stream, and the recursion consumes the header and the words to their ends. -/
theorem tree_roundTrip (hl : env.Lawful) (hm : ∀ n, env.alloc n = true) (t : Node)
    (ht : nodeCount t < 2 ^ 64) :
    (∃ bs, serialize env t = .ok bs ∧ deserialize env bs = .ok t) ∧
    toModelFrom (toSerializableModel t) (nodeCount t) 0 0 =
      .ok (t, (toSerializableModel t).header.length, (toSerializableModel t).cVec.length) := by
  rw [← treeHeader_length] at ht
  refine ⟨deserialize_serialize hl hm t ht, ?_⟩
  have hh : (treeHeader t).drop 0 = treeHeader t ++ [] := by simp
  have hw : (treeWords t).drop 0 = treeWords t ++ [] := by simp
  have hrun := toModelFrom_ok ⟨treeHeader t, treeWords t⟩ t (treeHeader_length t).le hh hw
  rw [toSerializableModel_eq, hrun, Nat.zero_add, Nat.zero_add]

/-- A tree of `2 * n + 1` nodes that goes down to the right. -/
def combTree : Nat → Node
  | 0 => .leaf 0
  | n + 1 => .node (.leaf (BitVec.ofNat 8 n)) (combTree n)

/-- 33 nodes, one more than a packing word has bits. -/
theorem tree_roundTrip_sample :
    (∃ bs, serialize intEnv (combTree 16) = .ok bs ∧ deserialize intEnv bs = .ok (combTree 16)) ∧
    nodeCount (combTree 16) = 33 :=
  ⟨(tree_roundTrip intEnv_lawful (fun _ => rfl) (combTree 16) (by decide)).1, by decide⟩

end HuffmanEncoder.Serialization
