import NeuralNetwork.Serializer.Proof.HuffmanBits
import NeuralNetwork.Serializer.Proof.HuffmanTree

/-!
# Huffman engines

`engineOk_of_spawn` says what `spawn_fast_engine` makes of a tree. From it follow that the fast
decoder of an engine agrees with the plain one and that the columns of a row
come back from its encoding (`row_roundTrip_iff`), exactly if no code word fills a whole container
from its begin on.
-/

namespace HuffmanEncoder

open Cpp LittleEndian Loop ByteBits CodeTree Make
open StdHeap (sorted)
open BitArray (clean_empty toBitArray)

variable {engine : FastEngine} {tree : Node} {inp out : List Byte}

/-! ## What an engine consists of -/

def FastEngine.delimRep (engine : FastEngine) : BitArray := engine.delim.getD 0 ⟨0, 0⟩

/-- An engine of a tree: its dictionaries are those of the tree with the delimiter. -/
structure EngineOk (tree : Node) (engine : FastEngine) : Prop where
  delimTree : engine.delimTree = toDelimTree tree
  dict : DictOk engine
  clean : ∀ c, (engine.bitRep c).Clean
  word : ∀ c, tree.HasLeaf c → engine.delimTree.follow (engine.bitRep c).bits = some (.leaf ⟨c, 0⟩)
  delim_clean : engine.delimRep.Clean
  delim : engine.delimTree.follow engine.delimRep.bits = some (.leaf delimWord)

theorem toBitArray_getD {vecs : List (List Bool)} {bs : List BitArray}
    (h : vecs.mapM toBitArray = .ok bs) (i : Nat) :
    (bs.getD i ⟨0, 0⟩).Clean ∧ (bs.getD i ⟨0, 0⟩).bits = vecs.getD i [] := by
  have hall := forall₂_of_mapM h
  rw [List.getD_eq_getElem?_getD, List.getD_eq_getElem?_getD]
  by_cases hi : i < vecs.length
  · have hi' : i < bs.length := by rwa [← hall.length_eq]
    rw [List.getElem?_eq_getElem hi, List.getElem?_eq_getElem hi']
    exact BitArray.toBitArray_ok ((List.forall₂_iff_get.1 hall).2 i hi hi')
  · have hi' : bs.length ≤ i := by
      rw [← hall.length_eq]
      omega
    rw [List.getElem?_eq_none hi', List.getElem?_eq_none (by omega)]
    exact ⟨clean_empty, rfl⟩

theorem engineOk_of_spawn (h : spawnFastEngine tree = .ok engine) : EngineOk tree engine := by
  obtain ⟨dict, hdict, h⟩ := bind_eq_ok h
  obtain ⟨ed, hed, h⟩ := bind_eq_ok h
  obtain ⟨dl, hdl, h⟩ := bind_eq_ok h
  obtain rfl := Except.ok.inj h
  obtain ⟨-, hleaf, -, -⟩ := toDelimTree_spec tree
  refine ⟨rfl, hdict, fun c => (toBitArray_getD hed c.toNat).1, fun c hc => ?_,
    (toBitArray_getD hdl 0).1, ?_⟩
  · rw [FastEngine.bitRep, (toBitArray_getD hed c.toNat).2]
    exact follow_encodeDictionarize (hleaf c hc)
  · rw [FastEngine.delimRep, (toBitArray_getD hdl 0).2]
    exact follow_findDelim tree

theorem EngineOk.noTrailing (h : EngineOk tree engine) : NoTrailing engine.delimTree := by
  rw [h.delimTree]
  exact noTrailing_toDelimTree tree

def FastEngine.words (engine : FastEngine) (inp : List Byte) : List BitArray :=
  inp.map engine.bitRep ++ [engine.delimRep]

theorem EngineOk.words_clean (h : EngineOk tree engine) : ∀ w ∈ engine.words inp, w.Clean := by
  intro w hw
  rcases List.mem_append.1 hw with hw | hw
  · obtain ⟨c, -, rfl⟩ := List.mem_map.1 hw
    exact h.clean c
  · rw [List.mem_singleton.1 hw]
    exact h.delim_clean

/-! ## Fast decoding -/

/-- **Fast decoding agrees with plain decoding**, and reads no byte outside the buffer, if the last
bit is one of the buffer. -/
theorem fastDecodeInto_eq_decodeInto {bitOffs bitLast e : Nat} (h : spawnFastEngine tree = .ok engine)
    (hlast : bitLast ≤ 8 * inp.length) (hplain : engine.decodeInto inp bitOffs = .ok (e, out)) :
    engine.fastDecodeInto inp bitOffs bitLast = .ok (e, out) := by
  have hok := engineOk_of_spawn h
  obtain ⟨as, rest, hdec, rfl, rfl⟩ := (decodeInto_iff hok.noTrailing).1 hplain
  exact fastDecodeInto_ok hok.noTrailing hok.dict hlast hdec

def Make.indexedLeaves (counter : List Nat) : List CounterNode :=
  counter.zipIdx.filterMap fun x => if x.1 = 0 then none else some (.leaf x.1 (BitVec.ofNat 8 x.2))

variable {counter : List Nat} {more : List Bool}

theorem Make.leaves_eq (h : counter.length = dictSize) :
    Make.leaves counter = indexedLeaves counter := by
  have hzip : counter.zipIdx = (List.range dictSize).map fun i => (counter.getD i 0, i) := by
    refine List.ext_getElem (by simp [h]) fun i h1 h2 => ?_
    have hi : i < counter.length := by simpa using h1
    simp [hi]
  unfold Make.leaves indexedLeaves
  rw [hzip, List.filterMap_map]
  rfl

theorem build_eq {std : Heap} {counter clamped : List Nat} (h : Make.clamp counter = .ok clamped)
    (hlen : clamped.length = dictSize) :
    build std counter =
      (merge std (std.makeHeap (indexedLeaves clamped)).length
        (std.makeHeap (indexedLeaves clamped)) >>= fun root => pure (Make.toModel root)) := by
  unfold build Make.build
  rw [h, ok_bind]
  rw [if_neg (not_not.2 hlen), leaves_eq hlen]

theorem walkFrom_ok (trace : List Bool) : ∀ (l r l' r' : DelimNode) (n : Nat),
    ∃ res, walkFrom (.node l r) n (.node l' r') trace = .ok res := by
  induction trace with
  | nil => exact fun _ _ _ _ n => ⟨([], n), rfl⟩
  | cons cur trace ih =>
    intro l r l' r' n
    rw [walkFrom, show Make.child (.node l' r') cur = .ok (if cur = L then l' else r') from rfl,
      ok_bind]
    cases (if cur = L then l' else r') with
    | node l1 r1 => exact ih l r l1 r1 n
    | leaf w =>
      dsimp only
      split
      · exact ⟨_, rfl⟩
      · obtain ⟨res, hres⟩ := ih l r l r trace.length
        rw [hres, ok_bind]
        split
        · exact ⟨_, rfl⟩
        · exact ⟨_, rfl⟩

theorem exists_mapM {α β ε : Type} {f : α → Except ε β} {xs : List α}
    (h : ∀ x ∈ xs, ∃ y, f x = .ok y) : ∃ ys, xs.mapM f = .ok ys := by
  induction xs with
  | nil => exact ⟨[], rfl⟩
  | cons x xs ih =>
    obtain ⟨y, hy⟩ := h x List.mem_cons_self
    obtain ⟨ys, hys⟩ := ih fun x hx => h x (List.mem_cons_of_mem _ hx)
    exact ⟨y :: ys, by rw [List.mapM_cons, hy, ok_bind, hys]; rfl⟩

theorem decodeDictionarize_ok {root : DelimNode} (h : ∀ w, root ≠ .leaf w) :
    ∃ dict, decodeDictionarize root = .ok dict := by
  cases root with
  | leaf w => exact absurd rfl (h w)
  | node l r => exact exists_mapM fun i _ => walkFrom_ok _ l r l r _

/-! ### The engine of a text in which no byte occurs -/

theorem indexedLeaves_ones (n : Nat) :
    indexedLeaves (1 :: List.replicate n 0) = [.leaf 1 0] := by
  have hnil : ((List.replicate n 0).zipIdx 1).filterMap (fun x => if x.1 = 0 then none else
      some (CounterNode.leaf x.1 (BitVec.ofNat 8 x.2))) = [] := by
    refine List.filterMap_eq_nil_iff.2 fun x hx => if_pos ?_
    exact List.eq_of_mem_replicate (List.fst_mem_of_mem_zipIdx hx)
  unfold indexedLeaves
  rw [List.zipIdx_cons]
  exact congrArg (List.cons (CounterNode.leaf 1 0)) hnil

theorem clamp_ones : Make.clamp (1 :: List.replicate 255 0) = .ok (1 :: List.replicate 255 0) := by
  have hlen : (1 :: List.replicate 255 0).length = dictSize := by
    rw [List.length_cons, List.length_replicate]
    rfl
  have hany : (1 :: List.replicate 255 0).any (· != 0) = true := rfl
  unfold Make.clamp
  rw [if_neg (not_not.2 hlen), if_pos hany]
  rfl

theorem clamp_empty : Make.clamp (Make.count []) = .ok (1 :: List.replicate 255 0) := by
  have hcount : Make.count [] = List.replicate 256 0 := rfl
  have hlen : (List.replicate 256 0).length = dictSize := List.length_replicate
  have hany : ¬ (List.replicate 256 0).any (· != 0) = true := by
    rw [List.any_replicate]
    decide
  unfold Make.clamp
  rw [hcount, if_neg (not_not.2 hlen), if_neg hany]
  rfl

theorem build_of_clamp (h : Make.clamp counter = .ok (1 :: List.replicate 255 0)) :
    build (sorted _) counter = .ok (.leaf 0) := by
  have hlen : (1 :: List.replicate 255 0).length = dictSize := by
    rw [List.length_cons, List.length_replicate]
    rfl
  rw [build_eq h hlen, indexedLeaves_ones]
  rfl

def emptyEngine : Res FastEngine :=
  build (sorted _) (Make.count []) >>= spawnFastEngine

theorem emptyEngine_ok : ∃ tree engine, build (sorted _) (Make.count []) = .ok tree ∧
    spawnFastEngine tree = .ok engine ∧ emptyEngine = .ok engine ∧
    engine.delimTree = .node (.leaf ⟨0, 0⟩) (.leaf ⟨0, 1⟩) ∧
    (engine.bitRep 0).size = 1 ∧ engine.delimRep.size = 1 := by
  have hdict : encodeDictionarize (toDelimTree (.leaf 0)) =
      [false] :: List.replicate 255 [] := rfl
  obtain ⟨dict, edict⟩ := decodeDictionarize_ok (toDelimTree_spec (.leaf 0)).1
  obtain ⟨ed, eed⟩ : ∃ ed, (encodeDictionarize (toDelimTree (.leaf 0))).mapM
      toBitArray = .ok ed := by
    refine exists_mapM fun vec hvec => ?_
    rw [hdict] at hvec
    rcases List.mem_cons.1 hvec with rfl | hvec
    · exact ⟨_, rfl⟩
    · rw [List.eq_of_mem_replicate hvec]
      exact ⟨_, rfl⟩
  have hspawn : spawnFastEngine (.leaf 0) =
      .ok ⟨ed, [⟨1, 1⟩], .node (.leaf ⟨0, 0⟩) (.leaf ⟨0, 1⟩), dict⟩ := by
    unfold spawnFastEngine
    dsimp only
    rw [edict, ok_bind, eed, ok_bind]
    rfl
  have hbuild := build_of_clamp clamp_empty
  refine ⟨_, _, hbuild, hspawn, ?_, rfl, ?_, rfl⟩
  · unfold emptyEngine
    rw [hbuild, ok_bind, hspawn]
  · have hbits := (toBitArray_getD eed 0).2
    rw [hdict] at hbits
    exact BitArray.length_bits.symm.trans (congrArg List.length hbits)

theorem decodeInto_congr (engine' : FastEngine) (h : engine.delimTree = engine'.delimTree)
    (inp : List Byte) (bitOffs : Nat) :
    engine.decodeInto inp bitOffs = engine'.decodeInto inp bitOffs := by
  obtain ⟨ed, dl, tree, dict⟩ := engine
  obtain ⟨ed', dl', tree', dict'⟩ := engine'
  obtain rfl : tree = tree' := h
  rfl

theorem fastDecodeInto_eq_sample : ∃ tree engine, spawnFastEngine tree = .ok engine ∧
    engine.fastDecodeInto (List.replicate 15 0 ++ [2]) 0 128 = .ok (122, List.replicate 121 0) := by
  obtain ⟨tree, engine, -, hs, -, htree, -⟩ := emptyEngine_ok
  refine ⟨tree, engine, hs, fastDecodeInto_eq_decodeInto hs (by decide) ?_⟩
  rw [decodeInto_congr ⟨[], [], .node (.leaf ⟨0, 0⟩) (.leaf ⟨0, 1⟩), []⟩ htree]
  decide +kernel

/-- With a last bit behind the buffer the fast decoder reads outside of it, where the plain one comes
to the delimiter. -/
theorem fastDecodeInto_outOfBounds : ∃ tree engine,
    build (sorted _) (Make.count []) = .ok tree ∧ spawnFastEngine tree = .ok engine ∧
      engine.decodeInto [1] 0 = .ok (1, []) ∧ 1 ≤ 1000 ∧
      engine.fastDecodeInto [1] 0 1000 = .error .outOfBounds := by
  obtain ⟨tree, engine, ht, hs, -, htree, -⟩ := emptyEngine_ok
  refine ⟨tree, engine, ht, hs, ?_, by decide, ?_⟩
  · rw [decodeInto_congr ⟨[], [], .node (.leaf ⟨0, 0⟩) (.leaf ⟨0, 1⟩), []⟩ htree]
    rfl
  · have hfast : engine.fastStep [1] 1000 ⟨0, engine.delimTree, false, []⟩ = .error .outOfBounds := by
      unfold FastEngine.fastStep
      rw [if_pos ⟨by change 0 + 64 < 1000; decide, rfl, rfl⟩]
      rfl
    unfold FastEngine.fastDecodeInto
    rw [show 2 * (8 * [(1 : Byte)].length + 1) = 17 + 1 from rfl, whileLoop, hfast]
    rfl

/-! ## A text and its delimiter -/

theorem noexhaustEncodeInto_eq (engine : FastEngine) (inp opBuf : List Byte) (rdbuf : BitArray) :
    engine.noexhaustEncodeInto inp opBuf rdbuf = streamAll (engine.words inp) opBuf rdbuf := by
  unfold FastEngine.noexhaustEncodeInto
  dsimp only
  rw [alphabetSize, Nat.div_one, Nat.mul_one, Nat.sub_self, List.take_length, List.take_zero,
    FastEngine.words, streamAll, List.foldlM_append, List.foldlM_map]
  refine bind_congr fun p => ?_
  rw [List.foldlM_cons]
  rfl

/-- **Reading a text back.** -/
theorem EngineOk.decodeInto_words (h : EngineOk tree engine) (inp : List Byte) {col : List Byte}
    (hcol : ∀ c ∈ col, tree.HasLeaf c) {p : Nat}
    (hbits : (bits inp).drop p = (engine.words col).flatMap BitArray.bits ++ more) :
    engine.decodeInto inp p = .ok (8 * inp.length - more.length, col) := by
  let word (w : DelimWord) : List Bool :=
    if w.delimStat = 0 then (engine.bitRep w.c).bits else engine.delimRep.bits
  have hroot (w : DelimWord) : engine.delimTree ≠ .leaf w := by
    rw [h.delimTree]
    exact (toDelimTree_spec tree).1 w
  have hdec : CodeTree.decode DelimWord.isDelim engine.delimTree engine.delimTree
      (((col.map fun c => (⟨c, 0⟩ : DelimWord)).flatMap word ++ word delimWord) ++ more) =
        some (col.map fun c => (⟨c, 0⟩ : DelimWord), more) := by
    refine decode_flatten hroot (fun w hw => ?_) h.delim rfl
    obtain ⟨c, hc, rfl⟩ := List.mem_map.1 hw
    exact ⟨h.word c (hcol c hc), rfl⟩
  have hwords : (engine.words col).flatMap BitArray.bits =
      (col.map fun c => (⟨c, 0⟩ : DelimWord)).flatMap word ++ word delimWord := by
    rw [FastEngine.words, List.flatMap_append, List.flatMap_map, List.flatMap_map]
    simp [word, delimWord]
  rw [← hwords, ← hbits] at hdec
  rw [decodeInto_ok h.noTrailing hdec, List.map_map]
  congr 2
  exact (List.map_congr_left fun c _ => rfl).trans (List.map_id col)

/-! ## Rows -/

def Built (std : Heap) (counter : List Nat) (engine : FastEngine) : Prop :=
  ∃ tree, build std counter = .ok tree ∧ spawnFastEngine tree = .ok engine

def Counted (counter : List Nat) (column : List Byte) : Prop :=
  ∀ c ∈ column, counter.getD c.toNat 0 ≠ 0

def rowWords (engines : List FastEngine) (columns : List (List Byte)) : List BitArray :=
  (engines.zip columns).flatMap fun (engine, column) => engine.words column

/-- The columns come back from the bytes that they are encoded to, whatever follows these, and the
decoder ends behind them. -/
def RowRoundTrip (engines : List FastEngine) (columns : List (List Byte)) : Prop :=
  ∃ bytes, (∀ buf, RowEncodingEngine.encodeInto ⟨engines⟩ columns buf = .ok (buf ++ bytes)) ∧
    ∀ rest, RowEncodingEngine.decodeInto ⟨engines⟩ (bytes ++ rest) columns.length =
      .ok (bytes.length, columns)

/-- What is known of each column of a row, with its engine's tree. -/
inductive RowOk : List FastEngine → List (List Byte) → Prop where
  | nil : RowOk [] []
  | cons {engine : FastEngine} {engines : List FastEngine} {column : List Byte}
      {columns : List (List Byte)} (tree : Node) (hok : EngineOk tree engine)
      (hcol : ∀ c ∈ column, tree.HasLeaf c) (h : RowOk engines columns) :
      RowOk (engine :: engines) (column :: columns)

variable {engines : List FastEngine} {columns : List (List Byte)}

theorem RowOk.of_built {std : Heap} {counters : List (List Nat)}
    (hb : List.Forall₂ (Built std) counters engines) (hc : List.Forall₂ Counted counters columns) :
    RowOk engines columns := by
  induction hb generalizing columns with
  | nil =>
    cases hc
    exact .nil
  | cons hb _ ih =>
    cases hc with
    | cons hcount hc =>
      obtain ⟨tree, ht, hs⟩ := hb
      exact .cons tree (engineOk_of_spawn hs) (fun c h => build_hasLeaf ht (hcount c h)) (ih hc)

theorem RowOk.length_eq (h : RowOk engines columns) : columns.length = engines.length := by
  induction h with
  | nil => rfl
  | cons tree hok hcol h ih => rw [List.length_cons, List.length_cons, ih]

theorem RowOk.words_clean (h : RowOk engines columns) : ∀ w ∈ rowWords engines columns, w.Clean := by
  induction h with
  | nil => exact nofun
  | cons tree hok hcol h ih =>
    intro w hw
    rcases List.mem_append.1 hw with hw | hw
    · exact hok.words_clean w hw
    · exact ih w hw

theorem foldlM_noexhaust (engines : List FastEngine) (columns : List (List Byte)) (buf : List Byte)
    (rdbuf : BitArray) :
    (engines.zip columns).foldlM (fun (buf, rdbuf) (encoder, column) =>
        encoder.noexhaustEncodeInto column buf rdbuf) (buf, rdbuf) =
      streamAll (rowWords engines columns) buf rdbuf := by
  induction engines generalizing columns buf rdbuf with
  | nil => rfl
  | cons engine engines ih =>
    cases columns with
    | nil => rfl
    | cons column columns =>
      rw [List.zip_cons_cons, List.foldlM_cons, rowWords, List.zip_cons_cons, List.flatMap_cons,
        streamAll, List.foldlM_append]
      dsimp only
      rw [noexhaustEncodeInto_eq]
      exact bind_congr fun p => ih columns p.1 p.2

/-- **Reading the columns back**, from bit `p` on. -/
theorem RowOk.foldlM_decodeInto (h : RowOk engines columns) {buf : List Byte} {p : Nat}
    (data : List (List Byte)) (hp : p ≤ 8 * buf.length)
    (hbits : (bits buf).drop p = (rowWords engines columns).flatMap BitArray.bits ++ more) :
    engines.foldlM (fun (bufBitOffs, data) encoder => do
      let (last, column) ← encoder.decodeInto buf bufBitOffs
      pure (last, data ++ [column])) ((p, data) : Nat × List (List Byte)) =
      (.ok (8 * buf.length - more.length, data ++ columns) : Res _) := by
  induction h generalizing p data with
  | nil =>
    have hlen := congrArg List.length hbits
    rw [List.length_drop, length_bits] at hlen
    have hlen : 8 * buf.length - p = more.length := hlen
    rw [List.foldlM_nil, List.append_nil, ← hlen, show 8 * buf.length - (8 * buf.length - p) = p by omega]
    rfl
  | @cons engine engines column columns tree hok hcol h ih =>
    have hsplit : (rowWords (engine :: engines) (column :: columns)).flatMap BitArray.bits =
        (engine.words column).flatMap BitArray.bits ++
          (rowWords engines columns).flatMap BitArray.bits := List.flatMap_append
    rw [hsplit, List.append_assoc] at hbits
    have hdec := hok.decodeInto_words buf hcol hbits
    have hnext := congrArg (List.drop ((engine.words column).flatMap BitArray.bits).length) hbits
    rw [List.drop_left, List.drop_drop] at hnext
    have hlen := congrArg List.length hnext
    have hlen' := congrArg List.length hbits
    rw [List.length_drop, length_bits] at hlen hlen'
    rw [List.length_append] at hlen'
    rw [List.foldlM_cons, List.append_cons]
    dsimp only
    rw [hdec, ok_bind]
    refine ih _ (by omega) (Eq.trans ?_ hnext)
    congr 1
    omega

theorem encodeInto_eq (hlen : columns.length = engines.length) (buf : List Byte) :
    RowEncodingEngine.encodeInto ⟨engines⟩ columns buf =
      (streamAll (rowWords engines columns) buf ⟨0, 0⟩).map fun p =>
        (BitStream.exhaustTo p.1 p.2).1 := by
  unfold RowEncodingEngine.encodeInto
  rw [if_neg (by simpa using hlen)]
  rw [foldlM_noexhaust]
  cases streamAll (rowWords engines columns) buf ⟨0, 0⟩ <;> rfl

/-- **A row whose code words can be packed comes back.** -/
theorem RowOk.roundTrip (h : RowOk engines columns)
    (hno : NoFullAligned 0 ((rowWords engines columns).map BitArray.size)) :
    RowRoundTrip engines columns := by
  obtain ⟨dst0, carry0, pad0, hall0, hpad0, hbits0⟩ := streamAll_exhaustTo h.words_clean hno []
  have hlen0 := congrArg List.length hbits0
  generalize hbytes : (BitStream.exhaustTo dst0 carry0).1 = bytes at hbits0 hlen0
  simp only [length_bits, List.length_append, List.length_replicate, bits_nil, List.length_nil] at hlen0
  refine ⟨bytes, fun buf => ?_, fun rest => ?_⟩
  · obtain ⟨dst, carry, pad, hall, hpad, hbits⟩ := streamAll_exhaustTo h.words_clean hno buf
    rw [encodeInto_eq h.length_eq, hall]
    refine congrArg Except.ok (bits_injective ?_)
    have hlen := congrArg List.length hbits
    simp only [length_bits, List.length_append, List.length_replicate] at hlen
    rw [hbits, bits_append, hbits0, show pad = pad0 by omega, List.append_assoc]
    rfl
  · have hbits : (bits (bytes ++ rest)).drop 0 = (rowWords engines columns).flatMap BitArray.bits ++
        (List.replicate pad0 false ++ bits rest) := by
      rw [List.drop_zero, bits_append, hbits0, bits_nil, List.nil_append, List.append_assoc]
    have hlen := congrArg List.length hbits
    have hfold := h.foldlM_decodeInto [] (Nat.zero_le _) hbits
    simp only [length_bits, List.length_append, List.length_replicate, List.drop_zero] at hlen
    unfold RowEncodingEngine.decodeInto
    rw [if_neg (by simpa using h.length_eq)]
    rw [hfold, ok_bind, List.nil_append]
    dsimp only
    rw [byteSize_eq]
    refine congrArg (fun n => Except.ok (n, columns)) ?_
    simp only [List.length_append, List.length_replicate, length_bits]
    omega

/-- **The round trip of rows**: the columns come back, and the decoder ends behind the row, if and
only if no code word of a whole container begins at a multiple of its width. -/
theorem row_roundTrip_iff {std : Heap} {counters : List (List Nat)}
    (hb : List.Forall₂ (Built std) counters engines) (hc : List.Forall₂ Counted counters columns) :
    RowRoundTrip engines columns ↔
      NoFullAligned 0 ((rowWords engines columns).map BitArray.size) := by
  have h := RowOk.of_built hb hc
  refine ⟨?_, h.roundTrip⟩
  rintro ⟨bytes, henc, -⟩
  by_contra hno
  have h0 := henc []
  rw [encodeInto_eq h.length_eq, streamAll_undefined [] h.words_clean clean_empty (by decide) hno]
    at h0
  cases h0

theorem row_roundTrip_sample : ∃ engine, emptyEngine = .ok engine ∧
    RowRoundTrip [engine, engine] [[0, 0], [0]] := by
  obtain ⟨tree, engine, ht, hs, h, -, hword, hdelim⟩ := emptyEngine_ok
  have hb : Built (sorted _) (1 :: List.replicate 255 0) engine :=
    ⟨tree, (build_of_clamp clamp_ones).trans ((build_of_clamp clamp_empty).symm.trans ht), hs⟩
  have hc : Counted (1 :: List.replicate 255 0) [0, 0] ∧
      Counted (1 :: List.replicate 255 0) [0] := by
    unfold Counted
    decide
  refine ⟨engine, h, (row_roundTrip_iff (.cons hb (.cons hb .nil))
    (.cons hc.1 (.cons hc.2 .nil))).2 ?_⟩
  · have hsizes : (rowWords [engine, engine] [[0, 0], [0]]).map BitArray.size = [1, 1, 1, 1, 1] := by
      change [(engine.bitRep 0).size, (engine.bitRep 0).size, engine.delimRep.size,
        (engine.bitRep 0).size, engine.delimRep.size] = _
      rw [hword, hdelim]
    rw [hsizes]
    simp [noFullAligned_cons, noFullAligned_nil]

def fibonacciCounts : Nat → Nat → Nat → List Nat
  | 0, _, _ => []
  | n + 1, a, b => a :: fibonacciCounts n b (a + b)

def deepCounter : List Nat := fibonacciCounts 64 1 1 ++ List.replicate 192 0

theorem length_deepCounter : deepCounter.length = dictSize := by
  rw [deepCounter, List.length_append, List.length_replicate]
  rfl

theorem deepEngine_ok : ∃ engine,
    build (sorted _) deepCounter >>= spawnFastEngine = .ok engine ∧
      (engine.bitRep 0).size = 64 := by
  have hclamp : Make.clamp deepCounter = .ok deepCounter := by
    have hany : deepCounter.any (· != 0) = true := rfl
    unfold Make.clamp
    rw [if_neg (not_not.2 length_deepCounter), if_pos hany]
    rfl
  have hdicts : ((build (sorted _) deepCounter).map fun tree =>
      (((encodeDictionarize (toDelimTree tree)).mapM toBitArray).map fun ed =>
          (ed.getD 0 ⟨0, 0⟩).size,
        ((findDelim (toDelimTree tree)).mapM toBitArray).isOk)) =
      .ok (.ok 64, true) := by
    rw [build_eq hclamp length_deepCounter]
    decide +kernel
  cases ht : build (sorted _) deepCounter with
  | error e =>
    rw [ht] at hdicts
    cases hdicts
  | ok tree =>
    rw [ht] at hdicts
    obtain ⟨hed, hdl⟩ := Prod.mk.inj (Except.ok.inj hdicts)
    obtain ⟨dict, hdict⟩ := decodeDictionarize_ok (toDelimTree_spec tree).1
    unfold spawnFastEngine
    rw [ok_bind]
    dsimp only
    rw [hdict, ok_bind]
    cases hed' : (encodeDictionarize (toDelimTree tree)).mapM toBitArray with
    | error e =>
      rw [hed'] at hed
      cases hed
    | ok ed =>
      cases hdl' : (findDelim (toDelimTree tree)).mapM toBitArray with
      | error e =>
        rw [hdl'] at hdl
        cases hdl
      | ok dl =>
        rw [hed'] at hed
        exact ⟨⟨ed, dl, toDelimTree tree, dict⟩, rfl, Except.ok.inj hed⟩

/-- A column of one byte, whose word of 64 bits is streamed with nothing carried. -/
theorem row_not_roundTrip : ∃ engine, Built (sorted _) deepCounter engine ∧
    Counted deepCounter [0] ∧ ¬ RowRoundTrip [engine] [[0]] := by
  obtain ⟨engine, h, hsize⟩ := deepEngine_ok
  have hb : Built (sorted _) deepCounter engine := bind_eq_ok h
  have hc : Counted deepCounter [0] := by
    unfold Counted
    decide
  have hrow := RowOk.of_built (.cons hb .nil) (.cons hc .nil)
  refine ⟨engine, hb, hc, ?_⟩
  rintro ⟨bytes, henc, -⟩
  have h0 := henc []
  rw [encodeInto_eq rfl, streamAll_undefined [] hrow.words_clean clean_empty (by decide)] at h0
  · cases h0
  · rw [show (rowWords [engine] [[0]]).map BitArray.size = [(engine.bitRep 0).size,
      engine.delimRep.size] from rfl, noFullAligned_cons]
    exact fun hno => hno.1 ⟨hsize, Nat.dvd_zero _⟩

end HuffmanEncoder
