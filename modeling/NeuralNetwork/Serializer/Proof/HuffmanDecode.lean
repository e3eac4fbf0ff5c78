import NeuralNetwork.Serializer.HuffmanEncoder

/-!
# Fast and plain Huffman decoding

`decodeInto_iff`: the plain decoder reads the bits of the buffer as `CodeTree.decode` does.
`walk_decode` says what an entry of the decoding dictionary stands for, and `fastDecodeInto_eq` that
with it the fast decoder comes to the same end.
-/

namespace HuffmanEncoder

open Cpp LittleEndian Loop ByteBits

/-! ## Reading bits -/

theorem and_toggle_ne_zero {w : Nat} (b : BitVec w) {k : Nat} (hk : k < w) :
    (b &&& 1#w <<< k != 0) = b.getLsbD k := by
  rw [← BitVec.twoPow_eq, BitVec.and_twoPow]
  cases b.getLsbD k with
  | false => simp
  | true =>
    have hbit : (BitVec.twoPow w k).getLsbD k = true := by simp [hk]
    rw [if_pos rfl, bne_iff_ne]
    intro e
    rw [e] at hbit
    simp at hbit

theorem bitDeque_eq (n : Nat) (v : Byte) : bitDeque n v = wordBits n v := by
  induction n generalizing v with
  | zero => rfl
  | succ n ih =>
    rw [bitDeque, ih, Nat.add_comm n 1, wordBits_add]
    have := and_toggle_ne_zero v (k := 0) (by decide)
    rw [BitVec.shiftLeft_zero] at this
    change _ :: _ = v.getLsbD 0 :: _
    rw [← this]
    rfl

theorem byteRead_eq (op : List Byte) (idx : Nat) :
    ByteArray.read op idx = match (bits op)[idx]? with
      | some b => .ok b
      | none => .error .outOfBounds := by
  unfold ByteArray.read ByteArray.slot
  by_cases h : idx < 8 * op.length
  · have hs : idx / 8 < op.length := by omega
    rw [getElem?_bits h, bitAt, List.getD_eq_getElem?_getD, List.getElem?_eq_getElem hs]
    exact congrArg _ (and_toggle_ne_zero _ (Nat.mod_lt _ (by decide)))
  · have hs : op.length ≤ idx / 8 := by omega
    rw [List.getElem?_eq_none hs, List.getElem?_eq_none (by simpa using h)]

theorem byteRead_ok {op : List Byte} {idx : Nat} {b : Bool} {bs : List Bool}
    (h : (bits op).drop idx = b :: bs) :
    ByteArray.read op idx = .ok b ∧ (bits op).drop (idx + 1) = bs ∧ idx < 8 * op.length := by
  have hlt : idx < (bits op).length := by
    by_contra hle
    rw [List.drop_eq_nil_of_le (by omega)] at h
    cases h
  rw [List.drop_eq_getElem_cons hlt] at h
  obtain ⟨h1, h2⟩ := List.cons.inj h
  refine ⟨?_, h2, by simpa using hlt⟩
  rw [byteRead_eq, List.getElem?_eq_getElem hlt, h1]

theorem bitStream_read_ok (op : List Byte) (idx : Nat) (h : idx + 64 ≤ 8 * op.length) :
    ∃ tape : BitVec 64, BitStream.read op idx 8 = .ok tape ∧ tape.toNat < 256 ∧
      wordBits 8 tape = ((bits op).drop idx).take 8 := by
  have hslot : idx / 8 + 8 ≤ op.length := by omega
  have hsplit : 8 * (idx / 8) + idx % 8 = idx := Nat.div_add_mod idx 8
  have hlen : ((op.drop (idx / 8)).take 8).length = 8 := by
    rw [List.length_take, List.length_drop]
    omega
  refine ⟨_, if_pos hslot, ?_, ?_⟩
  · rw [BitVec.toNat_and]
    exact Nat.lt_of_le_of_lt Nat.and_le_right (by decide)
  · have hmask : ∀ i < 8, (1#64 <<< 8 - 1).getLsbD i = true := by decide
    let word := load 8 ((op.drop (idx / 8)).take 8)
    have hload : wordBits 64 word = ((bits op).drop (8 * (idx / 8))).take 64 := by
      have := wordBits_load hlen
      rwa [bits_take, bits_drop] at this
    have hmasked : wordBits 8 (word >>> (idx % 8) &&& (1#64 <<< 8 - 1)) =
        wordBits 8 (word >>> (idx % 8)) := by
      refine wordBits_congr fun i hi => ?_
      rw [BitVec.getLsbD_and, hmask i hi, Bool.and_true]
    calc wordBits 8 (word >>> (idx % 8) &&& (1#64 <<< 8 - 1))
        = (wordBits (idx % 8 + 8) word).drop (idx % 8) := by
          rw [hmasked, wordBits_add, List.drop_left' length_wordBits]
      _ = (((bits op).drop (8 * (idx / 8))).take (idx % 8 + 8)).drop (idx % 8) := by
          rw [← take_wordBits (n := 64) (by omega), hload, List.take_take, Nat.min_eq_left (by omega)]
      _ = ((bits op).drop idx).take 8 := by
          rw [List.drop_take, List.drop_drop, hsplit, Nat.add_sub_cancel_left]

/-! ## One bit -/

def DelimWord.isDelim (w : DelimWord) : Bool := w.delimStat != 0

def NoTrailing (root : DelimNode) : Prop :=
  ∀ path w, root.follow path = some (.leaf w) → w.delimStat.toNat ≤ 1

variable {engine : FastEngine} {inp out : List Byte} {rest : List Bool} {s s' : Decoding}

/-- Plain decoding from here on makes the output `out` and leaves the bits `rest`. -/
structure Decodes (root : DelimNode) (inp out : List Byte) (rest : List Bool) (s : Decoding) :
    Prop where
  reached : ∃ path, root.follow path = some s.cursor
  decodes : ∃ as, CodeTree.decode DelimWord.isDelim root s.cursor ((bits inp).drop s.bitOffs) =
    some (as, rest) ∧ s.opBuf ++ as.map DelimWord.c = out

/-- Decoding has stopped with the output `out` and with the bits `rest` left. -/
structure Decoded (inp out : List Byte) (rest : List Bool) (s : Decoding) : Prop where
  bitOffs : s.bitOffs + rest.length = 8 * inp.length
  opBuf : s.opBuf = out

theorem walkBit_nil (h : (bits inp).drop s.bitOffs = []) :
    engine.walkBit inp s = .error .outOfBounds := by
  unfold FastEngine.walkBit
  rw [byteRead_eq, List.getElem?_eq_none (List.drop_eq_nil_iff.1 h)]
  rfl

theorem walkBit_leaf (engine : FastEngine) (inp : List Byte) {w : DelimWord}
    (hs : s.cursor = .leaf w) : ∃ e, engine.walkBit inp s = .error e := by
  unfold FastEngine.walkBit
  rw [hs]
  cases ByteArray.read inp s.bitOffs with
  | error e => exact ⟨e, rfl⟩
  | ok b => exact ⟨_, rfl⟩

/-- What becomes of `s` by a bit that leads to a node. -/
def arriveAt (engine : FastEngine) (s : Decoding) : DelimNode → ForInStep Decoding
  | .node l r => .yield ⟨s.bitOffs + 1, .node l r, false, s.opBuf⟩
  | .leaf w =>
    if w.isDelim then .done ⟨s.bitOffs + 1, .leaf w, false, s.opBuf⟩
    else .yield ⟨s.bitOffs + 1, engine.delimTree, false, s.opBuf ++ [w.c]⟩

theorem walkBit_node (engine : FastEngine) {l r t : DelimNode} {b : Bool} {bs : List Bool}
    (hs : s.cursor = .node l r) (h : (bits inp).drop s.bitOffs = b :: bs) (ht : (if b then r else l) = t)
    (hd : ∀ w, t = .leaf w → w.delimStat.toNat ≤ 1) :
    engine.walkBit inp s = .ok (arriveAt engine s t) := by
  obtain ⟨hread, -, -⟩ := byteRead_ok h
  have hchild : Make.child s.cursor b = .ok t := by
    rw [hs, ← ht]
    cases b <;> rfl
  unfold FastEngine.walkBit
  rw [hread, ok_bind]
  rw [hchild, ok_bind]
  cases t with
  | node l' r' => rfl
  | leaf w =>
    rw [arriveAt]
    dsimp only
    by_cases hw : w.delimStat = 0
    · rw [if_neg (by simpa using hw), if_neg (by simp [DelimWord.isDelim, hw])]
      rfl
    · have htrailing : w.delimStat.toNat - 1 = 0 := by
        have := hd w rfl
        omega
      rw [if_pos hw, if_pos (by simpa [DelimWord.isDelim] using hw), htrailing]
      rfl

/-- **One bit** of plain decoding. -/
theorem Decodes.walkBit (hd : NoTrailing engine.delimTree)
    (h : Decodes engine.delimTree inp out rest s) :
    s.bitOffs < 8 * inp.length ∧
      ((∃ s', engine.walkBit inp s = .ok (.yield s') ∧ Decodes engine.delimTree inp out rest s' ∧
        s'.bitOffs = s.bitOffs + 1) ∨
      ∃ s', engine.walkBit inp s = .ok (.done s') ∧ Decoded inp out rest s') := by
  obtain ⟨⟨path, hpath⟩, as, has, hout⟩ := h
  cases hbits : (bits inp).drop s.bitOffs with
  | nil =>
    rw [hbits, CodeTree.decode] at has
    cases has
  | cons b bs =>
    obtain ⟨-, hnext, hlt⟩ := byteRead_ok hbits
    refine ⟨hlt, ?_⟩
    rw [hbits] at has
    cases hcur : s.cursor with
    | leaf w =>
      rw [hcur, CodeTree.decode] at has
      cases has
    | node l r =>
      rw [hcur] at hpath
      rw [hcur, CodeTree.decode_node_cons] at has
      have hfollow : engine.delimTree.follow (path ++ [b]) = some (if b then r else l) := by
        rw [CodeTree.follow_append, hpath]
        simp
      have hwalk := walkBit_node engine hcur hbits rfl fun w e =>
        hd (path ++ [b]) w (e ▸ hfollow)
      cases hchild : (if b then r else l) with
      | node l' r' =>
        rw [hchild] at hwalk has hfollow
        refine .inl ⟨_, hwalk, ⟨⟨_, hfollow⟩, as, ?_, hout⟩, rfl⟩
        rw [hnext]
        exact has
      | leaf w =>
        rw [hchild] at hwalk has
        rw [CodeTree.arrive] at has
        rw [arriveAt] at hwalk
        by_cases hw : w.isDelim = true
        · rw [if_pos hw] at hwalk has
          obtain ⟨rfl, rfl⟩ := Prod.mk.inj (Option.some.inj has)
          refine .inr ⟨_, hwalk, ?_, by simpa using hout⟩
          have hlen := congrArg List.length hnext
          rw [List.length_drop, length_bits] at hlen
          dsimp only
          omega
        · rw [if_neg hw] at hwalk has
          obtain ⟨⟨as', rest'⟩, hdec, e⟩ := Option.map_eq_some_iff.1 has
          obtain ⟨rfl, rfl⟩ := Prod.mk.inj e
          refine .inl ⟨_, hwalk, ⟨⟨[], by simp⟩, as', ?_, ?_⟩, rfl⟩
          · rw [hnext]
            exact hdec
          · rw [← hout]
            simp

/-! ## The plain decoder -/

variable {as : List DelimWord} {trace : List Bool} {bytes : List Byte}

theorem decodeInto_ok (hd : NoTrailing engine.delimTree) {p : Nat}
    (h : CodeTree.decode DelimWord.isDelim engine.delimTree engine.delimTree ((bits inp).drop p) =
      some (as, rest)) :
    engine.decodeInto inp p = .ok (8 * inp.length - rest.length, as.map DelimWord.c) := by
  have hrun : ∃ s', whileLoop Fault.outOfFuel (engine.walkBit inp) (8 * inp.length + 1)
      ⟨p, engine.delimTree, false, []⟩ = .ok s' ∧ Decoded inp (as.map DelimWord.c) rest s' := by
    refine whileLoop_ok (Decodes engine.delimTree inp (as.map DelimWord.c) rest) _
      (fun s => 8 * inp.length - s.bitOffs) ⟨⟨[], by simp⟩, as, h, rfl⟩ (by dsimp only; omega)
      fun s hs => ?_
    obtain ⟨hlt, ⟨s', e, hs', he⟩ | hdone⟩ := hs.walkBit hd
    · exact .inl ⟨s', e, hs', by omega⟩
    · exact .inr hdone
  obtain ⟨s', hloop, hs'⟩ := hrun
  unfold FastEngine.decodeInto
  rw [hloop, ok_bind, hs'.opBuf, ← hs'.bitOffs, Nat.add_sub_cancel]
  rfl

theorem exists_decode_of_whileLoop (hd : NoTrailing engine.delimTree) {n : Nat}
    (hs : ∃ path, engine.delimTree.follow path = some s.cursor)
    (h : whileLoop Fault.outOfFuel (engine.walkBit inp) n s = .ok s') :
    ∃ r, CodeTree.decode DelimWord.isDelim engine.delimTree s.cursor ((bits inp).drop s.bitOffs) =
      some r := by
  induction n generalizing s with
  | zero => cases h
  | succ n ih =>
    obtain ⟨r, hwalk, hloop⟩ := bind_eq_ok h
    cases hbits : (bits inp).drop s.bitOffs with
    | nil =>
      rw [walkBit_nil hbits] at hwalk
      cases hwalk
    | cons b bs =>
      obtain ⟨-, hnext, -⟩ := byteRead_ok hbits
      cases hcur : s.cursor with
      | leaf w =>
        obtain ⟨e, he⟩ := walkBit_leaf engine inp hcur
        rw [he] at hwalk
        cases hwalk
      | node l r =>
        obtain ⟨path, hpath⟩ := hs
        rw [hcur] at hpath
        have hfollow : engine.delimTree.follow (path ++ [b]) = some (if b then r else l) := by
          rw [CodeTree.follow_append, hpath]
          simp
        rw [walkBit_node engine hcur hbits rfl fun w e =>
          hd (path ++ [b]) w (e ▸ hfollow)] at hwalk
        obtain rfl := Except.ok.inj hwalk
        rw [CodeTree.decode_node_cons]
        cases hchild : (if b then r else l) with
        | node l' r' =>
          rw [hchild] at hloop hfollow
          obtain ⟨a, ha⟩ := ih ⟨_, hfollow⟩ hloop
          rw [hnext] at ha
          exact ⟨a, ha⟩
        | leaf w =>
          rw [hchild, arriveAt] at hloop
          rw [CodeTree.arrive]
          by_cases hw : w.isDelim = true
          · exact ⟨_, if_pos hw⟩
          · rw [if_neg hw] at hloop
            obtain ⟨a, ha⟩ := ih ⟨[], by simp⟩ hloop
            rw [hnext] at ha
            exact ⟨_, by rw [if_neg hw, ha]; rfl⟩

/-- **The plain decoder** reads the bits of the buffer, from bit `p` on, as `CodeTree.decode` does. -/
theorem decodeInto_iff (hd : NoTrailing engine.delimTree) {p e : Nat} :
    engine.decodeInto inp p = .ok (e, out) ↔ ∃ as rest,
      CodeTree.decode DelimWord.isDelim engine.delimTree engine.delimTree ((bits inp).drop p) =
        some (as, rest) ∧ e = 8 * inp.length - rest.length ∧ out = as.map DelimWord.c := by
  constructor
  · intro h
    obtain ⟨s, hloop, -⟩ := bind_eq_ok h
    obtain ⟨⟨as, rest⟩, hdec⟩ := exists_decode_of_whileLoop hd ⟨[], by simp⟩ hloop
    rw [decodeInto_ok hd hdec] at h
    obtain ⟨rfl, rfl⟩ := Prod.mk.inj (Except.ok.inj h)
    exact ⟨as, rest, hdec, rfl, rfl⟩
  · rintro ⟨as, rest, hdec, rfl, rfl⟩
    exact decodeInto_ok hd hdec

/-! ## The decoding dictionary -/

/-- What `walk` comes to from `cursor`: either to no label, or through labels to a place where
decoding starts over at the root. -/
theorem walkFrom_decode {root cursor : DelimNode} {initSz trailing : Nat}
    (h : Make.walkFrom root initSz cursor trace = .ok (bytes, trailing)) :
    (bytes = [] ∧ trailing = initSz) ∨
      ∃ as post, post <:+ trace ∧ post.length = trailing ∧ trailing < trace.length ∧
        as.map DelimWord.c = bytes ∧
        ∀ more, CodeTree.decode DelimWord.isDelim root cursor (trace ++ more) =
          (CodeTree.decode DelimWord.isDelim root root (post ++ more)).map (Prod.map (as ++ ·) id) := by
  induction trace generalizing cursor initSz bytes trailing with
  | nil =>
    obtain ⟨rfl, rfl⟩ := Prod.mk.inj (Except.ok.inj h)
    exact .inl ⟨rfl, rfl⟩
  | cons b trace ih =>
    cases cursor with
    | leaf w => cases h
    | node l r =>
      rw [Make.walkFrom, show Make.child (.node l r) b = .ok (if b then r else l) by cases b <;> rfl,
        ok_bind] at h
      cases hchild : (if b then r else l) with
      | node l' r' =>
        rw [hchild] at h
        obtain hnone | ⟨as, post, hpost, hlen, hlt, has, hdec⟩ := ih h
        · exact .inl hnone
        · refine .inr ⟨as, post, hpost.trans (List.suffix_cons b trace), hlen, ?_, has, fun more => ?_⟩
          · rw [List.length_cons]
            omega
          · rw [List.cons_append, CodeTree.decode_node_cons, hchild]
            exact hdec more
      | leaf w =>
        rw [hchild] at h
        dsimp only at h
        by_cases hw : w.delimStat = 0
        · have hstop : ¬ w.isDelim = true := by simp [DelimWord.isDelim, hw]
          have harrive (more : List Bool) :
              CodeTree.decode DelimWord.isDelim root (.node l r) (b :: trace ++ more) =
                (CodeTree.decode DelimWord.isDelim root root (trace ++ more)).map
                  (Prod.map (w :: ·) id) := by
            rw [List.cons_append, CodeTree.decode_node_cons, hchild, CodeTree.arrive, if_neg hstop]
          rw [if_neg (by simpa using hw)] at h
          obtain ⟨⟨byteRep, trailing'⟩, hrec, h⟩ := bind_eq_ok h
          refine .inr ?_
          by_cases htrail : trailing' = trace.length
          · rw [if_pos htrail] at h
            obtain ⟨rfl, rfl⟩ := Prod.mk.inj (Except.ok.inj h)
            exact ⟨[w], trace, List.suffix_cons b trace, rfl, Nat.lt_succ_self _, rfl, harrive⟩
          · rw [if_neg htrail] at h
            obtain ⟨rfl, rfl⟩ := Prod.mk.inj (Except.ok.inj h)
            obtain ⟨-, hnone⟩ | ⟨as, post, hpost, hlen, hlt, has, hdec⟩ := ih hrec
            · exact absurd hnone htrail
            · refine ⟨w :: as, post, hpost.trans (List.suffix_cons b trace), hlen, ?_, ?_, fun more => ?_⟩
              · rw [List.length_cons]
                omega
              · rw [List.map_cons, has]
                rfl
              · rw [harrive, hdec, Option.map_map]
                rfl
        · rw [if_pos hw] at h
          obtain ⟨rfl, rfl⟩ := Prod.mk.inj (Except.ok.inj h)
          exact .inl ⟨rfl, rfl⟩

/-- **An entry of the dictionary**: decoding from the root starts over behind the bits that it does
not leave, with its bytes in front. -/
theorem walk_decode {root : DelimNode} {trailing : Nat}
    (h : Make.walk root trace = .ok (bytes, trailing)) :
    trailing ≤ trace.length ∧ ∃ as, as.map DelimWord.c = bytes ∧
      ∀ more, CodeTree.decode DelimWord.isDelim root root (trace ++ more) =
        (CodeTree.decode DelimWord.isDelim root root
          ((trace ++ more).drop (trace.length - trailing))).map (Prod.map (as ++ ·) id) := by
  obtain ⟨rfl, rfl⟩ | ⟨as, post, hpost, rfl, hlt, has, hdec⟩ := walkFrom_decode h
  · refine ⟨Nat.le_refl _, [], rfl, fun more => ?_⟩
    rw [Nat.sub_self, List.drop_zero]
    cases CodeTree.decode DelimWord.isDelim root root (trace ++ more) <;> rfl
  · obtain ⟨pre, rfl⟩ := hpost
    refine ⟨Nat.le_of_lt hlt, as, has, fun more => ?_⟩
    rw [hdec, List.length_append, Nat.add_sub_cancel, List.append_assoc, List.drop_left]

/-- The dictionary of an engine is that of its tree. -/
def DictOk (engine : FastEngine) : Prop :=
  Make.decodeDictionarize engine.delimTree = .ok engine.decodingDict

theorem DictOk.walk (h : DictOk engine) {i : Nat} (hi : i < 256) :
    Make.walk engine.delimTree (wordBits 8 (BitVec.ofNat 8 i)) =
      .ok (engine.decodingDict.getD i ([], 0)) := by
  have hall := forall₂_of_mapM h
  have hr : i < (List.range dictSize).length := by
    rw [List.length_range]
    exact hi
  have hdict : i < engine.decodingDict.length := by rwa [← hall.length_eq]
  have hi := List.forall₂_iff_get.1 hall |>.2 i hr hdict
  rw [List.get_eq_getElem, List.get_eq_getElem, List.getElem_range, toBitDeque, bitDeque_eq] at hi
  rw [hi, List.getD_eq_getElem?_getD, List.getElem?_eq_getElem hdict]
  rfl

/-! ## The fast decoder -/

/-- **One round** of fast decoding. -/
theorem Decodes.fastStep (hd : NoTrailing engine.delimTree) (hdict : DictOk engine) {bitLast : Nat}
    (hlast : bitLast ≤ 8 * inp.length) (h : Decodes engine.delimTree inp out rest s) :
    (∃ s', engine.fastStep inp bitLast s = .ok (.yield s') ∧ Decodes engine.delimTree inp out rest s' ∧
      s'.bitOffs ≤ 8 * inp.length ∧
      (s.bitOffs < s'.bitOffs ∨ s'.bitOffs = s.bitOffs ∧ s.badBit = false ∧ s'.badBit = true)) ∨
    ∃ s', engine.fastStep inp bitLast s = .ok (.done s') ∧ Decoded inp out rest s' := by
  unfold FastEngine.fastStep
  split
  · rename_i hpre
    obtain ⟨hpadd, hroot, hbad⟩ := hpre
    rw [BitStream.readPaddRequirement] at hpadd
    obtain ⟨tape, hread, hlt, htape⟩ := bitStream_read_ok inp s.bitOffs (by omega)
    obtain ⟨hreached, as, has, hout⟩ := h
    have hwalk := hdict.walk hlt
    generalize hentry : engine.decodingDict.getD tape.toNat ([], 0) = entry at hwalk
    obtain ⟨bytes, trailing⟩ := entry
    obtain ⟨htrail, as', has', hdec⟩ := walk_decode hwalk
    have hbyte : wordBits 8 (BitVec.ofNat 8 tape.toNat) = ((bits inp).drop s.bitOffs).take 8 := by
      rw [← htape]
      refine wordBits_congr fun i hi => ?_
      rw [BitVec.getLsbD_ofNat, decide_eq_true hi, Bool.true_and, BitVec.testBit_toNat]
    have hnext := hdec (((bits inp).drop s.bitOffs).drop 8)
    rw [length_wordBits] at htrail
    rw [length_wordBits, hbyte, List.take_append_drop, List.drop_drop] at hnext
    rw [hroot, hnext] at has
    obtain ⟨⟨as'', rest'⟩, hdec', e⟩ := Option.map_eq_some_iff.1 has
    obtain ⟨rfl, rfl⟩ := Prod.mk.inj e
    refine .inl ⟨⟨s.bitOffs + (8 - trailing), s.cursor, trailing = 8, s.opBuf ++ bytes⟩, ?_,
      ⟨hreached, as'', ?_, ?_⟩, ?_, ?_⟩
    · rw [alphabetBitSize, alphabetSize, Nat.one_mul, hread, ok_bind]
      rw [hentry]
      rfl
    · rw [hroot]
      exact hdec'
    · rw [← hout, ← has']
      simp
    · dsimp only
      omega
    · dsimp only
      by_cases ht : trailing = 8
      · exact .inr ⟨by omega, hbad, by simpa using ht⟩
      · exact .inl (by omega)
  · obtain ⟨hlt, ⟨s', e, hs', he⟩ | hdone⟩ := h.walkBit hd
    · exact .inl ⟨s', e, hs', by omega, .inl (by omega)⟩
    · exact .inr hdone

/-- **The fast decoder** comes to the same end as the plain one. -/
theorem fastDecodeInto_ok (hd : NoTrailing engine.delimTree) (hdict : DictOk engine) {p bitLast : Nat}
    (hlast : bitLast ≤ 8 * inp.length)
    (h : CodeTree.decode DelimWord.isDelim engine.delimTree engine.delimTree ((bits inp).drop p) =
      some (as, rest)) :
    engine.fastDecodeInto inp p bitLast = .ok (8 * inp.length - rest.length, as.map DelimWord.c) := by
  have hrun : ∃ s', whileLoop Fault.outOfFuel (engine.fastStep inp bitLast)
      (2 * (8 * inp.length + 1)) ⟨p, engine.delimTree, false, []⟩ = .ok s' ∧
        Decoded inp (as.map DelimWord.c) rest s' := by
    refine whileLoop_ok (Decodes engine.delimTree inp (as.map DelimWord.c) rest) _
      (fun s => 2 * (8 * inp.length - s.bitOffs) + if s.badBit then 0 else 1)
      ⟨⟨[], by simp⟩, as, h, rfl⟩ (by dsimp only; split <;> omega) fun s hs => ?_
    obtain ⟨s', e, hs', hle, hadv⟩ | hdone := hs.fastStep hd hdict hlast
    · refine .inl ⟨s', e, hs', ?_⟩
      rcases hadv with hadv | ⟨hadv, hbad, hbad'⟩
      · split <;> split <;> omega
      · rw [hadv, hbad, hbad']
        simp
    · exact .inr hdone
  obtain ⟨s', hloop, hs'⟩ := hrun
  unfold FastEngine.fastDecodeInto
  rw [hloop, ok_bind, hs'.opBuf, ← hs'.bitOffs, Nat.add_sub_cancel]
  rfl

end HuffmanEncoder
