import NeuralNetwork.Serializer.Proof.HuffmanCost
import NeuralNetwork.Serializer.Proof.HuffmanSerialization

/-!
# Round trip of the Huffman encoder

`decode_encode_text_iff`: a text whose code words fit in a container comes back from its encoding exactly if
no code word of a whole container begins at a multiple of its width. What is used of the parts: the
packed code fits in the buffer that `encode` makes (`size_words_le`), the tree comes back from its
stream (`deserialize_serialize`), and the fast decoder finds the words of the tree.
-/

namespace HuffmanEncoder

open Cpp Loop ByteBits CodeTree Serializer CompactSerializer Serialization
open Serialization (deserialize serialize)
open StdHeap (sorted)

variable {std : Heap} {env : Env} {engine : FastEngine} {tree : Node} {inp : List Byte}

/-! ## The stream of a tree -/

theorem length_treeHeader (t : Node) : (treeHeader t).length + 1 = 2 * numLeaves t ∧
    (treeWords t).length = numLeaves t := by
  induction t with
  | leaf c => exact ⟨rfl, rfl⟩
  | node l r hl hr =>
    simp only [treeHeader, treeWords, numLeaves, List.length_cons, List.length_append]
    omega

theorem length_toStream {size : CompactSerializer.Res Nat} {bytes : CompactSerializer.Res (List Byte)}
    {bs : List Byte} (h : toStream env size bytes = .ok bs) : size = .ok bs.length := by
  obtain ⟨sz, hsz, h⟩ := bind_eq_ok h
  obtain ⟨_, -, h⟩ := bind_eq_ok h
  obtain ⟨cs, -, h⟩ := bind_eq_ok h
  unfold writeInto at h
  split at h
  · rename_i hle
    obtain rfl := Except.ok.inj h
    rw [List.length_replicate] at hle
    rw [hsz, List.length_append, List.length_drop, List.length_replicate, Nat.add_sub_cancel' hle]
  · cases h

theorem countAll_of_const {α : Type} {f : α → CompactSerializer.Res Nat} {k : Nat}
    (hf : ∀ v, f v = .ok k) (vs : List α) : countAll f vs = .ok (vs.length * k) := by
  induction vs with
  | nil => rw [List.length_nil, Nat.zero_mul]; rfl
  | cons v vs ih =>
    rw [countAll, hf, ok_bind, ih, List.length_cons, Nat.succ_mul, Nat.add_comm]
    rfl

theorem count_modelTy {v : Val modelTy} {n : Nat} (h : count env none modelTy v = .ok n) :
    n = 24 + ((v.1 : List (BitVec 32)).length * 4 + (v.2.1 : List Byte).length +
      (v.2.2.1 : List (Byte × Unit)).length) := by
  obtain ⟨bitArr, rem, cVec, u⟩ := v
  simp only [count, counts] at h
  obtain ⟨m, hm, h⟩ := bind_eq_ok h
  obtain ⟨n1, h1, hm⟩ := bind_eq_ok hm
  obtain ⟨m2, hm2, hm⟩ := bind_eq_ok hm
  obtain ⟨n2, h2, hm2⟩ := bind_eq_ok hm2
  obtain ⟨m3, hm3, hm2⟩ := bind_eq_ok hm2
  obtain ⟨n3, h3, hm3⟩ := bind_eq_ok hm3
  obtain rfl := Except.ok.inj h
  obtain rfl := Except.ok.inj hm
  obtain rfl := Except.ok.inj hm2
  obtain rfl := Except.ok.inj hm3
  split at h1
  · obtain rfl := Except.ok.inj h1
    split at h2
    · obtain rfl := Except.ok.inj h2
      unfold countContainer at h3
      split at h3
      · obtain ⟨m4, h4, h3⟩ := bind_eq_ok h3
        have hall := countAll_of_const (k := 1)
          (f := count env none (.array (.int .char) alphabetSize)) (fun v => rfl) cVec
        obtain rfl : m4 = List.length cVec * 1 := Except.ok.inj (h4.symm.trans hall)
        obtain rfl := Except.ok.inj h3
        change 0 + (0 + 0 + 8 + List.length bitArr * 4 + (0 + 0 + 8 + List.length rem * 1 +
          (0 + 8 + List.length cVec * 1 + 0))) =
            24 + (List.length bitArr * 4 + List.length rem + List.length cVec)
        omega
      · cases h3
    · cases h2
  · cases h1

theorem length_serialize {bs : List Byte} (ht : numLeaves tree ≤ 256)
    (h : serialize env tree = .ok bs) : bs.length < 2 ^ 64 := by
  obtain ⟨hlen, hwords⟩ := length_treeHeader tree
  obtain ⟨n, hcount, hn⟩ := bind_eq_ok (length_toStream h)
  have hn : n + 16 = bs.length := Except.ok.inj hn
  have hsize := count_modelTy hcount
  rw [toSerializableModel_eq] at hsize
  have h1 : List.length (toSerializable ⟨treeHeader tree, treeWords tree⟩).1 =
      (treeHeader tree).length / 32 := (List.length_map _).trans List.length_range
  have h2 : List.length (toSerializable ⟨treeHeader tree, treeWords tree⟩).2.1 ≤
      (treeHeader tree).length :=
    le_of_eq_of_le (List.length_map _) (by rw [List.length_drop]; exact Nat.sub_le _ _)
  have h3 : List.length (toSerializable ⟨treeHeader tree, treeWords tree⟩).2.2.1 =
      (treeWords tree).length := List.length_map _
  omega

/-! ## The round trip -/

variable {bytes : List Byte}

theorem fillString_ok (hm : ∀ n, env.alloc n = true) {sz : Nat}
    (h : bytes.length ≤ sz) : fillString env sz (.ok bytes) = .ok bytes := by
  unfold fillString
  rw [grow, if_pos (hm sz)]
  change (writeInto (List.replicate sz 32) bytes >>= fun msg => pure (msg.take bytes.length)) = _
  rw [writeInto, if_pos (by rwa [List.length_replicate])]
  change Except.ok ((bytes ++ _).take bytes.length) = _
  rw [List.take_left]

theorem fillString_error (hm : ∀ n, env.alloc n = true) (sz : Nat) (e : Fault) :
    fillString env sz (.error e) = .error (.fault e) := by
  unfold fillString
  rw [grow, if_pos (hm sz)]
  rfl

theorem encodeInto_text (hs : spawnFastEngine tree = .ok engine) :
    encodeInto inp tree = (streamAll (engine.words inp) [] ⟨0, 0⟩).map fun p =>
      (BitStream.exhaustTo p.1 p.2).1 := by
  unfold encodeInto
  rw [hs, ok_bind, FastEngine.encodeInto, noexhaustEncodeInto_eq]
  cases streamAll (engine.words inp) [] ⟨0, 0⟩ <;> rfl

theorem decodeInto_text (hs : spawnFastEngine tree = .ok engine) (hleaf : ∀ c ∈ inp, tree.HasLeaf c) {pad : Nat}
    (hbits : bits bytes = (engine.words inp).flatMap BitArray.bits ++ List.replicate pad false) :
    decodeInto bytes tree = .ok inp := by
  have hplain := (engineOk_of_spawn hs).decodeInto_words bytes (p := 0) hleaf hbits
  unfold decodeInto
  rw [hs, ok_bind, fastDecodeInto_eq_decodeInto hs (by omega) hplain]
  rfl

theorem length_flatMap_words (engine : FastEngine) (inp : List Byte) :
    ((engine.words inp).flatMap BitArray.bits).length = ((engine.words inp).map BitArray.size).sum := by
  rw [List.length_flatMap, List.map_congr_left fun b _ => BitArray.length_bits]

theorem words_cons (c : Byte) (inp : List Byte) :
    engine.words (c :: inp) = engine.bitRep c :: engine.words inp := rfl

theorem length_bytes_le (hlen : inp.length < 2 ^ 64) (hb : build std (Make.count inp) = .ok tree)
    (hs : spawnFastEngine tree = .ok engine) {pad : Nat} (hpad : pad < 8)
    (hbits : bits bytes = (engine.words inp).flatMap BitArray.bits ++ List.replicate pad false) :
    bytes.length ≤ inp.length * maxEncodingSzPerByte + maxEncodingOverhead := by
  have hsum := size_words_le hlen hb hs
  have hbytes := congrArg List.length hbits
  rw [length_bits, List.length_append, List.length_replicate, length_flatMap_words] at hbytes
  rw [maxEncodingSzPerByte, maxEncodingOverhead]
  omega

theorem length_dst_le {words : List BitArray} (hw : ∀ w ∈ words, w.Clean) {dst : List Byte}
    {carry : BitArray} (h : streamAll words [] ⟨0, 0⟩ = .ok (dst, carry)) :
    8 * dst.length ≤ (words.map BitArray.size).sum ∧
      8 * (BitStream.exhaustTo dst carry).1.length < (words.map BitArray.size).sum + 8 := by
  have hno : NoFullAligned 0 (words.map BitArray.size) := by
    by_contra hno
    rw [streamAll_undefined [] hw BitArray.clean_empty (by decide) hno] at h
    cases h
  obtain ⟨dst', carry', e, hclean, hlt, hbits⟩ := streamAll_ok [] hw BitArray.clean_empty (by decide) hno
  obtain ⟨rfl, rfl⟩ := Prod.mk.inj (Except.ok.inj (h.symm.trans e))
  have hlen := congrArg List.length hbits
  have hexhaust := congrArg List.length (exhaustTo_bits dst hclean hlt)
  have hsum : (words.flatMap BitArray.bits).length = (words.map BitArray.size).sum := by
    rw [List.length_flatMap, List.map_congr_left fun b _ => BitArray.length_bits]
  rw [List.length_append, List.length_append, length_bits, hsum, BitArray.length_bits] at hlen
  rw [List.length_append, List.length_append, length_bits, length_bits, BitArray.length_bits,
    List.length_replicate, byteSize_eq] at hexhaust
  have hzero : ((bits ([] : List Byte)) ++ BitArray.bits ⟨0, 0⟩).length = 0 := rfl
  rw [hzero] at hlen
  omega

/-- **The code of a text fits**: a text has a tree, and neither at any time while its words are streamed nor
at the end are more bytes written than the buffer of `encode` has. -/
theorem encodeInto_fits (std : Heap) (hlen : inp.length < 2 ^ 64) :
    ∃ tree, build std (Make.count inp) = .ok tree ∧
      (∀ engine, spawnFastEngine tree = .ok engine → ∀ pre, pre <+: engine.words inp → ∀ dst carry,
        streamAll pre [] ⟨0, 0⟩ = .ok (dst, carry) →
        dst.length ≤ inp.length * maxEncodingSzPerByte + maxEncodingOverhead) ∧
      ∀ bytes, encodeInto inp tree = .ok bytes →
        bytes.length ≤ inp.length * maxEncodingSzPerByte + maxEncodingOverhead := by
  obtain ⟨tree, hb⟩ := build_count std hlen
  refine ⟨tree, hb, fun engine hs pre hpre dst carry h => ?_, fun bytes h => ?_⟩
  · have hsum := size_words_le hlen hb hs
    have hdst := (length_dst_le (fun w hw => (engineOk_of_spawn hs).words_clean w (hpre.subset hw)) h).1
    have hle := (hpre.sublist.map BitArray.size).sum_le_sum fun _ _ => Nat.zero_le _
    rw [maxEncodingSzPerByte, maxEncodingOverhead]
    omega
  · cases hs : spawnFastEngine tree with
    | error e =>
      unfold encodeInto at h
      rw [hs] at h
      cases h
    | ok engine =>
      have hsum := size_words_le hlen hb hs
      rw [encodeInto_text hs] at h
      cases hall : streamAll (engine.words inp) [] ⟨0, 0⟩ with
      | error e =>
        rw [hall] at h
        cases h
      | ok p =>
        rw [hall] at h
        obtain rfl := Except.ok.inj h
        have hbytes := (length_dst_le (engineOk_of_spawn hs).words_clean hall).2
        change (BitStream.exhaustTo p.1 p.2).1.length ≤ _
        rw [maxEncodingSzPerByte, maxEncodingOverhead]
        omega

theorem encodeInto_fits_sample : ∃ tree, build (sorted _) (Make.count [7, 3, 7]) = .ok tree ∧
    ∀ bytes, encodeInto [7, 3, 7] tree = .ok bytes → bytes.length ≤ 50 := by
  have hlen : ([7, 3, 7] : List Byte).length < 2 ^ 64 := by decide
  obtain ⟨tree, hb, -, hbytes⟩ := encodeInto_fits (sorted _) hlen
  exact ⟨tree, hb, hbytes⟩

theorem length_text_le (hok : EngineOk tree engine) (hleaf : ∀ c ∈ inp, tree.HasLeaf c) {pad : Nat}
    (hbits : bits bytes = (engine.words inp).flatMap BitArray.bits ++ List.replicate pad false) :
    inp.length ≤ 8 * bytes.length := by
  have hbytes := congrArg List.length hbits
  rw [length_bits, List.length_append, length_flatMap_words, FastEngine.words, List.map_append,
    List.sum_append, List.map_map] at hbytes
  have hone := List.card_nsmul_le_sum (inp.map (BitArray.size ∘ engine.bitRep)) 1 fun x hx => by
    obtain ⟨c, hc, rfl⟩ := List.mem_map.1 hx
    refine Nat.one_le_iff_ne_zero.2 fun h0 => ?_
    have hword := hok.word c (hleaf c hc)
    rw [List.length_eq_zero_iff.1 (BitArray.length_bits.trans h0), follow_nil, hok.delimTree] at hword
    exact (toDelimTree_spec tree).1 _ (Option.some.inj hword)
  rw [List.length_map, Nat.nsmul_eq_mul, Nat.mul_one] at hone
  omega

theorem tree_ok (hl : env.Lawful) (hm : ∀ n, env.alloc n = true) (hlen : inp.length < 2 ^ 64)
    (hb : build std (Make.count inp) = .ok tree) :
    (∀ c ∈ inp, tree.HasLeaf c) ∧ ∃ stream, serialize env tree = .ok stream ∧
      deserialize env stream = .ok tree ∧ stream.length < 2 ^ 64 := by
  obtain ⟨clamped, hclamp, -, hsum⟩ := clamp_count hlen
  have hleaves := (build_cost hb hclamp hsum).1
  obtain ⟨hheader, hwords⟩ := length_treeHeader tree
  obtain ⟨stream, hser, hdes⟩ := deserialize_serialize hl hm tree (by omega)
  refine ⟨fun c hc => build_hasLeaf hb ?_, stream, hser, hdes, length_serialize hleaves hser⟩
  rw [(count_spec hlen).2]
  exact (List.count_pos_iff.2 hc).ne'

theorem encode_undefined (hl : env.Lawful) (hm : ∀ n, env.alloc n = true) (hlen : inp.length < 2 ^ 64)
    (hfit : build std (Make.count inp) >>= spawnFastEngine = .ok engine)
    (hno : ¬ NoFullAligned 0 ((engine.words inp).map BitArray.size)) :
    encode std env inp = .error (.fault .undefined) := by
  obtain ⟨tree, hb, hs⟩ := bind_eq_ok hfit
  obtain ⟨-, stream, hser, -, -⟩ := tree_ok hl hm hlen hb
  unfold encode
  rw [hb]
  change (serialize env tree >>= _) = _
  rw [hser, ok_bind, encodeInto_text hs,
    streamAll_undefined [] (engineOk_of_spawn hs).words_clean BitArray.clean_empty (by decide) hno]
  change (fillString env _ (.error .undefined) >>= _) = _
  rw [fillString_error hm]
  rfl

theorem fillString_inv {sz : Nat} {r : HuffmanEncoder.Res (List Byte)} {bs : List Byte}
    (h : fillString env sz r = .ok bs) : r = .ok bs := by
  obtain ⟨_, -, h⟩ := bind_eq_ok h
  obtain ⟨bytes, hr, h⟩ := bind_eq_ok h
  obtain ⟨msg, hmsg, h⟩ := bind_eq_ok h
  unfold writeInto at hmsg
  split at hmsg
  · obtain rfl := Except.ok.inj hmsg
    obtain rfl := Except.ok.inj h
    rw [mapError_eq_ok hr, List.take_left]
  · cases hmsg

/-- **What `encode` returns decodes to its text**, whatever the code words are. -/
theorem decode_of_encode (hl : env.Lawful) (hm : ∀ n, env.alloc n = true)
    (hsz : (inp.length * maxEncodingSzPerByte + maxEncodingOverhead) * maxDecodingSzPerByte < 2 ^ 64)
    {bs : List Byte} (h : encode std env inp = .ok bs) : decode env bs = .ok inp := by
  rw [maxDecodingSzPerByte, maxEncodingSzPerByte, alphabetSize] at hsz
  obtain ⟨tree, hb, h⟩ := bind_eq_ok h
  obtain ⟨stream, hser, h⟩ := bind_eq_ok h
  obtain ⟨bytes, hfill, hput⟩ := bind_eq_ok h
  replace hb := mapError_eq_ok hb
  obtain ⟨hleaf, stream', hser', hdes, hstream⟩ := tree_ok hl hm (by omega) hb
  obtain rfl := Except.ok.inj (hser.symm.trans hser')
  have hcode := fillString_inv hfill
  obtain ⟨engine, hs, -⟩ := bind_eq_ok hcode
  have hok := engineOk_of_spawn hs
  rw [encodeInto_text hs] at hcode
  have hno : NoFullAligned 0 ((engine.words inp).map BitArray.size) := by
    by_contra hno
    rw [streamAll_undefined [] hok.words_clean BitArray.clean_empty (by decide) hno] at hcode
    cases hcode
  obtain ⟨dst, carry, pad, hall, hpad, hbits⟩ := streamAll_exhaustTo hok.words_clean hno []
  rw [hall] at hcode
  have hbytes : (BitStream.exhaustTo dst carry).1 = bytes := Except.ok.inj hcode
  rw [hbytes, bits_nil, List.nil_append] at hbits
  have hle := length_bytes_le (by omega) hb hs hpad hbits
  have htext := length_text_le hok hleaf hbits
  rw [maxEncodingSzPerByte] at hle
  have hwf : WellFormed env messageTy (bytes, stream, ()) := ⟨by
    change bytes.length * 1 < 2 ^ 64
    omega, by
    change stream.length * 1 < 2 ^ 64
    omega, trivial⟩
  obtain ⟨bs', hput', hget⟩ := integrityDeserialize_serialize hl hm hwf ⟨trivial, trivial, trivial⟩ 0
  obtain rfl := Except.ok.inj (hput.symm.trans hput')
  rw [decode, hget]
  change (deserialize env stream >>= fun model =>
    fillString env (sizeT (bytes.length * maxDecodingSzPerByte)) (decodeInto bytes model)) = _
  rw [hdes, ok_bind, decodeInto_text hs hleaf hbits, fillString_ok hm]
  rw [maxDecodingSzPerByte, alphabetSize, sizeT_of_lt (by omega)]
  omega

/-- **The round trip**: a text whose code words fit comes back exactly if none of its code words
fills a container from its begin on. -/
theorem decode_encode_text_iff (hl : env.Lawful) (hm : ∀ n, env.alloc n = true)
    (hsz : (inp.length * maxEncodingSzPerByte + maxEncodingOverhead) * maxDecodingSzPerByte < 2 ^ 64)
    (hfit : build std (Make.count inp) >>= spawnFastEngine = .ok engine) :
    (∃ bs, encode std env inp = .ok bs ∧ decode env bs = .ok inp) ↔
      NoFullAligned 0 ((engine.words inp).map BitArray.size) := by
  obtain ⟨tree, hb, hs⟩ := bind_eq_ok hfit
  have hok := engineOk_of_spawn hs
  rw [maxDecodingSzPerByte, alphabetSize] at hsz
  have hlen : inp.length < 2 ^ 64 := by
    rw [maxEncodingSzPerByte] at hsz
    omega
  obtain ⟨hleaf, stream, hser, hdes, hstream⟩ := tree_ok hl hm hlen hb
  constructor
  · rintro ⟨bs, henc, -⟩
    by_contra hno
    rw [encode_undefined hl hm hlen hfit hno] at henc
    cases henc
  · intro hno
    obtain ⟨dst, carry, pad, hall, hpad, hbits⟩ := streamAll_exhaustTo hok.words_clean hno []
    generalize hbytes : (BitStream.exhaustTo dst carry).1 = bytes at hbits
    rw [bits_nil, List.nil_append] at hbits
    have hle := length_bytes_le hlen hb hs hpad hbits
    have htext := length_text_le hok hleaf hbits
    have hcode : encodeInto inp tree = .ok bytes := by
      rw [encodeInto_text hs, hall, ← hbytes]
      rfl
    have hwf : WellFormed env messageTy (bytes, stream, ()) := ⟨by
        change bytes.length * 1 < 2 ^ 64
        omega, by
        change stream.length * 1 < 2 ^ 64
        omega, trivial⟩
    obtain ⟨bs, hput, hget⟩ := integrityDeserialize_serialize hl hm hwf ⟨trivial, trivial, trivial⟩ 0
    refine ⟨bs, ?_, ?_⟩
    · unfold encode
      rw [hb]
      dsimp only
      change (serialize env tree >>= _) = _
      rw [hser, ok_bind, hcode, fillString_ok hm (by rw [sizeT_of_lt (by omega)]; exact hle), ok_bind,
        hput]
    · unfold decode
      rw [hget]
      change (deserialize env stream >>= fun model =>
        fillString env (sizeT (bytes.length * maxDecodingSzPerByte)) (decodeInto bytes model)) = _
      rw [hdes, ok_bind, decodeInto_text hs hleaf hbits, fillString_ok hm]
      rw [maxDecodingSzPerByte, alphabetSize, sizeT_of_lt (by omega)]
      omega

theorem decode_encode_sampleText :
    ∃ bs, encode (sorted _) intEnv [7, 3, 7] = .ok bs ∧ decode intEnv bs = .ok [7, 3, 7] := by
  have hlen : ([7, 3, 7] : List Byte).length < 2 ^ 64 := by decide
  obtain ⟨clamped, hclamp, hcount, -⟩ := clamp_count hlen
  rw [hcount (List.cons_ne_nil _ _)] at hclamp
  have hsizes : ((build (sorted _) (Make.count [7, 3, 7]) >>= spawnFastEngine).map
      fun engine => (engine.words [7, 3, 7]).map BitArray.size) = .ok [2, 1, 2, 2] := by
    rw [build_eq hclamp (count_spec hlen).1]
    decide +kernel
  cases h : build (sorted _) (Make.count [7, 3, 7]) >>= spawnFastEngine with
  | error e =>
    rw [h] at hsizes
    cases hsizes
  | ok engine =>
    rw [h] at hsizes
    refine (decode_encode_text_iff intEnv_lawful (fun _ => rfl) (by decide) h).2 ?_
    rw [show (engine.words [7, 3, 7]).map BitArray.size = [2, 1, 2, 2] from Except.ok.inj hsizes]
    simp [noFullAligned_cons, noFullAligned_nil]

/-- A text of 27777890035287 bytes that are counted by `deepCounter`. -/
@[irreducible] def deepText : List Byte :=
  0 :: (List.range' 1 63).flatMap fun i => List.replicate (deepCounter.getD i 0) (BitVec.ofNat 8 i)

theorem length_deepText : deepText.length = 27777890035287 := by
  rw [deepText, List.length_cons, List.length_flatMap]
  simp only [List.length_replicate]
  decide +kernel

theorem count_deepText : Make.count deepText = deepCounter := by
  have hlt : deepText.length < 2 ^ 64 := by
    rw [length_deepText]
    decide
  obtain ⟨hlen, hget⟩ := count_spec hlt
  have hdeep : deepCounter.length = 256 := length_deepCounter
  refine List.ext_getElem (hlen.trans hdeep.symm) fun i h1 h2 => ?_
  have hi : i < 256 := lt_of_lt_of_eq h2 hdeep
  have hcount : ((List.range' 1 63).map fun j => if j = i then deepCounter.getD j 0 else 0).sum +
      (if 0 = i then 1 else 0) = deepCounter.getD i 0 := by
    rw [List.sum_map_eq_nsmul_single i _ fun j hj _ => if_neg hj, if_pos rfl, nsmul_eq_mul,
      Nat.cast_id]
    rcases Nat.eq_zero_or_pos i with rfl | hpos
    · rfl
    rw [if_neg (Nat.ne_of_lt hpos), Nat.add_zero]
    by_cases hi' : i < 64
    · have hm : i ∈ List.range' 1 63 := List.mem_range'_1.2 ⟨hpos, by omega⟩
      rw [List.count_eq_one_of_mem List.nodup_range' hm, Nat.one_mul]
    · have hm : i ∉ List.range' 1 63 := fun hm => hi' (by have := List.mem_range'_1.1 hm; omega)
      rw [List.count_eq_zero_of_not_mem hm, Nat.zero_mul]
      have hfib : (fibonacciCounts 64 1 1).length = 64 := rfl
      have hge : (fibonacciCounts 64 1 1).length ≤ i := hfib.le.trans (Nat.le_of_not_lt hi')
      rw [deepCounter, List.getD_eq_getElem?_getD, List.getElem?_append_right hge,
        List.getElem?_replicate, if_pos (by omega)]
      rfl
  have hbyte (j : Nat) (hj : j < 256) : (BitVec.ofNat 8 j == BitVec.ofNat 8 i) = true ↔ j = i := by
    rw [beq_iff_eq, BitVec.toNat_eq, BitVec.toNat_ofNat, BitVec.toNat_ofNat, Nat.mod_eq_of_lt hj,
      Nat.mod_eq_of_lt hi]
  have htext : deepText.count (BitVec.ofNat 8 i) = deepCounter.getD i 0 := by
    rw [← hcount, deepText, List.count_cons, List.count_flatMap]
    refine congrArg₂ (· + ·) (congrArg List.sum (List.map_congr_left fun j hj => ?_)) ?_
    · rw [List.mem_range'_1] at hj
      rw [Function.comp_apply, List.count_replicate, if_congr (hbyte j (by omega)) rfl rfl]
    · exact if_congr (hbyte 0 (by decide)) rfl rfl
  have h := hget (BitVec.ofNat 8 i)
  rw [htext, BitVec.toNat_ofNat, Nat.mod_eq_of_lt hi, List.getD_eq_getElem?_getD,
    List.getD_eq_getElem?_getD, List.getElem?_eq_getElem h1, List.getElem?_eq_getElem h2,
    Option.getD_some, Option.getD_some] at h
  exact h

/-- **The failing text**: its first byte has a word of 64 bits. -/
theorem decode_encode_deepText : ∃ engine,
    build (sorted _) (Make.count deepText) >>= spawnFastEngine = .ok engine ∧
      ¬ ∃ bs, encode (sorted _) intEnv deepText = .ok bs ∧
        decode intEnv bs = .ok deepText := by
  obtain ⟨engine, h, hsize⟩ := deepEngine_ok
  rw [count_deepText]
  refine ⟨engine, h, ?_⟩
  rintro ⟨bs, henc, -⟩
  rw [encode_undefined intEnv_lawful (fun _ => rfl) (by rw [length_deepText]; decide)
    (by rw [count_deepText, h])] at henc
  · cases henc
  · rw [deepText, words_cons, List.map_cons, hsize, noFullAligned_cons]
    exact fun hno => hno.1 ⟨rfl, Nat.dvd_zero _⟩

end HuffmanEncoder
