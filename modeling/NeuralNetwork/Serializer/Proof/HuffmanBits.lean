import NeuralNetwork.Serializer.Proof.HuffmanDecode

/-!
# Packing bits

`streamTo_ok`: a bit array goes behind the bits that are written and carried, unless it fills a
whole container and nothing is carried (`streamTo_undefined`).
-/

namespace HuffmanEncoder

open Cpp LittleEndian Loop ByteBits BitStream

/-! ## Bit arrays -/

namespace BitArray

def bits (b : BitArray) : List Bool := wordBits b.size b.container

/-- All bits of the container are bits of the array. -/
structure Clean (b : BitArray) : Prop where
  size_le : b.size ≤ 64
  zeros : ∀ i, b.size ≤ i → b.container.getLsbD i = false

variable {lhs rhs inp : BitArray}

theorem shifted_ok {amount : Nat} {v : BitVec 64} (h : amount < 64) : shifted amount v = .ok v :=
  if_pos h

@[simp] theorem length_bits : lhs.bits.length = lhs.size := length_wordBits

theorem clean_empty : Clean ⟨0, 0⟩ := ⟨by decide, fun i _ => BitVec.getLsbD_zero⟩

theorem ofBool_clean (c : Bool) : Clean (ofBool c) := by
  refine ⟨by change 1 ≤ 64; decide, fun i hi => ?_⟩
  change 1 ≤ i at hi
  cases c with
  | false => exact BitVec.getLsbD_zero
  | true =>
    change (1#64).getLsbD i = false
    rw [BitVec.getLsbD_one]
    simp
    omega

theorem ofBool_bits (c : Bool) : (ofBool c).bits = [c] := by
  cases c <;> rfl

theorem append_ok (hl : lhs.Clean) (hr : rhs.Clean) (hsz : lhs.size + rhs.size ≤ 64)
    (hlt : lhs.size < 64) :
    ∃ b, append lhs rhs = .ok b ∧ b.Clean ∧ b.size = lhs.size + rhs.size ∧
      b.bits = lhs.bits ++ rhs.bits := by
  refine ⟨⟨lhs.container ||| rhs.container <<< lhs.size, lhs.size + rhs.size⟩, ?_,
    ⟨hsz, fun i hi => ?_⟩, rfl, wordBits_or_shiftLeft hl.zeros hsz⟩
  · rw [append, shifted_ok hlt]
    rfl
  · dsimp only at hi
    rw [BitVec.getLsbD_or, hl.zeros i (by omega), BitVec.getLsbD_shiftLeft, hr.zeros _ (by omega)]
    simp

theorem split_ok (h : inp.Clean) (lhsSz : Nat) (hle : lhsSz ≤ inp.size) (hlt : lhsSz < 64) :
    ∃ l r, split inp lhsSz = .ok (l, r) ∧ l.Clean ∧ r.Clean ∧ l.size = lhsSz ∧
      r.size = inp.size - lhsSz ∧ l.bits ++ r.bits = inp.bits := by
  have hl (i : Nat) : ((inp.container >>> lhsSz) <<< lhsSz ^^^ inp.container).getLsbD i =
      (decide (i < lhsSz) && inp.container.getLsbD i) := by
    rw [BitVec.getLsbD_xor, BitVec.getLsbD_shiftLeft, BitVec.getLsbD_ushiftRight]
    by_cases hi : i < lhsSz
    · simp [hi]
    · by_cases hw : i < 64
      · simp [hi, hw, show lhsSz + (i - lhsSz) = i by omega]
      · simp [hi, hw, BitVec.getLsbD_of_ge inp.container i (by omega)]
  refine ⟨⟨(inp.container >>> lhsSz) <<< lhsSz ^^^ inp.container, lhsSz⟩,
    ⟨inp.container >>> lhsSz, inp.size - lhsSz⟩, ?_, ⟨by dsimp only; omega, fun i hi => ?_⟩,
    ⟨?_, fun i hi => ?_⟩, rfl, rfl, ?_⟩
  · rw [split, shifted_ok hlt, ok_bind, shifted_ok hlt]
    rfl
  · dsimp only at hi
    rw [hl, decide_eq_false (by omega), Bool.false_and]
  · have := h.size_le
    dsimp only
    omega
  · dsimp only at hi
    rw [BitVec.getLsbD_ushiftRight, h.zeros _ (by omega)]
  · have hsz : inp.size = lhsSz + (inp.size - lhsSz) := by omega
    rw [bits, bits, bits]
    conv_rhs => rw [hsz, wordBits_add]
    congr 1
    exact wordBits_congr fun i hi => by rw [hl, decide_eq_true hi, Bool.true_and]

theorem foldlM_append_ok (vec : List Bool) {rs : BitArray} (h : rs.Clean)
    (hsz : rs.size + vec.length ≤ 64) :
    ∃ b, vec.foldlM (fun rs c => append rs (ofBool c)) rs = .ok b ∧ b.Clean ∧
      b.bits = rs.bits ++ vec := by
  induction vec generalizing rs with
  | nil => exact ⟨rs, rfl, h, (List.append_nil _).symm⟩
  | cons c vec ih =>
    rw [List.length_cons] at hsz
    obtain ⟨b, hb, hclean, hsize, hbits⟩ := append_ok h (ofBool_clean c)
      (by change rs.size + 1 ≤ 64; omega) (by omega)
    have hsize' : b.size = rs.size + 1 := hsize
    obtain ⟨b', hb', hclean', hbits'⟩ := ih hclean (by omega)
    refine ⟨b', ?_, hclean', ?_⟩
    · rw [List.foldlM_cons, hb, ok_bind, hb']
    · rw [hbits', hbits, ofBool_bits, List.append_assoc]
      rfl

theorem toBitArray_ok {vec : List Bool} {b : BitArray} (h : toBitArray vec = .ok b) :
    b.Clean ∧ b.bits = vec := by
  unfold toBitArray at h
  split at h
  · cases h
  · rename_i hle
    obtain ⟨b', hb', hclean, hbits⟩ := foldlM_append_ok vec clean_empty (by
      have := not_not.1 hle
      change 0 + vec.length ≤ 64
      rw [arrayCap] at this
      omega)
    obtain rfl := Except.ok.inj (hb'.symm.trans h)
    exact ⟨hclean, hbits⟩

end BitArray

/-! ## Streaming -/

variable {src buf : BitArray}

/-- **Streaming a bit array** puts its bits behind those that are written and carried. -/
theorem streamTo_ok (dst : List Byte) (hs : src.Clean) (hb : buf.Clean) (hlt : buf.size < 64)
    (hfull : ¬ (src.size = 64 ∧ buf.size = 0)) :
    ∃ dst' buf', streamTo dst src buf = .ok (dst', buf') ∧ buf'.Clean ∧
      buf'.size = (buf.size + src.size) % 64 ∧
      bits dst' ++ buf'.bits = bits dst ++ buf.bits ++ src.bits := by
  unfold streamTo
  rw [BitArray.arrayCap]
  have hsize := hs.size_le
  by_cases hsz : buf.size + src.size < 64
  · obtain ⟨b, hap, hclean, hbsz, hbits⟩ := BitArray.append_ok hb hs (by omega) hlt
    refine ⟨dst, b, ?_, hclean, by rw [hbsz, Nat.mod_eq_of_lt hsz], ?_⟩
    · rw [if_pos hsz, hap]
      rfl
    · rw [hbits, List.append_assoc]
  · obtain ⟨l, r, hsp, hl, hr, hlsz, hrsz, hbits⟩ :=
      BitArray.split_ok hs (64 - buf.size) (by omega) (by omega)
    obtain ⟨b, hap, hclean, hbsz, hbbits⟩ := BitArray.append_ok hb hl (by omega) hlt
    have hcont : bits (dump 8 b.container) = b.bits := by
      rw [bits_dump, BitArray.bits, hbsz, hlsz, show buf.size + (64 - buf.size) = 8 * 8 by omega]
    refine ⟨dst ++ dump 8 b.container, r, ?_, hr, by rw [hrsz]; omega, ?_⟩
    · rw [if_neg hsz, hsp, ok_bind]
      dsimp only
      rw [hap]
      rfl
    · rw [bits_append, hcont, hbbits, ← hbits]
      simp only [List.append_assoc]

theorem streamTo_undefined (dst : List Byte) (hs : src.size = 64) (hb : buf.size = 0) :
    streamTo dst src buf = .error .undefined := by
  unfold streamTo
  rw [hs, hb, BitArray.arrayCap, if_neg (by decide)]
  rfl

/-- No array of `sizes` that fills a whole container begins where a container begins, when
`carry` bits are there already. -/
def NoFullAligned (carry : Nat) (sizes : List Nat) : Prop :=
  ∀ pre post, sizes = pre ++ 64 :: post → ¬ 64 ∣ carry + pre.sum

theorem noFullAligned_nil {carry : Nat} : NoFullAligned carry [] := by
  intro pre post h
  cases pre <;> cases h

theorem noFullAligned_cons {carry sz : Nat} {sizes : List Nat} :
    NoFullAligned carry (sz :: sizes) ↔
      ¬ (sz = 64 ∧ 64 ∣ carry) ∧ NoFullAligned (carry + sz) sizes := by
  constructor
  · refine fun h => ⟨fun ⟨hsz, hc⟩ => h [] sizes (by rw [hsz]; rfl) (by simpa using hc), ?_⟩
    intro pre post e hdvd
    refine h (sz :: pre) post (by rw [e]; rfl) ?_
    rwa [List.sum_cons, ← Nat.add_assoc]
  · rintro ⟨h0, h⟩ pre post e hdvd
    cases pre with
    | nil =>
      obtain ⟨rfl, rfl⟩ := List.cons.inj e
      exact h0 ⟨rfl, by simpa using hdvd⟩
    | cons s pre =>
      obtain ⟨rfl, rfl⟩ := List.cons.inj e
      rw [List.sum_cons, ← Nat.add_assoc] at hdvd
      exact h pre post rfl hdvd

theorem NoFullAligned.mod {carry : Nat} {sizes : List Nat} :
    NoFullAligned (carry % 64) sizes ↔ NoFullAligned carry sizes := by
  have h (n : Nat) : 64 ∣ carry % 64 + n ↔ 64 ∣ carry + n := by omega
  simp only [NoFullAligned, h]

def streamAll (words : List BitArray) (dst : List Byte) (buf : BitArray) :
    Res (List Byte × BitArray) :=
  words.foldlM (fun (dst, buf) src => streamTo dst src buf) (dst, buf)

variable {words : List BitArray}

theorem streamAll_ok (dst : List Byte)
    (hw : ∀ w ∈ words, w.Clean) (hb : buf.Clean) (hlt : buf.size < 64)
    (hno : NoFullAligned buf.size (words.map BitArray.size)) :
    ∃ dst' buf', streamAll words dst buf = .ok (dst', buf') ∧ buf'.Clean ∧ buf'.size < 64 ∧
      bits dst' ++ buf'.bits = bits dst ++ buf.bits ++ words.flatMap BitArray.bits := by
  induction words generalizing dst buf with
  | nil => exact ⟨dst, buf, rfl, hb, hlt, (List.append_nil _).symm⟩
  | cons w words ih =>
    rw [List.map_cons, noFullAligned_cons] at hno
    obtain ⟨hfull, hno⟩ := hno
    obtain ⟨dst1, buf1, hst, hb1, hsz1, hbits1⟩ :=
      streamTo_ok dst (hw w List.mem_cons_self) hb hlt fun ⟨hsz, hc⟩ =>
        hfull ⟨hsz, by rw [hc]; exact Nat.dvd_zero _⟩
    obtain ⟨dst2, buf2, hall, hb2, hlt2, hbits2⟩ := ih dst1
      (fun w h => hw w (List.mem_cons_of_mem _ h)) hb1 (by rw [hsz1]; omega)
      (by rw [hsz1]; exact NoFullAligned.mod.2 hno)
    refine ⟨dst2, buf2, ?_, hb2, hlt2, ?_⟩
    · rw [streamAll, List.foldlM_cons]
      dsimp only
      rw [hst, ok_bind]
      exact hall
    · rw [hbits2, hbits1, List.flatMap_cons, List.append_assoc, List.append_assoc]

theorem streamAll_undefined (dst : List Byte)
    (hw : ∀ w ∈ words, w.Clean) (hb : buf.Clean) (hlt : buf.size < 64)
    (hno : ¬ NoFullAligned buf.size (words.map BitArray.size)) :
    streamAll words dst buf = .error .undefined := by
  induction words generalizing dst buf with
  | nil => exact absurd noFullAligned_nil hno
  | cons w words ih =>
    rw [streamAll, List.foldlM_cons]
    dsimp only
    by_cases hfull : w.size = 64 ∧ buf.size = 0
    · rw [streamTo_undefined dst hfull.1 hfull.2]
      rfl
    · obtain ⟨dst1, buf1, hst, hb1, hsz1, -⟩ :=
        streamTo_ok dst (hw w List.mem_cons_self) hb hlt hfull
      rw [hst, ok_bind]
      refine ih dst1 (fun w h => hw w (List.mem_cons_of_mem _ h)) hb1 (by rw [hsz1]; omega) ?_
      rw [hsz1, NoFullAligned.mod]
      refine fun h => hno ?_
      rw [List.map_cons, noFullAligned_cons]
      exact ⟨fun ⟨h1, h2⟩ => hfull ⟨h1, by omega⟩, h⟩

/-! ## Exhausting -/

theorem exhaustBytes_bits (n : Nat) (v : BitVec 64) :
    bits (exhaustBytes n v).1 = wordBits (8 * n) v := by
  induction n generalizing v with
  | zero => rfl
  | succ n ih =>
    unfold exhaustBytes
    rw [show 8 * (n + 1) = 8 + 8 * n by ring, wordBits_add, ← ih]
    have hmask : ∀ i < 8, (255 : BitVec 64).getLsbD i = true := by decide
    refine congrArg (· ++ bits (exhaustBytes n (v >>> 8)).1) (wordBits_congr fun i hi => ?_)
    rw [BitVec.getLsbD_setWidth, BitVec.getLsbD_and, hmask i hi]
    simp [hi]

/-- **The end of a stream**: the carry is written, filled up with zeros to whole bytes. -/
theorem exhaustTo_bits (dst : List Byte) (hb : buf.Clean) (hlt : buf.size < 64) :
    bits (exhaustTo dst buf).1 = bits dst ++ buf.bits ++
      List.replicate (8 * ByteArray.byteSize buf.size - buf.size) false := by
  have hbsz : buf.size ≤ 8 * ByteArray.byteSize buf.size := by
    unfold ByteArray.byteSize ByteArray.slot
    split <;> omega
  have hfill : wordBits (8 * ByteArray.byteSize buf.size) buf.container = buf.bits ++
      List.replicate (8 * ByteArray.byteSize buf.size - buf.size) false := by
    conv_lhs => rw [show 8 * ByteArray.byteSize buf.size =
      buf.size + (8 * ByteArray.byteSize buf.size - buf.size) by omega, wordBits_add]
    refine congrArg (buf.bits ++ ·) (List.eq_replicate_iff.2 ⟨length_wordBits, fun b h => ?_⟩)
    obtain ⟨i, -, rfl⟩ := List.mem_map.1 h
    rw [BitVec.getLsbD_ushiftRight, hb.zeros _ (Nat.le_add_right _ _)]
  unfold exhaustTo
  dsimp only
  rw [List.append_assoc, ← hfill]
  split
  · rename_i h8
    rw [h8, bits_append, bits_dump]
  · rw [bits_append, exhaustBytes_bits]

theorem byteSize_eq (n : Nat) : ByteArray.byteSize n = (n + 7) / 8 := by
  unfold ByteArray.byteSize ByteArray.slot
  split <;> omega

/-- **A whole stream**: the bits of the words behind the old ones, and less than a byte of zeros. -/
theorem streamAll_exhaust (hw : ∀ w ∈ words, w.Clean) (hb : buf.Clean)
    (hlt : buf.size < 64) (hno : NoFullAligned buf.size (words.map BitArray.size)) (dst : List Byte) :
    ∃ dst' buf' pad, streamAll words dst buf = .ok (dst', buf') ∧ pad < 8 ∧
      bits (exhaustTo dst' buf').1 = bits dst ++ buf.bits ++ words.flatMap BitArray.bits ++
        List.replicate pad false := by
  obtain ⟨dst', buf', hall, hclean, hlt', hbits⟩ := streamAll_ok dst hw hb hlt hno
  refine ⟨dst', buf', 8 * ByteArray.byteSize buf'.size - buf'.size, hall, ?_, ?_⟩
  · rw [byteSize_eq]
    omega
  · rw [exhaustTo_bits dst' hclean hlt', hbits]

theorem streamAll_exhaustTo (hw : ∀ w ∈ words, w.Clean)
    (hno : NoFullAligned 0 (words.map BitArray.size)) (dst : List Byte) :
    ∃ dst' buf' pad, streamAll words dst ⟨0, 0⟩ = .ok (dst', buf') ∧ pad < 8 ∧
      bits (exhaustTo dst' buf').1 = bits dst ++ words.flatMap BitArray.bits ++
        List.replicate pad false := by
  obtain ⟨dst', buf', pad, hall, hpad, hbits⟩ :=
    streamAll_exhaust hw BitArray.clean_empty (by decide) hno dst
  exact ⟨dst', buf', pad, hall, hpad, by rw [hbits, show BitArray.bits ⟨0, 0⟩ = [] from rfl, List.append_nil]⟩

/-- **Bit packing**: streaming arrays behind a carry and exhausting it writes their bits, one behind the
other and filled up with zeros to a whole byte, exactly if no array of 64 bits begins where a container
begins. -/
theorem stream_exhaust_iff {words : List BitArray} (hw : ∀ w ∈ words, w.Clean) (hb : buf.Clean)
    (hlt : buf.size < BitArray.arrayCap) (dst : List Byte) :
    (∃ dst' buf' pad, streamAll words dst buf = .ok (dst', buf') ∧ pad < 8 ∧
      bits (exhaustTo dst' buf').1 = bits dst ++ buf.bits ++ words.flatMap BitArray.bits ++
        List.replicate pad false) ↔ NoFullAligned buf.size (words.map BitArray.size) := by
  constructor
  · rintro ⟨dst', buf', pad, hall, -, -⟩
    by_contra hno
    rw [streamAll_undefined dst hw hb hlt hno] at hall
    cases hall
  · intro hno
    exact streamAll_exhaust hw hb hlt hno dst

/-- 64 bits behind one that is carried. -/
theorem stream_exhaust_sample : ∃ dst' buf' pad,
    streamAll [⟨BitVec.allOnes 64, 64⟩] [] ⟨1, 1⟩ = .ok (dst', buf') ∧ pad < 8 ∧
      bits (exhaustTo dst' buf').1 = bits [] ++ BitArray.bits ⟨1, 1⟩ ++
        [(⟨BitVec.allOnes 64, 64⟩ : BitArray)].flatMap BitArray.bits ++ List.replicate pad false := by
  have hw : ∀ w ∈ [(⟨BitVec.allOnes 64, 64⟩ : BitArray)], w.Clean := by
    intro w hw
    obtain rfl := List.mem_singleton.1 hw
    exact ⟨le_rfl, fun i hi => BitVec.getLsbD_of_ge _ _ hi⟩
  refine (stream_exhaust_iff hw (BitArray.ofBool_clean true) (by decide) []).2 ?_
  simp [noFullAligned_cons, noFullAligned_nil, BitArray.ofBool]

/-- 64 bits and nothing carried. -/
theorem stream_exhaust_fails : ¬ ∃ dst' buf' pad,
    streamAll [⟨BitVec.allOnes 64, 64⟩] [] ⟨0, 0⟩ = .ok (dst', buf') ∧ pad < 8 ∧
      bits (exhaustTo dst' buf').1 = bits [] ++ BitArray.bits ⟨0, 0⟩ ++
        [(⟨BitVec.allOnes 64, 64⟩ : BitArray)].flatMap BitArray.bits ++ List.replicate pad false := by
  rintro ⟨dst', buf', pad, hall, -, -⟩
  rw [streamAll, List.foldlM_cons] at hall
  dsimp only at hall
  rw [streamTo_undefined [] rfl rfl] at hall
  cases hall

end HuffmanEncoder
