import NeuralNetwork.Lib.ByteBits
import NeuralNetwork.Matrix.EncoderDecoder

/-!
# What the token encoder and decoder round-trip

`push_bit` sets every bit it writes, so a `BitStream` is a row of ones (`Ones`) whatever is written
to it. Hence a sequence of writes reads back exactly when every word is all ones at its width, and
the decoder returns a fixed string that depends on the shape only (`decode_ones`).
-/

namespace MatrixCodec

open Cpp Loop ByteBits

variable {F : Type}

/-! ## The stream is a row of ones -/

/-- The bits written are ones, the rest of the last byte is zero. -/
def Ones (s : BitStream) : Prop :=
  ∀ i, bitAt s.streamContainer i = decide (i < s.offset)

theorem ones_empty : Ones .empty := fun i => by simp [bitAt, BitStream.empty]

variable {s : BitStream}

theorem bitAt_room (i : Nat) : bitAt s.room i = bitAt s.streamContainer i := by
  unfold BitStream.room
  split
  · by_cases h : i < 8 * s.streamContainer.length
    · exact bitAt_append_left h
    · rw [bitAt_append_right (by omega)]
      simp only [bitAt, List.getD_eq_getElem?_getD, List.getElem?_eq_none
        (show s.streamContainer.length ≤ i / 8 by omega)]
      cases (i - 8 * s.streamContainer.length) / 8 <;> simp
  · rfl

theorem Ones.pushBit (h : Ones s) (b : Bool) : Ones (s.pushBit b) := fun i => by
  have hlen := s.length_room
  have h8 : s.offset / charBit < s.room.length := by rw [hlen]; simp only [charBit]; omega
  have hj : s.offset % charBit < 8 := Nat.mod_lt _ (by decide)
  have hset := bitAt_set_or (i := i) h8 hj
  rw [bitAt_room, h i, show 8 * (s.offset / charBit) + s.offset % charBit = s.offset from
    Nat.div_add_mod ..] at hset
  refine hset.trans ?_
  rw [Bool.eq_iff_iff, Bool.or_eq_true]
  simp only [decide_eq_true_eq]
  exact (Nat.lt_succ_iff_lt_or_eq (m := i) (n := s.offset)).symm

theorem Ones.writeUint64 (h : Ones s) (word : BitVec 64) (n : Nat) :
    Ones (s.writeUint64 word n) ∧ (s.writeUint64 word n).offset = s.offset + n := by
  induction n generalizing s word with
  | zero => exact ⟨h, rfl⟩
  | succ n ih =>
    obtain ⟨h1, h2⟩ := ih (h.pushBit (word.getLsbD 0)) (word >>> 1)
    refine ⟨h1, h2.trans ?_⟩
    simp only [BitStream.pushBit]
    omega

/-! ## Reading -/

variable {data : List Byte}

theorem readBitAt_ok {idx : Nat} (h : idx < data.length * charBit) :
    readBitAt data idx = .ok (bitAt data idx) := by
  have hbit : ∀ (b : Byte) (k : Nat), ((b >>> k) &&& 1 != 0) = b.getLsbD k := fun b k => by
    have e : ((b >>> k) &&& 1).toNat = (b.getLsbD k).toNat := by
      rw [BitVec.toNat_and, BitVec.toNat_ushiftRight]
      exact (Nat.and_one_is_mod _).trans (by
        rw [← BitVec.testBit_toNat, Nat.testBit_eq_decide_div_mod_eq, Nat.shiftRight_eq_div_pow]
        rcases Nat.mod_two_eq_zero_or_one (b.toNat / 2 ^ k) with h | h <;> simp [h])
    cases hb : b.getLsbD k with
    | false =>
      rw [hb] at e
      rw [show (b >>> k) &&& 1 = 0 from BitVec.eq_of_toNat_eq e]
      rfl
    | true =>
      rw [hb] at e
      rw [show (b >>> k) &&& 1 = 1 from BitVec.eq_of_toNat_eq e]
      rfl
  rw [readBitAt, if_neg (by omega)]
  simp only [hbit]
  rfl

theorem readBits_ok {last n : Nat} (hlast : last ≤ data.length * 8) (hn : n ≤ last) (h64 : n ≤ 64) :
    ∃ v, readBits data last n = .ok v ∧
      ∀ k, v.getLsbD k = (decide (k < n) && bitAt data (last - n + k)) := by
  refine forLoop_ok
    (fun i (v : BitVec 64) => ∀ k, v.getLsbD k = (decide (k < i) && bitAt data (last - i + k)))
    (fun k => by simp) fun i hi v hv => ?_
  have hb : readBitAt data (last - (i + 1)) = .ok (bitAt data (last - (i + 1))) :=
    readBitAt_ok (by simp only [charBit]; omega)
  refine ⟨_, by simp only [hb, ok_bind]; rfl, fun k => ?_⟩
  rw [BitVec.getLsbD_or, BitVec.getLsbD_shiftLeft, BitVec.getLsbD_setWidth, BitVec.getLsbD_ofBool]
  cases k with
  | zero => simp
  | succ k =>
    have e : last - (i + 1) + (k + 1) = last - i + k := by omega
    rw [Nat.add_sub_cancel, hv, e]
    by_cases hk : k < i
    · simp [hk, show k + 1 < 64 by omega]
    · simp [hk]

theorem readUint64_ok {r : BitStreamReader} {w last : Nat} (hr : r.offset ≤ r.data.length * 8)
    (h1 : 1 ≤ w) (h64 : w ≤ 64) (hlast : last = min (r.offset + w) (r.data.length * 8)) :
    (last = r.offset ∧ r.readUint64 w = .ok (none, r)) ∨
    (r.offset < last ∧ ∃ v, r.readUint64 w = .ok (some v, { r with offset := last }) ∧
      ∀ k, v.getLsbD k = (decide (k < last - r.offset) && bitAt r.data (r.offset + k))) := by
  simp only [BitStreamReader.readUint64, if_neg (show ¬ w > 64 by omega),
    if_neg (show ¬ w = 0 by omega), charBit, ← hlast]
  by_cases h0 : last - r.offset = 0
  · exact .inl ⟨by omega, by simp only [if_pos h0]⟩
  obtain ⟨v, e, hv⟩ := readBits_ok (n := last - r.offset)
    (show last ≤ r.data.length * 8 by omega) (by omega) (by omega)
  have e' : last - (last - r.offset) = r.offset := by omega
  rw [e'] at hv
  exact .inr ⟨by omega, v, by simp only [if_neg h0, e, ok_bind], hv⟩

def readBack (r : BitStreamReader) : List Nat → Except Fault (List (Option (BitVec 64)))
  | [] => .ok []
  | w :: ws => do
    let (v, r) ← r.readUint64 w
    let vs ← readBack r ws
    .ok (v :: vs)

def writeAll (ops : List (BitVec 64 × Nat)) : BitStream :=
  ops.foldl (fun s op => s.writeUint64 op.1 op.2) .empty

theorem ones_foldl (ops : List (BitVec 64 × Nat)) (h : Ones s) :
    Ones (ops.foldl (fun s op => s.writeUint64 op.1 op.2) s) ∧
      (ops.foldl (fun s op => s.writeUint64 op.1 op.2) s).offset =
        s.offset + (ops.map Prod.snd).sum := by
  induction ops generalizing s with
  | nil => exact ⟨h, rfl⟩
  | cons op ops ih =>
    obtain ⟨h1, h2⟩ := h.writeUint64 op.1 op.2
    obtain ⟨h3, h4⟩ := ih h1
    refine ⟨h3, ?_⟩
    simp only [List.foldl_cons, List.map_cons, List.sum_cons]
    omega

theorem readBack_ones (h : Ones s) {ws : List Nat} {offset : Nat}
    (hw : ∀ w ∈ ws, w ≤ 64) (hsum : offset + ws.sum ≤ s.offset) :
    readBack ⟨s.get, offset⟩ ws = .ok (ws.map fun w => some (BitVec.ofNat 64 (2 ^ w - 1))) := by
  have hlen : s.offset ≤ s.get.length * 8 := by
    have := s.size_eq
    simp only [BitStream.get, charBit] at *; omega
  induction ws generalizing offset with
  | nil => rfl
  | cons w ws ih =>
    rw [List.sum_cons] at hsum
    have hw0 := hw w List.mem_cons_self
    have ih' := ih (fun w h => hw w (List.mem_cons_of_mem _ h))
      (show offset + w + ws.sum ≤ s.offset by omega)
    rcases Nat.eq_zero_or_pos w with rfl | hpos
    · simp only [readBack, BitStreamReader.readUint64, if_neg (show ¬ 0 > 64 by decide), ok_bind,
        if_true]
      rw [Nat.add_zero] at ih'
      rw [ih']
      rfl
    · have hlast : offset + w = min (offset + w) (s.get.length * 8) := by omega
      rcases readUint64_ok (r := ⟨s.get, offset⟩) (by dsimp only; omega) hpos hw0 hlast with
        ⟨h0, -⟩ | ⟨-, v, e, hv⟩
      · dsimp only at h0; omega
      · have hones : ∀ k, v.getLsbD k = decide (k < w) := fun k => by
          rw [hv, show (offset + w) - offset = w by omega]
          simp only [BitStream.get]
          rw [h]
          by_cases hk : k < w
          · simp [hk]; omega
          · simp [hk]
        have hval : v = BitVec.ofNat 64 (2 ^ w - 1) := by
          rw [← toNat_of_getLsbD_ones hones, BitVec.ofNat_toNat, BitVec.setWidth_eq]
        simp only [readBack, e, ok_bind, ih', List.map_cons, hval]

theorem eq_replicate_of_ones {bs : List Byte} (h : ∀ i < 8 * bs.length, bitAt bs i = true) :
    bs = List.replicate bs.length 255 :=
  eq_of_bitAt (by simp) fun i hi => by
    rw [h i hi, bitAt_replicate hi]
    have : ∀ k < 8, (255 : Byte).getLsbD k = true := by decide
    exact (this _ (Nat.mod_lt _ (by decide))).symm

/-! ## Filling and flattening a matrix -/

theorem readVector_ok {α : Type} {read : List F → Except Fault (α × List F)} {flat : α → List F}
    {m : Nat} (hread : ∀ xs, m ≤ xs.length → ∃ a, read xs = .ok (a, xs.drop m) ∧
      flat a = xs.take m) (n : Nat) (xs : List F) (h : n * m ≤ xs.length) :
    ∃ v, readVector read n xs = .ok (v, xs.drop (n * m)) ∧
      v.toList.flatMap flat = xs.take (n * m) := by
  induction n with
  | zero => exact ⟨#v[], by simp [readVector], by simp⟩
  | succ n ih =>
    rw [Nat.succ_mul] at h
    obtain ⟨v, e, hv⟩ := ih (by omega)
    obtain ⟨a, ea, ha⟩ := hread (xs.drop (n * m)) (by rw [List.length_drop]; omega)
    refine ⟨v.push a, ?_, ?_⟩
    · simp only [readVector, e, ea, ok_bind, List.drop_drop, Nat.succ_mul]
    · rw [Vector.toList_push, List.flatMap_append, hv, Nat.succ_mul, List.take_add]
      simp [ha]

theorem makeMatrix_ok {b p : Nat} (hb : b ≠ 0) (hp : p ≠ 0) {xs : List F}
    (hxs : xs.length = b * (p * (8 * (2 * 1)))) :
    ∃ m, makeMatrixFromFlatVec [b, p, processGroupProcessUnitDimensionSz,
      processUnitLogitVecDimensionSz] xs = .ok m ∧ flatten m = xs := by
  have hlogit : ∀ xs : List F, 1 ≤ xs.length →
      ∃ a, nextLogit xs = .ok (a, xs.drop 1) ∧ [a] = xs.take 1 := by
    intro xs hxs
    cases xs with
    | nil => simp at hxs
    | cons x xs => exact ⟨x, rfl, rfl⟩
  have hunit : ∀ xs : List F, 2 * 1 ≤ xs.length → ∃ a, readUnit xs = .ok (a, xs.drop (2 * 1)) ∧
      a.logitVec.toList = xs.take (2 * 1) := fun xs hxs => by
    obtain ⟨v, e, hv⟩ := readVector_ok hlogit processUnitLogitVecDimensionSz xs hxs
    rw [List.flatMap_singleton'] at hv
    exact ⟨⟨v⟩, by simp only [readUnit, e, ok_bind]; rfl, hv⟩
  have hgroup : ∀ xs : List F, 8 * (2 * 1) ≤ xs.length →
      ∃ a, readGroup xs = .ok (a, xs.drop (8 * (2 * 1))) ∧ a.flat = xs.take (8 * (2 * 1)) :=
    fun xs hxs => by
      obtain ⟨v, e, hv⟩ := readVector_ok hunit processGroupProcessUnitDimensionSz xs hxs
      exact ⟨⟨v⟩, by simp only [readGroup, e, ok_bind]; rfl, hv⟩
  have hbeing : ∀ xs : List F, p * (8 * (2 * 1)) ≤ xs.length →
      ∃ a, readBeing p xs = .ok (a, xs.drop (p * (8 * (2 * 1)))) ∧
        a.flat = xs.take (p * (8 * (2 * 1))) := fun xs hxs => by
    obtain ⟨v, e, hv⟩ := readVector_ok hgroup p xs hxs
    exact ⟨⟨p, v⟩, by simp only [readBeing, e, ok_bind], hv⟩
  obtain ⟨v, e, hv⟩ := readVector_ok hbeing b xs (by omega)
  refine ⟨⟨b, v⟩, ?_, ?_⟩
  · simp only [makeMatrixFromFlatVec, checkShape, if_neg hb, if_neg hp, ne_eq, not_true_eq_false,
      if_false, ok_bind, e]
  · rw [flatten, hv, ← hxs, List.take_length]

/-! ## The encoder goes through -/

section
variable [Zero F] [One F]

theorem enumerationSz_eq {w : Nat} (h : w ≤ 63) : enumerationSz w = 2 ^ w := by
  have : 2 ^ w ≤ 2 ^ 63 := Nat.pow_le_pow_right (by decide) h
  rw [enumerationSz, Nat.one_shiftLeft, sizeT_of_lt (by omega)]

def words (w n : Nat) : Nat := (n + w - 1) / w

theorem encodeLoop_ok {w fuel : Nat} {r : BitStreamReader} (flat : List F) (h1 : 1 ≤ w)
    (h63 : w ≤ 63) (hr : r.offset ≤ r.data.length * 8)
    (hfuel : r.data.length * 8 - r.offset < fuel) :
    ∃ flat', encodeLoop w fuel r flat = .ok flat' ∧
      flat'.length = flat.length + words w (r.data.length * 8 - r.offset) * 2 ^ w := by
  induction fuel generalizing r flat with
  | zero => omega
  | succ fuel ih =>
    rcases readUint64_ok hr h1 (by omega) rfl with ⟨h0, e⟩ | ⟨hlt, v, e, hv⟩
    · refine ⟨flat, by simp only [encodeLoop, e, ok_bind], ?_⟩
      rw [words, show r.data.length * 8 - r.offset + w - 1 = w - 1 by omega,
        Nat.div_eq_of_lt (by omega), Nat.zero_mul, Nat.add_zero]
    · have hlt64 : v.toNat < 2 ^ w := toNat_lt_of_getLsbD fun k hk => by
        rw [hv, decide_eq_false (by omega), Bool.false_and]
      obtain ⟨flat', e', hlen⟩ := ih (r := { r with
          offset := min (r.offset + w) (r.data.length * 8) })
        (flat ++ (List.replicate (2 ^ w) 0).set v.toNat 1) (by dsimp only; omega)
        (by dsimp only; omega)
      refine ⟨flat', ?_, ?_⟩
      · simp only [encodeLoop, e, ok_bind, binarize, enumerationSz_eq h63,
          if_neg (show ¬ v.toNat ≥ 2 ^ w by omega), e']
      · rw [hlen, List.length_append, List.length_set, List.length_replicate, Nat.add_assoc,
          Nat.add_left_cancel_iff, Nat.add_comm (2 ^ w), ← Nat.succ_mul]
        congr 1
        simp only [words]
        rcases Nat.le_total (r.offset + w) (r.data.length * 8) with hle | hle
        · rw [Nat.min_eq_left hle, Nat.succ_eq_add_one, ← Nat.add_div_right _ (by omega)]
          congr 1; omega
        · rw [Nat.min_eq_right hle, Nat.sub_self, Nat.div_eq_of_lt (by omega)]
          exact (Nat.div_eq_of_lt_le (by omega) (by omega)).symm

structure FixedMatrixShaper.Accepted (m : FixedMatrixShaper) : Prop where
  being : m.beingVecSz ≠ 0
  group : m.beingProcessGroupVecSz ≠ 0
  size : m.beingVecSz * m.beingProcessGroupVecSz * processGroupProcessUnitDimensionSz *
    processUnitLogitVecDimensionSz ≤ floatVectorMaxSize

def FixedMatrixShaper.logits (m : FixedMatrixShaper) : Nat :=
  m.beingVecSz * m.beingProcessGroupVecSz * processGroupProcessUnitDimensionSz *
    processUnitLogitVecDimensionSz

variable {m : FixedMatrixShaper}

omit [One F] in
theorem toMatrix_ok (hm : m.Accepted) {flat : List F} (h : flat.length ≤ m.logits) :
    ∃ x, m.toMatrix flat = .ok x ∧ (flatten x).length = m.logits := by
  have hsz := hm.size
  have hexp : m.expectedFlatSz = m.logits :=
    sizeT_of_lt (by simp only [floatVectorMaxSize] at hsz; omega)
  have hlen : (flat ++ List.replicate (m.logits - flat.length) 0).length = m.logits := by
    rw [List.length_append, List.length_replicate]; omega
  have hprod : m.logits = m.beingVecSz * (m.beingProcessGroupVecSz * (8 * (2 * 1))) := by
    simp only [FixedMatrixShaper.logits, processGroupProcessUnitDimensionSz,
      processUnitLogitVecDimensionSz, Nat.mul_assoc]
  obtain ⟨x, e, hx⟩ := makeMatrix_ok hm.being hm.group (hlen.trans hprod)
  refine ⟨x, ?_, by rw [hx, hlen]⟩
  simp only [FixedMatrixShaper.toMatrix, hexp, if_neg (show ¬ flat.length > m.logits by omega),
    if_neg (show ¬ m.logits > floatVectorMaxSize from Nat.not_lt.2 hsz), e]

theorem encode_ok {w : Nat} {data : List Byte} (h1 : 1 ≤ w) (h63 : w ≤ 63) (hm : m.Accepted)
    (hfit : words w (data.length * 8) * 2 ^ w ≤ m.logits) :
    ∃ x : Matrix F, encode w m data = .ok x ∧ (flatten x).length = m.logits := by
  have hfuel : data.length * 8 - 0 < data.length * charBit + 1 := by simp only [charBit]; omega
  obtain ⟨flat, e, hlen⟩ := encodeLoop_ok (F := F) (r := ⟨data, 0⟩) [] h1 h63 (Nat.zero_le _) hfuel
  rw [List.length_nil, Nat.zero_add, Nat.sub_zero] at hlen
  obtain ⟨x, ex, hx⟩ := toMatrix_ok hm (show flat.length ≤ m.logits by rw [hlen]; exact hfit)
  exact ⟨x, by simp only [encode, safeNonZeroAccess, if_neg (show ¬ w = 0 by omega), ok_bind, e,
    ex], hx⟩

end

/-! ## The decoder returns a row of ones -/

section
variable [LT F] [DecidableLT F]

theorem maxElementFrom_lt (ys : List F) (i best : Nat) (m : F) (hb : best < i) :
    maxElementFrom ys i best m < i + ys.length := by
  induction ys generalizing i best m with
  | nil => exact hb
  | cons y ys ih =>
    rw [maxElementFrom, List.length_cons]
    split
    · have := ih (i + 1) i y (by omega); omega
    · have := ih (i + 1) best m (by omega); omega

theorem maxElement_lt (xs : List F) {n : Nat} (hn : 0 < n) (h : xs.length ≤ n) :
    maxElement xs < n := by
  cases xs with
  | nil => exact hn
  | cons x xs =>
    have := maxElementFrom_lt xs 1 0 x (by omega)
    rw [List.length_cons] at h
    rw [maxElement]; omega

/-- The number of blocks of `2 ^ w` logits, the last one possibly short. -/
def blocks (w n : Nat) : Nat := n / 2 ^ w + (decide (n % 2 ^ w ≠ 0)).toNat

variable {w : Nat}

theorem decodeEnumeration_ok (h63 : w ≤ 63) (x : Matrix F) :
    ∃ es, decodeEnumeration w (some x) = .ok es ∧ es.length = blocks w (flatten x).length ∧
      ∀ e ∈ es, e < 2 ^ w := by
  refine ⟨_, rfl, by rw [List.length_map, List.length_range, enumerationSz_eq h63]; rfl,
    fun e he => ?_⟩
  obtain ⟨i, -, rfl⟩ := List.mem_map.1 he
  refine maxElement_lt _ (Nat.two_pow_pos w) ?_
  have hle : sizeT ((i + 1) * enumerationSz w) ≤ (i + 1) * enumerationSz w := Nat.mod_le _ _
  rw [enumerationSz_eq h63, Nat.succ_mul] at hle
  rw [List.length_take, enumerationSz_eq h63, Nat.succ_mul]
  generalize 2 ^ w = n at hle ⊢
  omega

theorem decodeStringLoop_ok (h63 : w ≤ 63) {es : List Nat} (hes : ∀ e ∈ es, e < 2 ^ w) (hs : Ones s) :
    ∃ s', decodeStringLoop w es s = .ok s' ∧ Ones s' ∧ s'.offset = s.offset + es.length * w := by
  induction es generalizing s with
  | nil => exact ⟨s, rfl, hs, by simp⟩
  | cons e es ih =>
    obtain ⟨h1, h2⟩ := hs.writeUint64 (BitVec.ofNat 64 e) w
    obtain ⟨s', e', h3, h4⟩ := ih (fun x hx => hes x (List.mem_cons_of_mem _ hx)) h1
    have he := hes e List.mem_cons_self
    refine ⟨s', ?_, h3, ?_⟩
    · rw [decodeStringLoop, enumerationSz_eq h63, if_neg (by omega), e']
    · rw [h4, h2, List.length_cons, Nat.succ_mul]; omega

/-- **The decoder's output** depends only on the number of logits: one bit for each bit of each
block's word, all of them set. -/
theorem decode_ones (h1 : 1 ≤ w) (h63 : w ≤ 63) (x : Matrix F) :
    ∃ s, decode w (some x) = .ok s.get ∧ Ones s ∧ s.offset = blocks w (flatten x).length * w := by
  obtain ⟨es, e, hlen, hes⟩ := decodeEnumeration_ok h63 x
  obtain ⟨s, e', hs, ho⟩ := decodeStringLoop_ok h63 hes ones_empty
  refine ⟨s, ?_, hs, by rw [ho, hlen]; exact Nat.zero_add _⟩
  simp only [decode, safeNonZeroAccess, if_neg (show ¬ w = 0 by omega), ok_bind, e, e']

end

/-! ## What round-trips -/

/-- A row of ones starts with `data` and goes on with zero bytes only if it is `data`, and `data`
is a row of `0xFF` bytes. -/
theorem ones_eq_append_iff (hs : Ones s) (hle : data.length * 8 ≤ s.offset) :
    (∃ z, s.get = data ++ List.replicate z 0) ↔
      data = List.replicate data.length 255 ∧ data.length * 8 = s.offset := by
  have hsize := s.size_eq
  simp only [charBit, BitStream.get] at *
  constructor
  · rintro ⟨z, hz⟩
    have hdata : ∀ i < 8 * data.length, bitAt data i = true := fun i hi => by
      rw [← bitAt_append_left hi, ← hz, hs i]
      simp only [decide_eq_true_eq]; omega
    refine ⟨eq_replicate_of_ones hdata, ?_⟩
    by_contra hne
    have hone := hs (8 * data.length)
    rw [hz, bitAt_append_right (Nat.le_refl _), Nat.sub_self, decide_eq_true (by omega)] at hone
    have hzero : bitAt (List.replicate z 0) 0 = false := by
      cases z <;> simp [bitAt, List.replicate_succ]
    rw [hzero] at hone
    cases hone
  · rintro ⟨hd, hn⟩
    refine ⟨0, ?_⟩
    rw [List.replicate_zero, List.append_nil, hd]
    have hlen : s.streamContainer.length = data.length := by omega
    rw [← hlen]
    exact eq_replicate_of_ones fun i hi => by rw [hs i]; simp only [decide_eq_true_eq]; omega

/-- **What round-trips.** For every accepted width, shape and string that fits, the decoded string is the
data followed by zero bytes exactly when the data is a row of `0xFF` bytes as long as the decoder's output. A
sequence of writes reads back exactly when every word is all ones at its width. -/
theorem roundTrip_iff {F : Type} [Zero F] [One F] [LT F] [DecidableLT F] :
    (∀ (w : Nat) (m : FixedMatrixShaper) (data : List Byte), 1 ≤ w → w ≤ 63 → m.Accepted →
      words w (data.length * 8) * 2 ^ w ≤ m.logits →
      ∃ (x : Matrix F) (out : List Byte), encode w m data = .ok x ∧ decode w (some x) = .ok out ∧
        ((∃ z, out = data ++ List.replicate z 0) ↔
          data = List.replicate data.length 255 ∧ data.length * 8 = blocks w m.logits * w)) ∧
    ∀ ops : List (BitVec 64 × Nat), (∀ op ∈ ops, op.2 ≤ 64) →
      (readBack ⟨(writeAll ops).get, 0⟩ (ops.map Prod.snd) =
          .ok (ops.map fun op => some (BitVec.ofNat 64 (op.1.toNat % 2 ^ op.2))) ↔
        ∀ op ∈ ops, op.1.toNat % 2 ^ op.2 = 2 ^ op.2 - 1) := by
  refine ⟨fun w m data h1 h63 hm hfit => ?_, fun ops hops => ?_⟩
  · obtain ⟨x, e, hlen⟩ := encode_ok (F := F) h1 h63 hm hfit
    obtain ⟨s, e', hs, ho⟩ := decode_ones h1 h63 x
    rw [hlen] at ho
    have hwords : words w (data.length * 8) ≤ blocks w m.logits := by
      have : words w (data.length * 8) ≤ m.logits / 2 ^ w :=
        (Nat.le_div_iff_mul_le (Nat.two_pow_pos w)).2 hfit
      unfold blocks; omega
    have hbits : data.length * 8 ≤ words w (data.length * 8) * w := by
      have := Nat.div_add_mod (data.length * 8 + w - 1) w
      have := Nat.mod_lt (data.length * 8 + w - 1) (show w > 0 by omega)
      rw [words, Nat.mul_comm (_ / w)]; omega
    have hle : data.length * 8 ≤ s.offset := by
      rw [ho]; exact Nat.le_trans hbits (Nat.mul_le_mul_right _ hwords)
    exact ⟨x, s.get, e, e', by rw [ones_eq_append_iff hs hle, ho]⟩
  · obtain ⟨hs, ho⟩ := ones_foldl ops ones_empty
    have hwidths : ∀ w ∈ ops.map Prod.snd, w ≤ 64 := fun w hw => by
      obtain ⟨op, hop, rfl⟩ := List.mem_map.1 hw
      exact hops op hop
    have hread := readBack_ones hs hwidths (show 0 + (ops.map Prod.snd).sum ≤ _ by
      rw [ho]; exact Nat.le_refl _)
    rw [show (writeAll ops) = ops.foldl (fun s op => s.writeUint64 op.1 op.2) .empty from rfl,
      hread, List.map_map, Except.ok.injEq, List.map_inj_left]
    refine forall₂_congr fun op hop => ?_
    have hw : 2 ^ op.2 ≤ 2 ^ 64 := Nat.pow_le_pow_right (by decide) (hops op hop)
    have hpos := Nat.two_pow_pos op.2
    have hlt : op.1.toNat % 2 ^ op.2 < 2 ^ op.2 := Nat.mod_lt _ hpos
    simp only [Function.comp, Option.some.injEq, ← BitVec.toNat_inj, BitVec.toNat_ofNat,
      Nat.mod_eq_of_lt (show 2 ^ op.2 - 1 < 2 ^ 64 by omega),
      Nat.mod_eq_of_lt (show op.1.toNat % 2 ^ op.2 < 2 ^ 64 by omega)]
    exact eq_comm

/-- The byte `0xFF` fills the decoder's output for one-bit words in the smallest shape. -/
theorem roundTrip_one_byte :
    (∃ (x : Matrix Nat) (out : List Byte), encode 1 ⟨1, 1⟩ [255] = .ok x ∧
      decode 1 (some x) = .ok out ∧ ∃ z, out = [255] ++ List.replicate z 0) ∧
    readBack ⟨(writeAll [(3, 2)]).get, 0⟩ [2] = .ok [some 3] := by
  have h := roundTrip_iff (F := Nat)
  obtain ⟨x, out, e, e', hiff⟩ := h.1 1 ⟨1, 1⟩ [255] (by decide) (by decide)
    ⟨by decide, by decide, by decide⟩ (by decide)
  exact ⟨⟨x, out, e, e', hiff.2 ⟨by decide, by decide⟩⟩, (h.2 [(3, 2)] (by decide)).2 (by decide)⟩

/-- **The value of a pushed bit is lost**: the byte `0x05` comes back as `0xFF`, and a written zero
bit reads back as one. -/
theorem roundTrip_lost :
    (encode (F := Nat) 1 ⟨1, 1⟩ [5] >>= fun x => decode 1 (some x)) = .ok [255] ∧
    (∀ z, ([255] : List Byte) ≠ [5] ++ List.replicate z 0) ∧
    readBack ⟨(writeAll [(0, 1)]).get, 0⟩ [1] = .ok [some 1] := by
  refine ⟨by decide +kernel, fun z hz => ?_, by decide +kernel⟩
  have := congrArg List.head? hz
  simp at this

end MatrixCodec
