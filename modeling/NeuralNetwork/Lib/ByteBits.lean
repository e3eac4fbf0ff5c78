import NeuralNetwork.Lib.LittleEndian

/-!
# The bits of a byte string

Bit `i` of a byte string is bit `i % 8` of its byte `i / 8`, least significant first (`bitAt`). Two
strings of one length with the same bits are equal (`eq_of_bitAt`). `wordBits` and `bits` are the
bits of a word and of a byte string as a list; `bits_dump` says that a word written little-endian has
the same bits.
-/

namespace ByteBits

open Cpp LittleEndian

def bitAt (bs : List Byte) (i : Nat) : Bool := (bs.getD (i / 8) 0).getLsbD (i % 8)

variable {bs cs : List Byte} {i k : Nat}

theorem bitAt_append_left (h : i < 8 * bs.length) : bitAt (bs ++ cs) i = bitAt bs i := by
  simp only [bitAt, List.getD_eq_getElem?_getD]
  rw [List.getElem?_append_left (by omega)]

theorem bitAt_append_right (h : 8 * bs.length ≤ i) :
    bitAt (bs ++ cs) i = bitAt cs (i - 8 * bs.length) := by
  simp only [bitAt, List.getD_eq_getElem?_getD]
  rw [List.getElem?_append_right (by omega), Nat.sub_mul_mod (by omega),
    show i / 8 - bs.length = (i - 8 * bs.length) / 8 by omega]

theorem bitAt_replicate {n : Nat} {b : Byte} (h : i < 8 * n) :
    bitAt (List.replicate n b) i = b.getLsbD (i % 8) := by
  simp only [bitAt, List.getD_eq_getElem?_getD]
  rw [List.getElem?_replicate_of_lt (by omega), Option.getD_some]

theorem eq_of_bitAt (hl : bs.length = cs.length)
    (h : ∀ i < 8 * bs.length, bitAt bs i = bitAt cs i) : bs = cs := by
  refine List.ext_getElem hl fun k h1 h2 => BitVec.eq_of_getLsbD_eq fun j hj => ?_
  have := h (8 * k + j) (by omega)
  rw [bitAt, bitAt, show (8 * k + j) / 8 = k by omega, show (8 * k + j) % 8 = j by omega] at this
  simpa [List.getD_eq_getElem?_getD, List.getElem?_eq_getElem h1, List.getElem?_eq_getElem h2]
    using this

theorem bitAt_set_or {j : Nat} (hk : k < bs.length) (hj : j < 8) :
    bitAt (bs.set k (bs.getD k 0 ||| 1#8 <<< j)) i = (bitAt bs i || decide (i = 8 * k + j)) := by
  simp only [bitAt, List.getD_eq_getElem?_getD]
  by_cases h : i / 8 = k
  · subst h
    rw [List.getElem?_set_self hk, Option.getD_some, BitVec.getLsbD_or, BitVec.getLsbD_shiftLeft]
    have e : (i = 8 * (i / 8) + j) = (i % 8 = j) := propext (by omega)
    have hi : i % 8 < 8 := Nat.mod_lt _ (by decide)
    simp only [e, BitVec.getLsbD_one]
    congr 1
    rw [Bool.eq_iff_iff]
    simp only [hi, decide_true, Bool.true_and, Bool.and_eq_true, Bool.not_eq_true',
      decide_eq_true_eq, decide_eq_false_iff_not]
    omega
  · rw [List.getElem?_set_ne (fun e => h e.symm)]
    simp [show ¬ i = 8 * k + j by omega]

/-- A number whose bits are those below `n` of a byte string has fewer than `n + 1` bits. -/
theorem toNat_lt_of_getLsbD {w n : Nat} {v : BitVec w} (h : ∀ k, n ≤ k → v.getLsbD k = false) :
    v.toNat < 2 ^ n :=
  Nat.lt_pow_two_of_testBit _ fun k hk => by rw [BitVec.testBit_toNat]; exact h k hk

theorem toNat_of_getLsbD_ones {w n : Nat} {v : BitVec w} (h : ∀ k, v.getLsbD k = decide (k < n)) :
    v.toNat = 2 ^ n - 1 :=
  Nat.eq_of_testBit_eq fun k => by
    rw [BitVec.testBit_toNat, h, Nat.testBit_two_pow_sub_one]

/-! ## Lists of bits -/

/-- The `n` low bits of a word, least significant first. -/
def wordBits {w : Nat} (n : Nat) (v : BitVec w) : List Bool := (List.range n).map v.getLsbD

def bits (bs : List Byte) : List Bool := bs.flatMap (wordBits 8)

section Words

variable {w m n : Nat} {u v : BitVec w}

@[simp] theorem length_wordBits : (wordBits n v).length = n := by simp [wordBits]

theorem getElem?_wordBits (h : i < n) : (wordBits n v)[i]? = some (v.getLsbD i) := by
  simp [wordBits, h]

theorem wordBits_congr {w' : Nat} {v' : BitVec w'} (h : ∀ i < n, v.getLsbD i = v'.getLsbD i) :
    wordBits n v = wordBits n v' :=
  List.map_congr_left fun i hi => h i (List.mem_range.1 hi)

theorem take_wordBits (h : m ≤ n) : (wordBits n v).take m = wordBits m v := by
  rw [wordBits, ← List.map_take, List.take_range, Nat.min_eq_left h, wordBits]

theorem wordBits_add : wordBits (m + n) v = wordBits m v ++ wordBits n (v >>> m) := by
  rw [wordBits, List.range_add, List.map_append, List.map_map]
  congr 1
  exact List.map_congr_left fun i _ => (BitVec.getLsbD_ushiftRight v m i).symm

/-- A word with another one above its bits. -/
theorem wordBits_or_shiftLeft (hu : ∀ i, m ≤ i → u.getLsbD i = false) (hw : m + n ≤ w) :
    wordBits (m + n) (u ||| v <<< m) = wordBits m u ++ wordBits n v := by
  rw [wordBits_add]
  congr 1
  · refine wordBits_congr fun i hi => ?_
    simp [BitVec.getLsbD_shiftLeft, hi]
  · refine wordBits_congr fun i hi => ?_
    rw [BitVec.getLsbD_ushiftRight, BitVec.getLsbD_or, hu _ (Nat.le_add_right m i),
      BitVec.getLsbD_shiftLeft, Nat.add_sub_cancel_left]
    simp [show m + i < w by omega]

end Words

@[simp] theorem bits_nil : bits [] = [] := rfl

@[simp] theorem bits_append : bits (bs ++ cs) = bits bs ++ bits cs := List.flatMap_append

@[simp] theorem length_bits : (bits bs).length = 8 * bs.length := by
  induction bs with
  | nil => rfl
  | cons b bs ih =>
    rw [bits, List.flatMap_cons, List.length_append, length_wordBits, List.length_cons]
    change 8 + (bits bs).length = _
    omega

theorem bits_drop (n : Nat) : bits (bs.drop n) = (bits bs).drop (8 * n) := by
  by_cases h : n ≤ bs.length
  · conv_rhs => rw [← List.take_append_drop n bs, bits_append]
    rw [List.drop_left' (by simp [h])]
  · rw [List.drop_eq_nil_of_le (by omega), List.drop_eq_nil_of_le (by rw [length_bits]; omega)]
    rfl

theorem bits_take (n : Nat) : bits (bs.take n) = (bits bs).take (8 * n) := by
  by_cases h : n ≤ bs.length
  · conv_rhs => rw [← List.take_append_drop n bs, bits_append]
    rw [List.take_left' (by simp [h])]
  · rw [List.take_of_length_le (by omega), List.take_of_length_le (by rw [length_bits]; omega)]

theorem getElem?_bits (h : i < 8 * bs.length) : (bits bs)[i]? = some (bitAt bs i) := by
  induction bs generalizing i with
  | nil => simp at h
  | cons b bs ih =>
    change (wordBits 8 b ++ bits bs)[i]? = _
    by_cases hi : i < 8
    · rw [List.getElem?_append_left (by simpa using hi), getElem?_wordBits hi]
      simp [bitAt, Nat.div_eq_of_lt hi, Nat.mod_eq_of_lt hi]
    · rw [List.length_cons] at h
      rw [List.getElem?_append_right (by simpa using hi), length_wordBits, ih (by omega),
        show b :: bs = [b] ++ bs from rfl, bitAt_append_right (by simpa using hi)]
      rfl

theorem bits_injective (h : bits bs = bits cs) : bs = cs := by
  have hl : bs.length = cs.length := by
    have := congrArg List.length h
    simpa using this
  refine eq_of_bitAt hl fun i hi => ?_
  have hb : (bits bs)[i]? = some (bitAt bs i) := getElem?_bits hi
  rw [h, getElem?_bits (by omega)] at hb
  exact (Option.some.inj hb).symm

theorem bits_eq_map : bits bs = (List.range (8 * bs.length)).map (bitAt bs) := by
  refine List.ext_getElem? fun i => ?_
  by_cases hi : i < 8 * bs.length
  · rw [getElem?_bits hi]
    simp [hi]
  · rw [List.getElem?_eq_none (by simpa using hi), List.getElem?_eq_none (by simpa using hi)]

theorem bitAt_bytes {n v : Nat} (h : i < 8 * n) : bitAt (bytes n v) i = v.testBit i := by
  induction n generalizing v i with
  | zero => omega
  | succ n ih =>
    by_cases hi : i < 8
    · rw [bytes, bitAt, Nat.div_eq_of_lt hi, Nat.mod_eq_of_lt hi, List.getD_cons_zero,
        BitVec.getLsbD_ofNat, decide_eq_true hi, Bool.true_and]
    · have e : i = 8 + (i - 8) := by omega
      have h1 : bitAt (bytes (n + 1) v) i = bitAt (bytes n (v / 256)) (i - 8) := by
        rw [bytes, ← List.singleton_append, bitAt_append_right (by simp; omega)]
        rfl
      rw [h1, ih (by omega), show 256 = 2 ^ 8 from rfl, Nat.testBit_div_two_pow]
      congr 1
      omega

theorem bits_dump {n : Nat} (v : BitVec (8 * n)) : bits (dump n v) = wordBits (8 * n) v := by
  rw [bits_eq_map, length_dump, wordBits]
  refine List.map_congr_left fun i hi => ?_
  rw [dump, bitAt_bytes (List.mem_range.1 hi), BitVec.getLsbD]

theorem wordBits_load {n : Nat} (h : bs.length = n) : wordBits (8 * n) (load n bs) = bits bs := by
  rw [← bits_dump]
  congr 1
  subst h
  rw [load, dump, BitVec.toNat_ofNat, Nat.mod_eq_of_lt, bytes_value]
  rw [Nat.pow_mul]
  exact value_lt bs

end ByteBits
