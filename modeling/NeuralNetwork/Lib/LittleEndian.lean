import Mathlib.Data.Nat.Bitwise
import NeuralNetwork.Lib.Cpp

/-!
# Numbers in parts

`bytes n v` is the `n` low bytes of `v`, least significant first, and `value bs` the number that the
bytes `bs` spell. `value_bytes` and `bytes_value` say that they are inverse to each other, and
`chunks` cuts a byte string into numbers of one width (`chunks_flatMap`). `hi <<< n ||| lo` holds a pair
whose low part has `n` bits.
-/

namespace LittleEndian

open Cpp

def bytes : Nat → Nat → List Byte
  | 0, _ => []
  | n + 1, v => BitVec.ofNat 8 v :: bytes n (v / 256)

def value : List Byte → Nat
  | [] => 0
  | b :: bs => b.toNat + 256 * value bs

@[simp] theorem length_bytes (n v : Nat) : (bytes n v).length = n := by
  induction n generalizing v with
  | zero => rfl
  | succ n ih => simp [bytes, ih]

theorem value_bytes (n v : Nat) : value (bytes n v) = v % 256 ^ n := by
  induction n generalizing v with
  | zero => simp [bytes, value, Nat.mod_one]
  | succ n ih =>
    rw [bytes, value, ih, BitVec.toNat_ofNat]
    change v % 256 + 256 * (v / 256 % 256 ^ n) = v % 256 ^ (n + 1)
    rw [Nat.pow_succ', Nat.mod_mul]

theorem value_lt (bs : List Byte) : value bs < 256 ^ bs.length := by
  induction bs with
  | nil => simp [value]
  | cons b bs ih =>
    have hb : b.toNat < 256 := b.isLt
    rw [value, List.length_cons, Nat.pow_succ]
    omega

theorem bytes_value (bs : List Byte) : bytes bs.length (value bs) = bs := by
  induction bs with
  | nil => rfl
  | cons b bs ih =>
    have hb : b.toNat < 256 := b.isLt
    have hdiv : (b.toNat + 256 * value bs) / 256 = value bs := by omega
    rw [List.length_cons, bytes, value, hdiv, ih]
    congr 1
    apply BitVec.eq_of_toNat_eq
    rw [BitVec.toNat_ofNat]
    omega

/-! ## Words -/

def dump (n : Nat) (v : BitVec (8 * n)) : List Byte := bytes n v.toNat

def load (n : Nat) (bs : List Byte) : BitVec (8 * n) := BitVec.ofNat _ (value bs)

variable {n : Nat}

@[simp] theorem length_dump (v : BitVec (8 * n)) : (dump n v).length = n := length_bytes _ _

@[simp] theorem load_dump (v : BitVec (8 * n)) : load n (dump n v) = v := by
  apply BitVec.eq_of_toNat_eq
  rw [load, dump, value_bytes, BitVec.toNat_ofNat, show 256 ^ n = 2 ^ (8 * n) by rw [Nat.pow_mul],
    Nat.mod_mod, Nat.mod_eq_of_lt v.isLt]

/-- The first `k` words of `n` bytes each; a word of which bytes are missing has zeros there. -/
def chunks (n : Nat) : Nat → List Byte → List (BitVec (8 * n))
  | 0, _ => []
  | k + 1, bs => load n (bs.take n) :: chunks n k (bs.drop n)

theorem chunks_flatMap (vs : List (BitVec (8 * n))) :
    chunks n vs.length (vs.flatMap (dump n)) = vs := by
  induction vs with
  | nil => rfl
  | cons v vs ih =>
    rw [List.length_cons, List.flatMap_cons, chunks, List.take_left' (length_dump v),
      List.drop_left' (length_dump v), load_dump, ih]

theorem length_flatMap_dump (vs : List (BitVec (8 * n))) :
    (vs.flatMap (dump n)).length = vs.length * n := by
  induction vs with
  | nil => simp
  | cons v vs ih => rw [List.flatMap_cons, List.length_append, length_dump, ih, List.length_cons]; ring

end LittleEndian

namespace PackedPair

variable {n hi lo : Nat}

theorem pack_eq (hlo : lo < 2 ^ n) : hi <<< n ||| lo = hi * 2 ^ n + lo := by
  rw [← Nat.shiftLeft_add_eq_or_of_lt hlo, Nat.shiftLeft_eq]

theorem shiftRight_pack (hlo : lo < 2 ^ n) : (hi <<< n ||| lo) >>> n = hi := by
  rw [pack_eq hlo, Nat.shiftRight_eq_div_pow, Nat.add_comm,
    Nat.add_mul_div_right _ _ (Nat.two_pow_pos n), Nat.div_eq_of_lt hlo, Nat.zero_add]

theorem and_pack (hlo : lo < 2 ^ n) : (hi <<< n ||| lo) &&& (2 ^ n - 1) = lo := by
  rw [pack_eq hlo, Nat.and_two_pow_sub_one_eq_mod, Nat.add_comm, Nat.add_mul_mod_self_right,
    Nat.mod_eq_of_lt hlo]

end PackedPair
