import NeuralNetwork.Lib.Cpp

/-!
# Powers of two

`ulog2`, `ceil2` and `is_pow2` of `stl_extension/stdx.h` (and of `internal_rest/stdx.h`, which repeats
them) at `size_t`. A shift by 64 is undefined: `ceil2` has no value from `2 ^ 63 + 1` on. With the
bit helpers of `internal_rest/stdx.h`.
-/

namespace Stdx

open Cpp

/-- `63 - countl_zero(val)`, for a positive `val`. -/
def ulog2 (val : Nat) : Nat := Nat.log2 val

def shiftOne (exponent : Nat) : Except Fault Nat :=
  if exponent < 64 then .ok (2 ^ exponent) else .error .undefined

def ceil2 (val : Nat) : Except Fault Nat :=
  if val < 2 then .ok 1 else shiftOne (ulog2 (val - 1) + 1)

def isPow2 (val : Nat) : Prop := val ≠ 0 ∧ val &&& (val - 1) = 0

instance (val : Nat) : Decidable (isPow2 val) := inferInstanceAs (Decidable (_ ∧ _))

def countrZero (val : Nat) : Nat := ((List.range 64).find? val.testBit).getD 64

/-- `lowones_bitgen`, which asserts that `bit_size` is at most 64. -/
def lowonesBitgen (bitSize : Nat) : BitVec 64 :=
  if bitSize = 64 then BitVec.allOnes 64 else (1#64 <<< bitSize) - 1#64

/-- `safe_unsigned_lshift` returns `{}`. -/
def safeUnsignedLshift (_value : BitVec 64) (_lshiftSize : Nat) : BitVec 64 := 0

@[simp] theorem ulog2_two_pow (n : Nat) : ulog2 (2 ^ n) = n := Nat.log2_two_pow

theorem countrZero_two_pow {k : Nat} (hk : k < 64) : countrZero (2 ^ k) = k := by
  have h : (List.range 64).find? (2 ^ k).testBit = some k := by
    refine List.find?_range_eq_some.2 ⟨Nat.testBit_two_pow_self, List.mem_range.2 hk, ?_⟩
    intro i hi
    rw [Nat.testBit_two_pow_of_ne (by omega)]
    rfl
  rw [countrZero, h]
  rfl

theorem toNat_lowonesBitgen {k : Nat} (hk : k < 64) : (lowonesBitgen k).toNat = 2 ^ k - 1 := by
  have hpow : 2 ^ k < 2 ^ 64 := Nat.pow_lt_pow_right (by decide) hk
  have hpos : 0 < 2 ^ k := Nat.two_pow_pos k
  rw [lowonesBitgen, if_neg (by omega), BitVec.toNat_sub_of_le]
  · rw [BitVec.toNat_shiftLeft, BitVec.toNat_ofNat, Nat.shiftLeft_eq]
    simp only [Nat.reducePow] at hpow ⊢
    rw [Nat.mod_eq_of_lt (by omega)]
    simp
  · rw [BitVec.le_def, BitVec.toNat_shiftLeft, BitVec.toNat_ofNat, Nat.shiftLeft_eq]
    simp only [Nat.reducePow] at hpow ⊢
    rw [Nat.mod_eq_of_lt (by omega), Nat.mod_eq_of_lt (by omega)]
    omega

theorem shiftOne_eq_ok {e c : Nat} (h : shiftOne e = .ok c) : e < 64 ∧ c = 2 ^ e := by
  unfold shiftOne at h
  split at h
  · next he => exact ⟨he, (Except.ok.inj h).symm⟩
  · cases h

theorem and_mask {e : Nat} (he : e < 64) (x : Nat) : x &&& subT (2 ^ e) 1 = x % 2 ^ e := by
  have hpos : 0 < 2 ^ e := Nat.two_pow_pos e
  rw [subT_of_le hpos (Nat.pow_lt_pow_right (by decide) he), Nat.and_two_pow_sub_one_eq_mod]

theorem isPow2_two_pow (k : Nat) : isPow2 (2 ^ k) := by
  refine ⟨(Nat.two_pow_pos k).ne', ?_⟩
  rw [Nat.and_two_pow_sub_one_eq_mod, Nat.mod_self]

theorem ceil2_ok {val : Nat} (h : val ≤ 2 ^ 63) :
    ∃ e, e < 64 ∧ ceil2 val = .ok (2 ^ e) ∧ val ≤ 2 ^ e := by
  unfold ceil2
  by_cases h2 : val < 2
  · exact ⟨0, by decide, by simp [h2], by simp; omega⟩
  have hlog : ulog2 (val - 1) < 63 := (Nat.log2_lt (by omega)).2 (by omega)
  refine ⟨ulog2 (val - 1) + 1, by omega, by simp [h2, shiftOne]; omega, ?_⟩
  have := Nat.lt_log2_self (n := val - 1)
  simp only [ulog2]
  omega

theorem ceil2_le {val c : Nat} (h : ceil2 val = .ok c) : val ≤ c := by
  unfold ceil2 at h
  split at h
  · next h2 =>
    obtain rfl := Except.ok.inj h
    omega
  · obtain ⟨-, rfl⟩ := shiftOne_eq_ok h
    have := Nat.lt_log2_self (n := val - 1)
    simp only [ulog2]
    omega

/-- What `ceil2` returns is not above a power of two that the argument is not above. -/
theorem ceil2_le_two_pow {val c e : Nat} (h : ceil2 val = .ok c) (hval : val ≤ 2 ^ e) : c ≤ 2 ^ e := by
  unfold ceil2 at h
  split at h
  · obtain rfl := Except.ok.inj h
    exact Nat.one_le_two_pow
  · obtain ⟨-, rfl⟩ := shiftOne_eq_ok h
    have hlog : ulog2 (val - 1) < e := (Nat.log2_lt (by omega)).2 (by omega)
    exact Nat.pow_le_pow_right (by decide) hlog

theorem ceil2_two_pow {e : Nat} (he : e < 64) : ceil2 (2 ^ e) = .ok (2 ^ e) := by
  cases e with
  | zero => rfl
  | succ e =>
    have hpos : 0 < 2 ^ e := Nat.two_pow_pos e
    have hlog : ulog2 (2 ^ (e + 1) - 1) = e :=
      (Nat.log2_eq_iff (by omega)).2 ⟨by omega, by omega⟩
    have h2 : ¬ 2 ^ (e + 1) < 2 := by omega
    rw [ceil2, if_neg h2, hlog, shiftOne, if_pos he]

theorem ceil2_pow {val c : Nat} (h : ceil2 val = .ok c) : ∃ e < 64, c = 2 ^ e := by
  unfold ceil2 at h
  split at h
  · exact ⟨0, by decide, (Except.ok.inj h).symm⟩
  · exact ⟨_, (shiftOne_eq_ok h).1, (shiftOne_eq_ok h).2⟩

end Stdx
