import NeuralNetwork.Lib.Cpp
import NeuralNetwork.Lib.Loop

/-!
# Hexadecimal strings

The encoder of `global_string_encoder/hex_encoder/hex_encoder.h`. A byte becomes two characters, its
low half first. The buffers that the loops write are checked, so a write past the resized string
would be a fault.

* `hexEncode_eq`: every byte string is encoded, as `spell` says.
* `hexDecode_cases`: a string is decoded to the byte string that it spells, and `invalid_argument` is
  thrown if there is none.
* `hex_codec`: the two are inverse to each other.
-/

namespace HexEncoder

open Cpp Loop

abbrev Res := Except Fault

/-! ## The source's functions -/

def indexToHexIndex (index : Byte) : Res Byte :=
  if index < 10 then .ok (48 + index)
  else if index < 16 then .ok (97 + (index - 10))
  else .error (.invalidArgument "bad index, out of range")

def hexIndexToIndex (hexIndex : Byte) : Res Byte :=
  if 48 ≤ hexIndex ∧ hexIndex < 58 then .ok (hexIndex - 48)
  else if 97 ≤ hexIndex ∧ hexIndex < 103 then .ok (hexIndex - 97 + 10)
  else .error (.invalidArgument "bad hex index, out of range")

/-- `*(iter++) = c`. -/
def put (c : Byte) (out : Nat × List Byte) : Res (Nat × List Byte) :=
  if out.1 < out.2.length then .ok (out.1 + 1, out.2.set out.1 c) else .error .outOfBounds

def charAt (str : List Byte) (i : Nat) : Res Byte :=
  match str[i]? with
  | some c => .ok c
  | none => .error .outOfBounds

/-- An exception does not leave a `noexcept` function. -/
def noexcept {α : Type} : Res α → Res α
  | .error (.invalidArgument _) => .error .abort
  | r => r

def encodeStep (inp : List Byte) (i : Nat) (out : Nat × List Byte) : Res (Nat × List Byte) := do
  let numericalRep ← charAt inp i
  let loHex ← indexToHexIndex (numericalRep % 16)
  let hiHex ← indexToHexIndex (numericalRep / 16)
  put hiHex (← put loHex out)

def hexEncodeInto (inp rs : List Byte) : Res (Nat × List Byte) :=
  noexcept (forLoop (encodeStep inp) inp.length (0, rs))

def hexEncode (inp : List Byte) : Res (List Byte) := do
  let (_, rs) ← hexEncodeInto inp (List.replicate (inp.length * 2) 0)
  pure rs

def decodeStep (hexStr : List Byte) (i : Nat) (out : Nat × List Byte) : Res (Nat × List Byte) := do
  let loHex ← charAt hexStr (i * 2)
  let hiHex ← charAt hexStr (i * 2 + 1)
  let lo ← hexIndexToIndex loHex
  let hi ← hexIndexToIndex hiHex
  put (hi <<< 4 ||| lo) out

def hexDecodeInto (hexStr rs : List Byte) : Res (Nat × List Byte) :=
  if hexStr.length % 2 ≠ 0 then .error (.invalidArgument "invalid hex string, bad size")
  else forLoop (decodeStep hexStr) (hexStr.length / 2) (0, rs)

def hexDecode (inp : List Byte) : Res (List Byte) := do
  let (_, rs) ← hexDecodeInto inp (List.replicate (inp.length / 2) 0)
  pure rs

/-! ## Digits -/

def hexAlphabet : List Byte := "0123456789abcdef".toList.map fun c => BitVec.ofNat 8 c.toNat

def digit (v : Byte) : Byte := if v < 10 then 48 + v else 97 + (v - 10)

theorem indexToHexIndex_of_lt {v : Byte} (h : v < 16) : indexToHexIndex v = .ok (digit v) := by
  unfold indexToHexIndex digit
  by_cases hv : v < 10
  · rw [if_pos hv, if_pos hv]
  · rw [if_neg hv, if_neg hv, if_pos h]

variable {out : Nat × List Byte} {c : Byte} {i : Nat}

theorem mem_hexAlphabet :
    c ∈ hexAlphabet ↔ (48 ≤ c ∧ c < 58) ∨ 97 ≤ c ∧ c < 103 := by
  have e : hexAlphabet = [48, 49, 50, 51, 52, 53, 54, 55, 56, 57, 97, 98, 99, 100, 101, 102] := rfl
  simp only [e, List.mem_cons, List.not_mem_nil, or_false]
  constructor
  · intro h
    bv_omega
  · intro h
    bv_omega

/-- A character is read as the number whose digit it is, and refused if it is no digit. -/
theorem hexIndexToIndex_cases (c : Byte) :
    (∃ v, hexIndexToIndex c = .ok v ∧ v < 16 ∧ digit v = c) ∨
      c ∉ hexAlphabet ∧ ∃ what, hexIndexToIndex c = .error (.invalidArgument what) := by
  rw [mem_hexAlphabet]
  unfold hexIndexToIndex digit
  by_cases h1 : 48 ≤ c ∧ c < 58
  · refine .inl ⟨c - 48, if_pos h1, by bv_omega, ?_⟩
    rw [if_pos (by bv_omega)]
    bv_omega
  by_cases h2 : 97 ≤ c ∧ c < 103
  · refine .inl ⟨c - 97 + 10, by rw [if_neg h1, if_pos h2], by bv_omega, ?_⟩
    rw [if_neg (by bv_omega)]
    bv_omega
  · exact .inr ⟨fun h => h.elim h1 h2, _, by rw [if_neg h1, if_neg h2]⟩

theorem digit_mem {v : Byte} (h : v < 16) : digit v ∈ hexAlphabet := by
  rw [mem_hexAlphabet]
  unfold digit
  by_cases hv : v < 10
  · rw [if_pos hv]
    bv_omega
  · rw [if_neg hv]
    bv_omega

theorem digit_inj {v w : Byte} (hv : v < 16) (hw : w < 16) (h : digit v = digit w) : v = w := by
  unfold digit at h
  split at h <;> split at h <;> bv_omega

/-- The two digits of a byte, the low one first. -/
def digits (b : Byte) : List Byte := [digit (b % 16), digit (b / 16)]

/-- What a byte string is written as. -/
def spell (s : List Byte) : List Byte := s.flatMap digits

theorem toNat_halves {lo hi : Byte} (hlo : lo < 16) (hhi : hi < 16) :
    (hi <<< 4 ||| lo).toNat = hi.toNat * 16 + lo.toNat := by
  have hlo' : lo.toNat < 2 ^ 4 := hlo
  have hhi' : hi.toNat < 16 := hhi
  have hs : (hi <<< 4).toNat = hi.toNat <<< 4 := by
    rw [BitVec.toNat_shiftLeft, Nat.shiftLeft_eq, Nat.mod_eq_of_lt (by omega)]
  rw [BitVec.toNat_or, hs, ← Nat.shiftLeft_add_eq_or_of_lt hlo', Nat.shiftLeft_eq]

@[simp] theorem toNat_lo (b : Byte) : (b % 16).toNat = b.toNat % 16 := rfl

@[simp] theorem toNat_hi (b : Byte) : (b / 16).toNat = b.toNat / 16 := rfl

theorem lo_lt (b : Byte) : b % 16 < 16 := Nat.mod_lt b.toNat (by decide)

theorem hi_lt (b : Byte) : b / 16 < 16 := by
  have h : b.toNat < 256 := b.isLt
  change b.toNat / 16 < 16
  omega

theorem halves_eq (b : Byte) : (b / 16) <<< 4 ||| b % 16 = b := by
  apply BitVec.eq_of_toNat_eq
  rw [toNat_halves (lo_lt b) (hi_lt b), toNat_lo, toNat_hi]
  omega

theorem digits_halves {lo hi : Byte} (hlo : lo < 16) (hhi : hi < 16) :
    digits (hi <<< 4 ||| lo) = [digit lo, digit hi] := by
  have h := toNat_halves hlo hhi
  have hlo' : lo.toNat < 16 := hlo
  have e1 : (hi <<< 4 ||| lo) % 16 = lo := by
    apply BitVec.eq_of_toNat_eq
    rw [toNat_lo, h]
    omega
  have e2 : (hi <<< 4 ||| lo) / 16 = hi := by
    apply BitVec.eq_of_toNat_eq
    rw [toNat_hi, h]
    omega
  rw [digits, e1, e2]

@[simp] theorem length_spell (s : List Byte) : (spell s).length = s.length * 2 := by
  induction s with
  | nil => rfl
  | cons b s ih =>
    change (digits b ++ spell s).length = _
    rw [List.length_append, ih, List.length_cons]
    change 2 + _ = _
    omega

theorem spell_inj {s t : List Byte} (h : spell s = spell t) : s = t := by
  induction s generalizing t with
  | nil =>
    have hl := congrArg List.length h
    rw [length_spell, length_spell] at hl
    exact (List.length_eq_zero_iff.mp (by simpa using hl.symm)).symm
  | cons b s ih =>
    cases t with
    | nil => cases h
    | cons c t =>
      obtain ⟨hlo, h⟩ := List.cons.inj h
      obtain ⟨hhi, h⟩ := List.cons.inj h
      have h1 : b % 16 = c % 16 := digit_inj (lo_lt b) (lo_lt c) hlo
      have h2 : b / 16 = c / 16 := digit_inj (hi_lt b) (hi_lt c) hhi
      rw [ih h, ← halves_eq b, ← halves_eq c, h1, h2]

/-! ## The loops -/

theorem put_ok {xs ys : List Byte} {y : Byte} :
    put c (xs.length, xs ++ y :: ys) = .ok (xs.length + 1, xs ++ c :: ys) := by
  simp [put]

theorem charAt_ok {str : List Byte} (h : i < str.length) :
    charAt str i = .ok str[i] := by
  simp [charAt, h]

/-- The buffer after some rounds: what is written, and zeros. -/
def Written (xs : List Byte) (n : Nat) (out : Nat × List Byte) : Prop :=
  out = (xs.length, xs ++ List.replicate n 0)

theorem put_written {xs : List Byte} {n : Nat} (h : Written xs (n + 1) out) (c : Byte) :
    ∃ out', put c out = .ok out' ∧ Written (xs ++ [c]) n out' := by
  subst h
  refine ⟨_, put_ok, ?_⟩
  simp [Written]

theorem encodeStep_ok {inp : List Byte} (hi : i < inp.length)
    (h : Written (spell (inp.take i)) ((inp.length - i) * 2) out) :
    ∃ out', encodeStep inp i out = .ok out' ∧
      Written (spell (inp.take (i + 1))) ((inp.length - (i + 1)) * 2) out' := by
  obtain ⟨n, hn⟩ : ∃ n, inp.length - i = n + 1 := ⟨inp.length - i - 1, by omega⟩
  rw [show (inp.length - i) * 2 = n * 2 + 1 + 1 by omega] at h
  rw [show (inp.length - (i + 1)) * 2 = n * 2 by omega]
  obtain ⟨out1, e1, h1⟩ := put_written h (digit (inp[i] % 16))
  obtain ⟨out2, e2, h2⟩ := put_written h1 (digit (inp[i] / 16))
  refine ⟨out2, ?_, ?_⟩
  · simp only [encodeStep, charAt_ok hi, ok_bind, indexToHexIndex_of_lt (lo_lt _),
      indexToHexIndex_of_lt (hi_lt _), e1, e2]
  · have hs : spell (inp.take (i + 1)) =
        spell (inp.take i) ++ [digit (inp[i] % 16)] ++ [digit (inp[i] / 16)] := by
      rw [List.take_succ_eq_append_getElem hi, spell, List.flatMap_append, ← spell, List.append_assoc]
      rfl
    rw [hs]
    exact h2

/-- **Every byte string is encoded**, and no access leaves a buffer. -/
theorem hexEncode_eq (s : List Byte) : hexEncode s = .ok (spell s) := by
  have hloop : ∃ out, forLoop (encodeStep s) s.length (0, List.replicate (s.length * 2) 0) = .ok out ∧
      Written (spell (s.take s.length)) ((s.length - s.length) * 2) out :=
    forLoop_ok (fun i out => Written (spell (s.take i)) ((s.length - i) * 2) out) rfl
      fun i hi _ => encodeStep_ok hi
  obtain ⟨out, e, h⟩ := hloop
  rw [List.take_length, Nat.sub_self] at h
  obtain rfl : out = ((spell s).length, spell s ++ []) := h
  rw [List.append_nil] at e
  simp only [hexEncode, hexEncodeInto, e, noexcept, ok_bind]
  rfl

theorem decodeStep_cases {h : List Byte} (hi : i * 2 + 1 < h.length) {xs : List Byte} {n : Nat}
    (hxs : h.take (i * 2) = spell xs) (hout : Written xs (n + 1) out) :
    (∃ b out', decodeStep h i out = .ok out' ∧ h.take ((i + 1) * 2) = spell (xs ++ [b]) ∧
      Written (xs ++ [b]) n out') ∨
    ((h[i * 2] ∉ hexAlphabet ∨ h[i * 2 + 1] ∉ hexAlphabet) ∧
      ∃ what, decodeStep h i out = .error (.invalidArgument what)) := by
  have hlo : i * 2 < h.length := by omega
  rcases hexIndexToIndex_cases h[i * 2] with ⟨lo, e1, lo16, d1⟩ | ⟨bad, what, e1⟩
  · rcases hexIndexToIndex_cases h[i * 2 + 1] with ⟨hi', e2, hi16, d2⟩ | ⟨bad, what, e2⟩
    · obtain ⟨out', e, hout'⟩ := put_written hout (hi' <<< 4 ||| lo)
      refine .inl ⟨_, out', ?_, ?_, hout'⟩
      · simp only [decodeStep, charAt_ok hlo, charAt_ok hi, ok_bind, e1, e2, e]
      · rw [Nat.succ_mul, List.take_succ_eq_append_getElem hi, List.take_succ_eq_append_getElem hlo, hxs,
          spell, spell, List.flatMap_append, List.append_assoc, List.flatMap_cons,
          digits_halves lo16 hi16, d1, d2]
        rfl
    · refine .inr ⟨.inr bad, what, ?_⟩
      simp only [decodeStep, charAt_ok hlo, charAt_ok hi, ok_bind, e1, e2, error_bind]
  · refine .inr ⟨.inl bad, what, ?_⟩
    simp only [decodeStep, charAt_ok hlo, charAt_ok hi, ok_bind, e1, error_bind]

theorem decodeLoop_cases (h : List Byte) :
    (∃ xs, h.take (h.length / 2 * 2) = spell xs ∧
      forLoop (decodeStep h) (h.length / 2) (0, List.replicate (h.length / 2) 0) =
        .ok (xs.length, xs)) ∨
    ((¬∀ c ∈ h, c ∈ hexAlphabet) ∧ ∃ what,
      forLoop (decodeStep h) (h.length / 2) (0, List.replicate (h.length / 2) 0) =
        .error (.invalidArgument what)) := by
  let Inv (i : Nat) (out : Nat × List Byte) : Prop :=
    ∃ xs, h.take (i * 2) = spell xs ∧ Written xs (h.length / 2 - i) out
  let Bad (e : Fault) : Prop := (¬∀ c ∈ h, c ∈ hexAlphabet) ∧ ∃ what, e = .invalidArgument what
  have hstep : ∀ i, i < h.length / 2 → ∀ out, Inv i out →
      (∃ out', decodeStep h i out = .ok out' ∧ Inv (i + 1) out') ∨
        ∃ e, decodeStep h i out = .error e ∧ Bad e := by
    intro i hi out hinv
    obtain ⟨xs, hxs, hout⟩ := hinv
    rw [show h.length / 2 - i = h.length / 2 - (i + 1) + 1 by omega] at hout
    rcases decodeStep_cases (by omega) hxs hout with ⟨b, out', e, hxs', hout'⟩ | ⟨hbad, what, e⟩
    · exact .inl ⟨out', e, xs ++ [b], hxs', hout'⟩
    · refine .inr ⟨_, e, fun hc => ?_, what, rfl⟩
      rcases hbad with hbad | hbad
      · exact hbad (hc _ (List.getElem_mem _))
      · exact hbad (hc _ (List.getElem_mem _))
  rcases forLoop_cases Inv Bad ⟨[], rfl, rfl⟩ hstep with ⟨out, e, xs, hxs, hout⟩ | ⟨_, e, hbad, what, rfl⟩
  · rw [Nat.sub_self] at hout
    obtain rfl : out = (xs.length, xs ++ []) := hout
    rw [List.append_nil] at e
    exact .inl ⟨xs, hxs, e⟩
  · exact .inr ⟨hbad, what, e⟩

/-- **A string is decoded to the byte string that it spells**, and refused if there is none. -/
theorem hexDecode_cases (h : List Byte) :
    (∃ s, h = spell s ∧ hexDecode h = .ok s) ∨
      (¬(h.length % 2 = 0 ∧ ∀ c ∈ h, c ∈ hexAlphabet) ∧
        ∃ what, hexDecode h = .error (.invalidArgument what)) := by
  by_cases heven : h.length % 2 = 0
  · rcases decodeLoop_cases h with ⟨xs, hxs, e⟩ | ⟨hbad, what, e⟩
    · refine .inl ⟨xs, ?_, ?_⟩
      · rw [← hxs, List.take_of_length_le (by omega)]
      · simp only [hexDecode, hexDecodeInto, heven, e]
        rfl
    · refine .inr ⟨fun hc => hbad hc.2, what, ?_⟩
      simp only [hexDecode, hexDecodeInto, heven, e]
      rfl
  · refine .inr ⟨fun hc => heven hc.1, "invalid hex string, bad size", ?_⟩
    simp only [hexDecode, hexDecodeInto, if_pos heven, error_bind]

theorem mem_spell {s : List Byte} (h : c ∈ spell s) : c ∈ hexAlphabet := by
  obtain ⟨b, -, hc⟩ := List.mem_flatMap.mp h
  rcases List.mem_cons.mp hc with rfl | hc
  · exact digit_mem (lo_lt b)
  · obtain rfl := List.mem_singleton.mp hc
    exact digit_mem (hi_lt b)

theorem hexDecode_spell (s : List Byte) : hexDecode (spell s) = .ok s := by
  rcases hexDecode_cases (spell s) with ⟨t, ht, e⟩ | ⟨hbad, -⟩
  · rw [e, spell_inj ht]
  · refine absurd ⟨?_, fun c hc => mem_spell hc⟩ hbad
    rw [length_spell]
    omega

/-- **The hex codec**: what is encoded is decoded again; decoding accepts the strings of even length
over the alphabet, throws on the others, and what it accepts is what its result is encoded as. -/
theorem hex_codec :
    (∀ s : List Byte, (hexEncode s >>= hexDecode) = .ok s) ∧
    (∀ h : List Byte, (∃ s, hexDecode h = .ok s) ↔ h.length % 2 = 0 ∧ ∀ c ∈ h, c ∈ hexAlphabet) ∧
    (∀ h : List Byte, ¬(h.length % 2 = 0 ∧ ∀ c ∈ h, c ∈ hexAlphabet) →
      ∃ what, hexDecode h = .error (.invalidArgument what)) ∧
    ∀ h s : List Byte, hexDecode h = .ok s → hexEncode s = .ok h := by
  refine ⟨fun s => ?_, fun h => ?_, fun h hbad => ?_, fun h s hs => ?_⟩
  · rw [hexEncode_eq, ok_bind, hexDecode_spell]
  · rcases hexDecode_cases h with ⟨s, rfl, e⟩ | ⟨hbad, what, e⟩
    · refine iff_of_true ⟨s, e⟩ ⟨?_, fun c hc => mem_spell hc⟩
      rw [length_spell]
      omega
    · refine iff_of_false (fun hs => ?_) hbad
      obtain ⟨s, hs⟩ := hs
      rw [e] at hs
      cases hs
  · rcases hexDecode_cases h with ⟨s, rfl, -⟩ | ⟨-, he⟩
    · refine absurd ⟨?_, fun c hc => mem_spell hc⟩ hbad
      rw [length_spell]
      omega
    · exact he
  · rcases hexDecode_cases h with ⟨t, rfl, e⟩ | ⟨-, what, e⟩
    · rw [e] at hs
      obtain rfl := Except.ok.inj hs
      exact hexEncode_eq t
    · rw [e] at hs
      cases hs

theorem hex_codec_sample : hexEncode [0xa5] = .ok [53, 97] :=
  hex_codec.2.2.2 [53, 97] [0xa5] (by decide)

end HexEncoder
