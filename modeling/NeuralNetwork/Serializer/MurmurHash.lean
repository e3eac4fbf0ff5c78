import NeuralNetwork.Lib.LittleEndian

/-!
# The hash of the checksummed frames

`murmur_hash_base`, of which `serializer/compact_serializer.h`,
`internal_rest/network_compact_serializer.h` and `internal_rest/network_hash.h` hold one copy each.
It reads only the bytes it is given (`murmurHashBase_ok`).
-/

namespace MurmurHash

open Cpp

abbrev U64 := BitVec 64

abbrev HashType := U64 × U64

def rotl64 (x : U64) (r : Nat) : U64 := x <<< r ||| x >>> (64 - r)

def fmix64 (k : U64) : U64 :=
  let k := k ^^^ k >>> 33
  let k := k * 0xff51afd7ed558ccd
  let k := k ^^^ k >>> 33
  let k := k * 0xc4ceb9fe1a85ec53
  k ^^^ k >>> 33

def c1 : U64 := 0x87c37b91114253d5
def c2 : U64 := 0x4cf5ad432745937f

/-- A read of `n` bytes at the offset `off`. -/
def readAt (buf : List Byte) (off n : Nat) : Except Fault (List Byte) :=
  if off + n ≤ buf.length then .ok ((buf.drop off).take n) else .error .outOfBounds

def mixK1 (k1 : U64) : U64 := rotl64 (k1 * c1) 31 * c2

def mixK2 (k2 : U64) : U64 := rotl64 (k2 * c2) 33 * c1

/-- One turn of the loop over the blocks of sixteen bytes. -/
def block (buf : List Byte) (h : HashType) (i : Nat) : Except Fault HashType := do
  let k1 ← readAt buf (i * 2 * 8) 8
  let k2 ← readAt buf ((i * 2 + 1) * 8) 8
  let h1 := h.1 ^^^ mixK1 (LittleEndian.load 8 k1)
  let h1 := (rotl64 h1 27 + h.2) * 5 + 0x52dce729
  let h2 := h.2 ^^^ mixK2 (LittleEndian.load 8 k2)
  let h2 := (rotl64 h2 31 + h1) * 5 + 0x38495ab5
  pure (h1, h2)

/-- The cases of the `switch` over the last `len & 15` bytes, which fall through: `k2` takes the
bytes from the ninth on, `k1` those before. -/
def tail (tl : List Byte) (h : HashType) : HashType :=
  let h2 := if 8 < tl.length then h.2 ^^^ mixK2 (LittleEndian.load 8 (tl.drop 8)) else h.2
  let h1 := if tl = [] then h.1 else h.1 ^^^ mixK1 (LittleEndian.load 8 (tl.take 8))
  (h1, h2)

def finish (len : Nat) (h : HashType) : HashType :=
  let h1 := h.1 ^^^ BitVec.ofNat 64 len
  let h2 := h.2 ^^^ BitVec.ofNat 64 len
  let h1 := h1 + h2
  let h2 := h2 + h1
  let h1 := fmix64 h1
  let h2 := fmix64 h2
  let h1 := h1 + h2
  (h1, h2 + h1)

def murmurHashBase (buf : List Byte) (len : Nat) (seed : BitVec 32) : Except Fault HashType := do
  let nblocks := len / 16
  let h ← (List.range nblocks).foldlM (block buf) (seed.setWidth 64, seed.setWidth 64)
  let tl ← readAt buf (nblocks * 16) (len % 16)
  pure (finish len (tail tl h))

/-! ## Reads -/

variable {buf : List Byte} {len : Nat}

theorem readAt_ok {off n : Nat} (h : off + n ≤ buf.length) :
    readAt buf off n = .ok ((buf.drop off).take n) := if_pos h

theorem block_ok {i : Nat} (h : HashType) (hi : i * 16 + 16 ≤ buf.length) :
    ∃ h', block buf h i = .ok h' := by
  have h1 : i * 2 * 8 + 8 ≤ buf.length := by omega
  have h2 : (i * 2 + 1) * 8 + 8 ≤ buf.length := by omega
  rw [block, readAt_ok h1, readAt_ok h2]
  exact ⟨_, rfl⟩

theorem blocks_ok (l : List Nat) (h : HashType) (hl : ∀ i ∈ l, i * 16 + 16 ≤ buf.length) :
    ∃ h', l.foldlM (block buf) h = .ok h' := by
  induction l generalizing h with
  | nil => exact ⟨h, rfl⟩
  | cons i l ih =>
    obtain ⟨h1, e1⟩ := block_ok h (hl i (by simp))
    obtain ⟨h2, e2⟩ := ih h1 fun j hj => hl j (by simp [hj])
    exact ⟨h2, by rw [List.foldlM_cons, e1]; exact e2⟩

theorem murmurHashBase_ok (seed : BitVec 32) (h : len ≤ buf.length) :
    ∃ v, murmurHashBase buf len seed = .ok v := by
  have hblocks : ∀ i ∈ List.range (len / 16), i * 16 + 16 ≤ buf.length := by
    intro i hi
    rw [List.mem_range] at hi
    omega
  obtain ⟨h1, e1⟩ := blocks_ok _ (seed.setWidth 64, seed.setWidth 64) hblocks
  have htl : len / 16 * 16 + len % 16 ≤ buf.length := by omega
  unfold murmurHashBase
  dsimp only
  rw [e1, readAt_ok htl]
  exact ⟨_, rfl⟩

variable {rest : List Byte}

/-- The hash of the first `len` bytes does not depend on the bytes that follow them. -/
theorem readAt_append {off n : Nat} (h : off + n ≤ buf.length) :
    readAt (buf ++ rest) off n = readAt buf off n := by
  rw [readAt_ok h, readAt_ok (by rw [List.length_append]; omega),
    List.drop_append_of_le_length (by omega), List.take_append_of_le_length (by simp; omega)]

theorem block_append {i : Nat} (h : HashType) (hi : i * 16 + 16 ≤ buf.length) :
    block (buf ++ rest) h i = block buf h i := by
  unfold block
  rw [readAt_append (by omega), readAt_append (by omega)]

theorem blocks_append (l : List Nat) (h : HashType) (hl : ∀ i ∈ l, i * 16 + 16 ≤ buf.length) :
    l.foldlM (block (buf ++ rest)) h = l.foldlM (block buf) h := by
  induction l generalizing h with
  | nil => rfl
  | cons i l ih =>
    obtain ⟨h1, e1⟩ := block_ok h (hl i (by simp))
    rw [List.foldlM_cons, List.foldlM_cons, block_append _ (hl i (by simp)), e1]
    exact ih h1 fun j hj => hl j (by simp [hj])

theorem murmurHashBase_append (seed : BitVec 32) :
    murmurHashBase (buf ++ rest) buf.length seed = murmurHashBase buf buf.length seed := by
  unfold murmurHashBase
  dsimp only
  rw [blocks_append _ _ fun i hi => ?_, readAt_append (by omega)]
  rw [List.mem_range] at hi
  omega

end MurmurHash
