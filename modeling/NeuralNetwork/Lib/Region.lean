import Mathlib.Data.List.Nodup
import NeuralNetwork.Lib.Cpp

/-!
# Memory as regions of bytes

A pointer is a place in a region (`Ptr`), and a `Memory` knows how large each region is and what its bytes
are. A load or store that leaves its region is a fault. A `Block` is a range of a region: a store changes
what it covers (`bytes_store`) and nothing else, and a load reads only that (`load_congr`).
-/

namespace Region

open Cpp

structure Ptr where
  block : Nat
  offset : Nat
deriving DecidableEq, Repr

namespace Ptr

/-- `std::next(ptr, n)`. -/
def next (p : Ptr) (n : Nat) : Ptr := ⟨p.block, p.offset + n⟩

/-- `std::prev(ptr, n)`, which is not defined before the start of the region. -/
def prev (p : Ptr) (n : Nat) : Except Fault Ptr :=
  if n ≤ p.offset then .ok ⟨p.block, p.offset - n⟩ else .error .undefined

theorem prev_next (p : Ptr) (n : Nat) : (p.next n).prev n = .ok p := by
  have hle : n ≤ (p.next n).offset := Nat.le_add_left _ _
  rw [prev, if_pos hle, next, Nat.add_sub_cancel]

/-- Back by the distance of two pointers. -/
theorem prev_sub {p q : Ptr} (hblock : q.block = p.block) (hle : p.offset ≤ q.offset) :
    q.prev (q.offset - p.offset) = .ok p := by
  rw [prev, if_pos (Nat.sub_le _ _), Nat.sub_sub_self hle, hblock]

end Ptr

/-- The sizes of the regions there are, and the bytes at every place. -/
structure Memory where
  sizes : List Nat
  bytes : Ptr → Byte

structure Block where
  ptr : Ptr
  size : Nat
deriving DecidableEq, Repr

namespace Block

def Covers (b : Block) (q : Ptr) : Prop :=
  q.block = b.ptr.block ∧ b.ptr.offset ≤ q.offset ∧ q.offset < b.ptr.offset + b.size

instance (b : Block) (q : Ptr) : Decidable (b.Covers q) := inferInstanceAs (Decidable (_ ∧ _ ∧ _))

def Disjoint (b c : Block) : Prop := ∀ q, b.Covers q → ¬ c.Covers q

/-- The `n` bytes at `p` are of the block. -/
def Within (p : Ptr) (n : Nat) (b : Block) : Prop :=
  p.block = b.ptr.block ∧ b.ptr.offset ≤ p.offset ∧ p.offset + n ≤ b.ptr.offset + b.size

instance (p : Ptr) (n : Nat) (b : Block) : Decidable (Within p n b) :=
  inferInstanceAs (Decidable (_ ∧ _ ∧ _))

/-- The block with the header of `n` bytes before it. -/
def outer (n : Nat) (b : Block) : Block := ⟨⟨b.ptr.block, b.ptr.offset - n⟩, b.size + n⟩

/-- What is left of a block behind a header of `n` bytes. -/
def inner (n : Nat) (b : Block) : Block := ⟨b.ptr.next n, b.size - n⟩

variable {b c d : Block} {q : Ptr} {n : Nat}

theorem covers_ptr (h : 0 < b.size) : b.Covers b.ptr := ⟨rfl, Nat.le_refl _, by omega⟩

theorem Disjoint.symm (h : Disjoint b c) : Disjoint c b := fun q hc hb => h q hb hc

theorem disjoint_of_block (h : b.ptr.block ≠ c.ptr.block) : Disjoint b c :=
  fun _ hb hc => h (hb.1.symm.trans hc.1)

theorem Disjoint.ptr_ne (h : Disjoint b c) (hb : 0 < b.size) (hc : 0 < c.size) : b.ptr ≠ c.ptr :=
  fun e => h _ (covers_ptr hb) (e ▸ covers_ptr hc)

/-- What a block covers it covers with its header. -/
theorem Covers.outer (h : b.Covers q) (n : Nat) : (b.outer n).Covers q := by
  obtain ⟨h1, h2, h3⟩ := h
  refine ⟨h1, ?_, ?_⟩
  · simp only [Block.outer]
    omega
  · simp only [Block.outer]
    omega

@[simp] theorem outer_size : (b.outer n).size = b.size + n := rfl

theorem prev_ptr (h : n ≤ b.ptr.offset) : b.ptr.prev n = .ok (b.outer n).ptr := if_pos h

theorem outer_inner (h : n ≤ b.size) : (b.inner n).outer n = b := by
  simp [outer, inner, Ptr.next, Nat.sub_add_cancel h]

theorem Disjoint.of_outer (h : Disjoint (b.outer n) (c.outer n)) : Disjoint b c :=
  fun q hb hc => h q (hb.outer n) (hc.outer n)

end Block

namespace Memory

variable {m m' : Memory} {p q : Ptr} {n : Nat} {bs : List Byte} {b : Block}

def allocate (m : Memory) (n : Nat) : Ptr × Memory := (⟨m.sizes.length, 0⟩, { m with sizes := m.sizes ++ [n] })

def release (m : Memory) (p : Ptr) : Memory := { m with sizes := m.sizes.set p.block 0 }

/-- There are `n` bytes at `p`. -/
def Inside (m : Memory) (p : Ptr) (n : Nat) : Prop := p.offset + n ≤ m.sizes.getD p.block 0

instance (m : Memory) (p : Ptr) (n : Nat) : Decidable (m.Inside p n) := Nat.decLe _ _

def load (m : Memory) (p : Ptr) (n : Nat) : Except Fault (List Byte) :=
  if m.Inside p n then .ok ((List.range n).map fun i => m.bytes (p.next i)) else .error .outOfBounds

def store (m : Memory) (p : Ptr) (bs : List Byte) : Except Fault Memory :=
  if m.Inside p bs.length then
    .ok { m with
      bytes := fun q =>
        if Block.Covers ⟨p, bs.length⟩ q then bs.getD (q.offset - p.offset) 0 else m.bytes q }
  else .error .outOfBounds

theorem Inside.mono {k : Nat} (h : m.Inside p n) (hk : k ≤ n) : m.Inside p k :=
  Nat.le_trans (Nat.add_le_add_left hk _) h

theorem Inside.of_offset (h : m.Inside p n) (hb : q.block = p.block) {k : Nat}
    (ho : q.offset + k ≤ p.offset + n) : m.Inside q k := by
  unfold Inside at *
  rw [hb]
  omega

theorem inside_congr (h : m'.sizes = m.sizes) : m'.Inside p n ↔ m.Inside p n := by
  unfold Inside
  rw [h]

theorem load_ok (h : m.Inside p n) :
    m.load p n = .ok ((List.range n).map fun i => m.bytes (p.next i)) := if_pos h

/-- There are more regions, and the bytes are the same. -/
structure Grew (m m' : Memory) : Prop where
  bytes : m'.bytes = m.bytes
  sizes : m.sizes <+: m'.sizes

theorem Grew.rfl : Grew m m := ⟨Eq.refl _, List.prefix_rfl⟩

theorem Grew.trans {m'' : Memory} (h : Grew m m') (h' : Grew m' m'') : Grew m m'' :=
  ⟨h'.bytes.trans h.bytes, h.sizes.trans h'.sizes⟩

theorem getElem?_of_grew {i k : Nat} (h : m.sizes <+: m'.sizes) (e : m.sizes[i]? = some k) :
    m'.sizes[i]? = some k := by
  obtain ⟨l, h⟩ := h
  rw [← h, List.getElem?_append_left (List.getElem?_eq_some_iff.1 e).1]
  exact e

theorem grew_allocate (m : Memory) (n : Nat) : Grew m (m.allocate n).2 := ⟨Eq.refl _, List.prefix_append _ _⟩

/-- A region that is given up at once. -/
theorem grew_release (m : Memory) (n : Nat) : Grew m ((m.allocate n).2.release (m.allocate n).1) := by
  refine ⟨Eq.refl _, ?_⟩
  simp [allocate, release]

theorem Inside.grow (h : m.Inside p n) (hs : m.sizes <+: m'.sizes) : m'.Inside p n := by
  obtain ⟨l, hl⟩ := hs
  unfold Inside at *
  rw [List.getD_eq_getElem?_getD] at *
  rw [← hl]
  rcases Nat.lt_or_ge p.block m.sizes.length with hlt | hge
  · rwa [List.getElem?_append_left hlt]
  · rw [List.getElem?_eq_none hge] at h
    exact Nat.le_trans h (Nat.zero_le _)

theorem load_congr (hs : m'.Inside p n ↔ m.Inside p n)
    (hb : ∀ q, Block.Covers ⟨p, n⟩ q → m'.bytes q = m.bytes q) : m'.load p n = m.load p n := by
  unfold load
  by_cases h : m.Inside p n
  · rw [if_pos h, if_pos (hs.2 h)]
    congr 1
    refine List.map_congr_left fun i hi => hb _ ⟨rfl, Nat.le_add_right _ _, ?_⟩
    have := List.mem_range.1 hi
    simp only [Ptr.next]
    omega
  · rw [if_neg h, if_neg (mt hs.1 h)]

theorem inside_of_load (h : m.load p n = .ok bs) : m.Inside p n := by
  unfold load at h
  split at h
  · assumption
  · cases h

theorem load_of_grow (h : m.load p n = .ok bs) (hs : m.sizes <+: m'.sizes)
    (hb : ∀ q, Block.Covers ⟨p, n⟩ q → m'.bytes q = m.bytes q) : m'.load p n = .ok bs := by
  have hin := inside_of_load h
  rw [← h]
  exact load_congr ⟨fun _ => hin, fun _ => hin.grow hs⟩ hb

theorem store_ok (bs : List Byte) (h : m.Inside p bs.length) : ∃ m', m.store p bs = .ok m' := ⟨_, if_pos h⟩

theorem inside_of_store (h : m.store p bs = .ok m') : m.Inside p bs.length := by
  unfold store at h
  split at h
  · assumption
  · cases h

theorem sizes_store (h : m.store p bs = .ok m') : m'.sizes = m.sizes := by
  unfold store at h
  split at h
  · obtain rfl := Except.ok.inj h
    rfl
  · cases h

/-- A store leaves the bytes that it does not write. -/
theorem bytes_store (h : m.store p bs = .ok m') (hq : ¬ Block.Covers ⟨p, bs.length⟩ q) :
    m'.bytes q = m.bytes q := by
  unfold store at h
  split at h
  · obtain rfl := Except.ok.inj h
    exact if_neg hq
  · cases h

/-- A load returns what was stored. -/
theorem load_store (h : m.store p bs = .ok m') : m'.load p bs.length = .ok bs := by
  have hin := inside_of_store h
  rw [load_ok ((inside_congr (sizes_store h)).2 hin)]
  congr 1
  unfold store at h
  rw [if_pos hin] at h
  obtain rfl := Except.ok.inj h
  refine List.ext_getElem (by simp) fun i hi hi' => ?_
  have hc : Block.Covers ⟨p, bs.length⟩ (p.next i) := by
    refine ⟨rfl, Nat.le_add_right _ _, ?_⟩
    simp only [Ptr.next]
    omega
  rw [List.getElem_map, List.getElem_range]
  dsimp only
  rw [if_pos hc, Ptr.next, Nat.add_sub_cancel_left, List.getD_eq_getElem?_getD,
    List.getElem?_eq_getElem hi', Option.getD_some]

end Memory

end Region
