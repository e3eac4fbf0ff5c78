import Mathlib.Data.List.ReduceOption
import NeuralNetwork.Lib.Loop
import NeuralNetwork.Lib.Region

/-!
# Allocators over a memory of regions

An `Allocator` answers a batch of sizes with pointers and takes a batch of pointers back. `Lawful` is what
its users rely on: the blocks handed out lie in memory and do not overlap, what they hold is their users'
(`frame`), and nothing but the users writes to it (`Kept`). `Ends short x Q`: `x` ends with `Q`, or aborts
because memory ran `short`. `logged` notes what was handed out and taken back (`Lawful.logged`).
-/

namespace Region

open Cpp Loop

/-- The call ends with `Q`, or it aborts, where that may happen. -/
def Ends {α : Type} (short : Prop) (x : Except Fault α) (Q : α → Prop) : Prop :=
  (∃ a, x = .ok a ∧ Q a) ∨ (x = .error .abort ∧ short)

namespace Ends

variable {α β : Type} {short : Prop} {x : Except Fault α} {Q P : α → Prop}

theorem ok {a : α} (h : Q a) : Ends short (.ok a) Q := .inl ⟨a, rfl, h⟩

theorem of_ok (h : ∃ a, x = .ok a ∧ Q a) : Ends short x Q := .inl h

theorem abort (h : short) : Ends short (.error .abort) Q := .inr ⟨rfl, h⟩

theorem bind {f : α → Except Fault β} {R : β → Prop} (h : Ends short x Q)
    (hf : ∀ a, Q a → Ends short (f a) R) : Ends short (x >>= f) R := by
  rcases h with ⟨a, rfl, ha⟩ | ⟨rfl, hs⟩
  · exact hf a ha
  · exact .inr ⟨rfl, hs⟩

theorem mono (h : Ends short x Q) (hq : ∀ a, Q a → P a) : Ends short x P := by
  rcases h with ⟨a, rfl, ha⟩ | ⟨rfl, hs⟩
  · exact ok (hq a ha)
  · exact abort hs

theorem weaken {short' : Prop} (h : Ends short x Q) (hs : short → short') : Ends short' x Q := by
  rcases h with h | ⟨e, h⟩
  · exact .inl h
  · exact .inr ⟨e, hs h⟩

theorem of_eq_ok {a : α} (h : Ends short x Q) (e : x = .ok a) : Q a := by
  rcases h with ⟨b, e', hb⟩ | ⟨e', -⟩
  · obtain rfl := Except.ok.inj (e'.symm.trans e)
    exact hb
  · cases e'.symm.trans e

theorem of_eq_error {fault : Fault} (h : Ends short x Q) (e : x = .error fault) :
    fault = .abort ∧ short := by
  rcases h with ⟨b, e', -⟩ | ⟨e', hs⟩
  · cases e'.symm.trans e
  · exact ⟨(Except.error.inj (e'.symm.trans e)).symm, hs⟩

end Ends

/-! ## What stays as it is -/

/-- The bytes of the blocks are the same in both memories. -/
def Kept (live : List Block) (m m' : Memory) : Prop :=
  ∀ b ∈ live, ∀ q, b.Covers q → m'.bytes q = m.bytes q

namespace Kept

variable {live live' : List Block} {m m' m'' : Memory}

theorem refl (live : List Block) (m : Memory) : Kept live m m := fun _ _ _ _ => rfl

theorem trans (h : Kept live m m') (h' : Kept live m' m'') : Kept live m m'' :=
  fun b hb q hq => (h' b hb q hq).trans (h b hb q hq)

theorem mono (h : Kept live m m') (hl : live' ⊆ live) : Kept live' m m' :=
  fun b hb q hq => h b (hl hb) q hq

theorem load (h : Kept live m m') {b : Block} (hb : b ∈ live) {p : Ptr} {n : Nat}
    (hin : m.Inside b.ptr b.size) (hin' : m'.Inside b.ptr b.size) (hw : Block.Within p n b) :
    m'.load p n = m.load p n := by
  obtain ⟨hp, hlo, hhi⟩ := hw
  refine Memory.load_congr (iff_of_true (hin'.of_offset hp hhi) (hin.of_offset hp hhi)) ?_
  intro q hq
  obtain ⟨h1, h2, h3⟩ := hq
  exact h b hb q ⟨h1.trans hp, Nat.le_trans hlo h2, Nat.lt_of_lt_of_le h3 hhi⟩

end Kept

/-! ## Allocators -/

/-- `malloc` of an array of sizes and `free` of an array of pointers, of which any may be null. -/
structure Allocator (σ : Type) where
  malloc : List Nat → σ × Memory → Except Fault (List (Option Ptr) × σ × Memory)
  free : List (Option Ptr) → σ × Memory → Except Fault (σ × Memory)

/-- `inv s m live`: the blocks `live` are handed out. `limit` bounds what may be asked for. -/
structure Lawful {σ : Type} (A : Allocator σ) (short : Prop) (limit : Nat)
    (inv : σ → Memory → List Block → Prop) : Prop where
  perm : ∀ {s m live live'}, inv s m live → live.Perm live' → inv s m live'
  disjoint : ∀ {s m live}, inv s m live → live.Pairwise Block.Disjoint
  inside : ∀ {s m live}, inv s m live → ∀ b ∈ live, 0 < b.size ∧ m.Inside b.ptr b.size
  /-- Its users may write to what they were given. -/
  frame : ∀ {s m m' live}, inv s m live → m'.sizes = m.sizes →
    (∀ q, (∀ b ∈ live, ¬ b.Covers q) → m'.bytes q = m.bytes q) → inv s m' live
  malloc : ∀ {s m live} (sizes : List Nat), inv s m live → (∀ n ∈ sizes, 0 < n ∧ n ≤ limit) →
    Ends short (A.malloc sizes (s, m)) fun r => ∃ bs : List Block, r.1 = bs.map (fun b => some b.ptr) ∧
      bs.map Block.size = sizes ∧ inv r.2.1 r.2.2 (bs ++ live) ∧ Kept live m r.2.2
  free : ∀ {s m live} (bs : List Block), inv s m (bs ++ live) →
    ∃ s' m', A.free (bs.map fun b => some b.ptr) (s, m) = .ok (s', m') ∧ inv s' m' live ∧ Kept live m m'

/-! ## A log of what is handed out -/

/-- Every pointer handed out, and every pointer taken back. -/
structure Log where
  obtained : List Ptr
  returned : List Ptr

/-- The allocator with a log of its traffic. -/
def Allocator.logged {σ : Type} (A : Allocator σ) : Allocator (σ × Log) where
  malloc sizes s := do
    let (ps, t, m) ← A.malloc sizes (s.1.1, s.2)
    .ok (ps, (t, { s.1.2 with obtained := s.1.2.obtained ++ ps.reduceOption }), m)
  free ps s := do
    let (t, m) ← A.free ps (s.1.1, s.2)
    .ok ((t, { s.1.2 with returned := s.1.2.returned ++ ps.reduceOption }), m)

/-- What was handed out is out or was taken back, as often as it was handed out. -/
def Balanced (log : Log) (live : List Block) : Prop :=
  log.obtained.Perm (live.map Block.ptr ++ log.returned)

theorem reduceOption_map_some {α β : Type} (f : α → β) (l : List α) :
    (l.map fun a => some (f a)).reduceOption = l.map f := by
  induction l with
  | nil => rfl
  | cons a l ih => rw [List.map_cons, List.reduceOption_cons_of_some, ih, List.map_cons]

variable {σ : Type} {A : Allocator σ} {short : Prop} {limit : Nat}
  {inv : σ → Memory → List Block → Prop}

theorem Lawful.logged (h : Lawful A short limit inv) :
    Lawful A.logged short limit fun s m live => inv s.1 m live ∧ Balanced s.2 live where
  perm hi hp := ⟨h.perm hi.1 hp, hi.2.trans ((hp.map _).append_right _)⟩
  disjoint hi := h.disjoint hi.1
  inside hi := h.inside hi.1
  frame hi hs hb := ⟨h.frame hi.1 hs hb, hi.2⟩
  malloc := by
    intro s m live sizes hi hn
    refine (h.malloc sizes hi.1 hn).bind fun r hr => ?_
    obtain ⟨bs, hp, hsz, hinv, hk⟩ := hr
    refine .ok ⟨bs, hp, hsz, ⟨hinv, ?_⟩, hk⟩
    rw [hp, Balanced, reduceOption_map_some, List.map_append, List.append_assoc]
    exact List.perm_append_comm.trans (hi.2.append_left _)
  free := by
    intro s m live bs hi
    obtain ⟨t, m', e, hinv, hk⟩ := h.free bs hi.1
    have hlog : A.logged.free (bs.map fun b => some b.ptr) (s, m) =
        .ok ((t, { s.2 with returned := s.2.returned ++ bs.map Block.ptr }), m') := by
      simp only [Allocator.logged, e, ok_bind, reduceOption_map_some]
    refine ⟨_, m', hlog, ⟨hinv, ?_⟩, hk⟩
    have hb := hi.2
    rw [Balanced, List.map_append, List.append_assoc] at hb
    refine (hb.trans List.perm_append_comm).trans ?_
    rw [List.append_assoc]

/-! ## Aligned pointers -/

/-- `malloc` of one block, which returns a pointer or null, or throws (`none`), and `free`. -/
structure BlockAllocator (σ : Type) where
  malloc : Nat → σ × Memory → Except Fault (Option (Option Ptr) × σ × Memory)
  free : Option Ptr → σ × Memory → Except Fault (σ × Memory)

/-- `(x + (a - 1)) & ~(a - 1)` on `uintptr_t`. -/
def alignUp (x a : Nat) : Nat := sizeT (x + subT a 1) &&& (2 ^ 64 - 1 - subT a 1)

namespace Ptr

/-- Where a pointer is, if the regions begin at `addr`. -/
def address (addr : Nat → Nat) (p : Ptr) : Nat := addr p.block + p.offset

/-- The pointer to the next aligned address. -/
def alignUp (addr : Nat → Nat) (p : Ptr) (a : Nat) : Except Fault Ptr :=
  let aligned := Region.alignUp (p.address addr) a
  if addr p.block ≤ aligned then .ok ⟨p.block, aligned - addr p.block⟩ else .error .undefined

end Ptr

/-- The bits from the `k`-th on. -/
theorem and_mask {x k : Nat} (hx : x < 2 ^ 64) (hk : k ≤ 64) : x &&& (2 ^ 64 - 2 ^ k) = x / 2 ^ k * 2 ^ k := by
  have hmask : 2 ^ 64 - 2 ^ k = (2 ^ (64 - k) - 1) * 2 ^ k := by
    rw [Nat.sub_mul, Nat.one_mul, ← Nat.pow_add, Nat.sub_add_cancel hk]
  apply Nat.eq_of_testBit_eq
  intro j
  rw [hmask, Nat.testBit_and, Nat.testBit_mul_two_pow, Nat.testBit_mul_two_pow,
    Nat.testBit_two_pow_sub_one, Nat.testBit_div_two_pow]
  by_cases hj : k ≤ j
  · rw [Nat.sub_add_cancel hj]
    by_cases hj' : j < 64
    · have : j - k < 64 - k := by omega
      simp [hj, this]
    · rw [Nat.testBit_lt_two_pow (hx.trans_le (Nat.pow_le_pow_right Nat.two_pos (Nat.not_lt.1 hj')))]
      simp
  · simp [hj]

theorem alignUp_two_pow {x k : Nat} (hk : k < 64) (hx : x + 2 ^ k ≤ 2 ^ 64) :
    alignUp x (2 ^ k) = (x + (2 ^ k - 1)) / 2 ^ k * 2 ^ k := by
  have hpos := Nat.two_pow_pos k
  have hlt : 2 ^ k < 2 ^ 64 := Nat.pow_lt_pow_right Nat.one_lt_two hk
  have hmask : 2 ^ 64 - 1 - (2 ^ k - 1) = 2 ^ 64 - 2 ^ k := by omega
  rw [alignUp, subT_of_le hpos hlt, sizeT_of_lt (by omega), hmask, and_mask (by omega) hk.le]

/-- **The aligned pointer** is not before the pointer, and less than an alignment behind it. -/
theorem Ptr.alignUp_ok {addr : Nat → Nat} {p : Ptr} {k : Nat} (hk : k < 64)
    (hfit : p.address addr + 2 ^ k ≤ 2 ^ 64) : ∃ q, p.alignUp addr (2 ^ k) = .ok q ∧
      q.block = p.block ∧ p.offset ≤ q.offset ∧ q.offset < p.offset + 2 ^ k ∧ 2 ^ k ∣ q.address addr := by
  have hpos := Nat.two_pow_pos k
  have hdiv := Nat.div_add_mod' (p.address addr + (2 ^ k - 1)) (2 ^ k)
  have hmod := Nat.mod_lt (p.address addr + (2 ^ k - 1)) hpos
  have heq := alignUp_two_pow hk hfit
  have hdvd : 2 ^ k ∣ Region.alignUp (p.address addr) (2 ^ k) := heq ▸ Nat.dvd_mul_left _ _
  rw [← heq] at hdiv
  have haddr : p.address addr = addr p.block + p.offset := rfl
  have hle : addr p.block ≤ Region.alignUp (p.address addr) (2 ^ k) := by omega
  refine ⟨⟨p.block, Region.alignUp (p.address addr) (2 ^ k) - addr p.block⟩, if_pos hle, rfl, ?_, ?_, ?_⟩
  · dsimp only
    omega
  · dsimp only
    omega
  · rw [← Nat.add_sub_cancel' hle] at hdvd
    exact hdvd

end Region
