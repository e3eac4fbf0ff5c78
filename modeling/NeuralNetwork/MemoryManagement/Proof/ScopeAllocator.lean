import NeuralNetwork.Lib.Arena
import NeuralNetwork.MemoryManagement.ConventionalAllocator

/-!
# The arena of a scope allocator

The pieces of a `ScopeAllocator` are disjoint and each is twice as large as the one before (`Pieces`), so it
carves blocks as an arena with scopes does: `Lends` is what it owes to the open scopes and to a cache, and
there is one lemma for each of its operations.
-/

namespace ConventionalAllocator

open Cpp Region Command ScopeAllocator
open Region.Arena (Position Layers Level Valid Before After Placed carved)

variable {α : Type} {answers : Answers}

/-! ## Pieces -/

def SavedPoint.position (p : SavedPoint) : Position := toLex (p.mempieceIdx, p.mempieceOffset)

structure Pieces (a : ScopeAllocator) (m : Memory) (pieces : List Block) : Prop where
  base_pos : 0 < a.baseAllocationSz
  base_lt : a.baseAllocationSz < 2 ^ 64
  vec : a.mempieceVec = pieces.map fun b => ⟨some b.ptr, b.size⟩
  size : ∀ i b, pieces[i]? = some b → b.size = 2 ^ i * a.baseAllocationSz ∧ b.size < 2 ^ 63
  region : ∀ b ∈ pieces, b.ptr.offset = 0 ∧ m.sizes[b.ptr.block]? = some b.size
  disjoint : pieces.Pairwise Block.Disjoint

structure Kept (w w' : World ScopeAllocator) : Prop where
  saved : w'.obj.savedPointVec = w.obj.savedPointVec
  point : w'.obj.currentPoint = w.obj.currentPoint
  mem : w.mem.Grew w'.mem

theorem Kept.trans {w w' w'' : World ScopeAllocator} (h : Kept w w') (h' : Kept w' w'') : Kept w w'' :=
  ⟨h'.saved.trans h.saved, h'.point.trans h.point, h.mem.trans h'.mem⟩

theorem StdAllocator.malloc_wp {w : World α} {sz : Nat} (hsz : 0 < sz) :
    wp (StdAllocator.malloc answers sz)
      (fun rs w' => rs = some (w.mem.allocate sz).1 ∧ sz < 2 ^ 63 ∧
        w' = { w with mem := (w.mem.allocate sz).2 }) (fun _ w' => w' = w) w := by
  unfold StdAllocator.malloc
  rw [if_neg (by omega), wp_bind, wp_getState]
  split
  · rfl
  · rename_i h
    exact ⟨rfl, by omega, rfl⟩

namespace Pieces

variable {a : ScopeAllocator} {m m' : Memory} {pieces : List Block} {w : World ScopeAllocator}

section

variable (h : Pieces a m pieces)

include h

theorem length_lt : pieces.length < 64 := by
  by_contra hlt
  have hget := List.getElem?_eq_getElem (l := pieces) (i := 63) (by omega)
  obtain ⟨hsize, hmax⟩ := h.size _ _ hget
  have hle := Nat.mul_le_mul_left (2 ^ 63) h.base_pos
  omega

theorem getElem? (i : Nat) :
    a.mempieceVec[i]? = pieces[i]?.map fun b => ⟨some b.ptr, b.size⟩ := by
  rw [h.vec, List.getElem?_map]

theorem length_eq : a.mempieceVec.length = pieces.length := by
  rw [h.vec, List.length_map]

theorem setPoints (saved : List (Option SavedPoint)) (point : Option SavedPoint) :
    Pieces { a with savedPointVec := saved, currentPoint := point } m pieces :=
  ⟨h.base_pos, h.base_lt, h.vec, h.size, h.region, h.disjoint⟩

theorem grow (hs : m.sizes <+: m'.sizes) : Pieces a m' pieces :=
  { h with region := fun b hb => ⟨(h.region b hb).1, Memory.getElem?_of_grew hs (h.region b hb).2⟩ }

theorem capacity :
    a.getMempieceBufferCapacityAt pieces.length = .ok (2 ^ pieces.length * a.baseAllocationSz) := by
  have hlt : 2 ^ pieces.length * a.baseAllocationSz < 2 ^ 64 := by
    rcases Nat.eq_zero_or_pos pieces.length with h0 | hpos
    · rw [h0, Nat.pow_zero, Nat.one_mul]
      exact h.base_lt
    · have hget := List.getElem?_eq_getElem (l := pieces) (i := pieces.length - 1) (by omega)
      obtain ⟨hsize, hmax⟩ := h.size _ _ hget
      have hpow : 2 ^ pieces.length = 2 * 2 ^ (pieces.length - 1) := by
        rw [← pow_succ', Nat.sub_add_cancel hpos]
      rw [hpow, Nat.mul_assoc, ← hsize]
      omega
  unfold getMempieceBufferCapacityAt getPow2
  rw [if_pos h.length_lt]
  exact congrArg Except.ok (sizeT_of_lt hlt)

theorem push (hmax : 2 ^ pieces.length * a.baseAllocationSz < 2 ^ 63) :
    let sz := 2 ^ pieces.length * a.baseAllocationSz
    Pieces { a with mempieceVec := a.mempieceVec ++ [⟨some (m.allocate sz).1, sz⟩] } (m.allocate sz).2
      (pieces ++ [⟨(m.allocate sz).1, sz⟩]) := by
  intro sz
  have hgrew := Memory.grew_allocate m sz
  refine ⟨h.base_pos, h.base_lt, ?_, ?_, ?_, ?_⟩
  · rw [List.map_append, ← h.vec]
    rfl
  · intro i b hb
    rcases Nat.lt_trichotomy i pieces.length with hlt | rfl | hgt
    · rw [List.getElem?_append_left hlt] at hb
      exact h.size i b hb
    · rw [List.getElem?_concat_length] at hb
      obtain rfl := Option.some.inj hb
      exact ⟨rfl, hmax⟩
    · rw [List.getElem?_eq_none (by rw [List.length_append, List.length_singleton]; omega)] at hb
      cases hb
  · intro b hb
    rcases List.mem_append.1 hb with hb | hb
    · exact ((h.grow hgrew.sizes).region b hb)
    · obtain rfl := List.mem_singleton.1 hb
      exact ⟨rfl, List.getElem?_concat_length⟩
  · refine List.pairwise_append.2 ⟨h.disjoint, List.pairwise_singleton _ _, fun b hb c hc => ?_⟩
    obtain rfl := List.mem_singleton.1 hc
    refine Block.disjoint_of_block fun e => ?_
    have hget := (h.region b hb).2
    rw [e, Memory.allocate, List.getElem?_eq_none (Nat.le_refl _)] at hget
    cases hget

end

theorem reserveOne (h : Pieces w.obj w.mem pieces) :
    wp (ScopeAllocator.reserveOne answers 0)
      (fun _ w' => ∃ b, Pieces w'.obj w'.mem (pieces ++ [b]) ∧ Kept w w')
      (fun _ w' => Pieces w'.obj w'.mem pieces ∧ Kept w w') w := by
  have hpos : 0 < 2 ^ pieces.length * w.obj.baseAllocationSz :=
    Nat.mul_pos (Nat.two_pow_pos _) h.base_pos
  unfold ScopeAllocator.reserveOne
  rw [wp_bind, wp_getState, wp_bind, h.length_eq, Nat.add_zero]
  refine wp_lift h.capacity ?_
  rw [wp_bind]
  refine (StdAllocator.malloc_wp hpos).mono ?_ ?_
  · rintro rs w' ⟨rfl, hmax, rfl⟩
    have hgrew := Memory.grew_allocate w.mem (2 ^ pieces.length * w.obj.baseAllocationSz)
    rw [wp_tryCatch, pushMempiece]
    by_cases hroom : answers.pieceRoom = true
    · rw [if_neg (not_not.2 hroom)]
      exact ⟨_, h.push hmax, rfl, rfl, hgrew⟩
    · rw [if_pos hroom]
      have hrelease := Memory.grew_release w.mem (2 ^ pieces.length * w.obj.baseAllocationSz)
      exact ⟨h.grow hrelease.sizes, rfl, rfl, hrelease⟩
  · rintro e w' rfl
    exact ⟨h, rfl, rfl, .rfl⟩

theorem reserve {sz : Nat} (h : Pieces w.obj w.mem pieces) (hsz : sz ≤ pieces.length + 1) :
    wp (reserveMempieceVecFor answers sz)
      (fun _ w' => ∃ pieces', pieces <+: pieces' ∧ sz ≤ pieces'.length ∧ Pieces w'.obj w'.mem pieces' ∧
        Kept w w')
      (fun _ w' => Pieces w'.obj w'.mem pieces ∧ Kept w w') w := by
  unfold reserveMempieceVecFor
  rw [wp_bind, wp_getState, h.length_eq]
  dsimp only
  rcases Nat.lt_or_ge pieces.length sz with hlt | hge
  · have hdiff : max sz pieces.length - pieces.length = 1 := by omega
    rw [hdiff]
    change wp (ScopeAllocator.reserveOne answers 0 >>= fun _ => pure ()) _ _ _
    rw [wp_bind]
    refine h.reserveOne.mono ?_ (fun _ _ he => he)
    rintro - w' ⟨b, hb, hkept⟩
    refine ⟨_, List.prefix_append _ _, ?_, hb, hkept⟩
    rw [List.length_append]
    exact hsz
  · have hdiff : max sz pieces.length - pieces.length = 0 := by omega
    rw [hdiff]
    exact ⟨pieces, List.prefix_rfl, hge, h, rfl, rfl, .rfl⟩

end Pieces

/-! ## The cursor -/

/-- What `malloc` found: the place `b` for the block, behind which it put the cursor `q`. -/
structure Found (w : World ScopeAllocator) (pieces : List Block) (p : Position) (b : Block)
    (w' : World ScopeAllocator) (pieces' : List Block) (q : SavedPoint) : Prop where
  grown : pieces <+: pieces'
  pieces : Pieces w'.obj w'.mem pieces'
  point : w'.obj.currentPoint = some q
  le : p ≤ q.position
  valid : Valid pieces' q.position
  after : After pieces' p b
  before : Before pieces' b q.position
  saved : w'.obj.savedPointVec = w.obj.savedPointVec
  mem : w.mem.Grew w'.mem

theorem mallocLoop_wp {sz : Nat} (fuel : Nat) {point : SavedPoint} {w : World ScopeAllocator}
    {pieces : List Block} (h : Pieces w.obj w.mem pieces) (hv : Valid pieces point.position)
    (hfuel : 64 ≤ fuel + point.mempieceIdx) :
    wp (mallocLoop answers sz fuel point)
      (fun rs w' => ∃ b pieces' q, rs = some b.ptr ∧ b.size = sz ∧
        Found w pieces point.position b w' pieces' q)
      (fun _ w' => ∃ pieces', pieces <+: pieces' ∧ Pieces w'.obj w'.mem pieces' ∧ Kept w w') w := by
  obtain ⟨piece, hget, hoff⟩ := hv
  have hidx : point.mempieceIdx < pieces.length := (List.getElem?_eq_some_iff.1 hget).1
  induction fuel generalizing point w pieces piece with
  | zero => exact absurd h.length_lt (by omega)
  | succ fuel ih =>
    change pieces[point.mempieceIdx]? = some piece at hget
    change point.mempieceOffset ≤ piece.size at hoff
    unfold mallocLoop
    rw [wp_bind, wp_getState, h.getElem?, hget]
    dsimp only [Option.map_some]
    have hmax := (h.size _ _ hget).2
    rw [subT_of_le hoff (by omega)]
    by_cases hroom : sz ≤ piece.size - point.mempieceOffset
    · rw [if_pos hroom, wp_bind, wp_setState, wp_pure]
      refine ⟨⟨piece.ptr.next point.mempieceOffset, sz⟩, pieces, _, rfl, rfl, List.prefix_rfl,
        h.setPoints _ _, rfl, ?_, ⟨piece, hget, by dsimp only [SavedPoint.position, ofLex_toLex]; omega⟩,
        ⟨_, _, ⟨piece, hget, rfl, by dsimp only; omega⟩, le_rfl⟩,
        ⟨_, _, ⟨piece, hget, rfl, by dsimp only; omega⟩, le_rfl⟩, rfl, .rfl⟩
      exact Prod.Lex.toLex_le_toLex.2 (.inr ⟨rfl, Nat.le_add_right _ _⟩)
    · rw [if_neg hroom, wp_bind]
      refine (h.reserve (by omega)).mono ?_ ?_
      · rintro - w1 ⟨pieces1, hgrown, hlen, h1, hkept⟩
        obtain ⟨piece1, hget1⟩ : ∃ piece1, pieces1[point.mempieceIdx + 1]? = some piece1 :=
          ⟨_, List.getElem?_eq_getElem (by omega)⟩
        have hstep : wp (mallocLoop answers sz fuel ⟨point.mempieceIdx + 1, 0⟩) _ _ w1 :=
          ih h1 (by dsimp only; omega) piece1 hget1 (Nat.zero_le _) (by dsimp only; omega)
        have hle : point.position ≤ (⟨point.mempieceIdx + 1, 0⟩ : SavedPoint).position :=
          Prod.Lex.toLex_le_toLex.2 (.inl (Nat.lt_succ_self _))
        refine hstep.mono ?_ ?_
        · rintro rs w2 ⟨b, pieces2, q, hrs, hsize, hf⟩
          obtain ⟨i, off, hplaced, hafter⟩ := hf.after
          exact ⟨b, pieces2, q, hrs, hsize, hgrown.trans hf.grown, hf.pieces, hf.point,
            hle.trans hf.le, hf.valid, ⟨i, off, hplaced, hle.trans hafter⟩, hf.before,
            hf.saved.trans hkept.saved, hkept.mem.trans hf.mem⟩
        · rintro e w2 ⟨pieces2, hgrown2, h2, hkept2⟩
          exact ⟨pieces2, hgrown.trans hgrown2, h2, hkept.trans hkept2⟩
      · rintro e w1 ⟨h1, hkept⟩
        exact ⟨pieces, List.prefix_rfl, h1, hkept⟩

/-! ## What the arena lends -/

def liveOf (scopes : List Scope) : List Block := scopes.flatMap (·.live)

theorem liveOf_eq (scopes : List Scope) : liveOf scopes = (scopes.map (·.live)).flatten := List.flatMap_def ..

/-- The blocks of the open scopes, with headers of `n` bytes, and `held` were carved from the arena, and what
an outer scope has was not carved in an inner one. -/
structure Lends (n : Nat) (held : List Block) (a : ScopeAllocator) (m : Memory) (scopes : List Scope) :
    Prop where
  carves : ∃ pieces levels, Pieces a m pieces ∧
    Layers pieces (a.currentPoint.map SavedPoint.position) levels ∧
    levels.map (·.1) = scopes.map (·.opened.map SavedPoint.position) ∧
    Arena.Holds n levels (scopes.map (·.live)) held
  saved : a.savedPointVec = (scopes.map (·.opened)).reverse
  blocks : ∀ b ∈ liveOf scopes, n ≤ b.ptr.offset ∧ 0 < b.size

def InArena (a : ScopeAllocator) (b : Block) : Prop :=
  ∃ piece ∈ a.mempieceVec, ∃ buf, piece.buf = some buf ∧ Block.Within b.ptr b.size ⟨buf, piece.bufSz⟩

namespace Lends

variable {n : Nat} {held held' : List Block} {a : ScopeAllocator} {m m' : Memory} {scopes : List Scope}
  {scope : Scope} {b c : Block} {w : World ScopeAllocator}

theorem start {a : ScopeAllocator} {baseAllocationSz : Nat} (hlt : baseAllocationSz < 2 ^ 64)
    (e : ScopeAllocator.make baseAllocationSz = .ok a) (n : Nat) (m : Memory) : Lends n [] a m [] := by
  unfold ScopeAllocator.make at e
  split at e
  · cases e
  · rename_i hne
    obtain rfl := Except.ok.inj e
    refine ⟨⟨[], [], ⟨Nat.pos_of_ne_zero hne, hlt, rfl, ?_, ?_, .nil⟩, .nil, rfl, .nil n⟩, rfl, ?_⟩
    · intro i b hb
      cases hb
    · intro b hb
      cases hb
    · intro b hb
      cases hb

theorem weaken (h : Lends n held a m scopes) (hs : held'.Subperm held) : Lends n held' a m scopes := by
  obtain ⟨pieces, levels, hp, hl, hm, hh⟩ := h.carves
  exact ⟨⟨pieces, levels, hp, hl, hm, hh.weaken hs⟩, h.saved, h.blocks⟩

theorem setMem (h : Lends n held a m scopes) (hs : m.sizes <+: m'.sizes) : Lends n held a m' scopes := by
  obtain ⟨pieces, levels, hp, hl, hm, hh⟩ := h.carves
  exact ⟨⟨pieces, levels, hp.grow hs, hl, hm, hh⟩, h.saved, h.blocks⟩

theorem lend (h : Lends n held a m (scope :: scopes)) (hp : held.Perm (b.outer n :: held'))
    (hb : n ≤ b.ptr.offset ∧ 0 < b.size) : Lends n held' a m (State.lend b (scope :: scopes)) := by
  obtain ⟨pieces, levels, hpieces, hl, hm, hh⟩ := h.carves
  refine ⟨⟨pieces, levels, hpieces, hl, hm, hh.lend hp⟩, h.saved, fun c hc => ?_⟩
  rcases List.mem_cons.1 hc with rfl | hc
  · exact hb
  · exact h.blocks c hc

theorem liveOf_giveBack (ptr : Ptr) (scopes : List Scope) :
    liveOf (State.giveBack ptr scopes) = (liveOf scopes).filter (·.ptr ≠ ptr) := by
  rw [liveOf_eq, liveOf_eq, List.filter_flatten, State.giveBack, List.map_map, List.map_map]
  rfl

theorem giveBack (h : Lends n held a m scopes) (hb : b ∈ liveOf scopes) :
    Lends n (b.outer n :: held) a m (State.giveBack b.ptr scopes) := by
  obtain ⟨pieces, levels, hpieces, hl, hm, hh⟩ := h.carves
  refine ⟨⟨pieces, levels, hpieces, hl, ?_, ?_⟩, ?_, fun c hc => ?_⟩
  · rw [hm, State.giveBack, List.map_map]
    rfl
  · have hgive := hh.giveBack (liveOf_eq scopes ▸ hb)
    rw [Arena.giveBack, List.map_map] at hgive
    rw [State.giveBack, List.map_map]
    exact hgive
  · rw [h.saved, State.giveBack, List.map_map]
    rfl
  · rw [liveOf_giveBack] at hc
    exact h.blocks c (List.mem_filter.1 hc).1

def owned (n : Nat) (held : List Block) (scopes : List Scope) : List Block :=
  (liveOf scopes).map (Block.outer n) ++ held

theorem disjoint (h : Lends n held a m scopes) : (owned n held scopes).Pairwise Block.Disjoint := by
  obtain ⟨pieces, levels, hpieces, hl, hm, hh⟩ := h.carves
  rw [owned, liveOf_eq]
  exact hh.disjoint (hl.disjoint hpieces.disjoint)

theorem inArena (h : Lends n held a m scopes) (hb : b ∈ owned n held scopes) : InArena a b := by
  obtain ⟨pieces, levels, hpieces, hl, hm, hh⟩ := h.carves
  rw [owned, liveOf_eq] at hb
  obtain ⟨i, off, hplaced, -⟩ := hl.before b (hh.all.subset hb)
  obtain ⟨piece, hmem, hw⟩ := hplaced.within
  refine ⟨⟨some piece.ptr, piece.size⟩, ?_, piece.ptr, rfl, hw⟩
  rw [hpieces.vec]
  exact List.mem_map.2 ⟨piece, hmem, rfl⟩

theorem inside (h : Lends n held a m scopes) (hb : b ∈ owned n held scopes) : m.Inside b.ptr b.size := by
  obtain ⟨pieces, levels, hpieces, hl, hm, hh⟩ := h.carves
  rw [owned, liveOf_eq] at hb
  obtain ⟨i, off, hplaced, -⟩ := hl.before b (hh.all.subset hb)
  obtain ⟨piece, hmem, hw⟩ := hplaced.within
  obtain ⟨hoff, hsize⟩ := hpieces.region piece hmem
  unfold Memory.Inside
  rw [List.getD_eq_getElem?_getD, hw.1, hsize, Option.getD_some]
  have := hw.2.2
  omega

theorem held_nil (h : Lends n held a m []) : held = [] := by
  obtain ⟨pieces, levels, hpieces, hl, hm, hh⟩ := h.carves
  obtain rfl := List.map_eq_nil_iff.1 hm
  exact List.subperm_nil.1 hh.all

/-! ## The operations of the scope allocator -/

theorem malloc (h : Lends n held w.obj w.mem (scope :: scopes)) (sz : Nat) :
    wp (ScopeAllocator.malloc answers sz)
      (fun rs w' => ∃ c : Block, rs = some c.ptr ∧ c.size = sz ∧
        Lends n (c :: held) w'.obj w'.mem (scope :: scopes) ∧ w.mem.Grew w'.mem)
      (fun _ w' => Lends n held w'.obj w'.mem (scope :: scopes) ∧ w.mem.Grew w'.mem) w := by
  obtain ⟨pieces, levels, hp, hl, hm, hh⟩ := h.carves
  rcases levels with - | ⟨⟨saved, bs⟩, levels⟩
  · cases hm
  cases hc : w.obj.currentPoint with
  | none =>
    rw [hc] at hl
    nomatch hl
  | some point =>
    rw [hc, Option.map_some] at hl
    have hsaved : w.obj.savedPointVec.isEmpty = false := by
      rw [h.saved]
      simp
    unfold ScopeAllocator.malloc
    rw [wp_bind, wp_getState, hsaved, if_neg Bool.false_ne_true, hc]
    have hv : Valid pieces point.position := by
      cases hl
      assumption
    refine (mallocLoop_wp 64 hp hv (Nat.le_add_right _ _)).mono ?_ ?_
    · rintro rs w' ⟨c, pieces', q, hrs, hsize, hf⟩
      have hl' := (hl.grow hf.grown).carve hf.pieces.disjoint hf.le hf.valid hf.after hf.before
      refine ⟨c, hrs, hsize, ⟨⟨pieces', (saved, c :: bs) :: levels, hf.pieces, ?_, hm,
        hh.carveHeld c⟩, ?_, h.blocks⟩, hf.mem⟩
      · rw [hf.point]
        exact hl'
      · rw [hf.saved, h.saved]
    · rintro e w' ⟨pieces', hgrown, hp', hkept⟩
      refine ⟨⟨⟨pieces', _, hp', ?_, hm, hh⟩, hkept.saved.trans h.saved, h.blocks⟩, hkept.mem⟩
      rw [hkept.point, hc]
      exact hl.grow hgrown

theorem malloc_nil (h : Lends n held w.obj w.mem []) (sz : Nat) :
    wp (ScopeAllocator.malloc answers sz) (fun _ _ => False) (fun _ w' => w' = w) w := by
  have hsaved : w.obj.savedPointVec = [] := h.saved
  unfold ScopeAllocator.malloc
  rw [wp_bind, wp_getState, hsaved, if_pos (by rfl)]
  rfl

theorem saveCurrentPoint_wp :
    wp (saveCurrentPoint answers)
      (fun _ w' => w' = { w with obj := { w.obj with
        savedPointVec := w.obj.savedPointVec ++ [w.obj.currentPoint] } })
      (fun _ w' => w' = w) w := by
  unfold saveCurrentPoint
  by_cases hroom : answers.savedRoom = true
  · rw [if_neg (not_not.2 hroom)]
    rfl
  · rw [if_pos hroom]
    rfl

theorem inScope (h : Lends n held w.obj w.mem scopes) :
    wp (ScopeAllocator.inScope answers)
      (fun _ w' => Lends n held w'.obj w'.mem (⟨w.obj.currentPoint, []⟩ :: scopes) ∧ w.mem.Grew w'.mem)
      (fun _ w' => Lends n held w'.obj w'.mem scopes ∧ w.mem.Grew w'.mem) w := by
  obtain ⟨pieces, levels, hp, hl, hm, hh⟩ := h.carves
  have hsaved (point : Option SavedPoint) : (scopes.map (·.opened)).reverse ++ [point] =
      (((⟨point, []⟩ : Scope) :: scopes).map (·.opened)).reverse := by
    rw [List.map_cons, List.reverse_cons]
  unfold ScopeAllocator.inScope
  rw [wp_bind, wp_getState]
  cases hc : w.obj.currentPoint with
  | none =>
    rw [hc] at hl
    rw [if_pos (by rfl), wp_bind]
    refine (hp.reserve (Nat.le_add_left _ _)).mono ?_ ?_
    · rintro - w1 ⟨pieces1, hgrown, hlen, hp1, hkept⟩
      rw [wp_bind]
      refine saveCurrentPoint_wp.mono ?_ ?_
      · rintro - w2 rfl
        obtain ⟨piece, hget⟩ : ∃ piece, pieces1[0]? = some piece := ⟨_, List.getElem?_eq_getElem hlen⟩
        rw [wp_bind, wp_getState, wp_setState]
        refine ⟨⟨⟨pieces1, (none, []) :: levels, hp1.setPoints _ _, ?_, ?_, hh.openScope none⟩, ?_, ?_⟩,
          hkept.mem⟩
        · exact .cons ⟨piece, hget, Nat.zero_le _⟩ le_rfl (fun b hb => nomatch hb) .nil (hl.grow hgrown)
        · rw [List.map_cons, List.map_cons, hm]
          rfl
        · rw [hkept.saved, hkept.point, hc, h.saved]
          exact hsaved none
        · exact h.blocks
      · rintro e w2 rfl
        refine ⟨⟨⟨pieces1, levels, hp1, ?_, hm, hh⟩, hkept.saved.trans h.saved, h.blocks⟩, hkept.mem⟩
        rw [hkept.point, hc]
        exact hl.grow hgrown
    · rintro e w1 ⟨hp1, hkept⟩
      refine ⟨⟨⟨pieces, levels, hp1, ?_, hm, hh⟩, hkept.saved.trans h.saved, h.blocks⟩, hkept.mem⟩
      rw [hkept.point, hc]
      exact hl
  | some point =>
    rw [hc] at hl
    rw [if_neg (by exact Bool.false_ne_true)]
    refine saveCurrentPoint_wp.mono ?_ ?_
    · rintro - w1 rfl
      refine ⟨⟨⟨pieces, (some point.position, []) :: levels, hp.setPoints _ _, ?_, ?_,
        hh.openScope _⟩, ?_, h.blocks⟩, .rfl⟩
      · rw [hc]
        exact hl.openScope
      · rw [List.map_cons, List.map_cons, hm]
        rfl
      · rw [hc, h.saved]
        exact hsaved (some point)
    · rintro e w1 rfl
      exact ⟨h, .rfl⟩

theorem outScope (h : Lends n held w.obj w.mem (scope :: scopes)) :
    wp ScopeAllocator.outScope
      (fun _ w' => Lends n [] w'.obj w'.mem scopes ∧ w'.obj.currentPoint = scope.opened ∧ w'.mem = w.mem)
      (fun _ _ => False) w := by
  obtain ⟨pieces, levels, hp, hl, hm, hh⟩ := h.carves
  rcases levels with - | ⟨⟨saved, bs⟩, levels⟩
  · cases hm
  obtain ⟨hopened, hm⟩ := List.cons.inj hm
  have hsaved : w.obj.savedPointVec = (scopes.map (·.opened)).reverse ++ [scope.opened] := by
    rw [h.saved, List.map_cons, List.reverse_cons]
  unfold ScopeAllocator.outScope
  rw [wp_bind, wp_getState, hsaved, List.getLast?_concat]
  rw [List.dropLast_concat, wp_setState]
  refine ⟨⟨⟨pieces, levels, hp.setPoints _ _, ?_, hm, hh.closeScope⟩, rfl, fun b hb => ?_⟩, rfl, rfl⟩
  · change saved = scope.opened.map SavedPoint.position at hopened
    rw [← hopened]
    generalize w.obj.currentPoint.map SavedPoint.position = cur at hl
    cases hl
    assumption
  · exact h.blocks b (List.mem_append_right _ hb)

end Lends

end ConventionalAllocator
