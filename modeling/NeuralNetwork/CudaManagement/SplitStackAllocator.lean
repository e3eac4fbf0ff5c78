import NeuralNetwork.Lib.Arena
import NeuralNetwork.Lib.Loop
import NeuralNetwork.Lib.Run

/-!
# SplitStackAllocator

`cuda_management/scope_allocator.h`: blocks are carved off buffers, each twice as large as the one before,
behind a cursor that `in_scope` saves and `out_scope` restores. The base allocator does not fail, and the
`k`-th buffer that it returns is at `answer k`. `blocks_apart` is about the runs in which every block fits
into a buffer whose size is a `size_t` (`Fits`).
-/

namespace CudaManagement

open Cpp Region Loop
open Region.Arena (Position Level Layers Valid Before After)

structure MemoryPoint where
  slot : Nat
  offset : Nat
deriving DecidableEq

def MemoryPoint.position (point : MemoryPoint) : Position := toLex (point.slot, point.offset)

structure SavedMemoryPoint where
  isOptional : Bool
  value : MemoryPoint
deriving DecidableEq

/-- A `MemorySegment` is the block of its bytes. -/
structure SplitStackAllocator where
  stackBufferVec : List Block
  savedPointVec : List SavedMemoryPoint
  validPoint : Option MemoryPoint
  baseSz : Nat
deriving DecidableEq

namespace SplitStackAllocator

def make (baseSz : Nat) : SplitStackAllocator := ⟨[], [], none, baseSz⟩

def toSavedMemoryPoint : Option MemoryPoint → SavedMemoryPoint
  | none => ⟨true, ⟨0, 0⟩⟩
  | some point => ⟨false, point⟩

def toMemoryPoint (arg : SavedMemoryPoint) : Option MemoryPoint :=
  if arg.isOptional then none else some arg.value

variable (answer : Nat → Ptr) (a : SplitStackAllocator)

/-- `stack_buffer_vec[slot]`. -/
def segment (slot : Nat) : Except Fault Block :=
  match a.stackBufferVec[slot]? with
  | some seg => .ok seg
  | none => .error .abort

/-- A round of `reserve_for_vector_size_of`; a shift by 64 or more is not defined. -/
def pushBuffer (offset : Nat) (a : SplitStackAllocator) : Except Fault SplitStackAllocator :=
  if offset < 64 then
    .ok { a with
      stackBufferVec := a.stackBufferVec ++ [⟨answer offset, sizeT (a.baseSz * 2 ^ offset)⟩] }
  else .error .undefined

def reserveForVectorSizeOf (sz : Nat) : Except Fault SplitStackAllocator :=
  let oldSz := a.stackBufferVec.length
  forLoop (fun i => pushBuffer answer (oldSz + i)) (max sz oldSz - oldSz) a

def savePoint (nextPoint : MemoryPoint) : SplitStackAllocator :=
  { a with
    savedPointVec := a.savedPointVec ++ [toSavedMemoryPoint a.validPoint]
    validPoint := some nextPoint }

def slowEnterScope : Except Fault SplitStackAllocator :=
  match a.validPoint with
  | some nextPoint => .ok (a.savePoint nextPoint)
  | none => do
    let a ← a.reserveForVectorSizeOf answer 1
    return a.savePoint ⟨0, 0⟩

def inScope : Except Fault SplitStackAllocator :=
  match a.validPoint with
  | some _ => .ok { a with savedPointVec := a.savedPointVec ++ [toSavedMemoryPoint a.validPoint] }
  | none => a.slowEnterScope answer

/-- The pointer at a point, which moves behind the block. -/
def takeAt (seg : Block) (point : MemoryPoint) (blkSz : Nat) : Ptr × SplitStackAllocator :=
  (seg.ptr.next point.offset,
    { a with validPoint := some ⟨point.slot, sizeT (point.offset + blkSz)⟩ })

/-- The `while (true)` of `slow_allocate`, with at most `fuel` rounds. -/
def slowAllocateFrom (blkSz : Nat) :
    Nat → MemoryPoint → SplitStackAllocator → Except Fault (Ptr × SplitStackAllocator)
  | 0, _, _ => .error .outOfFuel
  | fuel + 1, curPoint, a => do
    let seg ← a.segment curPoint.slot
    if subT seg.size curPoint.offset ≥ blkSz then
      return a.takeAt seg curPoint blkSz
    let a ← a.reserveForVectorSizeOf answer (curPoint.slot + 2)
    slowAllocateFrom blkSz fuel ⟨curPoint.slot + 1, 0⟩ a

/-- There are no more than 64 slots, and each round goes to the next one. -/
def slowAllocate (blkSz : Nat) : Except Fault (Ptr × SplitStackAllocator) :=
  match a.validPoint with
  | none => .error .abort
  | some curPoint => slowAllocateFrom answer blkSz 64 curPoint a

def malloc (blkSz : Nat) : Except Fault (Ptr × SplitStackAllocator) :=
  match a.validPoint with
  | some point => do
    let seg ← a.segment point.slot
    if subT seg.size point.offset ≥ blkSz then
      return a.takeAt seg point blkSz
    a.slowAllocate answer blkSz
  | none => a.slowAllocate answer blkSz

def outScope : Except Fault SplitStackAllocator :=
  match a.savedPointVec.getLast? with
  | none => .error .abort
  | some back => .ok { a with
      validPoint := toMemoryPoint back
      savedPointVec := a.savedPointVec.dropLast }

/-! ## Runs -/

/-- An open scope: the point when it was entered, and the blocks allocated in it. -/
structure Scope where
  entered : Option MemoryPoint
  blocks : List Block

/-- The allocator and the open scopes, the innermost one first. -/
structure World where
  obj : SplitStackAllocator
  scopes : List Scope

inductive Op where
  | inScope
  | malloc (sz : Nat)
  | outScope

/-- A block of `sz` bytes fits at the point, or into a later buffer whose size does not overflow. Otherwise
the search comes to one whose size does. -/
def Fits (baseSz : Nat) (point : MemoryPoint) (sz : Nat) : Prop :=
  point.offset + sz ≤ baseSz * 2 ^ point.slot ∨
    ∃ k, point.slot < k ∧ sz ≤ baseSz * 2 ^ k ∧ baseSz * 2 ^ k < 2 ^ 64

/-- The place at which a scope was entered. -/
def Scope.start (scope : Scope) : Position := Arena.start (scope.entered.map MemoryPoint.position)

namespace World

variable (w : World)

def start (baseSz : Nat) : World := ⟨.make baseSz, []⟩

/-- The blocks of the open scopes. -/
def live : List Block := w.scopes.flatMap (·.blocks)

def allocated (b : Block) : List Scope → List Scope
  | [] => []
  | scope :: scopes => { scope with blocks := b :: scope.blocks } :: scopes

/-- Calls are well nested, and blocks fit. -/
def Allowed : Op → Prop
  | .inScope => True
  | .malloc sz => w.scopes ≠ [] ∧ ∀ point, w.obj.validPoint = some point → Fits w.obj.baseSz point sz
  | .outScope => w.scopes ≠ []

def step : Op → Except Fault World
  | .inScope => do
    let obj ← w.obj.inScope answer
    return ⟨obj, ⟨w.obj.validPoint, []⟩ :: w.scopes⟩
  | .malloc sz => do
    let (rs, obj) ← w.obj.malloc answer sz
    return ⟨obj, allocated ⟨rs, sz⟩ w.scopes⟩
  | .outScope => do
    let obj ← w.obj.outScope
    return ⟨obj, w.scopes.tail⟩

def Runs (baseSz : Nat) : World → List Op → Prop :=
  Run.Reach (· = start baseSz) fun w op w' => w.Allowed op ∧ w.step answer op = .ok w'

/-- What a call promises: a block has its bytes in one buffer, apart from the blocks of all open scopes, and
the end of a scope restores the point at which it was entered, which lies behind what is still in use and
before all that was allocated since. -/
def Promise (w' : World) : Op → Prop
  | .inScope => True
  | .malloc sz => ∃ b, w'.live = b :: w.live ∧ b.size = sz ∧
      (∃ seg ∈ w'.obj.stackBufferVec, Block.Within b.ptr sz seg) ∧ ∀ c ∈ w.live, Block.Disjoint b c
  | .outScope => ∃ scope, w.scopes = scope :: w'.scopes ∧ w'.obj.validPoint = scope.entered ∧
      (∀ c ∈ scope.blocks, After w'.obj.stackBufferVec scope.start c) ∧
      ∀ c ∈ w'.live, Before w'.obj.stackBufferVec c scope.start

end World

/-! ## Buffers -/

/-- The first `n` buffers. -/
def buffers (baseSz n : Nat) : List Block := (List.range n).map fun k => ⟨answer k, baseSz * 2 ^ k⟩

/-- The sizes of the first `n` buffers do not overflow. -/
def Sized (baseSz n : Nat) : Prop := ∀ k, k < n → baseSz * 2 ^ k < 2 ^ 64

/-- The base allocator returns disjoint buffers. -/
def Apart (baseSz : Nat) : Prop :=
  ∀ n, Sized baseSz n → (buffers answer baseSz n).Pairwise Block.Disjoint

variable {answer a} {a' : SplitStackAllocator} {p : MemoryPoint} {baseSz sz k n : Nat}

theorem Sized.lt (h : Sized baseSz n) (hpos : 1 ≤ baseSz) (hk : k < n) : k < 64 :=
  (Nat.pow_lt_pow_iff_right Nat.one_lt_two).1 ((Nat.le_mul_of_pos_left _ hpos).trans_lt (h k hk))

theorem length_buffers : (buffers answer baseSz n).length = n := by simp [buffers]

theorem buffers_grow {n' : Nat} (h : n ≤ n') : buffers answer baseSz n <+: buffers answer baseSz n' := by
  obtain ⟨d, rfl⟩ := Nat.exists_eq_add_of_le h
  unfold buffers
  rw [List.range_add, List.map_append]
  exact List.prefix_append _ _

theorem getElem?_buffers : (buffers answer baseSz n)[k]? =
    if k < n then some ⟨answer k, baseSz * 2 ^ k⟩ else none := by
  unfold buffers
  rw [List.getElem?_map]
  split
  · next hk => rw [List.getElem?_range hk, Option.map_some]
  · next hk => rw [List.getElem?_eq_none (by simpa using hk), Option.map_none]

theorem reserve_ok (hpos : 1 ≤ baseSz) (hsz : Sized baseSz sz) (hbase : a.baseSz = baseSz)
    (hvec : a.stackBufferVec = buffers answer baseSz n) : a.reserveForVectorSizeOf answer sz =
      .ok { a with stackBufferVec := buffers answer baseSz (max sz n) } := by
  have hlen : a.stackBufferVec.length = n := by rw [hvec, length_buffers]
  unfold reserveForVectorSizeOf
  dsimp only
  rw [hlen]
  have hloop : ∃ a', forLoop (fun i => pushBuffer answer (n + i)) (max sz n - n) a = .ok a' ∧
      a' = { a with stackBufferVec := buffers answer baseSz (n + (max sz n - n)) } := by
    refine forLoop_ok (fun i a' => a' = { a with stackBufferVec := buffers answer baseSz (n + i) })
      (by rw [Nat.add_zero, ← hvec]) fun i hi _ e => ?_
    subst e
    have hlt : n + i < sz := by omega
    refine ⟨_, if_pos (hsz.lt hpos hlt), ?_⟩
    dsimp only
    rw [hbase, sizeT_of_lt (hsz _ hlt), ← Nat.add_assoc, buffers, buffers, List.range_succ, List.map_append]
    rfl
  obtain ⟨_, e, rfl⟩ := hloop
  rw [e]
  congr 3
  omega

/-! ## The search -/

/-- What the search from `p` found: the place `b` for the block, behind which it puts the point `q`. -/
structure Found (answer : Nat → Ptr) (baseSz n : Nat) (p : MemoryPoint) (b : Block) (n' : Nat)
    (q : MemoryPoint) : Prop where
  grown : n ≤ n'
  sized : Sized baseSz n'
  le : p.position ≤ q.position
  valid : Valid (buffers answer baseSz n') q.position
  after : After (buffers answer baseSz n') p.position b
  before : Before (buffers answer baseSz n') b q.position

theorem Fits.next (h : Fits baseSz p sz) (hfull : ¬ p.offset + sz ≤ baseSz * 2 ^ p.slot) :
    Fits baseSz ⟨p.slot + 1, 0⟩ sz ∧ Sized baseSz (p.slot + 2) := by
  obtain ⟨k, hk, hle, hlt⟩ := h.resolve_left hfull
  refine ⟨?_, fun j hj => ?_⟩
  · rcases Nat.lt_or_eq_of_le (Nat.succ_le_of_lt hk) with hk | rfl
    · exact .inr ⟨k, hk, hle, hlt⟩
    · exact .inl ((Nat.zero_add sz).le.trans hle)
  · have hpow : 2 ^ j ≤ 2 ^ k := Nat.pow_le_pow_right (by decide) (by omega)
    exact (Nat.mul_le_mul_left baseSz hpow).trans_lt hlt

theorem slowAllocateFrom_ok (hpos : 1 ≤ baseSz) (fuel : Nat) {a : SplitStackAllocator} {p : MemoryPoint}
    {n : Nat} (hbase : a.baseSz = baseSz) (hvec : a.stackBufferVec = buffers answer baseSz n)
    (hsized : Sized baseSz n) (hslot : p.slot < n) (hoff : p.offset ≤ baseSz * 2 ^ p.slot)
    (hf : Fits baseSz p sz) (hfuel : 64 ≤ fuel + p.slot) :
    ∃ b n' q, slowAllocateFrom answer sz fuel p a = .ok (b.ptr,
        { a with stackBufferVec := buffers answer baseSz n', validPoint := some q }) ∧ b.size = sz ∧
      Found answer baseSz n p b n' q := by
  induction fuel generalizing a p n with
  | zero => exact absurd (hsized.lt hpos hslot) (by omega)
  | succ fuel ih =>
    have hlt := hsized _ hslot
    have hget : (buffers answer baseSz n)[p.slot]? = _ := getElem?_buffers.trans (if_pos hslot)
    rw [slowAllocateFrom, segment, hvec, hget]
    dsimp only [ok_bind]
    rw [subT_of_le hoff hlt]
    by_cases hroom : p.offset + sz ≤ baseSz * 2 ^ p.slot
    · rw [if_pos (by omega), takeAt, sizeT_of_lt (hroom.trans_lt hlt)]
      refine ⟨⟨(answer p.slot).next p.offset, sz⟩, n, ⟨p.slot, p.offset + sz⟩, by rw [← hvec]; rfl, rfl,
        le_rfl, hsized, ?_, ⟨_, hget, hroom⟩, ⟨_, _, ⟨_, hget, rfl, hroom⟩, le_rfl⟩,
        ⟨_, _, ⟨_, hget, rfl, hroom⟩, le_rfl⟩⟩
      exact Prod.Lex.toLex_le_toLex.2 (.inr ⟨rfl, Nat.le_add_right _ _⟩)
    · obtain ⟨hnext, hsizes⟩ := hf.next hroom
      rw [if_neg (by omega), reserve_ok hpos hsizes hbase hvec]
      have hsized1 : Sized baseSz (max (p.slot + 2) n) := fun k hk =>
        (lt_max_iff.1 hk).elim (hsizes k) (hsized k)
      obtain ⟨b, n', q, e, hsize, h⟩ := ih (a := { a with stackBufferVec := buffers answer baseSz _ })
        (p := ⟨p.slot + 1, 0⟩) hbase rfl hsized1 (lt_max_of_lt_left (Nat.lt_succ_self _))
        (Nat.zero_le _) hnext (by dsimp only; omega)
      have hle : p.position ≤ (⟨p.slot + 1, 0⟩ : MemoryPoint).position :=
        Prod.Lex.toLex_le_toLex.2 (.inl (Nat.lt_succ_self _))
      obtain ⟨i, off, hplaced, hafter⟩ := h.after
      exact ⟨b, n', q, e, hsize, { h with
        grown := (le_max_right _ _).trans h.grown
        le := hle.trans h.le
        after := ⟨i, off, hplaced, hle.trans hafter⟩ }⟩

/-- The fast path of `malloc` is the first round of the search. -/
theorem malloc_eq {seg : Block} (hp : a.validPoint = some p) (hseg : a.segment p.slot = .ok seg) :
    a.malloc answer sz = slowAllocateFrom answer sz (63 + 1) p a := by
  unfold malloc slowAllocate
  rw [hp]
  dsimp only
  by_cases hroom : subT seg.size p.offset ≥ sz
  · rw [slowAllocateFrom, hseg, ok_bind, ok_bind, if_pos hroom, if_pos hroom]
  · rw [hseg, ok_bind, if_neg hroom]

/-! ## Steps -/

def Scope.level (scope : Scope) : Level := (scope.entered.map MemoryPoint.position, scope.blocks)

/-- The first `n` buffers are an arena, and the scopes the levels of it. -/
structure Inv (answer : Nat → Ptr) (baseSz n : Nat) (w : World) : Prop where
  base : w.obj.baseSz = baseSz
  vec : w.obj.stackBufferVec = buffers answer baseSz n
  sized : Sized baseSz n
  layers : Layers (buffers answer baseSz n) (w.obj.validPoint.map MemoryPoint.position)
    (w.scopes.map Scope.level)
  saved : w.obj.savedPointVec = (w.scopes.map fun s => toSavedMemoryPoint s.entered).reverse

theorem toMemoryPoint_toSaved (point : Option MemoryPoint) :
    toMemoryPoint (toSavedMemoryPoint point) = point := by
  cases point <;> rfl

theorem carved_levels (scopes : List Scope) :
    Arena.carved (scopes.map Scope.level) = scopes.flatMap (·.blocks) := List.flatMap_map ..

/-- A call goes through, only adds buffers and keeps its promise. -/
def Through (answer : Nat → Ptr) (baseSz n : Nat) (w : World) (op : Op) : Prop :=
  ∃ w' n', w.step answer op = .ok w' ∧ n ≤ n' ∧ Inv answer baseSz n' w' ∧ w.Promise w' op

variable {w : World}

namespace Inv

variable (h : Inv answer baseSz n w)

include h

theorem inScope (hpos : 1 ≤ baseSz) (hlt : baseSz < 2 ^ 64) : Through answer baseSz n w .inScope := by
  have hl := h.layers
  have hsaved : w.obj.savedPointVec ++ [toSavedMemoryPoint w.obj.validPoint] =
      (((⟨w.obj.validPoint, []⟩ : Scope) :: w.scopes).map fun s =>
        toSavedMemoryPoint s.entered).reverse := by
    rw [h.saved, List.map_cons, List.reverse_cons]
  unfold Through World.step SplitStackAllocator.inScope slowEnterScope
  cases hp : w.obj.validPoint with
  | some p =>
    rw [hp] at hsaved hl
    exact ⟨_, n, rfl, le_rfl, ⟨h.base, h.vec, h.sized, hl.openScope, hsaved⟩, True.intro⟩
  | none =>
    have hone : Sized baseSz 1 := fun k hk => by
      obtain rfl : k = 0 := by omega
      simpa using hlt
    have hget : (buffers answer baseSz (max 1 n))[0]? = _ :=
      getElem?_buffers.trans (if_pos (lt_max_of_lt_left Nat.one_pos))
    rw [hp] at hsaved hl
    rw [reserve_ok hpos hone h.base h.vec]
    refine ⟨_, max 1 n, rfl, le_max_right _ _, ⟨h.base, rfl, fun k hk => ?_, ?_, ?_⟩, True.intro⟩
    · exact (lt_max_iff.1 hk).elim (hone k) (h.sized k)
    · exact .cons ⟨_, hget, Nat.zero_le _⟩ le_rfl (fun b hb => nomatch hb) .nil
        (hl.grow (buffers_grow (le_max_right _ _)))
    · rw [← hsaved, savePoint, hp]

theorem malloc (hpos : 1 ≤ baseSz) (hd : Apart answer baseSz) (hop : w.Allowed (.malloc sz)) :
    Through answer baseSz n w (.malloc sz) := by
  obtain ⟨obj, scopes⟩ := w
  obtain ⟨hbase, hvec, hsized, hl, hsaved⟩ := h
  obtain ⟨hne, hfits⟩ := hop
  obtain ⟨scope, scopes, rfl⟩ := List.exists_cons_of_ne_nil hne
  dsimp only at hbase hvec hl hsaved hfits
  cases hp : obj.validPoint with
  | none =>
    rw [hp] at hl
    nomatch hl
  | some p =>
    rw [hp] at hl
    obtain ⟨piece, hget, hoff⟩ : Valid (buffers answer baseSz n) p.position := by
      cases hl
      assumption
    change (buffers answer baseSz n)[p.slot]? = some piece at hget
    have hslot : p.slot < n := by
      have hlt := (List.getElem?_eq_some_iff.1 hget).1
      rwa [length_buffers] at hlt
    have hseg : obj.segment p.slot = .ok piece := by
      rw [segment, hvec, hget]
    obtain rfl := Option.some.inj (hget.symm.trans (getElem?_buffers.trans (if_pos hslot)))
    obtain ⟨b, n', q, e, rfl, hf⟩ := slowAllocateFrom_ok hpos 64 hbase hvec hsized hslot hoff
      (hbase ▸ hfits p hp) (Nat.le_add_right _ _)
    have hpieces := hd n' hf.sized
    have hlayers := (hl.grow (buffers_grow hf.grown)).carve hpieces hf.le hf.valid hf.after hf.before
    have hdisjoint := hlayers.disjoint hpieces
    rw [← malloc_eq hp hseg] at e
    refine ⟨⟨{ obj with stackBufferVec := buffers answer baseSz n', validPoint := some q },
      World.allocated b (scope :: scopes)⟩, n', by rw [World.step, e]; rfl, hf.grown,
      ⟨hbase, rfl, hf.sized, hlayers, hsaved⟩, b, rfl, rfl, ?_, ?_⟩
    · obtain ⟨i, off, hplaced, -⟩ := hf.before
      exact hplaced.within
    · have hall : (World.live ⟨obj, World.allocated b (scope :: scopes)⟩).Pairwise Block.Disjoint := by
        rw [World.live, ← carved_levels]
        exact hdisjoint
      exact (List.pairwise_cons.1 hall).1

theorem outScope (hop : w.Allowed .outScope) : Through answer baseSz n w .outScope := by
  obtain ⟨obj, scopes⟩ := w
  obtain ⟨hbase, hvec, hsized, hl, hsaved⟩ := h
  obtain ⟨scope, scopes, rfl⟩ := List.exists_cons_of_ne_nil (show scopes ≠ [] from hop)
  dsimp only at hbase hvec hl hsaved
  rw [List.map_cons, List.reverse_cons] at hsaved
  unfold Through World.step SplitStackAllocator.outScope
  rw [hsaved, List.getLast?_concat, List.dropLast_concat]
  dsimp only
  rw [toMemoryPoint_toSaved]
  generalize obj.validPoint.map MemoryPoint.position = cur at hl
  cases hl with
  | cons _ _ hbs _ hrest =>
    refine ⟨_, n, rfl, le_rfl, ⟨hbase, hvec, hsized, hrest, rfl⟩, scope, rfl, rfl, ?_, ?_⟩
    · rw [hvec]
      exact fun c hc => (hbs c hc).1
    · rw [hvec, World.live, ← carved_levels]
      exact hrest.before

end Inv

theorem Inv.call (h : Inv answer baseSz n w) (hpos : 1 ≤ baseSz) (hlt : baseSz < 2 ^ 64)
    (hd : Apart answer baseSz) {op : Op} (hop : w.Allowed op) : Through answer baseSz n w op := by
  cases op with
  | inScope => exact h.inScope hpos hlt
  | malloc sz => exact h.malloc hpos hd hop
  | outScope => exact h.outScope hop

/-- **No live block is aliased.** In every well-nested run whose blocks fit, each call goes through, only
adds buffers, slot `k` having `baseSz * 2 ^ k` bytes, and keeps its promise. -/
theorem blocks_apart (hpos : 1 ≤ baseSz) (hlt : baseSz < 2 ^ 64) (hd : Apart answer baseSz) {w : World}
    {ops : List Op} (h : World.Runs answer baseSz w ops) {op : Op} (hop : w.Allowed op) :
    ∃ w', w.step answer op = .ok w' ∧ w.obj.stackBufferVec <+: w'.obj.stackBufferVec ∧
      (∀ k (seg : Block), w'.obj.stackBufferVec[k]? = some seg → seg = ⟨answer k, baseSz * 2 ^ k⟩) ∧
      w.Promise w' op := by
  have hinv : ∃ n, Inv answer baseSz n w := by
    refine Run.Reach.inv (fun w _ => ∃ n, Inv answer baseSz n w) h ?_ ?_
    · rintro w rfl
      exact ⟨0, rfl, rfl, fun k hk => absurd hk (Nat.not_lt_zero k), .nil, rfl⟩
    · rintro w _ op w' ⟨n, hw⟩ ⟨hop, e⟩
      obtain ⟨w1, n', e1, -, hw', -⟩ := hw.call hpos hlt hd hop
      obtain rfl := Except.ok.inj (e1.symm.trans e)
      exact ⟨n', hw'⟩
  obtain ⟨n, hw⟩ := hinv
  obtain ⟨w', n', e, hn, hw', hpromise⟩ := hw.call hpos hlt hd hop
  refine ⟨w', e, ?_, fun k seg hseg => ?_, hpromise⟩
  · rw [hw.vec, hw'.vec]
    exact buffers_grow hn
  · rw [hw'.vec, getElem?_buffers] at hseg
    split at hseg
    · exact (Option.some.inj hseg).symm
    · cases hseg

theorem blocks_apart_third :
    let w : World := ⟨⟨[⟨⟨0, 0⟩, 1⟩], [⟨true, ⟨0, 0⟩⟩], some ⟨0, 0⟩, 1⟩, [⟨none, []⟩]⟩
    ∃ w', w.step (fun k => ⟨k, 0⟩) (.malloc 3) = .ok w' ∧ w.Promise w' (.malloc 3) := by
  intro w
  have hd : Apart (fun k => ⟨k, 0⟩) 1 := fun n _ =>
    List.pairwise_map.2 (List.pairwise_lt_range.imp fun hlt => Block.disjoint_of_block hlt.ne)
  have hrun : World.Runs (fun k => ⟨k, 0⟩) 1 w ([] ++ [.inScope]) :=
    Run.Reach.step (.init (show World.start 1 = _ from rfl)) ⟨True.intro, rfl⟩
  have hop : w.Allowed (.malloc 3) := by
    refine ⟨List.cons_ne_nil _ _, ?_⟩
    rintro _ ⟨⟩
    exact .inr ⟨2, by decide, by decide, by decide⟩
  obtain ⟨w', e, -, -, hpromise⟩ := blocks_apart (Nat.le_refl 1) (by decide) hd hrun hop
  exact ⟨w', e, hpromise⟩

end SplitStackAllocator
end CudaManagement
