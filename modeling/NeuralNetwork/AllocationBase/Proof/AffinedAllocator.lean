import NeuralNetwork.AllocationBase.GlobalAllocator

/-!
# The affined allocator

What a block of the affined allocator is while it moves between its caller, the queue of its size and the
buffer of what is about to be freed, over any lawful base. `AffInv` is the invariant: the blocks of the
caller, of the queues and of the buffer are what the base has handed out (`pending`), each of the first two
kinds behind its size (`sized`), and the queues keep their `Shape`.
-/

namespace AllocationBase.GlobalAllocator

open Cpp Loop Region HashTable

namespace AffinedAllocator

/-! ## Blocks and queues -/

def queueBlocks (sz : Nat) (queue : List Ptr) : List Block := queue.map fun p => ⟨p, sz⟩

def cachedBlocks (a : AffinedAllocator) : List Block :=
  a.cacheMap.flatMap fun e => queueBlocks e.1 e.2

structure Sized (m : Memory) (b : Block) : Prop where
  offset : 4 ≤ b.ptr.offset
  pos : 0 < b.size
  size_lt : b.size < 2 ^ 32
  header : m.load (b.outer 4).ptr 4 = .ok (LittleEndian.bytes 4 b.size)

/-- The queues: none is empty but that of the size `ex`. -/
structure Shape (ex : Option Nat) (a : AffinedAllocator) : Prop where
  keys : (a.cacheMap.map Prod.fst).Nodup
  total : a.poolVec.length + a.cacheMap.length = stackCapturePoolSz
  idle : ∀ queue ∈ a.poolVec, queue = []
  full : ∀ e ∈ a.cacheMap, (some e.1 ≠ ex → e.2 ≠ []) ∧ e.2.length ≤ stackCapturePoolPopulation

def assign (sz : Nat) (queue : List Ptr) (a : AffinedAllocator) : AffinedAllocator :=
  { a with cacheMap := alter (fun _ => queue) sz a.cacheMap }

variable {a : AffinedAllocator} {ex : Option Nat} {sz : Nat} {queue queue' : List Ptr}

theorem lookup_assign (sz' : Nat) : (a.assign sz queue).cacheMap.lookup sz' =
    if sz' = sz then some queue else a.cacheMap.lookup sz' := lookup_alter

theorem cachedBlocks_assign (h : a.cacheMap.lookup sz = some queue) (queue' : List Ptr) :
    (cachedBlocks (a.assign sz queue') ++ queueBlocks sz queue).Perm
      (cachedBlocks a ++ queueBlocks sz queue') := by
  have := flatMap_alter (fun _ => queue') sz a.cacheMap fun e => queueBlocks e.1 e.2
  rwa [h, Option.map_some, Option.getD_some] at this

theorem mem_cachedBlocks (h : a.cacheMap.lookup sz = some queue) {p : Ptr} (hp : p ∈ queue) :
    ⟨p, sz⟩ ∈ cachedBlocks a :=
  List.mem_flatMap.2 ⟨_, mem_of_lookup h, List.mem_map_of_mem hp⟩

namespace Shape

theorem weaken (h : Shape none a) : Shape (some sz) a :=
  ⟨h.keys, h.total, h.idle, fun e he => ⟨fun _ => (h.full e he).1 nofun, (h.full e he).2⟩⟩

theorem close (h : Shape (some sz) a) (hq : a.cacheMap.lookup sz = some queue) (hne : queue ≠ []) :
    Shape none a := by
  refine ⟨h.keys, h.total, h.idle, fun e he => ⟨fun _ => ?_, (h.full e he).2⟩⟩
  by_cases hk : e.1 = sz
  · obtain ⟨k, q⟩ := e
    obtain rfl : k = sz := hk
    rwa [← Option.some.inj (hq.symm.trans (lookup_of_mem h.keys he))]
  · exact (h.full e he).1 fun e' => hk (Option.some.inj e')

theorem queue_le (h : Shape ex a) (hq : a.cacheMap.lookup sz = some queue) :
    queue.length ≤ stackCapturePoolPopulation := (h.full _ (mem_of_lookup hq)).2

theorem assign (h : Shape (some sz) a) (hq : a.cacheMap.lookup sz = some queue) (queue' : List Ptr)
    (hle : queue'.length ≤ stackCapturePoolPopulation) : Shape (some sz) (a.assign sz queue') := by
  refine ⟨nodup_keys_alter h.keys, ?_, h.idle, fun e he => ?_⟩
  · have hlen : (a.assign sz queue').cacheMap.length = a.cacheMap.length := by
      rw [AffinedAllocator.assign, length_alter, hq]
      rfl
    rw [hlen]
    exact h.total
  · rcases mem_alter he with he | rfl
    · exact h.full e he
    · exact ⟨fun hne => absurd rfl hne, hle⟩

theorem erase (h : Shape (some sz) a) (hq : a.cacheMap.lookup sz = some queue) : Shape none
    { a with poolVec := a.poolVec ++ [[]], cacheMap := HashTable.erase sz a.cacheMap } := by
  have hperm := perm_cons_erase h.keys hq
  refine ⟨nodup_keys_erase h.keys, ?_, fun q hmem => ?_, fun e he => ?_⟩
  · have hlen : a.cacheMap.length = (HashTable.erase sz a.cacheMap).length + 1 := hperm.length_eq
    have := h.total
    dsimp only
    rw [List.length_append, List.length_singleton]
    omega
  · rcases List.mem_append.1 hmem with hmem | hmem
    · exact h.idle q hmem
    · exact List.mem_singleton.1 hmem
  · obtain ⟨he, hne⟩ := mem_erase.1 he
    exact ⟨fun _ => (h.full e he).1 fun e' => hne (Option.some.inj e'), (h.full e he).2⟩

theorem insert (h : Shape none a) (hnone : a.cacheMap.lookup sz = none) (hpool : a.poolVec ≠ []) :
    Shape (some sz) { a with
      cacheMap := alter (fun _ => []) sz a.cacheMap, poolVec := a.poolVec.dropLast } := by
  refine ⟨nodup_keys_alter h.keys, ?_, fun q hq => h.idle q (List.dropLast_subset _ hq), fun e he => ?_⟩
  · have := h.total
    have := List.length_pos_iff.2 hpool
    rw [List.length_dropLast, length_alter, hnone]
    simp only [Option.isSome_none, Bool.false_eq_true, if_false]
    omega
  · rcases mem_alter he with he | rfl
    · exact ⟨fun _ => (h.full e he).1 nofun, (h.full e he).2⟩
    · exact ⟨fun hne => absurd rfl hne, Nat.zero_le _⟩

end Shape

/-! ## The buffer of what is about to be freed -/

variable {σ : Type} {base : Allocator σ} {short : Prop} {limit : Nat}
  {inv : σ → Memory → List Block → Prop} {w w' : World σ} {live others rest : List Block}
  {b c : Block} {m m' : Memory}

/-- The blocks of the buffer and `rest` are what the base has handed out. -/
def Pending (inv : σ → Memory → List Block → Prop) (w : World σ) (rest : List Block) : Prop :=
  ∃ pend : List Block, pend.map Block.ptr = w.1.freeVec ∧ w.1.freeVec.length ≤ freeVecCapacity ∧
    inv w.2.1 w.2.2 (pend ++ rest)

structure Frees (w w' : World σ) (rest : List Block) : Prop where
  poolVec : w'.1.poolVec = w.1.poolVec
  cacheMap : w'.1.cacheMap = w.1.cacheMap
  kept : Kept rest w.2.2 w'.2.2

theorem Frees.refl (w : World σ) (rest : List Block) : Frees w w rest := ⟨rfl, rfl, .refl _ _⟩

section

variable (hA : Lawful base short limit inv)

include hA

theorem Pending.perm {rest' : List Block} (h : Pending inv w rest)
    (hp : rest.Perm rest') : Pending inv w rest' := by
  obtain ⟨pend, hptr, hle, hi⟩ := h
  exact ⟨pend, hptr, hle, hA.perm hi (hp.append_left _)⟩

theorem flushFreeVec_ok (h : Pending inv w rest) :
    ∃ w', flushFreeVec base w = .ok w' ∧ Pending inv w' rest ∧ w'.1.freeVec = [] ∧ Frees w w' rest := by
  obtain ⟨pend, hptr, hle, hi⟩ := h
  obtain ⟨s', m', e, hi', hk⟩ := hA.free pend hi
  have hbufs : (w.1.freeVec.map some) = pend.map fun b => some b.ptr := by
    rw [← hptr, List.map_map]
    rfl
  refine ⟨({ w.1 with freeVec := [] }, s', m'), ?_, ⟨[], rfl, Nat.zero_le _, hi'⟩, rfl, rfl, rfl, hk⟩
  rw [flushFreeVec, hbufs]
  exact congrArg (· >>= _) e

theorem freeUserPtr_ok (hoff : 4 ≤ b.ptr.offset)
    (h : Pending inv w (b.outer 4 :: rest)) :
    ∃ w', freeUserPtr base w b.ptr = .ok w' ∧ Pending inv w' rest ∧ Frees w w' rest := by
  obtain ⟨w1, e1, h1, hlt, f1⟩ : ∃ w1,
      (if w.1.freeVec.length = freeVecCapacity then flushFreeVec base w else .ok w) = .ok w1 ∧
        Pending inv w1 (b.outer 4 :: rest) ∧ w1.1.freeVec.length < freeVecCapacity ∧
        Frees w w1 (b.outer 4 :: rest) := by
    by_cases hfull : w.1.freeVec.length = freeVecCapacity
    · obtain ⟨w1, e1, h1, hnil, f1⟩ := flushFreeVec_ok hA h
      exact ⟨w1, by rw [if_pos hfull, e1], h1, by rw [hnil]; decide, f1⟩
    · obtain ⟨pend, hptr, hle, hi⟩ := h
      exact ⟨w, if_neg hfull, ⟨pend, hptr, hle, hi⟩, Nat.lt_of_le_of_ne hle hfull, .refl _ _⟩
  obtain ⟨pend, hptr, hle, hi⟩ := h1
  refine ⟨({ w1.1 with freeVec := w1.1.freeVec ++ [(b.outer 4).ptr] }, w1.2), ?_,
    ⟨pend ++ [b.outer 4], ?_, ?_, ?_⟩, f1.poolVec, f1.cacheMap, f1.kept.mono (List.subset_cons_self _ _)⟩
  · rw [freeUserPtr, e1, ok_bind, Block.prev_ptr hoff]
    rfl
  · rw [List.map_append, hptr]
    rfl
  · rw [List.length_append]
    exact hlt
  · rw [List.append_assoc]
    exact hi

theorem freeUserPtrs_ok {bs : List Block}
    (hoff : ∀ b ∈ bs, 4 ≤ b.ptr.offset) (h : Pending inv w (bs.map (Block.outer 4) ++ rest)) :
    ∃ w', (bs.map Block.ptr).foldlM (freeUserPtr base) w = .ok w' ∧ Pending inv w' rest ∧
      Frees w w' rest := by
  induction bs generalizing w with
  | nil => exact ⟨w, rfl, h, .refl _ _⟩
  | cons b bs ih =>
    obtain ⟨w1, e1, h1, f1⟩ := freeUserPtr_ok hA (hoff b List.mem_cons_self) h
    obtain ⟨w2, e2, h2, f2⟩ := ih (fun c hc => hoff c (List.mem_cons_of_mem _ hc)) h1
    refine ⟨w2, ?_, h2, ?_⟩
    · rw [List.map_cons, List.foldlM_cons, e1, ok_bind, e2]
    · exact ⟨f2.poolVec.trans f1.poolVec, f2.cacheMap.trans f1.cacheMap,
        (f1.kept.mono (List.subset_append_right _ _)).trans f2.kept⟩

theorem flushQueues_ok {entries : List (Nat × List Ptr)}
    (hoff : ∀ b ∈ entries.flatMap (fun e => queueBlocks e.1 e.2), 4 ≤ b.ptr.offset)
    (h : Pending inv w ((entries.flatMap fun e => queueBlocks e.1 e.2).map (Block.outer 4) ++ rest)) :
    ∃ w', entries.foldlM (flushQueue base) w = .ok w' ∧ Pending inv w' rest ∧
      w'.1.poolVec = w.1.poolVec ++ List.replicate entries.length [] ∧ Kept rest w.2.2 w'.2.2 := by
  induction entries generalizing w with
  | nil => exact ⟨w, rfl, h, (List.append_nil _).symm, .refl _ _⟩
  | cons e entries ih =>
    rw [List.flatMap_cons] at hoff h
    rw [List.map_append, List.append_assoc] at h
    obtain ⟨w1, e1, h1, f1⟩ := freeUserPtrs_ok hA (fun b hb => hoff b (List.mem_append_left _ hb)) h
    have hptrs : (queueBlocks e.1 e.2).map Block.ptr = e.2 := by
      rw [queueBlocks, List.map_map]
      exact List.map_id _
    rw [hptrs] at e1
    obtain ⟨w2, e2, h2, hpool, hk⟩ := ih (w := ({ w1.1 with poolVec := w1.1.poolVec ++ [[]] }, w1.2))
      (fun b hb => hoff b (List.mem_append_right _ hb)) h1
    refine ⟨w2, ?_, h2, ?_, (f1.kept.mono (List.subset_append_right _ _)).trans hk⟩
    · rw [List.foldlM_cons, flushQueue, e1, ok_bind, ok_bind]
      exact e2
    · rw [hpool, f1.poolVec, List.append_assoc]
      rfl

theorem Pending.inside (h : Pending inv w rest) (hb : b ∈ rest) :
    0 < b.size ∧ w.2.2.Inside b.ptr b.size := by
  obtain ⟨pend, -, -, hi⟩ := h
  exact hA.inside hi b (List.mem_append_right _ hb)

theorem Pending.store (h : Pending inv w (b :: rest)) (p : Ptr)
    (bs : List Byte) (hw : Block.Within p bs.length b) :
    ∃ m', w.2.2.store p bs = .ok m' ∧ Pending inv (w.1, w.2.1, m') (b :: rest) ∧
      Kept rest w.2.2 m' := by
  obtain ⟨hp, hlo, hhi⟩ := hw
  obtain ⟨m', e⟩ := Memory.store_ok bs ((h.inside hA List.mem_cons_self).2.of_offset hp hhi)
  obtain ⟨pend, hptr, hle, hi⟩ := h
  have hcover : ∀ q, ¬ b.Covers q → m'.bytes q = w.2.2.bytes q := fun q hq =>
    Memory.bytes_store e fun hc => hq ⟨hc.1.trans hp, Nat.le_trans hlo hc.2.1,
      Nat.lt_of_lt_of_le hc.2.2 hhi⟩
  refine ⟨m', e, ⟨pend, hptr, hle, hA.frame hi (Memory.sizes_store e) fun q hq => ?_⟩, fun c hc q hq => ?_⟩
  · exact hcover q (hq b (List.mem_append_right _ List.mem_cons_self))
  · have hdisj := hA.disjoint (hA.perm hi (List.perm_middle))
    refine hcover q fun hbq => (List.pairwise_cons.1 hdisj).1 c ?_ q hbq hq
    exact List.mem_append_right _ hc

end

/-! ## The invariant -/

theorem Sized.of_kept (h : Sized m b) (hb : b.outer 4 ∈ rest) (hk : Kept rest m m')
    (hin : m.Inside (b.outer 4).ptr (b.outer 4).size)
    (hin' : m'.Inside (b.outer 4).ptr (b.outer 4).size) : Sized m' b := by
  have hw : Block.Within (b.outer 4).ptr 4 (b.outer 4) :=
    ⟨rfl, Nat.le_refl _, Nat.add_le_add_left (Nat.le_add_left _ _) _⟩
  exact ⟨h.offset, h.pos, h.size_lt, (hk.load hb hin hin' hw).trans h.header⟩

/-- The blocks `live` are the caller's, and `others` are out of the allocator's reach. -/
structure AffInv (inv : σ → Memory → List Block → Prop) (ex : Option Nat) (w : World σ)
    (live others : List Block) : Prop where
  shape : Shape ex w.1
  sized : ∀ b ∈ live ++ cachedBlocks w.1, Sized w.2.2 b
  pending : Pending inv w ((live ++ cachedBlocks w.1).map (Block.outer 4) ++ others)

namespace AffInv

variable {live' others' : List Block}

/-- The queue of a size changes, and what it loses or gets goes to or comes from elsewhere. -/
theorem assign (hA : Lawful base short limit inv) (h : AffInv inv (some sz) w live others)
    (hq : w.1.cacheMap.lookup sz = some queue) (hle : queue'.length ≤ stackCapturePoolPopulation)
    (hsized : ∀ b ∈ live' ++ queueBlocks sz queue', Sized w.2.2 b)
    (hperm : ((live ++ queueBlocks sz queue).map (Block.outer 4) ++ others).Perm
      ((live' ++ queueBlocks sz queue').map (Block.outer 4) ++ others')) :
    AffInv inv (some sz) (w.1.assign sz queue', w.2) live' others' := by
  have hcached := cachedBlocks_assign hq queue'
  refine ⟨h.shape.assign hq queue' hle, fun b hb => ?_, ?_⟩
  · rcases List.mem_append.1 hb with hb | hb
    · exact hsized b (List.mem_append_left _ hb)
    · rcases List.mem_append.1 (hcached.mem_iff.1 (List.mem_append_left _ hb)) with hb | hb
      · exact h.sized b (List.mem_append_right _ hb)
      · exact hsized b (List.mem_append_right _ hb)
  · obtain ⟨pend, hptr, hlen, hi⟩ := h.pending
    refine ⟨pend, hptr, hlen, hA.perm hi (List.Perm.append_left _ (List.perm_iff_count.2 fun c => ?_))⟩
    have h1 := List.perm_iff_count.1 (hcached.map (Block.outer 4)) c
    have h2 := List.perm_iff_count.1 hperm c
    simp only [List.map_append, List.count_append] at h1 h2 ⊢
    omega

theorem popBack_ok (hA : Lawful base short limit inv) (h : AffInv inv (some sz) w live others)
    (hq : w.1.cacheMap.lookup sz = some queue) (hne : queue ≠ []) :
    ∃ rs, popBack sz queue w = .ok (some rs, (w.1.assign sz queue.dropLast, w.2)) ∧
      AffInv inv (some sz) (w.1.assign sz queue.dropLast, w.2) (⟨rs, sz⟩ :: live) others := by
  obtain ⟨rs, hrs⟩ : ∃ rs, queue.getLast? = some rs := ⟨_, List.getLast?_eq_some_getLast hne⟩
  have hsplit : queueBlocks sz queue = queueBlocks sz queue.dropLast ++ [⟨rs, sz⟩] := by
    conv_lhs => rw [← List.dropLast_append_getLast? rs hrs]
    exact List.map_append
  have hlen := h.shape.queue_le hq
  refine ⟨rs, by rw [popBack, hrs]; rfl, h.assign hA hq ?_ (fun b hb => ?_) ?_⟩
  · rw [List.length_dropLast]
    omega
  · rcases List.mem_append.1 hb with hb | hb
    · rcases List.mem_cons.1 hb with rfl | hb
      · exact h.sized _ (List.mem_append_right _ (mem_cachedBlocks hq (List.mem_of_getLast? hrs)))
      · exact h.sized b (List.mem_append_left _ hb)
    · obtain ⟨p, hp, rfl⟩ := List.mem_map.1 hb
      exact h.sized _ (List.mem_append_right _ (mem_cachedBlocks hq (List.dropLast_subset _ hp)))
  · rw [hsplit]
    refine List.perm_iff_count.2 fun c => ?_
    simp only [List.map_append, List.map_cons, List.map_nil, List.count_append, List.count_cons,
      List.count_nil]
    omega

variable {p : Ptr}

theorem pushBack_eq (h : queue.length < stackCapturePoolPopulation) :
    pushBack p queue = queue ++ [p] := if_neg (Nat.ne_of_lt h)

theorem cache_eq (hq : w.1.cacheMap.lookup sz = some queue)
    (h : queue.length < stackCapturePoolPopulation) :
    cache sz p w = (w.1.assign sz (queue ++ [p]), w.2) := by
  unfold cache AffinedAllocator.assign
  rw [alter_const, hq, Option.getD_some, pushBack_eq h]

theorem cache_ok (hA : Lawful base short limit inv) (h : AffInv inv (some b.size) w (b :: live) others)
    (hq : w.1.cacheMap.lookup b.size = some queue) (hlt : queue.length < stackCapturePoolPopulation) :
    AffInv inv none (cache b.size b.ptr w) live others := by
  rw [cache_eq hq hlt]
  have hassign : AffInv inv (some b.size) (w.1.assign b.size (queue ++ [b.ptr]), w.2) live others :=
    h.assign hA hq (by rw [List.length_append]; exact hlt) (fun c hc => ?_) ?_
  · have hlookup : (w.1.assign b.size (queue ++ [b.ptr])).cacheMap.lookup b.size =
        some (queue ++ [b.ptr]) := by rw [lookup_assign, if_pos rfl]
    exact ⟨hassign.shape.close hlookup (by simp), hassign.sized, hassign.pending⟩
  · rcases List.mem_append.1 hc with hc | hc
    · exact h.sized c (List.mem_append_left _ (List.mem_cons_of_mem _ hc))
    · obtain ⟨p, hp, rfl⟩ := List.mem_map.1 hc
      rcases List.mem_append.1 hp with hp | hp
      · exact h.sized _ (List.mem_append_right _ (mem_cachedBlocks hq hp))
      · rw [List.mem_singleton.1 hp]
        exact h.sized b (List.mem_append_left _ List.mem_cons_self)
  · refine List.perm_iff_count.2 fun c => ?_
    simp only [queueBlocks, List.map_append, List.map_cons, List.map_nil, List.count_append,
      List.count_cons, List.count_nil]
    rw [show (⟨b.ptr, b.size⟩ : Block) = b from rfl]
    omega

/-! ### A new queue -/

theorem cachedBlocks_insert (hnone : w.1.cacheMap.lookup sz = none) : (cachedBlocks { w.1 with
    cacheMap := alter (fun _ => []) sz w.1.cacheMap, poolVec := w.1.poolVec.dropLast }).Perm
      (cachedBlocks w.1) := by
  have := flatMap_alter (fun _ => []) sz w.1.cacheMap fun e => queueBlocks e.1 e.2
  rw [hnone, Option.map_none, Option.getD_none, List.append_nil] at this
  exact this.trans (by rw [queueBlocks, List.map_nil, List.append_nil]; rfl)

section

variable (hA : Lawful base short limit inv)

include hA

theorem flushCacheMap_ok (h : AffInv inv none w live others)
    (iteration : Order (Nat × List Ptr)) :
    ∃ w', flushCacheMap base iteration w = .ok w' ∧ AffInv inv none w' live others ∧
      w'.1.cacheMap = [] ∧ Kept (live.map (Block.outer 4) ++ others) w.2.2 w'.2.2 := by
  have hperm := iteration.perm w.1.cacheMap
  have hflat := hperm.flatMap_right fun e => queueBlocks e.1 e.2
  have hpend : Pending inv w (((iteration.order w.1.cacheMap).flatMap fun e =>
      queueBlocks e.1 e.2).map (Block.outer 4) ++ (live.map (Block.outer 4) ++ others)) := by
    refine h.pending.perm hA ?_
    rw [List.map_append, List.append_assoc]
    refine (List.perm_append_comm_assoc _ _ _).trans (List.Perm.append_right _ ?_)
    exact (hflat.map _).symm
  obtain ⟨w1, e1, h1, hpool, hk⟩ := flushQueues_ok hA (fun b hb => (h.sized b
    (List.mem_append_right _ (hflat.mem_iff.1 hb))).offset) hpend
  refine ⟨({ w1.1 with cacheMap := [] }, w1.2), by rw [flushCacheMap, e1]; rfl, ⟨⟨List.nodup_nil, ?_,
    fun q hq => ?_, by simp⟩, fun b hb => ?_, ?_⟩, rfl, hk⟩
  · have := h.shape.total
    have := hperm.length_eq
    rw [hpool, List.length_append, List.length_replicate, List.length_nil]
    omega
  · rw [hpool] at hq
    rcases List.mem_append.1 hq with hq | hq
    · exact h.shape.idle q hq
    · exact List.eq_of_mem_replicate hq
  · have hb : b ∈ live := by simpa [cachedBlocks] using hb
    have hmem : b.outer 4 ∈ live.map (Block.outer 4) ++ others :=
      List.mem_append_left _ (List.mem_map_of_mem hb)
    exact (h.sized b (List.mem_append_left _ hb)).of_kept hmem hk
      (hpend.inside hA (List.mem_append_right _ hmem)).2 (h1.inside hA hmem).2
  · have hnil : cachedBlocks { w1.1 with cacheMap := [] } = [] := rfl
    rw [hnil, List.append_nil]
    exact h1

theorem insertQueue_ok (h : AffInv inv none w live others)
    (iteration : Order (Nat × List Ptr))
    (hnone : w.1.cacheMap.lookup sz = none) :
    ∃ w', insertQueue base iteration sz w = .ok w' ∧ AffInv inv (some sz) w' live others ∧
      w'.1.cacheMap.lookup sz = some [] ∧ Kept (live.map (Block.outer 4) ++ others) w.2.2 w'.2.2 := by
  obtain ⟨w1, e1, h1, hnone1, hpool1, hk⟩ : ∃ w1,
      (if w.1.poolVec.isEmpty then flushCacheMap base iteration w else .ok w) = .ok w1 ∧
        AffInv inv none w1 live others ∧ w1.1.cacheMap.lookup sz = none ∧ w1.1.poolVec ≠ [] ∧
        Kept (live.map (Block.outer 4) ++ others) w.2.2 w1.2.2 := by
    by_cases hempty : w.1.poolVec.isEmpty
    · obtain ⟨w1, e1, h1, hnil, hk⟩ := h.flushCacheMap_ok hA iteration
      refine ⟨w1, by rw [if_pos hempty, e1], h1, by rw [hnil]; rfl, fun he => ?_, hk⟩
      have := h1.shape.total
      rw [he, hnil] at this
      cases this
    · exact ⟨w, if_neg hempty, h, hnone, fun he => hempty (by rw [he]; rfl), .refl _ _⟩
  have hlast : w1.1.poolVec.getLast? = some [] := by
    rw [List.getLast?_eq_some_getLast hpool1, h1.shape.idle _ (List.getLast_mem hpool1)]
  have hins : alter (fun queue => queue.getD []) sz w1.1.cacheMap = alter (fun _ => []) sz w1.1.cacheMap := by
    rw [alter_const, hnone1]
    rfl
  have hcached := cachedBlocks_insert hnone1
  refine ⟨({ w1.1 with
      cacheMap := alter (fun _ => []) sz w1.1.cacheMap, poolVec := w1.1.poolVec.dropLast }, w1.2), ?_,
    ⟨h1.shape.insert hnone1 hpool1, fun b hb => h1.sized b ?_, h1.pending.perm hA ?_⟩, ?_, hk⟩
  · rw [insertQueue, e1, ok_bind, hlast]
    dsimp only
    rw [hins]
  · exact ((hcached.append_left live).mem_iff).1 hb
  · exact ((hcached.symm.append_left live).map _).append_right _
  · exact lookup_alter.trans (if_pos rfl)

/-! ### The operations -/

theorem refill_ok (h : AffInv inv (some sz) w live (b :: others))
    (hsz : b.size = sz + 4) (hpos : 0 < sz) (hlt : sz < 2 ^ 32)
    (hq : w.1.cacheMap.lookup sz = some queue) (hroom : queue.length < stackCapturePoolPopulation) :
    ∃ w', refill sz w (some b.ptr) = .ok w' ∧ AffInv inv (some sz) w' live others ∧
      w'.1.cacheMap.lookup sz = some (queue ++ [b.ptr.next 4]) ∧
      Kept (live.map (Block.outer 4) ++ others) w.2.2 w'.2.2 := by
  have hp : Pending inv w (b :: ((live ++ cachedBlocks w.1).map (Block.outer 4) ++ others)) :=
    h.pending.perm hA List.perm_middle
  obtain ⟨m', e, hp', hk⟩ := hp.store hA b.ptr (LittleEndian.bytes 4 sz)
    ⟨rfl, Nat.le_refl _, by rw [LittleEndian.length_bytes]; omega⟩
  have hinner : b.inner 4 = ⟨b.ptr.next 4, sz⟩ := by rw [Block.inner, hsz, Nat.add_sub_cancel]
  have houter : (⟨b.ptr.next 4, sz⟩ : Block).outer 4 = b := by
    rw [← hinner, Block.outer_inner (by omega)]
  have hmid : AffInv inv (some sz) (w.1, w.2.1, m') live (b :: others) := by
    refine ⟨h.shape, fun c hc => ?_, hp'.perm hA List.perm_middle.symm⟩
    have hmem : c.outer 4 ∈ (live ++ cachedBlocks w.1).map (Block.outer 4) ++ others :=
      List.mem_append_left _ (List.mem_map_of_mem hc)
    exact (h.sized c hc).of_kept hmem hk (hp.inside hA (List.mem_cons_of_mem _ hmem)).2
      (hp'.inside hA (List.mem_cons_of_mem _ hmem)).2
  have hnew : Sized m' ⟨b.ptr.next 4, sz⟩ := by
    have hload := Memory.load_store e
    rw [LittleEndian.length_bytes] at hload
    exact ⟨Nat.le_add_left _ _, hpos, hlt, by rw [houter]; exact hload⟩
  refine ⟨((w.1.assign sz (queue ++ [b.ptr.next 4])), w.2.1, m'), ?_,
    hmid.assign hA hq ?_ (fun c hc => ?_) ?_, by rw [lookup_assign, if_pos rfl], hk.mono ?_⟩
  · simp only [refill, deref, ok_bind, e]
    unfold AffinedAllocator.assign
    rw [alter_const, hq, Option.getD_some, pushBack_eq hroom]
  · rw [List.length_append]
    exact hroom
  · rcases List.mem_append.1 hc with hc | hc
    · exact hmid.sized c (List.mem_append_left _ hc)
    · obtain ⟨p, hp, rfl⟩ := List.mem_map.1 hc
      rcases List.mem_append.1 hp with hp | hp
      · exact hmid.sized _ (List.mem_append_right _ (mem_cachedBlocks hq hp))
      · rw [List.mem_singleton.1 hp]
        exact hnew
  · refine List.perm_iff_count.2 fun c => ?_
    simp only [queueBlocks, List.map_append, List.map_cons, List.map_nil, List.count_append,
      List.count_cons, List.count_nil, houter]
    omega
  · intro c hc
    rcases List.mem_append.1 hc with hc | hc
    · rw [List.map_append]
      exact List.mem_append_left _ (List.mem_append_left _ hc)
    · exact List.mem_append_right _ hc

theorem refills_ok {bs : List Block}
    (h : AffInv inv (some sz) w live (bs ++ others)) (hsz : ∀ b ∈ bs, b.size = sz + 4) (hpos : 0 < sz)
    (hlt : sz < 2 ^ 32) (hq : w.1.cacheMap.lookup sz = some queue)
    (hroom : queue.length + bs.length ≤ stackCapturePoolPopulation) :
    ∃ w', (bs.map fun b => some b.ptr).foldlM (refill sz) w = .ok w' ∧
      AffInv inv (some sz) w' live others ∧
      w'.1.cacheMap.lookup sz = some (queue ++ bs.map fun b => b.ptr.next 4) ∧
      Kept (live.map (Block.outer 4) ++ others) w.2.2 w'.2.2 := by
  induction bs generalizing w queue with
  | nil => exact ⟨w, rfl, h, by rw [List.map_nil, List.append_nil, hq], .refl _ _⟩
  | cons b bs ih =>
    rw [List.length_cons] at hroom
    obtain ⟨w1, e1, h1, hq1, hk1⟩ := h.refill_ok hA (hsz b List.mem_cons_self) hpos hlt hq (by omega)
    obtain ⟨w2, e2, h2, hq2, hk2⟩ := ih h1 (fun c hc => hsz c (List.mem_cons_of_mem _ hc)) hq1
      (by rw [List.length_append, List.length_singleton]; omega)
    refine ⟨w2, by rw [List.map_cons, List.foldlM_cons, e1, ok_bind, e2], h2, ?_, Kept.trans ?_ hk2⟩
    · rw [hq2, List.append_assoc]
      rfl
    · refine hk1.mono fun c hc => ?_
      rcases List.mem_append.1 hc with hc | hc
      · exact List.mem_append_left _ hc
      · exact List.mem_append_right _ (List.mem_append_right _ hc)

theorem fetch_ok (hlimit : 2 ^ 32 + 3 ≤ limit)
    (h : AffInv inv none w live others) (iteration : Order (Nat × List Ptr)) (hpos : 0 < sz) (hlt : sz < 2 ^ 32)
    (hnone : w.1.cacheMap.lookup sz = none) :
    Ends short (do
      let w ← insertQueue base iteration sz w
      let (result, s) ← base.malloc (List.replicate refillSz (sizeT (sz + 4))) w.2
      let w ← result.foldlM (refill sz) (w.1, s)
      popBack sz ((w.1.cacheMap.lookup sz).getD []) w) fun r => ∃ b : Block,
        r.1 = some b.ptr ∧ b.size = sz ∧ AffInv inv none r.2 (b :: live) others ∧
        Kept (live.map (Block.outer 4) ++ others) w.2.2 r.2.2.2 := by
  obtain ⟨w1, e1, h1, hq1, hk1⟩ := h.insertQueue_ok hA iteration hnone
  rw [e1, ok_bind, sizeT_of_lt (by omega)]
  obtain ⟨pend, hptr, hle, hi⟩ := h1.pending
  refine (hA.malloc (List.replicate refillSz (sz + 4)) hi fun n hn => ?_).bind fun r hr => ?_
  · rw [List.eq_of_mem_replicate hn]
    omega
  obtain ⟨result, s⟩ := r
  obtain ⟨bs, rfl, hbs, hi2, hk2⟩ := hr
  have hlen : bs.length = refillSz := by simpa using congrArg List.length hbs
  have hsize : ∀ b ∈ bs, b.size = sz + 4 := by
    intro b hb
    have hmem : b.size ∈ bs.map Block.size := List.mem_map_of_mem hb
    rw [hbs] at hmem
    exact List.eq_of_mem_replicate hmem
  have hp2 : Pending inv (w1.1, s) ((live ++ cachedBlocks w1.1).map (Block.outer 4) ++ (bs ++ others)) := by
    refine ⟨pend, hptr, hle, hA.perm hi2 (List.perm_iff_count.2 fun c => ?_)⟩
    simp only [List.count_append]
    omega
  have h2 : AffInv inv (some sz) (w1.1, s) live (bs ++ others) := by
    refine ⟨h1.shape, fun c hc => ?_, hp2⟩
    have hmem := List.mem_map_of_mem (f := Block.outer 4) hc
    exact (h1.sized c hc).of_kept (List.mem_append_right _ (List.mem_append_left _ hmem)) hk2
      (h1.pending.inside hA (List.mem_append_left _ hmem)).2
      (hp2.inside hA (List.mem_append_left _ hmem)).2
  obtain ⟨w3, e3, h3, hq3, hk3⟩ := h2.refills_ok hA hsize hpos hlt hq1 (by rw [hlen]; decide)
  rw [List.nil_append] at hq3
  dsimp only
  rw [e3, ok_bind, hq3, Option.getD_some]
  have hne : (bs.map fun b => b.ptr.next 4) ≠ [] := by
    intro he
    have := congrArg List.length he
    rw [List.length_map, hlen] at this
    cases this
  obtain ⟨rs, e4, h4⟩ := h3.popBack_ok hA hq3 hne
  refine .of_ok ⟨_, e4, ⟨rs, sz⟩, rfl, rfl, ⟨?_, h4.sized, h4.pending⟩, ?_⟩
  · refine h4.shape.close (by rw [lookup_assign, if_pos rfl]) fun he => ?_
    have := congrArg List.length he
    rw [List.length_dropLast, List.length_map, hlen] at this
    cases this
  · have hkept : Kept (live.map (Block.outer 4) ++ others) w1.2.2 s.2 := by
      refine hk2.mono (List.append_subset.2 ⟨fun c hc => ?_, fun c hc => ?_⟩)
      · rw [List.map_append]
        exact List.mem_append_right _ (List.mem_append_left _ (List.mem_append_left _ hc))
      · exact List.mem_append_right _ (List.mem_append_right _ hc)
    exact hk1.trans (hkept.trans (hk3.mono (List.append_subset.2
      ⟨List.subset_append_left _ _, List.subset_append_right _ _⟩)))

end

theorem size_pos (h : AffInv inv none w live others) (hq : w.1.cacheMap.lookup sz = some queue) :
    queue ≠ [] ∧ 0 < sz := by
  have hne := (h.shape.full _ (mem_of_lookup hq)).1 nofun
  obtain ⟨p, hp⟩ := List.exists_mem_of_ne_nil queue hne
  exact ⟨hne, (h.sized _ (List.mem_append_right _ (mem_cachedBlocks hq hp))).pos⟩

theorem release (hA : Lawful base short limit inv) (h : AffInv inv (some sz) w live others)
    (hq : w.1.cacheMap.lookup sz = some []) : AffInv inv none ({ w.1 with
      poolVec := w.1.poolVec ++ [[]], cacheMap := HashTable.erase sz w.1.cacheMap }, w.2) live others := by
  have hcached : (cachedBlocks w.1).Perm (cachedBlocks { w.1 with
      poolVec := w.1.poolVec ++ [[]], cacheMap := HashTable.erase sz w.1.cacheMap }) :=
    (perm_cons_erase h.shape.keys hq).flatMap_right fun e : Nat × List Ptr => queueBlocks e.1 e.2
  refine ⟨h.shape.erase hq, fun b hb => h.sized b ?_, h.pending.perm hA ?_⟩
  · exact ((hcached.append_left live).mem_iff).2 hb
  · exact ((hcached.append_left live).map _).append_right _

/-- **A request** is served from the queue of its size or from the base. -/
theorem malloc_ok (hA : Lawful base short limit inv) (hlimit : 2 ^ 32 + 3 ≤ limit)
    (h : AffInv inv none w live others) (iteration : Order (Nat × List Ptr)) (sz : Nat) :
    Ends (short ∨ 2 ^ 32 ≤ sz) (AffinedAllocator.malloc base iteration sz w) fun r =>
      (sz = 0 ∧ r = (none, w)) ∨ ∃ b : Block, r.1 = some b.ptr ∧ b.size = sz ∧
        AffInv inv none r.2 (b :: live) others ∧
        Kept (live.map (Block.outer 4) ++ others) w.2.2 r.2.2.2 := by
  unfold AffinedAllocator.malloc
  cases hq : w.1.cacheMap.lookup sz with
  | some queue =>
    obtain ⟨hne, hpos⟩ := h.size_pos hq
    have hweak : AffInv inv (some sz) w live others := ⟨h.shape.weaken, h.sized, h.pending⟩
    obtain ⟨rs, e, h1⟩ := hweak.popBack_ok hA hq hne
    have hq1 : (w.1.assign sz queue.dropLast).cacheMap.lookup sz = some queue.dropLast := by
      rw [lookup_assign, if_pos rfl]
    dsimp only
    by_cases hmany : queue.length > 1
    · rw [if_pos hmany]
      refine .of_ok ⟨_, e, .inr ⟨⟨rs, sz⟩, rfl, rfl, ⟨h1.shape.close hq1 fun he => ?_, h1.sized,
        h1.pending⟩, .refl _ _⟩⟩
      have := congrArg List.length he
      rw [List.length_dropLast, List.length_nil] at this
      omega
    · have hlast : queue.dropLast = [] := by
        rw [← List.length_eq_zero_iff, List.length_dropLast]
        omega
      rw [if_neg hmany, slowMalloc, if_neg (by omega), hq]
      rw [hlast] at e h1 hq1
      dsimp only
      rw [e, ok_bind, hlast]
      exact .ok (.inr ⟨⟨rs, sz⟩, rfl, rfl, h1.release hA hq1, .refl _ _⟩)
  | none =>
    unfold slowMalloc
    by_cases h0 : sz = 0
    · rw [if_pos h0]
      exact .ok (.inl ⟨h0, rfl⟩)
    rw [if_neg h0, hq]
    by_cases hbig : sz > 2 ^ 32 - 1
    · rw [if_pos hbig]
      exact .abort (.inr (by omega))
    rw [if_neg hbig]
    rcases h.fetch_ok hA hlimit iteration (by omega) (by omega) hq with ⟨r, e, hr⟩ | ⟨e, hs⟩
    · exact .of_ok ⟨r, e, .inr hr⟩
    · exact .inr ⟨e, .inl hs⟩

theorem drain_ok (hA : Lawful base short limit inv) (h : AffInv inv (some sz) w live others)
    (hq : w.1.cacheMap.lookup sz = some queue) :
    ∃ w', drain base sz queue w = .ok w' ∧ AffInv inv (some sz) w' live others ∧
      w'.1.cacheMap.lookup sz = some (queue.drop (min queue.length freeSz)) ∧
      Kept (live.map (Block.outer 4) ++ others) w.2.2 w'.2.2 := by
  generalize hn : min queue.length freeSz = n
  have hcached := cachedBlocks_assign hq (queue.drop n)
  have hsplit : queueBlocks sz queue = queueBlocks sz (queue.take n) ++ queueBlocks sz (queue.drop n) := by
    conv_lhs => rw [← List.take_append_drop n queue]
    exact List.map_append
  have hpend : Pending inv w ((queueBlocks sz (queue.take n)).map (Block.outer 4) ++
      ((live ++ cachedBlocks (w.1.assign sz (queue.drop n))).map (Block.outer 4) ++ others)) := by
    refine h.pending.perm hA (List.perm_iff_count.2 fun c => ?_)
    rw [hsplit] at hcached
    have h1 := List.perm_iff_count.1 (hcached.map (Block.outer 4)) c
    simp only [List.map_append, List.count_append] at h1 ⊢
    omega
  have hmem : ∀ p ∈ queue, Sized w.2.2 ⟨p, sz⟩ := fun p hp =>
    h.sized _ (List.mem_append_right _ (mem_cachedBlocks hq hp))
  obtain ⟨w1, e1, h1, f1⟩ := freeUserPtrs_ok hA (fun b hb => by
    obtain ⟨p, hp, rfl⟩ := List.mem_map.1 hb
    exact (hmem p (List.take_subset _ _ hp)).offset) hpend
  have hptrs : (queueBlocks sz (queue.take n)).map Block.ptr = queue.take n := by
    rw [queueBlocks, List.map_map]
    exact List.map_id _
  have hassign : w1.1.assign sz (queue.drop n) =
      { w.1.assign sz (queue.drop n) with freeVec := w1.1.freeVec } := by
    simp only [AffinedAllocator.assign, f1.poolVec, f1.cacheMap]
  have hle := h.shape.queue_le hq
  have hshape := h.shape.assign hq (queue.drop n) (by rw [List.length_drop]; omega)
  refine ⟨(w1.1.assign sz (queue.drop n), w1.2), ?_, ⟨?_, fun b hb => ?_, ?_⟩, ?_, f1.kept.mono ?_⟩
  · rw [hptrs] at e1
    rw [drain, hn, e1]
    rfl
  · rw [hassign]
    exact ⟨hshape.keys, hshape.total, hshape.idle, hshape.full⟩
  · rw [hassign] at hb
    have hb' : b ∈ live ++ cachedBlocks (w.1.assign sz (queue.drop n)) := hb
    have hold : Sized w.2.2 b := by
      rcases List.mem_append.1 hb' with hb' | hb'
      · exact h.sized b (List.mem_append_left _ hb')
      · rcases List.mem_append.1 (hcached.mem_iff.1 (List.mem_append_left _ hb')) with hb' | hb'
        · exact h.sized b (List.mem_append_right _ hb')
        · obtain ⟨p, hp, rfl⟩ := List.mem_map.1 hb'
          exact hmem p (List.drop_subset _ _ hp)
    have hrest := List.mem_append_left others (List.mem_map_of_mem (f := Block.outer 4) hb')
    exact hold.of_kept hrest f1.kept (hpend.inside hA (List.mem_append_right _ hrest)).2
      (h1.inside hA hrest).2
  · rw [hassign]
    exact h1
  · rw [lookup_assign, if_pos rfl]
  · refine List.append_subset.2 ⟨fun c hc => ?_, List.subset_append_right _ _⟩
    rw [List.map_append]
    exact List.mem_append_left _ (List.mem_append_left _ hc)

theorem readSize_ok (h : AffInv inv ex w (b :: live) others) : readSize b.ptr w.2.2 = .ok b.size := by
  have hs := h.sized b (List.mem_append_left _ List.mem_cons_self)
  rw [readSize, Block.prev_ptr hs.offset, ok_bind, hs.header, ok_bind, LittleEndian.value_bytes,
    Nat.mod_eq_of_lt (hs.size_lt.trans_eq (by decide))]

variable (hA : Lawful base short limit inv)

include hA

/-- **A block comes back** to the queue of its size. -/
theorem free_ok (h : AffInv inv none w (b :: live) others)
    (iteration : Order (Nat × List Ptr)) :
    ∃ w', AffinedAllocator.free base iteration (some b.ptr) w = .ok w' ∧ AffInv inv none w' live others ∧
      Kept (live.map (Block.outer 4) ++ others) w.2.2 w'.2.2 := by
  have hsub : live.map (Block.outer 4) ++ others ⊆ (b :: live).map (Block.outer 4) ++ others :=
    List.subset_cons_self _ _
  have hread := h.readSize_ok
  simp only [AffinedAllocator.free, hread, ok_bind]
  cases hq : w.1.cacheMap.lookup b.size with
  | none =>
    obtain ⟨w1, e1, h1, hq1, hk1⟩ := h.insertQueue_ok hA iteration hq
    refine ⟨_, ?_, h1.cache_ok hA hq1 (by decide), hk1.mono hsub⟩
    rw [slowFree, hread, ok_bind, hq, if_pos rfl, e1, ok_bind, hq1]
    rfl
  | some queue =>
    have hweak : AffInv inv (some b.size) w (b :: live) others := ⟨h.shape.weaken, h.sized, h.pending⟩
    dsimp only
    by_cases hfull : queue.length = stackCapturePoolPopulation
    · obtain ⟨w1, e1, h1, hq1, hk1⟩ := hweak.drain_ok hA hq
      refine ⟨_, ?_, h1.cache_ok hA hq1 ?_, hk1.mono hsub⟩
      · rw [if_neg (fun hne => hne hfull), slowFree, hread, ok_bind, hq, if_neg nofun, ok_bind]
        dsimp only
        rw [hq, Option.getD_some, if_pos hfull, e1]
        rfl
      · rw [List.length_drop, hfull]
        decide
    · refine ⟨_, if_pos hfull, hweak.cache_ok hA hq ?_, .refl _ _⟩
      exact Nat.lt_of_le_of_ne (h.shape.queue_le hq) hfull

/-! ### The caller, and other users of the base -/

theorem perm (h : AffInv inv ex w live others)
    (hp : live.Perm live') : AffInv inv ex w live' others :=
  ⟨h.shape, fun b hb => h.sized b ((hp.append_right _).mem_iff.2 hb),
    h.pending.perm hA (((hp.append_right _).map _).append_right _)⟩

theorem perm_others (h : AffInv inv ex w live others)
    (hp : others.Perm others') : AffInv inv ex w live others' :=
  ⟨h.shape, h.sized, h.pending.perm hA (hp.append_left _)⟩

theorem beside (h : AffInv inv ex w live others) {s : σ × Memory}
    (hpend : Pending inv (w.1, s) ((live ++ cachedBlocks w.1).map (Block.outer 4) ++ others'))
    (hk : Kept ((live ++ cachedBlocks w.1).map (Block.outer 4)) w.2.2 s.2) :
    AffInv inv ex (w.1, s) live others' := by
  refine ⟨h.shape, fun b hb => ?_, hpend⟩
  have hmem := List.mem_map_of_mem (f := Block.outer 4) hb
  exact (h.sized b hb).of_kept hmem hk (h.pending.inside hA (List.mem_append_left _ hmem)).2
    (hpend.inside hA (List.mem_append_left _ hmem)).2

theorem write (h : AffInv inv none w (b :: live) others)
    {bs : List Byte} (hw : Block.Within p bs.length b) :
    ∃ m', w.2.2.store p bs = .ok m' ∧ AffInv inv none (w.1, w.2.1, m') (b :: live) others ∧
      Kept (live.map (Block.outer 4) ++ others) w.2.2 m' := by
  have hb := h.sized b (List.mem_append_left _ List.mem_cons_self)
  obtain ⟨hblock, hlo, hhi⟩ := hw
  have hoff := hb.offset
  have hpend : Pending inv w (b.outer 4 ::
      ((live ++ cachedBlocks w.1).map (Block.outer 4) ++ others)) := h.pending
  obtain ⟨m', e, hp', hk⟩ := hpend.store hA p bs
    ⟨hblock, by simp only [Block.outer]; omega, by simp only [Block.outer]; omega⟩
  refine ⟨m', e, ⟨h.shape, fun c hc => ?_, hp'⟩, hk.mono ?_⟩
  · rcases List.mem_cons.1 hc with rfl | hc
    · refine ⟨hb.offset, hb.pos, hb.size_lt, Eq.trans (Memory.load_congr ?_ fun q hq => ?_) hb.header⟩
      · exact Memory.inside_congr (Memory.sizes_store e)
      · refine Memory.bytes_store e fun hcov => ?_
        have h1 : q.offset < c.ptr.offset - 4 + 4 := hq.2.2
        have h2 : p.offset ≤ q.offset := hcov.2.1
        omega
    · have hmem := List.mem_append_left others (List.mem_map_of_mem (f := Block.outer 4) hc)
      exact (h.sized c (List.mem_cons_of_mem _ hc)).of_kept hmem hk
        (hpend.inside hA (List.mem_cons_of_mem _ hmem)).2 (hp'.inside hA (List.mem_cons_of_mem _ hmem)).2
  · rw [List.map_append]
    refine List.append_subset.2 ⟨fun c hc => ?_, List.subset_append_right _ _⟩
    exact List.mem_append_left _ (List.mem_append_left _ hc)

theorem write_other (h : AffInv inv ex w live (b :: others))
    {bs : List Byte} (hw : Block.Within p bs.length b) :
    ∃ m', w.2.2.store p bs = .ok m' ∧ AffInv inv ex (w.1, w.2.1, m') live (b :: others) ∧
      Kept (live.map (Block.outer 4) ++ others) w.2.2 m' := by
  obtain ⟨m', e, hp', hk⟩ := (h.pending.perm hA List.perm_middle).store hA p bs hw
  refine ⟨m', e, h.beside hA (hp'.perm hA List.perm_middle.symm) (hk.mono (List.subset_append_left _ _)),
    hk.mono ?_⟩
  rw [List.map_append]
  refine List.append_subset.2 ⟨fun c hc => ?_, List.subset_append_right _ _⟩
  exact List.mem_append_left _ (List.mem_append_left _ hc)

theorem malloc_other (h : AffInv inv ex w live others) {n : Nat}
    (hn : 0 < n ∧ n ≤ limit) : Ends short (base.malloc [n] w.2) fun r => ∃ b : Block,
      r.1 = [some b.ptr] ∧ b.size = n ∧ AffInv inv ex (w.1, r.2) live (b :: others) ∧
      Kept (live.map (Block.outer 4) ++ others) w.2.2 r.2.2 := by
  obtain ⟨pend, hptr, hle, hi⟩ := h.pending
  refine (hA.malloc [n] hi fun k hk => List.mem_singleton.1 hk ▸ hn).mono fun r hr => ?_
  obtain ⟨bs, hres, hbs, hi', hk⟩ := hr
  obtain ⟨b, rfl⟩ : ∃ b, bs = [b] := List.length_eq_one_iff.1 (by simpa using congrArg List.length hbs)
  refine ⟨b, hres, (List.cons.inj hbs).1, h.beside hA ⟨pend, hptr, hle, hA.perm hi' ?_⟩
    (hk.mono fun c hc => List.mem_append_right _ (List.mem_append_left _ hc)), hk.mono ?_⟩
  · refine List.perm_iff_count.2 fun c => ?_
    simp only [List.count_append, List.count_cons, List.count_nil]
    omega
  · rw [List.map_append]
    refine List.append_subset.2 ⟨fun c hc => ?_, fun c hc => ?_⟩
    · exact List.mem_append_right _ (List.mem_append_left _ (List.mem_append_left _ hc))
    · exact List.mem_append_right _ (List.mem_append_right _ hc)

theorem free_other (h : AffInv inv ex w live (b :: others)) :
    ∃ s, base.free [some b.ptr] w.2 = .ok s ∧ AffInv inv ex (w.1, s) live others ∧
      Kept (live.map (Block.outer 4) ++ others) w.2.2 s.2 := by
  obtain ⟨pend, hptr, hle, hi⟩ := h.pending
  have hi' : inv w.2.1 w.2.2 ([b] ++ (pend ++ ((live ++ cachedBlocks w.1).map (Block.outer 4) ++ others))) := by
    refine hA.perm hi (List.perm_iff_count.2 fun c => ?_)
    simp only [List.count_append, List.count_cons, List.count_nil]
    omega
  obtain ⟨s', m', e, hi2, hk⟩ := hA.free [b] hi'
  refine ⟨(s', m'), e, h.beside hA ⟨pend, hptr, hle, hi2⟩
    (hk.mono fun c hc => List.mem_append_right _ (List.mem_append_left _ hc)), hk.mono ?_⟩
  rw [List.map_append]
  refine List.append_subset.2 ⟨fun c hc => ?_, fun c hc => ?_⟩
  · exact List.mem_append_right _ (List.mem_append_left _ (List.mem_append_left _ hc))
  · exact List.mem_append_right _ (List.mem_append_right _ hc)

end AffInv

end AffinedAllocator

end AllocationBase.GlobalAllocator
