import Mathlib.Data.List.Pairwise
import NeuralNetwork.MemoryManagement.Proof.ScopeAllocator

/-!
# The cache of an exact reuse allocator

A `ScopeExactReuseAllocator` owes to its caller the blocks of the open scopes, and its arena holds the cached
blocks and the storage of the vectors they are in (`ReuseInv`). The size of a block stands before it
(`Tagged`).
-/

namespace ConventionalAllocator

open Cpp Region Command HashTable
open State (giveBack lend)

variable {answers : Answers} {m m' : Memory} {b : Block}

/-! ## Headers -/

structure Tagged (m : Memory) (b : Block) : Prop where
  offset : 8 ≤ b.ptr.offset
  pos : 0 < b.size
  lt : b.size < 2 ^ 64
  header : m.load (b.outer 8).ptr 8 = .ok (LittleEndian.bytes 8 b.size)

theorem outer_covers {n : Nat} {q : Ptr} (h : Block.Covers ⟨(b.outer n).ptr, n⟩ q) :
    (b.outer n).Covers q := by
  obtain ⟨h1, h2, h3⟩ := h
  refine ⟨h1, h2, ?_⟩
  rw [Block.outer_size]
  dsimp only at h3
  omega

theorem Tagged.frame (h : Tagged m b) (hs : m.sizes <+: m'.sizes)
    (hb : ∀ q, Block.Covers ⟨(b.outer 8).ptr, 8⟩ q → m'.bytes q = m.bytes q) : Tagged m' b :=
  ⟨h.offset, h.pos, h.lt, Memory.load_of_grow h.header hs hb⟩

theorem Tagged.grew (h : Tagged m b) (hg : m.Grew m') : Tagged m' b :=
  h.frame hg.sizes fun q _ => congrFun hg.bytes q

theorem Tagged.disjoint {c : Block} (h : Tagged m b) (hs : m.sizes <+: m'.sizes)
    (hb : ∀ q, ¬ c.Covers q → m'.bytes q = m.bytes q) (hd : Block.Disjoint (b.outer 8) c) : Tagged m' b :=
  h.frame hs fun q hq => hb q (hd q (outer_covers hq))

/-! ## The invariant -/

def cachedBlocks (map : List (Nat × PointerVec)) : List Block :=
  map.flatMap fun e => e.2.elems.map fun p => ⟨p, e.1⟩

def storages (map : List (Nat × PointerVec)) : List Block := map.flatMap (·.2.storage.toList)

def heldOf (e : Nat × PointerVec) : List Block :=
  (e.2.elems.map fun p => Block.outer 8 ⟨p, e.1⟩) ++ e.2.storage.toList

def heldBy (map : List (Nat × PointerVec)) : List Block := map.flatMap heldOf

theorem heldBy_perm (map : List (Nat × PointerVec)) :
    (heldBy map).Perm ((cachedBlocks map).map (Block.outer 8) ++ storages map) := by
  refine (List.flatMap_append_perm map _ _).symm.trans ?_
  rw [cachedBlocks, List.map_flatMap]
  simp only [List.map_map]
  rfl

variable {E : Thrown → ReuseWorld → Prop} {scopes : List Scope}

theorem Lends.apart {extra : List Block} {map : List (Nat × PointerVec)} {a : ScopeAllocator}
    (h : Lends 8 (extra ++ heldBy map) a m scopes) :
    ∀ b ∈ liveOf scopes ++ cachedBlocks map, ∀ c ∈ extra ++ storages map,
      Block.Disjoint (b.outer 8) c := by
  intro b hb c hc
  have hperm : (Lends.owned 8 (extra ++ heldBy map) scopes).Perm
      ((liveOf scopes ++ cachedBlocks map).map (Block.outer 8) ++ (extra ++ storages map)) := by
    have hheld := heldBy_perm map
    rw [Lends.owned, List.map_append]
    refine List.perm_iff_count.2 fun d => ?_
    have := hheld.count_eq d
    simp only [List.count_append] at this ⊢
    omega
  have hpair := (hperm.pairwise_iff fun hxy => hxy.symm).1 h.disjoint
  exact (List.pairwise_append.1 hpair).2.2 _ (List.mem_map_of_mem hb) _ hc

abbrev ReuseWorld : Type := World ScopeExactReuseAllocator

def withReuse (w : ReuseWorld) (a : ExactReuseAllocator) : ReuseWorld :=
  { w with obj := { w.obj with reuseAllocator := a } }

def mapOf (w : ReuseWorld) : List (Nat × PointerVec) := w.obj.reuseAllocator.reuseMap

/-- The scopes have their blocks, the map has its own, and `extra` is held besides. -/
structure ReuseInv (extra : List Block) (w : ReuseWorld) (scopes : List Scope) : Prop where
  lends : Lends 8 (extra ++ heldBy (mapOf w)) w.obj.scopeAllocator w.mem scopes
  tagged : ∀ b ∈ liveOf scopes ++ cachedBlocks (mapOf w), Tagged w.mem b
  storage : ∀ e ∈ mapOf w, 0 < e.2.capacity → ∃ c, e.2.storage = some c

namespace ReuseInv

variable {extra extra' : List Block} {w w' : ReuseWorld} {scopes : List Scope} {scope : Scope} {sz : Nat}

theorem weaken (h : ReuseInv extra w scopes) (hs : extra'.Subperm extra) : ReuseInv extra' w scopes :=
  ⟨h.lends.weaken ((List.subperm_append_right _).2 hs), h.tagged, h.storage⟩

theorem grew (h : ReuseInv extra w scopes) {scopes' : List Scope} {a : ScopeAllocator}
    (hlends : Lends 8 (extra' ++ heldBy (mapOf w)) a m' scopes') (hg : w.mem.Grew m')
    (hlive : liveOf scopes' ⊆ liveOf scopes) :
    ReuseInv extra' ⟨{ w.obj with scopeAllocator := a }, m'⟩ scopes' := by
  refine ⟨hlends, fun b hb => (h.tagged b ?_).grew hg, h.storage⟩
  rcases List.mem_append.1 hb with hb | hb
  · exact List.mem_append_left _ (hlive hb)
  · exact List.mem_append_right _ hb

theorem setEntry_subperm {map : List (Nat × PointerVec)} {vec vec' : PointerVec} {added : List Block}
    (hget : map.lookup sz = some vec) (hsub : (heldOf (sz, vec')).Subperm (added ++ heldOf (sz, vec))) :
    (heldBy (alter (fun _ => vec') sz map)).Subperm (added ++ heldBy map) := by
  have hperm := flatMap_alter (fun _ => vec') sz map heldOf
  rw [hget, Option.map_some, Option.getD_some] at hperm
  refine (List.subperm_append_right (heldOf (sz, vec))).1 (hperm.subperm.trans ?_)
  refine ((List.subperm_append_left _).2 hsub).trans (List.Perm.subperm ?_)
  refine List.perm_iff_count.2 fun d => ?_
  simp only [List.count_append, heldBy]
  omega

end ReuseInv

/-! ## malloc -/

theorem wp_get {Q : ExactReuseAllocator → ReuseWorld → Prop} {w : ReuseWorld} :
    wp ExactReuseAllocator.get Q E w ↔ Q w.obj.reuseAllocator w := Iff.rfl

theorem wp_set {Q : Unit → ReuseWorld → Prop} {w : ReuseWorld} {a : ExactReuseAllocator} :
    wp (ExactReuseAllocator.set a) Q E w ↔ Q () (withReuse w a) := Iff.rfl

def Untouched (scopes : List Scope) (m m' : Memory) : Prop :=
  ∀ b ∈ liveOf scopes, ∀ q, b.Covers q → m'.bytes q = m.bytes q

theorem Untouched.of_grew (h : m.Grew m') : Untouched scopes m m' :=
  fun _ _ q _ => congrFun h.bytes q

namespace ReuseInv

variable {extra extra' : List Block} {w w' : ReuseWorld} {scopes : List Scope} {scope : Scope} {sz : Nat}

theorem pop {vec : PointerVec} {rs : Ptr} (h : ReuseInv [] w (scope :: scopes))
    (hget : (mapOf w).lookup sz = some vec) (hlast : vec.elems.getLast? = some rs) :
    ReuseInv [] (withReuse w (w.obj.reuseAllocator.setEntry sz { vec with elems := vec.elems.dropLast }))
      (lend ⟨rs, sz⟩ (scope :: scopes)) := by
  have helems : vec.elems.dropLast ++ [rs] = vec.elems := List.dropLast_append_getLast? _ hlast
  have hentry := mem_of_lookup hget
  have hcached : ∀ p ∈ vec.elems, (⟨p, sz⟩ : Block) ∈ cachedBlocks (mapOf w) := fun p hp =>
    List.mem_flatMap.2 ⟨_, hentry, List.mem_map_of_mem hp⟩
  have hrs : Tagged w.mem ⟨rs, sz⟩ :=
    h.tagged _ (List.mem_append_right _ (hcached rs (List.mem_of_getLast? hlast)))
  have hperm : (heldBy (mapOf w)).Perm (Block.outer 8 ⟨rs, sz⟩ ::
      heldBy (alter (fun _ => { vec with elems := vec.elems.dropLast }) sz (mapOf w))) := by
    have hflat := flatMap_alter (fun _ => { vec with elems := vec.elems.dropLast }) sz (mapOf w) heldOf
    rw [hget, Option.map_some, Option.getD_some] at hflat
    have hof : (heldOf (sz, vec)).Perm (Block.outer 8 ⟨rs, sz⟩ ::
        heldOf (sz, { vec with elems := vec.elems.dropLast })) := by
      unfold heldOf
      rw [← helems, List.map_append, List.append_assoc]
      simp only [List.dropLast_concat]
      exact List.perm_middle
    refine (List.perm_append_right_iff (heldOf (sz, { vec with elems := vec.elems.dropLast }))).1 ?_
    refine hflat.symm.trans ((hof.append_left _).trans ?_)
    exact List.perm_middle
  refine ⟨h.lends.lend hperm ⟨hrs.offset, hrs.pos⟩, fun b hb => ?_, ?_⟩
  · rcases List.mem_append.1 hb with hb | hb
    · rcases List.mem_cons.1 hb with rfl | hb
      · exact hrs
      · exact h.tagged b (List.mem_append_left _ hb)
    · refine h.tagged b (List.mem_append_right _ ?_)
      obtain ⟨e, he, hbe⟩ := List.mem_flatMap.1 hb
      rcases mem_alter he with he | rfl
      · exact List.mem_flatMap.2 ⟨e, he, hbe⟩
      · obtain ⟨p, hp, rfl⟩ := List.mem_map.1 hbe
        exact hcached p (List.dropLast_subset _ hp)
  · intro e he
    rcases mem_alter he with he | rfl
    · exact h.storage e he
    · exact h.storage (sz, vec) hentry

/-- `malloc` hands out a cached block of the size, or carves one and writes the size before it. -/
theorem malloc (h : ReuseInv [] w (scope :: scopes)) (hsz : sz + 8 < 2 ^ 64) :
    wp (ExactReuseAllocator.malloc answers sz)
      (fun rs w' => (rs = none ∧ ReuseInv [] w' (scope :: scopes) ∨
        ∃ p, rs = some p ∧ ReuseInv [] w' (lend ⟨p, sz⟩ (scope :: scopes))) ∧
        Untouched (scope :: scopes) w.mem w'.mem)
      (fun _ w' => ReuseInv [] w' (scope :: scopes) ∧ Untouched (scope :: scopes) w.mem w'.mem) w := by
  unfold ExactReuseAllocator.malloc
  by_cases h0 : sz = 0
  · rw [if_pos h0]
    exact ⟨.inl ⟨rfl, h⟩, .of_grew .rfl⟩
  rw [if_neg h0, wp_bind, wp_get]
  cases hfound : ((w.obj.reuseAllocator.reuseMap.lookup sz).bind fun vec =>
    vec.elems.getLast?.map fun rs => (vec, rs)) with
  | some found =>
    obtain ⟨vec, hget, hpair⟩ := Option.bind_eq_some_iff.1 hfound
    obtain ⟨rs, hlast, rfl⟩ := Option.map_eq_some_iff.1 hpair
    rw [wp_bind, wp_set, wp_pure]
    exact ⟨.inr ⟨rs, rfl, h.pop hget hlast⟩, .of_grew .rfl⟩
  | none =>
    rw [sizeT_of_lt hsz, wp_bind, scopeCall, wp_zoom]
    refine (h.lends.malloc (sz + 8)).mono ?_ ?_
    · rintro rs w1 ⟨c, rfl, hsize, hlends, hgrew⟩
      have hin : w1.mem.Inside c.ptr (LittleEndian.bytes 8 sz).length := by
        refine (hlends.inside (List.mem_append_right _ List.mem_cons_self)).mono ?_
        rw [LittleEndian.length_bytes, hsize]
        omega
      obtain ⟨m2, hstore⟩ := Memory.store_ok _ hin
      have hsizes : w1.mem.sizes <+: m2.sizes := (Memory.sizes_store hstore) ▸ List.prefix_rfl
      have hbytes : ∀ q, ¬ c.Covers q → m2.bytes q = w1.mem.bytes q := by
        intro q hq
        rw [Memory.bytes_store hstore]
        refine fun hq' => hq ⟨hq'.1, hq'.2.1, hq'.2.2.trans_le ?_⟩
        rw [LittleEndian.length_bytes, hsize]
        exact Nat.add_le_add_left (Nat.le_add_left _ _) _
      have hlends1 : Lends 8 ([c] ++ heldBy (mapOf w)) w1.obj w1.mem (scope :: scopes) := hlends
      have hinv := h.grew hlends1 hgrew (List.Subset.refl _)
      have hapart : ∀ b ∈ liveOf (scope :: scopes) ++ cachedBlocks (mapOf w), Block.Disjoint (b.outer 8) c :=
        fun b hb => hinv.lends.apart b hb c List.mem_cons_self
      have hinner : c.inner 8 = ⟨c.ptr.next 8, sz⟩ := by
        rw [Block.inner, hsize, Nat.add_sub_cancel]
      have houter : Block.outer 8 ⟨c.ptr.next 8, sz⟩ = c := by
        rw [← hinner, Block.outer_inner (by omega)]
      have hnew : Tagged m2 ⟨c.ptr.next 8, sz⟩ := by
        refine ⟨Nat.le_add_left _ _, Nat.pos_of_ne_zero h0, (Nat.le_add_right _ 8).trans_lt hsz, ?_⟩
        rw [houter]
        exact Memory.load_store hstore
      rw [wp_bind, wp_getState, wp_bind]
      refine wp_lift hstore ?_
      rw [wp_bind, wp_setState, wp_pure]
      refine ⟨.inr ⟨_, rfl, ?_, fun b hb => ?_, h.storage⟩, fun b hb q hq => ?_⟩
      · refine (hlends.setMem hsizes).lend ?_ ⟨hnew.offset, hnew.pos⟩
        rw [houter]
        exact .refl _
      · rcases List.mem_append.1 hb with hb | hb
        · rcases List.mem_cons.1 hb with rfl | hb
          · exact hnew
          · have hmem := List.mem_append_left (cachedBlocks (mapOf w)) hb
            exact (hinv.tagged b hmem).disjoint hsizes hbytes (hapart b hmem)
        · have hmem := List.mem_append_right (liveOf (scope :: scopes)) hb
          exact (hinv.tagged b hmem).disjoint hsizes hbytes (hapart b hmem)
      · have hmem := List.mem_append_left (cachedBlocks (mapOf w)) hb
        exact (hbytes q (hapart b hmem q (hq.outer 8))).trans (congrFun hgrew.bytes q)
    · rintro e w1 ⟨hlends, hgrew⟩
      exact ⟨h.grew hlends hgrew (List.Subset.refl _), .of_grew hgrew⟩

theorem malloc_nil (h : ReuseInv [] w []) (sz : Nat) :
    wp (ExactReuseAllocator.malloc answers sz) (fun rs w' => rs = none ∧ ReuseInv [] w' [])
      (fun _ w' => ReuseInv [] w' []) w := by
  have hnone : (w.obj.reuseAllocator.reuseMap.lookup sz).bind
      (fun vec => vec.elems.getLast?.map fun rs => (vec, rs)) = none := by
    by_contra hne
    obtain ⟨found, hfound⟩ := Option.ne_none_iff_exists'.1 hne
    obtain ⟨vec, hget, hpair⟩ := Option.bind_eq_some_iff.1 hfound
    obtain ⟨rs, hlast, rfl⟩ := Option.map_eq_some_iff.1 hpair
    have hmem : Block.outer 8 ⟨rs, sz⟩ ∈ heldBy (mapOf w) := List.mem_flatMap.2
      ⟨(sz, vec), mem_of_lookup hget,
        List.mem_append_left _ (List.mem_map.2 ⟨rs, List.mem_of_getLast? hlast, rfl⟩)⟩
    rw [show heldBy (mapOf w) = [] from h.lends.held_nil] at hmem
    cases hmem
  unfold ExactReuseAllocator.malloc
  by_cases h0 : sz = 0
  · rw [if_pos h0]
    exact ⟨rfl, h⟩
  rw [if_neg h0, wp_bind, wp_get, hnone]
  rw [wp_bind, scopeCall, wp_zoom]
  refine (h.lends.malloc_nil _).mono (fun _ _ hq => hq.elim) ?_
  rintro e w1 rfl
  exact h

end ReuseInv

/-! ## Vectors -/

namespace Lends

variable {n : Nat} {held : List Block} {w : World ScopeAllocator} {scopes : List Scope} {scope : Scope}
  {vec : PointerVec} {buf : Ptr}

theorem objectMalloc {objectCount : Nat} (h : Lends n held w.obj w.mem (scope :: scopes))
    (hpos : 0 < objectCount) :
    wp (PointerVec.objectMalloc answers objectCount)
      (fun rs w' => ∃ c, rs = some c ∧ Lends n (c :: held) w'.obj w'.mem (scope :: scopes) ∧
        w.mem.Grew w'.mem)
      (fun _ w' => Lends n held w'.obj w'.mem (scope :: scopes) ∧ w.mem.Grew w'.mem) w := by
  unfold PointerVec.objectMalloc
  rw [if_neg (by omega)]
  rw [wp_bind]
  refine (h.malloc _).mono ?_ (fun _ _ he => he)
  rintro rs w' ⟨c, rfl, hsize, hlends, hgrew⟩
  refine ⟨c, ?_, hlends, hgrew⟩
  rw [← hsize]

theorem pushBack (h : Lends n held w.obj w.mem (scope :: scopes)) (hheld : ∀ c, vec.storage = some c → c ∈ held)
    (hcap : 0 < vec.capacity → ∃ c, vec.storage = some c) :
    wp (PointerVec.pushBack answers vec buf)
      (fun vec' w' => ∃ added c, vec'.elems = vec.elems ++ [buf] ∧ vec'.storage = some c ∧
        (added = [] ∧ vec.storage = some c ∨ added = [c]) ∧
        Lends n (added ++ held) w'.obj w'.mem (scope :: scopes) ∧ w.mem.sizes <+: w'.mem.sizes ∧
        ∀ q, ¬ c.Covers q → w'.mem.bytes q = w.mem.bytes q)
      (fun _ w' => Lends n held w'.obj w'.mem (scope :: scopes) ∧ w.mem.Grew w'.mem) w := by
  -- what the vector does once it has its storage
  have hwrite (vec' : PointerVec) (c : Block) (added : List Block) (w1 : World ScopeAllocator)
      (helems : vec'.elems = vec.elems) (hstorage : vec'.storage = some c)
      (hadded : added = [] ∧ vec.storage = some c ∨ added = [c])
      (h1 : Lends n (added ++ held) w1.obj w1.mem (scope :: scopes)) (hgrew : w.mem.Grew w1.mem) :
      wp (do
          PointerVec.writeStorage answers vec'
          pure { vec' with elems := vec'.elems ++ [buf] })
        (fun vec' w' => ∃ added c, vec'.elems = vec.elems ++ [buf] ∧ vec'.storage = some c ∧
          (added = [] ∧ vec.storage = some c ∨ added = [c]) ∧
          Lends n (added ++ held) w'.obj w'.mem (scope :: scopes) ∧ w.mem.sizes <+: w'.mem.sizes ∧
          ∀ q, ¬ c.Covers q → w'.mem.bytes q = w.mem.bytes q)
        (fun _ w' => Lends n held w'.obj w'.mem (scope :: scopes) ∧ w.mem.Grew w'.mem) w1 := by
    have hmem : c ∈ owned n (added ++ held) (scope :: scopes) := by
      refine List.mem_append_right _ (List.mem_append.2 ?_)
      rcases hadded with ⟨-, hc⟩ | rfl
      · exact .inr (hheld c hc)
      · exact .inl (List.mem_singleton_self c)
    have hlen : (answers.storage.take c.size).length ≤ c.size := List.length_take_le _ _
    obtain ⟨m2, hstore⟩ := Memory.store_ok (answers.storage.take c.size) ((h1.inside hmem).mono hlen)
    have hsizes : w1.mem.sizes <+: m2.sizes := (Memory.sizes_store hstore) ▸ List.prefix_rfl
    unfold PointerVec.writeStorage
    rw [hstorage, wp_bind]
    rw [wp_bind, wp_getState, wp_bind]
    refine wp_lift hstore ?_
    rw [wp_setState, wp_pure]
    refine ⟨added, c, by rw [helems], rfl, hadded, h1.setMem hsizes, hgrew.sizes.trans hsizes, ?_⟩
    intro q hq
    rw [← hgrew.bytes]
    exact Memory.bytes_store hstore fun hq' => hq ⟨hq'.1, hq'.2.1,
      hq'.2.2.trans_le (Nat.add_le_add_left hlen _)⟩
  unfold PointerVec.pushBack
  rw [wp_bind]
  by_cases hroom : vec.elems.length < vec.capacity
  · rw [if_pos hroom, wp_pure]
    obtain ⟨c, hc⟩ := hcap (Nat.zero_lt_of_lt hroom)
    exact hwrite vec c [] w rfl hc (.inl ⟨rfl, hc⟩) h .rfl
  · rw [if_neg hroom]
    unfold PointerVec.grow
    by_cases hmax : vec.elems.length = PointerVec.maxSize
    · rw [if_pos hmax]
      exact ⟨h, .rfl⟩
    · rw [if_neg hmax]
      rw [wp_bind]
      have hpos : 0 < min (max (vec.elems.length + 1) answers.growth) PointerVec.maxSize :=
        lt_min (by omega) (by decide)
      refine (h.objectMalloc hpos).mono ?_ (fun _ _ he => he)
      rintro rs w1 ⟨c, rfl, h1, hgrew⟩
      exact hwrite _ c [c] w1 rfl rfl (.inr rfl) h1 hgrew

end Lends

/-! ## free -/

namespace ReuseInv

variable {extra extra' : List Block} {w w' : ReuseWorld} {scopes : List Scope} {scope : Scope} {sz : Nat}

variable {vec : PointerVec}

theorem mem_cached {map : List (Nat × PointerVec)} {p : Ptr} (hget : map.lookup sz = some vec)
    (hp : p ∈ vec.elems) : (⟨p, sz⟩ : Block) ∈ cachedBlocks map :=
  List.mem_flatMap.2 ⟨(sz, vec), mem_of_lookup hget, List.mem_map_of_mem hp⟩

theorem flush (h : ReuseInv extra w scopes) :
    wp ExactReuseAllocator.internalFlush
      (fun _ w' => ReuseInv extra w' scopes ∧ mapOf w' = [] ∧ w'.mem = w.mem ∧
        w'.obj.scopeAllocator = w.obj.scopeAllocator)
      (fun _ _ => False) w := by
  unfold ExactReuseAllocator.internalFlush
  rw [wp_bind, wp_get, wp_bind]
  refine (wp_foldlM (fun _ _ w' => w' = w) rfl ?_).mono ?_ (fun _ _ he => he)
  · rintro done p - w' hpre rfl
    have hp : p ∈ w'.obj.reuseAllocator.reuseMap.flatMap (·.2.elems) :=
      hpre.subset (List.mem_append_right _ (List.mem_singleton_self p))
    obtain ⟨e, he, hp⟩ := List.mem_flatMap.1 hp
    have hmem : (⟨p, e.1⟩ : Block) ∈ cachedBlocks (mapOf w') :=
      List.mem_flatMap.2 ⟨e, he, List.mem_map_of_mem hp⟩
    rw [wp_bind]
    refine wp_lift (Block.prev_ptr (b := ⟨p, e.1⟩) (h.tagged _ (List.mem_append_right _ hmem)).offset) ?_
    rfl
  · rintro - w' rfl
    rw [wp_set]
    refine ⟨⟨?_, fun b hb => h.tagged b ?_, fun e he => nomatch he⟩, rfl, rfl, rfl⟩
    · exact h.lends.weaken ((List.subperm_append_left _).2 List.nil_subperm)
    · rcases List.mem_append.1 hb with hb | hb
      · exact List.mem_append_left _ hb
      · nomatch hb

theorem setEntry_empty (h : ReuseInv extra w scopes) (hnone : (mapOf w).lookup sz = none) :
    ReuseInv extra (withReuse w (w.obj.reuseAllocator.setEntry sz ⟨none, 0, []⟩)) scopes := by
  have hperm := flatMap_alter (fun _ => (⟨none, 0, []⟩ : PointerVec)) sz (mapOf w) heldOf
  rw [hnone, Option.map_none, Option.getD_none, List.append_nil] at hperm
  change (heldBy (alter (fun _ => _) sz (mapOf w))).Perm (heldBy (mapOf w) ++ []) at hperm
  rw [List.append_nil] at hperm
  refine ⟨h.lends.weaken (hperm.append_left _).subperm, fun b hb => h.tagged b ?_, fun e he => ?_⟩
  · rcases List.mem_append.1 hb with hb | hb
    · exact List.mem_append_left _ hb
    · obtain ⟨e, he, hbe⟩ := List.mem_flatMap.1 hb
      rcases mem_alter he with he | rfl
      · exact List.mem_append_right _ (List.mem_flatMap.2 ⟨e, he, hbe⟩)
      · nomatch hbe
  · rcases mem_alter he with he | rfl
    · exact h.storage e he
    · exact fun hlt => absurd hlt (Nat.lt_irrefl 0)

theorem addEntry (h : ReuseInv extra w scopes) (hnone : (mapOf w).lookup sz = none) :
    wp (ExactReuseAllocator.addEntry answers sz)
      (fun rs w' => ReuseInv extra w' scopes ∧ w'.mem = w.mem ∧
        (rs = true → ∃ vec, (mapOf w').lookup sz = some vec))
      (fun _ _ => False) w := by
  -- the entry is added to a map without one
  have hadd (w1 : ReuseWorld) (h1 : ReuseInv extra w1 scopes) (hnone1 : (mapOf w1).lookup sz = none)
      (hmem : w1.mem = w.mem) :
      wp (if answers.entryRoom then do
          let a ← ExactReuseAllocator.get
          ExactReuseAllocator.set (a.setEntry sz ⟨none, 0, []⟩)
          pure true
        else pure false)
        (fun rs w' => ReuseInv extra w' scopes ∧ w'.mem = w.mem ∧
          (rs = true → ∃ vec, (mapOf w').lookup sz = some vec))
        (fun _ _ => False) w1 := by
    by_cases hroom : answers.entryRoom = true
    · rw [if_pos hroom, wp_bind, wp_get, wp_bind, wp_set, wp_pure]
      refine ⟨h1.setEntry_empty hnone1, hmem, fun _ => ⟨⟨none, 0, []⟩, ?_⟩⟩
      exact lookup_alter.trans (if_pos rfl)
    · rw [if_neg hroom]
      exact ⟨h1, hmem, fun he => nomatch he⟩
  unfold ExactReuseAllocator.addEntry
  rw [wp_bind, wp_get]
  by_cases hfull : w.obj.reuseAllocator.reuseMap.length = w.obj.reuseAllocator.reuseMapGlobalCap
  · rw [if_pos hfull, wp_bind]
    refine h.flush.mono ?_ (fun _ _ he => he)
    rintro - w1 ⟨h1, hmap, hmem, -⟩
    exact hadd w1 h1 (by rw [hmap]; rfl) hmem
  · rw [if_neg hfull]
    exact hadd w h hnone rfl

theorem pushEntry (h : ReuseInv [b.outer 8] w (scope :: scopes)) (hb : Tagged w.mem b)
    (hget : (mapOf w).lookup b.size = some vec) :
    wp (ExactReuseAllocator.pushEntry answers b.size b.ptr)
      (fun _ w' => ReuseInv [] w' (scope :: scopes) ∧ Untouched (scope :: scopes) w.mem w'.mem)
      (fun _ w' => ReuseInv [] w' (scope :: scopes) ∧ Untouched (scope :: scopes) w.mem w'.mem) w := by
  have hentry := mem_of_lookup hget
  have hheld : ∀ c, vec.storage = some c → c ∈ [b.outer 8] ++ heldBy (mapOf w) := fun c hc =>
    List.mem_append_right _ (List.mem_flatMap.2 ⟨_, hentry, List.mem_append_right _ (by
      rw [hc]
      exact List.mem_singleton_self c)⟩)
  unfold ExactReuseAllocator.pushEntry
  rw [wp_bind, wp_get, show w.obj.reuseAllocator.reuseMap.lookup b.size = some vec from hget]
  rw [wp_bind, scopeCall, wp_zoom]
  refine (h.lends.pushBack hheld (h.storage _ hentry)).mono ?_ ?_
  · rintro vec' w1 ⟨added, c, helems, hstorage, hadded, hlends, hsizes, hbytes⟩
    rw [wp_bind, wp_get, wp_set]
    have hof : (heldOf (b.size, vec')).Subperm ((added ++ [b.outer 8]) ++ heldOf (b.size, vec)) := by
      have houter : ([b.ptr].map fun p => Block.outer 8 ⟨p, b.size⟩) = [b.outer 8] := rfl
      unfold heldOf
      rw [helems, hstorage, List.map_append, houter]
      rcases hadded with ⟨rfl, hc⟩ | rfl
      · rw [hc]
        refine List.Perm.subperm (List.perm_iff_count.2 fun d => ?_)
        simp only [List.count_append, List.count_nil]
        omega
      · refine (List.sublist_append_left _ vec.storage.toList).subperm.trans ?_
        refine List.Perm.subperm (List.perm_iff_count.2 fun d => ?_)
        simp only [List.count_append, Option.toList_some]
        omega
    have hlends' : Lends 8 ([] ++ heldBy (alter (fun _ => vec') b.size (mapOf w))) w1.obj w1.mem
        (scope :: scopes) := by
      refine hlends.weaken ((setEntry_subperm hget hof).trans ?_)
      rw [List.append_assoc]
    have hstore : ∀ e ∈ alter (fun _ => vec') b.size (mapOf w), 0 < e.2.capacity →
        ∃ c, e.2.storage = some c := by
      intro e he
      rcases mem_alter he with he | rfl
      · exact h.storage e he
      · exact fun _ => ⟨c, hstorage⟩
    have hc : c ∈ storages (alter (fun _ => vec') b.size (mapOf w)) := by
      have hnew := mem_of_lookup (lookup_alter.trans (if_pos rfl) :
        (alter (fun _ => vec') b.size (mapOf w)).lookup b.size = some vec')
      refine List.mem_flatMap.2 ⟨_, hnew, ?_⟩
      rw [hstorage]
      exact List.mem_singleton_self c
    have hold : ∀ d ∈ liveOf (scope :: scopes) ++ cachedBlocks (alter (fun _ => vec') b.size (mapOf w)),
        Tagged w.mem d := by
      intro d hd
      rcases List.mem_append.1 hd with hd | hd
      · exact h.tagged d (List.mem_append_left _ hd)
      · obtain ⟨e, he, hde⟩ := List.mem_flatMap.1 hd
        rcases mem_alter he with he | rfl
        · exact h.tagged d (List.mem_append_right _ (List.mem_flatMap.2 ⟨e, he, hde⟩))
        · obtain ⟨p, hp, rfl⟩ := List.mem_map.1 hde
          rw [helems] at hp
          rcases List.mem_append.1 hp with hp | hp
          · exact h.tagged _ (List.mem_append_right _ (mem_cached hget hp))
          · rw [List.mem_singleton.1 hp]
            exact hb
    refine ⟨⟨hlends', fun d hd => ?_, hstore⟩, fun d hd q hq => ?_⟩
    · exact (hold d hd).disjoint hsizes hbytes (hlends'.apart d hd c hc)
    · exact hbytes q (hlends'.apart d (List.mem_append_left _ hd) c hc q (hq.outer 8))
  · rintro e w1 ⟨hlends, hgrew⟩
    exact ⟨h.grew (hlends.weaken (List.subperm_append_right _ |>.2 List.nil_subperm)) hgrew
      (List.Subset.refl _), .of_grew hgrew⟩

/-- `free` gives a block back, which goes to the cache or is lost until its scope is closed. -/
theorem free (h : ReuseInv [] w (scope :: scopes)) (hb : b ∈ liveOf (scope :: scopes)) :
    wp (ExactReuseAllocator.free answers (some b.ptr))
      (fun _ w' => ReuseInv [] w' (giveBack b.ptr (scope :: scopes)) ∧
        Untouched (giveBack b.ptr (scope :: scopes)) w.mem w'.mem)
      (fun _ _ => False) w := by
  have htag := h.tagged b (List.mem_append_left _ hb)
  have h0 : ReuseInv [b.outer 8] w (giveBack b.ptr (scope :: scopes)) := by
    refine ⟨h.lends.giveBack hb, fun d hd => h.tagged d ?_, h.storage⟩
    rw [Lends.liveOf_giveBack] at hd
    rcases List.mem_append.1 hd with hd | hd
    · exact List.mem_append_left _ (List.mem_filter.1 hd).1
    · exact List.mem_append_right _ hd
  have hvalue : LittleEndian.value (LittleEndian.bytes 8 b.size) = b.size := by
    rw [LittleEndian.value_bytes]
    exact Nat.mod_eq_of_lt (htag.lt.trans_eq (by decide))
  -- what is left to do once the cache is not full
  have hrest (w1 : ReuseWorld) (h1 : ReuseInv [b.outer 8] w1 (giveBack b.ptr (scope :: scopes)))
      (hmem : w1.mem = w.mem) :
      wp (do
          let a ← ExactReuseAllocator.get
          let found ← (if (a.reuseMap.lookup b.size).isNone then
              ExactReuseAllocator.addEntry answers b.size else pure true)
          if found then
            tryCatch (ExactReuseAllocator.pushEntry answers b.size b.ptr)
              fun _ => ScopeAllocator.free (some (b.outer 8).ptr)
          else
            ScopeAllocator.free (some (b.outer 8).ptr))
        (fun _ w' => ReuseInv [] w' (giveBack b.ptr (scope :: scopes)) ∧
          Untouched (giveBack b.ptr (scope :: scopes)) w.mem w'.mem)
        (fun _ _ => False) w1 := by
    have hpush (w2 : ReuseWorld) (found : Bool)
        (h2 : ReuseInv [b.outer 8] w2 (giveBack b.ptr (scope :: scopes))) (hmem2 : w2.mem = w.mem)
        (hfound : found = true → ∃ vec, (mapOf w2).lookup b.size = some vec) :
        wp (if found then
            tryCatch (ExactReuseAllocator.pushEntry answers b.size b.ptr)
              fun _ => ScopeAllocator.free (some (b.outer 8).ptr)
          else
            ScopeAllocator.free (some (b.outer 8).ptr))
          (fun _ w' => ReuseInv [] w' (giveBack b.ptr (scope :: scopes)) ∧
            Untouched (giveBack b.ptr (scope :: scopes)) w.mem w'.mem)
          (fun _ _ => False) w2 := by
      cases found with
      | false => exact ⟨h2.weaken List.nil_subperm, .of_grew (hmem2 ▸ .rfl)⟩
      | true =>
        obtain ⟨vec, hget⟩ := hfound rfl
        rw [if_pos rfl, wp_tryCatch, ← hmem2]
        exact (pushEntry h2 (hmem2 ▸ htag) hget).mono (fun _ _ hq => hq) (fun _ _ he => he)
    rw [wp_bind, wp_get, wp_bind]
    cases hget : w1.obj.reuseAllocator.reuseMap.lookup b.size with
    | none =>
      refine (h1.addEntry hget).mono ?_ (fun _ _ he => he)
      rintro found w2 ⟨h2, hmem2, hfound⟩
      exact hpush w2 found h2 (hmem2.trans hmem) hfound
    | some vec => exact hpush w1 true h1 hmem fun _ => ⟨vec, hget⟩
  unfold ExactReuseAllocator.free
  rw [wp_bind]
  refine wp_lift (Block.prev_ptr htag.offset) ?_
  rw [wp_bind, wp_getState, wp_bind]
  refine wp_lift htag.header ?_
  rw [hvalue]
  by_cases hfull : w.obj.reuseAllocator.reuseMapElementalSz = w.obj.reuseAllocator.reuseMapElementalCap
  · rw [if_pos hfull, wp_bind]
    refine h0.flush.mono ?_ (fun _ _ he => he)
    rintro - w1 ⟨h1, -, hmem, -⟩
    exact hrest w1 h1 hmem
  · rw [if_neg hfull]
    exact hrest w h0 rfl

/-! ## Scopes -/

theorem inScope (h : ReuseInv [] w scopes) :
    wp (scopeCall (ScopeAllocator.inScope answers))
      (fun _ w' => ReuseInv [] w' (⟨w.obj.scopeAllocator.currentPoint, []⟩ :: scopes) ∧
        Untouched scopes w.mem w'.mem)
      (fun _ w' => ReuseInv [] w' scopes ∧ Untouched scopes w.mem w'.mem) w := by
  rw [scopeCall, wp_zoom]
  refine h.lends.inScope.mono ?_ ?_
  · rintro - w1 ⟨hlends, hgrew⟩
    exact ⟨h.grew hlends hgrew (List.Subset.refl _), .of_grew hgrew⟩
  · rintro e w1 ⟨hlends, hgrew⟩
    exact ⟨h.grew hlends hgrew (List.Subset.refl _), .of_grew hgrew⟩

theorem outScope (h : ReuseInv [] w (scope :: scopes)) :
    wp ScopeExactReuseAllocator.outScope
      (fun _ w' => ReuseInv [] w' scopes ∧ w'.obj.scopeAllocator.currentPoint = scope.opened ∧
        mapOf w' = [] ∧ w'.mem = w.mem)
      (fun _ _ => False) w := by
  unfold ScopeExactReuseAllocator.outScope
  rw [wp_bind]
  refine h.flush.mono ?_ (fun _ _ he => he)
  rintro - w1 ⟨h1, hmap, hmem, -⟩
  rw [scopeCall, wp_zoom]
  refine h1.lends.outScope.mono ?_ (fun _ _ he => he)
  rintro - w2 ⟨hlends, hpoint, hmem2⟩
  have hgrew : w1.mem.Grew w2.mem := hmem2 ▸ .rfl
  refine ⟨h1.grew ?_ hgrew fun b hb => List.mem_append_right _ hb, hpoint, hmap, hmem2.trans hmem⟩
  rw [hmap]
  exact hlends

theorem write {p : Ptr} (h : ReuseInv [] w scopes) (hb : b ∈ liveOf scopes) (bytes : List Byte)
    (hw : Block.Within p bytes.length b) :
    ∃ m', w.mem.store p bytes = .ok m' ∧ ReuseInv [] { w with mem := m' } scopes := by
  have hoff := (h.tagged b (List.mem_append_left _ hb)).offset
  have hin : w.mem.Inside p bytes.length := by
    refine (h.lends.inside (List.mem_append_left _ (List.mem_map_of_mem hb))).of_offset hw.1 ?_
    have := hw.2.2
    simp only [Block.outer]
    omega
  obtain ⟨m', hstore⟩ := Memory.store_ok bytes hin
  have hsizes : w.mem.sizes <+: m'.sizes := (Memory.sizes_store hstore) ▸ List.prefix_rfl
  refine ⟨m', hstore, h.lends.setMem hsizes, fun d hd => ?_, h.storage⟩
  refine (h.tagged d hd).frame hsizes fun q hq => Memory.bytes_store hstore fun hq' => ?_
  have hbq : b.Covers q := ⟨hq'.1.trans hw.1, hw.2.1.trans hq'.2.1, hq'.2.2.trans_le hw.2.2⟩
  by_cases he : d = b
  · have hbelow := hq.2.2
    simp only [he, Block.outer] at hbelow
    have := hbq.2.1
    omega
  · have hperm := (heldBy_perm (mapOf w)).append_left ((liveOf scopes).map (Block.outer 8))
    have hpair := (hperm.pairwise_iff fun hxy => hxy.symm).1 h.lends.disjoint
    rw [← List.append_assoc, ← List.map_append] at hpair
    have hd' := List.pairwise_map.1 (List.pairwise_append.1 hpair).1
    have hsymm : Std.Symm fun a b => Block.Disjoint (Block.outer 8 a) (Block.outer 8 b) :=
      ⟨fun _ _ hxy => hxy.symm⟩
    exact hd'.forall hd (List.mem_append_left _ hb) he q (outer_covers hq) (hbq.outer 8)

end ReuseInv

end ConventionalAllocator
