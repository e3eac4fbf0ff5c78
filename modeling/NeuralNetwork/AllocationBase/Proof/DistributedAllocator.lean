import NeuralNetwork.AllocationBase.Proof.BinaryUnitAllocator
import NeuralNetwork.Funnel.Proof.Funnel
import NeuralNetwork.Lib.ListUpdate
import NeuralNetwork.Lib.Scatter

/-!
# The distributed allocator

Four units share a memory. `Tagged` says which block is of which unit: the byte before it is the index of
the unit, which owns its region.
**Main result** `lawful`: the distributed allocator is an allocator of batches for sizes up to
`2 ^ 63 - 2`; it aborts only if `std::malloc` refuses a region.
-/

namespace AllocationBase.GlobalAllocator

open Cpp Loop Region ListUpdate

/-- `std::malloc` may refuse. -/
def Env.Short (env : Env) : Prop := ∃ m n, env.stdMalloc m n = false

namespace DistributedAllocator

def unitBlocks (i : Nat) (tagged : List (Nat × Block)) : List Block :=
  (tagged.filter (·.1 = i)).map fun t => t.2.outer 1

/-- The units keep their invariants, each over the blocks with its index, and share no region. -/
structure UnitsInv (d : List BinaryUnitAllocator) (m : Memory) (tagged : List (Nat × Block)) : Prop where
  count : d.length = concurrencySz
  tags : ∀ t ∈ tagged, t.1 < concurrencySz
  apart : ∀ (i j : Nat) (u v : BinaryUnitAllocator), d[i]? = some u → d[j]? = some v →
    ∀ r ∈ u.raiiBufVec, r ∈ v.raiiBufVec → i = j
  units : ∀ i u, d[i]? = some u → UnitInv u m (unitBlocks i tagged)

structure Tagged (d : List BinaryUnitAllocator) (m : Memory) (tagged : List (Nat × Block)) : Prop
    extends UnitsInv d m tagged where
  live : ∀ t ∈ tagged, 0 < t.2.size ∧ t.2.ptr.offset = 2 ∧
    m.load ⟨t.2.ptr.block, 1⟩ 1 = .ok (LittleEndian.bytes 1 t.1)

def DistInv (d : DistributedAllocator) (m : Memory) (live : List Block) : Prop :=
  ∃ tagged, (tagged.map Prod.snd).Perm live ∧ Tagged d.allocatorVec m tagged

variable {d : List BinaryUnitAllocator} {m m' : Memory} {tagged tagged' : List (Nat × Block)} {env : Env}
  {live : List Block}

theorem unitBlocks_append (i : Nat) :
    unitBlocks i (tagged ++ tagged') = unitBlocks i tagged ++ unitBlocks i tagged' := by
  rw [unitBlocks, List.filter_append, List.map_append]
  rfl

theorem unitBlocks_of_tag {i : Nat} (h : ∀ t ∈ tagged, t.1 = i) :
    unitBlocks i tagged = tagged.map fun t => t.2.outer 1 := by
  rw [unitBlocks, List.filter_eq_self.2 fun t ht => by simpa using h t ht]

theorem unitBlocks_of_ne {i : Nat} (tagged : List (Nat × Block)) (h : ∀ t ∈ tagged, t.1 ≠ i) :
    unitBlocks i tagged = [] := by
  rw [unitBlocks, List.filter_eq_nil_iff.2 fun t ht => by simpa using h t ht]
  rfl

theorem exists_perm_map {α β : Type} {f : α → β} {l : List α} {l' : List β} (h : (l.map f).Perm l') :
    ∃ l'' : List α, l''.Perm l ∧ l''.map f = l' := by
  have := congrFun (congrFun (List.eq_map_comp_perm f) l') l
  obtain ⟨l'', h1, h2⟩ : Relation.Comp (· = List.map f ·) (·.Perm ·) l' l := this ▸ h.symm
  exact ⟨l'', h2, h1.symm⟩

/-- A list has no duplicates if no class has, and equal elements are of one class. -/
theorem nodup_map_of_class {α β κ : Type} [DecidableEq κ] (cls : α → κ) (f : α → β) {l : List α}
    (h : ∀ i, ((l.filter (cls · = i)).map f).Nodup)
    (hc : ∀ a ∈ l, ∀ b ∈ l, f a = f b → cls a = cls b) : (l.map f).Nodup := by
  induction l with
  | nil => exact List.nodup_nil
  | cons a l ih =>
    refine List.nodup_cons.2 ⟨fun hmem => ?_, ih (fun i => ?_) fun b hb c hc' => ?_⟩
    · obtain ⟨b, hb, e⟩ := List.mem_map.1 hmem
      have hcls := hc b (List.mem_cons_of_mem _ hb) a List.mem_cons_self e
      have ha := h (cls a)
      rw [List.filter_cons_of_pos (by simp), List.map_cons, List.nodup_cons] at ha
      exact ha.1 (e ▸ List.mem_map_of_mem (List.mem_filter.2 ⟨hb, by simpa using hcls⟩))
    · exact (h i).sublist (((List.sublist_cons_self a l).filter _).map f)
    · exact hc b (List.mem_cons_of_mem _ hb) c (List.mem_cons_of_mem _ hc')

namespace UnitsInv

theorem perm (h : UnitsInv d m tagged) (hp : tagged.Perm tagged') : UnitsInv d m tagged' :=
  ⟨h.count, fun t ht => h.tags t (hp.mem_iff.2 ht), h.apart,
    fun i u hu => (h.units i u hu).perm ((hp.filter _).map _)⟩

theorem exists_unit (h : UnitsInv d m tagged) {i : Nat} (hi : i < concurrencySz) : ∃ u, d[i]? = some u :=
  ⟨_, List.getElem?_eq_getElem (h.count ▸ hi)⟩

variable {t : Nat × Block}

variable (h : UnitsInv d m tagged)

include h

theorem mem_owned (ht : t ∈ tagged) :
    ∃ u, d[t.1]? = some u ∧ t.2.ptr.block ∈ u.raiiBufVec := by
  obtain ⟨u, hu⟩ := h.exists_unit (h.tags t ht)
  refine ⟨u, hu, (h.units _ u hu).mem_owned (b := t.2.outer 1) ?_⟩
  exact List.mem_map_of_mem (List.mem_filter.2 ⟨ht, by simp⟩)

theorem block_lt (ht : t ∈ tagged) :
    t.2.ptr.block < m.sizes.length := by
  obtain ⟨u, hu, hr⟩ := h.mem_owned ht
  exact (h.units _ u hu).owned_lt hr

theorem nodup : (tagged.map (·.2.ptr.block)).Nodup := by
  refine nodup_map_of_class Prod.fst _ (fun i => ?_) fun s hs t ht e => ?_
  · by_cases hi : i < concurrencySz
    · obtain ⟨u, hu⟩ := h.exists_unit hi
      have hi := h.units i u hu
      have := (List.nodup_append.1 (hi.owned.nodup_iff.1 hi.nodup)).1
      rwa [unitBlocks, List.map_map] at this
    · rw [List.filter_eq_nil_iff.2 fun t ht => ?_]
      · exact List.nodup_nil
      · have := h.tags t ht
        simp only [decide_eq_true_eq]
        omega
  · obtain ⟨u, hu, hr⟩ := h.mem_owned hs
    obtain ⟨v, hv, hr'⟩ := h.mem_owned ht
    exact h.apart _ _ u v hu hv _ hr (e ▸ hr')

theorem extend {idx : Nat} {u u' : BinaryUnitAllocator} {bs : List Block}
    (hu : d[idx]? = some u) (hi : UnitInv u' m' (bs ++ unitBlocks idx tagged)) (hg : Grows u u' m m')
    (hbs : ∀ b ∈ bs, 1 ≤ b.size) :
    UnitsInv (d.set idx u') m' (bs.map (fun b => (idx, b.inner 1)) ++ tagged) := by
  have hidx := (List.getElem?_eq_some_iff.1 hu).1
  have hblocks : unitBlocks idx (bs.map fun b => (idx, b.inner 1)) = bs := by
    rw [unitBlocks_of_tag, List.map_map]
    · exact (List.map_congr_left fun b hb => Block.outer_inner (hbs b hb)).trans (List.map_id bs)
    · intro t ht
      obtain ⟨b, -, rfl⟩ := List.mem_map.1 ht
      rfl
  have hsep : ∀ {j : Nat} {v : BinaryUnitAllocator}, d[j]? = some v → ∀ r ∈ u'.raiiBufVec,
      r ∈ v.raiiBufVec → idx = j := by
    intro j v hv r hr hr'
    have hlt := (h.units j v hv).owned_lt hr'
    refine h.apart idx j u v hu hv r ((hg.regions r hr).resolve_right ?_) hr'
    omega
  refine ⟨?_, fun t ht => ?_, fun i j v w hv hw r hr hr' => ?_, fun i v hv => ?_⟩
  · rw [List.length_set]
    exact h.count
  · rcases List.mem_append.1 ht with ht | ht
    · obtain ⟨b, -, rfl⟩ := List.mem_map.1 ht
      exact h.count ▸ hidx
    · exact h.tags t ht
  · rcases cases_getElem?_set hu hv with ⟨ei, ev⟩ | ⟨-, hv'⟩
    · rcases cases_getElem?_set hu hw with ⟨ej, -⟩ | ⟨-, hw'⟩
      · exact ei.trans ej.symm
      · exact ei.trans (hsep hw' r (ev ▸ hr) hr')
    · rcases cases_getElem?_set hu hw with ⟨ej, ew⟩ | ⟨-, hw'⟩
      · exact (ej.trans (hsep hv' r (ew ▸ hr') hr)).symm
      · exact h.apart i j v w hv' hw' r hr hr'
  · rw [unitBlocks_append]
    rcases cases_getElem?_set hu hv with ⟨rfl, rfl⟩ | ⟨hne, hv⟩
    · rwa [hblocks]
    · rw [unitBlocks_of_ne (bs.map fun b => (idx, b.inner 1)), List.nil_append]
      · exact (h.units i v hv).grow hg.memory
      · intro t ht
        obtain ⟨b, -, rfl⟩ := List.mem_map.1 ht
        exact Ne.symm hne

theorem frame (hs : m'.sizes = m.sizes)
    (hb : ∀ r, m'.bytes ⟨r, 0⟩ = m.bytes ⟨r, 0⟩) : UnitsInv d m' tagged :=
  ⟨h.count, h.tags, h.apart, fun i u hu => (h.units i u hu).congr fun r _ => ⟨by rw [hs], hb r⟩⟩

end UnitsInv

/-! ## Requests -/

variable {bs : List Block} {sizes : List Nat}

theorem writeIndexes_ok (idx : Nat) (vec : List BinaryUnitAllocator) (args : List MallocArgument)
    (results : List (Option Ptr)) (hlen : bs.length = args.length) (hin : ∀ b ∈ bs, m.Inside b.ptr 1) :
    ∃ m', (args.zip (bs.map fun b => some b.ptr)).foldlM (writeIndex idx) ⟨vec, m, results⟩ =
        .ok ⟨vec, m', Scatter.scatter (args.map (·.result)) (bs.map fun b => some (b.ptr.next 1)) results⟩ ∧
      m'.sizes = m.sizes ∧ (∀ q, q ∉ bs.map Block.ptr → m'.bytes q = m.bytes q) ∧
      ∀ b ∈ bs, m'.bytes b.ptr = BitVec.ofNat 8 idx := by
  induction args generalizing bs m results with
  | nil =>
    obtain rfl := List.length_eq_zero_iff.1 hlen
    exact ⟨m, rfl, rfl, fun _ _ => rfl, by simp⟩
  | cons arg args ih =>
    cases bs with
    | nil => cases hlen
    | cons b bs =>
      obtain ⟨m1, e1⟩ := Memory.store_ok (LittleEndian.bytes 1 idx) (hin b List.mem_cons_self)
      have hs1 := Memory.sizes_store e1
      obtain ⟨m2, e2, hs2, hb2, hw2⟩ := ih (m := m1)
        (results.set arg.result (some (b.ptr.next 1))) (Nat.succ.inj hlen) fun c hc =>
          (Memory.inside_congr hs1).2 (hin c (List.mem_cons_of_mem _ hc))
      refine ⟨m2, ?_, hs2.trans hs1, fun q hq => ?_, fun c hc => ?_⟩
      · rw [List.map_cons, List.zip_cons_cons, List.foldlM_cons]
        simp only [writeIndex, deref, ok_bind, e1]
        exact e2
      · rw [List.map_cons, List.mem_cons, not_or] at hq
        rw [hb2 q hq.2]
        refine Memory.bytes_store e1 fun hc => hq.1 ?_
        obtain ⟨h1, h2, h3⟩ := hc
        rw [LittleEndian.length_bytes] at h3
        obtain ⟨block, offset⟩ := q
        cases hp : b.ptr with
        | mk block' offset' =>
          rw [hp] at h1 h2 h3
          simp only at h1 h2 h3
          rw [h1, show offset = offset' by omega]
      · by_cases hmem : c.ptr ∈ bs.map Block.ptr
        · obtain ⟨c', hc', e⟩ := List.mem_map.1 hmem
          rw [← e]
          exact hw2 c' hc'
        · rcases List.mem_cons.1 hc with rfl | hc
          · rw [hb2 _ hmem]
            have := Memory.load_store e1
            rw [LittleEndian.length_bytes, Memory.load_ok ((Memory.inside_congr hs1).2
              (hin c List.mem_cons_self))] at this
            exact (List.cons.inj (Except.ok.inj this)).1
          · exact absurd (List.mem_map_of_mem hc) hmem

/-- **One batch of requests**: its unit serves it, and each of its results has the index before it. -/
theorem mallocPush_ok (h : Tagged d m tagged) {group : Nat × List MallocArgument}
    (hidx : group.1 < concurrencySz) (hsz : ∀ arg ∈ group.2, 0 < arg.sz ∧ arg.sz + 2 ≤ 2 ^ 63)
    (results : List (Option Ptr)) :
    Ends env.Short (mallocPush env ⟨d, m, results⟩ group) fun s => ∃ bs : List Block,
      bs.map Block.size = group.2.map (·.sz) ∧
      Tagged s.allocatorVec s.memory (bs.map (fun b => (group.1, b)) ++ tagged) ∧
      s.results = Scatter.scatter (group.2.map (·.result)) (bs.map fun b => some b.ptr) results ∧
      Kept (tagged.map Prod.snd) m s.memory := by
  obtain ⟨idx, args⟩ := group
  obtain ⟨u, hu⟩ := h.exists_unit hidx
  have hsizes : (args.map fun arg => sizeT (arg.sz + 1)) = args.map fun arg => arg.sz + 1 :=
    List.map_congr_left fun arg ha => sizeT_of_lt (by have := hsz arg ha; omega)
  have hi : UnitInv u m ([] ++ unitBlocks idx tagged) := h.units idx u hu
  obtain ⟨r, u', m1, e1, hr⟩ := UnitInv.mallocBatch_ok env (args.map fun arg => arg.sz + 1) hi
    fun n hn => by
      obtain ⟨arg, ha, rfl⟩ := List.mem_map.1 hn
      have := hsz arg ha
      omega
  simp only [mallocPush, hu, hsizes]
  rw [List.map_nil] at e1
  rw [e1, ok_bind]
  rcases hr with ⟨bs, rfl, hbs, hi1, hg⟩ | ⟨rfl, hshort⟩
  swap
  · exact .abort hshort
  rw [List.nil_append] at hi1
  have hsz1 : ∀ b ∈ bs, 2 ≤ b.size := by
    intro b hb
    obtain ⟨arg, ha, e⟩ := List.mem_map.1 (hbs ▸ List.mem_map_of_mem hb : b.size ∈ _)
    have := hsz arg ha
    omega
  have hoff : ∀ b ∈ bs, b.ptr.offset = 1 ∧ m1.Inside b.ptr b.size := by
    intro b hb
    obtain ⟨-, k, -, hc, hle⟩ := hi1.live b (List.mem_append_left _ hb)
    refine ⟨hc.offset, ?_⟩
    rw [Memory.Inside, List.getD_eq_getElem?_getD, hc.size, Option.getD_some, hc.offset]
    omega
  have hlen : bs.length = args.length := by simpa using congrArg List.length hbs
  obtain ⟨m2, e2, hs2, hb2, hw2⟩ := writeIndexes_ok idx (d.set idx u') args results hlen
    fun b hb => (hoff b hb).2.mono (by have := hsz1 b hb; omega)
  have hother : ∀ q : Ptr, q.offset ≠ 1 → m2.bytes q = m1.bytes q := by
    intro q hq
    refine hb2 q fun hmem => ?_
    obtain ⟨b, hb, rfl⟩ := List.mem_map.1 hmem
    exact hq (hoff b hb).1
  have hunits := h.toUnitsInv.extend hu hi1 hg fun b hb => Nat.le_of_succ_le (hsz1 b hb)
  have hseparate : ∀ b ∈ bs, ∀ t ∈ tagged, b.ptr.block ≠ t.2.ptr.block := by
    intro b hb t ht
    have hnd := hunits.nodup
    rw [List.map_append, List.nodup_append] at hnd
    refine hnd.2.2 _ (List.mem_map.2 ⟨(idx, b.inner 1), ?_, rfl⟩) _ (List.mem_map_of_mem ht)
    exact List.mem_map_of_mem (f := fun b => (idx, b.inner 1)) hb
  have hsame : ∀ t ∈ tagged, ∀ q : Ptr, q.block = t.2.ptr.block → m2.bytes q = m.bytes q := by
    intro t ht q hq
    rw [hb2 q, hg.memory.bytes q (hq ▸ h.block_lt ht)]
    intro hmem
    obtain ⟨b, hb, rfl⟩ := List.mem_map.1 hmem
    exact hseparate b hb t ht hq
  refine .of_ok ⟨_, e2, bs.map (Block.inner 1), ?_, ⟨?_, fun t ht => ?_⟩, ?_, fun b hb q hq => ?_⟩
  · rw [List.map_map]
    refine (List.map_map (g := (· - 1)) (f := Block.size) (l := bs)).symm.trans ?_
    rw [hbs, List.map_map]
    rfl
  · rw [List.map_map]
    exact hunits.frame hs2 fun r => hother _ Nat.zero_ne_one
  · rw [List.map_map] at ht
    rcases List.mem_append.1 ht with ht | ht
    · obtain ⟨b, hb, rfl⟩ := List.mem_map.1 ht
      obtain ⟨ho, hin⟩ := hoff b hb
      have hsz := hsz1 b hb
      refine ⟨Nat.sub_pos_of_lt hsz, congrArg (· + 1) ho, ?_⟩
      have hptr : (⟨b.ptr.block, 1⟩ : Ptr) = b.ptr := by rw [← ho]
      have hin2 : m2.Inside b.ptr 1 := (Memory.inside_congr hs2).2 (hin.mono (by omega))
      refine (congrArg (fun p => m2.load p 1) hptr).trans ((Memory.load_ok hin2).trans ?_)
      rw [List.range_one, List.map_singleton]
      exact congrArg (fun x => Except.ok [x]) (hw2 b hb)
    · obtain ⟨hpos, ho, hload⟩ := h.live t ht
      have hcongr : m2.load ⟨t.2.ptr.block, 1⟩ 1 = m.load ⟨t.2.ptr.block, 1⟩ 1 := by
        refine Memory.load_congr ?_ fun q hq => hsame t ht q hq.1
        unfold Memory.Inside
        rw [List.getD_eq_getElem?_getD, List.getD_eq_getElem?_getD, hs2,
          hg.memory.sizes _ (h.block_lt ht)]
      exact ⟨hpos, ho, hcongr.trans hload⟩
  · rw [List.map_map]
    rfl
  · obtain ⟨t, ht, rfl⟩ := List.mem_map.1 hb
    exact hsame t ht q hq.1

theorem mallocGroups_ok (groups : List (Funnel.Group Nat MallocArgument)) (h : Tagged d m tagged)
    (hp : ∀ p ∈ Funnel.pairs groups, p.1 < concurrencySz ∧ 0 < p.2.sz ∧ p.2.sz + 2 ≤ 2 ^ 63)
    (hkeys : ∀ group ∈ groups, group.1 < concurrencySz) (results : List (Option Ptr)) :
    Ends env.Short (groups.foldlM (mallocPush env) ⟨d, m, results⟩) fun s => ∃ bs : List Block,
      bs.map Block.size = (Funnel.pairs groups).map (·.2.sz) ∧
      (∃ tagged', (tagged'.map Prod.snd).Perm (bs ++ tagged.map Prod.snd) ∧
        Tagged s.allocatorVec s.memory tagged') ∧
      s.results = Scatter.scatter ((Funnel.pairs groups).map (·.2.result))
        (bs.map fun b => some b.ptr) results ∧
      Kept (tagged.map Prod.snd) m s.memory := by
  induction groups generalizing d m tagged results with
  | nil => exact .ok ⟨[], rfl, ⟨tagged, .refl _, h⟩, rfl, .refl _ _⟩
  | cons group groups ih =>
    rw [List.foldlM_cons]
    refine (mallocPush_ok h (hkeys group List.mem_cons_self) (fun arg ha => ?_) results).bind
      fun s hs => ?_
    · exact (hp (group.1, arg) (List.mem_append_left _ (List.mem_map_of_mem ha))).2
    obtain ⟨bs, hsz, ht, hres, hk⟩ := hs
    refine (ih ht (fun p hp' => hp p (List.mem_append_right _ hp'))
      (fun g hg => hkeys g (List.mem_cons_of_mem _ hg)) s.results).mono fun s' hs' => ?_
    obtain ⟨bs', hsz', ⟨tagged', htags, ht'⟩, hres', hk'⟩ := hs'
    have hlen : bs.length = group.2.length := by simpa using congrArg List.length hsz
    have hsnd : (bs.map fun b => (group.1, b)).map Prod.snd = bs := by
      rw [List.map_map]
      exact List.map_id bs
    rw [List.map_append, hsnd] at htags hk'
    refine ⟨bs ++ bs', ?_, ⟨tagged', ?_, ht'⟩, ?_, hk.trans (hk'.mono (List.subset_append_right _ _))⟩
    · rw [List.map_append, hsz, hsz', Funnel.pairs_cons, List.map_append, List.map_map]
      rfl
    · rw [List.append_assoc]
      exact htags.trans (List.perm_append_comm_assoc _ _ _)
    · rw [hres', hres, Funnel.pairs_cons, List.map_append, List.map_append, List.map_map,
        Scatter.scatter_append (by simpa using hlen)]
      rfl

theorem requests_eq (env : Env) (h : ∀ n ∈ sizes, 0 < n) (calls : Nat) :
    requests env calls sizes = sizes.zipIdx.map fun p =>
      (env.randomizeInt calls p.2 % 2 ^ 8 &&& (concurrencySz - 1), ⟨p.1, p.2⟩) := by
  rw [requests, ← List.filterMap_eq_map]
  refine List.filterMap_congr fun p hp => ?_
  have := h p.1 (List.fst_mem_of_mem_zipIdx hp)
  exact if_neg (by omega)

theorem results_eq {reqs pairs : List (Nat × MallocArgument)}
    (hreqs : reqs.map (fun r => (r.2.sz, r.2.result)) = sizes.zipIdx) (hperm : pairs.Perm reqs)
    (hsz : bs.map Block.size = pairs.map (·.2.sz)) :
    ∃ bs' : List Block, bs'.Perm bs ∧ bs'.map Block.size = sizes ∧
      Scatter.scatter (pairs.map (·.2.result)) (bs.map fun b => some b.ptr)
        (List.replicate sizes.length none) = bs'.map fun b => some b.ptr := by
  have hlen : bs.length = pairs.length := by simpa using congrArg List.length hsz
  have hslots : reqs.map (·.2.result) = List.range sizes.length := by
    have := congrArg (List.map Prod.snd) hreqs
    rw [List.map_map, List.zipIdx_map_snd] at this
    rw [List.range_eq_range']
    exact this
  have hnodup : (pairs.map (·.2.result)).Nodup :=
    (hperm.map _).nodup_iff.2 (hslots ▸ List.nodup_range)
  have hlt : ∀ i ∈ pairs.map (·.2.result), i < (List.replicate sizes.length (none : Option Ptr)).length := by
    intro i hi
    rw [List.length_replicate]
    exact List.mem_range.1 (hslots ▸ (hperm.map _).mem_iff.1 hi)
  obtain ⟨assigned, hassigned, hfst⟩ := exists_perm_map
    (show ((pairs.zip bs).map Prod.fst).Perm reqs by rwa [List.map_fst_zip hlen.ge])
  have hmem : ∀ a ∈ assigned, a.2.size = a.1.2.sz := by
    intro a ha
    obtain ⟨j, hj, rfl⟩ := List.getElem_of_mem (hassigned.mem_iff.1 ha)
    rw [List.length_zip] at hj
    have := congrArg (·[j]?) hsz
    rw [List.getElem?_map, List.getElem?_map, List.getElem?_eq_getElem (by omega),
      List.getElem?_eq_getElem (by omega)] at this
    rw [List.getElem_zip]
    exact Option.some.inj this
  refine ⟨assigned.map Prod.snd, ?_, ?_, ?_⟩
  · have := hassigned.map Prod.snd
    rwa [List.map_snd_zip hlen.le] at this
  · rw [List.map_map, List.map_congr_left (g := fun a => a.1.2.sz) hmem]
    have := congrArg (List.map Prod.fst) hreqs
    rw [List.zipIdx_map_fst, ← hfst, List.map_map, List.map_map] at this
    exact this
  · have hcount : assigned.length = sizes.length := by
      have h1 := congrArg List.length hfst
      have h2 := congrArg List.length hreqs
      simp only [List.length_map, List.length_zipIdx] at h1 h2
      exact h1.trans h2
    refine List.ext_getElem? fun i => ?_
    by_cases hi : i < sizes.length
    · have hia : i < assigned.length := hcount ▸ hi
      have hres : assigned[i].1.2.result = i := by
        have := congrArg (·[i]?) hreqs
        rw [← hfst, List.map_map, List.getElem?_map, List.getElem?_eq_getElem hia,
          List.getElem?_eq_getElem (by simpa using hi), List.getElem_zipIdx] at this
        simpa using congrArg Prod.snd (Option.some.inj this)
      have hzip : (i, some assigned[i].2.ptr) ∈
          (pairs.map (·.2.result)).zip (bs.map fun b => some b.ptr) := by
        rw [List.zip_map]
        refine List.mem_map.2 ⟨assigned[i], hassigned.mem_iff.1 (List.getElem_mem hia), ?_⟩
        exact Prod.ext hres rfl
      rw [Scatter.getElem?_scatter_of_mem hnodup (by simpa using hlen) hlt hzip, List.getElem?_map,
        List.getElem?_map, List.getElem?_eq_getElem hia]
      rfl
    · rw [List.getElem?_eq_none, List.getElem?_eq_none]
      · rw [List.length_map, List.length_map]
        omega
      · rw [Scatter.length_scatter, List.length_replicate]
        omega

variable {s : DistributedAllocator}

theorem malloc_ok (sizes : List Nat) (hi : DistInv s m live)
    (hn : ∀ n ∈ sizes, 0 < n ∧ n ≤ 2 ^ 63 - 2) :
    Ends env.Short (malloc env sizes (s, m)) fun r => ∃ bs : List Block,
      r.1 = bs.map (fun b => some b.ptr) ∧ bs.map Block.size = sizes ∧
      DistInv r.2.1 r.2.2 (bs ++ live) ∧ Kept live m r.2.2 := by
  obtain ⟨tagged, hperm, ht⟩ := hi
  have hreqs := requests_eq env (fun n h => (hn n h).1) s.calls
  have hcap : min sizes.length feedSz ≤ Funnel.maxDeliverableCap :=
    (Nat.min_le_right _ _).trans (by decide)
  obtain ⟨groups, eg, hpairs, -, -⟩ := Funnel.kvScope_ok mallocLayout (env.stackAddr s.calls) hcap
    (requests env s.calls sizes)
  have hreq : ∀ p ∈ requests env s.calls sizes,
      p.1 < concurrencySz ∧ 0 < p.2.sz ∧ p.2.sz + 2 ≤ 2 ^ 63 := by
    intro p hp
    rw [hreqs] at hp
    obtain ⟨x, hx, rfl⟩ := List.mem_map.1 hp
    have := hn x.1 (List.fst_mem_of_mem_zipIdx hx)
    have hidx := Nat.and_le_right (n := env.randomizeInt s.calls x.2 % 2 ^ 8) (m := concurrencySz - 1)
    refine ⟨?_, this.1, ?_⟩
    · simp only [concurrencySz] at hidx ⊢
      omega
    · dsimp only
      omega
  unfold malloc
  rw [eg, ok_bind]
  refine (mallocGroups_ok groups ht (fun p hp => hreq p (hpairs.mem_iff.1 hp)) (fun g hg => ?_) _).bind
    fun d hd => ?_
  · obtain ⟨p, hp, e⟩ := List.mem_map.1 (Funnel.kvScope_keys eg g hg)
    exact e ▸ (hreq p hp).1
  obtain ⟨bs, hsz, ⟨tagged', htags, ht'⟩, hres, hk⟩ := hd
  have hz : (requests env s.calls sizes).map (fun r => (r.2.sz, r.2.result)) = sizes.zipIdx := by
    rw [hreqs, List.map_map]
    exact List.map_id _
  obtain ⟨bs', hbs', hsz', hscatter⟩ := results_eq hz hpairs hsz
  refine .ok ⟨bs', hres.trans hscatter, hsz', ⟨tagged', ?_, ht'⟩, fun b hb => ?_⟩
  · exact htags.trans (hbs'.symm.append hperm)
  · exact hk b (hperm.mem_iff.2 hb)

/-! ## Blocks that come back -/

theorem owner_ok (h : Tagged d m tagged) {t : Nat × Block} (ht : t ∈ tagged) :
    owner m t.2.ptr = .ok (t.1, (t.2.outer 1).ptr) := by
  obtain ⟨-, ho, hload⟩ := h.live t ht
  have hptr : (t.2.outer 1).ptr = ⟨t.2.ptr.block, 1⟩ := by rw [Block.outer, ho]
  have hvalue : LittleEndian.value (LittleEndian.bytes 1 t.1) = t.1 := by
    rw [LittleEndian.value_bytes]
    exact Nat.mod_eq_of_lt ((h.tags t ht).trans (by decide))
  rw [owner, Block.prev_ptr (by omega), ok_bind, hptr, hload, ok_bind, hvalue]

theorem mapM_ok {α β γ ε : Type} {f : α → Except ε β} {g : γ → β} {k : γ → α} {l : List γ}
    (h : ∀ c ∈ l, f (k c) = .ok (g c)) : (l.map k).mapM f = .ok (l.map g) := by
  induction l with
  | nil => rfl
  | cons c l ih =>
    rw [List.map_cons, List.mapM_cons, h c List.mem_cons_self, ok_bind,
      ih fun b hb => h b (List.mem_cons_of_mem _ hb)]
    rfl

theorem freePush_ok {idx : Nat} (hidx : idx < concurrencySz)
    (h : Tagged d m (bs.map (fun b => (idx, b)) ++ tagged)) :
    ∃ d', freePush m d (idx, bs.map fun b => (b.outer 1).ptr) = .ok d' ∧ Tagged d' m tagged := by
  obtain ⟨u, hu⟩ := h.exists_unit hidx
  have hblocks : unitBlocks idx (bs.map fun b => (idx, b)) = bs.map (Block.outer 1) := by
    rw [unitBlocks_of_tag, List.map_map]
    · rfl
    · intro t ht
      obtain ⟨b, -, rfl⟩ := List.mem_map.1 ht
      rfl
  have hi := h.units idx u hu
  rw [unitBlocks_append, hblocks] at hi
  obtain ⟨u', e, hi', hr⟩ := hi.freeBatch_ok
  refine ⟨d.set idx u', ?_, ⟨⟨?_, fun t ht => h.tags t (List.mem_append_right _ ht),
    fun i j v w hv hw r hv' hw' => ?_, fun i v hv => ?_⟩, fun t ht => h.live t (List.mem_append_right _ ht)⟩⟩
  · simp only [freePush, hu, List.map_map]
    rw [List.map_map] at e
    exact congrArg (· >>= _) e
  · rw [List.length_set]
    exact h.count
  · have hold : ∀ {k : Nat} {x : BinaryUnitAllocator}, (d.set idx u')[k]? = some x → r ∈ x.raiiBufVec →
        ∃ y, d[k]? = some y ∧ r ∈ y.raiiBufVec := by
      intro k x hx hmem
      rcases cases_getElem?_set hu hx with ⟨rfl, rfl⟩ | ⟨-, hx⟩
      · exact ⟨u, hu, hr ▸ hmem⟩
      · exact ⟨x, hx, hmem⟩
    obtain ⟨y, hy, hry⟩ := hold hv hv'
    obtain ⟨z, hz, hrz⟩ := hold hw hw'
    exact h.apart i j y z hy hz r hry hrz
  · rcases cases_getElem?_set hu hv with ⟨rfl, rfl⟩ | ⟨hne, hv⟩
    · exact hi'
    · have := h.units i v hv
      rwa [unitBlocks_append, unitBlocks_of_ne (bs.map fun b => (idx, b)), List.nil_append]
        at this
      intro t ht
      obtain ⟨b, -, rfl⟩ := List.mem_map.1 ht
      exact Ne.symm hne

theorem freeGroups_ok (groups : List (Funnel.Group Nat Ptr)) {back : List (Nat × Block)}
    (hback : back.map (fun t => (t.1, (t.2.outer 1).ptr)) = Funnel.pairs groups)
    (hkeys : ∀ group ∈ groups, group.1 < concurrencySz) (h : Tagged d m (back ++ tagged)) :
    ∃ d', groups.foldlM (freePush m) d = .ok d' ∧ Tagged d' m tagged := by
  induction groups generalizing d back with
  | nil =>
    rw [Funnel.pairs_nil, List.map_eq_nil_iff] at hback
    subst hback
    exact ⟨d, rfl, h⟩
  | cons group groups ih =>
    obtain ⟨idx, ptrs⟩ := group
    rw [Funnel.pairs_cons] at hback
    obtain ⟨back1, back2, rfl, h1, h2⟩ := List.map_eq_append_iff.1 hback
    have htag : ∀ t ∈ back1, t.1 = idx := by
      intro t ht
      have hmem : (t.1, (t.2.outer 1).ptr) ∈ ptrs.map (idx, ·) :=
        h1 ▸ List.mem_map_of_mem (f := fun t : Nat × Block => (t.1, (t.2.outer 1).ptr)) ht
      obtain ⟨p, -, e⟩ := List.mem_map.1 hmem
      exact (congrArg Prod.fst e).symm
    have hback1 : back1 = (back1.map Prod.snd).map fun b => (idx, b) := by
      rw [List.map_map]
      refine (List.map_id back1).symm.trans (List.map_congr_left fun t ht => ?_)
      exact Prod.ext (htag t ht) rfl
    have hptrs : ptrs = (back1.map Prod.snd).map fun b => (b.outer 1).ptr := by
      have := congrArg (List.map Prod.snd) h1
      rw [List.map_map, List.map_map] at this
      rw [List.map_map]
      exact (List.map_id ptrs).symm.trans this.symm
    rw [List.append_assoc, hback1] at h
    obtain ⟨d1, e1, t1⟩ := freePush_ok (hkeys _ List.mem_cons_self) h
    obtain ⟨d2, e2, t2⟩ := ih h2 (fun g hg => hkeys g (List.mem_cons_of_mem _ hg)) t1
    refine ⟨d2, ?_, t2⟩
    rw [List.foldlM_cons, hptrs, e1, ok_bind, e2]

theorem free_ok (env : Env) (bs : List Block) (hi : DistInv s m (bs ++ live)) :
    ∃ s', free env (bs.map fun b => some b.ptr) (s, m) = .ok (s', m) ∧ DistInv s' m live := by
  obtain ⟨tagged, hperm, ht⟩ := hi
  obtain ⟨all, hall, hsnd⟩ := exists_perm_map hperm
  obtain ⟨back, rest, rfl, hback, hrest⟩ := List.map_eq_append_iff.1 hsnd
  have hta : Tagged s.allocatorVec m (back ++ rest) :=
    ⟨ht.toUnitsInv.perm hall.symm, fun t h => ht.live t (hall.mem_iff.1 h)⟩
  have howners : (bs.map Block.ptr).mapM (owner m) =
      .ok (back.map fun t => (t.1, (t.2.outer 1).ptr)) := by
    rw [← hback, List.map_map]
    exact mapM_ok fun t h => owner_ok hta (List.mem_append_left _ h)
  have hcap : min (bs.map fun b => some b.ptr).length feedSz ≤ Funnel.maxDeliverableCap :=
    (Nat.min_le_right _ _).trans (by decide)
  obtain ⟨groups, eg, hpairs, -, -⟩ := Funnel.kvScope_ok pointerLayout (env.stackAddr s.calls) hcap
    (back.map fun t => (t.1, (t.2.outer 1).ptr))
  obtain ⟨back', hback', hmap⟩ := exists_perm_map hpairs.symm
  have htb : Tagged s.allocatorVec m (back' ++ rest) :=
    ⟨hta.toUnitsInv.perm (hback'.symm.append_right _),
      fun t h => hta.live t ((hback'.append_right _).mem_iff.1 h)⟩
  have hkeys : ∀ group ∈ groups, group.1 < concurrencySz := by
    intro group hg
    obtain ⟨p, hp, e⟩ := List.mem_map.1 (Funnel.kvScope_keys eg group hg)
    obtain ⟨t, ht', rfl⟩ := List.mem_map.1 hp
    exact e ▸ hta.tags t (List.mem_append_left _ ht')
  obtain ⟨d', ed, htd⟩ := freeGroups_ok groups hmap hkeys htb
  refine ⟨⟨d', s.calls + 1⟩, ?_, rest, by rw [hrest], htd⟩
  simp only [free, reduceOption_map_some, howners, ok_bind, eg, ed]

theorem distInv_make (m : Memory) : DistInv make m [] := by
  have hunit : ∀ (i : Nat) (u : BinaryUnitAllocator), make.allocatorVec[i]? = some u → u = ⟨[], []⟩ :=
    fun i u hu => List.eq_of_mem_replicate (List.mem_of_getElem? hu)
  refine ⟨[], .refl _, ⟨⟨rfl, nofun, fun i j u v hu _ r hr => ?_, fun i u hu => ?_⟩, nofun⟩⟩
  · rw [hunit i u hu] at hr
    cases hr
  · rw [hunit i u hu]
    exact ⟨List.nodup_nil, .refl _, List.nodup_nil, nofun, nofun⟩

/-! ## Where a block is -/

theorem DistInv.block_ok (hi : DistInv s m live) {b : Block} (hb : b ∈ live) :
    ∃ idx k, (∃ u, s.allocatorVec[idx]? = some u ∧ b.ptr.block ∈ u.raiiBufVec) ∧
      m.sizes[b.ptr.block]? = some (2 ^ k) ∧ b.ptr.offset = 2 ∧ b.ptr.offset + b.size ≤ 2 ^ k ∧
      owner m b.ptr = .ok (idx, ⟨b.ptr.block, 1⟩) ∧
      BinaryUnitAllocator.toOriginalBuffer ⟨b.ptr.block, 1⟩ m = .ok (⟨b.ptr.block, 0⟩, k) := by
  obtain ⟨tagged, hperm, ht⟩ := hi
  obtain ⟨t, htm, rfl⟩ := List.mem_map.1 (hperm.mem_iff.2 hb)
  obtain ⟨hpos, ho, -⟩ := ht.live t htm
  obtain ⟨u, hu, hr⟩ := ht.mem_owned htm
  obtain ⟨-, k, -, hc, hle⟩ := (ht.units _ u hu).live (t.2.outer 1)
    (List.mem_map_of_mem (List.mem_filter.2 ⟨htm, by simp⟩))
  have hvalue : LittleEndian.value (LittleEndian.bytes 1 k) = k := by
    rw [LittleEndian.value_bytes]
    exact Nat.mod_eq_of_lt (Nat.lt_trans hc.bucket_lt (by decide))
  have hheader : m.load ⟨t.2.ptr.block, 0⟩ 1 = .ok (LittleEndian.bytes 1 k) := hc.header
  refine ⟨t.1, k, ⟨u, hu, hr⟩, hc.size, ho, ?_, ?_, ?_⟩
  · rw [Block.outer_size] at hle
    omega
  · rw [owner_ok ht htm, Block.outer, ho]
  · rw [BinaryUnitAllocator.toOriginalBuffer, Ptr.prev, if_pos (Nat.le_refl _), ok_bind]
    dsimp only
    rw [hheader, ok_bind, hvalue]

theorem DistInv.owned_cases (hi : DistInv s m live) {idx : Nat}
    {u : BinaryUnitAllocator} (hu : s.allocatorVec[idx]? = some u) {r : Nat} (hr : r ∈ u.raiiBufVec) :
    (∃ b ∈ live, b.ptr.block = r) ∨ ∃ e ∈ u.unitMap, ⟨r, 1⟩ ∈ e.2 ∧ m.sizes[r]? = some (2 ^ e.1) := by
  obtain ⟨tagged, hperm, ht⟩ := hi
  have hunit := ht.units idx u hu
  rcases List.mem_append.1 (hunit.owned.mem_iff.1 hr) with hr | hr
  · obtain ⟨b, hb, rfl⟩ := List.mem_map.1 hr
    obtain ⟨t, htm, rfl⟩ := List.mem_map.1 hb
    exact .inl ⟨t.2, hperm.mem_iff.1 (List.mem_map_of_mem (List.mem_filter.1 htm).1), rfl⟩
  · obtain ⟨p, hp, rfl⟩ := List.mem_map.1 hr
    obtain ⟨e, he, hp⟩ := List.mem_flatMap.1 hp
    have hc := hunit.free e he p hp
    refine .inr ⟨e, he, ?_, hc.size⟩
    rw [← hc.offset]
    exact hp

/-- **The distributed allocator is an allocator of batches.** -/
theorem lawful (env : Env) : Lawful (allocator env) env.Short (2 ^ 63 - 2) DistInv where
  perm := by
    intro s m live live' hi hp
    obtain ⟨tagged, hperm, ht⟩ := hi
    exact ⟨tagged, hperm.trans hp, ht⟩
  disjoint := by
    intro s m live hi
    obtain ⟨tagged, hperm, ht⟩ := hi
    refine (hperm.pairwise_iff fun h => h.symm).1 ?_
    rw [List.pairwise_map]
    exact (List.pairwise_map.1 ht.nodup).imp Block.disjoint_of_block
  inside := by
    intro s m live hi b hb
    obtain ⟨tagged, hperm, ht⟩ := hi
    obtain ⟨t, htm, rfl⟩ := List.mem_map.1 (hperm.mem_iff.2 hb)
    obtain ⟨hpos, ho, -⟩ := ht.live t htm
    obtain ⟨u, hu⟩ := ht.exists_unit (ht.tags t htm)
    obtain ⟨-, k, -, hc, hle⟩ := (ht.units _ u hu).live (t.2.outer 1)
      (List.mem_map_of_mem (List.mem_filter.2 ⟨htm, by simp⟩))
    refine ⟨hpos, ?_⟩
    have hsize : m.sizes[t.2.ptr.block]? = some (2 ^ k) := hc.size
    rw [Memory.Inside, List.getD_eq_getElem?_getD, hsize, Option.getD_some, ho]
    rw [Block.outer_size] at hle
    omega
  frame := by
    intro s m m' live hi hs hb
    obtain ⟨tagged, hperm, ht⟩ := hi
    have hlow : ∀ q : Ptr, q.offset < 2 → m'.bytes q = m.bytes q := by
      intro q hq
      refine hb q fun b hbm hc => ?_
      obtain ⟨t, htm, rfl⟩ := List.mem_map.1 (hperm.mem_iff.2 hbm)
      have := (ht.live t htm).2.1
      have := hc.2.1
      omega
    refine ⟨tagged, hperm, ht.toUnitsInv.frame hs fun r => hlow _ (by simp), fun t htm => ?_⟩
    obtain ⟨hpos, ho, hload⟩ := ht.live t htm
    refine ⟨hpos, ho, Eq.trans (Memory.load_congr (Memory.inside_congr hs) fun q hq => hlow q ?_) hload⟩
    have h3 : q.offset < 1 + 1 := hq.2.2
    omega
  malloc := fun sizes hi hn => malloc_ok sizes hi hn
  free := by
    intro s m live bs hi
    obtain ⟨s', e, hi'⟩ := free_ok env bs hi
    exact ⟨s', m, e, hi', .refl _ _⟩

end DistributedAllocator

end AllocationBase.GlobalAllocator
