import NeuralNetwork.InternalRest.KernelAllocator
import NeuralNetwork.Lib.ListUpdate
import NeuralNetwork.Lib.Loop

/-!
# The kernel block pool loses no block

`Inv.step` keeps, for every block, the number of its places; `pool_conserved` says that every block is in
exactly one place, that there are no more than the cap, and when a call of `malloc` fails.
-/

namespace KernelAllocator

open Cpp Loop ListUpdate Mailbox Run AffinedAllocator

variable {debug : Bool} {b b' : BatchAllocator} {a a' : AffinedAllocator} {w w' : World} {i p : Nat}

/-! ## What is observed -/

/-- The blocks in the hands of an affined allocator: its vectors, and what its call holds. -/
def Member.held (m : Member) : List Nat :=
  match m.phase with
  | .idle => m.allocator.memVec ++ m.allocator.freeVec
  | .refilling slots => m.allocator.memVec ++ m.allocator.freeVec ++ slots.filterMap Prod.fst
  | .flushed memPtr => m.allocator.memVec ++ [memPtr]

def World.places (w : World) : List Nat :=
  w.outstanding ++ w.members.flatMap Member.held ++ w.base.memQueue

/-! ## The batch allocator -/

/-- The blocks are numbered in the order of their allocation, up to the cap. -/
structure Numbered (b : BatchAllocator) : Prop where
  names : b.memreferenceQueue = List.range b.memreferenceQueue.length
  bounded : b.memreferenceQueue.length ≤ b.memQueueCap
  cap : b.memQueueCap < 2 ^ 64

theorem noexceptAllocate_eq (n : Nat) (b : BatchAllocator) :
    b.noexceptAllocate n = { b with
      memreferenceQueue := b.memreferenceQueue ++ List.range' b.memreferenceQueue.length n
      memQueue := b.memQueue ++ List.range' b.memreferenceQueue.length n } := by
  induction n generalizing b with
  | zero => simp [BatchAllocator.noexceptAllocate]
  | succ n ih =>
    rw [BatchAllocator.noexceptAllocate, ih]
    simp [BatchAllocator.allocateOne, List.range'_succ]

def Slot.Ok (slot : Slot) : Prop :=
  (∃ p, slot = (some p, .success)) ∨ slot = (none, .resourceExhaustion)

theorem filterMap_slots (filled : List Nat) (n : Nat) :
    (filled.map (fun p => ((some p, .success) : Slot)) ++
      List.replicate n ((none, .resourceExhaustion) : Slot)).filterMap Prod.fst = filled := by
  rw [List.filterMap_append, List.filterMap_map]
  simp

variable {slots : List Slot} {m : Member} {a : AffinedAllocator} {b : BatchAllocator} {n : Nat}

theorem malloc_ok (hb : Numbered b) (e : b.malloc debug n = .ok (b', slots)) :
    Numbered b' ∧ b'.maxConsumePerLoad = b.maxConsumePerLoad ∧ (∀ slot ∈ slots, slot.Ok) ∧
    (∀ p, b'.memQueue.count p + (slots.filterMap Prod.fst).count p + b.memreferenceQueue.count p =
      b.memQueue.count p + b'.memreferenceQueue.count p) ∧
    (slots.filterMap Prod.fst = [] → 1 ≤ n →
      b.memQueue = [] ∧ b.memreferenceQueue.length = b.memQueueCap) := by
  have hle := hb.bounded
  unfold BatchAllocator.malloc at e
  split at e
  · cases e
  · dsimp only at e
    rw [subT_of_le hle hb.cap, noexceptAllocate_eq] at e
    dsimp only at e
    generalize hd : min (b.memQueueCap - b.memreferenceQueue.length)
      (n - min n b.memQueue.length) = doable at e
    have hdoable : doable ≤ b.memQueueCap - b.memreferenceQueue.length := by omega
    generalize hq : b.memQueue ++ List.range' b.memreferenceQueue.length doable = queue at e
    have hlen : queue.length = b.memQueue.length + doable := by
      rw [← hq, List.length_append, List.length_range']
    cases e
    refine ⟨⟨?_, ?_, hb.cap⟩, rfl, ?_, fun p => ?_, fun hnone hn => ?_⟩
    · rw [List.length_append, List.length_range', List.range_add, ← hb.names]
      rw [List.range'_eq_map_range]
    · show (b.memreferenceQueue ++ _).length ≤ b.memQueueCap
      rw [List.length_append, List.length_range']
      omega
    · intro slot hm
      rcases List.mem_append.1 hm with hm | hm
      · obtain ⟨p, -, rfl⟩ := List.mem_map.1 hm
        exact .inl ⟨p, rfl⟩
      · exact .inr (List.eq_of_mem_replicate hm)
    · rw [filterMap_slots, ← List.count_append, List.take_append_drop, ← hq]
      rw [List.count_append, List.count_append]
      omega
    · rw [filterMap_slots, List.drop_eq_nil_iff] at hnone
      have hempty : b.memQueue.length = 0 := by omega
      refine ⟨List.length_eq_zero_iff.1 hempty, ?_⟩
      rw [hempty] at hd hlen
      omega

/-! ## The affined allocators -/

theorem takeSlots_ok (hs : ∀ slot ∈ slots, slot.Ok) :
    a.takeSlots slots = .ok { a with memVec := a.memVec ++ slots.filterMap Prod.fst } := by
  induction slots generalizing a with
  | nil => simp [takeSlots]
  | cons slot slots ih =>
    have hrest := fun s hm => hs s (List.mem_cons_of_mem _ hm)
    rcases hs slot List.mem_cons_self with ⟨p, rfl⟩ | rfl
    · have hok : ¬ isFailed ExceptionT.success := by decide
      rw [takeSlots, if_neg hok, ih hrest]
      simp
    · have hfailed : isFailed ExceptionT.resourceExhaustion := by decide
      rw [takeSlots, if_pos hfailed, ih hrest]
      simp

structure Member.Ok (maxConsume : Nat) (m : Member) : Prop where
  memVecCapacity : 1 ≤ m.allocator.memVecCapacity
  refillSz : 1 ≤ m.allocator.refillSz
  consume : m.allocator.refillSz ≤ maxConsume
  refilling : ∀ slots, m.phase = .refilling slots →
    m.allocator.memVec = [] ∧ m.allocator.freeVec = [] ∧ ∀ slot ∈ slots, slot.Ok

structure Inv (w : World) : Prop where
  numbered : Numbered w.base
  members : ∀ m ∈ w.members, m.Ok w.base.maxConsumePerLoad
  conserved : ∀ p, w.outstanding.count p + (w.members.map fun m => m.held.count p).sum +
    w.base.memQueue.count p = w.base.memreferenceQueue.count p

theorem makeBatchAllocator_ok {count sz decay : Nat} (e : makeBatchAllocator count sz decay = .ok b) :
    1 ≤ count ∧ count ≤ 2 ^ 30 ∧ b = ⟨[], [], count, sz, max 1 (count >>> decay)⟩ := by
  unfold makeBatchAllocator at e
  split at e
  · cases e
  · rename_i hcount
    split at e
    · cases e
    · split at e
      · cases e
      · rw [not_not] at hcount
        exact ⟨hcount.1, hcount.2, (Except.ok.inj e).symm⟩

theorem makeAffinedAllocator_ok {refillSz memCap freeCap : Nat}
    (e : makeAffinedAllocator b refillSz memCap freeCap = .ok a) :
    1 ≤ refillSz ∧ 1 ≤ memCap ∧ 1 ≤ freeCap ∧
      a = ⟨min refillSz b.maxConsumePerLoad, [], memCap, [], freeCap⟩ := by
  unfold makeAffinedAllocator at e
  split at e
  · cases e
  · rename_i hrefill
    split at e
    · cases e
    · rename_i hmem
      split at e
      · cases e
      · rename_i hfree
        rw [not_not] at hrefill hmem hfree
        exact ⟨hrefill.1, hmem.1, hfree.1, (Except.ok.inj e).symm⟩

theorem Inv.of_fresh (h : Fresh w) : Inv w := by
  obtain ⟨⟨count, sz, decay, hb⟩, hm, ho⟩ := h
  obtain ⟨hone, hcount, hbase⟩ := makeBatchAllocator_ok hb
  have hconsume : 1 ≤ w.base.maxConsumePerLoad := by
    rw [hbase]
    exact Nat.le_max_left 1 _
  have hmember : ∀ m ∈ w.members, m.Ok w.base.maxConsumePerLoad ∧ m.held = [] := by
    intro m hmem
    obtain ⟨hp, refill, memCap, freeCap, hmade⟩ := hm m hmem
    obtain ⟨hrefill, hmemCap, -, ha⟩ := makeAffinedAllocator_ok hmade
    obtain ⟨a, phase⟩ := m
    subst hp ha
    refine ⟨⟨hmemCap, ?_, Nat.min_le_right _ _, fun slots hs => by cases hs⟩, rfl⟩
    show 1 ≤ min refill w.base.maxConsumePerLoad
    omega
  refine ⟨?_, fun m hmem => (hmember m hmem).1, fun p => ?_⟩
  · rw [hbase]
    refine ⟨rfl, Nat.zero_le _, ?_⟩
    show count < 2 ^ 64
    omega
  · have hzero : (w.members.map fun m => m.held.count p).sum = 0 := by
      refine List.sum_eq_zero fun n hn => ?_
      obtain ⟨m, hmem, rfl⟩ := List.mem_map.1 hn
      rw [(hmember m hmem).2]
      rfl
    rw [ho, hzero, hbase]
    rfl

/-- A step that moves blocks between the places of one member, the batch allocator and the callers.
-/
theorem Inv.moves {m n : Member} {o : List Nat} (hi : Inv w) (hm : w.members[i]? = some m)
    (hb : Numbered b) (hmax : b.maxConsumePerLoad = w.base.maxConsumePerLoad)
    (hok : n.Ok w.base.maxConsumePerLoad)
    (hmoves : ∀ p, o.count p + n.held.count p + b.memQueue.count p +
        w.base.memreferenceQueue.count p =
      w.outstanding.count p + m.held.count p + w.base.memQueue.count p +
        b.memreferenceQueue.count p) : Inv ⟨b, w.members.set i n, o⟩ := by
  refine ⟨hb, ?_, fun p => ?_⟩
  · rw [hmax]
    exact forall_mem_set hi.members hok
  · have hsum := sum_map_set (fun m : Member => m.held.count p) (b := n) hm
    have hold := hi.conserved p
    have hnew := hmoves p
    dsimp only at hsum ⊢
    omega

/-! ## Steps -/

theorem handOut_cases {o : Option World} (e : w.handOut i a = .ok o) :
    ∃ p rest, a.memVec = rest ++ [p] ∧ o = some { w.setMember i { a with memVec := rest } .idle with
      outstanding := p :: w.outstanding } := by
  obtain ⟨⟨a1, p⟩, hpop, e⟩ := bind_eq_ok e
  cases e
  unfold AffinedAllocator.popBack at hpop
  split at hpop
  · rename_i p' hlast
    obtain ⟨rest, hrest⟩ := List.getLast?_eq_some_iff.1 hlast
    cases hpop
    exact ⟨p, rest, hrest, by rw [hrest, List.dropLast_concat]⟩
  · cases hpop

theorem Member.Ok.idle {maxConsume : Nat} (h : m.Ok maxConsume)
    (h1 : a.memVecCapacity = m.allocator.memVecCapacity) (h2 : a.refillSz = m.allocator.refillSz) :
    Member.Ok maxConsume ⟨a, .idle⟩ := by
  refine ⟨?_, ?_, ?_, fun slots hs => by cases hs⟩
  · rw [h1]
    exact h.memVecCapacity
  · rw [h2]
    exact h.refillSz
  · rw [h2]
    exact h.consume

section

variable (hi : Inv w)

include hi

/-- The end of a call of `malloc`, from an allocator that holds what the member holds. -/
theorem Inv.handOut (hm : w.members[i]? = some m)
    (hheld : ∀ p, (a.memVec ++ a.freeVec).count p = m.held.count p)
    (hok : Member.Ok w.base.maxConsumePerLoad ⟨a, .idle⟩) (e : w.handOut i a = .ok (some w')) :
    Inv w' := by
  obtain ⟨p, rest, hrest, hw⟩ := handOut_cases e
  cases hw
  refine hi.moves (n := ⟨{ a with memVec := rest }, .idle⟩) (b := w.base) (o := p :: w.outstanding)
    hm hi.numbered rfl (hok.idle rfl rfl) fun q => ?_
  have hq := hheld q
  rw [hrest] at hq
  simp only [Member.held, List.count_append, List.count_cons, List.count_nil] at hq ⊢
  omega

theorem Inv.malloc (hm : w.members[i]? = some ⟨a, .idle⟩)
    (e : w.malloc debug i a = .ok (some w')) : Inv w' := by
  have hok := hi.members _ (List.mem_of_getElem? hm)
  unfold World.malloc at e
  split at e
  · exact hi.handOut hm (fun p => rfl) hok e
  · rename_i hmem
    split at e
    · -- from `free_vec`
      refine hi.handOut hm (a := a.refillFromFreeVec) (fun p => ?_) (hok.idle rfl rfl) e
      have hsplit := congrArg (List.count p) (List.take_append_drop
        (a.freeVec.length - min a.freeVec.length a.memVecCapacity) a.freeVec)
      rw [List.count_append] at hsplit
      simp only [refillFromFreeVec, Member.held, List.count_append]
      omega
    · -- from the batch allocator
      rename_i hfree
      obtain ⟨⟨base, slots⟩, hbase, e⟩ := bind_eq_ok e
      cases e
      obtain ⟨hnumbered, hmax, hslots, hcount, -⟩ := malloc_ok hi.numbered hbase
      refine hi.moves (n := ⟨a, .refilling slots⟩) (b := base) (o := w.outstanding) hm hnumbered hmax
        ⟨hok.memVecCapacity, hok.refillSz, hok.consume, fun s hs => ?_⟩ fun p => ?_
      · cases hs
        exact ⟨not_not.1 hmem, not_not.1 hfree, hslots⟩
      · have hp := hcount p
        simp only [Member.held, List.count_append]
        omega

theorem Inv.free (hm : w.members[i]? = some ⟨a, .idle⟩) (hp : p ∈ w.outstanding) :
    Inv (w.free i a p) := by
  have hok := hi.members _ (List.mem_of_getElem? hm)
  have herase : ∀ q, (w.outstanding.erase p).count q + [p].count q = w.outstanding.count q := by
    intro q
    rw [(List.perm_cons_erase hp).count_eq q, ← List.count_append]
    have hcomm : (w.outstanding.erase p ++ [p]).Perm ([p] ++ w.outstanding.erase p) :=
      List.perm_append_comm
    exact hcomm.count_eq q
  unfold World.free
  split
  · split
    · split
      · rename_i hempty
        refine hi.moves (n := ⟨a.refillFreeVec p, .idle⟩) (b := w.base)
          (o := w.outstanding.erase p) hm hi.numbered rfl (hok.idle rfl rfl) fun q => ?_
        have := herase q
        simp only [Member.held, refillFreeVec, List.count_append, hempty,
          List.count_nil]
        omega
      · refine hi.moves (n := ⟨a, .flushed p⟩) (b := w.base.free a.freeVec)
          (o := w.outstanding.erase p) hm ⟨hi.numbered.names, hi.numbered.bounded, hi.numbered.cap⟩
          rfl ⟨hok.memVecCapacity, hok.refillSz, hok.consume, fun slots hs => by cases hs⟩
          fun q => ?_
        have := herase q
        simp only [Member.held, BatchAllocator.free, List.count_append]
        omega
    · refine hi.moves (n := ⟨{ a with freeVec := a.freeVec ++ [p] }, .idle⟩) (b := w.base)
        (o := w.outstanding.erase p) hm hi.numbered rfl (hok.idle rfl rfl) fun q => ?_
      have := herase q
      simp only [Member.held, List.count_append]
      omega
  · refine hi.moves (n := ⟨{ a with memVec := a.memVec ++ [p] }, .idle⟩) (b := w.base)
      (o := w.outstanding.erase p) hm hi.numbered rfl (hok.idle rfl rfl) fun q => ?_
    have := herase q
    simp only [Member.held, List.count_append]
    omega

/-- The end of a call of `malloc` that asked the batch allocator: it fails if and only if no slot was
filled. -/
theorem finish_malloc
    (hm : w.members[i]? = some ⟨a, .refilling slots⟩) (e : Step debug w (.finish i) w') :
    (slots.filterMap Prod.fst = [] ∧ w' = w.setMember i a .idle) ∨
    (slots.filterMap Prod.fst ≠ [] ∧
      w.handOut i { a with memVec := slots.filterMap Prod.fst } = .ok (some w')) := by
  obtain ⟨hmem, hfree, hslots⟩ :=
    (hi.members _ (List.mem_of_getElem? hm)).refilling slots rfl
  dsimp only at hmem hfree
  unfold Step World.step at e
  simp only [hm, takeSlots_ok hslots, ok_bind, hmem, List.nil_append] at e
  split at e
  · rename_i hnone
    cases e
    refine .inl ⟨hnone, ?_⟩
    rw [hnone, ← hmem]
  · rename_i hsome
    exact .inr ⟨hsome, e⟩

theorem Inv.finish (e : Step debug w (.finish i) w') : Inv w' := by
  cases hm : w.members[i]? with
  | none =>
    unfold Step World.step at e
    simp [hm] at e
  | some m =>
    have hok := hi.members _ (List.mem_of_getElem? hm)
    obtain ⟨a, phase⟩ := m
    cases phase with
    | idle =>
      unfold Step World.step at e
      simp [hm] at e
    | refilling slots =>
      obtain ⟨hmem, hfree, -⟩ := hok.refilling slots rfl
      dsimp only at hmem hfree
      rcases finish_malloc hi hm e with ⟨hnone, rfl⟩ | ⟨-, e⟩
      · refine hi.moves (n := ⟨a, .idle⟩) (b := w.base) (o := w.outstanding) hm hi.numbered rfl
          (hok.idle rfl rfl) fun p => ?_
        simp only [Member.held, hnone, List.append_nil]
      · refine hi.handOut (a := { a with memVec := slots.filterMap Prod.fst }) hm (fun p => ?_)
          (hok.idle rfl rfl) e
        simp only [Member.held, hmem, hfree, List.nil_append, List.append_nil]
    | flushed p =>
      unfold Step World.step at e
      simp only [hm] at e
      cases e
      exact hi.moves (n := ⟨a.refillFreeVec p, .idle⟩) (b := w.base) (o := w.outstanding) hm
        hi.numbered rfl (hok.idle rfl rfl) fun q => rfl

theorem Inv.step {ev : Event} (e : Step debug w ev w') : Inv w' := by
  cases ev with
  | malloc i =>
    unfold Step World.step at e
    dsimp only at e
    split at e
    · rename_i a hm
      exact hi.malloc hm e
    · cases e
  | free i p =>
    unfold Step World.step at e
    dsimp only at e
    split at e
    · rename_i a hm
      split at e
      · rename_i hp
        cases e
        exact hi.free hm hp
      · cases e
    · cases e
  | finish i => exact hi.finish e

theorem Inv.returns (ev : Event) : ∃ o, w.step debug ev = .ok o := by
  have hback : ∀ i a, a.memVec ≠ [] → ∃ o, w.handOut i a = .ok o := by
    intro i a hne
    obtain ⟨p, hp⟩ := Option.ne_none_iff_exists'.1 (fun h => hne (List.getLast?_eq_none_iff.1 h))
    exact ⟨_, by rw [World.handOut, AffinedAllocator.popBack, hp]; rfl⟩
  cases ev with
  | malloc i =>
    unfold World.step
    dsimp only
    split
    · rename_i a hm
      have hok := hi.members _ (List.mem_of_getElem? hm)
      unfold World.malloc
      split
      · rename_i hne
        exact hback _ _ hne
      · split
        · rename_i hne
          apply hback
          have hlen := List.length_pos_iff.2 hne
          have hcap : 1 ≤ a.memVecCapacity := hok.memVecCapacity
          apply List.ne_nil_of_length_pos
          simp only [refillFromFreeVec, List.length_append, List.length_drop]
          omega
        · have hroom : ¬ (debug = true ∧ a.refillSz > w.base.maxConsumePerLoad) :=
            fun h => Nat.not_lt.2 hok.consume h.2
          exact ⟨_, by rw [BatchAllocator.malloc, if_neg hroom]; rfl⟩
    · exact ⟨_, rfl⟩
  | free i p =>
    unfold World.step
    dsimp only
    split
    · split <;> exact ⟨_, rfl⟩
    · exact ⟨_, rfl⟩
  | finish i =>
    unfold World.step
    dsimp only
    split
    · rename_i a slots hm
      obtain ⟨-, -, hslots⟩ := (hi.members _ (List.mem_of_getElem? hm)).refilling slots rfl
      rw [takeSlots_ok hslots, ok_bind]
      split
      · exact ⟨_, rfl⟩
      · rename_i hne
        exact hback _ _ hne
    · exact ⟨_, rfl⟩
    · exact ⟨_, rfl⟩

/-! ## Runs -/

theorem Inv.refused (e : Step debug w (.malloc i) w')
    (hm : w'.members[i]? = some ⟨a, .refilling slots⟩) (hnone : slots.filterMap Prod.fst = []) :
    a.memVec = [] ∧ a.freeVec = [] ∧ w.base.memQueue = [] ∧
      w.base.memreferenceQueue.length = w.base.memQueueCap := by
  unfold Step World.step at e
  dsimp only at e
  split at e
  case h_2 => cases e
  rename_i a0 h0
  have hlt : i < w.members.length := (List.getElem?_eq_some_iff.1 h0).1
  have hok := hi.members _ (List.mem_of_getElem? h0)
  have hhand : ∀ a1, w.handOut i a1 = .ok (some w') → False := by
    intro a1 e
    obtain ⟨p, rest, -, hw⟩ := handOut_cases e
    cases hw
    simp [World.setMember, hlt] at hm
  unfold World.malloc at e
  split at e
  · exact (hhand _ e).elim
  · rename_i hmem
    split at e
    · exact (hhand _ e).elim
    · rename_i hfree
      obtain ⟨⟨base, slots0⟩, hbase, e⟩ := bind_eq_ok e
      cases e
      obtain ⟨rfl, rfl⟩ : a0 = a ∧ slots0 = slots := by
        simpa [World.setMember, hlt] using hm
      obtain ⟨-, -, -, -, hfail⟩ := malloc_ok hi.numbered hbase
      exact ⟨not_not.1 hmem, not_not.1 hfree, hfail hnone hok.refillSz⟩

end

def Member.granted (m : Member) : List Nat :=
  match m.phase with
  | .idle => []
  | .refilling slots => slots.filterMap Prod.fst
  | .flushed _ => []

/-- The vectors keep to their capacities, `mem_vec` also while a call of `malloc` refills it. -/
structure Member.Bounded (m : Member) : Prop where
  memVec : m.allocator.memVec.length + m.granted.length ≤ m.allocator.memVecCapacity
  freeVec : m.allocator.freeVec.length ≤ m.allocator.freeVecCapacity
  hoard : m.held.length ≤ m.allocator.memVecCapacity + m.allocator.freeVecCapacity

/-- What a member satisfies whose refills fit `mem_vec`. -/
structure Member.Snug (m : Member) : Prop where
  refill : m.allocator.refillSz ≤ m.allocator.memVecCapacity
  free : 1 ≤ m.allocator.freeVecCapacity
  bounded : m.Bounded

theorem malloc_granted (e : b.malloc debug n = .ok (b', slots)) :
    (slots.filterMap Prod.fst).length ≤ n := by
  unfold BatchAllocator.malloc at e
  split at e
  · cases e
  · cases e
    rw [filterMap_slots, List.length_drop]
    omega

theorem Member.Snug.idle (h : m.Snug) (hr : a.refillSz = m.allocator.refillSz)
    (hm : a.memVecCapacity = m.allocator.memVecCapacity)
    (hf : a.freeVecCapacity = m.allocator.freeVecCapacity)
    (hmem : a.memVec.length ≤ m.allocator.memVecCapacity)
    (hfree : a.freeVec.length ≤ m.allocator.freeVecCapacity) : Member.Snug ⟨a, .idle⟩ := by
  have hrefill := h.refill
  have hone := h.free
  refine ⟨?_, ?_, ?_, ?_, ?_⟩
  · rwa [hr, hm]
  · rwa [hf]
  · rw [hm]
    exact hmem
  · rw [hf]
    exact hfree
  · rw [hm, hf]
    simp only [Member.held, List.length_append]
    omega

section

variable (h : ∀ m ∈ w.members, m.Snug)

include h

theorem snug_set {o : List Nat} {n : Member} (hn : n.Snug) :
    ∀ m ∈ (World.mk b (w.members.set i n) o).members, m.Snug := forall_mem_set h hn

theorem snug_handOut (ha : Member.Snug ⟨a, .idle⟩)
    (e : w.handOut i a = .ok (some w')) : ∀ m ∈ w'.members, m.Snug := by
  obtain ⟨p, rest, hrest, hw⟩ := handOut_cases e
  cases hw
  have hmem := ha.bounded.memVec
  apply snug_set h
  refine ha.idle rfl rfl rfl ?_ ha.bounded.freeVec
  simp only [hrest, List.length_append] at hmem
  dsimp only
  omega

theorem snug_malloc (hm : w.members[i]? = some ⟨a, .idle⟩)
    (e : w.malloc debug i a = .ok (some w')) : ∀ m ∈ w'.members, m.Snug := by
  have ha := h _ (List.mem_of_getElem? hm)
  have hfree : a.freeVec.length ≤ a.freeVecCapacity := ha.bounded.freeVec
  unfold World.malloc at e
  split at e
  · exact snug_handOut h ha e
  · rename_i hmem
    rw [not_not] at hmem
    split at e
    · -- at most `mem_vec_capacity` blocks of `free_vec` are moved to the empty `mem_vec`
      refine snug_handOut h (ha.idle (a := a.refillFromFreeVec) rfl rfl rfl ?_ ?_) e
      · simp only [refillFromFreeVec, hmem, List.nil_append, List.length_drop]
        omega
      · simp only [refillFromFreeVec, List.length_take]
        omega
    · obtain ⟨⟨base, slots⟩, hbase, e⟩ := bind_eq_ok e
      cases e
      have hslots := malloc_granted hbase
      have hrefill : a.refillSz ≤ a.memVecCapacity := ha.refill
      refine snug_set h ⟨hrefill, ha.free, ?_, hfree, ?_⟩
      · simp only [Member.granted, hmem, List.length_nil]
        omega
      · simp only [Member.held, hmem, List.nil_append, List.length_append]
        omega

theorem snug_free (hm : w.members[i]? = some ⟨a, .idle⟩) :
    ∀ m ∈ (w.free i a p).members, m.Snug := by
  have ha := h _ (List.mem_of_getElem? hm)
  have hmem : a.memVec.length ≤ a.memVecCapacity := ha.bounded.memVec
  have hfree : a.freeVec.length ≤ a.freeVecCapacity := ha.bounded.freeVec
  have hone : 1 ≤ a.freeVecCapacity := ha.free
  unfold World.free
  by_cases hfull : a.memVec.length = a.memVecCapacity
  · rw [if_pos hfull]
    by_cases hfull' : a.freeVec.length = a.freeVecCapacity
    · rw [if_pos hfull']
      by_cases hempty : a.freeVec = []
      · rw [if_pos hempty]
        apply snug_set h
        exact ha.idle rfl rfl rfl hmem hone
      · rw [if_neg hempty]
        refine snug_set h ⟨ha.refill, ha.free, ha.bounded.memVec, hfree, ?_⟩
        simp only [Member.held, List.length_append, List.length_singleton]
        omega
    · rw [if_neg hfull']
      apply snug_set h
      refine ha.idle rfl rfl rfl hmem ?_
      simp only [List.length_append, List.length_singleton]
      omega
  · rw [if_neg hfull]
    apply snug_set h
    refine ha.idle rfl rfl rfl ?_ hfree
    simp only [List.length_append, List.length_singleton]
    omega

end

theorem snug_finish (hi : Inv w) (h : ∀ m ∈ w.members, m.Snug) (e : Step debug w (.finish i) w') :
    ∀ m ∈ w'.members, m.Snug := by
  cases hm : w.members[i]? with
  | none =>
    unfold Step World.step at e
    simp [hm] at e
  | some m =>
    have ha := h _ (List.mem_of_getElem? hm)
    obtain ⟨a, phase⟩ := m
    have hfree : a.freeVec.length ≤ a.freeVecCapacity := ha.bounded.freeVec
    cases phase with
    | idle =>
      unfold Step World.step at e
      simp [hm] at e
    | refilling slots =>
      have hgranted : a.memVec.length + (slots.filterMap Prod.fst).length ≤ a.memVecCapacity :=
        ha.bounded.memVec
      rcases finish_malloc hi hm e with ⟨-, rfl⟩ | ⟨-, e⟩
      · apply snug_set h
        exact ha.idle rfl rfl rfl (by dsimp only; omega) hfree
      · refine snug_handOut h (ha.idle (a := { a with memVec := slots.filterMap Prod.fst })
          rfl rfl rfl ?_ hfree) e
        dsimp only
        omega
    | flushed p =>
      unfold Step World.step at e
      simp only [hm] at e
      cases e
      apply snug_set h
      exact ha.idle rfl rfl rfl ha.bounded.memVec ha.free

theorem snug_step {ev : Event} (hi : Inv w) (h : ∀ m ∈ w.members, m.Snug)
    (e : Step debug w ev w') : ∀ m ∈ w'.members, m.Snug := by
  cases ev with
  | malloc i =>
    unfold Step World.step at e
    dsimp only at e
    split at e
    · rename_i a hm
      exact snug_malloc h hm e
    · cases e
  | free i p =>
    unfold Step World.step at e
    dsimp only at e
    split at e
    · rename_i a hm
      split at e
      · cases e
        exact snug_free h hm
      · cases e
    · cases e
  | finish i => exact snug_finish hi h e

theorem snug_of_fresh (h : Fresh w)
    (hrefill : ∀ m ∈ w.members, m.allocator.refillSz ≤ m.allocator.memVecCapacity) :
    ∀ m ∈ w.members, m.Snug := by
  intro m hm
  obtain ⟨hp, _, _, _, hmade⟩ := h.2.1 m hm
  obtain ⟨-, -, hfree, ha⟩ := makeAffinedAllocator_ok hmade
  have hr := hrefill m hm
  obtain ⟨a, phase⟩ := m
  subst hp ha
  exact ⟨hr, hfree, Nat.zero_le _, Nat.zero_le _, Nat.zero_le _⟩

theorem malloc_first (hq : b.memQueue = []) (hr : b.memreferenceQueue = []) (hn : n ≤ b.memQueueCap)
    (hcap : b.memQueueCap < 2 ^ 64) (hmax : n ≤ b.maxConsumePerLoad) :
    ∃ b' slots, b.malloc debug n = .ok (b', slots) ∧ (slots.filterMap Prod.fst).length = n := by
  unfold BatchAllocator.malloc
  rw [if_neg (fun h => Nat.not_lt.2 hmax h.2)]
  refine ⟨_, _, rfl, ?_⟩
  have hsub : subT b.memQueueCap 0 = b.memQueueCap := subT_of_le (Nat.zero_le _) hcap
  rw [filterMap_slots, noexceptAllocate_eq, hq, hr]
  simp only [List.nil_append, List.length_drop, List.length_range', List.length_nil, hsub]
  omega

/-- The first call of `malloc` refills `mem_vec` with a whole refill. -/
theorem first_malloc (h : Fresh w) (hm : w.members[i]? = some m) :
    ∃ w' m', Step debug w (.malloc i) w' ∧ m' ∈ w'.members ∧ m'.allocator = m.allocator ∧
      m'.granted.length = m.allocator.refillSz := by
  obtain ⟨⟨count, sz, decay, hb⟩, hfresh, -⟩ := h
  obtain ⟨hone, hcount, hbase⟩ := makeBatchAllocator_ok hb
  obtain ⟨hp, refillSz, memCap, freeCap, hmade⟩ := hfresh m (List.mem_of_getElem? hm)
  obtain ⟨-, -, -, ha⟩ := makeAffinedAllocator_ok hmade
  obtain ⟨a, phase⟩ := m
  dsimp only at hp ha
  subst hp
  have hmax : a.refillSz ≤ w.base.maxConsumePerLoad := by
    rw [ha]
    exact Nat.min_le_right _ _
  have hconsume : w.base.maxConsumePerLoad ≤ count := by
    rw [hbase]
    exact Nat.max_le.2 ⟨hone, Nat.shiftRight_le count decay⟩
  have hcap : w.base.memQueueCap = count := by rw [hbase]
  obtain ⟨b', slots, e, hlen⟩ : ∃ b' slots, w.base.malloc debug a.refillSz = .ok (b', slots) ∧
      (slots.filterMap Prod.fst).length = a.refillSz :=
    malloc_first (by rw [hbase]) (by rw [hbase]) (by omega) (by omega) hmax
  refine ⟨{ w.setMember i a (.refilling slots) with base := b' }, ⟨a, .refilling slots⟩, ?_, ?_, rfl, hlen⟩
  · have hmem : ¬ a.memVec ≠ [] := by simp [ha]
    have hfree : ¬ a.freeVec ≠ [] := by simp [ha]
    unfold Step World.step
    simp only [hm, World.malloc, if_neg hmem, if_neg hfree, e, ok_bind]
  · exact List.mem_set (List.getElem?_eq_some_iff.1 hm).1 _

/-- **The vectors keep to their capacities** in all runs of a pool if and only if no refill asks for
more than its `mem_vec` may hold. -/
theorem vectors_bounded {w₀ : World} (h : Fresh w₀) :
    (∀ w hist, Reach (fun w => w = w₀) (Step debug) w hist → ∀ m ∈ w.members, m.Bounded) ↔
      ∀ m ∈ w₀.members, m.allocator.refillSz ≤ m.allocator.memVecCapacity := by
  constructor
  · intro hall m hm
    obtain ⟨i, hi⟩ := List.mem_iff_getElem?.1 hm
    obtain ⟨w, m', e, hm', ha, hlen⟩ : ∃ w m', Step debug w₀ (.malloc i) w ∧ m' ∈ w.members ∧
        m'.allocator = m.allocator ∧ m'.granted.length = m.allocator.refillSz := first_malloc h hi
    have hmem := (hall w _ (.step (.init rfl) e) m' hm').memVec
    rw [ha, hlen] at hmem
    omega
  · intro hrefill w hist hreach
    have hinv : Inv w ∧ ∀ m ∈ w.members, m.Snug :=
      hreach.inv (fun w _ => Inv w ∧ ∀ m ∈ w.members, m.Snug)
        (fun w hw => hw ▸ ⟨.of_fresh h, snug_of_fresh h hrefill⟩)
        fun _ _ _ _ hi e => ⟨hi.1.step e, snug_step hi.1 hi.2 e⟩
    exact fun m hm => (hinv.2 m hm).bounded

/-- A pool of 64 blocks with one affined allocator, whose vectors may hold one block each. -/
def samplePool (refillSz : Nat) : World :=
  ⟨⟨[], [], 64, 64, 4⟩, [⟨⟨refillSz, [], 1, [], 1⟩, .idle⟩], []⟩

theorem samplePool_fresh {refillSz : Nat} (h : 1 ≤ refillSz ∧ refillSz ≤ 4) :
    Fresh (samplePool refillSz) := by
  have hbase : makeBatchAllocator 64 64 4 = .ok ⟨[], [], 64, 64, 4⟩ := by decide +kernel
  refine ⟨⟨64, 64, 4, hbase⟩, fun m hm => ?_, rfl⟩
  obtain rfl := List.mem_singleton.1 hm
  refine ⟨rfl, refillSz, 1, 1, ?_⟩
  have hmin : min refillSz 4 = refillSz := Nat.min_eq_left h.2
  unfold makeAffinedAllocator
  rw [if_neg (by omega), if_neg (by omega), if_neg (by omega)]
  simp only [samplePool, hmin]

theorem vectors_bounded_sample :
    ¬ ∃ w hist, Reach (fun w => w = samplePool 1) (Step true) w hist ∧ ∃ m ∈ w.members, ¬ m.Bounded := by
  intro h
  obtain ⟨w, hist, hreach, m, hm, hbad⟩ := h
  refine hbad ((vectors_bounded (samplePool_fresh (by decide))).2 (fun m hm => ?_) w hist hreach m hm)
  obtain rfl := List.mem_singleton.1 hm
  exact Nat.le_refl 1

/-- After one call of `malloc` the allocator keeps three blocks where two are allowed. -/
theorem vectors_overrun : ∃ w₀ w hist, Fresh w₀ ∧ Reach (fun w => w = w₀) (Step true) w hist ∧
    ∃ m ∈ w.members, m.phase = .idle ∧ m.allocator.memVec.length = 3 ∧
      m.allocator.memVecCapacity = 1 ∧ m.allocator.freeVecCapacity = 1 := by
  have hrun : [Event.malloc 0, .finish 0].foldlM (fun w e => ofStep (w.step true e)) (samplePool 4) =
      some ⟨⟨[0, 1, 2, 3], [], 64, 64, 4⟩, [⟨⟨4, [0, 1, 2], 1, [], 1⟩, .idle⟩], [3]⟩ := by
    decide +kernel
  have hinit : Reach (fun w => w = samplePool 4) (Step true) (samplePool 4) [] := .init rfl
  exact ⟨samplePool 4, _, _, samplePool_fresh (by decide), hinit.runM id hrun, _,
    List.mem_singleton_self _, rfl, rfl, rfl, rfl⟩

end KernelAllocator
