import NeuralNetwork.SmartPointer.SmartPointer

/-!
# Who owns what

`Shape` says how pointers and objects lie in the heap, `Counted` that counters and lifetimes follow
the owners. Both hold in the middle of a cascade of destructors: `Z` are the pointers whose release
is under way, which count no longer, `D` the objects whose destructor is under way. One lemma for
each write the code makes.
-/

namespace SmartPointer

open Heap

/-- A member pointer lives as long as its object, or until its turn in the object's destructor. -/
structure Shape (h : Heap) (D : List Nat) : Prop where
  ptrBound : ∀ p, (h.ptr p).alive → p < h.ptrs
  objBound : ∀ o, (h.obj o).alive → o < h.objs
  member : ∀ p < h.ptrs, ∀ o, (h.ptr p).home = some o → o < h.objs ∧ p ∈ (h.obj o).members
  homed : ∀ o < h.objs, ∀ p ∈ (h.obj o).members, p < h.ptrs ∧ (h.ptr p).home = some o
  nodup : ∀ o < h.objs, (h.obj o).members.Nodup
  memberAlive : ∀ p < h.ptrs, ∀ o, (h.ptr p).home = some o → (h.obj o).alive → (h.ptr p).alive
  memberDead : ∀ p o, (h.ptr p).home = some o → (h.ptr p).alive → (h.obj o).alive ∨ o ∈ D
  dying : ∀ o ∈ D, ¬ (h.obj o).alive
  log : h.destroyed.Nodup ∧ ∀ o, o ∈ h.destroyed ↔ o < h.objs ∧ ¬ (h.obj o).alive

/-- The counter of a shared object and the one owner of a unique one. -/
def Count (obj : Object) (n : Nat) : Prop :=
  match obj.kind with
  | .shared => obj.counter = n
  | .unique => n = 1

theorem count_shared {obj : Object} {n : Nat} (hk : obj.kind = .shared) :
    Count obj n ↔ obj.counter = n := by
  rw [Count, hk]

theorem count_unique {obj : Object} {n : Nat} (hk : obj.kind = .unique) :
    Count obj n ↔ n = 1 := by
  rw [Count, hk]

structure Counted (h : Heap) (Z : List Nat) : Prop where
  owned : ∀ o, (h.obj o).alive → 0 < (h.owners Z o).card ∧ Count (h.obj o) (h.owners Z o).card
  unowned : ∀ o, ¬ (h.obj o).alive → h.owners Z o = ∅
  kinds : ∀ p o, p ∈ h.owners Z o → (h.obj o).kind = (h.ptr p).kind

/-- The state between two operations. -/
structure WellFormed (h : Heap) : Prop where
  shape : Shape h []
  counted : Counted h []

/-! ## Owners -/

variable {h h' : Heap} {Z D : List Nat} {p q o : Nat}

theorem mem_owners :
    p ∈ h.owners Z o ↔
      p < h.ptrs ∧ (h.ptr p).alive ∧ p ∉ Z ∧ (h.ptr p).obj = some o := by
  rw [owners, Finset.mem_filter, Finset.mem_range]

theorem Shape.mem_owners (hs : Shape h D) :
    p ∈ h.owners Z o ↔ (h.ptr p).alive ∧ p ∉ Z ∧ (h.ptr p).obj = some o := by
  rw [SmartPointer.mem_owners]
  exact ⟨fun hp => hp.2, fun hp => ⟨hs.ptrBound p hp.1, hp⟩⟩

theorem owner_alive (hc : Counted h Z) (hp : p ∈ h.owners Z o) : (h.obj o).alive := by
  by_contra hn
  rw [hc.unowned o hn] at hp
  exact absurd hp (Finset.notMem_empty p)

theorem owners_cons : h.owners (p :: Z) o = (h.owners Z o).erase p := by
  ext q
  simp only [mem_owners, Finset.mem_erase, List.mem_cons, not_or]
  tauto

theorem owners_cons_of_not_mem (hp : p ∉ h.owners Z o) : h.owners (p :: Z) o = h.owners Z o := by
  rw [owners_cons, Finset.erase_eq_of_notMem hp]

theorem not_mem_of_ne {o' : Nat} (hp : p ∈ h.owners Z o) (hne : o' ≠ o) : p ∉ h.owners Z o' := by
  intro hm
  obtain ⟨-, -, -, he⟩ := mem_owners.1 hp
  obtain ⟨-, -, -, he'⟩ := mem_owners.1 hm
  rw [he] at he'
  exact hne (Option.some.inj he').symm

@[simp] theorem owners_setCounter (n : Nat) : (h.setCounter q n).owners Z o = h.owners Z o := rfl

/-! ## Writes to a pointer -/

@[simp] theorem setOwned_same (x : Option Nat) :
    (h.setOwned p x).ptr p = { h.ptr p with obj := x } :=
  Function.update_self ..

theorem setOwned_other (x : Option Nat) (hne : q ≠ p) : (h.setOwned p x).ptr q = h.ptr q :=
  Function.update_of_ne hne ..

@[simp] theorem setOwned_alive (x : Option Nat) :
    ((h.setOwned p x).ptr q).alive = (h.ptr q).alive := by
  by_cases hq : q = p
  · rw [hq, setOwned_same]
  · rw [setOwned_other x hq]

@[simp] theorem setOwned_home (x : Option Nat) :
    ((h.setOwned p x).ptr q).home = (h.ptr q).home := by
  by_cases hq : q = p
  · rw [hq, setOwned_same]
  · rw [setOwned_other x hq]

@[simp] theorem setOwned_kind (x : Option Nat) :
    ((h.setOwned p x).ptr q).kind = (h.ptr q).kind := by
  by_cases hq : q = p
  · rw [hq, setOwned_same]
  · rw [setOwned_other x hq]

@[simp] theorem endLife_same : (h.endLife p).ptr p = { h.ptr p with alive := false } :=
  Function.update_self ..

theorem endLife_other (hne : q ≠ p) : (h.endLife p).ptr q = h.ptr q :=
  Function.update_of_ne hne ..

@[simp] theorem endLife_home : ((h.endLife p).ptr q).home = (h.ptr q).home := by
  by_cases hq : q = p
  · rw [hq, endLife_same]
  · rw [endLife_other hq]

theorem endLife_alive (hq : ((h.endLife p).ptr q).alive) : q ≠ p ∧ (h.ptr q).alive := by
  by_cases he : q = p
  · rw [he, endLife_same] at hq
    cases hq
  · exact ⟨he, by rwa [endLife_other he] at hq⟩

/-- A released pointer is no owner, whether it still counts as under release or not. -/
theorem owners_setNull : (h.setOwned p none).owners Z o = h.owners (p :: Z) o := by
  ext q
  simp only [mem_owners, setOwned_alive, List.mem_cons, not_or]
  by_cases hq : q = p
  · simp [hq]
  · simp [hq, setOwned]

theorem owners_setOwned {o' : Nat} (ho : (h.ptr p).obj = none) (hp : (h.ptr p).alive)
    (hb : p < h.ptrs) (hz : p ∉ Z) :
    (h.setOwned p (some o)).owners Z o' =
      if o' = o then insert p (h.owners Z o') else h.owners Z o' := by
  ext q
  by_cases hq : q = p
  · subst hq
    by_cases he : o' = o
    · simp [mem_owners, setOwned, he, hp, hb, hz]
    · simp [mem_owners, setOwned, he, ho, Ne.symm he]
  · have hm : q ∈ (h.setOwned p (some o)).owners Z o' ↔ q ∈ h.owners Z o' := by
      simp [mem_owners, setOwned, hq]
    rw [hm]
    split
    · simp [hq]
    · rfl

theorem owners_endLife (ho : (h.ptr p).obj = none) : (h.endLife p).owners Z o = h.owners Z o := by
  ext q
  by_cases hq : q = p
  · subst hq
    simp [mem_owners, endLife, ho]
  · simp [mem_owners, endLife, hq]

/-! ## Shape -/

theorem Shape.congr (hs : Shape h D) (hn : h'.ptrs = h.ptrs) (hm : h'.objs = h.objs)
    (hd : h'.destroyed = h.destroyed)
    (hp : ∀ p, (h'.ptr p).alive = (h.ptr p).alive ∧ (h'.ptr p).home = (h.ptr p).home)
    (ho : ∀ o, (h'.obj o).alive = (h.obj o).alive ∧ (h'.obj o).members = (h.obj o).members) :
    Shape h' D where
  ptrBound p ha := by
    rw [hn]
    exact hs.ptrBound p (by rwa [(hp p).1] at ha)
  objBound o ha := by
    rw [hm]
    exact hs.objBound o (by rwa [(ho o).1] at ha)
  member p hb o he := by
    rw [hm, (ho o).2]
    exact hs.member p (hn ▸ hb) o (by rwa [(hp p).2] at he)
  homed o hb p he := by
    rw [hn, (hp p).2]
    exact hs.homed o (hm ▸ hb) p (by rwa [(ho o).2] at he)
  nodup o hb := by
    rw [(ho o).2]
    exact hs.nodup o (hm ▸ hb)
  memberAlive p hb o he ha := by
    rw [(hp p).1]
    exact hs.memberAlive p (hn ▸ hb) o (by rwa [(hp p).2] at he) (by rwa [(ho o).1] at ha)
  memberDead p o he ha := by
    rw [(ho o).1]
    exact hs.memberDead p o (by rwa [(hp p).2] at he) (by rwa [(hp p).1] at ha)
  dying o hd := by
    rw [(ho o).1]
    exact hs.dying o hd
  log := by
    rw [hd]
    refine ⟨hs.log.1, fun o => ?_⟩
    rw [hm, (ho o).1]
    exact hs.log.2 o

theorem Shape.setOwned (hs : Shape h D) (x : Option Nat) : Shape (h.setOwned p x) D :=
  hs.congr rfl rfl rfl (fun _ => ⟨setOwned_alive x, setOwned_home x⟩) fun _ => ⟨rfl, rfl⟩

variable {x : Object}

theorem setObject_static {h : Heap} {o : Nat} (ha : x.alive = (h.obj o).alive)
    (hm : x.members = (h.obj o).members) (o' : Nat) :
    (Function.update h.obj o x o').alive = (h.obj o').alive ∧
      (Function.update h.obj o x o').members = (h.obj o').members := by
  by_cases he : o' = o
  · rw [he, Function.update_self]
    exact ⟨ha, hm⟩
  · rw [Function.update_of_ne he]
    exact ⟨rfl, rfl⟩

@[simp] theorem setCounter_alive (n : Nat) :
    ((h.setCounter o n).obj q).alive = (h.obj q).alive :=
  (setObject_static (h := h) (x := { h.obj o with counter := n }) rfl rfl q).1

@[simp] theorem setCounter_members (n : Nat) :
    ((h.setCounter o n).obj q).members = (h.obj q).members :=
  (setObject_static (h := h) (x := { h.obj o with counter := n }) rfl rfl q).2

theorem Shape.setCounter (hs : Shape h D) (n : Nat) : Shape (h.setCounter o n) D :=
  hs.congr rfl rfl rfl (fun _ => ⟨rfl, rfl⟩) fun _ => ⟨setCounter_alive n, setCounter_members n⟩

@[simp] theorem markDestroyed_members :
    ((h.markDestroyed o).obj q).members = (h.obj q).members := by
  by_cases he : q = o
  · simp [he, markDestroyed]
  · simp [he, markDestroyed]

theorem markDestroyed_alive : ((h.markDestroyed o).obj q).alive ↔ q ≠ o ∧ (h.obj q).alive := by
  by_cases he : q = o
  · simp [he, markDestroyed]
  · simp [he, markDestroyed]

theorem Shape.markDestroyed (hs : Shape h D) (ho : (h.obj o).alive) :
    Shape (h.markDestroyed o) (o :: D) where
  ptrBound := hs.ptrBound
  objBound q ha := hs.objBound q (markDestroyed_alive.1 ha).2
  member p hb q he := by
    rw [markDestroyed_members]
    exact hs.member p hb q he
  homed q hb p he := hs.homed q hb p (by rwa [markDestroyed_members] at he)
  nodup q hb := by
    rw [markDestroyed_members]
    exact hs.nodup q hb
  memberAlive p hb q he ha := hs.memberAlive p hb q he (markDestroyed_alive.1 ha).2
  memberDead p q he ha := by
    rw [markDestroyed_alive, List.mem_cons]
    by_cases hq : q = o
    · exact .inr (.inl hq)
    · exact (hs.memberDead p q he ha).imp (fun ha => ⟨hq, ha⟩) .inr
  dying q hd ha := by
    obtain ⟨hne, ha⟩ := markDestroyed_alive.1 ha
    exact hs.dying q ((List.mem_cons.1 hd).resolve_left hne) ha
  log := by
    have hnew : o ∉ h.destroyed := fun hm => ((hs.log.2 o).1 hm).2 ho
    refine ⟨List.nodup_append.2 ⟨hs.log.1, List.nodup_singleton o, ?_⟩, fun q => ?_⟩
    · intro a ha b hb he
      rw [he, List.mem_singleton.1 hb] at ha
      exact hnew ha
    · simp only [Heap.markDestroyed, List.mem_append, List.mem_singleton, hs.log.2 q]
      by_cases hq : q = o
      · simp [hq, hs.objBound o ho]
      · simp [hq]

theorem Shape.endLife (hs : Shape h D) (hp : ∀ o, (h.ptr p).home = some o → ¬ (h.obj o).alive) :
    Shape (h.endLife p) D where
  __ := hs
  ptrBound q ha := hs.ptrBound q (endLife_alive ha).2
  member _ hb o he := hs.member _ hb o (by rwa [endLife_home] at he)
  homed o hb _ he := by
    rw [endLife_home]
    exact hs.homed o hb _ he
  memberAlive q hb o he ha := by
    rw [endLife_home] at he
    by_cases hq : q = p
    · exact absurd ha (hp o (hq ▸ he))
    · rw [endLife_other hq]
      exact hs.memberAlive q hb o he ha
  memberDead q o he ha := hs.memberDead q o (by rwa [endLife_home] at he) (endLife_alive ha).2

theorem Shape.finish (hs : Shape h (o :: D))
    (ho : ∀ p, (h.ptr p).home = some o → ¬ (h.ptr p).alive) : Shape h D where
  __ := hs
  memberDead p q he ha := by
    refine (hs.memberDead p q he ha).imp id fun hm => ?_
    refine (List.mem_cons.1 hm).resolve_left fun hq => ?_
    exact ho p (hq ▸ he) ha
  dying q hd := hs.dying q (List.mem_cons_of_mem o hd)

@[simp] theorem newVariable_new (k : Kind) (x : Option Nat) :
    (h.newVariable k x).ptr h.ptrs = { kind := k, obj := x, home := none, alive := true } :=
  Function.update_self ..

theorem newVariable_old (k : Kind) (x : Option Nat) (hne : p ≠ h.ptrs) :
    (h.newVariable k x).ptr p = h.ptr p :=
  Function.update_of_ne hne ..

theorem Shape.newVariable (hs : Shape h D) (k : Kind) (x : Option Nat) :
    Shape (h.newVariable k x) D where
  __ := hs
  ptrBound q ha := by
    by_cases hq : q = h.ptrs
    · exact hq ▸ Nat.lt_succ_self _
    · rw [newVariable_old k x hq] at ha
      exact Nat.lt_succ_of_lt (hs.ptrBound q ha)
  member q hb o he := by
    by_cases hq : q = h.ptrs
    · rw [hq, newVariable_new] at he
      cases he
    · rw [newVariable_old k x hq] at he
      exact hs.member q (Nat.lt_of_le_of_ne (Nat.le_of_lt_succ hb) hq) o he
  homed o hb q he := by
    obtain ⟨hlt, hh⟩ := hs.homed o hb q he
    rw [newVariable_old k x (Nat.ne_of_lt hlt)]
    exact ⟨Nat.lt_succ_of_lt hlt, hh⟩
  memberAlive q hb o he ha := by
    by_cases hq : q = h.ptrs
    · rw [hq, newVariable_new]
    · rw [newVariable_old k x hq] at he ⊢
      exact hs.memberAlive q (Nat.lt_of_le_of_ne (Nat.le_of_lt_succ hb) hq) o he ha
  memberDead q o he ha := by
    by_cases hq : q = h.ptrs
    · rw [hq, newVariable_new] at he
      cases he
    · rw [newVariable_old k x hq] at he ha
      exact hs.memberDead q o he ha

/-- A variable made with `x` is a null variable that is then given `x`. -/
theorem newVariable_eq (k : Kind) (x : Option Nat) :
    h.newVariable k x = (h.newVariable k none).setOwned h.ptrs x := by
  simp [newVariable, setOwned]

theorem setOwned_newVariable (k : Kind) (x y : Option Nat) (hne : p ≠ h.ptrs) :
    (h.setOwned p y).newVariable k x = ((h.newVariable k none).setOwned p y).setOwned h.ptrs x := by
  have hn : (h.setOwned p y).ptrs = h.ptrs := rfl
  rw [newVariable_eq, hn]
  simp only [newVariable, setOwned, Function.update_of_ne hne, Function.update_comm hne]

/-! ### A new object -/

theorem allocate_ptr (k : Kind) (ms : List Kind) (p : Nat) :
    (p < h.ptrs ∧ (h.allocate k ms).ptr p = h.ptr p) ∨
    (p = h.ptrs ∧ (h.allocate k ms).ptr p =
      { kind := k, obj := some h.objs, home := none, alive := true }) ∨
    (p ∈ List.range' (h.ptrs + 1) ms.length ∧ ∃ k', (h.allocate k ms).ptr p =
      { kind := k', obj := none, home := some h.objs, alive := true }) ∨
    (h.ptrs + 1 + ms.length ≤ p ∧ (h.allocate k ms).ptr p = h.ptr p) := by
  rw [List.mem_range'_1]
  by_cases hlt : p < h.ptrs
  · exact .inl ⟨hlt, if_pos hlt⟩
  by_cases heq : p = h.ptrs
  · refine .inr (.inl ⟨heq, ?_⟩)
    simp only [allocate, if_neg hlt, if_pos heq]
  by_cases hin : p - (h.ptrs + 1) < ms.length
  · refine .inr (.inr (.inl ⟨by omega, ms[p - (h.ptrs + 1)], ?_⟩))
    simp only [allocate, if_neg hlt, if_neg heq, List.getElem?_eq_getElem hin]
  · refine .inr (.inr (.inr ⟨by omega, ?_⟩))
    simp only [allocate, if_neg hlt, if_neg heq, List.getElem?_eq_none (Nat.le_of_not_lt hin)]

theorem allocate_obj_new (k : Kind) (ms : List Kind) :
    (h.allocate k ms).obj h.objs =
      { kind := k
        members := List.range' (h.ptrs + 1) ms.length
        counter := if k = .shared then 1 else 0
        alive := true } :=
  Function.update_self ..

theorem allocate_obj_old (k : Kind) (ms : List Kind) (hne : o ≠ h.objs) :
    (h.allocate k ms).obj o = h.obj o :=
  Function.update_of_ne hne ..

theorem Shape.dead_ptr (hs : Shape h D) (hp : h.ptrs ≤ p) : ¬ (h.ptr p).alive :=
  fun ha => absurd (hs.ptrBound p ha) (Nat.not_lt.2 hp)

theorem Shape.allocate (hs : Shape h []) (k : Kind) (ms : List Kind) :
    Shape (h.allocate k ms) [] where
  ptrBound p ha := by
    show p < h.ptrs + 1 + ms.length
    obtain ⟨hb, -⟩ | ⟨hb, -⟩ | ⟨hb, -⟩ | ⟨hb, he⟩ := allocate_ptr (h := h) k ms p
    · omega
    · omega
    · exact (List.mem_range'_1.1 hb).2
    · rw [he] at ha
      exact absurd ha (hs.dead_ptr (by omega))
  objBound o ha := by
    by_cases he : o = h.objs
    · exact he ▸ Nat.lt_succ_self _
    · rw [allocate_obj_old k ms he] at ha
      exact Nat.lt_succ_of_lt (hs.objBound o ha)
  member p hb o he := by
    obtain ⟨hlt, hp⟩ | ⟨-, hp⟩ | ⟨hm, k', hp⟩ | ⟨hle, -⟩ := allocate_ptr (h := h) k ms p
    · rw [hp] at he
      obtain ⟨ho, hm⟩ := hs.member p hlt o he
      rw [allocate_obj_old k ms ho.ne]
      exact ⟨Nat.lt_succ_of_lt ho, hm⟩
    · rw [hp] at he
      cases he
    · rw [hp] at he
      cases he
      rw [allocate_obj_new]
      exact ⟨Nat.lt_succ_self _, hm⟩
    · exact absurd hb (Nat.not_lt.2 hle)
  homed o hb p hm := by
    by_cases he : o = h.objs
    · subst he
      rw [allocate_obj_new] at hm
      have hm' := List.mem_range'_1.1 hm
      obtain ⟨hlt, -⟩ | ⟨heq, -⟩ | ⟨-, k', hp⟩ | ⟨hle, -⟩ := allocate_ptr (h := h) k ms p
      · omega
      · omega
      · rw [hp]
        exact ⟨hm'.2, rfl⟩
      · omega
    · rw [allocate_obj_old k ms he] at hm
      obtain ⟨hlt, hh⟩ := hs.homed o (Nat.lt_of_le_of_ne (Nat.le_of_lt_succ hb) he) p hm
      refine ⟨Nat.lt_of_lt_of_le hlt (by show h.ptrs ≤ h.ptrs + 1 + ms.length; omega), ?_⟩
      rwa [show (h.allocate k ms).ptr p = h.ptr p from if_pos hlt]
  nodup o hb := by
    by_cases he : o = h.objs
    · rw [he, allocate_obj_new]
      exact List.nodup_range'
    · rw [allocate_obj_old k ms he]
      exact hs.nodup o (Nat.lt_of_le_of_ne (Nat.le_of_lt_succ hb) he)
  memberAlive p hb o he ha := by
    obtain ⟨hlt, hp⟩ | ⟨-, hp⟩ | ⟨-, k', hp⟩ | ⟨hle, -⟩ := allocate_ptr (h := h) k ms p
    · rw [hp] at he ⊢
      rw [allocate_obj_old k ms (hs.member p hlt o he).1.ne] at ha
      exact hs.memberAlive p hlt o he ha
    · rw [hp]
    · rw [hp]
    · exact absurd hb (Nat.not_lt.2 hle)
  memberDead p o he ha := by
    obtain ⟨hlt, hp⟩ | ⟨-, hp⟩ | ⟨-, k', hp⟩ | ⟨hle, hp⟩ := allocate_ptr (h := h) k ms p
    · rw [hp] at he ha
      rw [allocate_obj_old k ms (hs.member p hlt o he).1.ne]
      exact hs.memberDead p o he ha
    · rw [hp] at he
      cases he
    · rw [hp] at he
      cases he
      rw [allocate_obj_new]
      exact .inl rfl
    · rw [hp] at ha
      exact absurd ha (hs.dead_ptr (by omega))
  dying _ hd := nomatch hd
  log := by
    refine ⟨hs.log.1, fun o => ?_⟩
    show o ∈ h.destroyed ↔ o < h.objs + 1 ∧ _
    rw [hs.log.2 o]
    by_cases he : o = h.objs
    · subst he
      simp [allocate_obj_new]
    · rw [allocate_obj_old k ms he]
      exact and_congr_left fun _ => by omega

/-! ## Counts -/

theorem Counted.congr {Z' : List Nat} (hc : Counted h Z) (ho : h'.obj = h.obj)
    (hw : ∀ o, h'.owners Z' o = h.owners Z o)
    (hk : ∀ o, ∀ q ∈ h.owners Z o, (h'.ptr q).kind = (h.ptr q).kind) : Counted h' Z' where
  owned o ha := by
    rw [ho] at ha ⊢
    rw [hw]
    exact hc.owned o ha
  unowned o ha := by
    rw [ho] at ha
    rw [hw]
    exact hc.unowned o ha
  kinds q o hq := by
    rw [hw] at hq
    rw [ho, hk o q hq]
    exact hc.kinds q o hq

theorem Counted.update {Z' : List Nat} (hc : Counted h Z) (ho : h'.obj = Function.update h.obj o x)
    (hw : ∀ o' ≠ o, h'.owners Z' o' = h.owners Z o' ∧
      ∀ q ∈ h.owners Z o', (h'.ptr q).kind = (h.ptr q).kind)
    (ha : x.alive → 0 < (h'.owners Z' o).card ∧ Count x (h'.owners Z' o).card)
    (hd : ¬ x.alive → h'.owners Z' o = ∅) (hk : ∀ q ∈ h'.owners Z' o, x.kind = (h'.ptr q).kind) :
    Counted h' Z' where
  owned o' halive := by
    by_cases he : o' = o
    · subst he
      rw [ho, Function.update_self] at halive ⊢
      exact ha halive
    · rw [ho, Function.update_of_ne he] at halive ⊢
      rw [(hw o' he).1]
      exact hc.owned o' halive
  unowned o' hdead := by
    by_cases he : o' = o
    · subst he
      rw [ho, Function.update_self] at hdead
      exact hd hdead
    · rw [ho, Function.update_of_ne he] at hdead
      rw [(hw o' he).1]
      exact hc.unowned o' hdead
  kinds q o' hq := by
    by_cases he : o' = o
    · subst he
      rw [ho, Function.update_self]
      exact hk q hq
    · rw [(hw o' he).1] at hq
      rw [ho, Function.update_of_ne he, (hw o' he).2 q hq]
      exact hc.kinds q o' hq

theorem Counted.setNull (hc : Counted h (p :: Z)) : Counted (h.setOwned p none) Z :=
  hc.congr rfl (fun _ => owners_setNull) fun _ _ _ => setOwned_kind none

theorem Counted.endLife (hc : Counted h Z) (ho : (h.ptr p).obj = none) :
    Counted (h.endLife p) Z := by
  refine hc.congr rfl (fun _ => owners_endLife ho) fun _ q _ => ?_
  by_cases hq : q = p
  · rw [hq, endLife_same]
  · rw [endLife_other hq]

theorem Counted.cons (hc : Counted h Z) (ho : (h.ptr p).obj = none) : Counted h (p :: Z) := by
  refine hc.congr rfl (fun o => owners_cons_of_not_mem fun hm => ?_) fun _ _ _ => rfl
  rw [(mem_owners.1 hm).2.2.2] at ho
  cases ho

theorem Counted.lose (hc : Counted h Z) (hp : p ∈ h.owners Z o) (hptrs : h'.ptrs = h.ptrs)
    (hptr : h'.ptr = h.ptr) (ho : h'.obj = Function.update h.obj o x) (hk : x.kind = (h.obj o).kind)
    (ha : x.alive → 1 < (h.owners Z o).card ∧ Count x ((h.owners Z o).card - 1))
    (hd : ¬ x.alive → (h.owners Z o).card = 1) : Counted h' (p :: Z) := by
  have hw : ∀ o', h'.owners (p :: Z) o' = (h.owners Z o').erase p := by
    intro o'
    rw [← owners_cons, owners, owners, hptrs, hptr]
  refine hc.update ho (fun o' hne => ?_) (fun halive => ?_) (fun hdead => ?_) fun q hq => ?_
  · rw [hw, Finset.erase_eq_of_notMem (not_mem_of_ne hp hne), hptr]
    exact ⟨rfl, fun _ _ => rfl⟩
  · rw [hw, Finset.card_erase_of_mem hp]
    exact ⟨Nat.sub_pos_of_lt (ha halive).1, (ha halive).2⟩
  · rw [hw, ← Finset.card_eq_zero, Finset.card_erase_of_mem hp, hd hdead]
  · rw [hw] at hq
    rw [hk, hptr]
    exact hc.kinds q o (Finset.mem_of_mem_erase hq)

theorem Counted.newVariable (hc : Counted h Z) (hs : Shape h D) (k : Kind) :
    Counted (h.newVariable k none) Z := by
  have hold : ∀ o, ∀ q ∈ h.owners Z o, q ≠ h.ptrs := fun o q hq => (mem_owners.1 hq).1.ne
  refine hc.congr rfl (fun o => ?_) fun o q hq => by rw [newVariable_old k none (hold o q hq)]
  ext q
  rw [(hs.newVariable k none).mem_owners, hs.mem_owners]
  by_cases hq : q = h.ptrs
  · subst hq
    have hdead : ¬ (h.ptr h.ptrs).alive := fun ha => absurd (hs.ptrBound _ ha) (Nat.lt_irrefl _)
    simp [hdead]
  · rw [newVariable_old k none hq]

theorem Counted.allocate (hc : Counted h []) (hs : Shape h []) (k : Kind) (ms : List Kind) :
    Counted (h.allocate k ms) [] := by
  have hright : ∀ o {p : Nat}, h.ptrs < p → p ∉ if o = h.objs then {h.ptrs} else h.owners [] o := by
    intro o p hp
    split
    · rw [Finset.mem_singleton]
      exact hp.ne'
    · exact fun hm => absurd (mem_owners.1 hm).1 (by omega)
  have hw : ∀ o, (h.allocate k ms).owners [] o =
      if o = h.objs then {h.ptrs} else h.owners [] o := by
    intro o
    ext p
    rw [(hs.allocate k ms).mem_owners]
    obtain ⟨hlt, hp⟩ | ⟨heq, hp⟩ | ⟨hm, k', hp⟩ | ⟨hle, hp⟩ := allocate_ptr (h := h) k ms p
    · rw [hp, ← hs.mem_owners]
      split
      · rename_i he
        rw [he, hc.unowned h.objs fun ha => absurd (hs.objBound _ ha) (Nat.lt_irrefl _)]
        simp [hlt.ne]
      · rfl
    · rw [hp, heq]
      by_cases he : o = h.objs
      · simp [he]
      · simp [he, Ne.symm he, mem_owners]
    · rw [hp]
      exact iff_of_false (fun hm => nomatch hm.2.2) (hright o (List.mem_range'_1.1 hm).1)
    · rw [hp]
      exact iff_of_false (fun hm => hs.dead_ptr (by omega) hm.1) (hright o (by omega))
  refine hc.update rfl (fun o' hne => ⟨?_, fun q hq => ?_⟩) (fun _ => ?_) (fun hd => ?_)
    fun q hq => ?_
  · rw [hw, if_neg hne]
  · rw [show (h.allocate k ms).ptr q = h.ptr q from if_pos (mem_owners.1 hq).1]
  · rw [hw, if_pos rfl, Finset.card_singleton]
    refine ⟨Nat.one_pos, ?_⟩
    cases k with
    | shared => exact (count_shared rfl).2 rfl
    | unique => exact (count_unique rfl).2 rfl
  · exact absurd rfl hd
  · rw [hw, if_pos rfl, Finset.mem_singleton] at hq
    obtain ⟨hlt, -⟩ | ⟨-, hp⟩ | ⟨hm, -⟩ | ⟨hle, -⟩ := allocate_ptr (h := h) k ms q
    · omega
    · rw [hp]
    · have := (List.mem_range'_1.1 hm).1
      omega
    · omega

theorem Counted.share (hc : Counted h Z) (hdst : (h.ptr p).obj = none) (hp : (h.ptr p).alive)
    (hb : p < h.ptrs) (hz : p ∉ Z) (hk : (h.ptr p).kind = .shared)
    (hq : q ∈ h.owners Z o) (hqk : (h.ptr q).kind = .shared) :
    Counted ((h.setOwned p (some o)).setCounter o ((h.obj o).counter + 1)) Z := by
  have hkind : (h.obj o).kind = .shared := (hc.kinds q o hq).trans hqk
  have hnew : p ∉ h.owners Z o := by
    intro hm
    rw [(mem_owners.1 hm).2.2.2] at hdst
    cases hdst
  have hw : ∀ o', (h.setOwned p (some o)).owners Z o' =
      if o' = o then insert p (h.owners Z o') else h.owners Z o' :=
    fun o' => owners_setOwned hdst hp hb hz
  have hcard : ((h.setOwned p (some o)).owners Z o).card = (h.owners Z o).card + 1 := by
    rw [hw, if_pos rfl, Finset.card_insert_of_notMem hnew]
  refine hc.update rfl (fun o' hne => ⟨?_, fun _ _ => setOwned_kind _⟩) (fun _ => ?_)
    (fun hd => absurd (owner_alive hc hq) hd) fun r hr => ?_
  · exact (hw o').trans (if_neg hne)
  · rw [owners_setCounter, hcard]
    refine ⟨Nat.succ_pos _, ?_⟩
    have hcount := (count_shared hkind).1 (hc.owned o (owner_alive hc hq)).2
    refine (count_shared ?_).2 (congrArg Nat.succ hcount)
    exact hkind
  · rw [owners_setCounter, hw, if_pos rfl, Finset.mem_insert] at hr
    refine hkind.trans (Eq.symm ((setOwned_kind _).trans ?_))
    obtain rfl | hr := hr
    · exact hk
    · exact (hc.kinds r o hr).symm.trans hkind

/-- `dst` takes the place of `src` among the owners of `o`, which may come under another kind. -/
theorem Counted.move (hc : Counted h Z) (hdst : (h.ptr p).obj = none) (hp : (h.ptr p).alive)
    (hb : p < h.ptrs) (hz : p ∉ Z) (hq : q ∈ h.owners Z o) (hptrs : h'.ptrs = h.ptrs)
    (hptr : h'.ptr = ((h.setOwned q none).setOwned p (some o)).ptr)
    (ho : h'.obj = Function.update h.obj o x) (hx : x.alive = (h.obj o).alive)
    (ha : Count x (h.owners Z o).card)
    (hk : ∀ r ∈ insert p ((h.owners Z o).erase q), x.kind = (h.ptr r).kind) : Counted h' Z := by
  have hne : p ≠ q := by
    rintro rfl
    rw [(mem_owners.1 hq).2.2.2] at hdst
    cases hdst
  have hnew : p ∉ h.owners Z o := by
    intro hm
    rw [(mem_owners.1 hm).2.2.2] at hdst
    cases hdst
  have hw : ∀ o', h'.owners Z o' =
      if o' = o then insert p ((h.owners Z o').erase q) else (h.owners Z o').erase q := by
    intro o'
    rw [owners, hptrs, hptr]
    refine (owners_setOwned (h := h.setOwned q none) ?_ ?_ hb hz).trans ?_
    · rw [setOwned_other none hne, hdst]
    · rw [setOwned_alive]
      exact hp
    · rw [owners_setNull, owners_cons]
  have hcard : (h'.owners Z o).card = (h.owners Z o).card := by
    rw [hw, if_pos rfl, Finset.card_insert_of_notMem fun hm => hnew (Finset.mem_of_mem_erase hm),
      Finset.card_erase_add_one hq]
  have hkinds : ∀ r, (h'.ptr r).kind = (h.ptr r).kind := by
    intro r
    rw [hptr, setOwned_kind, setOwned_kind]
  refine hc.update ho (fun o' ho' => ⟨?_, fun r _ => hkinds r⟩) (fun _ => ?_) (fun hd => ?_)
    fun r hr => ?_
  · rw [hw, if_neg ho', Finset.erase_eq_of_notMem (not_mem_of_ne hq ho')]
  · rw [hcard]
    exact ⟨(hc.owned o (owner_alive hc hq)).1, ha⟩
  · exact absurd (owner_alive hc hq) (by rwa [hx] at hd)
  · rw [hw, if_pos rfl] at hr
    rw [hkinds]
    exact hk r hr

end SmartPointer
