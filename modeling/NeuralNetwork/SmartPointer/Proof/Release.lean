import NeuralNetwork.SmartPointer.Proof.Ownership

/-!
# The cascade of a release

`cleanWith_releases`: with more fuel than live objects, `clean_resource` ends in a heap whose
counters and lifetimes follow the owners again. It destroys no object of a set `K` that owns itself
through other pointers (`Cascade.closed`), and changes no pointer but the ones that die with their
object (`Frame`).
-/

namespace SmartPointer

open Heap

variable {h h' h'' : Heap} {Z D P Q : List Nat} {K : Nat → Prop} {p q o : Nat}

/-- What a cascade that may write to the pointers `P` leaves alone: a pointer that is no member of
an object destroyed is as it was. -/
structure Frame (h h' : Heap) (P : List Nat) : Prop where
  ptrs : h'.ptrs = h.ptrs
  objs : h'.objs = h.objs
  kind : ∀ q, (h'.ptr q).kind = (h.ptr q).kind
  home : ∀ q, (h'.ptr q).home = (h.ptr q).home
  members : ∀ o, (h'.obj o).members = (h.obj o).members
  alive : ∀ o, (h'.obj o).alive → (h.obj o).alive
  same : ∀ q ∉ P, (∀ o, (h.ptr q).home = some o → (h.obj o).alive → (h'.obj o).alive) →
    h'.ptr q = h.ptr q

theorem Frame.refl (h : Heap) (P : List Nat) : Frame h h P :=
  ⟨rfl, rfl, fun _ => rfl, fun _ => rfl, fun _ => rfl, fun _ => id, fun _ _ _ => rfl⟩

theorem Frame.trans (hf : Frame h h' P) (hg : Frame h' h'' Q) : Frame h h'' (P ++ Q) where
  ptrs := hg.ptrs.trans hf.ptrs
  objs := hg.objs.trans hf.objs
  kind q := (hg.kind q).trans (hf.kind q)
  home q := (hg.home q).trans (hf.home q)
  members o := (hg.members o).trans (hf.members o)
  alive o ha := hf.alive o (hg.alive o ha)
  same q hq hl := by
    rw [List.mem_append, not_or] at hq
    have h1 : h'.ptr q = h.ptr q := hf.same q hq.1 fun o he ha => hg.alive o (hl o he ha)
    rw [hg.same q hq.2 fun o he ha => hl o (h1 ▸ he) (hf.alive o ha), h1]

theorem Frame.mono (hf : Frame h h' P) (hPQ : ∀ q ∈ P, q ∈ Q) : Frame h h' Q :=
  { hf with same := fun q hq => hf.same q fun hp => hq (hPQ q hp) }

theorem Frame.setOwned (h : Heap) (p : Nat) (x : Option Nat) : Frame h (h.setOwned p x) [p] :=
  ⟨rfl, rfl, fun _ => setOwned_kind x, fun _ => setOwned_home x, fun _ => rfl, fun _ => id,
    fun _ hq _ => setOwned_other x (List.ne_of_not_mem_cons hq)⟩

theorem Frame.endLife (h : Heap) (p : Nat) : Frame h (h.endLife p) [p] := by
  refine ⟨rfl, rfl, fun q => ?_, fun _ => endLife_home, fun _ => rfl, fun _ => id,
    fun _ hq _ => endLife_other (List.ne_of_not_mem_cons hq)⟩
  by_cases hq : q = p
  · rw [hq, endLife_same]
  · rw [endLife_other hq]

theorem Frame.setCounter (h : Heap) (o n : Nat) : Frame h (h.setCounter o n) [] :=
  ⟨rfl, rfl, fun _ => rfl, fun _ => rfl, fun _ => setCounter_members n,
    fun _ ha => by rwa [setCounter_alive] at ha, fun _ _ _ => rfl⟩

theorem Frame.markDestroyed (h : Heap) (o : Nat) : Frame h (h.markDestroyed o) [] :=
  ⟨rfl, rfl, fun _ => rfl, fun _ => rfl, fun _ => markDestroyed_members,
    fun _ ha => (markDestroyed_alive.1 ha).2, fun _ _ _ => rfl⟩

/-! ## Live objects -/

def liveObjects (h : Heap) : Nat :=
  ((Finset.range h.objs).filter fun o => (h.obj o).alive).card

theorem Frame.liveObjects_le (hf : Frame h h' P) : liveObjects h' ≤ liveObjects h := by
  refine Finset.card_le_card fun o ho => ?_
  rw [Finset.mem_filter, hf.objs] at ho
  exact Finset.mem_filter.2 ⟨ho.1, hf.alive o ho.2⟩

theorem liveObjects_markDestroyed (hs : Shape h D) (ho : (h.obj o).alive) :
    liveObjects (h.markDestroyed o) < liveObjects h := by
  refine Finset.card_lt_card (Finset.ssubset_iff_subset_ne.2 ⟨fun q hq => ?_, fun he => ?_⟩)
  · obtain ⟨hb, ha⟩ := Finset.mem_filter.1 hq
    exact Finset.mem_filter.2 ⟨hb, (markDestroyed_alive.1 ha).2⟩
  · have hm : o ∈ (Finset.range h.objs).filter fun o => (h.obj o).alive :=
      Finset.mem_filter.2 ⟨Finset.mem_range.2 (hs.objBound o ho), ho⟩
    rw [← he, Finset.mem_filter] at hm
    exact (markDestroyed_alive.1 hm.2).1 rfl

theorem liveObjects_le (h : Heap) : liveObjects h ≤ h.objs :=
  (Finset.card_filter_le _ _).trans (Finset.card_range _).le

/-! ## The invariant of a cascade -/

/-- The objects `K` own themselves through pointers that are not under release. -/
def Closed (h : Heap) (Z : List Nat) (K : Nat → Prop) : Prop :=
  ∀ o, K o → ∃ q ∈ h.owners Z o, ∀ o', (h.ptr q).home = some o' → K o'

/-- A pointer under release is a variable, or lies in a dying object or in one of `K`. -/
structure Cascade (h : Heap) (Z D : List Nat) (K : Nat → Prop) : Prop where
  shape : Shape h D
  counted : Counted h Z
  closed : Closed h Z K
  safe : ∀ z ∈ Z, ∀ o, (h.ptr z).home = some o → o ∈ D ∨ K o

theorem Closed.tail (hc : Closed h (p :: Z) K) : Closed h Z K := by
  intro o ho
  obtain ⟨q, hq, hh⟩ := hc o ho
  rw [owners_cons] at hq
  exact ⟨q, Finset.mem_of_mem_erase hq, hh⟩

theorem Closed.cons (hc : Closed h Z K) (hp : (h.ptr p).home = some o) (ho : ¬ K o) :
    Closed h (p :: Z) K := by
  intro o' ho'
  obtain ⟨q, hq, hh⟩ := hc o' ho'
  refine ⟨q, ?_, hh⟩
  rw [owners_cons]
  refine Finset.mem_erase.2 ⟨?_, hq⟩
  rintro rfl
  exact ho (hh o hp)

theorem Closed.congr {Z' : List Nat} (hc : Closed h Z K)
    (hw : ∀ o, h'.owners Z' o = h.owners Z o)
    (hh : ∀ q, (h'.ptr q).home = (h.ptr q).home) : Closed h' Z' K := by
  intro o ho
  obtain ⟨q, hq, hq'⟩ := hc o ho
  exact ⟨q, hw o ▸ hq, fun o' he => hq' o' (hh q ▸ he)⟩

theorem Cascade.alive (hc : Cascade h Z D K) (ho : K o) : (h.obj o).alive := by
  obtain ⟨q, hq, -⟩ := hc.closed o ho
  exact owner_alive hc.counted hq

structure Releasable (h : Heap) (Z D : List Nat) (K : Nat → Prop) (p : Nat) : Prop where
  cascade : Cascade h Z D K
  closed : Closed h (p :: Z) K
  fresh : p ∉ Z
  alive : (h.ptr p).alive
  safe : ∀ o, (h.ptr p).home = some o → o ∈ D ∨ K o

structure Released (h : Heap) (Z D : List Nat) (K : Nat → Prop) (p : Nat) (h' : Heap) : Prop where
  cascade : Cascade h' Z D K
  frame : Frame h h' [p]
  null : h'.ptr p = { h.ptr p with obj := none }

/-- `clean` releases every pointer while fewer than `n` objects are alive. -/
def Releases (clean : Heap → Nat → Except Fault Heap) (n : Nat) : Prop :=
  ∀ h Z D K p, Releasable h Z D K p → liveObjects h < n →
    ∃ h', clean h p = .ok h' ∧ Released h Z D K p h'

/-! ## The destructor of an object -/

variable {clean : Heap → Nat → Except Fault Heap}

theorem destroyPointer_ok (hr : clean h p = .ok h') :
    destroyPointer clean h p = .ok (h'.endLife p) := by
  rw [destroyPointer, hr]
  rfl

theorem Released.endLife (hr : Released h Z D K p h')
    (hd : ∀ o, (h.ptr p).home = some o → ¬ (h.obj o).alive) :
    Cascade (h'.endLife p) Z D K ∧ Frame h (h'.endLife p) [p] := by
  have hobj : (h'.ptr p).obj = none := by rw [hr.null]
  refine ⟨⟨hr.cascade.shape.endLife fun o he ha => ?_, hr.cascade.counted.endLife hobj,
    hr.cascade.closed.congr (fun o => owners_endLife hobj) fun q => endLife_home,
    fun z hz o he => hr.cascade.safe z hz o (by rwa [endLife_home] at he)⟩, ?_⟩
  · rw [hr.frame.home] at he
    exact hd o he (hr.frame.alive o ha)
  · exact (hr.frame.trans (Frame.endLife h' p)).mono fun q hq => by simpa using hq

variable {n : Nat}

theorem destroyMembers_ok (hclean : Releases clean n) (hoD : o ∈ D) (hoK : ¬ K o) {l : List Nat}
    (hc : Cascade h Z D K) (hn : liveObjects h < n) (hl : l.Nodup)
    (hm : ∀ q ∈ l, (h.ptr q).home = some o ∧ (h.ptr q).alive ∧ q ∉ Z) :
    ∃ h', l.foldlM (destroyPointer clean) h = .ok h' ∧ Cascade h' Z D K ∧ Frame h h' l ∧
      ∀ q ∈ l, ¬ (h'.ptr q).alive := by
  induction l generalizing h with
  | nil => exact ⟨h, rfl, hc, Frame.refl h [], fun _ hq => nomatch hq⟩
  | cons p l ih =>
    obtain ⟨hp, hl⟩ := List.nodup_cons.1 hl
    obtain ⟨hhome, halive, hfresh⟩ := hm p List.mem_cons_self
    have hdead : ∀ o', (h.ptr p).home = some o' → ¬ (h.obj o').alive := by
      intro o' he
      rw [hhome] at he
      exact Option.some.inj he ▸ hc.shape.dying o hoD
    obtain ⟨h1, hrun, hr⟩ := hclean h Z D K p
      ⟨hc, hc.closed.cons hhome hoK, hfresh, halive, fun o' he =>
        .inl (Option.some.inj (hhome.symm.trans he) ▸ hoD)⟩ hn
    obtain ⟨hc1, hf1⟩ := hr.endLife hdead
    -- the members whose turn is still to come lie in the same dead object
    have hm1 : ∀ q ∈ l, ((h1.endLife p).ptr q) = h.ptr q := by
      intro q hq
      refine hf1.same q (fun he => hp (List.mem_singleton.1 he ▸ hq)) fun o' he ha => ?_
      rw [(hm q (List.mem_cons_of_mem p hq)).1] at he
      exact absurd ha (Option.some.inj he ▸ hc.shape.dying o hoD)
    obtain ⟨h2, hrun2, hc2, hf2, hd2⟩ := ih hc1 (hf1.liveObjects_le.trans_lt hn) hl fun q hq => by
      rw [hm1 q hq]
      exact hm q (List.mem_cons_of_mem p hq)
    refine ⟨h2, ?_, hc2, hf1.trans hf2, fun q hq => ?_⟩
    · rw [List.foldlM_cons, destroyPointer_ok hrun]
      exact hrun2
    · obtain rfl | hq := List.mem_cons.1 hq
      · rw [hf2.same q hp fun o' he ha => ?_, endLife_same]
        · exact Bool.false_ne_true
        · rw [hf1.home] at he
          exact absurd (hf1.alive o' ha) (hdead o' he)
      · exact hd2 q hq

/-- The last owner `p` of `o` goes: `o` is destroyed with all its members. The heap `h1` is `h` but
for the counter of `o`. -/
theorem destroyObject_ok (hclean : Releases clean n) (hr : Releasable h Z D K p) (hp : p ∈ h.owners Z o)
    (hcard : (h.owners Z o).card = 1) (hn : liveObjects h < n + 1) {h1 : Heap}
    (h1o : ∃ m, h1 = h.setCounter o m) :
    ∃ h', destroyObject clean h1 o = .ok h' ∧ Cascade h' (p :: Z) D K ∧ Frame h h' [] := by
  obtain ⟨m, rfl⟩ := h1o
  have ho : (h.obj o).alive := owner_alive hr.cascade.counted hp
  have hob : o < h.objs := hr.cascade.shape.objBound o ho
  have hoD : o ∉ D := fun hd => hr.cascade.shape.dying o hd ho
  have hoK : ¬ K o := by
    intro hk
    obtain ⟨q, hq, -⟩ := hr.closed o hk
    rw [owners_cons, Finset.mem_erase] at hq
    exact hq.1 (Finset.card_le_one.1 hcard.le q hq.2 p hp)
  have hsafe : ∀ z ∈ p :: Z, ∀ o', (h.ptr z).home = some o' → o' ∈ D ∨ K o' := by
    intro z hz
    obtain rfl | hz := List.mem_cons.1 hz
    · exact hr.safe
    · exact hr.cascade.safe z hz
  have hfm : Frame h ((h.setCounter o m).markDestroyed o) [] :=
    (Frame.setCounter h o m).trans (Frame.markDestroyed _ o)
  have hc1 : Cascade ((h.setCounter o m).markDestroyed o) (p :: Z) (o :: D) K := by
    refine ⟨(hr.cascade.shape.setCounter m).markDestroyed ?_, ?_, ?_, ?_⟩
    · rwa [setCounter_alive]
    · refine hr.cascade.counted.lose (x := { h.obj o with counter := m, alive := false }) hp rfl rfl
        ?_ rfl (fun ha => nomatch ha) fun _ => hcard
      simp [Heap.markDestroyed, Heap.setCounter]
    · exact hr.closed
    · exact fun z hz o' he => (hsafe z hz o' he).imp (List.mem_cons_of_mem o) id
  have hin : ∀ q ∈ (h.obj o).members, q < h.ptrs ∧ (h.ptr q).home = some o :=
    hr.cascade.shape.homed o hob
  have hout : ∀ q ∈ (h.obj o).members, q ∉ p :: Z := by
    intro q hq hz
    obtain hd | hk := hsafe q hz o (hin q hq).2
    · exact hoD hd
    · exact hoK hk
  have hlive : liveObjects ((h.setCounter o m).markDestroyed o) < n := by
    have hlt := liveObjects_markDestroyed (o := o) (hr.cascade.shape.setCounter (o := o) m)
      (by rwa [setCounter_alive])
    have hle : liveObjects (h.setCounter o m) ≤ liveObjects h :=
      (Frame.setCounter h o m).liveObjects_le
    omega
  obtain ⟨h2, hrun, hc2, hf2, hd2⟩ := destroyMembers_ok hclean List.mem_cons_self hoK hc1
    (l := (h.obj o).members.reverse) hlive (List.nodup_reverse.2 (hr.cascade.shape.nodup o hob))
    fun q hq => by
      obtain ⟨hb, hh⟩ := hin q (List.mem_reverse.1 hq)
      exact ⟨hh, hr.cascade.shape.memberAlive q hb o hh ho, hout q (List.mem_reverse.1 hq)⟩
  have hf : Frame h h2 (h.obj o).members.reverse := hfm.trans hf2
  refine ⟨h2, ?_, ⟨hc2.shape.finish fun q he => ?_, hc2.counted, hc2.closed, fun z hz o' he =>
    hsafe z hz o' (by rwa [hf.home] at he)⟩, { hf with same := fun q _ hl => ?_ }⟩
  · rw [destroyObject, setCounter_members]
    exact hrun
  · rw [hf.home] at he
    by_cases hb : q < h.ptrs
    · exact hd2 q (List.mem_reverse.2 (hr.cascade.shape.member q hb o he).2)
    · exact fun ha => hb (hf.ptrs ▸ hc2.shape.ptrBound q ha)
  · refine hf.same q (fun hq => ?_) hl
    have ha := hl o (hin q (List.mem_reverse.1 hq)).2 ho
    exact (markDestroyed_alive.1 (hf2.alive o ha)).1 rfl

/-! ## clean_resource -/

theorem owner_of_obj (hr : Releasable h Z D K p) (ho : (h.ptr p).obj = some o) :
    p ∈ h.owners Z o :=
  hr.cascade.shape.mem_owners.2 ⟨hr.alive, hr.fresh, ho⟩

theorem setCounter_ok (hr : Releasable h Z D K p) (hp : p ∈ h.owners Z o)
    (hk : (h.obj o).kind = .shared) (hne : (h.obj o).counter ≠ 1) :
    Cascade (h.setCounter o ((h.obj o).counter - 1)) (p :: Z) D K ∧
      Frame h (h.setCounter o ((h.obj o).counter - 1)) [] := by
  obtain ⟨hpos, hcount⟩ := hr.cascade.counted.owned o (owner_alive hr.cascade.counted hp)
  rw [count_shared hk] at hcount
  refine ⟨⟨hr.cascade.shape.setCounter _, ?_, hr.closed, fun z hz o' he => ?_⟩,
    Frame.setCounter h o _⟩
  · refine hr.cascade.counted.lose hp rfl rfl rfl rfl (fun _ => ⟨?_, ?_⟩) fun hd => ?_
    · omega
    · refine (count_shared ?_).2 (congrArg Nat.pred hcount)
      exact hk
    · exact absurd (owner_alive hr.cascade.counted hp) hd
  · obtain rfl | hz := List.mem_cons.1 hz
    · exact hr.safe o' he
    · exact hr.cascade.safe z hz o' he

theorem release_ok (hclean : Releases clean n) (hr : Releasable h Z D K p) (hp : p ∈ h.owners Z o)
    (hn : liveObjects h < n + 1) :
    ((h.ptr p).kind = .shared →
      ∃ h', release clean h o = .ok h' ∧ Cascade h' (p :: Z) D K ∧ Frame h h' []) ∧
    ((h.ptr p).kind = .unique →
      ∃ h', destroyObject clean h o = .ok h' ∧ Cascade h' (p :: Z) D K ∧ Frame h h' []) := by
  have ho : (h.obj o).alive := owner_alive hr.cascade.counted hp
  have hcount := (hr.cascade.counted.owned o ho).2
  have hkind : (h.obj o).kind = (h.ptr p).kind := hr.cascade.counted.kinds p o hp
  refine ⟨fun hk => ?_, fun hk => ?_⟩
  · rw [release]
    by_cases h1 : (h.obj o).counter = 1
    · rw [if_pos h1]
      rw [count_shared (hkind.trans hk), h1] at hcount
      exact destroyObject_ok hclean hr hp hcount.symm hn ⟨_, rfl⟩
    · rw [if_neg h1]
      exact ⟨_, rfl, setCounter_ok hr hp (hkind.trans hk) h1⟩
  · rw [count_unique (hkind.trans hk)] at hcount
    refine destroyObject_ok hclean hr hp hcount hn ⟨(h.obj o).counter, ?_⟩
    rw [setCounter, Function.update_eq_self]

theorem write_null_ok (hr : Releasable h Z D K p) (hc : Cascade h' (p :: Z) D K)
    (hf : Frame h h' []) : ∃ h'', h'.write p none = .ok h'' ∧ Released h Z D K p h'' := by
  have hsame : h'.ptr p = h.ptr p := by
    refine hf.same p List.not_mem_nil fun o he ha => ?_
    obtain hd | hk := hr.safe o he
    · exact absurd ha (hr.cascade.shape.dying o hd)
    · exact hc.alive hk
  refine ⟨h'.setOwned p none, ?_, ⟨hc.shape.setOwned none, hc.counted.setNull,
    hc.closed.congr (fun _ => owners_setNull) fun q => setOwned_home none, fun z hz o he => ?_⟩,
    hf.trans (Frame.setOwned h' p none), ?_⟩
  · rw [write, hsame, if_pos hr.alive]
  · rw [setOwned_home] at he
    exact hc.safe z (List.mem_cons_of_mem p hz) o he
  · rw [setOwned_same, hsame]

/-- Induction on the fuel: a nested release starts with one more object destroyed. -/
theorem cleanWith_releases : ∀ fuel, Releases (cleanWith fuel) fuel
  | 0 => fun _ _ _ _ _ _ hn => absurd hn (Nat.not_lt_zero _)
  | fuel + 1 => by
    intro h Z D K p hr hn
    rw [cleanWith, Heap.read, if_pos hr.alive]
    cases ho : (h.ptr p).obj with
    | none =>
      refine ⟨h, by simp [Bind.bind, Except.bind, ho, pure, Except.pure], hr.cascade,
        Frame.refl h [p], ?_⟩
      rw [← ho]
    | some o =>
      have hp := owner_of_obj hr ho
      obtain ⟨hshared, hunique⟩ := release_ok (cleanWith_releases fuel) hr hp hn
      cases hk : (h.ptr p).kind with
      | shared =>
        obtain ⟨h2, hrun, hc, hf⟩ := hshared hk
        simp only [Bind.bind, Except.bind, ho, hk, hrun]
        exact write_null_ok hr hc hf
      | unique =>
        obtain ⟨h2, hrun, hc, hf⟩ := hunique hk
        simp only [Bind.bind, Except.bind, ho, hk, hrun]
        exact write_null_ok hr hc hf

/-- `clean_resource` on a pointer that is a variable or a member of one of the objects `K`. -/
theorem cleanResource_ok (hr : Releasable h Z D K p) :
    ∃ h', h.cleanResource p = .ok h' ∧ Released h Z D K p h' :=
  cleanWith_releases (h.objs + 1) h Z D K p hr (Nat.lt_succ_of_le (liveObjects_le h))

end SmartPointer
