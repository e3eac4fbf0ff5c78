import NeuralNetwork.SmartPointer.Proof.Release

/-!
# Construction, assignment and destruction

`exec_ok`: an operation whose source stays alive without its target succeeds, and leaves counters and
lifetimes right (`WellFormed`). `exec_fault`: any other assignment reads its source after the source has
been destroyed. In runs an object is alive while it has an owner (`pointers_correct`), and none leaks
(`no_leak`).
-/

namespace SmartPointer

open Heap

variable {h h' : Heap} {dst src p q o : Nat}

/-! ## What stays alive without the target -/

theorem WellFormed.home_alive (hw : WellFormed h) (hq : (h.ptr q).alive)
    (he : (h.ptr q).home = some o) : (h.obj o).alive :=
  (hw.shape.memberDead q o he hq).resolve_right (List.not_mem_nil)

/-- Up from an object the target does not reach, every owner leads to a variable. -/
theorem kept_of_unreached (hw : WellFormed h) (hac : h.Acyclic) (o : Nat) :
    (h.obj o).alive → (∀ x, (h.ptr dst).obj = some x → ¬ Relation.ReflTransGen h.Owns x o) →
      h.Kept dst o := by
  have hfin : {o | o < h.objs}.Finite := Set.finite_lt_nat h.objs
  refine hac.induction (P := fun o => (h.obj o).alive →
    (∀ x, (h.ptr dst).obj = some x → ¬ Relation.ReflTransGen h.Owns x o) → h.Kept dst o)
    hfin ?_ ?_ o
  · rintro a b ⟨q, hb, -, he, -⟩
    exact (hw.shape.member q hb a he).1
  · intro o ih ho hun
    obtain ⟨q, hq⟩ := Finset.card_pos.1 (hw.counted.owned o ho).1
    obtain ⟨hb, hal, -, hobj⟩ := mem_owners.1 hq
    refine .intro hb ?_ hal hobj fun o' he => ?_
    · rintro rfl
      exact hun o hobj .refl
    · refine ih o' ⟨q, hb, hal, he, hobj⟩ (hw.home_alive hal he) fun x hx hr => ?_
      exact hun x hx (hr.tail ⟨q, hb, hal, he, hobj⟩)

theorem kept_home (hw : WellFormed h) (hac : h.Acyclic) (hd : (h.ptr dst).alive)
    (he : (h.ptr dst).home = some o) : h.Kept dst o := by
  refine kept_of_unreached hw hac o (hw.home_alive hd he) fun x hx hr => ?_
  exact hac o (.head' ⟨dst, hw.shape.ptrBound dst hd, hd, he, hx⟩ hr)

theorem kept_closed : Closed h [dst] (h.Kept dst) := by
  intro o ho
  obtain ⟨hb, hne, hal, hobj, hup⟩ := ho
  rename_i q
  refine ⟨q, ?_, hup⟩
  rw [mem_owners]
  exact ⟨hb, hal, by simpa using hne, hobj⟩

theorem releasable_target (hw : WellFormed h) (hac : h.Acyclic) (hd : (h.ptr dst).alive) :
    Releasable h [] [] (h.Kept dst) dst where
  cascade := ⟨hw.shape, hw.counted, kept_closed.tail, fun _ hz => nomatch hz⟩
  closed := kept_closed
  fresh := List.not_mem_nil
  alive := hd
  safe _ he := .inr (kept_home hw hac hd he)

variable {K : Nat → Prop}

theorem Released.wellFormed (hr : Released h [] [] K p h') : WellFormed h' :=
  ⟨hr.cascade.shape, hr.cascade.counted⟩

theorem Released.same (hr : Released h [] [] K dst h') (hne : q ≠ dst) (hq : (h'.ptr q).alive) :
    h'.ptr q = h.ptr q := by
  refine hr.frame.same q (by simpa using hne) fun o he _ => ?_
  rw [← hr.frame.home] at he
  exact hr.wellFormed.home_alive hq he

theorem Released.acyclic (hr : Released h [] [] K dst h') (hac : h.Acyclic) :
    h'.Acyclic := by
  refine hac.mono fun a b => ?_
  rintro ⟨q, hb, hal, he, hobj⟩
  by_cases hq : q = dst
  · rw [hq, hr.null] at hobj
    cases hobj
  · have hsame := hr.same hq hal
    rw [hsame] at hal he hobj
    exact ⟨q, hr.frame.ptrs ▸ hb, hal, he, hobj⟩

theorem Released.kept (hr : Released h [] [] K dst h') (hk : h'.Kept dst o) :
    h.Kept dst o := by
  induction hk with
  | @intro q o hb hne hal hobj _ ih =>
    have hsame := hr.same hne hal
    rw [hsame] at hal hobj
    refine .intro (hr.frame.ptrs ▸ hb) hne hal hobj fun o' he => ih o' ?_
    rwa [hsame]

/-- The source survives the release of the target exactly if it is kept without it. -/
theorem source_alive_iff (hac : h.Acyclic) (hs : (h.ptr src).alive)
    (hne : src ≠ dst) (hr : Released h [] [] (h.Kept dst) dst h') :
    (h'.ptr src).alive ↔ ∀ o, (h.ptr src).home = some o → h.Kept dst o := by
  refine ⟨fun hal o he => ?_, fun hk => ?_⟩
  · rw [← hr.frame.home] at he
    refine hr.kept (kept_of_unreached hr.wellFormed (hr.acyclic hac) o
      (hr.wellFormed.home_alive hal he) fun x hx => ?_)
    rw [hr.null] at hx
    cases hx
  · rw [hr.frame.same src (by simpa using hne) fun o he _ => hr.cascade.alive (hk o he)]
    exact hs

/-! ## Transfers -/

theorem WellFormed.setNull (hw : WellFormed h) (hp : (h.ptr p).obj = none) :
    WellFormed (h.setOwned p none) :=
  ⟨hw.shape.setOwned none, (hw.counted.cons hp).setNull⟩

theorem WellFormed.copy (hw : WellFormed h) (dst src : Nat) (hd : (h.ptr dst).alive)
    (hs : (h.ptr src).alive) (hnull : (h.ptr dst).obj = none) (hdk : (h.ptr dst).kind = .shared)
    (hsk : (h.ptr src).kind = .shared) :
    WellFormed ((h.setOwned dst (h.ptr src).obj).addOwner (h.ptr src).obj) := by
  cases ho : (h.ptr src).obj with
  | none => exact hw.setNull hnull
  | some o =>
    have hq : src ∈ h.owners [] o := hw.shape.mem_owners.2 ⟨hs, List.not_mem_nil, ho⟩
    exact ⟨(hw.shape.setOwned _).setCounter _, hw.counted.share hnull hd (hw.shape.ptrBound dst hd)
      List.not_mem_nil hdk hq hsk⟩

theorem WellFormed.move (hw : WellFormed h) (dst src : Nat) (hd : (h.ptr dst).alive)
    (hs : (h.ptr src).alive) (hnull : (h.ptr dst).obj = none)
    (hk : (h.ptr dst).kind = (h.ptr src).kind) (hne : dst ≠ src) :
    WellFormed ((h.setOwned src none).setOwned dst (h.ptr src).obj) := by
  cases ho : (h.ptr src).obj with
  | none =>
    refine (hw.setNull ho).setNull ?_
    rw [setOwned_other none hne, hnull]
  | some o =>
    have hq : src ∈ h.owners [] o := hw.shape.mem_owners.2 ⟨hs, List.not_mem_nil, ho⟩
    refine ⟨(hw.shape.setOwned _).setOwned _, hw.counted.move hnull hd (hw.shape.ptrBound dst hd)
      List.not_mem_nil hq rfl rfl (Function.update_eq_self o h.obj).symm rfl
      (hw.counted.owned o (owner_alive hw.counted hq)).2 fun r hr => ?_⟩
    obtain rfl | hr := Finset.mem_insert.1 hr
    · rw [hk]
      exact hw.counted.kinds src o hq
    · exact hw.counted.kinds r o (Finset.mem_of_mem_erase hr)

theorem WellFormed.takeOver (hw : WellFormed h) (dst src : Nat) (hd : (h.ptr dst).alive)
    (hs : (h.ptr src).alive) (hnull : (h.ptr dst).obj = none) (hdk : (h.ptr dst).kind = .shared)
    (hsk : (h.ptr src).kind = .unique) :
    WellFormed (((h.setOwned src none).setOwned dst (h.ptr src).obj).makeControlBlock
      (h.ptr src).obj) := by
  have hne : dst ≠ src := by
    rintro rfl
    rw [hdk] at hsk
    cases hsk
  cases ho : (h.ptr src).obj with
  | none =>
    refine (hw.setNull ho).setNull ?_
    rw [setOwned_other none hne, hnull]
  | some o =>
    have hq : src ∈ h.owners [] o := hw.shape.mem_owners.2 ⟨hs, List.not_mem_nil, ho⟩
    have hone := (hw.counted.owned o (owner_alive hw.counted hq)).2
    rw [count_unique ((hw.counted.kinds src o hq).trans hsk)] at hone
    refine ⟨((hw.shape.setOwned none).setOwned (some o)).congr rfl rfl rfl (fun _ => ⟨rfl, rfl⟩)
      (setObject_static rfl rfl), hw.counted.move hnull hd (hw.shape.ptrBound dst hd)
      List.not_mem_nil hq rfl rfl rfl rfl ((count_shared rfl).2 hone.symm) fun r hr => ?_⟩
    obtain rfl | hr := Finset.mem_insert.1 hr
    · exact hdk.symm
    · obtain ⟨hne, hr⟩ := Finset.mem_erase.1 hr
      exact absurd (Finset.card_le_one.1 hone.le r hr src hq) hne

/-! ## Assignments -/

section Assign
variable (hw : WellFormed h) (hac : h.Acyclic) (hd : (h.ptr dst).alive) (hs : (h.ptr src).alive)
  (hne : dst ≠ src)
include hw hac hd hs hne

theorem release_target :
    ∃ h1, h.cleanResource dst = .ok h1 ∧ WellFormed h1 ∧
      (h1.ptr dst = { h.ptr dst with obj := none }) ∧
      ((∀ o, (h.ptr src).home = some o → h.Kept dst o) → h1.ptr src = h.ptr src) ∧
      (¬ (∀ o, (h.ptr src).home = some o → h.Kept dst o) → ¬ (h1.ptr src).alive) := by
  obtain ⟨h1, hrun, hr⟩ := cleanResource_ok (releasable_target hw hac hd)
  have hiff := source_alive_iff hac hs (Ne.symm hne) hr
  exact ⟨h1, hrun, hr.wellFormed, hr.null, fun hk => hr.same (Ne.symm hne) (hiff.2 hk),
    fun hk hal => hk (hiff.1 hal)⟩

theorem copyAssign_ok (hdk : (h.ptr dst).kind = .shared) (hsk : (h.ptr src).kind = .shared)
    (hk : ∀ o, (h.ptr src).home = some o → h.Kept dst o) :
    ∃ h', h.copyAssign dst src = .ok h' ∧ WellFormed h' ∧
      (h'.ptr dst).obj = (h.ptr src).obj := by
  obtain ⟨h1, hrun, hw1, hnull, hsame, -⟩ := release_target hw hac hd hs hne
  have hs1 : h1.ptr src = h.ptr src := hsame hk
  have hd1 : (h1.ptr dst).alive := by rw [hnull]; exact hd
  have hw2 := hw1.copy dst src hd1 (by rwa [hs1]) (by rw [hnull])
    (by rw [hnull]; exact hdk) (by rwa [hs1])
  rw [hs1] at hw2
  refine ⟨_, ?_, hw2, ?_⟩
  · rw [copyAssign, if_neg hne, hrun]
    simp only [Bind.bind, Except.bind, Heap.read, Heap.write, hs1, hs, hd1, if_true, pure,
      Except.pure]
  · cases (h.ptr src).obj <;> simp [addOwner, setCounter]

theorem copyAssign_fault (hk : ¬ ∀ o, (h.ptr src).home = some o → h.Kept dst o) :
    h.copyAssign dst src = .error (.destroyedPointer src) := by
  obtain ⟨h1, hrun, -, -, -, hdead⟩ := release_target hw hac hd hs hne
  rw [copyAssign, if_neg hne, hrun]
  simp only [Bind.bind, Except.bind, Heap.read, hdead hk]
  rfl

theorem moveAssign_ok (hkind : (h.ptr dst).kind = (h.ptr src).kind)
    (hk : ∀ o, (h.ptr src).home = some o → h.Kept dst o) :
    ∃ h', h.moveAssign dst src = .ok h' ∧ WellFormed h' ∧
      (h'.ptr dst).obj = (h.ptr src).obj ∧ (h'.ptr src).obj = none := by
  obtain ⟨h1, hrun, hw1, hnull, hsame, -⟩ := release_target hw hac hd hs hne
  have hs1 : h1.ptr src = h.ptr src := hsame hk
  have hd1 : (h1.ptr dst).alive := by rw [hnull]; exact hd
  have hw2 := hw1.move dst src hd1 (by rwa [hs1]) (by rw [hnull])
    (by rw [hnull, hs1]; exact hkind) hne
  rw [hs1] at hw2
  refine ⟨_, ?_, hw2, ?_, ?_⟩
  · rw [moveAssign, if_neg hne, hrun]
    simp only [Bind.bind, Except.bind, Heap.read, Heap.write, hs1, hs, hd1, setOwned_alive, if_true]
  · rw [setOwned_same]
  · rw [setOwned_other _ (Ne.symm hne), setOwned_same]

theorem moveAssign_fault (hk : ¬ ∀ o, (h.ptr src).home = some o → h.Kept dst o) :
    h.moveAssign dst src = .error (.destroyedPointer src) := by
  obtain ⟨h1, hrun, -, -, -, hdead⟩ := release_target hw hac hd hs hne
  rw [moveAssign, if_neg hne, hrun]
  simp only [Bind.bind, Except.bind, Heap.read, hdead hk]
  rfl

end Assign

/-! ## Construction and destruction -/

section

variable (hw : WellFormed h)

include hw

theorem WellFormed.newVariable (k : Kind) :
    WellFormed (h.newVariable k none) :=
  ⟨hw.shape.newVariable k none, hw.counted.newVariable hw.shape k⟩

theorem WellFormed.ne_new (hs : (h.ptr src).alive) : src ≠ h.ptrs :=
  (hw.shape.ptrBound src hs).ne

theorem copyConstruct_ok (hs : (h.ptr src).alive)
    (hk : (h.ptr src).kind = .shared) :
    ∃ h', h.copyConstruct src = .ok h' ∧ WellFormed h' ∧
      (h'.ptr h.ptrs).obj = (h.ptr src).obj := by
  have hold := newVariable_old (h := h) (p := src) (h.ptr src).kind none (hw.ne_new hs)
  have hw2 := (hw.newVariable (h.ptr src).kind).copy h.ptrs src
    (by rw [newVariable_new]) (by rwa [hold]) (by rw [newVariable_new])
    (by rw [newVariable_new]; exact hk) (by rwa [hold])
  rw [hold, ← newVariable_eq] at hw2
  refine ⟨_, ?_, hw2, ?_⟩
  · rw [copyConstruct, Heap.read, if_pos hs]
    rfl
  · cases (h.ptr src).obj <;> simp [addOwner, setCounter]

theorem moveConstruct_ok (hs : (h.ptr src).alive) :
    ∃ h', h.moveConstruct src = .ok h' ∧ WellFormed h' ∧
      (h'.ptr h.ptrs).obj = (h.ptr src).obj ∧ (h'.ptr src).obj = none := by
  have hne := hw.ne_new hs
  have hold := newVariable_old (h := h) (p := src) (h.ptr src).kind none hne
  have hw2 := (hw.newVariable (h.ptr src).kind).move h.ptrs src
    (by rw [newVariable_new]) (by rwa [hold]) (by rw [newVariable_new])
    (by rw [newVariable_new, hold]) (Ne.symm hne)
  rw [hold, ← setOwned_newVariable _ _ _ hne] at hw2
  refine ⟨_, ?_, hw2, ?_, ?_⟩
  · simp only [moveConstruct, Heap.read, Heap.write, hs, if_true, Bind.bind, Except.bind, pure,
      Except.pure]
  · have hnew := newVariable_new (h := h.setOwned src none) (h.ptr src).kind (h.ptr src).obj
    exact congrArg (·.obj) hnew
  · rw [newVariable_old (h := h.setOwned src none) _ _ hne, setOwned_same]

theorem uniqueToShared_ok (hs : (h.ptr src).alive)
    (hk : (h.ptr src).kind = .unique) :
    ∃ h', h.uniqueToShared src = .ok h' ∧ WellFormed h' ∧
      (h'.ptr h.ptrs).obj = (h.ptr src).obj ∧ (h'.ptr src).obj = none := by
  have hne := hw.ne_new hs
  have hold := newVariable_old (h := h) (p := src) .shared none hne
  have hw2 := (hw.newVariable .shared).takeOver h.ptrs src
    (by rw [newVariable_new]) (by rwa [hold]) (by rw [newVariable_new])
    (by rw [newVariable_new]) (by rwa [hold])
  rw [hold, ← setOwned_newVariable _ _ _ hne] at hw2
  have hptr : (((h.setOwned src none).newVariable .shared (h.ptr src).obj).makeControlBlock
      (h.ptr src).obj).ptr = ((h.setOwned src none).newVariable .shared (h.ptr src).obj).ptr := by
    cases (h.ptr src).obj <;> rfl
  refine ⟨_, ?_, hw2, ?_, ?_⟩
  · simp only [uniqueToShared, Heap.read, Heap.write, hs, if_true, Bind.bind, Except.bind, pure,
      Except.pure]
  · have hnew := newVariable_new (h := h.setOwned src none) .shared (h.ptr src).obj
    rw [hptr]
    exact congrArg (·.obj) hnew
  · rw [hptr, newVariable_old (h := h.setOwned src none) _ _ hne, setOwned_same]

theorem destruct_ok (hp : (h.ptr p).alive) (hv : (h.ptr p).home = none) :
    ∃ h', destroyPointer cleanResource h p = .ok h' ∧ WellFormed h' := by
  have hr : Releasable h [] [] (fun _ => False) p :=
    ⟨⟨hw.shape, hw.counted, fun _ hk => hk.elim, fun _ hz => nomatch hz⟩, fun _ hk => hk.elim,
      List.not_mem_nil, hp, fun o he => by rw [hv] at he; cases he⟩
  obtain ⟨h1, hrun, hr1⟩ := cleanResource_ok hr
  obtain ⟨hc, -⟩ := hr1.endLife fun o he => by rw [hv] at he; cases he
  exact ⟨_, destroyPointer_ok hrun, hc.shape, hc.counted⟩

/-! ## One operation -/

theorem exec_ok (hac : h.Acyclic) {op : Op} (he : h.Enabled op)
    (hk : h.SourceKept op) :
    ∃ h', h.exec op = .ok h' ∧ WellFormed h' ∧ Transferred h op h' := by
  cases op with
  | construct kind => exact ⟨_, rfl, hw.newVariable kind, trivial⟩
  | allocate kind members =>
    exact ⟨_, rfl, ⟨hw.shape.allocate kind members, hw.counted.allocate hw.shape kind members⟩,
      trivial⟩
  | copyConstruct src => exact copyConstruct_ok hw he.1 he.2
  | moveConstruct src => exact moveConstruct_ok hw he
  | uniqueToShared src => exact uniqueToShared_ok hw he.1 he.2
  | copyAssign dst src =>
    by_cases hd : dst = src
    · subst hd
      exact ⟨h, if_pos rfl, hw, rfl⟩
    · obtain ⟨hda, hsa, hdk, hsk⟩ := he
      exact copyAssign_ok hw hac hda hsa hd hdk hsk (hk.resolve_left hd)
  | moveAssign dst src =>
    by_cases hd : dst = src
    · subst hd
      exact ⟨h, if_pos rfl, hw, rfl, fun hne => absurd rfl hne⟩
    · obtain ⟨hda, hsa, hkind⟩ := he
      obtain ⟨h', hrun, hw', ht, hn⟩ := moveAssign_ok hw hac hda hsa hd hkind (hk.resolve_left hd)
      exact ⟨h', hrun, hw', ht, fun _ => hn⟩
  | destruct p =>
    obtain ⟨h', hrun, hw'⟩ := destruct_ok hw he.1 he.2
    exact ⟨h', hrun, hw', trivial⟩

/-- Any other operation is an assignment that reads its source after the source is destroyed. -/
theorem exec_fault (hac : h.Acyclic) {op : Op} (he : h.Enabled op)
    (hk : ¬ h.SourceKept op) : ∃ src, h.exec op = .error (.destroyedPointer src) := by
  cases op with
  | copyAssign dst src =>
    obtain ⟨hne, hk⟩ := not_or.1 hk
    exact ⟨src, copyAssign_fault hw hac he.1 he.2.1 hne hk⟩
  | moveAssign dst src =>
    obtain ⟨hne, hk⟩ := not_or.1 hk
    exact ⟨src, moveAssign_fault hw hac he.1 he.2.1 hne hk⟩
  | _ => exact absurd trivial hk

end

/-! ## Runs -/

theorem run_wellFormed {ops : List Op} (hr : Run.Reach WellFormed Step h ops) : WellFormed h := by
  refine hr.inv (fun h _ => WellFormed h) (fun _ hw => hw) fun s _ op s' hw hs => ?_
  obtain ⟨hac, he, hk, hrun⟩ := hs
  obtain ⟨s1, hrun1, hw1, -⟩ := exec_ok hw hac he hk
  rw [hrun] at hrun1
  exact Except.ok.inj hrun1 ▸ hw1

theorem WellFormed.alive_iff (hw : WellFormed h) (o : Nat) :
    (h.obj o).alive ↔ h.owners [] o ≠ ∅ := by
  refine ⟨fun ha => ?_, fun hn => ?_⟩
  · exact Finset.nonempty_iff_ne_empty.1 (Finset.card_pos.1 (hw.counted.owned o ha).1)
  · by_contra ha
    exact hn (hw.counted.unowned o ha)

/-- **Runs of smart pointers.** Counters are exact, an object is alive exactly while it has an
owner and is destroyed once, and an operation succeeds, with what the source owned in the target,
exactly if its source stays alive without its target. -/
theorem pointers_correct {ops : List Op} (hr : Run.Reach WellFormed Step h ops) :
    (∀ o, (h.obj o).alive → (h.obj o).kind = .shared →
      (h.obj o).counter = (h.owners [] o).card) ∧
    (∀ o, (h.obj o).alive ↔ h.owners [] o ≠ ∅) ∧
    h.destroyed.Nodup ∧ (∀ o < h.objs, o ∈ h.destroyed ↔ h.owners [] o = ∅) ∧
    ∀ op, h.Acyclic → h.Enabled op →
      ((∃ h', h.exec op = .ok h') ↔ h.SourceKept op) ∧
      ∀ h', h.exec op = .ok h' → Transferred h op h' := by
  have hw := run_wellFormed hr
  refine ⟨fun o ha hk => ?_, hw.alive_iff, hw.shape.log.1, fun o ho => ?_,
    fun op hac he => ⟨⟨?_, fun hk => ?_⟩, ?_⟩⟩
  · exact (count_shared hk).1 (hw.counted.owned o ha).2
  · rw [hw.shape.log.2 o, hw.alive_iff o, not_not]
    exact and_iff_right ho
  · rintro ⟨h', hrun⟩
    by_contra hk
    obtain ⟨src, hf⟩ := exec_fault hw hac he hk
    rw [hf] at hrun
    cases hrun
  · obtain ⟨h', hrun, -⟩ := exec_ok hw hac he hk
    exact ⟨h', hrun⟩
  · intro h' hrun
    by_cases hk : h.SourceKept op
    · obtain ⟨h1, hrun1, -, ht⟩ := exec_ok hw hac he hk
      rw [hrun] at hrun1
      exact Except.ok.inj hrun1 ▸ ht
    · obtain ⟨src, hf⟩ := exec_fault hw hac he hk
      rw [hf] at hrun
      cases hrun

/-! ### A list of two nodes -/

theorem acyclic_of_lt (hlt : ∀ p < h.ptrs, ∀ a ∈ (h.ptr p).home, ∀ b ∈ (h.ptr p).obj, a < b) :
    h.Acyclic := by
  refine AcyclicRel.of_rank id ?_
  rintro a b ⟨p, hb, -, he, ho⟩
  exact hlt p hb a he b ho

theorem empty_wellFormed : WellFormed Heap.empty where
  shape := by
    refine ⟨nofun, nofun, nofun, nofun, nofun, nofun, nofun, nofun, List.nodup_nil, ?_⟩
    exact fun o => ⟨nofun, nofun⟩
  counted := ⟨nofun, fun _ _ => rfl, nofun⟩

/-- `head` is pointer 0, the node it owns holds `next`, pointer 1. -/
def listOps : List Op :=
  [.allocate .shared [.shared], .allocate .shared [.shared], .moveAssign 1 2]

def listHeap : Heap :=
  (((Heap.empty.allocate .shared [.shared]).allocate .shared [.shared]).setOwned 2 none).setOwned 1
    (some 1)

theorem listHeap_acyclic : listHeap.Acyclic :=
  acyclic_of_lt (by decide)

theorem list_reach : Run.Reach WellFormed Step listHeap listOps := by
  have h0 : Run.Reach WellFormed Step Heap.empty [] := .init empty_wellFormed
  have h1 := h0.step (a := Op.allocate .shared [.shared])
    ⟨acyclic_of_lt (by decide), trivial, trivial, rfl⟩
  have h2 := h1.step (a := Op.allocate .shared [.shared])
    ⟨acyclic_of_lt (by decide), trivial, trivial, rfl⟩
  exact h2.step (a := Op.moveAssign 1 2)
    ⟨acyclic_of_lt (by decide), by decide, .inr fun _ he => (nomatch he), rfl⟩

/-- `head = head->next`, as a move and as a copy. -/
theorem head_next_fault :
    Run.Reach WellFormed Step listHeap listOps ∧ listHeap.Acyclic ∧
      (listHeap.ptr 0).obj = some 0 ∧ (listHeap.ptr 1).home = some 0 ∧
      (listHeap.ptr 1).obj = some 1 ∧ listHeap.Enabled (.moveAssign 0 1) ∧
      listHeap.exec (.moveAssign 0 1) = .error (.destroyedPointer 1) ∧
      listHeap.Enabled (.copyAssign 0 1) ∧
      listHeap.exec (.copyAssign 0 1) = .error (.destroyedPointer 1) :=
  ⟨list_reach, listHeap_acyclic, rfl, rfl, rfl, by decide, rfl, by decide, rfl⟩

theorem pointers_correct_list :
    Run.Reach WellFormed Step listHeap listOps ∧ (listHeap.owners [] 1).card = 1 ∧
      listHeap.destroyed.Nodup ∧ ¬ listHeap.SourceKept (.moveAssign 0 1) := by
  obtain ⟨hcount, -, hlog, -, hop⟩ := pointers_correct list_reach
  refine ⟨list_reach, (hcount 1 rfl rfl).symm, hlog, fun hk => ?_⟩
  obtain ⟨h', hrun⟩ := (hop (.moveAssign 0 1) listHeap_acyclic (by decide)).1.2 hk
  cases hrun

/-! ## Leaks -/

/-- An object that is alive is reached from a variable, through objects that are alive. -/
theorem WellFormed.kept (hw : WellFormed h) (hac : h.Acyclic) (o : Nat) :
    (h.obj o).alive → h.Kept h.ptrs o := by
  refine hac.induction (P := fun o => (h.obj o).alive → h.Kept h.ptrs o)
    (Set.finite_lt_nat h.objs) ?_ (fun o ih ha => ?_) o
  · rintro o₁ o₂ ⟨p, hp, -, he, -⟩
    exact (hw.shape.member p hp o₁ he).1
  · obtain ⟨q, hq⟩ := Finset.card_pos.1 (hw.counted.owned o ha).1
    obtain ⟨hlt, hqa, -, hobj⟩ := mem_owners.1 hq
    refine .intro hlt hlt.ne hqa hobj fun o' he => ?_
    exact ih o' ⟨q, hlt, hqa, he, hobj⟩
      ((hw.shape.memberDead q o' he hqa).resolve_right List.not_mem_nil)

/-- **Nothing leaks.** After a run, as long as the owners have no cycle, the objects that are alive are
those that are reached from variables, and every object was destroyed if no variable owns one. -/
theorem no_leak (hr : Run.Reach WellFormed Step h ops) (hac : h.Acyclic) :
    (∀ o, (h.obj o).alive ↔ h.Kept h.ptrs o) ∧
      ((∀ p, (h.ptr p).alive → (h.ptr p).home = none → (h.ptr p).obj = none) →
        ∀ o < h.objs, o ∈ h.destroyed) := by
  have hw := run_wellFormed hr
  refine ⟨fun o => ⟨hw.kept hac o, fun hk => ?_⟩, fun hnone o ho => ?_⟩
  · obtain ⟨hlt, -, hqa, hobj, -⟩ := hk
    exact owner_alive hw.counted (mem_owners.2 ⟨hlt, hqa, List.not_mem_nil, hobj⟩)
  · refine (hw.shape.log.2 o).2 ⟨ho, fun ha => ?_⟩
    have hk := hw.kept hac o ha
    clear ho ha
    induction hk with
    | @intro q o hlt _ hqa hobj hhome ih =>
      cases he : (h.ptr q).home with
      | none => exact nomatch (hnone q hqa he).symm.trans hobj
      | some o' => exact ih o' he

theorem no_leak_list : listHeap.Kept listHeap.ptrs 1 :=
  ((no_leak list_reach listHeap_acyclic).1 1).1 rfl

end SmartPointer
