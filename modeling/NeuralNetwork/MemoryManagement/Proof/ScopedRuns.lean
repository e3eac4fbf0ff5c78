import NeuralNetwork.Lib.Run
import NeuralNetwork.MemoryManagement.Proof.ExactReuseAllocator

/-!
# Runs of the scoped allocators

`Lawful`: what an invariant of a scoped allocator has to keep, so that every state of a run is `Sound`
(`Lawful.sound`). **`scoped_sound`**: both allocators are, in every run whose requests are neither empty, for
the scope allocator, nor too large for the header, for the one with a cache.
-/

namespace ConventionalAllocator

open Cpp Region Command

variable {α : Type}

def Op.Fits (fits : Nat → Prop) : Op → Prop
  | .malloc sz => fits sz
  | _ => True

def FitStep (I : ScopedAllocator α) (fits : Nat → Prop) (s : State α) (e : Answers × Op) (s' : State α) :
    Prop :=
  e.2.Fits fits ∧ s.Step I e s'

/-- **What a state of a scoped allocator promises**: the blocks that the caller has are inside the arena and
disjoint, so is the next one that `malloc` returns, and it is at a new place; the allocator changes no byte
of them; closing a scope leaves the blocks of the others, puts the cursor back to where it was when the scope
was opened and leaves nothing in the cache; and no operation faults. -/
structure Sound (I : ScopedAllocator α) (fits : Nat → Prop) (s : State α) : Prop where
  inArena : ∀ b ∈ s.live, InArena (I.arena s.world.obj) b
  disjoint : s.live.Pairwise fun b c => Block.Disjoint b c ∧ b.ptr ≠ c.ptr
  malloc : ∀ answers sz p w, fits sz → I.malloc answers sz s.world = .ok (.ok (some p), w) →
    s.scopes ≠ [] ∧ InArena (I.arena w.obj) ⟨p, sz⟩ ∧ ∀ b ∈ s.live, Block.Disjoint ⟨p, sz⟩ b ∧ p ≠ b.ptr
  untouched : ∀ e s', FitStep I fits s e s' → (∀ p bytes, e.2 ≠ .write p bytes) →
    ∀ b ∈ s'.live, b ∈ s.live → ∀ q, b.Covers q → s'.world.mem.bytes q = s.world.mem.bytes q
  close : ∀ answers s', s.Step I (answers, .outScope) s' → ∃ scope : Scope, s.scopes = scope :: s'.scopes ∧
    (I.arena s'.world.obj).currentPoint = scope.opened ∧ I.cache s'.world.obj = []
  total : ∀ e fault, e.2.Fits fits → s.next I e ≠ .error fault

structure Lawful (I : ScopedAllocator α) (fits : Nat → Prop) (n : Nat) (held : World α → List Block)
    (Inv : World α → List Scope → Prop) : Prop where
  lends : ∀ {w scopes}, Inv w scopes → Lends n (held w) (I.arena w.obj) w.mem scopes
  malloc : ∀ {w scope scopes sz} answers, Inv w (scope :: scopes) → fits sz →
    wp (I.malloc answers sz)
      (fun rs w' => (rs = none ∧ Inv w' (scope :: scopes) ∨
        ∃ p, rs = some p ∧ Inv w' (State.lend ⟨p, sz⟩ (scope :: scopes))) ∧
        Untouched (scope :: scopes) w.mem w'.mem)
      (fun _ w' => Inv w' (scope :: scopes) ∧ Untouched (scope :: scopes) w.mem w'.mem) w
  malloc_nil : ∀ {w} answers sz, Inv w [] →
    wp (I.malloc answers sz) (fun rs w' => rs = none ∧ Inv w' []) (fun _ w' => Inv w' []) w
  free_null : ∀ answers w, I.free answers none w = .ok (.ok (), w)
  free : ∀ {w scope scopes b} answers, Inv w (scope :: scopes) → b ∈ liveOf (scope :: scopes) →
    wp (I.free answers (some b.ptr))
      (fun _ w' => Inv w' (State.giveBack b.ptr (scope :: scopes)) ∧
        Untouched (State.giveBack b.ptr (scope :: scopes)) w.mem w'.mem)
      (fun _ _ => False) w
  inScope : ∀ {w scopes} answers, Inv w scopes →
    wp (I.inScope answers)
      (fun _ w' => Inv w' (⟨(I.arena w.obj).currentPoint, []⟩ :: scopes) ∧ Untouched scopes w.mem w'.mem)
      (fun _ w' => Inv w' scopes ∧ Untouched scopes w.mem w'.mem) w
  outScope : ∀ {w scope scopes}, Inv w (scope :: scopes) →
    wp I.outScope
      (fun _ w' => Inv w' scopes ∧ (I.arena w'.obj).currentPoint = scope.opened ∧ I.cache w'.obj = [] ∧
        w'.mem = w.mem)
      (fun _ _ => False) w
  write : ∀ {w scopes b p} (bytes : List Byte), Inv w scopes → b ∈ liveOf scopes →
    Block.Within p bytes.length b → ∃ m', w.mem.store p bytes = .ok m' ∧ Inv { w with mem := m' } scopes

theorem ends_of_wp {β : Type} {c : Call α β} {Q : β → World α → Prop} {E : Thrown → World α → Prop}
    {w : World α} (h : wp c Q E w) :
    (∃ a w', c w = .ok (.ok a, w') ∧ Q a w') ∨ ∃ e w', c w = .ok (.error e, w') ∧ E e w' := by
  obtain ⟨r, w', e, hq, he⟩ := wp_iff.1 h
  cases r with
  | ok a => exact .inl ⟨a, w', e, hq a rfl⟩
  | error ex => exact .inr ⟨ex, w', e, he ex rfl⟩

theorem noexcept_of_wp {c : Call α Unit} {Q : Unit → World α → Prop} {w : World α}
    (h : wp c Q (fun _ _ => False) w) : ∃ w', noexcept c w = .ok (.ok (), w') ∧ Q () w' := by
  have hwp : wp (noexcept c) Q (fun _ _ => False) w := by
    rw [noexcept, wp_tryCatch]
    exact h.mono (fun _ _ hq => hq) (fun _ _ he => he.elim)
  rcases ends_of_wp hwp with ⟨a, w', e, hq⟩ | ⟨_, _, _, he⟩
  · exact ⟨w', e, hq⟩
  · exact he.elim

theorem exists_of_some {σ : Type} {P : σ → Prop} {x : Except Fault (Option σ)} {s : σ}
    (e : x = .ok (some s)) (h : P s) : ∃ r, x = .ok r ∧ ∀ s', r = some s' → P s' :=
  ⟨some s, e, fun _ he => Option.some.inj he ▸ h⟩

theorem exists_of_none {σ : Type} {P : σ → Prop} {x : Except Fault (Option σ)} (e : x = .ok none) :
    ∃ r, x = .ok r ∧ ∀ s', r = some s' → P s' := by
  refine ⟨none, e, fun s' he => ?_⟩
  cases he

namespace Lawful

variable {I : ScopedAllocator α} {fits : Nat → Prop} {n : Nat} {held : World α → List Block}
  {Inv : World α → List Scope → Prop} {s s' : State α} {e : Answers × Op}

/-- Every operation ends and keeps the invariant, and only the caller changes what it has. -/
theorem next (hI : Lawful I fits n held Inv) (h : Inv s.world s.scopes) (hfit : e.2.Fits fits) :
    ∃ r, s.next I e = .ok r ∧ ∀ s', r = some s' → Inv s'.world s'.scopes ∧
      ((∀ p bytes, e.2 ≠ .write p bytes) →
        ∀ b ∈ s'.live, b ∈ s.live → ∀ q, b.Covers q → s'.world.mem.bytes q = s.world.mem.bytes q) := by
  obtain ⟨answers, op⟩ := e
  obtain ⟨w, scopes⟩ := s
  cases op with
  | inScope =>
    rcases ends_of_wp (hI.inScope answers h) with ⟨a, w', e, hinv, hu⟩ | ⟨ex, w', e, hinv, hu⟩
    · refine exists_of_some (by simp only [State.next, e]; rfl) ?_
      exact ⟨hinv, fun _ b _ hb => hu b hb⟩
    · refine exists_of_some (by simp only [State.next, e]; rfl) ?_
      exact ⟨hinv, fun _ b _ hb => hu b hb⟩
  | outScope =>
    cases scopes with
    | nil => exact exists_of_none rfl
    | cons scope scopes =>
      obtain ⟨w', e, hinv, -, -, hmem⟩ := noexcept_of_wp (hI.outScope h)
      refine exists_of_some (by simp only [State.next, e]; rfl) ?_
      exact ⟨hinv, fun _ _ _ _ q _ => by rw [hmem]⟩
  | malloc sz =>
    cases scopes with
    | nil =>
      rcases ends_of_wp (hI.malloc_nil answers sz h) with ⟨rs, w', e, rfl, hinv⟩ | ⟨ex, w', e, hinv⟩
      · refine exists_of_some (by simp only [State.next, e]; rfl) ?_
        exact ⟨hinv, fun _ _ hb => absurd hb List.not_mem_nil⟩
      · refine exists_of_some (by simp only [State.next, e]; rfl) ?_
        exact ⟨hinv, fun _ _ hb => absurd hb List.not_mem_nil⟩
    | cons scope scopes =>
      rcases ends_of_wp (hI.malloc answers h hfit) with ⟨rs, w', e, hrs, hu⟩ | ⟨ex, w', e, hinv, hu⟩
      · rcases hrs with ⟨rfl, hinv⟩ | ⟨p, rfl, hinv⟩
        · refine exists_of_some (by simp only [State.next, e]; rfl) ?_
          exact ⟨hinv, fun _ b _ hb => hu b hb⟩
        · refine exists_of_some (by simp only [State.next, e]; rfl) ?_
          exact ⟨hinv, fun _ b _ hb => hu b hb⟩
      · refine exists_of_some (by simp only [State.next, e]; rfl) ?_
        exact ⟨hinv, fun _ b _ hb => hu b hb⟩
  | free buf =>
    cases buf with
    | none =>
      have e : noexcept (I.free answers none) w = .ok (.ok (), w) := by
        show catchC (I.free answers none) _ w = _
        rw [catchC, hI.free_null]
      have hp : ∀ q ∈ (none : Option Ptr), ∃ b ∈ State.live ⟨w, scopes⟩, b.ptr = q := by
        intro q hq
        cases hq
      refine exists_of_some (s := ⟨w, scopes⟩) ?_ ⟨h, fun _ _ _ _ _ _ => rfl⟩
      simp only [State.next]
      rw [if_pos hp, e]
      rfl
    | some p =>
      by_cases hp : ∀ q ∈ some p, ∃ b ∈ State.live ⟨w, scopes⟩, b.ptr = q
      · obtain ⟨b, hb, rfl⟩ := hp p rfl
        cases scopes with
        | nil => exact absurd hb List.not_mem_nil
        | cons scope scopes =>
          obtain ⟨w', e, hinv, hu⟩ := noexcept_of_wp (hI.free answers h hb)
          refine exists_of_some (s := ⟨w', State.giveBack b.ptr (scope :: scopes)⟩) ?_
            ⟨hinv, fun _ b hb _ => hu b hb⟩
          simp only [State.next]
          rw [if_pos hp, e]
          rfl
      · refine exists_of_none ?_
        simp only [State.next]
        rw [if_neg hp]
  | write p bytes =>
    by_cases hp : ∃ b ∈ State.live ⟨w, scopes⟩, Block.Within p bytes.length b
    · obtain ⟨b, hb, hw⟩ := hp
      obtain ⟨m', e, hinv⟩ := hI.write bytes h hb hw
      refine exists_of_some (s := ⟨{ w with mem := m' }, scopes⟩) ?_
        ⟨hinv, fun hne => absurd rfl (hne p bytes)⟩
      simp only [State.next]
      rw [if_pos ⟨b, hb, hw⟩, e]
      rfl
    · refine exists_of_none ?_
      simp only [State.next]
      rw [if_neg hp]

theorem reach {start : World α} (hI : Lawful I fits n held Inv) (h0 : Inv start []) {hist : List (Answers × Op)}
    (h : Run.Reach (· = ⟨start, []⟩) (FitStep I fits) s hist) : Inv s.world s.scopes := by
  refine h.inv (fun s _ => Inv s.world s.scopes) (fun _ e => e ▸ h0) ?_
  rintro s _ e s' hs ⟨hfit, hstep⟩
  obtain ⟨r, hr, hnext⟩ := hI.next hs hfit
  exact (hnext s' (Except.ok.inj (hr.symm.trans hstep))).1

theorem inArena_of_outer {a : ScopeAllocator} {b : Block} (h : InArena a (b.outer n))
    (hn : n ≤ b.ptr.offset) : InArena a b := by
  obtain ⟨piece, hmem, buf, hbuf, h1, h2, h3⟩ := h
  refine ⟨piece, hmem, buf, hbuf, h1, ?_, ?_⟩
  · exact h2.trans (Nat.sub_le _ _)
  · simp only [Block.outer] at h3 ⊢
    omega

variable {scopes : List Scope}

theorem live_inArena (hI : Lawful I fits n held Inv) {w : World α} (h : Inv w scopes) :
    ∀ b ∈ liveOf scopes, InArena (I.arena w.obj) b := fun b hb =>
  inArena_of_outer ((hI.lends h).inArena (List.mem_append_left _ (List.mem_map_of_mem hb)))
    ((hI.lends h).blocks b hb).1

theorem live_disjoint (hI : Lawful I fits n held Inv) {w : World α} (h : Inv w scopes) :
    (liveOf scopes).Pairwise fun b c => Block.Disjoint b c ∧ b.ptr ≠ c.ptr := by
  have hd := List.pairwise_map.1 (List.pairwise_append.1 (hI.lends h).disjoint).1
  refine hd.imp_of_mem fun {b c} hb hc hbc => ?_
  exact ⟨hbc.of_outer, hbc.of_outer.ptr_ne ((hI.lends h).blocks b hb).2 ((hI.lends h).blocks c hc).2⟩

/-- **A lawful allocator is sound.** -/
theorem sound (hI : Lawful I fits n held Inv) (h : Inv s.world s.scopes) : Sound I fits s where
  inArena := hI.live_inArena h
  disjoint := hI.live_disjoint h
  malloc := by
    obtain ⟨w0, scopes⟩ := s
    intro answers sz p w hfit e
    cases scopes with
    | nil =>
      rcases ends_of_wp (hI.malloc_nil answers sz h) with ⟨rs, w', e', rfl, -⟩ | ⟨ex, w', e', -⟩
      · cases e.symm.trans e'
      · cases e.symm.trans e'
    | cons scope scopes =>
      rcases ends_of_wp (hI.malloc answers h hfit) with ⟨rs, w', e', hrs, -⟩ | ⟨ex, w', e', -⟩
      · cases e.symm.trans e'
        rcases hrs with ⟨hrs, -⟩ | ⟨p', hrs, hinv⟩
        · cases hrs
        · obtain rfl := Option.some.inj hrs
          refine ⟨List.cons_ne_nil _ _, hI.live_inArena hinv _ List.mem_cons_self, fun b hb => ?_⟩
          exact (List.pairwise_cons.1 (hI.live_disjoint hinv)).1 b hb
      · cases e.symm.trans e'
  untouched := by
    rintro e s' ⟨hfit, hstep⟩
    obtain ⟨r, hr, hnext⟩ := hI.next h hfit
    exact (hnext s' (Except.ok.inj (hr.symm.trans hstep))).2
  close := by
    obtain ⟨w0, scopes⟩ := s
    intro answers s' hstep
    cases scopes with
    | nil => cases hstep
    | cons scope scopes =>
      obtain ⟨w', e, -, hpoint, hcache, -⟩ := noexcept_of_wp (hI.outScope h)
      unfold State.Step at hstep
      simp only [State.next, e] at hstep
      obtain rfl := Option.some.inj (Except.ok.inj hstep)
      exact ⟨scope, rfl, hpoint, hcache⟩
  total := by
    intro e fault hfit hfault
    obtain ⟨r, hr, -⟩ := hI.next h hfit
    cases hr.symm.trans hfault

end Lawful

/-! ## The two allocators -/

theorem ScopeAllocator.lawful :
    Lawful ScopeAllocator.interface (0 < ·) 0 (fun _ => []) fun w scopes => Lends 0 [] w.obj w.mem scopes where
  lends h := h
  malloc := by
    intro w scope scopes sz answers h hsz
    refine (h.malloc sz).mono ?_ ?_
    · rintro rs w' ⟨c, rfl, hsize, hlends, hgrew⟩
      have hc : (⟨c.ptr, sz⟩ : Block) = c := by rw [← hsize]
      refine ⟨.inr ⟨c.ptr, rfl, ?_⟩, .of_grew hgrew⟩
      rw [hc]
      exact hlends.lend (.refl _) ⟨Nat.zero_le _, hsize ▸ hsz⟩
    · rintro e w' ⟨hlends, hgrew⟩
      exact ⟨hlends, .of_grew hgrew⟩
  malloc_nil := by
    intro w answers sz h
    refine (h.malloc_nil sz).mono (fun _ _ hq => hq.elim) ?_
    rintro e w' rfl
    exact h
  free_null _ _ := rfl
  free := by
    intro w scope scopes b answers h hb
    exact ⟨(h.giveBack hb).weaken List.nil_subperm, .of_grew .rfl⟩
  inScope := by
    intro w scopes answers h
    refine h.inScope.mono ?_ ?_
    · rintro - w' ⟨hlends, hgrew⟩
      exact ⟨hlends, .of_grew hgrew⟩
    · rintro e w' ⟨hlends, hgrew⟩
      exact ⟨hlends, .of_grew hgrew⟩
  outScope := by
    intro w scope scopes h
    refine h.outScope.mono ?_ (fun _ _ he => he)
    rintro - w' ⟨hlends, hpoint, hmem⟩
    exact ⟨hlends, hpoint, rfl, hmem⟩
  write := by
    intro w scopes b p bytes h hb hw
    have hin := (h.inside (List.mem_append_left _ (List.mem_map_of_mem hb))).of_offset hw.1 hw.2.2
    obtain ⟨m', hstore⟩ := Memory.store_ok bytes hin
    exact ⟨m', hstore, h.setMem (Memory.sizes_store hstore ▸ List.prefix_rfl)⟩

theorem ScopeExactReuseAllocator.lawful :
    Lawful ScopeExactReuseAllocator.interface (· + 8 < 2 ^ 64) 8 (fun w => [] ++ heldBy (mapOf w))
      (ReuseInv []) where
  lends h := h.lends
  malloc answers h hsz := h.malloc hsz
  malloc_nil := by
    intro w answers sz h
    exact h.malloc_nil sz
  free_null _ _ := rfl
  free answers h hb := h.free hb
  inScope answers h := h.inScope
  outScope h := h.outScope
  write bytes h hb hw := h.write hb bytes hw

def startOf (obj : α) (m : Memory) : State α := ⟨⟨obj, m⟩, []⟩

theorem ScopeExactReuseAllocator.start {baseAllocationSz globalCap elementalCap : Nat}
    {r : ScopeExactReuseAllocator} (hlt : baseAllocationSz < 2 ^ 64)
    (e : ScopeExactReuseAllocator.make baseAllocationSz globalCap elementalCap = .ok r) (m : Memory) :
    ReuseInv [] ⟨r, m⟩ [] := by
  unfold ScopeExactReuseAllocator.make at e
  cases ha : ScopeAllocator.make baseAllocationSz with
  | error fault =>
    rw [ha] at e
    cases e
  | ok a =>
    rw [ha] at e
    unfold ExactReuseAllocator.make at e
    by_cases hg : globalCap = 0
    · rw [if_pos hg] at e
      cases e
    · rw [if_neg hg] at e
      by_cases he : elementalCap = 0
      · rw [if_pos he] at e
        cases e
      · rw [if_neg he] at e
        obtain rfl := Except.ok.inj e
        exact ⟨.start hlt ha 8 m, fun b hb => (nomatch hb), fun e he => nomatch he⟩

/-- **Both scoped allocators are sound** in every state that operations lead to, where no request to the
scope allocator is empty, and no request to the one with a cache is so large that its size with the header
wraps. -/
theorem scoped_sound {baseAllocationSz globalCap elementalCap : Nat} {a : ScopeAllocator}
    {r : ScopeExactReuseAllocator} (hlt : baseAllocationSz < 2 ^ 64)
    (ha : ScopeAllocator.make baseAllocationSz = .ok a)
    (hr : ScopeExactReuseAllocator.make baseAllocationSz globalCap elementalCap = .ok r) (m : Memory) :
    (∀ s hist, Run.Reach (· = startOf a m) (FitStep ScopeAllocator.interface (0 < ·)) s hist →
      Sound ScopeAllocator.interface (0 < ·) s) ∧
    ∀ s hist,
      Run.Reach (· = startOf r m) (FitStep ScopeExactReuseAllocator.interface (· + 8 < 2 ^ 64)) s hist →
      Sound ScopeExactReuseAllocator.interface (· + 8 < 2 ^ 64) s := by
  refine ⟨fun s hist h => ?_, fun s hist h => ?_⟩
  · exact ScopeAllocator.lawful.sound (ScopeAllocator.lawful.reach (.start hlt ha 0 m) h)
  · have h0 := ScopeExactReuseAllocator.start hlt hr m
    exact ScopeExactReuseAllocator.lawful.sound (ScopeExactReuseAllocator.lawful.reach h0 h)

def generous : Answers := ⟨fun _ => true, true, true, true, 0, []⟩

def noMemory : Memory := ⟨[], fun _ => 0⟩

/-- Two scopes, a block in each, one of which is given back, asked for again and lost with its scope. -/
def sampleOps : List (Answers × Op) :=
  [.inScope, .malloc 5, .inScope, .malloc 3, .free (some ⟨0, 21⟩), .malloc 3, .outScope, .malloc 3].map
    (generous, ·)

theorem scoped_sound_sample : ∃ s : State ScopeExactReuseAllocator, s.live.length = 2 ∧
    Sound ScopeExactReuseAllocator.interface (· + 8 < 2 ^ 64) s := by
  have hrun : (sampleOps.foldlM (fun s e => Run.ofStep (s.next ScopeExactReuseAllocator.interface e))
      (startOf ⟨⟨[], [], 64, none⟩, ⟨[], 2, 2, 0⟩⟩ noMemory)).map (·.live.length) = some 2 := by
    decide +kernel
  obtain ⟨s, hs, e⟩ := Option.map_eq_some_iff.1 hrun
  have hinit : Run.Reach (· = startOf (⟨⟨[], [], 64, none⟩, ⟨[], 2, 2, 0⟩⟩ : ScopeExactReuseAllocator) noMemory)
      (FitStep ScopeExactReuseAllocator.interface (· + 8 < 2 ^ 64)) (startOf _ noMemory) [] := .init rfl
  have hfit : ∀ e ∈ sampleOps, e.2.Fits (· + 8 < 2 ^ 64) := by simp [sampleOps, Op.Fits]
  have hstep : ∀ {s e s'}, e.2.Fits (· + 8 < 2 ^ 64) →
      Run.ofStep (State.next ScopeExactReuseAllocator.interface s e) = some s' →
      FitStep ScopeExactReuseAllocator.interface (· + 8 < 2 ^ 64) s e s' :=
    fun hfit e => ⟨hfit, Run.ofStep_eq_some e⟩
  have hreach := hinit.foldlM_of hstep hfit hs
  have ha : ScopeAllocator.make 64 = .ok ⟨[], [], 64, none⟩ := rfl
  have hr : ScopeExactReuseAllocator.make 64 2 2 = .ok ⟨⟨[], [], 64, none⟩, ⟨[], 2, 2, 0⟩⟩ := rfl
  exact ⟨s, e, (scoped_sound (by decide) ha hr noMemory).2 s _ hreach⟩

/-- **Where the two go wrong**: the scope allocator returns the place of an empty block again, while the
block is live, and the cache makes a block of 2^64 - 8 bytes of an empty one. -/
theorem scoped_sound_fails :
    (∃ a s hist, ScopeAllocator.make 16 = .ok a ∧
      Run.Reach (· = startOf a noMemory) (State.Step ScopeAllocator.interface) s hist ∧
      s.live = [⟨⟨0, 0⟩, 1⟩, ⟨⟨0, 0⟩, 0⟩]) ∧
    ∃ r s hist, ScopeExactReuseAllocator.make 16 1 1 = .ok r ∧
      Run.Reach (· = startOf r noMemory) (State.Step ScopeExactReuseAllocator.interface) s hist ∧
      ∃ b ∈ s.live, ¬ InArena s.world.obj.scopeAllocator b := by
  constructor
  · have hrun : ([(generous, Op.inScope), (generous, .malloc 0), (generous, .malloc 1)].foldlM
        (fun s e => Run.ofStep (s.next ScopeAllocator.interface e))
        (startOf ⟨[], [], 16, none⟩ noMemory)).map (·.live) = some [⟨⟨0, 0⟩, 1⟩, ⟨⟨0, 0⟩, 0⟩] := by
      decide +kernel
    obtain ⟨s, hs, e⟩ := Option.map_eq_some_iff.1 hrun
    have hinit : Run.Reach (· = startOf (⟨[], [], 16, none⟩ : ScopeAllocator) noMemory)
        (State.Step ScopeAllocator.interface) (startOf _ noMemory) [] := .init rfl
    exact ⟨_, s, _, rfl, hinit.runM (fun e => e) hs, e⟩
  · have hrun : ([(generous, Op.inScope), (generous, .malloc (2 ^ 64 - 8))].foldlM
        (fun s e => Run.ofStep (s.next ScopeExactReuseAllocator.interface e))
        (startOf ⟨⟨[], [], 16, none⟩, ⟨[], 1, 1, 0⟩⟩ noMemory)).map
          (fun s => (s.live, s.world.obj.scopeAllocator.mempieceVec)) =
        some ([⟨⟨0, 8⟩, 2 ^ 64 - 8⟩], [⟨some ⟨0, 0⟩, 16⟩]) := by
      decide +kernel
    obtain ⟨s, hs, e⟩ := Option.map_eq_some_iff.1 hrun
    obtain ⟨hlive, hvec⟩ := Prod.mk.inj e
    have hinit : Run.Reach
        (· = startOf (⟨⟨[], [], 16, none⟩, ⟨[], 1, 1, 0⟩⟩ : ScopeExactReuseAllocator) noMemory)
        (State.Step ScopeExactReuseAllocator.interface) (startOf _ noMemory) [] := .init rfl
    refine ⟨_, s, _, rfl, hinit.runM (fun e => e) hs, _, hlive ▸ List.mem_cons_self, ?_⟩
    rintro ⟨piece, hmem, buf, hbuf, -, -, hle⟩
    rw [hvec] at hmem
    obtain rfl := List.mem_singleton.1 hmem
    obtain rfl := Option.some.inj hbuf
    revert hle
    decide

/-! ## The count of the cache -/

namespace ExactReuseAllocator

def cached (a : ExactReuseAllocator) : Nat := (a.reuseMap.flatMap (·.2.elems)).length

def cleared (a : ExactReuseAllocator) : ExactReuseAllocator :=
  { a with reuseMap := [], reuseMapElementalSz := 0 }

/-- `a'` has `k` buffers more in its cache than `a`, and counts them. -/
structure Takes (k : Nat) (a a' : ExactReuseAllocator) : Prop where
  counted : a'.reuseMapElementalSz = a.reuseMapElementalSz + k
  cached : a'.cached = a.cached + k
  cap : a'.reuseMapElementalCap = a.reuseMapElementalCap

theorem Takes.refl (a : ExactReuseAllocator) : Takes 0 a a := ⟨rfl, rfl, rfl⟩

theorem Takes.trans {k l : Nat} {a b c : ExactReuseAllocator} (h : Takes k a b) (h' : Takes l b c) :
    Takes (k + l) a c := by
  refine ⟨?_, ?_, h'.cap.trans h.cap⟩
  · rw [h'.counted, h.counted, Nat.add_assoc]
  · rw [h'.cached, h.cached, Nat.add_assoc]

/-- The same, unless the cache was full and is emptied first. -/
def Freed (k : Nat) (a a' : ExactReuseAllocator) : Prop :=
  Takes k a a' ∨ ((a.reuseMapElementalSz = a.reuseMapElementalCap ∨
    a.reuseMap.length = a.reuseMapGlobalCap) ∧ Takes k a.cleared a')

def Serves (a : ExactReuseAllocator) (sz : Nat) : Prop :=
  sz ≠ 0 ∧ ∃ vec, a.reuseMap.lookup sz = some vec ∧ vec.elems ≠ []

theorem cached_setEntry (a : ExactReuseAllocator) (sz : Nat) (vec : PointerVec) :
    (a.setEntry sz vec).cached + ((a.reuseMap.lookup sz).map (·.elems.length)).getD 0 =
      a.cached + vec.elems.length := by
  have h := (HashTable.flatMap_alter (fun _ => vec) sz a.reuseMap (fun e => e.2.elems)).length_eq
  rw [List.length_append, List.length_append] at h
  rw [cached, setEntry, cached, ← h]
  cases a.reuseMap.lookup sz with
  | none => rfl
  | some old => rfl

variable {answers : Answers} {w : ReuseWorld} {sz : Nat} {E : Thrown → ReuseWorld → Prop}

theorem wlp_get {Q : ExactReuseAllocator → ReuseWorld → Prop} (h : Q w.obj.reuseAllocator w) :
    wlp get Q E w := .inr (wp_get.2 h)

theorem wlp_set {Q : Unit → ReuseWorld → Prop} {a : ExactReuseAllocator} (h : Q () (withReuse w a)) :
    wlp (set a) Q E w :=
  .inr (wp_set.2 h)

theorem wlp_scopeCall {β : Type} (m : Call ScopeAllocator β) :
    wlp (scopeCall m) (fun _ w' => w'.obj.reuseAllocator = w.obj.reuseAllocator)
      (fun _ w' => w'.obj.reuseAllocator = w.obj.reuseAllocator) w :=
  wlp_zoom (wlp_of_forall (fun _ _ => rfl) fun _ _ => rfl)

theorem wlp_internalFlush :
    wlp internalFlush (fun _ w' => w'.obj.reuseAllocator = w.obj.reuseAllocator.cleared)
      (fun _ _ => False) w := by
  apply wlp_bind
  apply wlp_get
  apply wlp_bind
  refine (wlp_foldlM_inv (fun _ w' => w' = w) rfl fun p _ w' h => ?_).mono (fun _ w' h => ?_)
    fun _ _ he => he
  · apply wlp_bind
    apply wlp_lift
    exact fun _ _ => wlp_pure h
  · subst h
    exact wlp_set rfl

theorem wlp_addEntry (hnone : w.obj.reuseAllocator.reuseMap.lookup sz = none) :
    wlp (addEntry answers sz)
      (fun _ w' => Freed 0 w.obj.reuseAllocator w'.obj.reuseAllocator)
      (fun _ _ => False) w := by
  -- the entry is added to a map without one
  have hadd (w1 : ReuseWorld) (h1 : w1.obj.reuseAllocator.reuseMap.lookup sz = none) :
      wlp (if answers.entryRoom then do
          let a ← get
          set (a.setEntry sz ⟨none, 0, []⟩)
          pure true
        else pure false)
        (fun _ w' => Takes 0 w1.obj.reuseAllocator w'.obj.reuseAllocator) (fun _ _ => False) w1 := by
    by_cases hroom : answers.entryRoom = true
    · rw [if_pos hroom]
      apply wlp_bind
      apply wlp_get
      apply wlp_bind
      apply wlp_set
      apply wlp_pure
      have hc := cached_setEntry w1.obj.reuseAllocator sz ⟨none, 0, []⟩
      rw [h1] at hc
      exact ⟨rfl, hc, rfl⟩
    · rw [if_neg hroom]
      exact wlp_pure (.refl _)
  apply wlp_bind
  apply wlp_get
  by_cases hfull : w.obj.reuseAllocator.reuseMap.length = w.obj.reuseAllocator.reuseMapGlobalCap
  · rw [if_pos hfull]
    apply wlp_bind
    refine wlp_internalFlush.mono (fun _ w1 h1 => ?_) fun _ _ he => he
    refine (hadd w1 (by rw [h1]; rfl)).mono (fun _ w2 h2 => ?_) fun _ _ he => he
    rw [h1] at h2
    exact .inr ⟨.inr hfull, h2⟩
  · rw [if_neg hfull]
    exact (hadd w hnone).mono (fun _ w2 h2 => .inl h2) fun _ _ he => he

theorem wlp_pushBack {vec : PointerVec} {buf : Ptr} {t : World ScopeAllocator} :
    wlp (vec.pushBack answers buf) (fun vec' _ => vec'.elems = vec.elems ++ [buf])
      (fun _ _ => True) t := by
  have hpush (vec' : PointerVec) (t' : World ScopeAllocator) (h : vec'.elems = vec.elems) :
      wlp (do
          vec'.writeStorage answers
          pure { vec' with elems := vec'.elems ++ [buf] })
        (fun vec' _ => vec'.elems = vec.elems ++ [buf]) (fun _ _ => True) t' := by
    apply wlp_bind
    refine wlp_of_forall (fun _ _ => wlp_pure ?_) fun _ _ => True.intro
    rw [h]
  unfold PointerVec.pushBack
  by_cases hroom : vec.elems.length < vec.capacity
  · rw [if_pos hroom]
    apply wlp_bind
    exact wlp_pure (hpush vec t rfl)
  · rw [if_neg hroom]
    apply wlp_bind
    unfold PointerVec.grow
    by_cases hmax : vec.elems.length = PointerVec.maxSize
    · rw [if_pos hmax]
      apply wlp_bind
      exact wlp_throw True.intro
    · rw [if_neg hmax]
      apply wlp_bind
      exact wlp_of_forall (fun storage t' => wlp_pure (hpush _ t' rfl)) fun _ _ => True.intro

theorem wlp_pushEntry {buf : Ptr} :
    wlp (pushEntry answers sz buf)
      (fun _ w' => Takes 1 w.obj.reuseAllocator w'.obj.reuseAllocator)
      (fun _ w' => w'.obj.reuseAllocator = w.obj.reuseAllocator) w := by
  apply wlp_bind
  apply wlp_get
  cases hget : w.obj.reuseAllocator.reuseMap.lookup sz with
  | none => exact wlp_wrong
  | some vec =>
    apply wlp_bind
    apply wlp_zoom
    refine wlp_pushBack.mono (fun vec' t h => ?_) fun _ _ _ => rfl
    apply wlp_bind
    apply wlp_get
    apply wlp_set
    have hc := cached_setEntry w.obj.reuseAllocator sz vec'
    rw [hget, h, List.length_append] at hc
    refine ⟨rfl, ?_, rfl⟩
    change (w.obj.reuseAllocator.setEntry sz vec').cached = _
    simp only [Option.map_some, Option.getD_some, List.length_singleton] at hc
    omega

theorem wlp_free {buf : Option Ptr} :
    wlp (free answers buf)
      (fun _ w' => ∃ k ≤ 1, Freed k w.obj.reuseAllocator w'.obj.reuseAllocator)
      (fun _ _ => False) w := by
  cases buf with
  | none => exact wlp_pure ⟨0, Nat.zero_le 1, .inl (.refl _)⟩
  | some buf =>
    -- what is left to do once the cache is not full
    have hrest (sz : Nat) (previousBuf : Ptr) (w1 : ReuseWorld) :
        wlp (do
            let a ← get
            let found ← (if (a.reuseMap.lookup sz).isNone then addEntry answers sz else pure true)
            if found then
              tryCatch (pushEntry answers sz buf) fun _ => ScopeAllocator.free (some previousBuf)
            else
              ScopeAllocator.free (some previousBuf))
          (fun _ w' => ∃ k ≤ 1, Freed k w1.obj.reuseAllocator w'.obj.reuseAllocator)
          (fun _ _ => False) w1 := by
      have hpush (found : Bool) (w2 : ReuseWorld)
          (h2 : Freed 0 w1.obj.reuseAllocator w2.obj.reuseAllocator) :
          wlp (if found then
              tryCatch (pushEntry answers sz buf) fun _ => ScopeAllocator.free (some previousBuf)
            else
              ScopeAllocator.free (some previousBuf))
            (fun _ w' => ∃ k ≤ 1, Freed k w1.obj.reuseAllocator w'.obj.reuseAllocator)
            (fun _ _ => False) w2 := by
        cases found with
        | false => exact wlp_pure ⟨0, Nat.zero_le 1, h2⟩
        | true =>
          rw [if_pos rfl]
          apply wlp_tryCatch
          refine wlp_pushEntry.mono (fun _ w3 h3 => ⟨1, Nat.le_refl 1, ?_⟩) fun _ w3 h3 => wlp_pure ?_
          · exact h2.imp (fun h => h.trans h3) fun h => ⟨h.1, h.2.trans h3⟩
          · rw [h3]
            exact ⟨0, Nat.zero_le 1, h2⟩
      apply wlp_bind
      apply wlp_get
      apply wlp_bind
      cases hget : w1.obj.reuseAllocator.reuseMap.lookup sz with
      | none => exact (wlp_addEntry hget).mono (fun found w2 h2 => hpush found w2 h2) fun _ _ he => he
      | some vec => exact wlp_pure (hpush true w1 (.inl (.refl _)))
    apply wlp_bind
    apply wlp_lift
    intro previousBuf _
    apply wlp_bind
    apply wlp_getState
    apply wlp_bind
    apply wlp_lift
    intro bytes _
    by_cases hfull : w.obj.reuseAllocator.reuseMapElementalSz = w.obj.reuseAllocator.reuseMapElementalCap
    · rw [if_pos hfull]
      apply wlp_bind
      refine wlp_internalFlush.mono (fun _ w1 h1 => ?_) fun _ _ he => he
      refine (hrest _ previousBuf w1).mono (fun _ w2 h2 => ?_) fun _ _ he => he
      obtain ⟨k, hk, h2⟩ := h2
      rw [h1] at h2
      -- a second flush finds the cache empty
      rcases h2 with h2 | ⟨-, h2⟩
      · exact ⟨k, hk, .inr ⟨.inl hfull, h2⟩⟩
      · exact ⟨k, hk, .inr ⟨.inl hfull, h2⟩⟩
    · rw [if_neg hfull]
      exact hrest _ previousBuf w

/-- `malloc` takes a buffer from the cache if there is one of the size, and does not count it. -/
theorem wlp_malloc :
    wlp (malloc answers sz)
      (fun _ w' => (Serves w.obj.reuseAllocator sz ∧
          w'.obj.reuseAllocator.reuseMapElementalSz = w.obj.reuseAllocator.reuseMapElementalSz ∧
          w'.obj.reuseAllocator.cached + 1 = w.obj.reuseAllocator.cached) ∨
        (¬ Serves w.obj.reuseAllocator sz ∧ w'.obj.reuseAllocator = w.obj.reuseAllocator))
      (fun _ w' => ¬ Serves w.obj.reuseAllocator sz ∧ w'.obj.reuseAllocator = w.obj.reuseAllocator)
      w := by
  unfold malloc
  by_cases hsz : sz = 0
  · rw [if_pos hsz]
    exact wlp_pure (.inr ⟨fun h => h.1 hsz, rfl⟩)
  rw [if_neg hsz]
  apply wlp_bind
  apply wlp_get
  cases hfound : (w.obj.reuseAllocator.reuseMap.lookup sz).bind
      fun vec => vec.elems.getLast?.map fun rs => (vec, rs) with
  | some found =>
    obtain ⟨vec, hget, hlast⟩ := Option.bind_eq_some_iff.1 hfound
    obtain ⟨rs, hrs, rfl⟩ := Option.map_eq_some_iff.1 hlast
    obtain ⟨rest, hrest⟩ := List.getLast?_eq_some_iff.1 hrs
    apply wlp_bind
    apply wlp_set
    apply wlp_pure
    refine .inl ⟨⟨hsz, vec, hget, by simp [hrest]⟩, rfl, ?_⟩
    have hc := cached_setEntry w.obj.reuseAllocator sz { vec with elems := vec.elems.dropLast }
    rw [hget, hrest, List.dropLast_concat, Option.map_some, Option.getD_some, hrest,
      List.length_append] at hc
    change (w.obj.reuseAllocator.setEntry sz { vec with elems := vec.elems.dropLast }).cached + 1 = _
    rw [hrest, List.dropLast_concat]
    simp only [List.length_singleton] at hc
    omega
  | none =>
    have hnot : ¬ Serves w.obj.reuseAllocator sz := by
      intro h
      obtain ⟨-, vec, hget, hne⟩ := h
      rw [hget, Option.bind_some, Option.map_eq_none_iff] at hfound
      exact hne (List.getLast?_eq_none_iff.1 hfound)
    apply wlp_bind
    refine (wlp_scopeCall _).mono (fun rs w1 h1 => ?_) fun _ _ h1 => ⟨hnot, h1⟩
    cases rs with
    | none => exact wlp_wrong
    | some rs =>
      apply wlp_bind
      apply wlp_getState
      apply wlp_bind
      apply wlp_lift
      intro m _
      apply wlp_bind
      apply wlp_setState
      exact wlp_pure (.inr ⟨hnot, h1⟩)

end ExactReuseAllocator

namespace ScopeExactReuseAllocator

open ExactReuseAllocator

def ServedBy (s : State ScopeExactReuseAllocator) (op : Op) : Prop :=
  ∃ sz, op = .malloc sz ∧ Serves s.world.obj.reuseAllocator sz

theorem not_servedBy {s : State ScopeExactReuseAllocator} {op : Op} (h : ∀ sz, op ≠ .malloc sz) :
    ¬ ServedBy s op := by
  intro hserved
  obtain ⟨sz, hop, -⟩ := hserved
  exact h sz hop

theorem wlp_noexcept {m : Call α Unit} {Q : Unit → World α → Prop} {E : Thrown → World α → Prop}
    {w : World α} (h : wlp m Q E w) : wlp (noexcept m) Q (fun _ _ => False) w :=
  wlp_tryCatch (h.mono (fun _ _ hq => hq) fun _ _ _ => wlp_wrong)

theorem wlp_outScope {w : ReuseWorld} :
    wlp outScope (fun _ w' => w'.obj.reuseAllocator = w.obj.reuseAllocator.cleared)
      (fun _ _ => True) w := by
  apply wlp_bind
  refine wlp_internalFlush.mono (fun _ w1 h1 => ?_) fun _ _ he => he.elim
  exact (wlp_scopeCall _).mono (fun _ w2 h2 => h2.trans h1) fun _ _ _ => True.intro

variable {s s' : State ScopeExactReuseAllocator} {a a' : ExactReuseAllocator} {answers : Answers}
  {e : Answers × Op} {buf : Option Ptr}

theorem step_free (h : s.Step interface (answers, .free buf) s') :
    ∃ k ≤ 1, Freed k s.world.obj.reuseAllocator s'.world.obj.reuseAllocator := by
  simp only [State.Step, State.next] at h
  split at h
  · obtain ⟨⟨rs, w⟩, e, h⟩ := Loop.bind_eq_ok h
    obtain ⟨hq, he⟩ := (wlp_noexcept wlp_free).ok e
    cases rs with
    | ok a =>
      cases h
      exact hq _ rfl
    | error ex => exact (he _ rfl).elim
  · cases h

theorem step_cases (h : s.Step interface e s') :
    (ServedBy s e.2 ∧
      s'.world.obj.reuseAllocator.reuseMapElementalSz = s.world.obj.reuseAllocator.reuseMapElementalSz ∧
      s'.world.obj.reuseAllocator.cached + 1 = s.world.obj.reuseAllocator.cached) ∨
    (¬ ServedBy s e.2 ∧ ((∃ k ≤ 1, Freed k s.world.obj.reuseAllocator s'.world.obj.reuseAllocator) ∨
      s'.world.obj.reuseAllocator = s.world.obj.reuseAllocator.cleared)) := by
  obtain ⟨answers, op⟩ := e
  have hsame {a : ExactReuseAllocator} (h : a = s.world.obj.reuseAllocator) :
      ∃ k ≤ 1, Freed k s.world.obj.reuseAllocator a := ⟨0, Nat.zero_le 1, .inl (h ▸ .refl _)⟩
  unfold State.Step at h
  cases op with
  | inScope =>
    obtain ⟨⟨rs, w⟩, e, h⟩ := Loop.bind_eq_ok h
    obtain ⟨hq, he⟩ := (wlp_scopeCall (ScopeAllocator.inScope answers)).ok e
    refine .inr ⟨not_servedBy (fun _ h => by cases h), .inl (hsame ?_)⟩
    cases rs with
    | ok a =>
      cases h
      exact hq _ rfl
    | error ex =>
      cases h
      exact he _ rfl
  | outScope =>
    refine .inr ⟨not_servedBy (fun _ h => by cases h), .inr ?_⟩
    simp only [State.next] at h
    split at h
    · cases h
    · obtain ⟨⟨rs, w⟩, e, h⟩ := Loop.bind_eq_ok h
      obtain ⟨hq, he⟩ := (wlp_noexcept wlp_outScope).ok e
      cases rs with
      | ok a =>
        cases h
        exact hq _ rfl
      | error ex => exact (he _ rfl).elim
  | malloc sz =>
    obtain ⟨⟨rs, w⟩, e, h⟩ := Loop.bind_eq_ok h
    obtain ⟨hq, he⟩ := wlp_malloc.ok e
    have hw : s'.world = w := by
      cases rs with
      | error ex =>
        cases h
        rfl
      | ok p =>
        cases p with
        | none =>
          cases h
          rfl
        | some p =>
          cases h
          rfl
    rw [hw]
    have hserved : ¬ Serves s.world.obj.reuseAllocator sz → ¬ ServedBy s (.malloc sz) := by
      intro hno hserved
      obtain ⟨sz', hop, hserves⟩ := hserved
      cases hop
      exact hno hserves
    cases rs with
    | ok a =>
      rcases hq _ rfl with ⟨hserves, hcounted, hcached⟩ | ⟨hno, hreuse⟩
      · exact .inl ⟨⟨sz, rfl, hserves⟩, hcounted, hcached⟩
      · exact .inr ⟨hserved hno, .inl (hsame hreuse)⟩
    | error ex =>
      obtain ⟨hno, hreuse⟩ := he _ rfl
      exact .inr ⟨hserved hno, .inl (hsame hreuse)⟩
  | free buf =>
    exact .inr ⟨not_servedBy (fun _ h => by cases h), .inl (step_free h)⟩
  | write p bytes =>
    refine .inr ⟨not_servedBy (fun _ h => by cases h), .inl (hsame ?_)⟩
    simp only [State.next] at h
    split at h
    · obtain ⟨m, -, h⟩ := Loop.bind_eq_ok h
      cases h
      rfl
    · cases h

/-- Every cached buffer is counted, and the cap is the one that was configured. -/
structure Counted (elementalCap : Nat) (a : ExactReuseAllocator) : Prop where
  counted : a.reuseMapElementalSz = a.cached
  cap : a.reuseMapElementalCap = elementalCap

variable {elementalCap : Nat}

theorem Counted.takes {k : Nat} (h : Counted elementalCap a) (ht : Takes k a a') :
    Counted elementalCap a' := by
  refine ⟨?_, ht.cap.trans h.cap⟩
  rw [ht.counted, ht.cached, h.counted]

theorem Counted.cleared {a : ExactReuseAllocator} (h : Counted elementalCap a) :
    Counted elementalCap a.cleared := ⟨rfl, h.cap⟩

theorem Counted.freed {k : Nat} (h : Counted elementalCap a) (hf : Freed k a a') :
    Counted elementalCap a' := by
  rcases hf with ht | ⟨-, ht⟩
  · exact h.takes ht
  · exact h.cleared.takes ht

theorem Counted.step (h : Counted elementalCap s.world.obj.reuseAllocator) (hno : ¬ ServedBy s e.2)
    (hs : s.Step interface e s') : Counted elementalCap s'.world.obj.reuseAllocator := by
  rcases step_cases hs with ⟨hserved, -⟩ | ⟨-, ⟨k, -, hf⟩ | hclear⟩
  · exact absurd hserved hno
  · exact h.freed hf
  · rw [hclear]
    exact h.cleared

theorem Counted.room (h : Counted elementalCap s.world.obj.reuseAllocator)
    (hroom : s.world.obj.reuseAllocator.cached < elementalCap)
    (hmap : s.world.obj.reuseAllocator.reuseMap.length ≠ s.world.obj.reuseAllocator.reuseMapGlobalCap)
    (hs : s.Step interface (answers, .free buf) s') :
    s.world.obj.reuseAllocator.cached ≤ s'.world.obj.reuseAllocator.cached := by
  obtain ⟨k, -, ht | ⟨hfull, -⟩⟩ := step_free hs
  · rw [ht.cached]
    exact Nat.le_add_right _ k
  · rcases hfull with hfull | hfull
    · rw [h.counted, h.cap] at hfull
      omega
    · exact absurd hfull hmap

theorem Counted.start {baseAllocationSz globalCap : Nat} {r : ScopeExactReuseAllocator}
    (e : make baseAllocationSz globalCap elementalCap = .ok r) : Counted elementalCap r.reuseAllocator := by
  obtain ⟨a, -, e⟩ := Loop.bind_eq_ok e
  obtain ⟨reuse, hreuse, e⟩ := Loop.bind_eq_ok e
  obtain rfl := Except.ok.inj e
  unfold ExactReuseAllocator.make at hreuse
  by_cases hg : globalCap = 0
  · rw [if_pos hg] at hreuse
    cases hreuse
  · rw [if_neg hg] at hreuse
    by_cases he : elementalCap = 0
    · rw [if_pos he] at hreuse
      cases hreuse
    · rw [if_neg he] at hreuse
      obtain rfl := Except.ok.inj hreuse
      exact ⟨rfl, rfl⟩

end ScopeExactReuseAllocator

open ExactReuseAllocator ScopeExactReuseAllocator

end ConventionalAllocator
