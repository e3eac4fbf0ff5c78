import Mathlib.Data.Fintype.EquivFin
import NeuralNetwork.Lib.ListUpdate
import NeuralNetwork.MutexExtension.FairMutex

/-!
# The fair mutex excludes and loses no wake-up

`Inv` holds in every world reached: the waiters are counted, the flag is set while a thread holds the
mutex, one thread holds it at most, and if the flag is clear while a thread is blocked then some thread
will see to it (`Attends`): one that was woken and has not come to its `test_and_set`, or one that has
cleared the flag and has not notified. One rule covers all steps that change one thread (`Inv.update`).
-/

namespace FairMutex

open Cpp UpdateCount Thread

/-! ## Where a thread is -/

def Pc.waits : Pc → Bool
  | .wait | .blocked | .subBusyWaiter => true
  | _ => false

def Pc.holds : Pc → Bool
  | .clearYieldThrId | .exchangePrevThrId | .critical | .loadBusyWaiterSzUnlock | .setYieldThrId
  | .clear => true
  | _ => false

def Thread.onItsWay (t : Thread) : Bool :=
  t.woken && (t.pc = .wait || t.pc = .subBusyWaiter || t.pc = .job 0)

def Thread.attends (t : Thread) : Bool := t.onItsWay || t.pc = .notifyOne

theorem Thread.attends_of_notify {t : Thread} (h : t.pc = .notifyOne) : t.attends = true := by
  simp [attends, h]

namespace World

variable {ι : Type} [Fintype ι] [DecidableEq ι] {id : ι → ThreadId} {w w' : World ι} {i : ι}

def waiters (w : World ι) : Nat := count (fun t => t.pc.waits) w.thread

structure Inv (id : ι → ThreadId) (w : World ι) : Prop where
  named : ∀ i, (w.thread i).pc ≠ .idle → id i ≠ NULL_THREAD_ID
  waiters : w.mtx.busyWaiterSz = w.waiters
  set : ∀ i, (w.thread i).pc.holds = true → w.mtx.atomicFlag = true
  excludes : ∀ i j, (w.thread i).pc.holds = true → (w.thread j).pc.holds = true → i = j
  awake : w.mtx.atomicFlag = false → (∃ i, (w.thread i).pc = .blocked) →
    ∃ j, (w.thread j).attends = true

omit [DecidableEq ι] in
/-- There are fewer than `2 ^ 64` waiters: their ids are distinct and none is the null id. -/
theorem count_waits_lt (hid : Function.Injective id) {f : ι → Thread}
    (hnamed : ∀ i, (f i).pc.waits = true → id i ≠ NULL_THREAD_ID) :
    count (fun t => t.pc.waits) f < 2 ^ 64 := by
  have hnull : NULL_THREAD_ID ∉
      (Finset.univ.filter fun i => (f i).pc.waits = true).map ⟨id, hid⟩ := by
    intro hmem
    obtain ⟨i, hi, he⟩ := Finset.mem_map.1 hmem
    exact hnamed i (Finset.mem_filter.1 hi).2 he
  have hlt := Finset.card_lt_univ_of_notMem hnull
  rw [Finset.card_map, Fintype.card_fin] at hlt
  exact hlt

omit [DecidableEq ι] in
theorem Inv.named_of_waits (h : Inv id w) (hw : (w.thread i).pc.waits = true) :
    id i ≠ NULL_THREAD_ID := by
  refine h.named i fun hidle => ?_
  rw [hidle] at hw
  cases hw

omit [DecidableEq ι] in
theorem Inv.waiters_lt (hid : Function.Injective id) (h : Inv id w) : w.waiters < 2 ^ 64 :=
  count_waits_lt hid fun _ => h.named_of_waits

theorem Inv.waiters_succ_lt (hid : Function.Injective id) (h : Inv id w) (hi : id i ≠ NULL_THREAD_ID)
    (hw : (w.thread i).pc.waits = false) : w.waiters + 1 < 2 ^ 64 := by
  have hu := count_update (fun t : Thread => t.pc.waits) w.thread i ⟨.wait, false⟩
  rw [hw] at hu
  have hlt := count_waits_lt hid (f := Function.update w.thread i ⟨.wait, false⟩) fun j hj => by
    by_cases hji : j = i
    · rw [hji]
      exact hi
    · rw [Function.update_of_ne hji] at hj
      exact h.named_of_waits hj
  have : w.waiters + 1 = count (fun t => t.pc.waits) (Function.update w.thread i ⟨.wait, false⟩) := hu.symm
  omega

variable {mtx : FairAtomicFlag}

/-- **A step of one thread.** It counts itself in and out, takes the flag only while it is clear, and
clears it only if it holds it; and a thread that stops attending leaves the flag set. -/
theorem Inv.update (h : Inv id w) {t : Thread} (hnamed : t.pc ≠ .idle → id i ≠ NULL_THREAD_ID)
    (hcount : mtx.busyWaiterSz + ((w.thread i).pc.waits).toNat =
      w.mtx.busyWaiterSz + (t.pc.waits).toNat) (htake : t.pc.holds = true → mtx.atomicFlag = true ∧
      ((w.thread i).pc.holds = true ∨ w.mtx.atomicFlag = false))
    (hclear : mtx.atomicFlag = w.mtx.atomicFlag ∨ mtx.atomicFlag = true ∨
      (w.thread i).pc.holds = true ∧ t.pc.holds = false)
    (hawake : mtx.atomicFlag = false → t.attends = true ∨
      w.mtx.atomicFlag = false ∧ t.pc ≠ .blocked ∧ (w.thread i).attends = false) :
    Inv id { mtx := mtx, thread := Function.update w.thread i t } where
  named j hj := by
    dsimp only at hj
    by_cases hji : j = i
    · subst hji
      rw [Function.update_self] at hj
      exact hnamed hj
    · rw [Function.update_of_ne hji] at hj
      exact h.named j hj
  waiters := by
    have hu := count_update (fun t : Thread => t.pc.waits) w.thread i t
    have hw := h.waiters
    unfold World.waiters at hw ⊢
    dsimp only at hu ⊢
    omega
  set j hj := by
    dsimp only at hj ⊢
    by_cases hji : j = i
    · subst hji
      rw [Function.update_self] at hj
      exact (htake hj).1
    · rw [Function.update_of_ne hji] at hj
      rcases hclear with he | he | ⟨hold, -⟩
      · exact he.trans (h.set j hj)
      · exact he
      · exact absurd (h.excludes j i hj hold) hji
  excludes j k hj hk := by
    dsimp only at hj hk
    -- no other thread holds the mutex if this one does
    have hother : t.pc.holds = true → ∀ j, j ≠ i → (w.thread j).pc.holds = true → False := by
      intro ht j hji hj
      rcases (htake ht).2 with hold | hfree
      · exact hji (h.excludes j i hj hold)
      · rw [h.set j hj] at hfree
        cases hfree
    by_cases hji : j = i
    · by_cases hki : k = i
      · rw [hji, hki]
      · rw [hji, Function.update_self] at hj
        rw [Function.update_of_ne hki] at hk
        exact (hother hj k hki hk).elim
    · rw [Function.update_of_ne hji] at hj
      by_cases hki : k = i
      · rw [hki, Function.update_self] at hk
        exact (hother hk j hji hj).elim
      · rw [Function.update_of_ne hki] at hk
        exact h.excludes j k hj hk
  awake hfree := by
    rintro ⟨j, hj⟩
    dsimp only at hj ⊢
    rcases hawake hfree with hatt | ⟨hold, hnot, hquiet⟩
    · exact ⟨i, by rwa [Function.update_self]⟩
    · have hji : j ≠ i := by
        rintro rfl
        rw [Function.update_self] at hj
        exact hnot hj
      rw [Function.update_of_ne hji] at hj
      obtain ⟨k, hk⟩ := h.awake hold ⟨j, hj⟩
      have hki : k ≠ i := by
        rintro rfl
        rw [hquiet] at hk
        cases hk
      exact ⟨k, by rwa [Function.update_of_ne hki]⟩

/-- A step that changes neither the flag nor the number of waiters, of a thread that neither takes
nor gives up the mutex. -/
theorem Inv.move (h : Inv id w) {pc : Pc} (hflag : mtx.atomicFlag = w.mtx.atomicFlag)
    (hbusy : mtx.busyWaiterSz = w.mtx.busyWaiterSz) (hnamed : id i ≠ NULL_THREAD_ID)
    (hwaits : pc.waits = (w.thread i).pc.waits) (hholds : pc.holds = (w.thread i).pc.holds)
    (hblocked : pc ≠ .blocked) (hquiet : (w.thread i).attends = false) :
    Inv id { mtx := mtx, thread := Function.update w.thread i { w.thread i with pc := pc } } := by
  refine h.update (fun _ => hnamed) ?_ (fun ht => ?_) (.inl hflag) fun hfree => .inr ?_
  · rw [hbusy, hwaits]
  · rw [hflag]
    have hold : (w.thread i).pc.holds = true := hholds ▸ ht
    exact ⟨h.set i hold, .inl hold⟩
  · exact ⟨hflag ▸ hfree, hblocked, hquiet⟩

theorem Inv.testAndSet (h : Inv id w) {failed : Pc} (hnamed : id i ≠ NULL_THREAD_ID)
    (hwaits : (w.thread i).pc.waits = false) (hfailed : failed.waits = false)
    (hholds : failed.holds = false) :
    Inv id { mtx := (FairMutex.testAndSet w.mtx failed).1,
             thread := Function.update w.thread i (FairMutex.testAndSet w.mtx failed).2 } := by
  unfold FairMutex.testAndSet
  cases hflag : w.mtx.atomicFlag with
  | true =>
    rw [if_pos rfl]
    refine h.update (fun _ => hnamed) ?_ (fun ht => ?_) (.inl rfl) fun hfree => ?_
    · rw [hwaits, hfailed]
    · rw [hholds] at ht
      cases ht
    · rw [hflag] at hfree
      cases hfree
  | false =>
    rw [if_neg Bool.false_ne_true]
    refine h.update (fun _ => hnamed) ?_ (fun _ => ⟨rfl, .inr hflag⟩) (.inr (.inl rfl)) fun hfree => ?_
    · rw [hwaits]
      rfl
    · cases hfree

theorem Inv.tried (h : Inv id w) {pc : Pc} (hnamed : id i ≠ NULL_THREAD_ID)
    (hflag : mtx.atomicFlag = w.mtx.atomicFlag)
    (hcount : mtx.busyWaiterSz + ((w.thread i).pc.waits).toNat =
      w.mtx.busyWaiterSz + (pc.waits).toNat) (hnotify : (w.thread i).pc ≠ .notifyOne)
    (hpc : pc = .subBusyWaiter ∨ pc = .job 0) :
    Inv id { mtx := mtx, thread := Function.update w.thread i { w.thread i with pc := pc } } := by
  refine h.update (fun _ => hnamed) hcount (fun ht => ?_) (.inl hflag) fun hfree => ?_
  · rcases hpc with rfl | rfl
    · cases ht
    · cases ht
  · cases hw : (w.thread i).woken with
    | true =>
      refine .inl ?_
      rcases hpc with rfl | rfl
      · simp [attends, onItsWay, hw]
      · simp [attends, onItsWay, hw]
    | false =>
      refine .inr ⟨hflag ▸ hfree, ?_, by simp [attends, onItsWay, hw, hnotify]⟩
      rcases hpc with rfl | rfl
      · exact nofun
      · exact nofun

omit [DecidableEq ι] in
/-- **`busy_waiter_sz` does not underflow.** -/
theorem Inv.busyWaiterSz_pos (h : Inv id w) (hw : (w.thread i).pc.waits = true) :
    0 < w.mtx.busyWaiterSz := by
  rw [h.waiters]
  exact count_pos hw

omit [DecidableEq ι] in
theorem Inv.subT_busyWaiterSz (hid : Function.Injective id) (h : Inv id w)
    (hw : (w.thread i).pc.waits = true) :
    subT w.mtx.busyWaiterSz 1 + 1 = w.mtx.busyWaiterSz := by
  have hpos := h.busyWaiterSz_pos hw
  have hlt : w.mtx.busyWaiterSz < 2 ^ 64 := h.waiters ▸ h.waiters_lt hid
  rw [subT_of_le hpos hlt]
  exact Nat.sub_add_cancel hpos

theorem Inv.sub (hid : Function.Injective id) (h : Inv id w) (hpc : (w.thread i).pc = .subBusyWaiter)
    (hnamed : id i ≠ NULL_THREAD_ID) :
    Inv id { mtx := { w.mtx with busyWaiterSz := subT w.mtx.busyWaiterSz 1 },
             thread := Function.update w.thread i { w.thread i with pc := .job 0 } } := by
  have hw : (w.thread i).pc.waits = true := by rw [hpc]; rfl
  refine h.tried hnamed rfl ?_ (by rw [hpc]; exact nofun) (.inr rfl)
  rw [hw]
  exact h.subT_busyWaiterSz hid hw

theorem Inv.access (hid : Function.Injective id) (h : Inv id w) {r : FairAtomicFlag × Thread}
    (e : FairMutex.access w.mtx (id i) (w.thread i) = some r) :
    Inv id { mtx := r.1, thread := Function.update w.thread i r.2 } := by
  have hnamed : (w.thread i).pc ≠ .idle → id i ≠ NULL_THREAD_ID := h.named i
  unfold FairMutex.access at e
  cases hpc : (w.thread i).pc with
  | idle | blocked | critical | notifyOne =>
    rw [hpc] at e
    cases e
  | yieldJob round =>
    rw [hpc] at e hnamed
    dsimp only at e
    have hquiet : (w.thread i).attends = false := by simp [attends, onItsWay, hpc]
    split at e
    · cases e
      exact h.move rfl rfl (hnamed nofun) (by rw [hpc]; rfl) (by rw [hpc]; rfl) nofun hquiet
    · cases e
      exact h.move rfl rfl (hnamed nofun) (by rw [hpc]; rfl) (by rw [hpc]; rfl) nofun hquiet
  | loadBusyWaiterSz =>
    rw [hpc] at e hnamed
    cases e
    have hquiet : (w.thread i).attends = false := by simp [attends, onItsWay, hpc]
    by_cases h0 : w.mtx.busyWaiterSz = 0
    · rw [if_pos h0]
      exact h.move rfl rfl (hnamed nofun) (by rw [hpc]; rfl) (by rw [hpc]; rfl) nofun hquiet
    · rw [if_neg h0]
      exact h.move rfl rfl (hnamed nofun) (by rw [hpc]; rfl) (by rw [hpc]; rfl) nofun hquiet
  | firstJob =>
    rw [hpc] at e hnamed
    cases e
    exact h.testAndSet (hnamed nofun) (by rw [hpc]; rfl) rfl rfl
  | job round =>
    rw [hpc] at e hnamed
    cases e
    unfold jobFailed
    split
    · exact h.testAndSet (hnamed nofun) (by rw [hpc]; rfl) rfl rfl
    · exact h.testAndSet (hnamed nofun) (by rw [hpc]; rfl) rfl rfl
  | addBusyWaiter =>
    rw [hpc] at e hnamed
    cases e
    have hbig := h.waiters_succ_lt hid (hnamed nofun) (by rw [hpc]; rfl)
    refine h.update (fun _ => hnamed nofun) ?_ (fun ht => nomatch ht) (.inl rfl) fun hfree => ?_
    · rw [hpc, h.waiters, sizeT_of_lt hbig]
      rfl
    · exact .inr ⟨hfree, nofun, by simp [attends, onItsWay, hpc]⟩
  | wait =>
    rw [hpc] at e hnamed
    dsimp only at e
    split at e
    · next hset =>
      cases e
      refine h.update (fun _ => hnamed nofun) ?_ (fun ht => nomatch ht) (.inl rfl) fun hfree => ?_
      · rw [hpc]
        rfl
      · rw [hset] at hfree
        cases hfree
    · cases e
      exact h.tried (hnamed nofun) rfl (by rw [hpc]; rfl) (by rw [hpc]; exact nofun) (.inl rfl)
  | subBusyWaiter =>
    rw [hpc] at e hnamed
    obtain rfl := Option.some.inj e
    exact h.sub hid hpc (hnamed nofun)
  | clearYieldThrId | exchangePrevThrId | setYieldThrId =>
    rw [hpc] at e hnamed
    cases e
    have hquiet : (w.thread i).attends = false := by simp [attends, onItsWay, hpc]
    exact h.move rfl rfl (hnamed nofun) (by rw [hpc]; rfl) (by rw [hpc]; rfl) nofun hquiet
  | loadBusyWaiterSzUnlock =>
    rw [hpc] at e hnamed
    cases e
    have hquiet : (w.thread i).attends = false := by simp [attends, onItsWay, hpc]
    by_cases h0 : w.mtx.busyWaiterSz > 0
    · rw [if_pos h0]
      exact h.move rfl rfl (hnamed nofun) (by rw [hpc]; rfl) (by rw [hpc]; rfl) nofun hquiet
    · rw [if_neg h0]
      exact h.move rfl rfl (hnamed nofun) (by rw [hpc]; rfl) (by rw [hpc]; rfl) nofun hquiet
  | clear =>
    rw [hpc] at e hnamed
    cases e
    refine h.update (fun _ => hnamed nofun) ?_ (fun ht => nomatch ht)
      (.inr (.inr ⟨by rw [hpc]; rfl, rfl⟩)) fun _ => .inl (attends_of_notify rfl)
    rw [hpc]
    rfl

omit [DecidableEq ι] in
/-- Blocked threads wake up, one at least if there is one; and a thread whose `notify_one` this was is
done. -/
theorem Inv.wakeUp (h : Inv id w) {f : ι → Thread}
    (hf : ∀ j, f j = w.thread j ∨ ((w.thread j).pc = .blocked ∧ f j = ⟨.wait, true⟩) ∨
      ((w.thread j).pc = .notifyOne ∧ (f j).pc = .idle))
    (hsome : (∃ j, (w.thread j).pc = .blocked) → ∃ j, f j = ⟨.wait, true⟩) :
    Inv id { mtx := w.mtx, thread := f } := by
  have hwaits : ∀ j, (f j).pc.waits = (w.thread j).pc.waits := by
    intro j
    rcases hf j with he | ⟨hb, he⟩ | ⟨hn, he⟩
    · rw [he]
    · rw [he, hb]
      rfl
    · rw [he, hn]
      rfl
  have hholds : ∀ j, (f j).pc.holds = (w.thread j).pc.holds := by
    intro j
    rcases hf j with he | ⟨hb, he⟩ | ⟨hn, he⟩
    · rw [he]
    · rw [he, hb]
      rfl
    · rw [he, hn]
      rfl
  refine { named := ?_, waiters := ?_, set := ?_, excludes := ?_, awake := ?_ }
  · intro j hj
    rcases hf j with he | ⟨hb, -⟩ | ⟨-, he⟩
    · exact h.named j (he ▸ hj)
    · exact h.named j (by rw [hb]; exact nofun)
    · exact absurd he hj
  · exact h.waiters.trans (count_congr fun j => (hwaits j).symm)
  · intro j hj
    exact h.set j (hholds j ▸ hj)
  · intro j k hj hk
    exact h.excludes j k (hholds j ▸ hj) (hholds k ▸ hk)
  · rintro - ⟨j, hj⟩
    have hblocked : (w.thread j).pc = .blocked := by
      rcases hf j with he | ⟨hb, -⟩ | ⟨-, he⟩
      · exact he ▸ hj
      · exact hb
      · exact absurd (hj.symm.trans he) nofun
    obtain ⟨k, hk⟩ := hsome ⟨j, hblocked⟩
    refine ⟨k, ?_⟩
    dsimp only
    rw [hk]
    rfl

/-! ## Steps and runs -/

theorem Inv.lock (h : Inv id w) (hpc : (w.thread i).pc = .idle) (hi : id i ≠ NULL_THREAD_ID) :
    Inv id (w.setPc i (.yieldJob 0)) :=
  h.move rfl rfl hi (by rw [hpc]; rfl) (by rw [hpc]; rfl) nofun
    (by simp [attends, onItsWay, hpc])

theorem Inv.unlock (h : Inv id w) (hpc : (w.thread i).pc = .critical) :
    Inv id (w.setPc i .loadBusyWaiterSzUnlock) :=
  h.move rfl rfl (h.named i (by rw [hpc]; exact nofun)) (by rw [hpc]; rfl) (by rw [hpc]; rfl) nofun
    (by simp [attends, onItsWay, hpc])

theorem Inv.notifyOne (h : Inv id w) {woken : ι → Bool} (hpc : (w.thread i).pc = .notifyOne)
    (hwakes : w.Wakes woken) : Inv id ((w.setPc i .idle).wake woken) := by
  refine h.wakeUp (fun j => ?_) fun hblocked => ?_
  · by_cases hj : woken j = true
    · rw [if_pos hj]
      exact .inr (.inl ⟨hwakes.1 j hj, rfl⟩)
    · rw [if_neg hj]
      unfold setPc
      dsimp only
      by_cases hji : j = i
      · subst hji
        rw [Function.update_self]
        exact .inr (.inr ⟨hpc, rfl⟩)
      · rw [Function.update_of_ne hji]
        exact .inl rfl
  · obtain ⟨j, hj⟩ := hwakes.2 hblocked
    exact ⟨j, if_pos hj⟩

theorem Inv.spuriousWakeUp (h : Inv id w) (hpc : (w.thread i).pc = .blocked) :
    Inv id (w.wake fun j => j = i) := by
  refine h.wakeUp (fun j => ?_) fun _ => ⟨i, if_pos (decide_eq_true rfl)⟩
  by_cases hji : j = i
  · subst hji
    rw [if_pos (decide_eq_true rfl)]
    exact .inr (.inl ⟨hpc, rfl⟩)
  · rw [if_neg (by simpa using hji)]
    exact .inl rfl

omit [DecidableEq ι] in
theorem Inv.init (value : Bool) : Inv id (init value : World ι) where
  named _ hi := absurd rfl hi
  waiters := (count_eq_zero fun _ => rfl).symm
  set _ hi := nomatch hi
  excludes _ _ hi := nomatch hi
  awake _ hb := by
    obtain ⟨i, hi⟩ := hb
    cases hi

theorem Inv.step (hid : Function.Injective id) (h : Inv id w) {a : Action ι} (e : w.Step id a w') :
    Inv id w' := by
  unfold Step next at e
  cases a with
  | lock i =>
    dsimp only at e
    split at e
    · cases e
    · next hpc =>
      split at e
      · cases e
      · next hi =>
        cases e
        exact h.lock (not_not.1 hpc) hi
  | unlock i =>
    dsimp only at e
    split at e
    · cases e
    · next hpc =>
      cases e
      exact h.unlock (not_not.1 hpc)
  | access i =>
    obtain ⟨r, hr, rfl⟩ := Option.map_eq_some_iff.1 (Except.ok.inj e)
    exact h.access hid hr
  | notifyOne i woken =>
    dsimp only at e
    split at e
    · cases e
    · next hpc =>
      cases e
      rw [not_or, not_not, not_not] at hpc
      exact h.notifyOne hpc.1 hpc.2
  | spuriousWakeUp i =>
    dsimp only at e
    split at e
    · cases e
    · next hpc =>
      cases e
      exact h.spuriousWakeUp (not_not.1 hpc)

theorem Inv.of_reach (hid : Function.Injective id) {hist : List (Action ι)}
    (h : Run.Reach (fun w => ∃ value, w = World.init value) (Step id) w hist) : Inv id w := by
  refine h.inv (fun w _ => Inv id w) ?_ ?_
  · rintro _ ⟨value, rfl⟩
    exact Inv.init value
  · intro w _ a w' hw e
    exact hw.step hid e

/-- **The fair mutex excludes and loses no wake-up.** One thread at most has the flag; a thread that counts
itself out was counted; and if the flag is clear while a thread is blocked, another is on its way from a
wake-up to its next `test_and_set` or has cleared the flag and not yet notified. -/
theorem fair_mutex_correct (hid : Function.Injective id) {hist : List (Action ι)}
    (h : Run.Reach (fun w => ∃ value, w = World.init value) (Step id) w hist) :
    (∀ i j, (w.thread i).pc.holds = true → (w.thread j).pc.holds = true → i = j) ∧
      (∀ i, (w.thread i).pc = .subBusyWaiter → 0 < w.mtx.busyWaiterSz) ∧
      (w.mtx.atomicFlag = false → ∀ i, (w.thread i).pc = .blocked →
        ∃ j, j ≠ i ∧ ((w.thread j).onItsWay = true ∨ (w.thread j).pc = .notifyOne)) := by
  have hinv := Inv.of_reach hid h
  refine ⟨hinv.excludes, fun i hpc => hinv.busyWaiterSz_pos (by rw [hpc]; rfl), fun hfree i hpc => ?_⟩
  obtain ⟨j, hj⟩ := hinv.awake hfree ⟨i, hpc⟩
  refine ⟨j, ?_, by simpa [attends] using hj⟩
  rintro rfl
  simp [attends, onItsWay, hpc] at hj

/-- The first of two threads has the mutex, the second blocks, the first clears the flag. -/
theorem fair_mutex_correct_two :
    ∃ w : World (Fin 2), w.mtx.atomicFlag = false ∧ (w.thread 1).pc = .blocked ∧
      ∃ j, j ≠ 1 ∧ ((w.thread j).onItsWay = true ∨ (w.thread j).pc = .notifyOne) := by
  have hid : Function.Injective (fun i : Fin 2 => (⟨i, by omega⟩ : ThreadId)) := by
    intro i j hij
    exact Fin.ext (Fin.mk.inj hij)
  let acts : List (Action (Fin 2)) := [.lock 0, .access 0, .access 0, .access 0, .lock 1] ++
    List.replicate 21 (.access 1) ++ [.access 0, .access 0, .unlock 0, .access 0, .access 0, .access 0]
  let run := acts.foldlM (fun w a => Run.ofStep
    (World.next (fun i : Fin 2 => (⟨i, by omega⟩ : ThreadId)) w a)) (World.init false)
  have hrun : run.map (fun w => (w.mtx.atomicFlag, (w.thread 1).pc)) = some (false, .blocked) := by
    decide +kernel
  obtain ⟨w, hw, he⟩ := Option.map_eq_some_iff.1 hrun
  have hflag : w.mtx.atomicFlag = false := congrArg Prod.fst he
  have hblocked : (w.thread 1).pc = .blocked := congrArg Prod.snd he
  have hinit : Run.Reach (fun w : World (Fin 2) => ∃ value, w = World.init value)
      (Step fun i : Fin 2 => (⟨i, by omega⟩ : ThreadId)) (World.init false) [] := .init ⟨false, rfl⟩
  have hreach := hinit.runM (fun e => e) hw
  exact ⟨w, hflag, hblocked, (fair_mutex_correct hid hreach).2.2 hflag 1 hblocked⟩

end World

end FairMutex
