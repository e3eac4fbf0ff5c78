import NeuralNetwork.AlgorithmExtension.Proof.ShortHeap
import NeuralNetwork.CoroutineSubsystem.Coroutine
import NeuralNetwork.Lib.Run
import NeuralNetwork.Lib.WaitTurns

/-!
# The coroutine scheduler loses and duplicates nothing

`Inv w transit` is the invariant of a world in the middle of a step, where the coroutines `transit` are
taken from one place and not yet put at another. What a section or a worker does is composed of moves that
put coroutines in transit or take them out of it, so that each step ends with nothing in transit
(`Inv.step`). The order of the heap makes `update` prompt (`Inv.updateLoop`).
-/

namespace CoroutineX

open DaryHeap ListUpdate ShortHeap WaitTurns CoroutineableManager

variable {w w' : World} {transit : List Nat} {c i : Nat} {worker worker' : Worker} {t : Int}
  {getDelay : Nat → Int}

/-! ## Workers -/

def Worker.waits : Worker → Option Nat
  | ⟨_, .waiting smp⟩ => some smp
  | _ => none

def Worker.held : Worker → List Nat
  | ⟨successContainer, .idle⟩ => successContainer
  | ⟨_, .waiting _⟩ => []
  | ⟨_, .released waitingItem⟩ => waitingItem.toList
  | ⟨_, .busy coroutine _ _⟩ => [coroutine]

def Worker.Tidy : Worker → Prop
  | ⟨successContainer, .idle⟩ => successContainer.length ≤ 1
  | ⟨successContainer, .waiting _⟩ => successContainer = []
  | ⟨successContainer, .released _⟩ => successContainer = []
  | ⟨successContainer, .busy coroutine kept _⟩ => successContainer = if kept then [coroutine] else []

/-- The coroutine does not sleep, or its wake-up time is over. -/
def Awake (now : Int) (wakeup : Nat → Option Int) (c : Nat) : Prop := ∀ t, wakeup c = some t → t < now

def Worker.Timely (now : Int) (wakeup : Nat → Option Int) : Worker → Prop
  | ⟨_, .busy coroutine _ (.add wakeupTime)⟩ => wakeup coroutine = some wakeupTime
  | worker => ∀ c ∈ worker.held, Awake now wakeup c

theorem Worker.of_waits {smp : Nat} (h : worker.waits = some smp) :
    ∃ l, worker = ⟨l, .waiting smp⟩ := by
  unfold Worker.waits at h
  split at h
  · cases h
    exact ⟨_, rfl⟩
  · cases h

variable {kept : Bool} {l : List Nat} {m : CoroutineableManager}

theorem Worker.tidy_letGo {call : Call} (h : Worker.Tidy ⟨l, .busy c kept call⟩) :
    Worker.letGo ⟨l, .idle⟩ kept = Worker.empty := by
  replace h : l = if kept then [c] else [] := h
  subst h
  cases kept <;> rfl

theorem Awake.later (h : Awake now wakeup c) {now' : Int} (hle : now ≤ now') : Awake now' wakeup c :=
  fun t ht => Int.lt_of_lt_of_le (h t ht) hle

theorem Worker.Timely.later (h : worker.Timely now wakeup) {now' : Int} (hle : now ≤ now') :
    worker.Timely now' wakeup := by
  unfold Worker.Timely at h ⊢
  split at h
  · exact h
  · exact fun c hc => (h c hc).later hle

theorem Worker.Timely.congr (h : worker.Timely now wakeup) {wakeup' : Nat → Option Int}
    (he : ∀ c ∈ worker.held, wakeup' c = wakeup c) : worker.Timely now wakeup' := by
  unfold Worker.Timely at h ⊢
  split at h
  · rw [he _ (List.mem_singleton_self _)]
    exact h
  · intro c hc t ht
    rw [he c hc] at ht
    exact h c hc t ht

/-! ## The invariant -/

/-- The coroutines in the ready queue, in the sleep heap, in the slots and in the hands. -/
def World.places (w : World) : List Nat :=
  w.manager.coroutineableVec ++ w.manager.priorityVec.map PriorityBucket.item ++
    w.workers.flatMap Worker.held

abbrev Earlier (a b : PriorityBucket) : Prop := a.wakeupTime ≤ b.wakeupTime

structure Inv (w : World) (transit : List Nat) : Prop where
  turns : Turns Worker.waits w.manager.waitBucketVec w.workers w.smps w.released
  custody : (transit ++ (w.places ++ (w.ended ++ w.dropped))).Perm (List.range w.added)
  tidy : ∀ worker ∈ w.workers, worker.Tidy
  idle : w.manager.waitBucketVec ≠ [] → w.manager.coroutineableVec = []
  poisoned : w.manager.wasPoisoned = true → w.manager.waitBucketVec = []
  live : w.manager.wasPoisoned = false → w.dropped = []
  heap : IsHeap Earlier DEFAULT_OUT_DEGREE_SZ w.manager.priorityVec
  asleep : ∀ b ∈ w.manager.priorityVec, w.wakeup b.item = some b.wakeupTime
  awake : ∀ c ∈ w.manager.coroutineableVec, Awake w.now w.wakeup c
  timely : ∀ worker ∈ w.workers, worker.Timely w.now w.wakeup
  new : ∀ c, w.added ≤ c → w.wakeup c = none

theorem Inv.start (workerSz : Nat) (now : Int) : Inv (World.start workerSz now) [] where
  turns := Turns.init fun p hp => by
    rw [List.eq_of_mem_replicate hp]
    rfl
  custody := by
    have hnil : (List.replicate workerSz Worker.empty).flatMap Worker.held = [] :=
      List.flatMap_eq_nil_iff.2 fun p hp => by rw [List.eq_of_mem_replicate hp]; rfl
    show ([] ++ (([] ++ [] ++ (List.replicate workerSz Worker.empty).flatMap Worker.held) ++ [])).Perm []
    rw [hnil]
    exact .refl []
  tidy worker hm := by
    rw [List.eq_of_mem_replicate hm]
    exact Nat.zero_le 1
  idle _ := rfl
  poisoned _ := rfl
  live _ := rfl
  heap := isHeap_nil
  asleep b hb := absurd hb List.not_mem_nil
  awake c hc := absurd hc List.not_mem_nil
  timely worker hm := by
    rw [List.eq_of_mem_replicate hm]
    exact fun c hc => absurd hc List.not_mem_nil
  new _ _ := rfl

/-! ## Moves of a worker -/

/-- A worker that neither waited nor waits exchanges what it holds for what is in transit. -/
theorem Inv.setWorker (h : Inv w transit) (hi : w.workers[i]? = some worker) (hw : worker.waits = none)
    (hw' : worker'.waits = none) {transit' : List Nat}
    (hheld : (transit' ++ worker'.held).Perm (transit ++ worker.held)) (htidy : worker'.Tidy)
    (htimely : worker'.Timely w.now w.wakeup) : Inv (w.setWorker i worker') transit' where
  __ := h
  turns := h.turns.set hi hw hw'
  custody := (perm_exchange Worker.held hi hheld).trans h.custody
  tidy := forall_mem_set h.tidy htidy
  timely := forall_mem_set h.timely htimely

theorem Inv.take {call : Call} (h : Inv w [])
    (hi : w.workers[i]? = some ⟨l, .busy c kept call⟩) : Inv (w.setWorker i .empty) [c] :=
  h.setWorker hi rfl rfl (.refl [c]) (Nat.zero_le 1) fun _ ha => absurd ha List.not_mem_nil

theorem Inv.goOn (h : Inv w []) (worker' : Worker) (hi : w.workers[i]? = some worker) (hw : worker.waits = none)
    (hw' : worker'.waits = none) (hheld : worker'.held = worker.held) (htidy : worker'.Tidy)
    (htimely : worker'.Timely w.now w.wakeup) : Inv (w.setWorker i worker') [] :=
  h.setWorker hi hw hw' (by rw [hheld]) htidy htimely

theorem Inv.wait (h : Inv w []) (hi : w.workers[i]? = some ⟨[], .idle⟩)
    (hready : w.manager.coroutineableVec = []) (hp : w.manager.wasPoisoned = false) :
    Inv ({ w with
      manager := { w.manager with waitBucketVec := w.manager.waitBucketVec ++ [(i, w.smps)] }
      smps := w.smps + 1 }.setWorker i ⟨[], .waiting w.smps⟩) [] where
  __ := h
  turns := h.turns.wait hi rfl rfl
  custody := (perm_exchange Worker.held hi (b := ⟨[], .waiting w.smps⟩) (.refl _)).trans h.custody
  tidy := forall_mem_set h.tidy rfl
  idle _ := hready
  poisoned hp' := by
    replace hp' : w.manager.wasPoisoned = true := hp'
    rw [hp] at hp'
    cases hp'
  timely := forall_mem_set h.timely fun c hc => absurd hc List.not_mem_nil

/-! ## Moves of the manager -/

theorem Inv.launch (h : Inv w []) : Inv { w with added := w.added + 1 } [w.added] := by
  refine { h with custody := ?_, new := fun c hc => h.new c (Nat.le_of_succ_le hc) }
  rw [List.range_succ]
  exact (h.custody.append_left [w.added]).trans List.perm_append_comm

theorem Inv.drop (h : Inv w [c]) (hp : w.manager.wasPoisoned = true) :
    Inv { w with dropped := w.dropped ++ [c] } [] := by
  refine { h with custody := ?_, live := fun hp' => ?_ }
  · refine .trans ?_ h.custody
    show ([] ++ (w.places ++ (w.ended ++ (w.dropped ++ [c])))).Perm _
    rw [← List.append_assoc w.ended, ← List.append_assoc w.places, List.nil_append]
    exact List.perm_append_comm
  · replace hp' : w.manager.wasPoisoned = false := hp'
    rw [hp] at hp'
    cases hp'

theorem Inv.finish (h : Inv w [c]) : Inv { w with ended := w.ended ++ [c] } [] := by
  refine { h with custody := ?_ }
  refine .trans ?_ h.custody
  show ([] ++ (w.places ++ ((w.ended ++ [c]) ++ w.dropped))).Perm _
  rw [List.perm_iff_count]
  intro a
  simp only [List.count_append, List.count_nil]
  omega

theorem Inv.awake_new (h : Inv w transit) (hc : w.added ≤ c) : Awake w.now w.wakeup c := by
  intro t ht
  rw [h.new c hc] at ht
  cases ht

theorem Inv.not_placed (h : Inv w [c]) : c ∉ w.places := by
  intro hm
  have hnodup := h.custody.nodup_iff.2 List.nodup_range
  exact (List.nodup_append.1 hnodup).2.2 c (List.mem_singleton_self c) c (List.mem_append_left _ hm) rfl

theorem Inv.sleep (h : Inv w [c]) (hc : c < w.added) (delayCounter : Nat → Nat) (t : Int) :
    Inv { w with delayCounter, wakeup := Function.update w.wakeup c (some t) } [c] := by
  have hne : ∀ a ∈ w.places, Function.update w.wakeup c (some t) a = w.wakeup a := by
    intro a ha
    refine Function.update_of_ne ?_ _ _
    rintro rfl
    exact h.not_placed ha
  refine { h with
    asleep := fun b hb => ?_, awake := fun a ha => ?_
    timely := fun p hp => (h.timely p hp).congr fun a ha => ?_, new := fun a ha => ?_ }
  · refine .trans (hne b.item ?_) (h.asleep b hb)
    exact List.mem_append_left _ (List.mem_append_right _ (List.mem_map_of_mem hb))
  · intro t' ht'
    have hplaced : a ∈ w.places := List.mem_append_left _ (List.mem_append_left _ ha)
    exact h.awake a ha t' ((hne a hplaced).symm.trans ht')
  · exact hne a (List.mem_append_right _ (List.mem_flatMap.2 ⟨p, hp, ha⟩))
  · have hne : a ≠ c := (Nat.lt_of_lt_of_le hc ha).ne'
    show Function.update w.wakeup c (some t) a = none
    rw [Function.update_of_ne hne]
    exact h.new a ha

theorem Inv.getReady {rest : List Nat} (h : Inv w [])
    (hready : w.manager.coroutineableVec = c :: rest) :
    Inv { w with manager := { w.manager with coroutineableVec := rest } } [c] ∧
      Awake w.now w.wakeup c := by
  have hawake := h.awake
  rw [hready] at hawake
  refine ⟨{ h with
    custody := ?_, idle := fun hne => ?_
    awake := fun a ha => hawake a (List.mem_cons_of_mem _ ha) }, hawake c List.mem_cons_self⟩
  · have hcustody := h.custody
    unfold World.places at hcustody ⊢
    rw [hready] at hcustody
    exact hcustody
  · rw [h.idle hne] at hready
    cases hready

theorem Inv.pushHeap (h : Inv w [c]) (ht : w.wakeup c = some t) :
    ∃ priorityVec, ShortHeap.pushHeap priorityBucketComparator
        DEFAULT_OUT_DEGREE_SZ (w.manager.priorityVec ++ [⟨c, t⟩]) = .ok priorityVec ∧
      Inv { w with manager := { w.manager with priorityVec } } [] := by
  obtain ⟨l, e, hperm, hheap⟩ := pushHeap_ok (totalPreorder_le PriorityBucket.wakeupTime)
    (decides_le PriorityBucket.wakeupTime) h.heap ⟨c, t⟩
  refine ⟨l, e, { h with custody := ?_, heap := hheap, asleep := fun b hb => ?_ }⟩
  · have hjoin : (⟨c, t⟩ :: w.manager.priorityVec).Perm l := (hperm.trans List.perm_append_comm).symm
    exact (perm_leave _ PriorityBucket.item hjoin).symm.trans h.custody
  · rcases List.mem_append.1 (hperm.mem_iff.1 hb) with hb | hb
    · exact h.asleep b hb
    · obtain rfl := List.mem_singleton.1 hb
      exact ht

theorem Inv.popHeap {front : PriorityBucket} {rest : List PriorityBucket} (h : Inv w [])
    (hfront : w.manager.priorityVec = front :: rest) :
    ∃ l, ShortHeap.popHeap priorityBucketComparator DEFAULT_OUT_DEGREE_SZ
        w.manager.priorityVec = .ok (l ++ [front]) ∧ l.length < w.manager.priorityVec.length ∧
      Inv { w with manager := { w.manager with priorityVec := l } } [front.item] := by
  have hheap := h.heap
  have hasleep := h.asleep
  rw [hfront] at hheap hasleep
  obtain ⟨l, e, hperm, hheap'⟩ := popHeap_ok (Nat.succ_pos 7)
    (totalPreorder_le PriorityBucket.wakeupTime) (decides_le PriorityBucket.wakeupTime) hheap
  have hleave : (front :: l).Perm w.manager.priorityVec := hfront ▸ hperm.cons front
  rw [hfront]
  exact ⟨l, e, by rw [List.length_cons, hperm.length_eq]; exact Nat.lt_succ_self _, { h with
    custody := (perm_leave _ PriorityBucket.item hleave).trans h.custody, heap := hheap'
    asleep := fun b hb => hasleep b (List.mem_cons_of_mem _ (hperm.mem_iff.1 hb)) }⟩

/-! ## Releases -/

theorem release_eq (hi : w.workers[i]? = some worker) (smp : Nat) (item : Option Nat) :
    w.release ⟨i, smp, item⟩ = { w with
      workers := w.workers.set i { worker with phase := .released item }
      released := w.released ++ [smp] } := by
  unfold World.release
  rw [modify_eq_set hi]

theorem foldl_release_manager (rs : List Release) (w : World) (manager : CoroutineableManager) :
    rs.foldl World.release { w with manager } = { rs.foldl World.release w with manager } := by
  induction rs generalizing w with
  | nil => rfl
  | cons r rs ih => exact ih (w.release r)

@[simp] theorem afterSection_manager (w : World) (manager : CoroutineableManager) (rs : List Release) :
    (w.afterSection (manager, rs)).manager = manager := by
  unfold World.afterSection
  rw [foldl_release_manager]

theorem foldl_release_now (rs : List Release) (w : World) :
    (rs.foldl World.release w).now = w.now := by
  induction rs generalizing w with
  | nil => rfl
  | cons r rs ih => exact ih (w.release r)

theorem afterSection_append (w : World) (m1 m2 : CoroutineableManager) (rs1 rs2 : List Release) :
    (w.afterSection (m1, rs1)).afterSection (m2, rs2) = w.afterSection (m2, rs1 ++ rs2) := by
  unfold World.afterSection
  rw [List.foldl_append, foldl_release_manager rs1 w m1, foldl_release_manager rs1 w m2]

theorem Inv.release {rest : List (Nat × Nat)} {smp : Nat} (item : Option Nat)
    (h : Inv w item.toList) (hwait : w.manager.waitBucketVec = (i, smp) :: rest)
    (hawake : ∀ c ∈ item.toList, Awake w.now w.wakeup c) :
    Inv (World.release { w with manager := { w.manager with waitBucketVec := rest } } ⟨i, smp, item⟩)
      [] := by
  have hturns := h.turns
  rw [hwait] at hturns
  obtain ⟨worker, hi, hw⟩ := hturns.front
  obtain ⟨l, rfl⟩ := Worker.of_waits hw
  have hl : l = [] := h.tidy _ (List.mem_of_getElem? hi)
  rw [release_eq (w := { w with manager := { w.manager with waitBucketVec := rest } }) hi]
  refine { h with
    turns := hturns.serve rfl, custody := ?_, tidy := forall_mem_set h.tidy hl
    idle := fun _ => h.idle (by rw [hwait]; exact List.cons_ne_nil _ _)
    poisoned := fun hp => ?_, timely := forall_mem_set h.timely hawake }
  · exact (perm_exchange Worker.held hi (x := []) (b := ⟨l, .released item⟩)
      List.perm_append_comm).trans h.custody
  · have := h.poisoned hp
    rw [hwait] at this
    cases this

theorem CoroutineableManager.handOver_waiting {record : Nat × Nat}
    {rest : List (Nat × Nat)} (h : m.waitBucketVec = record :: rest) :
    m.handOver c = ({ m with waitBucketVec := rest }, [⟨record.1, record.2, some c⟩]) := by
  unfold CoroutineableManager.handOver
  rw [h]

theorem CoroutineableManager.handOver_kept (h : m.waitBucketVec = []) :
    m.handOver c = ({ m with coroutineableVec := m.coroutineableVec ++ [c] }, []) := by
  unfold CoroutineableManager.handOver
  split
  · next he => cases h.symm.trans he
  · rfl

theorem CoroutineableManager.add_poisoned (hp : m.wasPoisoned = true)
    (wakeupTime : Option Int) : m.add (some c) wakeupTime = .ok (m, []) := by
  unfold CoroutineableManager.add
  dsimp only
  rw [if_pos hp]

theorem CoroutineableManager.add_ready (hp : m.wasPoisoned = false) :
    m.add (some c) none = .ok (m.handOver c) := by
  unfold CoroutineableManager.add
  dsimp only
  rw [hp, if_neg Bool.false_ne_true]

theorem CoroutineableManager.add_sleeping {priorityVec : List PriorityBucket}
    (hp : m.wasPoisoned = false) (e : ShortHeap.pushHeap priorityBucketComparator DEFAULT_OUT_DEGREE_SZ
      (m.priorityVec ++ [⟨c, t⟩]) = .ok priorityVec) :
    m.add (some c) (some t) = .ok ({ m with priorityVec }, []) := by
  unfold CoroutineableManager.add
  dsimp only
  rw [hp, if_neg Bool.false_ne_true, e]
  rfl

theorem CoroutineableManager.get_poisoned (hp : m.wasPoisoned = true)
    (i smp : Nat) : m.get i smp = (m, .got none) := by
  unfold CoroutineableManager.get
  rw [if_pos hp]

theorem CoroutineableManager.get_ready {rest : List Nat}
    (hp : m.wasPoisoned = false) (h : m.coroutineableVec = c :: rest) (i smp : Nat) :
    m.get i smp = ({ m with coroutineableVec := rest }, .got (some c)) := by
  unfold CoroutineableManager.get
  rw [hp, if_neg Bool.false_ne_true, h]

theorem CoroutineableManager.get_waits (hp : m.wasPoisoned = false)
    (h : m.coroutineableVec = []) (i smp : Nat) :
    m.get i smp = ({ m with waitBucketVec := m.waitBucketVec ++ [(i, smp)] }, .waits) := by
  unfold CoroutineableManager.get
  rw [hp, if_neg Bool.false_ne_true]
  split
  · next he => cases h.symm.trans he
  · rfl

theorem Inv.handOver (h : Inv w [c]) (hawake : Awake w.now w.wakeup c) :
    Inv (w.afterSection (w.manager.handOver c)) [] := by
  cases hwait : w.manager.waitBucketVec with
  | nil =>
    rw [handOver_kept hwait]
    refine ⟨h.turns, ?_, h.tidy, fun hne => absurd hwait hne, h.poisoned, h.live, h.heap, h.asleep,
      fun a ha => ?_, h.timely, h.new⟩
    · refine .trans ?_ h.custody
      show ([] ++ ((w.manager.coroutineableVec ++ [c] ++ w.manager.priorityVec.map PriorityBucket.item ++
        w.workers.flatMap Worker.held) ++ (w.ended ++ w.dropped))).Perm _
      unfold World.places
      rw [List.perm_iff_count]
      intro a
      simp only [List.count_append, List.count_nil]
      omega
    · rcases List.mem_append.1 ha with ha | ha
      · exact h.awake a ha
      · obtain rfl := List.mem_singleton.1 ha
        exact hawake
  | cons record rest =>
    rw [handOver_waiting hwait]
    refine Inv.release (some c) h hwait fun a ha => ?_
    obtain rfl : c = a := Option.mem_some.1 (Option.mem_toList.1 ha)
    exact hawake

section

variable (h : Inv w [])

include h

theorem Inv.releaseAll {records : List (Nat × Nat)}
    (hwait : w.manager.waitBucketVec = records) :
    Inv (w.afterSection ({ w.manager with waitBucketVec := [] },
      records.map fun waitable => ⟨waitable.1, waitable.2, none⟩)) [] := by
  induction records generalizing w with
  | nil =>
    have he : { w.manager with waitBucketVec := [] } = w.manager := by rw [← hwait]
    rw [he]
    exact h
  | cons record rest ih =>
    have h1 := Inv.release none h hwait fun c hc => absurd hc List.not_mem_nil
    exact ih h1 rfl

theorem Inv.poison (hp : w.manager.wasPoisoned = false) :
    Inv (w.afterSection w.manager.poison) [] := by
  unfold CoroutineableManager.poison
  rw [hp, if_neg Bool.false_ne_true]
  have h1 := h.releaseAll rfl
  unfold World.afterSection at h1 ⊢
  rw [foldl_release_manager] at h1 ⊢
  exact ⟨h1.turns, h1.custody, h1.tidy, h1.idle, fun _ => rfl, fun hp => (nomatch hp), h1.heap, h1.asleep,
    h1.awake, h1.timely, h1.new⟩

/-! ## update -/

/-- **update leaves no coroutine in the heap that should be awake.** -/
theorem Inv.updateLoop {fuel : Nat} (hfuel : w.manager.priorityVec.length < fuel) :
    ∃ m rs, CoroutineableManager.updateLoop w.now fuel w.manager = .ok (m, rs) ∧
      Inv (w.afterSection (m, rs)) [] ∧ ∀ b ∈ m.priorityVec, w.now ≤ b.wakeupTime := by
  induction fuel generalizing w with
  | zero => omega
  | succ fuel ih =>
    unfold CoroutineableManager.updateLoop
    cases hfront : w.manager.priorityVec with
    | nil =>
      refine ⟨w.manager, [], rfl, h, fun b hb => ?_⟩
      rw [hfront] at hb
      exact absurd hb List.not_mem_nil
    | cons front rest =>
      dsimp only
      by_cases hge : front.wakeupTime ≥ w.now
      · rw [if_pos hge]
        refine ⟨w.manager, [], rfl, h, fun b hb => ?_⟩
        have hheap := h.heap
        rw [hfront] at hb hheap
        rcases List.mem_cons.1 hb with rfl | hb
        · exact hge
        · exact hge.trans (hheap.root (totalPreorder_le PriorityBucket.wakeupTime) b hb)
      · rw [if_neg hge]
        obtain ⟨l, e, hlen, h1⟩ := h.popHeap hfront
        have hawake : Awake w.now w.wakeup front.item := by
          intro t ht
          rw [h.asleep front (by rw [hfront]; exact List.mem_cons_self)] at ht
          cases ht
          exact not_le.1 hge
        obtain ⟨m1, rs1, hm1⟩ :
            ∃ m1 rs1, ({ w.manager with priorityVec := l }).handOver front.item = (m1, rs1) := ⟨_, _, rfl⟩
        have h2 : Inv (w.afterSection (m1, rs1)) [] := hm1 ▸ h1.handOver hawake
        have hnow : (w.afterSection (m1, rs1)).now = w.now := foldl_release_now rs1 _
        have hl : m1.priorityVec = l := by
          rw [show m1 = (({ w.manager with priorityVec := l }).handOver front.item).1 by rw [hm1]]
          unfold CoroutineableManager.handOver
          split <;> rfl
        obtain ⟨m2, rs2, e2, h3, hle⟩ := ih h2 (by
          rw [afterSection_manager, hl]
          omega)
        rw [afterSection_manager, hnow] at e2
        rw [afterSection_append] at h3
        rw [hnow] at hle
        refine ⟨m2, rs1 ++ rs2, ?_, h3, hle⟩
        rw [hfront] at e
        rw [e, Loop.ok_bind, List.dropLast_concat, hm1]
        rw [e2]
        rfl

/-! ## Steps -/

theorem Inv.add : ∃ w', w.step getDelay .add = .ok (some w') ∧ Inv w' [] := by
  unfold World.step World.dropIfPoisoned
  cases hp : w.manager.wasPoisoned with
  | true =>
    rw [add_poisoned hp, if_pos rfl]
    exact ⟨_, rfl, h.launch.drop hp⟩
  | false =>
    rw [add_ready hp, if_neg Bool.false_ne_true]
    exact ⟨_, rfl, h.launch.handOver (h.awake_new (Nat.le_refl _))⟩

theorem Inv.epoch (hi : w.workers[i]? = some ⟨l, .idle⟩) :
    ∃ w', w.step getDelay (.epoch i) = .ok (some w') ∧ Inv w' [] := by
  have hm := List.mem_of_getElem? hi
  have htidy : l.length ≤ 1 := h.tidy _ hm
  have htimely : ∀ c ∈ l, Awake w.now w.wakeup c := h.timely _ hm
  unfold World.step
  dsimp only
  rw [hi]
  cases l with
  | cons c l =>
    obtain rfl : l = [] := List.eq_nil_of_length_eq_zero (Nat.le_zero.1 (Nat.le_of_succ_le_succ htidy))
    exact ⟨_, rfl, h.goOn _ hi rfl rfl rfl rfl fun a ha => htimely a ha⟩
  | nil =>
    dsimp only [List.getLast?_nil]
    cases hp : w.manager.wasPoisoned with
    | true =>
      rw [get_poisoned hp]
      exact ⟨_, rfl, h⟩
    | false =>
      cases hready : w.manager.coroutineableVec with
      | cons c rest =>
        rw [get_ready hp hready]
        obtain ⟨h1, hawake⟩ := h.getReady hready
        have hheld : ([] ++ Worker.held ⟨[], .busy c false .hasNext⟩).Perm ([c] ++ Worker.held ⟨[], .idle⟩) :=
          .refl [c]
        refine ⟨_, rfl, h1.setWorker hi rfl rfl hheld rfl fun a ha => ?_⟩
        obtain rfl := List.mem_singleton.1 ha
        exact hawake
      | nil =>
        rw [get_waits hp hready]
        exact ⟨_, rfl, h.wait hi hready hp⟩

theorem Inv.resume {item : Option Nat}
    (hi : w.workers[i]? = some ⟨l, .released item⟩) :
    ∃ w', w.step getDelay (.resume i) = .ok (some w') ∧ Inv w' [] := by
  have hm := List.mem_of_getElem? hi
  obtain rfl : l = [] := h.tidy _ hm
  have htimely : ∀ c ∈ item.toList, Awake w.now w.wakeup c := h.timely _ hm
  unfold World.step
  dsimp only
  rw [hi]
  cases item with
  | none => exact ⟨_, rfl, h.goOn _ hi rfl rfl rfl (Nat.zero_le 1) htimely⟩
  | some c => exact ⟨_, rfl, h.goOn _ hi rfl rfl rfl rfl htimely⟩

theorem Inv.hasNextReturned {hasNext : Bool}
    (hi : w.workers[i]? = some ⟨l, .busy c kept .hasNext⟩) :
    ∃ w', w.step getDelay (.hasNextReturned i hasNext) = .ok (some w') ∧ Inv w' [] := by
  have hm := List.mem_of_getElem? hi
  have htidy := h.tidy _ hm
  have htimely : ∀ a ∈ [c], Awake w.now w.wakeup a := h.timely _ hm
  unfold World.step
  dsimp only
  rw [hi]
  dsimp only
  cases hasNext with
  | true => exact ⟨_, rfl, h.goOn _ hi rfl rfl rfl htidy htimely⟩
  | false =>
    rw [if_neg Bool.false_ne_true, Worker.tidy_letGo htidy]
    exact ⟨_, rfl, (h.take hi).finish⟩

theorem Inv.nextReturned {next : Bool}
    (hi : w.workers[i]? = some ⟨l, .busy c kept .next⟩) :
    ∃ w', w.step getDelay (.nextReturned i next) = .ok (some w') ∧ Inv w' [] := by
  have hm := List.mem_of_getElem? hi
  have htidy : l = if kept then [c] else [] := h.tidy _ hm
  have htimely : ∀ a ∈ [c], Awake w.now w.wakeup a := h.timely _ hm
  unfold World.step
  dsimp only
  rw [hi]
  dsimp only
  cases next with
  | false =>
    rw [if_neg Bool.false_ne_true]
    exact ⟨_, rfl, h.goOn _ hi rfl rfl rfl htidy htimely⟩
  | true =>
    rw [if_pos rfl]
    subst htidy
    cases kept with
    | true => exact ⟨_, rfl, h.goOn _ hi rfl rfl rfl (Nat.le_refl 1) htimely⟩
    | false =>
      have h1 := h.goOn ⟨[c], .idle⟩ hi rfl rfl rfl (Nat.le_refl 1) htimely
      exact ⟨_, rfl, h1.turns, h1.custody, h1.tidy, h1.idle, h1.poisoned, h1.live, h1.heap, h1.asleep,
        h1.awake, h1.timely, h1.new⟩

end

theorem Inv.lt_added (h : Inv w transit) (hi : w.workers[i]? = some worker) (hc : c ∈ worker.held) :
    c < w.added := by
  have hm : c ∈ w.places :=
    List.mem_append_right _ (List.mem_flatMap.2 ⟨worker, List.mem_of_getElem? hi, hc⟩)
  exact List.mem_range.1 (h.custody.mem_iff.1 (List.mem_append_right _ (List.mem_append_left _ hm)))

theorem setWorker_setWorker (w : World) (i : Nat) (worker worker' : Worker) :
    (w.setWorker i worker).setWorker i worker' = w.setWorker i worker' := by
  unfold World.setWorker
  rw [List.set_set]

theorem Inv.sleeps (h : Inv w [])
    (hi : w.workers[i]? = some ⟨l, .busy c kept .sleep⟩) :
    ∃ w', w.step getDelay (.sleep i) = .ok (some w') ∧ Inv w' [] := by
  have htidy : l = if kept then [c] else [] := h.tidy _ (List.mem_of_getElem? hi)
  unfold World.step
  dsimp only
  rw [hi]
  dsimp only
  generalize w.now + getDelay (w.delayCounter c) = t
  generalize Function.update w.delayCounter c (Cpp.sizeT (w.delayCounter c + 1)) = delayCounter
  have h1 := (h.take hi).sleep (h.lt_added hi (List.mem_singleton_self c)) delayCounter t
  have hi1 : (w.workers.set i Worker.empty)[i]? = some Worker.empty :=
    List.getElem?_set_self (List.getElem?_eq_some_iff.1 hi).1
  have hheld : ([] ++ Worker.held ⟨l, .busy c kept (.add t)⟩).Perm ([c] ++ Worker.empty.held) := .refl [c]
  have hadd : Function.update w.wakeup c (some t) c = some t := Function.update_self ..
  have h2 := h1.setWorker hi1 rfl rfl hheld htidy hadd
  refine ⟨_, rfl, ?_⟩
  have := setWorker_setWorker { w with delayCounter, wakeup := Function.update w.wakeup c (some t) } i .empty
    ⟨l, .busy c kept (.add t)⟩
  exact this ▸ h2

theorem Inv.requeue (h : Inv w [])
    (hi : w.workers[i]? = some ⟨l, .busy c kept (.add t)⟩) :
    ∃ w', w.step getDelay (.requeue i) = .ok (some w') ∧ Inv w' [] := by
  have hm := List.mem_of_getElem? hi
  unfold World.step
  dsimp only
  rw [hi]
  dsimp only
  rw [Worker.tidy_letGo (h.tidy _ hm)]
  unfold World.dropIfPoisoned
  cases hp : w.manager.wasPoisoned with
  | true =>
    rw [add_poisoned hp, if_pos rfl]
    exact ⟨_, rfl, (h.take hi).drop hp⟩
  | false =>
    obtain ⟨priorityVec, e, h1⟩ := (h.take hi).pushHeap (h.timely _ hm)
    rw [add_sleeping hp e, if_neg Bool.false_ne_true]
    exact ⟨_, rfl, h1⟩

theorem Inv.update (getDelay : Nat → Int) (h : Inv w []) :
    ∃ w', w.step getDelay .update = .ok (some w') ∧ Inv w' [] ∧
      (w.manager.wasPoisoned = false → ∀ b ∈ w'.manager.priorityVec, w.now ≤ b.wakeupTime) := by
  unfold World.step CoroutineableManager.update
  cases hp : w.manager.wasPoisoned with
  | true =>
    rw [if_pos rfl]
    exact ⟨_, rfl, h, fun he => nomatch he⟩
  | false =>
    rw [if_neg Bool.false_ne_true]
    obtain ⟨m, rs, e, h1, hle⟩ := h.updateLoop (Nat.lt_succ_self _)
    rw [e]
    refine ⟨_, rfl, h1, fun _ => ?_⟩
    rw [afterSection_manager]
    exact hle

/-- **A step goes through, or it cannot be taken, and keeps the invariant.** -/
theorem Inv.step (getDelay : Nat → Int) (h : Inv w []) (op : Op) :
    ∃ r, w.step getDelay op = .ok r ∧ ∀ w', r = some w' → Inv w' [] := by
  have done : (∃ w', w.step getDelay op = .ok (some w') ∧ Inv w' []) →
      ∃ r, w.step getDelay op = .ok r ∧ ∀ w', r = some w' → Inv w' [] := by
    rintro ⟨w', e, h'⟩
    exact ⟨_, e, fun w1 he => Option.some.inj he ▸ h'⟩
  have refused : w.step getDelay op = .ok none →
      ∃ r, w.step getDelay op = .ok r ∧ ∀ w', r = some w' → Inv w' [] :=
    fun e => ⟨none, e, fun _ he => nomatch he⟩
  cases op with
  | add => exact done h.add
  -- a call of a worker goes on if the worker is where the step begins
  | epoch i =>
    rcases hi : w.workers[i]? with _ | ⟨l, _ | _ | _ | _⟩
    case idle => exact done (h.epoch hi)
    all_goals exact refused (by simp [World.step, hi])
  | resume i =>
    rcases hi : w.workers[i]? with _ | ⟨l, _ | _ | _ | _⟩
    case released => exact done (h.resume hi)
    all_goals exact refused (by simp [World.step, hi])
  | hasNextReturned i b =>
    rcases hi : w.workers[i]? with _ | ⟨l, _ | _ | _ | ⟨c, kept, _ | _ | _ | _⟩⟩
    case hasNext => exact done (h.hasNextReturned hi)
    all_goals exact refused (by simp [World.step, hi])
  | nextReturned i b =>
    rcases hi : w.workers[i]? with _ | ⟨l, _ | _ | _ | ⟨c, kept, _ | _ | _ | _⟩⟩
    case next => exact done (h.nextReturned hi)
    all_goals exact refused (by simp [World.step, hi])
  | sleep i =>
    rcases hi : w.workers[i]? with _ | ⟨l, _ | _ | _ | ⟨c, kept, _ | _ | _ | _⟩⟩
    case sleep => exact done (h.sleeps hi)
    all_goals exact refused (by simp [World.step, hi])
  | requeue i =>
    rcases hi : w.workers[i]? with _ | ⟨l, _ | _ | _ | ⟨c, kept, _ | _ | _ | _⟩⟩
    case add => exact done (h.requeue hi)
    all_goals exact refused (by simp [World.step, hi])
  | update =>
    obtain ⟨w', e, h', -⟩ := h.update getDelay
    exact done ⟨w', e, h'⟩
  | poison =>
    refine done ⟨_, rfl, ?_⟩
    cases hp : w.manager.wasPoisoned with
    | true =>
      unfold CoroutineableManager.poison
      rw [hp, if_pos rfl]
      exact h
    | false => exact h.poison hp
  | tick dur =>
    have hle : w.now ≤ w.now + dur := Int.le_add_of_nonneg_right (Int.natCast_nonneg dur)
    exact done ⟨_, rfl, h.turns, h.custody, h.tidy, h.idle, h.poisoned, h.live, h.heap, h.asleep,
      fun c hc => (h.awake c hc).later hle, fun p hp => (h.timely p hp).later hle, h.new⟩

/-! ## Runs -/

/-- **Scheduler custody.** In every state of every run each coroutine is in one place: in the ready
queue, the sleep heap, the slot or the hands of one worker, or it ended. So no two workers run one coroutine,
and it runs again only after its wake-up time. A worker waits only while the ready queue is empty, and a
semaphore that nobody waits for was released once. No step stops the program. -/
theorem scheduler_custody {ops : List Op}
    (h : Run.Reach (fun w => ∃ workerSz now, w = World.start workerSz now)
      (fun w op w' => w.step getDelay op = .ok (some w')) w ops) :
    (w.places ++ (w.ended ++ w.dropped)).Perm (List.range w.added) ∧
    (w.manager.wasPoisoned = false → w.dropped = []) ∧
    (∀ (i j : Nat) l l' c kept kept' call call', w.workers[i]? = some ⟨l, .busy c kept call⟩ →
      w.workers[j]? = some ⟨l', .busy c kept' call'⟩ → i = j) ∧
    (∀ (i : Nat) l c kept call, w.workers[i]? = some ⟨l, .busy c kept call⟩ →
      call = .hasNext ∨ call = .next → ∀ t, w.wakeup c = some t → t < w.now) ∧
    (∀ w', w.step getDelay .update = .ok (some w') → w.manager.wasPoisoned = false →
      ∀ b ∈ w'.manager.priorityVec, w.now ≤ b.wakeupTime) ∧
    (∀ (i : Nat) l smp, w.workers[i]? = some ⟨l, .waiting smp⟩ →
      w.manager.coroutineableVec = [] ∧ smp < w.smps ∧ smp ∉ w.released) ∧
    (∀ smp < w.smps, (∀ (i : Nat) l, w.workers[i]? ≠ some ⟨l, .waiting smp⟩) →
      w.released.count smp = 1) ∧
    ∀ op, ∃ r, w.step getDelay op = .ok r := by
  have hinv : Inv w [] := by
    refine h.inv (fun w _ => Inv w []) ?_ ?_
    · rintro w ⟨workerSz, now, rfl⟩
      exact Inv.start workerSz now
    · intro w _ op w' hw e
      obtain ⟨r, e', h'⟩ := hw.step getDelay op
      rw [e] at e'
      cases e'
      exact h' w' rfl
  have hcustody : (w.places ++ (w.ended ++ w.dropped)).Perm (List.range w.added) := hinv.custody
  refine ⟨hcustody, hinv.live, ?_, ?_, ?_, ?_, ?_, ?_⟩
  · intro i j l l' c kept kept' call call' hi hj
    have hnodup := hcustody.nodup_iff.2 List.nodup_range
    have hheld := (List.nodup_append.1 (List.nodup_append.1 hnodup).1).2.1
    exact place_of_mem_flatMap hheld hi hj (List.mem_singleton_self c) (List.mem_singleton_self c)
  · intro i l c kept call hi hcall
    have htimely := hinv.timely _ (List.mem_of_getElem? hi)
    rcases hcall with rfl | rfl
    · exact htimely c (List.mem_singleton_self c)
    · exact htimely c (List.mem_singleton_self c)
  · intro w' e
    obtain ⟨w1, e1, -, hle⟩ := hinv.update getDelay
    rw [e1] at e
    cases e
    exact hle
  · intro i l smp hi
    refine ⟨hinv.idle fun hnil => ?_, hinv.turns.not_released hi rfl⟩
    have hrecord := (hinv.turns.mem_iff i smp).2 ⟨_, hi, rfl⟩
    rw [hnil] at hrecord
    exact absurd hrecord List.not_mem_nil
  · intro smp hlt hnone
    refine hinv.turns.released_once hlt fun i worker hi hw => ?_
    obtain ⟨l, rfl⟩ := Worker.of_waits hw
    exact hnone i l hi
  · intro op
    obtain ⟨r, e, -⟩ := hinv.step getDelay op
    exact ⟨r, e⟩

/-- A coroutine that sleeps is woken up into the hands of another worker, which waits. -/
theorem scheduler_custody_run : ∃ w : World,
    w.workers = [⟨[], .idle⟩, ⟨[], .busy 0 false .hasNext⟩] ∧ w.wakeup 0 = some 10000 ∧
    w.places.Perm [0] ∧ w.released.count 0 = 1 ∧ 10000 < w.now := by
  obtain ⟨w, hrun, hw, hwake, hended, hcount⟩ : ∃ w,
      [Op.add, .epoch 0, .hasNextReturned 0 true, .nextReturned 0 false, .sleep 0, .requeue 0, .epoch 1,
        .tick 20000, .update, .resume 1].foldlM (fun w op =>
          Run.ofStep (w.step (Base2ConsecutiveDelayCalculator.getDelay ⟨100000000, 10000⟩) op))
        (World.start 2 0) = some w ∧
      w.workers = [⟨[], .idle⟩, ⟨[], .busy 0 false .hasNext⟩] ∧ w.wakeup 0 = some 10000 ∧
      (w.ended ++ w.dropped = [] ∧ w.added = 1) ∧ 0 < w.smps := ⟨_, rfl, rfl, rfl, ⟨rfl, rfl⟩, Nat.one_pos⟩
  obtain ⟨hplaces, -, -, htimely, -, -, honce, -⟩ :=
    scheduler_custody ((Run.Reach.init ⟨2, 0, rfl⟩).runM id hrun)
  rw [hended.1, hended.2, List.append_nil] at hplaces
  refine ⟨w, hw, hwake, hplaces, honce 0 hcount fun i l hi => ?_,
    htimely 1 [] 0 false .hasNext (by rw [hw]; rfl) (.inl rfl) _ hwake⟩
  have hm := List.mem_of_getElem? hi
  rw [hw] at hm
  simp at hm

end CoroutineX
