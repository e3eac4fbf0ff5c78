import NeuralNetwork.AlgorithmExtension.Proof.ShortHeap
import NeuralNetwork.CronSubsystem.Cron
import NeuralNetwork.Lib.Run
import NeuralNetwork.Lib.WaitTurns

/-!
# Cron jobs run one at a time, on time, and stop when they are cancelled

`Inv w transit` is the invariant of a world in the middle of a step, where the jobs `transit` are taken from
one place and not yet put at another; what is known about a job in transit may change (`Inv.modify`). The
poison pill of a job is tested before each run but the first, and not together with the start of the
run, so one run may start after the handle is destroyed, and no second one (`Inv.late`). `jobs_in_turn` is
about all runs in which no sum of a time and a duration overflows.
-/

namespace CronSubsystem

open Cpp DaryHeap ListUpdate ShortHeap WaitTurns PeriodicCronContainer CronWorker
open PeriodicCronContainer (updateLoop)

variable {w w' : World} {transit : List Nat} {c i : Nat} {worker worker' : CronWorker}
  {job : PeriodicCronJob}

/-! ## Workers -/

def CronWorker.waits : CronWorker → Option Nat
  | .waiting smp => some smp
  | _ => none

def CronWorker.inHand : CronWorker → Option PeriodicCronJob
  | .idle => none
  | .waiting _ => none
  | .released waitingItem => waitingItem
  | .updating cronJob => some cronJob
  | .starting cronJob => some cronJob
  | .running cronJob => some cronJob
  | .pushing cronJob => some cronJob

def CronWorker.held (worker : CronWorker) : List Nat := (worker.inHand.map PeriodicCronJob.updatable).toList

theorem CronWorker.of_waits {smp : Nat} (h : worker.waits = some smp) : worker = .waiting smp := by
  cases worker with
  | waiting n =>
    cases h
    rfl
  | _ => cases h

theorem CronWorker.mem_held (h : worker.inHand = some job) : job.updatable ∈ worker.held := by
  unfold CronWorker.held
  rw [h]
  exact List.mem_singleton_self _

/-! ## What is known about a job -/

/-- The job has the duration that it was launched with. -/
def World.Owned (w : World) (job : PeriodicCronJob) : Prop :=
  (w.history job.updatable).dur = job.dur ∧ 0 ≤ job.dur

def World.Ripe (w : World) (job : PeriodicCronJob) : Prop :=
  (w.history job.updatable).queuedAt + job.dur < w.now

/-- No run started after the handle was destroyed, and the poison pill is tested before the next run. -/
def World.Checked (w : World) (job : Nat) : Prop :=
  (w.history job).lateRuns = 0 ∧ (w.wrapper job).poisonChkIntervalCounter = 1

def World.Timely (w : World) : CronWorker → Prop
  | .released (some job) => w.Owned job ∧ w.Ripe job
  | .updating job => w.Owned job ∧ w.Ripe job
  | .starting job => w.Owned job ∧ w.Ripe job ∧ w.Checked job.updatable
  | .running job => w.Owned job
  | .pushing job => w.Owned job
  | _ => True

def World.Queued (w : World) (b : CronBucket) : Prop :=
  b.expiry = (w.history b.baseJob.updatable).queuedAt + b.baseJob.dur ∧ w.Owned b.baseJob

structure Sound (history : JobHistory) (wrapper : InternalUpdatableWrapper) : Prop where
  /-- One run at most started after the handle was destroyed, and then the next test finds it. -/
  late : history.lateRuns = 0 ∨
    (history.lateRuns = 1 ∧ wrapper.poisonPill = true ∧ wrapper.poisonChkIntervalCounter = 1)
  counter : wrapper.poisonChkIntervalCounter ≤ 1
  confirmed : wrapper.isPoisonConfimed = true → wrapper.poisonPill = true

/-- What is known about the job of a worker depends on the job, and on a time that goes on. -/
theorem World.Timely.congr (h : w.Timely worker) (hnow : w.now ≤ w'.now)
    (hh : ∀ c ∈ worker.held, w'.history c = w.history c)
    (hw : ∀ c ∈ worker.held, (w'.wrapper c).poisonChkIntervalCounter =
      (w.wrapper c).poisonChkIntervalCounter) : w'.Timely worker := by
  have owned : ∀ job, worker.inHand = some job → w.Owned job → w'.Owned job := by
    intro job hj ho
    unfold World.Owned
    rw [hh _ (mem_held hj)]
    exact ho
  have ripe : ∀ job, worker.inHand = some job → w.Ripe job → w'.Ripe job := by
    intro job hj hr
    unfold World.Ripe
    rw [hh _ (mem_held hj)]
    exact Int.lt_of_lt_of_le hr hnow
  cases worker with
  | idle => exact True.intro
  | waiting _ => exact True.intro
  | released item =>
    cases item with
    | none => exact True.intro
    | some job => exact ⟨owned job rfl h.1, ripe job rfl h.2⟩
  | updating job => exact ⟨owned job rfl h.1, ripe job rfl h.2⟩
  | starting job =>
    refine ⟨owned job rfl h.1, ripe job rfl h.2.1, ?_⟩
    unfold World.Checked
    rw [hh _ (mem_held rfl), hw _ (mem_held rfl)]
    exact h.2.2
  | running job => exact owned job rfl h
  | pushing job => exact owned job rfl h

theorem World.Queued.congr {b : CronBucket} (h : w.Queued b)
    (hh : w'.history b.baseJob.updatable = w.history b.baseJob.updatable) : w'.Queued b := by
  unfold World.Queued World.Owned
  rw [hh]
  exact h

/-! ## The invariant -/

def World.places (w : World) : List Nat :=
  w.container.periodicCronBucketVec.map (fun b : CronBucket => b.baseJob.updatable) ++
    w.workers.flatMap CronWorker.held

def PeriodicCronContainer.records (container : PeriodicCronContainer) : List (Nat × Nat) :=
  if container.wasPoisoned then [] else container.waitBucketVec

abbrev Earlier (a b : CronBucket) : Prop := a.expiry ≤ b.expiry

structure Inv (w : World) (transit : List Nat) : Prop where
  turns : Turns CronWorker.waits w.container.records w.workers w.smps w.released
  custody : (transit ++ (w.places ++ w.ended.map Prod.fst)).Perm (List.range w.launched)
  heap : IsHeap Earlier DEFAULT_OUT_DEGREE_SZ w.container.periodicCronBucketVec
  queued : ∀ b ∈ w.container.periodicCronBucketVec, w.Queued b
  timely : ∀ worker ∈ w.workers, w.Timely worker
  sound : ∀ j, Sound (w.history j) (w.wrapper j)
  cancelled : ∀ j, (j, Ending.cancelled) ∈ w.ended → (w.wrapper j).poisonPill = true
  refused : ∀ j, (j, Ending.refused) ∈ w.ended → w.container.wasPoisoned = true

theorem Inv.start (workerSz : Nat) (now : Int) : Inv (World.start workerSz now) [] where
  turns := Turns.init fun p hp => by
    rw [List.eq_of_mem_replicate hp]
    rfl
  custody := by
    have hnil : (List.replicate workerSz CronWorker.idle).flatMap CronWorker.held = [] :=
      List.flatMap_eq_nil_iff.2 fun p hp => by rw [List.eq_of_mem_replicate hp]; rfl
    show ([] ++ (([] ++ (List.replicate workerSz CronWorker.idle).flatMap CronWorker.held) ++ [])).Perm []
    rw [hnil]
    exact .refl []
  heap := isHeap_nil
  queued b hb := absurd hb List.not_mem_nil
  timely worker hm := by
    rw [List.eq_of_mem_replicate hm]
    exact True.intro
  sound _ := ⟨.inl rfl, Nat.zero_le 1, fun he => nomatch he⟩
  cancelled j hj := absurd hj List.not_mem_nil
  refused j hj := absurd hj List.not_mem_nil

theorem Inv.not_placed (h : Inv w [c]) : c ∉ w.places ∧ c ∉ w.ended.map Prod.fst := by
  have hnodup := h.custody.nodup_iff.2 List.nodup_range
  have hnot := fun a ha => (List.nodup_append.1 hnodup).2.2 c (List.mem_singleton_self c) a ha
  exact ⟨fun hm => hnot c (List.mem_append_left _ hm) rfl,
    fun hm => hnot c (List.mem_append_right _ hm) rfl⟩

/-! ## Moves of a worker -/

theorem Inv.setWorker (h : Inv w transit) (hi : w.workers[i]? = some worker) (hw : worker.waits = none)
    (hw' : worker'.waits = none) {transit' : List Nat}
    (hheld : (transit' ++ worker'.held).Perm (transit ++ worker.held)) (htimely : w.Timely worker') :
    Inv (w.setWorker i worker') transit' where
  __ := h
  turns := h.turns.set hi hw hw'
  custody := (perm_exchange CronWorker.held hi hheld).trans h.custody
  timely := forall_mem_set h.timely htimely

theorem Inv.take (h : Inv w []) (hi : w.workers[i]? = some worker) (hj : worker.inHand = some job) :
    Inv (w.setWorker i .idle) [job.updatable] := by
  refine h.setWorker hi ?_ rfl ?_ True.intro
  · cases worker with
    | waiting _ => cases hj
    | _ => rfl
  · unfold CronWorker.held
    rw [hj]
    exact .refl _

theorem Inv.goOn (h : Inv w []) (hi : w.workers[i]? = some worker) (hw : worker.waits = none)
    (hw' : worker'.waits = none) (hj : worker'.inHand = worker.inHand) (htimely : w.Timely worker') :
    Inv (w.setWorker i worker') [] := by
  refine h.setWorker hi hw hw' ?_ htimely
  unfold CronWorker.held
  rw [hj]

theorem Inv.put (h : Inv w [job.updatable]) (worker' : CronWorker) (hi : w.workers[i]? = some .idle)
    (hw' : worker'.waits = none) (hj : worker'.inHand = some job) (htimely : w.Timely worker') :
    Inv (w.setWorker i worker') [] := by
  refine h.setWorker hi rfl hw' ?_ htimely
  unfold CronWorker.held
  rw [hj]
  exact .refl _

theorem Inv.wait (h : Inv w []) (hi : w.workers[i]? = some .idle)
    (hp : w.container.wasPoisoned = false) :
    Inv ({ w with
      container := { w.container with waitBucketVec := w.container.waitBucketVec ++ [(i, w.smps)] }
      smps := w.smps + 1 }.setWorker i (.waiting w.smps)) [] where
  __ := h
  turns := by
    have := h.turns
    unfold records at this ⊢
    rw [hp, if_neg Bool.false_ne_true] at this
    show Turns _ (if w.container.wasPoisoned then [] else _) _ _ _
    rw [hp, if_neg Bool.false_ne_true]
    exact this.wait hi rfl rfl
  custody := (perm_exchange CronWorker.held hi (b := .waiting w.smps) (.refl _)).trans h.custody
  timely := forall_mem_set h.timely True.intro

/-! ## Moves of a job in transit -/

variable {wrapper : InternalUpdatableWrapper} {history : JobHistory}

theorem Inv.modify (h : Inv w transit) (c : Nat) (hplaced : c ∈ w.places → history = w.history c ∧
      wrapper.poisonChkIntervalCounter = (w.wrapper c).poisonChkIntervalCounter)
    (hsound : Sound history wrapper)
    (hpill : c ∈ w.ended.map Prod.fst → (w.wrapper c).poisonPill = true → wrapper.poisonPill = true) :
    Inv ((w.setWrapper c wrapper).setHistory c history) transit := by
  have hh : ∀ a ∈ w.places, Function.update w.history c history a = w.history a := by
    intro a ha
    by_cases hac : a = c
    · subst hac
      rw [Function.update_self]
      exact (hplaced ha).1
    · rw [Function.update_of_ne hac]
  have hw : ∀ a ∈ w.places, (Function.update w.wrapper c wrapper a).poisonChkIntervalCounter =
      (w.wrapper a).poisonChkIntervalCounter := by
    intro a ha
    by_cases hac : a = c
    · subst hac
      rw [Function.update_self]
      exact (hplaced ha).2
    · rw [Function.update_of_ne hac]
  refine ⟨h.turns, h.custody, h.heap, fun b hb => ?_, fun p hp => ?_, fun a => ?_, fun a ha => ?_,
    h.refused⟩
  · refine (h.queued b hb).congr (hh _ ?_)
    exact List.mem_append_left _ (List.mem_map.2 ⟨b, hb, rfl⟩)
  · have hheld : ∀ a ∈ p.held, a ∈ w.places := fun a ha =>
      List.mem_append_right _ (List.mem_flatMap.2 ⟨p, hp, ha⟩)
    exact (h.timely p hp).congr (Int.le_refl _) (fun a ha => hh a (hheld a ha))
      fun a ha => hw a (hheld a ha)
  · show Sound (Function.update w.history c history a) (Function.update w.wrapper c wrapper a)
    by_cases hac : a = c
    · subst hac
      rw [Function.update_self, Function.update_self]
      exact hsound
    · rw [Function.update_of_ne hac, Function.update_of_ne hac]
      exact h.sound a
  · show (Function.update w.wrapper c wrapper a).poisonPill = true
    by_cases hac : a = c
    · subst hac
      rw [Function.update_self]
      exact hpill (List.mem_map.2 ⟨_, ha, rfl⟩) (h.cancelled a ha)
    · rw [Function.update_of_ne hac]
      exact h.cancelled a ha

theorem Inv.setWrapper (h : Inv w [c])
    (hsound : Sound (w.history c) wrapper) : Inv (w.setWrapper c wrapper) [c] := by
  have := h.modify c (fun hm => absurd hm h.not_placed.1) hsound fun hm => absurd hm h.not_placed.2
  unfold World.setHistory at this
  rw [show (w.setWrapper c wrapper).history = w.history from rfl, Function.update_eq_self] at this
  exact this

theorem Inv.setHistory (h : Inv w [c]) (hsound : Sound history (w.wrapper c)) :
    Inv (w.setHistory c history) [c] := by
  have := h.modify c (fun hm => absurd hm h.not_placed.1) hsound fun _ => id
  unfold World.setWrapper at this
  rw [Function.update_eq_self] at this
  exact this

theorem Inv.made (h : Inv w []) (dur : Int) : Inv (w.made dur) [w.launched] := by
  have h1 : Inv { w with launched := w.launched + 1 } [w.launched] := by
    refine { h with custody := ?_ }
    rw [List.range_succ]
    exact (h.custody.append_left [w.launched]).trans List.perm_append_comm
  exact h1.modify w.launched (fun hm => absurd hm h1.not_placed.1)
    ⟨.inl rfl, Nat.zero_le 1, fun he => nomatch he⟩ fun hm => absurd hm h1.not_placed.2

theorem Inv.finish {ending : Ending} (h : Inv w [c])
    (hc : ending = .cancelled → (w.wrapper c).poisonPill = true)
    (hr : ending = .refused → w.container.wasPoisoned = true) : Inv (w.finish c ending) [] := by
  refine { h with custody := ?_, cancelled := fun j hj => ?_, refused := fun j hj => ?_ }
  · refine .trans ?_ h.custody
    show ([] ++ (w.places ++ (w.ended ++ [(c, ending)]).map Prod.fst)).Perm _
    rw [List.map_append, List.perm_iff_count]
    intro a
    simp only [List.count_append, List.map_cons, List.map_nil, List.count_nil]
    omega
  · rcases List.mem_append.1 hj with hj | hj
    · exact h.cancelled j hj
    · cases List.mem_singleton.1 hj
      exact hc rfl
  · rcases List.mem_append.1 hj with hj | hj
    · exact h.refused j hj
    · cases List.mem_singleton.1 hj
      exact hr rfl

theorem Inv.destroyHandle (h : Inv w []) (c : Nat) :
    Inv (w.setWrapper c { w.wrapper c with poisonPill := true }) [] := by
  have hsound : Sound (w.history c) { w.wrapper c with poisonPill := true } := by
    refine ⟨?_, (h.sound c).counter, fun _ => rfl⟩
    rcases (h.sound c).late with h0 | ⟨h1, -, hcounter⟩
    · exact .inl h0
    · exact .inr ⟨h1, rfl, hcounter⟩
  have hplaced : c ∈ w.places → w.history c = w.history c ∧
      ({ w.wrapper c with poisonPill := true } : InternalUpdatableWrapper).poisonChkIntervalCounter =
        (w.wrapper c).poisonChkIntervalCounter := fun _ => ⟨rfl, rfl⟩
  have := h.modify c hplaced hsound fun _ _ => rfl
  unfold World.setHistory at this
  rw [show (w.setWrapper c { w.wrapper c with poisonPill := true }).history = w.history from rfl,
    Function.update_eq_self] at this
  exact this

/-! ## Moves of the container -/

theorem Inv.pushHeap (h : Inv w [job.updatable]) (ho : w.Owned job) :
    ∃ l, ShortHeap.pushHeap periodicCronBucketComparator DEFAULT_OUT_DEGREE_SZ
        (w.container.periodicCronBucketVec ++ [⟨job, w.now + job.dur⟩]) = .ok l ∧
      Inv (w.queued job.updatable { w.container with periodicCronBucketVec := l }) [] := by
  obtain ⟨l, e, hperm, hheap⟩ := pushHeap_ok (totalPreorder_le CronBucket.expiry)
    (decides_le CronBucket.expiry) h.heap ⟨job, w.now + job.dur⟩
  have h1 : Inv (w.setHistory job.updatable { w.history job.updatable with queuedAt := w.now })
      [job.updatable] :=
    h.setHistory ⟨(h.sound _).late, (h.sound _).counter, (h.sound _).confirmed⟩
  refine ⟨l, e, { h1 with
    custody := ?_, heap := hheap, queued := fun b hb => ?_ }⟩
  · have hjoin : (⟨job, w.now + job.dur⟩ :: w.container.periodicCronBucketVec).Perm l :=
      (hperm.trans List.perm_append_comm).symm
    exact (perm_leave [] (fun b : CronBucket => b.baseJob.updatable) hjoin).symm.trans h.custody
  · rcases List.mem_append.1 (hperm.mem_iff.1 hb) with hb | hb
    · exact h1.queued b hb
    · obtain rfl := List.mem_singleton.1 hb
      unfold World.Queued World.Owned World.queued World.setHistory
      dsimp only
      rw [Function.update_self]
      exact ⟨rfl, ho⟩

theorem Inv.popHeap {front : CronBucket} {rest : List CronBucket} (h : Inv w [])
    (hfront : w.container.periodicCronBucketVec = front :: rest) :
    ∃ l, ShortHeap.popHeap periodicCronBucketComparator DEFAULT_OUT_DEGREE_SZ
        w.container.periodicCronBucketVec = .ok (l ++ [front]) ∧
      l.length < w.container.periodicCronBucketVec.length ∧
      Inv { w with container := { w.container with periodicCronBucketVec := l } }
        [front.baseJob.updatable] ∧ w.Queued front := by
  have hheap := h.heap
  have hqueued := h.queued
  rw [hfront] at hheap hqueued
  obtain ⟨l, e, hperm, hheap'⟩ := popHeap_ok (Nat.succ_pos 7) (totalPreorder_le CronBucket.expiry)
    (decides_le CronBucket.expiry) hheap
  have hleave : (front :: l).Perm w.container.periodicCronBucketVec := hfront ▸ hperm.cons front
  rw [hfront]
  exact ⟨l, e, by rw [List.length_cons, hperm.length_eq]; exact Nat.lt_succ_self _, { h with
    custody := (perm_leave [] (fun b : CronBucket => b.baseJob.updatable) hleave).trans h.custody
    heap := hheap'
    queued := fun b hb => hqueued b (List.mem_cons_of_mem _ (hperm.mem_iff.1 hb)) },
    hqueued front List.mem_cons_self⟩

theorem Inv.release {record : Nat × Nat} {rest : List (Nat × Nat)} (item : Option PeriodicCronJob)
    (h : Inv w (item.map PeriodicCronJob.updatable).toList) (hp : w.container.wasPoisoned = false)
    (hwait : w.container.waitBucketVec = record :: rest) (htimely : w.Timely (.released item)) :
    Inv (World.release { w with container := { w.container with waitBucketVec := rest } }
      ⟨record.1, record.2, item⟩) [] := by
  have hturns := h.turns
  unfold records at hturns
  rw [hp, if_neg Bool.false_ne_true, hwait] at hturns
  obtain ⟨worker, hi, hw⟩ := hturns.front
  obtain rfl := CronWorker.of_waits hw
  refine { h with turns := ?_, custody := ?_, timely := forall_mem_set h.timely htimely }
  · show Turns _ (if w.container.wasPoisoned then [] else rest) _ _ _
    rw [hp, if_neg Bool.false_ne_true]
    exact hturns.serve rfl
  · exact (perm_exchange CronWorker.held hi (x := []) (b := .released item)
      (by rw [show CronWorker.held (.waiting _) = [] from rfl, List.append_nil]; exact .refl _)).trans
      h.custody

/-! ## Sections -/

theorem foldl_release_container (rs : List Release) (w : World) (container : PeriodicCronContainer) :
    rs.foldl World.release { w with container } = { rs.foldl World.release w with container } := by
  induction rs generalizing w with
  | nil => rfl
  | cons r rs ih => exact ih (w.release r)

theorem afterSection_container (w : World) (container : PeriodicCronContainer) (rs : List Release) :
    (w.afterSection (container, rs)).container = container := by
  unfold World.afterSection
  rw [foldl_release_container]

/-- **After update nobody waits, or no job is due.** -/
theorem Inv.updateLoop {fuel : Nat} (h : Inv w []) (hp : w.container.wasPoisoned = false)
    (hfuel : w.container.periodicCronBucketVec.length < fuel) :
    ∃ container rs, updateLoop w.now fuel w.container = .ok (container, rs) ∧
      Inv (w.afterSection (container, rs)) [] ∧ container.wasPoisoned = false ∧
      (container.waitBucketVec = [] ∨ ∀ b ∈ container.periodicCronBucketVec, w.now ≤ b.expiry) := by
  induction fuel generalizing w with
  | zero => omega
  | succ fuel ih =>
    unfold updateLoop
    cases hfront : w.container.periodicCronBucketVec with
    | nil =>
      refine ⟨w.container, [], rfl, h, hp, .inr fun b hb => ?_⟩
      rw [hfront] at hb
      exact absurd hb List.not_mem_nil
    | cons front rest =>
      cases hwait : w.container.waitBucketVec with
      | nil => exact ⟨w.container, [], rfl, h, hp, .inl hwait⟩
      | cons waitable waiting =>
        dsimp only
        by_cases hge : front.expiry ≥ w.now
        · rw [if_pos hge]
          refine ⟨w.container, [], rfl, h, hp, .inr fun b hb => ?_⟩
          have hheap := h.heap
          rw [hfront] at hb hheap
          rcases List.mem_cons.1 hb with rfl | hb
          · exact hge
          · exact hge.trans (hheap.root (totalPreorder_le CronBucket.expiry) b hb)
        · rw [if_neg hge]
          obtain ⟨l, e, hlen, h1, hexpiry, howned⟩ := h.popHeap hfront
          have hripe : w.Ripe front.baseJob := by
            unfold World.Ripe
            rw [← hexpiry]
            exact not_le.1 hge
          have h2 := Inv.release (some front.baseJob) h1 hp hwait ⟨howned, hripe⟩
          obtain ⟨container, rs, e2, h3, hp', hle⟩ := ih h2 hp (by
            show l.length < fuel
            omega)
          refine ⟨container, ⟨waitable.1, waitable.2, some front.baseJob⟩ :: rs, ?_, h3, hp', hle⟩
          rw [hfront] at e
          rw [e, Loop.ok_bind, List.dropLast_concat]
          replace e2 : updateLoop w.now fuel { w.container with
              periodicCronBucketVec := l, waitBucketVec := waiting } = .ok (container, rs) := e2
          rw [e2]
          rfl

theorem Inv.releaseAll {records : List (Nat × Nat)} (h : Inv w [])
    (hp : w.container.wasPoisoned = false) (hwait : w.container.waitBucketVec = records) :
    Inv (w.afterSection ({ w.container with waitBucketVec := [] },
      records.map fun waitBucket => ⟨waitBucket.1, waitBucket.2, none⟩)) [] := by
  induction records generalizing w with
  | nil =>
    have he : { w.container with waitBucketVec := [] } = w.container := by rw [← hwait]
    rw [he]
    exact h
  | cons record rest ih =>
    have h1 := Inv.release none h hp hwait True.intro
    exact ih h1 hp rfl

theorem Inv.poison (h : Inv w []) : Inv (w.afterSection w.container.poison) [] := by
  unfold PeriodicCronContainer.poison
  cases hp : w.container.wasPoisoned with
  | true =>
    rw [if_pos rfl]
    exact h
  | false =>
    rw [if_neg Bool.false_ne_true]
    have h1 := h.releaseAll hp rfl
    have hturns := h1.turns
    unfold records at hturns
    unfold World.afterSection at h1 hturns ⊢
    rw [foldl_release_container] at h1 hturns ⊢
    rw [hp, if_neg Bool.false_ne_true] at hturns
    exact ⟨hturns, h1.custody, h1.heap, h1.queued, h1.timely, h1.sound, h1.cancelled,
      fun _ _ => rfl⟩

/-! ## Steps -/

theorem Inv.push {w : World} {cronJob : PeriodicCronJob} (h : Inv w [cronJob.updatable])
    (ho : w.Owned cronJob) :
    (w.container.wasPoisoned = true ∧
      w.container.push (some cronJob) w.now = .ok (.threw "bad operation, container was poisoned")) ∨
    (w.container.wasPoisoned = false ∧ w.now + cronJob.dur ≥ 2 ^ 63 ∧
      w.container.push (some cronJob) w.now = .error .undefined) ∨
    ∃ container, w.container.push (some cronJob) w.now = .ok (.pushed container) ∧
      Inv (w.queued cronJob.updatable container) [] := by
  unfold PeriodicCronContainer.push
  dsimp only
  rw [if_neg (Int.not_lt.2 ho.2)]
  cases hp : w.container.wasPoisoned with
  | true =>
    rw [if_pos rfl]
    exact .inl ⟨rfl, rfl⟩
  | false =>
    rw [if_neg Bool.false_ne_true]
    unfold addDur
    by_cases hlt : w.now + cronJob.dur < 2 ^ 63
    · rw [if_pos hlt]
      obtain ⟨l, e, h1⟩ := h.pushHeap ho
      rw [Loop.ok_bind, e, ← hp]
      exact .inr (.inr ⟨_, rfl, h1⟩)
    · rw [if_neg hlt]
      exact .inr (.inl ⟨rfl, Int.not_lt.1 hlt, rfl⟩)

section
variable {container : PeriodicCronContainer} {front : CronBucket} {rest l : List CronBucket} {now : Int}

theorem PeriodicCronContainer.pop_poisoned (hp : container.wasPoisoned = true) (i smp : Nat) (now : Int) :
    container.pop i smp now = .ok (container, .got none) := by
  unfold PeriodicCronContainer.pop
  rw [if_pos hp]

theorem PeriodicCronContainer.pop_due (hp : container.wasPoisoned = false)
    (hfront : container.periodicCronBucketVec = front :: rest) (hlt : front.expiry < now)
    (e : ShortHeap.popHeap periodicCronBucketComparator DEFAULT_OUT_DEGREE_SZ
      container.periodicCronBucketVec = .ok (l ++ [front])) (i smp : Nat) :
    container.pop i smp now =
      .ok ({ container with periodicCronBucketVec := l }, .got (some front.baseJob)) := by
  obtain ⟨vec, waiting, poisoned⟩ := container
  obtain rfl : vec = front :: rest := hfront
  obtain rfl : poisoned = false := hp
  unfold PeriodicCronContainer.pop
  dsimp only at e ⊢
  rw [if_neg Bool.false_ne_true, if_pos hlt, e, Loop.ok_bind, List.dropLast_concat]

theorem PeriodicCronContainer.pop_waits (hp : container.wasPoisoned = false)
    (h : ∀ front rest, container.periodicCronBucketVec = front :: rest → ¬ front.expiry < now)
    (i smp : Nat) : container.pop i smp now =
      .ok ({ container with waitBucketVec := container.waitBucketVec ++ [(i, smp)] }, .waits) := by
  obtain ⟨vec, waiting, poisoned⟩ := container
  obtain rfl : poisoned = false := hp
  unfold PeriodicCronContainer.pop
  rw [if_neg Bool.false_ne_true]
  cases vec with
  | nil => rfl
  | cons front rest =>
    dsimp only
    rw [if_neg (h front rest rfl)]

end

theorem Inv.pop (h : Inv w []) (hi : w.workers[i]? = some .idle) :
    ∃ w', w.step (.pop i) = .ok (some w') ∧ Inv w' [] := by
  unfold World.step
  dsimp only
  rw [hi]
  cases hp : w.container.wasPoisoned with
  | true =>
    rw [pop_poisoned hp]
    exact ⟨_, rfl, h⟩
  | false =>
    by_cases hdue : ∃ front rest, w.container.periodicCronBucketVec = front :: rest ∧ front.expiry < w.now
    · obtain ⟨front, rest, hfront, hlt⟩ := hdue
      obtain ⟨l, e, -, h1, hexpiry, howned⟩ := h.popHeap hfront
      rw [pop_due hp hfront hlt e]
      have hripe : w.Ripe front.baseJob := by
        unfold World.Ripe
        rw [← hexpiry]
        exact hlt
      exact ⟨_, rfl, h1.put (.updating front.baseJob) hi rfl rfl ⟨howned, hripe⟩⟩
    · rw [PeriodicCronContainer.pop_waits hp fun front rest hfront hlt => hdue ⟨front, rest, hfront, hlt⟩]
      exact ⟨_, rfl, h.wait hi hp⟩

theorem Inv.resume {item : Option PeriodicCronJob} (h : Inv w [])
    (hi : w.workers[i]? = some (.released item)) :
    ∃ w', w.step (.resume i) = .ok (some w') ∧ Inv w' [] := by
  have htimely := h.timely _ (List.mem_of_getElem? hi)
  unfold World.step
  dsimp only
  rw [hi]
  cases item with
  | none => exact ⟨_, rfl, h.goOn hi rfl rfl rfl True.intro⟩
  | some job => exact ⟨_, rfl, h.goOn hi rfl rfl rfl htimely⟩

theorem setWorker_setWorker (w : World) (i : Nat) (worker worker' : CronWorker) :
    (w.setWorker i worker).setWorker i worker' = w.setWorker i worker' := by
  unfold World.setWorker
  rw [List.set_set]

/-- A test that lets the run go finds no poison pill, or it is the first one. -/
theorem Sound.test (h : Sound history wrapper) :
    Sound history wrapper.test.1 ∧
      (wrapper.test.2 = true → history.lateRuns = 0 ∧ wrapper.test.1.poisonChkIntervalCounter = 1) ∧
      (wrapper.test.2 = false → wrapper.test.1.poisonPill = true) := by
  obtain ⟨pill, counter, confirmed⟩ := wrapper
  have hlate : history.lateRuns = 0 ∨ (history.lateRuns = 1 ∧ pill = true ∧ counter = 1) := h.late
  unfold InternalUpdatableWrapper.test InternalUpdatableWrapper.POISON_CHK_INTERVAL_DUE
  by_cases hc : confirmed = true
  · rw [if_pos hc]
    exact ⟨h, fun he => (nomatch he), fun _ => h.confirmed hc⟩
  · rw [if_neg hc]
    by_cases hcounter : counter = 1
    · rw [if_pos hcounter]
      cases pill with
      | true =>
        rw [if_pos rfl]
        exact ⟨⟨h.late, h.counter, fun _ => rfl⟩, fun he => (nomatch he), fun _ => rfl⟩
      | false =>
        rw [if_neg Bool.false_ne_true]
        have h0 : history.lateRuns = 0 := hlate.resolve_right fun hl => nomatch hl.2.1
        exact ⟨⟨.inl h0, Nat.le_refl 1, h.confirmed⟩, fun _ => ⟨h0, rfl⟩, fun he => nomatch he⟩
    · rw [if_neg hcounter]
      have hzero : counter = 0 := Nat.lt_one_iff.1 (Nat.lt_of_le_of_ne h.counter hcounter)
      have h0 : history.lateRuns = 0 := hlate.resolve_right fun hl => hcounter hl.2.2
      subst hzero
      exact ⟨⟨.inl h0, Nat.le_refl 1, h.confirmed⟩, fun _ => ⟨h0, rfl⟩, fun he => nomatch he⟩

theorem getElem?_setWorker (hi : w.workers[i]? = some worker) (worker' : CronWorker) :
    (w.setWorker i worker').workers[i]? = some worker' :=
  List.getElem?_set_self (List.getElem?_eq_some_iff.1 hi).1

theorem Inv.tests (h : Inv w []) (hi : w.workers[i]? = some (.updating job)) :
    ∃ w', w.step (.test i) = .ok (some w') ∧ Inv w' [] := by
  obtain ⟨howned, hripe⟩ := h.timely _ (List.mem_of_getElem? hi)
  obtain ⟨hsound, hgo, hstop⟩ := (h.sound job.updatable).test
  unfold World.step
  dsimp only
  rw [hi]
  dsimp only
  have h1 := h.take hi rfl
  have h2 := h1.setWrapper hsound
  generalize ht : (w.wrapper job.updatable).test = r at hsound hgo hstop h2
  obtain ⟨wrapper, go⟩ := r
  cases go with
  | true =>
    refine ⟨_, rfl, ?_⟩
    have hchecked : (w.setWrapper job.updatable wrapper).Checked job.updatable := by
      unfold World.Checked World.setWrapper
      dsimp only
      rw [Function.update_self]
      exact hgo rfl
    have htimely : (w.setWrapper job.updatable wrapper).Timely (.starting job) := ⟨howned, hripe, hchecked⟩
    have := h2.put (.starting job) (getElem?_setWorker hi .idle) rfl rfl htimely
    exact setWorker_setWorker (w.setWrapper job.updatable wrapper) i .idle (.starting job) ▸ this
  | false =>
    refine ⟨_, rfl, h2.finish (fun _ => ?_) fun he => nomatch he⟩
    show (Function.update w.wrapper job.updatable wrapper job.updatable).poisonPill = true
    rw [Function.update_self]
    exact hstop rfl

theorem Inv.starts (h : Inv w []) (hi : w.workers[i]? = some (.starting job)) :
    ∃ w', w.step (.start i) = .ok (some w') ∧ Inv w' [] := by
  obtain ⟨howned, hripe, hlate, hcounter⟩ := h.timely _ (List.mem_of_getElem? hi)
  unfold World.step
  dsimp only
  rw [hi]
  dsimp only
  generalize hh : ({ w.history job.updatable with
    lateRuns := (w.history job.updatable).lateRuns +
      if (w.wrapper job.updatable).poisonPill = true then 1 else 0 } : JobHistory) = history
  have hsound : Sound history (w.wrapper job.updatable) := by
    refine ⟨?_, (h.sound _).counter, (h.sound _).confirmed⟩
    rw [← hh]
    rw [hlate]
    cases hpill : (w.wrapper job.updatable).poisonPill with
    | true => exact .inr ⟨rfl, rfl, hcounter⟩
    | false => exact .inl rfl
  have h2 := (h.take hi rfl).setHistory hsound
  have htimely : (w.setHistory job.updatable history).Timely (.running job) := by
    unfold World.Timely World.Owned World.setHistory
    dsimp only
    rw [Function.update_self, ← hh]
    exact howned
  have := h2.put (.running job) (getElem?_setWorker hi .idle) rfl rfl htimely
  exact ⟨_, rfl, setWorker_setWorker (w.setHistory job.updatable history) i .idle (.running job) ▸ this⟩

theorem Inv.returns (h : Inv w []) (hi : w.workers[i]? = some (.running job)) (threw : Bool) :
    ∃ w', w.step (.returned i threw) = .ok (some w') ∧ Inv w' [] := by
  have howned := h.timely _ (List.mem_of_getElem? hi)
  unfold World.step
  dsimp only
  rw [hi]
  cases threw with
  | true => exact ⟨_, rfl, (h.take hi rfl).finish (fun he => nomatch he) fun he => nomatch he⟩
  | false => exact ⟨_, rfl, h.goOn hi rfl rfl rfl howned⟩

/-- The sum of the time and of the duration of the job that a step queues does not fit. -/
def World.Overflows (w : World) (op : Op) : Prop :=
  w.step op = .error .undefined ∧
    match op with
    | .launch dur => w.now + dur ≥ 2 ^ 63
    | .push i => ∃ job, w.workers[i]? = some (.pushing job) ∧ w.now + job.dur ≥ 2 ^ 63
    | _ => False

theorem Inv.launch (h : Inv w []) (dur : Int) :
    (∃ w', w.step (.launch dur) = .ok (some w') ∧ Inv w' []) ∨ w.Overflows (.launch dur) := by
  unfold World.Overflows World.step
  dsimp only
  by_cases hdur : dur < 0
  · rw [if_pos hdur]
    exact .inl ⟨_, rfl, h⟩
  · rw [if_neg hdur]
    have howned : (w.made dur).Owned ⟨w.launched, dur⟩ := by
      unfold World.Owned World.made World.setHistory
      dsimp only
      rw [Function.update_self]
      exact ⟨rfl, Int.not_lt.1 hdur⟩
    have h1 : Inv (w.made dur) [(PeriodicCronJob.mk w.launched dur).updatable] := h.made dur
    rcases h1.push howned with
      ⟨hp, e⟩ | ⟨hp, hlt, e⟩ | ⟨container, e, h1⟩
    · left
      replace e : w.container.push (some ⟨w.launched, dur⟩) w.now = _ := e
      rw [e]
      exact ⟨_, rfl, h⟩
    · replace e : w.container.push (some ⟨w.launched, dur⟩) w.now = _ := e
      rw [e]
      exact .inr ⟨rfl, hlt⟩
    · left
      replace e : w.container.push (some ⟨w.launched, dur⟩) w.now = _ := e
      rw [e]
      exact ⟨_, rfl, h1⟩

theorem Inv.pushes (h : Inv w []) (hi : w.workers[i]? = some (.pushing job)) :
    (∃ w', w.step (.push i) = .ok (some w') ∧ Inv w' []) ∨ w.Overflows (.push i) := by
  have howned := h.timely _ (List.mem_of_getElem? hi)
  unfold World.Overflows World.step
  dsimp only
  rw [hi]
  dsimp only
  rcases (h.take hi rfl).push howned with ⟨hp, e⟩ | ⟨hp, hlt, e⟩ | ⟨container, e, h1⟩
  · left
    replace e : w.container.push (some job) w.now = _ := e
    rw [e]
    exact ⟨_, rfl, (h.take hi rfl).finish (fun he => nomatch he) fun _ => hp⟩
  · replace e : w.container.push (some job) w.now = _ := e
    rw [e]
    exact .inr ⟨rfl, job, rfl, hlt⟩
  · left
    replace e : w.container.push (some job) w.now = _ := e
    rw [e]
    exact ⟨_, rfl, h1⟩

theorem Inv.update (h : Inv w []) :
    ∃ w', w.step .update = .ok (some w') ∧ Inv w' [] ∧ ∀ (j : Nat) smp, w'.workers[j]? = some (.waiting smp) →
      ∀ b ∈ w'.container.periodicCronBucketVec, w.now ≤ b.expiry := by
  have hwaits : ∀ {w' : World}, Inv w' [] → ∀ (j : Nat) smp, w'.workers[j]? = some (.waiting smp) →
      w'.container.records ≠ [] := by
    intro w' h' j smp hj hnil
    have hrecord := (h'.turns.mem_iff j smp).2 ⟨_, hj, rfl⟩
    rw [hnil] at hrecord
    exact absurd hrecord List.not_mem_nil
  unfold World.step PeriodicCronContainer.update
  cases hp : w.container.wasPoisoned with
  | true =>
    rw [if_pos rfl]
    refine ⟨_, rfl, h, fun j smp hj => absurd ?_ (hwaits h j smp hj)⟩
    unfold records
    rw [if_pos hp]
  | false =>
    rw [if_neg Bool.false_ne_true]
    obtain ⟨container, rs, e, h1, hp', hle⟩ := h.updateLoop hp (Nat.lt_succ_self _)
    rw [e]
    refine ⟨_, rfl, h1, fun j smp hj => ?_⟩
    have hne := hwaits h1 j smp hj
    rw [afterSection_container] at hne ⊢
    unfold records at hne
    rw [hp', if_neg Bool.false_ne_true] at hne
    exact hle.resolve_left hne

/-- **A step goes through and keeps the invariant, or it cannot be taken, or a sum does not fit.** -/
theorem Inv.step (h : Inv w []) (op : Op) :
    (∃ r, w.step op = .ok r ∧ ∀ w', r = some w' → Inv w' []) ∨ w.Overflows op := by
  have done : (∃ w', w.step op = .ok (some w') ∧ Inv w' []) →
      (∃ r, w.step op = .ok r ∧ ∀ w', r = some w' → Inv w' []) ∨ w.Overflows op := by
    rintro ⟨w', e, h'⟩
    exact .inl ⟨_, e, fun w1 he => Option.some.inj he ▸ h'⟩
  have refused : w.step op = .ok none →
      (∃ r, w.step op = .ok r ∧ ∀ w', r = some w' → Inv w' []) ∨ w.Overflows op :=
    fun e => .inl ⟨none, e, fun _ he => nomatch he⟩
  cases op with
  | launch dur => exact (h.launch dur).elim done .inr
  | destroyHandle job =>
    by_cases hj : job < w.launched
    · exact done ⟨_, if_pos hj, h.destroyHandle job⟩
    · exact refused (if_neg hj)
  -- a call of a worker goes on if the worker is where the step begins
  | pop i =>
    rcases hi : w.workers[i]? with _ | _ | _ | _ | _ | _ | _ | _
    case idle => exact done (h.pop hi)
    all_goals exact refused (by simp [World.step, hi])
  | resume i =>
    rcases hi : w.workers[i]? with _ | _ | _ | _ | _ | _ | _ | _
    case released => exact done (h.resume hi)
    all_goals exact refused (by simp [World.step, hi])
  | test i =>
    rcases hi : w.workers[i]? with _ | _ | _ | _ | _ | _ | _ | _
    case updating => exact done (h.tests hi)
    all_goals exact refused (by simp [World.step, hi])
  | start i =>
    rcases hi : w.workers[i]? with _ | _ | _ | _ | _ | _ | _ | _
    case starting => exact done (h.starts hi)
    all_goals exact refused (by simp [World.step, hi])
  | returned i threw =>
    rcases hi : w.workers[i]? with _ | _ | _ | _ | _ | _ | _ | _
    case running => exact done (h.returns hi threw)
    all_goals exact refused (by simp [World.step, hi])
  | push i =>
    rcases hi : w.workers[i]? with _ | _ | _ | _ | _ | _ | _ | _
    case pushing => exact (h.pushes hi).elim done .inr
    all_goals exact refused (by simp [World.step, hi])
  | update =>
    obtain ⟨w', e, h', -⟩ := h.update
    exact done ⟨w', e, h'⟩
  | poison => exact done ⟨_, rfl, h.poison⟩
  | tick dur =>
    have hle : w.now ≤ w.now + dur := Int.le_add_of_nonneg_right (Int.natCast_nonneg dur)
    exact done ⟨_, rfl, h.turns, h.custody, h.heap, h.queued,
      fun p hp => (h.timely p hp).congr hle (fun _ _ => rfl) fun _ _ => rfl, h.sound, h.cancelled, h.refused⟩

/-! ## Runs -/

/-- **Jobs in turn.** In every state of every run each job that was launched is in one place: in the heap,
the slot or the hands of one worker, or it ended. So no two workers run one job, a run starts only after the
duration since the job was last queued, and after its handle is destroyed one run at most starts. After
`update` a worker waits only if no job was due. A step goes through unless a sum of a time and a duration
does not fit. -/
theorem jobs_in_turn {ops : List Op}
    (h : Run.Reach (fun w => ∃ workerSz now, w = World.start workerSz now)
      (fun w op w' => w.step op = .ok (some w')) w ops) :
    (w.places ++ w.ended.map Prod.fst).Perm (List.range w.launched) ∧
    (∀ j, (j, .cancelled) ∈ w.ended → (w.wrapper j).poisonPill = true) ∧
    (∀ j, (j, .refused) ∈ w.ended → w.container.wasPoisoned = true) ∧
    (∀ (i j : Nat) worker worker' job job', w.workers[i]? = some worker → w.workers[j]? = some worker' →
      worker.inHand = some job → worker'.inHand = some job' → job.updatable = job'.updatable → i = j) ∧
    (∀ (i : Nat) job, w.workers[i]? = some (.starting job) →
      (w.history job.updatable).dur = job.dur ∧ (w.history job.updatable).queuedAt + job.dur < w.now) ∧
    (∀ j, (w.history j).lateRuns ≤ 1) ∧
    (∀ w', w.step .update = .ok (some w') → ∀ (i : Nat) smp, w'.workers[i]? = some (.waiting smp) →
      ∀ b ∈ w'.container.periodicCronBucketVec, w.now ≤ b.expiry) ∧
    (∀ (i : Nat) smp, w.workers[i]? = some (.waiting smp) → smp < w.smps ∧ smp ∉ w.released) ∧
    (∀ smp < w.smps, (∀ i : Nat, w.workers[i]? ≠ some (.waiting smp)) → w.released.count smp = 1) ∧
    ∀ op, (∃ r, w.step op = .ok r) ∨ w.Overflows op := by
  have hinv : Inv w [] := by
    refine h.inv (fun w _ => Inv w []) ?_ ?_
    · rintro w ⟨workerSz, now, rfl⟩
      exact Inv.start workerSz now
    · intro w _ op w' hw e
      rcases hw.step op with ⟨r, e', h'⟩ | hover
      · rw [e] at e'
        cases e'
        exact h' w' rfl
      · rw [hover.1] at e
        cases e
  have hcustody : (w.places ++ w.ended.map Prod.fst).Perm (List.range w.launched) := hinv.custody
  refine ⟨hcustody, hinv.cancelled, hinv.refused, ?_, ?_, ?_, ?_, ?_, ?_, ?_⟩
  · intro i j worker worker' job job' hi hj hjob hjob' he
    have hnodup := hcustody.nodup_iff.2 List.nodup_range
    have hheld := (List.nodup_append.1 (List.nodup_append.1 hnodup).1).2.1
    exact place_of_mem_flatMap hheld hi hj (mem_held hjob) (he ▸ mem_held hjob')
  · intro i job hi
    obtain ⟨howned, hripe, -⟩ := hinv.timely _ (List.mem_of_getElem? hi)
    exact ⟨howned.1, hripe⟩
  · intro j
    rcases (hinv.sound j).late with h0 | ⟨h1, -⟩
    · exact h0 ▸ Nat.zero_le 1
    · exact Nat.le_of_eq h1
  · intro w' e
    obtain ⟨w1, e1, -, hle⟩ := hinv.update
    rw [e1] at e
    cases e
    exact hle
  · intro i smp hi
    exact hinv.turns.not_released hi rfl
  · intro smp hlt hnone
    refine hinv.turns.released_once hlt fun i worker hi hw => ?_
    obtain rfl := CronWorker.of_waits hw
    exact hnone i hi
  · intro op
    rcases hinv.step op with ⟨r, e, -⟩ | hover
    · exact .inl ⟨r, e⟩
    · exact .inr hover

/-- A job runs once and is cancelled at its second test. -/
theorem jobs_in_turn_run : ∃ w : World,
    w.ended = [(0, .cancelled)] ∧ (w.wrapper 0).poisonPill = true ∧ w.places = [] ∧
    w.released.count 0 = 1 ∧ (w.history 0).lateRuns ≤ 1 := by
  obtain ⟨w, hrun, hended, hlaunched, hsmps, hworkers⟩ : ∃ w,
      [Op.launch 5, .pop 0, .tick 6, .update, .resume 0, .test 0, .start 0, .returned 0 false, .push 0,
        .destroyHandle 0, .tick 6, .pop 0, .test 0].foldlM (fun w op => Run.ofStep (w.step op))
        (World.start 1 0) = some w ∧
      w.ended = [(0, .cancelled)] ∧ w.launched = 1 ∧ 0 < w.smps ∧ w.workers = [.idle] :=
    ⟨_, rfl, rfl, rfl, Nat.one_pos, rfl⟩
  obtain ⟨hplaces, hcancelled, -, -, -, hlate, -, -, honce, -⟩ :=
    jobs_in_turn ((Run.Reach.init ⟨1, 0, rfl⟩).runM id hrun)
  refine ⟨w, hended, hcancelled 0 (by rw [hended]; exact List.mem_singleton_self _), ?_,
    honce 0 hsmps fun i hi => ?_, hlate 0⟩
  · have hlen := hplaces.length_eq
    rw [hended, hlaunched] at hlen
    exact List.eq_nil_of_length_eq_zero (by simpa using hlen)
  · have hm := List.mem_of_getElem? hi
    rw [hworkers] at hm
    simp at hm

/-- A job runs after its handle is destroyed: the first run is not tested. And a duration that the
launcher accepts does not fit into the due time. -/
theorem late_run :
    (∃ w : World, Run.Reach (fun w => ∃ workerSz now, w = World.start workerSz now)
        (fun w op w' => w.step op = .ok (some w')) w
        [.launch 5, .destroyHandle 0, .tick 6, .pop 0, .test 0, .start 0] ∧
      w.workers = [.running ⟨0, 5⟩] ∧ (w.history 0).lateRuns = 1) ∧
    (World.start 1 1).step (.launch (2 ^ 63 - 1)) = .error .undefined := by
  obtain ⟨w, hrun, hworkers, hlate⟩ : ∃ w,
      [Op.launch 5, .destroyHandle 0, .tick 6, .pop 0, .test 0, .start 0].foldlM
        (fun w op => Run.ofStep (w.step op)) (World.start 1 0) = some w ∧
      w.workers = [.running ⟨0, 5⟩] ∧ (w.history 0).lateRuns = 1 := ⟨_, rfl, rfl, rfl⟩
  exact ⟨⟨w, (Run.Reach.init ⟨1, 0, rfl⟩).runM id hrun, hworkers, hlate⟩, rfl⟩

end CronSubsystem
