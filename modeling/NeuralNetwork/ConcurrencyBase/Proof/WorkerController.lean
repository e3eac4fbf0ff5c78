import Mathlib.Data.List.Nodup
import Mathlib.Data.List.Count
import NeuralNetwork.ConcurrencyBase.WorkerController
import NeuralNetwork.Lib.LittleEndian

/-!
# The lifecycle of a daemon

Every id is in one free list or belongs to one registered worker (`Inv.owned`), and a runner runs only
a worker that is registered with it or whose `deregister` has not returned (`Inv.running`). A runner that
was told to stop stays told (`Inv.aborted`) if it was not told before its thread reset the poison pill
(`World.Fine`); then it starts no further iteration (`World.StepOk`).
-/

namespace WorkerController

open Cpp

/-! ## The value that names a registration -/

variable {id daemonKind : Nat}

theorem encode_eq (hid : id < 2 ^ 48) :
    encode id daemonKind = id <<< LOW_BIT_SZ ||| daemonKind := by
  have hlt : id <<< LOW_BIT_SZ < 2 ^ 64 := by
    rw [Nat.shiftLeft_eq, show LOW_BIT_SZ = 16 from rfl]
    omega
  unfold encode
  rw [sizeT_of_lt hlt]

theorem decode_encode (hid : id < 2 ^ 48) (hk : daemonKind < 2 ^ LOW_BIT_SZ) :
    decode (encode id daemonKind) = (id, daemonKind) := by
  unfold decode
  rw [encode_eq hid, PackedPair.shiftRight_pack hk, PackedPair.and_pack hk]

/-! ## The free lists -/

namespace DaemonIdMap

variable {m m' : DaemonIdMap} {daemonKind k id : Nat} {hasWorker : Bool}

theorem free_push : free (push m daemonKind id) k =
    if k = daemonKind then free m k ++ [id] else free m k := by
  unfold push free
  by_cases hk : k = daemonKind
  · rw [if_pos hk, hk, Function.update_self]
    rfl
  · rw [if_neg hk, Function.update_of_ne hk]

theorem take_ok (e : take m daemonKind hasWorker = .ok (m', id)) :
    free m daemonKind = free m' daemonKind ++ [id] ∧ ∀ k, k ≠ daemonKind → free m' k = free m k := by
  unfold take at e
  split at e
  · cases e
  · cases hm : m daemonKind with
    | none =>
      rw [hm] at e
      cases e
    | some ids =>
      rw [hm] at e
      dsimp only at e
      cases hl : ids.getLast? with
      | none =>
        rw [hl] at e
        cases e
      | some last =>
        rw [hl] at e
        cases e
        refine ⟨?_, fun k hk => ?_⟩
        · have hself : free (Function.update m daemonKind (some ids.dropLast)) daemonKind = ids.dropLast := by
            unfold free
            rw [Function.update_self]
            rfl
          rw [hself, List.dropLast_append_getLast? _ hl]
          unfold free
          rw [hm]
          rfl
        · unfold free
          rw [Function.update_of_ne hk]

theorem free_foldl_push (pairs : List (Nat × Nat)) (m : DaemonIdMap) :
    free (pairs.foldl (fun m e => push m e.1 e.2) m) k =
      free m k ++ (pairs.filter fun e => e.1 = k).map Prod.snd := by
  induction pairs generalizing m with
  | nil => exact (List.append_nil _).symm
  | cons e pairs ih =>
    rw [List.foldl_cons, ih, free_push]
    by_cases hk : k = e.1
    · rw [if_pos hk, List.filter_cons, if_pos (decide_eq_true hk.symm), List.map_cons, List.append_assoc]
      rfl
    · rw [if_neg hk, List.filter_cons, if_neg (fun h => hk (of_decide_eq_true h).symm)]

end DaemonIdMap

/-! ## Runners -/

namespace StdDaemonRunner

variable {runner runner' : StdDaemonRunner}

/-- The loop changes no worker, and only its start changes the poison pill. -/
theorem infloop_some (e : runner.infloop = some runner') :
    runner'.worker = runner.worker ∧ (runner.pc ≠ .start → runner'.poisonPill = runner.poisonPill) ∧
      runner'.pc ≠ .start := by
  unfold infloop at e
  cases hpc : runner.pc with
  | start =>
    rw [hpc] at e
    cases e
    exact ⟨rfl, fun h => absurd rfl h, nofun⟩
  | load =>
    rw [hpc] at e
    dsimp only at e
    split at e
    · cases e
      exact ⟨rfl, fun _ => rfl, nofun⟩
    · cases e
      exact ⟨rfl, fun _ => rfl, nofun⟩
  | locked =>
    rw [hpc] at e
    cases e
    exact ⟨rfl, fun _ => rfl, nofun⟩
  | done =>
    rw [hpc] at e
    cases e

theorem infloop_aborted (e : runner.infloop = some runner') (hp : runner.poisonPill = true)
    (hs : runner.pc ≠ .start) : runner'.pc ≠ .locked := by
  unfold infloop at e
  cases hpc : runner.pc with
  | start => exact absurd hpc hs
  | load =>
    rw [hpc] at e
    rw [if_pos hp] at e
    cases e
    nofun
  | locked =>
    rw [hpc] at e
    cases e
    nofun
  | done =>
    rw [hpc] at e
    cases e

end StdDaemonRunner

/-! ## The invariant -/

def Busy.registrations : Option Busy → List Registration
  | some (.registering r) => [r]
  | _ => []

namespace World

open DaemonIdMap

variable {kinds : List Nat} {w w' : World} {a : Action} {hist : List Action}

def registered (w : World) : List Registration := w.returned ++ Busy.registrations w.busy

/-- The thread of a runner that is told to stop has reset the poison pill. -/
def Fine (w : World) : Action → Bool
  | .signalAbort id => (w.runner id).pc ≠ .start
  | _ => true

structure Inv (kinds : List Nat) (w : World) : Prop where
  sz : w.runnerSz = kinds.length
  owned : ∀ id k, kinds[id]? = some k →
    (free w.daemonIdMap k).count id + (w.registered.map Registration.id).count id = 1
  kept : ∀ k, ∀ id ∈ free w.daemonIdMap k, kinds[id]? = some k
  regs : ∀ r ∈ w.registered, kinds[r.id]? = some r.daemonKind
  workers : (w.registered.map Registration.worker).Nodup
  named : ∀ r ∈ w.registered, r.worker < w.workers
  running : ∀ id worker, (w.runner id).worker = some worker →
    (∃ r ∈ w.returned, r.id = id ∧ r.worker = worker) ∨ w.busy = some (.deregistering id worker)
  deregistering : ∀ id worker, w.busy = some (.deregistering id worker) →
    id < w.runnerSz ∧ worker < w.workers ∧ ∀ r ∈ w.returned, r.worker ≠ worker
  aborted : ∀ id, w.aborted id = true → (w.runner id).poisonPill = true ∧ (w.runner id).pc ≠ .start

structure Ok (kinds : List Nat) (w : World) : Prop where
  /-- An id is in the free list of its kind or belongs to a registered worker, once. -/
  owned : ∀ id k, kinds[id]? = some k →
    (free w.daemonIdMap k).count id + (w.registered.map Registration.id).count id = 1
  /-- It is in no other list. -/
  kept : ∀ k, ∀ id ∈ free w.daemonIdMap k, kinds[id]? = some k
  encoded : ∀ r ∈ w.registered, ∀ r' ∈ w.registered, r.encoded = r'.encoded → r = r'
  decoded : ∀ r ∈ w.registered, decode r.encoded = (r.id, r.daemonKind)
  /-- A runner holds only a worker that is registered with it or is being deregistered. -/
  running : ∀ id worker, (w.runner id).worker = some worker →
    (∃ r ∈ w.registered, r.id = id ∧ r.worker = worker) ∨ w.busy = some (.deregistering id worker)
  /-- No other runner holds it. -/
  alone : ∀ id id' worker, (w.runner id).worker = some worker → (w.runner id').worker = some worker →
    id = id'

/-- What a step leaves alone: a worker that was deregistered is not registered again, and a runner that
was told to stop starts no iteration. -/
structure StepOk (w w' : World) : Prop where
  gone : ∀ worker < w.workers, worker ∉ w.registered.map Registration.worker →
    worker ∉ w'.registered.map Registration.worker
  stopped : ∀ id, w.aborted id = true → (w.runner id).pc ≠ .locked → (w'.runner id).pc ≠ .locked

/-! ### Steps of the controller -/

theorem registered_idle (hb : w.busy = none) : w.registered = w.returned := by
  unfold registered
  rw [hb]
  exact List.append_nil _

theorem Inv.register (h : Inv kinds w) (hb : w.busy = none) {daemonKind id : Nat} {hasWorker : Bool}
    {m : DaemonIdMap} (e : take w.daemonIdMap daemonKind hasWorker = .ok (m, id)) :
    Inv kinds { w with
      daemonIdMap := m
      busy := some (.registering ⟨id, daemonKind, w.workers⟩)
      workers := w.workers + 1 } ∧
    StepOk w { w with
      daemonIdMap := m
      busy := some (.registering ⟨id, daemonKind, w.workers⟩)
      workers := w.workers + 1 } := by
  obtain ⟨hfree, hother⟩ := take_ok e
  have hreg := registered_idle hb
  have hkind : kinds[id]? = some daemonKind :=
    h.kept daemonKind id (by rw [hfree]; exact List.mem_append_right _ (List.mem_singleton_self id))
  refine ⟨⟨h.sz, fun i k hk => ?_, fun k i hi => ?_, fun r hr => ?_, ?_, fun r hr => ?_,
    fun i wk hi => ?_, nofun, h.aborted⟩, ⟨fun wk hlt hwk => ?_, fun _ _ hpc => hpc⟩⟩
  · have hold := h.owned i k hk
    rw [hreg] at hold
    unfold registered Busy.registrations
    rw [List.map_append, List.count_append]
    by_cases hkk : k = daemonKind
    · subst hkk
      rw [hfree, List.count_append] at hold
      rw [List.map_singleton]
      dsimp only
      omega
    · have hne : id ≠ i := by
        rintro rfl
        exact hkk (Option.some.inj (hk.symm.trans hkind))
      rw [hother k hkk, List.map_singleton, List.count_singleton, if_neg (by simpa using hne)]
      exact hold
  · by_cases hkk : k = daemonKind
    · subst hkk
      exact h.kept k i (by rw [hfree]; exact List.mem_append_left _ hi)
    · exact h.kept k i (hother k hkk ▸ hi)
  · rcases List.mem_append.1 hr with hr | hr
    · exact h.regs r (hreg.symm ▸ hr)
    · rw [List.mem_singleton.1 hr]
      exact hkind
  · have hold := h.workers
    rw [hreg] at hold
    unfold registered Busy.registrations
    rw [List.map_append]
    refine hold.append (List.nodup_singleton _) (List.disjoint_singleton.2 fun hm => ?_)
    obtain ⟨r, hr, hrw⟩ := List.mem_map.1 hm
    exact Nat.lt_irrefl _ (hrw ▸ h.named r (hreg.symm ▸ hr))
  · rcases List.mem_append.1 hr with hr | hr
    · exact (h.named r (hreg.symm ▸ hr)).trans (Nat.lt_succ_self _)
    · rw [List.mem_singleton.1 hr]
      exact Nat.lt_succ_self _
  · rcases h.running i wk hi with hr | hd
    · exact .inl hr
    · cases hb.symm.trans hd
  · unfold registered Busy.registrations
    rw [List.map_append, List.mem_append, not_or]
    rw [hreg] at hwk
    exact ⟨hwk, fun hm => Nat.lt_irrefl _ (List.mem_singleton.1 hm ▸ hlt)⟩

variable {runner : StdDaemonRunner} {aborted : Nat → Bool} {id : Nat} {r : Registration}

theorem Inv.deregister (h : Inv kinds w) (hb : w.busy = none) (hr : r ∈ w.returned) :
    Inv kinds { w with
      daemonIdMap := push w.daemonIdMap r.daemonKind r.id
      busy := some (.deregistering r.id r.worker)
      returned := w.returned.erase r } ∧
    StepOk w { w with
      daemonIdMap := push w.daemonIdMap r.daemonKind r.id
      busy := some (.deregistering r.id r.worker)
      returned := w.returned.erase r } := by
  have hreg := registered_idle hb
  have hp : w.registered.Perm (r :: w.returned.erase r) := by
    rw [hreg]
    exact List.perm_cons_erase hr
  have hnew : registered { w with
      daemonIdMap := push w.daemonIdMap r.daemonKind r.id
      busy := some (.deregistering r.id r.worker)
      returned := w.returned.erase r } = w.returned.erase r := List.append_nil _
  have hsub : ∀ r' ∈ w.returned.erase r, r' ∈ w.registered := fun r' hr' =>
    hp.mem_iff.2 (List.mem_cons_of_mem r hr')
  have hnodup := (hp.map Registration.worker).nodup_iff.1 h.workers
  rw [List.map_cons, List.nodup_cons] at hnodup
  have hkind := h.regs r (hreg.symm ▸ hr)
  refine ⟨⟨h.sz, fun i k hk => ?_, fun k i hi => ?_, fun r' hr' => ?_, ?_, fun r' hr' => ?_,
    fun i wk hi => ?_, fun i wk hi => ?_, h.aborted⟩, ⟨fun wk hlt hwk => ?_, fun _ _ hpc => hpc⟩⟩
  · have hold := h.owned i k hk
    rw [(hp.map Registration.id).count_eq, List.map_cons, List.count_cons] at hold
    rw [hnew]
    rw [free_push]
    by_cases hi : r.id = i
    · subst hi
      obtain rfl := Option.some.inj (hk.symm.trans hkind)
      rw [if_pos rfl, List.count_append, List.count_singleton_self]
      rw [if_pos (beq_self_eq_true _)] at hold
      omega
    · rw [if_neg (by simpa using hi)] at hold
      by_cases hkk : k = r.daemonKind
      · rw [if_pos hkk, List.count_append, List.count_singleton, if_neg (by simpa using hi)]
        exact hold
      · rw [if_neg hkk]
        exact hold
  · rw [free_push] at hi
    split at hi
    · next hkk =>
      rcases List.mem_append.1 hi with hi | hi
      · exact h.kept k i hi
      · rw [List.mem_singleton.1 hi, hkk]
        exact hkind
    · exact h.kept k i hi
  · exact h.regs r' (hsub r' (hnew ▸ hr'))
  · rw [hnew]
    exact hnodup.2
  · exact h.named r' (hsub r' (hnew ▸ hr'))
  · rcases h.running i wk hi with ⟨r', hr', rfl, rfl⟩ | hd
    · by_cases he : r' = r
      · exact .inr (he ▸ rfl)
      · exact .inl ⟨r', (List.mem_erase_of_ne he).2 hr', rfl, rfl⟩
    · cases hb.symm.trans hd
  · cases hi
    refine ⟨?_, h.named r (hreg.symm ▸ hr), fun r' hr' he => ?_⟩
    · rw [h.sz]
      exact (List.getElem?_eq_some_iff.1 hkind).1
    · exact hnodup.1 (he ▸ List.mem_map_of_mem hr')
  · rw [hnew]
    intro hm
    obtain ⟨r', hr', rfl⟩ := List.mem_map.1 hm
    exact hwk (List.mem_map_of_mem (hsub r' hr'))

theorem Inv.setRunner (h : Inv kinds w)
    (hworker : runner.worker = none ∨ runner.worker = (w.runner id).worker)
    (hself : aborted id = true → runner.poisonPill = true ∧ runner.pc ≠ .start)
    (hother : ∀ i, i ≠ id → aborted i = w.aborted i) :
    Inv kinds { w.setRunner id runner with aborted } := by
  refine { h with running := fun i wk hi => ?_, aborted := fun i hi => ?_ }
  · by_cases he : i = id
    · subst he
      change (Function.update w.runner i runner i).worker = some wk at hi
      rw [Function.update_self] at hi
      rcases hworker with hw | hw
      · cases hw.symm.trans hi
      · exact h.running i wk (hw.symm.trans hi)
    · change (Function.update w.runner id runner i).worker = some wk at hi
      rw [Function.update_of_ne he] at hi
      exact h.running i wk hi
  · change (Function.update w.runner id runner i).poisonPill = true ∧
      (Function.update w.runner id runner i).pc ≠ .start
    by_cases he : i = id
    · subst he
      rw [Function.update_self]
      exact hself hi
    · rw [Function.update_of_ne he]
      exact h.aborted i ((hother i he).symm.trans hi)

theorem setWorker_ok {worker : Option Nat} (hid : id < w.runnerSz) :
    w.setWorker id worker = .ok (w.setRunner id ((w.runner id).setWorker worker)) := if_pos hid

/-- A worker given to a runner changes neither its poison pill nor where its loop is. -/
theorem setWorker_runner (id i : Nat) (worker : Option Nat) :
    ((w.setRunner id ((w.runner id).setWorker worker)).runner i).poisonPill = (w.runner i).poisonPill ∧
      ((w.setRunner id ((w.runner id).setWorker worker)).runner i).pc = (w.runner i).pc := by
  unfold World.setRunner
  dsimp only
  by_cases he : i = id
  · subst he
    rw [Function.update_self]
    exact ⟨rfl, rfl⟩
  · rw [Function.update_of_ne he]
    exact ⟨rfl, rfl⟩

/-- The controller returns to its caller, and a runner has the worker that it was given. -/
theorem Inv.land (h : Inv kinds w) {worker : Option Nat} {returned : List Registration}
    (hret : w.registered = returned)
    (hset : ∀ wk, worker = some wk → ∃ r ∈ returned, r.id = id ∧ r.worker = wk)
    (hkeep : ∀ i ≠ id, ∀ wk, (w.runner i).worker = some wk → ∃ r ∈ returned, r.id = i ∧ r.worker = wk) :
    Inv kinds { w.setRunner id ((w.runner id).setWorker worker) with busy := none, returned } ∧
    StepOk w { w.setRunner id ((w.runner id).setWorker worker) with busy := none, returned } := by
  have hreg : registered { w.setRunner id ((w.runner id).setWorker worker) with
      busy := none, returned } = w.registered := (List.append_nil _).trans hret.symm
  refine ⟨⟨h.sz, ?_, h.kept, ?_, ?_, ?_, fun i wk hi => ?_, nofun, fun i hi => ?_⟩, ⟨?_, ?_⟩⟩
  · rw [hreg]
    exact h.owned
  · rw [hreg]
    exact h.regs
  · rw [hreg]
    exact h.workers
  · rw [hreg]
    exact h.named
  · by_cases he : i = id
    · subst he
      change (Function.update w.runner i _ i).worker = some wk at hi
      rw [Function.update_self] at hi
      exact .inl (hset wk hi)
    · change (Function.update w.runner id _ i).worker = some wk at hi
      rw [Function.update_of_ne he] at hi
      exact .inl (hkeep i he wk hi)
  · obtain ⟨hpill, hpc⟩ := setWorker_runner (w := w) id i worker
    obtain ⟨h1, h2⟩ := h.aborted i hi
    exact ⟨hpill.trans h1, fun hs => h2 (hpc.symm.trans hs)⟩
  · rw [hreg]
    exact fun _ _ hwk => hwk
  · intro i _ hpc hpc'
    exact hpc ((setWorker_runner (w := w) id i worker).2.symm.trans hpc')

theorem Inv.endRegister (h : Inv kinds w) (hb : w.busy = some (.registering r)) :
    Inv kinds { w.setRunner r.id ((w.runner r.id).setWorker (some r.worker)) with
      busy := none
      returned := w.returned ++ [r] } ∧
    StepOk w { w.setRunner r.id ((w.runner r.id).setWorker (some r.worker)) with
      busy := none
      returned := w.returned ++ [r] } := by
  refine h.land (by rw [registered, hb]; rfl) (fun wk hwk => ?_) fun i _ wk hi => ?_
  · exact ⟨r, List.mem_append_right _ (List.mem_singleton_self r), rfl, Option.some.inj hwk⟩
  · rcases h.running i wk hi with ⟨r', hr', hid⟩ | hd
    · exact ⟨r', List.mem_append_left _ hr', hid⟩
    · cases hb.symm.trans hd

theorem Inv.endDeregister (h : Inv kinds w) {id worker : Nat}
    (hb : w.busy = some (.deregistering id worker)) :
    Inv kinds { w.setRunner id ((w.runner id).setWorker none) with busy := none } ∧
    StepOk w { w.setRunner id ((w.runner id).setWorker none) with busy := none } := by
  refine h.land (by rw [registered, hb]; exact List.append_nil _) nofun fun i he wk hi => ?_
  rcases h.running i wk hi with hr | hd
  · exact hr
  · cases hb.symm.trans hd
    exact absurd rfl he

theorem StepOk.setRunner (hpc : w.aborted id = true → (w.runner id).pc ≠ .locked → runner.pc ≠ .locked) :
    StepOk w { w.setRunner id runner with aborted } := by
  refine ⟨fun _ _ hwk => hwk, fun i hi hne => ?_⟩
  change (Function.update w.runner id runner i).pc ≠ .locked
  by_cases he : i = id
  · subst he
    rw [Function.update_self]
    exact hpc hi hne
  · rw [Function.update_of_ne he]
    exact hne

/-- **A step** is defined, and keeps the invariant unless it tells a runner to stop whose thread has not
reset the poison pill. -/
theorem Inv.next (h : Inv kinds w) (hk : ∀ k ∈ kinds, k < 2 ^ LOW_BIT_SZ) (hsz : kinds.length ≤ 2 ^ 48)
    (a : Action) : ∃ o, w.next a = .ok o ∧
      ∀ w', o = some w' → (w.Fine a = true → Inv kinds w') ∧ StepOk w w' := by
  have hrefl : StepOk w w := ⟨fun _ _ hwk => hwk, fun _ _ hpc => hpc⟩
  unfold World.next
  cases a with
  | register daemonKind hasWorker =>
    dsimp only
    cases hb : w.busy with
    | some b => exact ⟨none, rfl, nofun⟩
    | none =>
      cases ht : take w.daemonIdMap daemonKind hasWorker with
      | error err =>
        refine ⟨some w, rfl, fun w' e => ?_⟩
        cases e
        exact ⟨fun _ => h, hrefl⟩
      | ok taken =>
        obtain ⟨m, id⟩ := taken
        refine ⟨_, rfl, fun w' e => ?_⟩
        cases e
        exact (h.register hb ht).imp_left fun hi _ => hi
  | endRegister =>
    cases hb : w.busy with
    | none => exact ⟨none, rfl, nofun⟩
    | some b =>
      cases b with
      | deregistering id worker => exact ⟨none, rfl, nofun⟩
      | registering r =>
        have hmem : r ∈ w.registered := by
          unfold registered
          rw [hb]
          exact List.mem_append_right _ (List.mem_singleton_self r)
        have hid : r.id < w.runnerSz := by
          rw [h.sz]
          exact (List.getElem?_eq_some_iff.1 (h.regs r hmem)).1
        dsimp only
        rw [setWorker_ok hid]
        refine ⟨_, rfl, fun w' e => ?_⟩
        cases e
        exact (h.endRegister hb).imp_left fun hi _ => hi
  | deregister encoded =>
    dsimp only
    cases hb : w.busy with
    | some b => exact ⟨none, rfl, nofun⟩
    | none =>
      cases hf : w.returned.find? (fun r => r.encoded = encoded) with
      | none => exact ⟨none, rfl, nofun⟩
      | some r =>
        have hr := List.mem_of_find?_eq_some hf
        have he : r.encoded = encoded := by
          simpa using List.find?_some hf
        have hkind := h.regs r ((registered_idle hb).symm ▸ hr)
        obtain ⟨hlt, hget⟩ := List.getElem?_eq_some_iff.1 hkind
        have hd : decode encoded = (r.id, r.daemonKind) := by
          rw [← he]
          exact decode_encode (hlt.trans_le hsz) (hk _ (hget ▸ List.getElem_mem hlt))
        rw [hd]
        refine ⟨_, rfl, fun w' e => ?_⟩
        cases e
        exact (h.deregister hb hr).imp_left fun hi _ => hi
  | endDeregister =>
    cases hb : w.busy with
    | none => exact ⟨none, rfl, nofun⟩
    | some b =>
      cases b with
      | registering r => exact ⟨none, rfl, nofun⟩
      | deregistering id worker =>
        dsimp only
        rw [setWorker_ok (h.deregistering id worker hb).1]
        refine ⟨_, rfl, fun w' e => ?_⟩
        cases e
        exact (h.endDeregister hb).imp_left fun hi _ => hi
  | infloop id =>
    refine ⟨_, rfl, fun w' e => ?_⟩
    obtain ⟨runner, hrunner, rfl⟩ := Option.map_eq_some_iff.1 e
    obtain ⟨hworker, hpill, hpc⟩ := StdDaemonRunner.infloop_some hrunner
    refine ⟨fun _ => h.setRunner (.inr hworker) (fun ha => ?_) fun _ _ => rfl, .setRunner fun ha _ => ?_⟩
    · obtain ⟨h1, h2⟩ := h.aborted id ha
      exact ⟨(hpill h2).trans h1, hpc⟩
    · obtain ⟨h1, h2⟩ := h.aborted id ha
      exact StdDaemonRunner.infloop_aborted hrunner h1 h2
  | signalAbort id =>
    refine ⟨_, rfl, fun w' e => ?_⟩
    cases e
    refine ⟨fun hf => h.setRunner (.inr rfl) (fun _ => ⟨rfl, of_decide_eq_true hf⟩) fun i hi => ?_,
      .setRunner fun _ hpc => hpc⟩
    exact Function.update_of_ne hi ..
  | join id =>
    dsimp only
    split
    · next hj =>
      refine ⟨_, rfl, fun w' e => ?_⟩
      cases e
      exact ⟨fun _ => h.setRunner (.inl rfl) (fun ha => h.aborted id ha) fun _ _ => rfl,
        .setRunner fun _ hpc => hpc⟩
    · exact ⟨none, rfl, nofun⟩

theorem spawnDaemonController_inv (kinds : List Nat) : Inv kinds (spawnDaemonController kinds) := by
  have hfree : ∀ k, free (spawnDaemonController kinds).daemonIdMap k =
      (kinds.zipIdx.filter fun e => e.1 = k).map Prod.snd := fun k => free_foldl_push kinds.zipIdx _
  have hmem : ∀ k id, id ∈ free (spawnDaemonController kinds).daemonIdMap k ↔ kinds[id]? = some k := by
    intro k id
    rw [hfree, List.mem_map]
    constructor
    · rintro ⟨e, he, rfl⟩
      obtain ⟨hin, hkind⟩ := List.mem_filter.1 he
      rw [← of_decide_eq_true hkind]
      exact List.mem_zipIdx_iff_getElem?.1 hin
    · intro hid
      exact ⟨(k, id), List.mem_filter.2 ⟨List.mem_zipIdx_iff_getElem?.2 hid, decide_eq_true rfl⟩, rfl⟩
  have hnodup : ∀ k, (free (spawnDaemonController kinds).daemonIdMap k).Nodup := by
    intro k
    rw [hfree]
    refine List.Nodup.sublist (List.filter_sublist.map _) ?_
    rw [List.zipIdx_map_snd]
    exact List.nodup_range'
  refine ⟨rfl, fun id k hid => ?_, fun k id hid => (hmem k id).1 hid, nofun, List.nodup_nil, nofun, nofun,
    nofun, nofun⟩
  rw [List.count_eq_one_of_mem (hnodup k) ((hmem k id).2 hid)]
  rfl

theorem Inv.ids_nodup (h : Inv kinds w) : (w.registered.map Registration.id).Nodup := by
  refine List.nodup_iff_count_le_one.2 fun id => ?_
  by_cases hmem : id ∈ w.registered.map Registration.id
  · obtain ⟨r, hr, rfl⟩ := List.mem_map.1 hmem
    have := h.owned r.id r.daemonKind (h.regs r hr)
    omega
  · rw [List.count_eq_zero.2 hmem]
    exact Nat.zero_le 1

theorem Inv.ok (h : Inv kinds w) (hk : ∀ k ∈ kinds, k < 2 ^ LOW_BIT_SZ) (hsz : kinds.length ≤ 2 ^ 48) :
    Ok kinds w := by
  have hdec : ∀ r ∈ w.registered, decode r.encoded = (r.id, r.daemonKind) := by
    intro r hr
    obtain ⟨hlt, hget⟩ := List.getElem?_eq_some_iff.1 (h.regs r hr)
    exact decode_encode (hlt.trans_le hsz) (hk _ (hget ▸ List.getElem_mem hlt))
  have hret : ∀ r ∈ w.returned, r ∈ w.registered := fun r hr => List.mem_append_left _ hr
  refine ⟨h.owned, h.kept, fun r hr r' hr' he => ?_, hdec, fun id wk hi => ?_, fun id id' wk hi hi' => ?_⟩
  · have hid : r.id = r'.id := by
      have := (hdec r hr).symm.trans ((congrArg decode he).trans (hdec r' hr'))
      exact congrArg Prod.fst this
    exact List.inj_on_of_nodup_map h.ids_nodup hr hr' hid
  · rcases h.running id wk hi with ⟨r, hr, hid⟩ | hd
    · exact .inl ⟨r, hret r hr, hid⟩
    · exact .inr hd
  · rcases h.running id wk hi with ⟨r, hr, rfl, rfl⟩ | hd
    · rcases h.running id' _ hi' with ⟨r', hr', rfl, he⟩ | hd'
      · rw [List.inj_on_of_nodup_map h.workers (hret r hr) (hret r' hr') he.symm]
      · exact absurd rfl ((h.deregistering id' _ hd').2.2 r hr)
    · rcases h.running id' wk hi' with ⟨r', hr', rfl, he⟩ | hd'
      · exact absurd he ((h.deregistering id wk hd).2.2 r' hr')
      · cases hd.symm.trans hd'
        rfl

/-! ## Runs -/

/-- **The lifecycle of a daemon.** In a run that tells a runner to stop only after its thread has reset the
poison pill, every id is free or registered once, the value of a registration gives back its id and kind,
a runner runs only its own worker, and starts no iteration once it was told to stop. -/
theorem daemon_lifecycle (hk : ∀ k ∈ kinds, k < 2 ^ LOW_BIT_SZ) (hsz : kinds.length ≤ 2 ^ 48)
    (h : Run.Reach (fun w => w = spawnDaemonController kinds)
      (fun w a w' => Fine w a = true ∧ Step w a w') w hist) :
    Ok kinds w ∧ ∀ a, ∃ o, w.next a = .ok o ∧ ∀ w', o = some w' → StepOk w w' := by
  have hinv : Inv kinds w := by
    refine h.inv (fun w _ => Inv kinds w) ?_ ?_
    · rintro _ rfl
      exact spawnDaemonController_inv kinds
    · intro w hist a w' hi hs
      obtain ⟨o, ho, hstep⟩ := hi.next hk hsz a
      have he : o = some w' := Except.ok.inj (ho.symm.trans hs.2)
      exact (hstep w' he).1 hs.1
  refine ⟨hinv.ok hk hsz, fun a => ?_⟩
  obtain ⟨o, ho, hstep⟩ := hinv.next hk hsz a
  exact ⟨o, ho, fun w' e => (hstep w' e).2⟩

/-- A worker is registered, run, deregistered, and its runner is stopped. -/
theorem daemon_lifecycle_one : ∃ w, (w.runner 0).pc = .done ∧ free w.daemonIdMap 3 = [0] ∧ Ok [3] w ∧
    ∀ a, ∃ o, w.next a = .ok o ∧ ∀ w', o = some w' → StepOk w w' := by
  let next := fun (w : World) a => if w.Fine a then Run.ofStep (w.next a) else none
  let acts : List Action := [.infloop 0, .register 3 true, .endRegister, .infloop 0, .infloop 0,
    .deregister 3, .infloop 0, .signalAbort 0, .endDeregister, .infloop 0, .infloop 0]
  have hrun : (acts.foldlM next (spawnDaemonController [3])).map
      (fun w => ((w.runner 0).pc, free w.daemonIdMap 3)) = some (.done, [0]) := by decide +kernel
  obtain ⟨w, hw, he⟩ := Option.map_eq_some_iff.1 hrun
  have hinit : Run.Reach (fun w => w = spawnDaemonController [3])
      (fun w a w' => Fine w a = true ∧ Step w a w') (spawnDaemonController [3]) [] := .init rfl
  have hnext : ∀ {w : World} {a w'}, next w a = some w' → Fine w a = true ∧ Step w a w' := by
    intro w a w' e
    dsimp only [next] at e
    split at e
    · next hf => exact ⟨hf, Run.ofStep_eq_some e⟩
    · cases e
  refine ⟨w, congrArg Prod.fst he, congrArg Prod.snd he, ?_⟩
  exact daemon_lifecycle (by decide) (by decide) (hinit.foldlM hnext hw)

/-- A runner that is told to stop before its thread has reset the poison pill starts an iteration. -/
theorem signalAbort_lost : ∃ w w' hist, Run.Reach (fun w => w = spawnDaemonController [0]) Step w hist ∧
    w.aborted 0 = true ∧ (w.runner 0).pc = .load ∧ Step w (.infloop 0) w' ∧
    (w'.runner 0).pc = .locked := by
  have hrun : ([.signalAbort 0, .infloop 0].foldlM (fun w a => Run.ofStep (World.next w a))
      (spawnDaemonController [0])).map (fun w => (w.aborted 0, (w.runner 0).pc,
        (Run.ofStep (w.next (.infloop 0))).map fun w' => (w'.runner 0).pc)) =
        some (true, .load, some .locked) := by decide +kernel
  obtain ⟨w, hw, he⟩ := Option.map_eq_some_iff.1 hrun
  simp only [Prod.mk.injEq] at he
  obtain ⟨w', hw', hpc⟩ := Option.map_eq_some_iff.1 he.2.2
  have hinit : Run.Reach (fun w => w = spawnDaemonController [0]) Step (spawnDaemonController [0]) [] :=
    .init rfl
  exact ⟨w, w', _, hinit.runM (fun e => e) hw, he.1, he.2.1, Run.ofStep_eq_some hw', hpc⟩

end World

end WorkerController
