import Mathlib.Data.List.Nodup
import NeuralNetwork.ConcurrentQueue.BoundedQueue

/-!
# When BoundedQueue loses nothing

`Inv` says what is where: the calls of `pop` got the first accepted items, in the order of their critical
sections, and the others wait or, once the queue is poisoned, got nothing; the other accepted items are in
the container, then with the calls of `push` that wait. It holds in the `Orderly` runs: `pop` serves the
calls that wait before the container, and poison keeps the records of the calls that it releases.
-/

namespace ConcurrentQueue

open Run

variable {T : Type} {w : World T} {ops : List (Op T)}

/-! ## What was asked for -/

def pushed : List (Op T) → List T
  | [] => []
  | .push arg :: ops => arg :: pushed ops
  | _ :: ops => pushed ops

def accepted : List (Op T) → List T
  | [] => []
  | .push arg :: ops => arg :: accepted ops
  | .pop :: ops => accepted ops
  | .poison :: _ => []

def refused : List (Op T) → List T
  | [] => []
  | .poison :: ops => pushed ops
  | _ :: ops => refused ops

def poisoned : List (Op T) → Bool
  | [] => false
  | .poison :: _ => true
  | _ :: ops => poisoned ops

theorem pushed_snoc (ops : List (Op T)) (op : Op T) : pushed (ops ++ [op]) = pushed ops ++ pushed [op] := by
  induction ops with
  | nil => rfl
  | cons o ops ih => cases o <;> simp [pushed, ih]

theorem accepted_snoc (ops : List (Op T)) (op : Op T) :
    accepted (ops ++ [op]) = accepted ops ++ if poisoned ops then [] else accepted [op] := by
  induction ops with
  | nil => rfl
  | cons o ops ih =>
    cases o with
    | push arg => exact congrArg (List.cons arg) ih
    | pop => exact ih
    | poison => rfl

theorem refused_snoc (ops : List (Op T)) (op : Op T) :
    refused (ops ++ [op]) = refused ops ++ if poisoned ops then pushed [op] else [] := by
  induction ops with
  | nil => cases op <;> rfl
  | cons o ops ih =>
    cases o with
    | push arg => exact ih
    | pop => exact ih
    | poison => exact pushed_snoc ops op

theorem poisoned_snoc (ops : List (Op T)) (op : Op T) :
    poisoned (ops ++ [op]) = (poisoned ops || poisoned [op]) := by
  induction ops with
  | nil => rfl
  | cons o ops ih => cases o <;> simp [poisoned, ih]

/-- No call of `pop` overtakes, no poison finds a call of `push` that waits, and no further poison finds a
record. -/
def Orderly (w : World T) : Op T → Prop
  | .push _ => True
  | .pop => w.queue.isPoisoned = true ∨ w.queue.pushingArgVec = [] ∨ w.queue.workorderContainer = []
  | .poison => w.queue.pushingArgVec = [] ∧ (w.queue.isPoisoned = true → w.queue.waitingArgVec = [])

instance [DecidableEq T] : DecidablePred (Orderly w)
  | .push _ => instDecidableTrue
  | .pop => instDecidableOr
  | .poison => instDecidableAnd

/-! ## Steps -/

section
variable {arg : T}

theorem step_push_poisoned (hp : w.queue.isPoisoned = true) :
    w.step (.push arg) = { w with pushes := w.pushes ++ [(arg, .threw)] } := by
  unfold World.step push
  dsimp only
  rw [hp, if_pos rfl]
  rfl

theorem step_push_handed (hp : w.queue.isPoisoned = false) {p : Nat} {rest : List Nat}
    (hw : w.queue.waitingArgVec = p :: rest) :
    w.step (.push arg) = { w with
      queue := { w.queue with waitingArgVec := rest }
      pushes := w.pushes ++ [(arg, .returned)]
      pops := w.pops.set p (.returned (some arg))
      released := w.released ++ [.pop p] } := by
  unfold World.step push
  dsimp only
  rw [hp, hw, if_neg Bool.false_ne_true]
  rfl

theorem step_push_waits (hp : w.queue.isPoisoned = false) (hw : w.queue.waitingArgVec = [])
    (hfull : w.queue.workorderContainer.length = w.queue.workorderContainerCap) :
    w.step (.push arg) = { w with
      queue := { w.queue with pushingArgVec := w.queue.pushingArgVec ++ [(arg, w.pushes.length)] }
      pushes := w.pushes ++ [(arg, .waiting)]
      registered := w.registered ++ [.push w.pushes.length] } := by
  unfold World.step push
  dsimp only
  rw [hp, hw, if_neg Bool.false_ne_true]
  rw [if_pos hfull]
  rfl

theorem step_push_queued (hp : w.queue.isPoisoned = false) (hw : w.queue.waitingArgVec = [])
    (hroom : w.queue.workorderContainer.length ≠ w.queue.workorderContainerCap) :
    w.step (.push arg) = { w with
      queue := { w.queue with workorderContainer := w.queue.workorderContainer ++ [arg] }
      pushes := w.pushes ++ [(arg, .returned)] } := by
  unfold World.step push
  dsimp only
  rw [hp, hw, if_neg Bool.false_ne_true]
  rw [if_neg hroom]
  rfl

theorem step_pop_poisoned (hp : w.queue.isPoisoned = true) :
    w.step .pop = { w with pops := w.pops ++ [.returned none] } := by
  unfold World.step pop
  rw [hp, if_pos rfl]
  rfl

theorem step_pop_released (hp : w.queue.isPoisoned = false) {q : Nat} {rest : List (T × Nat)}
    (hb : w.queue.pushingArgVec = (arg, q) :: rest) :
    w.step .pop = { w with
      queue := { w.queue with pushingArgVec := rest }
      pushes := w.pushes.set q (arg, .returned)
      pops := w.pops ++ [.returned (some arg)]
      released := w.released ++ [.push q] } := by
  unfold World.step pop
  dsimp only
  rw [hp, hb, if_neg Bool.false_ne_true]
  rfl

theorem step_pop_got (hp : w.queue.isPoisoned = false) (hb : w.queue.pushingArgVec = []) {rest : List T}
    (hc : w.queue.workorderContainer = arg :: rest) :
    w.step .pop = { w with
      queue := { w.queue with workorderContainer := rest }
      pops := w.pops ++ [.returned (some arg)] } := by
  unfold World.step pop
  dsimp only
  rw [hp, hb, hc, if_neg Bool.false_ne_true]
  rfl

theorem step_pop_waits (hp : w.queue.isPoisoned = false) (hb : w.queue.pushingArgVec = [])
    (hc : w.queue.workorderContainer = []) :
    w.step .pop = { w with
      queue := { w.queue with waitingArgVec := w.queue.waitingArgVec ++ [w.pops.length] }
      pops := w.pops ++ [.waiting]
      registered := w.registered ++ [.pop w.pops.length] } := by
  unfold World.step pop
  dsimp only
  rw [hp, hb, hc, if_neg Bool.false_ne_true]
  rfl

end

/-! ## The invariant -/

def idle (w : World T) : PopPhase T := if w.queue.isPoisoned then .returned none else .waiting

def onRecord (w : World T) : List Caller :=
  if w.queue.isPoisoned then []
  else w.queue.waitingArgVec.map .pop ++ w.queue.pushingArgVec.map (.push ·.2)

/-- The first calls of `pop` have the items `rs`, the other `k` have none; the calls of `push` of the
items `acc` returned, those of `threw` threw. -/
structure Inv (w : World T) (rs acc threw : List T) (k : Nat) : Prop where
  pops : w.pops = rs.map (fun t => .returned (some t)) ++ List.replicate k (idle w)
  pushes : w.pushes = acc.map (·, .returned) ++ w.queue.pushingArgVec.map (fun a => (a.1, .waiting)) ++
    threw.map (·, .threw)
  order : acc = rs ++ w.queue.workorderContainer
  waiting : w.queue.isPoisoned = false → w.queue.waitingArgVec = List.range' rs.length k
  pushing : w.queue.pushingArgVec.map Prod.snd = List.range' acc.length w.queue.pushingArgVec.length
  poisoned : w.queue.isPoisoned = true → w.queue.pushingArgVec = []
  open' : w.queue.isPoisoned = false → threw = []
  empty : w.queue.isPoisoned = false → k ≠ 0 →
    w.queue.workorderContainer = [] ∧ w.queue.pushingArgVec = []
  full : w.queue.pushingArgVec ≠ [] → w.queue.workorderContainer.length = w.queue.workorderContainerCap
  registered : (w.released ++ onRecord w).Perm w.registered
  nodup : w.registered.Nodup
  pushBound : ∀ n, .push n ∈ w.registered → n < w.pushes.length
  popBound : ∀ n, .pop n ∈ w.registered → n < w.pops.length

theorem Inv.of_empty (cap : Nat) : Inv (World.empty cap : World T) [] [] [] 0 where
  pops := rfl
  pushes := rfl
  order := rfl
  waiting _ := rfl
  pushing := rfl
  poisoned _ := rfl
  open' _ := rfl
  empty _ hk := absurd rfl hk
  full hne := absurd rfl hne
  registered := .refl _
  nodup := List.nodup_nil
  pushBound _ hn := absurd hn List.not_mem_nil
  popBound _ hn := absurd hn List.not_mem_nil

variable {rs acc threw : List T} {k : Nat}

theorem set_first_waiting (rs : List T) (k : Nat) (arg : T) (p : PopPhase T) :
    (rs.map (fun t => PopPhase.returned (some t)) ++ List.replicate (k + 1) p).set rs.length
        (.returned (some arg)) =
      (rs ++ [arg]).map (fun t => PopPhase.returned (some t)) ++ List.replicate k p := by
  simp [List.replicate_succ]

theorem set_first_pushing (acc : List T) (arg : T) (q : Nat) (rest : List (T × Nat)) :
    (acc.map (·, PushPhase.returned) ++ ((arg, q) :: rest).map fun a => (a.1, PushPhase.waiting)).set
        acc.length (arg, .returned) =
      (acc ++ [arg]).map (·, PushPhase.returned) ++ rest.map fun a => (a.1, PushPhase.waiting) := by
  simp

theorem Inv.idle_eq (hp : w.queue.isPoisoned = false) : idle w = .waiting := by
  unfold idle
  rw [hp]
  rfl

theorem onRecord_eq (hp : w.queue.isPoisoned = false) :
    onRecord w = w.queue.waitingArgVec.map .pop ++ w.queue.pushingArgVec.map (.push ·.2) := by
  unfold onRecord
  rw [hp]
  rfl

theorem Inv.new_push (hi : Inv w rs acc threw k) : .push w.pushes.length ∉ w.registered :=
  fun h => Nat.lt_irrefl _ (hi.pushBound _ h)

theorem Inv.new_pop (hi : Inv w rs acc threw k) : .pop w.pops.length ∉ w.registered :=
  fun h => Nat.lt_irrefl _ (hi.popBound _ h)

theorem lt_snoc {α : Type} {l : List α} {n : Nat} (h : n < l.length) (a : α) : n < (l ++ [a]).length := by
  rw [List.length_append]
  exact Nat.lt_add_right _ h

theorem nodup_snoc {l : List Caller} {c : Caller} (h : l.Nodup) (hc : c ∉ l) : (l ++ [c]).Nodup :=
  List.nodup_append.2 ⟨h, List.pairwise_singleton _ _, fun _ ha _ hb he =>
    hc (List.mem_singleton.1 hb ▸ he ▸ ha)⟩

theorem Inv.push (hi : Inv w rs acc threw k) (arg : T) :
    ∃ rs' acc' threw' k', Inv (w.step (.push arg)) rs' acc' threw' k' ∧
      (w.step (.push arg)).queue.isPoisoned = w.queue.isPoisoned ∧
      acc' ++ (w.step (.push arg)).queue.pushingArgVec.map Prod.fst =
        acc ++ w.queue.pushingArgVec.map Prod.fst ++ (if w.queue.isPoisoned then [] else [arg]) ∧
      threw' = threw ++ if w.queue.isPoisoned then [arg] else [] := by
  cases hp : w.queue.isPoisoned with
  | true =>
    rw [step_push_poisoned hp]
    refine ⟨rs, acc, threw ++ [arg], k, { hi with
      pushes := ?_, open' := fun h => ?_, pushBound := fun n hn => ?_ }, hp, ?_, rfl⟩
    · rw [hi.pushes, List.map_append, List.append_assoc]
      rfl
    · rw [hp] at h
      cases h
    · exact lt_snoc (hi.pushBound n hn) _
    · exact (List.append_nil _).symm
  | false =>
    obtain rfl := hi.open' hp
    have hpushes := hi.pushes
    rw [List.map_nil, List.append_nil] at hpushes
    have hreg := hi.registered
    rw [onRecord_eq hp] at hreg
    cases hw : w.queue.waitingArgVec with
    | cons p rest =>
      -- handed to the first call that waits
      have hwaiting := hi.waiting hp
      rw [hw] at hwaiting
      cases k with
      | zero => cases hwaiting
      | succ k =>
        rw [List.range'_succ, List.cons.injEq] at hwaiting
        obtain ⟨rfl, hrest⟩ := hwaiting
        obtain ⟨hc, hb⟩ := hi.empty hp (Nat.succ_ne_zero k)
        rw [hw, hb, List.map_nil, List.append_nil, List.map_cons] at hreg
        rw [hb, List.map_nil, List.append_nil] at hpushes
        have horder := hi.order
        rw [hc, List.append_nil] at horder
        subst horder
        rw [step_push_handed hp hw]
        refine ⟨acc ++ [arg], acc ++ [arg], [], k, ⟨?_, ?_, ?_, fun _ => ?_, ?_, fun _ => hb, fun _ => rfl,
          fun _ _ => ⟨hc, hb⟩, fun hne => absurd hb hne, ?_, hi.nodup, fun n hn => ?_, fun n hn => ?_⟩, hp,
          ?_, rfl⟩
        · rw [hi.pops, set_first_waiting]
          rfl
        · rw [hpushes]
          simp [hb]
        · rw [hc, List.append_nil]
        · rw [List.length_append, List.length_singleton]
          exact hrest
        · simp [hb]
        · refine List.Perm.trans ?_ hreg
          simp [onRecord, hp, hb]
        · exact lt_snoc (hi.pushBound n hn) _
        · rw [List.length_set]
          exact hi.popBound n hn
        · simp [hb]
    | nil =>
      have hk : k = 0 := by
        have := congrArg List.length (hi.waiting hp)
        rw [hw, List.length_range'] at this
        exact this.symm
      subst hk
      rw [hw, List.map_nil, List.nil_append] at hreg
      by_cases hfull : w.queue.workorderContainer.length = w.queue.workorderContainerCap
      · rw [step_push_waits hp hw hfull]
        have hlen : w.pushes.length = acc.length + w.queue.pushingArgVec.length := by
          rw [hpushes, List.length_append, List.length_map, List.length_map]
        refine ⟨rs, acc, [], 0, { hi with
          pushes := ?_, pushing := ?_, poisoned := fun h => Bool.noConfusion (hp.symm.trans h)
          empty := fun _ h => absurd rfl h, full := fun _ => hfull, registered := ?_
          nodup := nodup_snoc hi.nodup hi.new_push, pushBound := fun n hn => ?_
          popBound := fun n hn => ?_ }, hp, ?_, rfl⟩
        · rw [hpushes, List.map_append]
          simp
        · rw [List.map_append, hi.pushing, List.length_append, List.length_singleton, List.range'_concat,
            hlen]
          simp
        · have := hreg.append_right [Caller.push w.pushes.length]
          simpa [onRecord, hp, hw] using this
        · rcases List.mem_append.1 hn with hn | hn
          · exact lt_snoc (hi.pushBound n hn) _
          · cases List.mem_singleton.1 hn
            rw [List.length_append]
            exact Nat.lt_succ_self _
        · rcases List.mem_append.1 hn with hn | hn
          · exact hi.popBound n hn
          · cases List.mem_singleton.1 hn
        · simp
      · -- a queue with room has nobody behind it
        have hb : w.queue.pushingArgVec = [] := by
          by_contra hne
          exact hfull (hi.full hne)
        rw [step_push_queued hp hw hfull]
        rw [hb, List.map_nil, List.append_nil] at hpushes
        refine ⟨rs, acc ++ [arg], [], 0, { hi with
          pushes := ?_, order := ?_, pushing := ?_, empty := fun _ h => absurd rfl h
          full := fun hne => absurd hb hne, pushBound := fun n hn => ?_ }, hp, ?_, rfl⟩
        · rw [hpushes]
          simp [hb]
        · rw [hi.order, List.append_assoc]
        · simp [hb]
        · exact lt_snoc (hi.pushBound n hn) _
        · simp [hb]

theorem Inv.pop (hi : Inv w rs acc threw k) (ho : Orderly w .pop) :
    ∃ rs' acc' k', Inv (w.step .pop) rs' acc' threw k' ∧
      (w.step .pop).queue.isPoisoned = w.queue.isPoisoned ∧
      acc' ++ (w.step .pop).queue.pushingArgVec.map Prod.fst =
        acc ++ w.queue.pushingArgVec.map Prod.fst := by
  cases hp : w.queue.isPoisoned with
  | true =>
    rw [step_pop_poisoned hp]
    refine ⟨rs, acc, k + 1, { hi with
      pops := ?_, waiting := fun h => Bool.noConfusion (hp.symm.trans h)
      empty := fun h => Bool.noConfusion (hp.symm.trans h), popBound := fun n hn => ?_ }, hp, rfl⟩
    · have : idle w = .returned none := by
        unfold idle
        rw [hp]
        rfl
      rw [hi.pops, this, List.append_assoc, List.replicate_succ']
      unfold idle
      rw [hp]
      rfl
    · exact lt_snoc (hi.popBound n hn) _
  | false =>
    obtain rfl := hi.open' hp
    have hpushes := hi.pushes
    rw [List.map_nil, List.append_nil] at hpushes
    have hreg := hi.registered
    rw [onRecord_eq hp] at hreg
    cases hb : w.queue.pushingArgVec with
    | cons a rest =>
      obtain ⟨arg, q⟩ := a
      have hc : w.queue.workorderContainer = [] := by
        rcases ho with h | h | h
        · rw [hp] at h
          cases h
        · rw [hb] at h
          cases h
        · exact h
      have hk : k = 0 := by
        by_contra hk
        have := (hi.empty hp hk).2
        rw [hb] at this
        cases this
      subst hk
      have hpushing := hi.pushing
      rw [hb, List.map_cons, List.length_cons, List.range'_succ, List.cons.injEq] at hpushing
      obtain ⟨rfl, hrest⟩ := hpushing
      have hw : w.queue.waitingArgVec = [] := hi.waiting hp
      have horder := hi.order
      rw [hc, List.append_nil] at horder
      subst horder
      rw [hb] at hpushes
      rw [step_pop_released hp hb]
      refine ⟨acc ++ [arg], acc ++ [arg], 0, ⟨?_, ?_, ?_, fun _ => hw, ?_, fun h => ?_, fun _ => rfl,
        fun _ h => absurd rfl h, fun _ => hi.full (by rw [hb]; exact List.cons_ne_nil _ _), ?_, hi.nodup,
        fun n hn => ?_, fun n hn => ?_⟩, hp, ?_⟩
      · rw [hi.pops]
        simp
      · rw [hpushes, set_first_pushing, List.map_nil, List.append_nil]
      · rw [hc, List.append_nil]
      · rw [List.length_append, List.length_singleton]
        exact hrest
      · rw [hp] at h
        cases h
      · refine List.Perm.trans ?_ hreg
        simp [onRecord, hp, hw, hb]
      · rw [List.length_set]
        exact hi.pushBound n hn
      · exact lt_snoc (hi.popBound n hn) _
      · simp
    | nil =>
      rw [hb, List.map_nil, List.append_nil] at hreg hpushes
      cases hc : w.queue.workorderContainer with
      | cons arg rest =>
        have hk : k = 0 := by
          by_contra hk
          have := (hi.empty hp hk).1
          rw [hc] at this
          cases this
        subst hk
        rw [step_pop_got hp hb hc]
        refine ⟨rs ++ [arg], acc, 0, { hi with
          pops := ?_, order := ?_, waiting := fun _ => hi.waiting hp, empty := fun _ h => absurd rfl h
          full := fun hne => absurd hb hne, popBound := fun n hn => ?_ }, hp, ?_⟩
        · rw [hi.pops]
          simp
        · rw [hi.order, hc, List.append_assoc]
          rfl
        · exact lt_snoc (hi.popBound n hn) _
        · rw [hb]
      | nil =>
        rw [step_pop_waits hp hb hc]
        have hlen : w.pops.length = rs.length + k := by
          rw [hi.pops, List.length_append, List.length_map, List.length_replicate]
        refine ⟨rs, acc, k + 1, { hi with
          pops := ?_, waiting := fun _ => ?_, empty := fun _ _ => ⟨hc, hb⟩
          full := fun hne => absurd hb hne, registered := ?_, nodup := nodup_snoc hi.nodup hi.new_pop
          pushBound := fun n hn => ?_, popBound := fun n hn => ?_ }, hp, ?_⟩
        · rw [hi.pops, Inv.idle_eq hp, List.append_assoc, ← List.replicate_succ']
          dsimp only
          rw [hp]
          rfl
        · rw [hi.waiting hp, List.range'_concat, hlen]
          simp
        · have hperm : (w.released ++ (w.queue.waitingArgVec ++ [w.pops.length]).map Caller.pop).Perm
              (w.registered ++ [.pop w.pops.length]) := by
            rw [List.map_append, ← List.append_assoc]
            exact hreg.append_right _
          simpa [onRecord, hp, hb] using hperm
        · rcases List.mem_append.1 hn with hn | hn
          · exact hi.pushBound n hn
          · cases List.mem_singleton.1 hn
        · rcases List.mem_append.1 hn with hn | hn
          · exact lt_snoc (hi.popBound n hn) _
          · cases List.mem_singleton.1 hn
            rw [List.length_append]
            exact Nat.lt_succ_self _
        · rw [hb]

theorem set_last (l : List (PopPhase T)) (k : Nat) (p p' : PopPhase T) :
    (List.range' l.length k).foldl (fun l i => l.set i p') (l ++ List.replicate k p) =
      l ++ List.replicate k p' := by
  induction k generalizing l with
  | zero => rfl
  | succ k ih =>
    have hset : (l ++ List.replicate (k + 1) p).set l.length p' = (l ++ [p']) ++ List.replicate k p := by
      simp [List.replicate_succ]
    have := ih (l ++ [p'])
    rw [List.length_append, List.length_singleton] at this
    rw [List.range'_succ, List.foldl_cons, hset, this, List.replicate_succ, List.append_assoc]
    rfl

theorem Inv.poison (hi : Inv w rs acc threw k) (ho : Orderly w .poison) :
    Inv (w.step .poison) rs acc threw k ∧ (w.step .poison).queue.isPoisoned = true ∧
      (w.step .poison).queue.pushingArgVec = w.queue.pushingArgVec := by
  obtain ⟨hb, hagain⟩ := ho
  have hstep : w.step .poison = { w with
      queue := { w.queue with isPoisoned := true }
      pops := w.queue.waitingArgVec.foldl (fun pops arg => pops.set arg (.returned none)) w.pops
      released := w.released ++ w.queue.waitingArgVec.map .pop } := by
    unfold World.step World.afterPoison ConcurrentQueue.poison
    simp [hb]
  rw [hstep]
  cases hp : w.queue.isPoisoned with
  | true =>
    have hw := hagain hp
    have hidle : idle w = .returned none := by
      unfold idle
      rw [hp]
      rfl
    have hreg := hi.registered
    simp only [onRecord, hp, if_true, List.append_nil] at hreg
    refine ⟨⟨?_, hi.pushes, hi.order, fun h => (by cases h), hi.pushing, fun _ => hb, fun h => (by cases h),
      fun h => (by cases h), hi.full, ?_, hi.nodup, hi.pushBound, fun n hn => ?_⟩, rfl, rfl⟩
    · rw [hw, List.foldl_nil, hi.pops, hidle]
      rfl
    · simpa [onRecord, hw] using hreg
    · rw [hw]
      exact hi.popBound n hn
  | false =>
    have hreg := hi.registered
    rw [onRecord_eq hp, hb, List.map_nil, List.append_nil] at hreg
    have hpops : w.queue.waitingArgVec.foldl (fun pops arg => pops.set arg (.returned none)) w.pops =
        rs.map (fun t => .returned (some t)) ++ List.replicate k (.returned none) := by
      have := set_last (rs.map fun t => .returned (some t)) k (idle w) (.returned none)
      rw [List.length_map] at this
      rw [hi.waiting hp, hi.pops, this]
    refine ⟨⟨hpops, hi.pushes, hi.order, fun h => (by cases h), hi.pushing, fun _ => hb,
      fun h => (by cases h), fun h => (by cases h), hi.full, ?_, hi.nodup, hi.pushBound, fun n hn => ?_⟩,
      rfl, rfl⟩
    · simpa [onRecord] using hreg
    · have hlt := hi.popBound n hn
      rw [hi.pops] at hlt
      rw [hpops]
      simpa using hlt

/-! ## Runs -/

theorem Inv.waits_iff (hi : Inv w rs acc threw k) (c : Caller) : w.Waits c ↔ c ∈ onRecord w := by
  cases hp : w.queue.isPoisoned with
  | true =>
    have hb := hi.poisoned hp
    simp only [onRecord, hp, if_true, List.not_mem_nil, iff_false]
    cases c with
    | push n =>
      rintro ⟨arg, hn⟩
      have := List.mem_of_getElem? hn
      rw [hi.pushes, hb] at this
      simp at this
    | pop n =>
      intro hn
      have := List.mem_of_getElem? hn
      rw [hi.pops] at this
      simp [idle, hp] at this
  | false =>
    rw [onRecord_eq hp]
    cases c with
    | push n =>
      have hthrew := hi.open' hp
      have hids : (∃ a ∈ w.queue.pushingArgVec, a.2 = n) ↔
          acc.length ≤ n ∧ n < acc.length + w.queue.pushingArgVec.length := by
        rw [← List.mem_map (f := Prod.snd), hi.pushing, List.mem_range'_1]
      have hrecord : Caller.push n ∈ w.queue.waitingArgVec.map .pop ++
          w.queue.pushingArgVec.map (.push ·.2) ↔ ∃ a ∈ w.queue.pushingArgVec, a.2 = n := by
        simp
      rw [hrecord, hids]
      unfold World.Waits
      dsimp only
      rw [hi.pushes, hthrew, List.map_nil, List.append_nil]
      by_cases hlt : n < acc.length
      · rw [List.getElem?_append_left (by simpa using hlt)]
        exact iff_of_false (by simp) (by omega)
      · rw [List.getElem?_append_right (by simpa using Nat.le_of_not_lt hlt), List.length_map,
          List.getElem?_map]
        by_cases hlt' : n - acc.length < w.queue.pushingArgVec.length
        · rw [List.getElem?_eq_getElem hlt']
          simp
          omega
        · rw [List.getElem?_eq_none (Nat.le_of_not_lt hlt')]
          simp
          omega
    | pop n =>
      have hrecord : Caller.pop n ∈ w.queue.waitingArgVec.map .pop ++
          w.queue.pushingArgVec.map (.push ·.2) ↔ n ∈ w.queue.waitingArgVec := by
        simp
      rw [hrecord, hi.waiting hp, List.mem_range'_1]
      unfold World.Waits
      dsimp only
      rw [hi.pops, Inv.idle_eq hp]
      by_cases hlt : n < rs.length
      · rw [List.getElem?_append_left (by simpa using hlt)]
        exact iff_of_false (by simp) (by omega)
      · rw [List.getElem?_append_right (by simpa using Nat.le_of_not_lt hlt), List.length_map,
          List.getElem?_replicate]
        simp
        omega

/-- **In an orderly run BoundedQueue loses nothing.** The calls of `pop` get the items of the calls of
`push` before the first poison, in their order; what they did not get is in the container or with calls
that wait; the calls of `push` after the poison throw. A call that had to wait waits, or is released once,
and no call of `pop` waits while there is an item. -/
theorem loses_nothing {cap : Nat} (h : Reach (· = World.empty cap)
    (fun w op w' => w' = w.step op ∧ Orderly w op) w ops) :
    ∃ rs acc k, w.pops = rs.map (fun t => .returned (some t)) ++ List.replicate k (idle w) ∧
      w.pushes = acc.map (·, .returned) ++ w.queue.pushingArgVec.map (fun a => (a.1, .waiting)) ++
        (refused ops).map (·, .threw) ∧
      acc = rs ++ w.queue.workorderContainer ∧
      acc ++ w.queue.pushingArgVec.map Prod.fst = accepted ops ∧
      w.queue.isPoisoned = poisoned ops ∧
      (∀ c, w.Waits c → c ∈ w.registered ∧ c ∉ w.released) ∧
      (∀ c ∈ w.registered, ¬ w.Waits c → w.released.count c = 1) ∧
      (∀ c ∈ w.released, c ∈ w.registered) ∧
      ((∃ n, w.Waits (.pop n)) → w.queue.workorderContainer = [] ∧ w.queue.pushingArgVec = []) := by
  obtain ⟨rs, acc, threw, k, hi, hacc, hthrew, hpoison⟩ : ∃ rs acc threw k, Inv w rs acc threw k ∧
      acc ++ w.queue.pushingArgVec.map Prod.fst = accepted ops ∧ threw = refused ops ∧
      w.queue.isPoisoned = poisoned ops := by
    refine h.inv (fun w ops => ∃ rs acc threw k, Inv w rs acc threw k ∧
      acc ++ w.queue.pushingArgVec.map Prod.fst = accepted ops ∧ threw = refused ops ∧
      w.queue.isPoisoned = poisoned ops) ?_ ?_
    · rintro _ rfl
      exact ⟨[], [], [], 0, Inv.of_empty cap, rfl, rfl, rfl⟩
    · rintro w ops op _ ⟨rs, acc, threw, k, hi, hacc, hthrew, hpoison⟩ ⟨rfl, ho⟩
      rw [accepted_snoc, refused_snoc, poisoned_snoc, ← hacc, ← hthrew, ← hpoison]
      cases op with
      | push arg =>
        obtain ⟨rs', acc', threw', k', hi', hp, ha, ht⟩ := hi.push arg
        exact ⟨rs', acc', threw', k', hi', ha, ht, hp.trans (Bool.or_false _).symm⟩
      | pop =>
        obtain ⟨rs', acc', k', hi', hp, ha⟩ := hi.pop ho
        refine ⟨rs', acc', threw, k', hi', ?_, ?_, hp.trans (Bool.or_false _).symm⟩
        · rw [ha]
          split <;> exact (List.append_nil _).symm
        · split <;> exact (List.append_nil _).symm
      | poison =>
        obtain ⟨hi', hp, hb⟩ := hi.poison ho
        refine ⟨rs, acc, threw, k, hi', ?_, ?_, hp.trans (Bool.or_true _).symm⟩
        · rw [hb]
          split <;> exact (List.append_nil _).symm
        · split <;> exact (List.append_nil _).symm
  subst hthrew
  have hcount := fun c => (hi.registered.count_eq c)
  have honce := fun c => List.nodup_iff_count_le_one.1 hi.nodup c
  refine ⟨rs, acc, k, hi.pops, hi.pushes, hi.order, hacc, hpoison, fun c hc => ?_, fun c hc hn => ?_,
    fun c hc => ?_, ?_⟩
  · have hrec := (hi.waits_iff c).1 hc
    refine ⟨hi.registered.mem_iff.1 (List.mem_append_right _ hrec), fun hrel => ?_⟩
    have h1 := hcount c
    have h2 := honce c
    rw [List.count_append] at h1
    have h3 := List.count_pos_iff.2 hrec
    have h4 := List.count_pos_iff.2 hrel
    omega
  · have hrec : (onRecord w).count c = 0 := List.count_eq_zero.2 fun hm => hn ((hi.waits_iff c).2 hm)
    have h1 := hcount c
    have h2 := honce c
    rw [List.count_append, hrec, Nat.add_zero] at h1
    have h3 := List.count_pos_iff.2 hc
    omega
  · exact hi.registered.mem_iff.1 (List.mem_append_left _ hc)
  · rintro ⟨n, hn⟩
    have hrec := (hi.waits_iff _).1 hn
    cases hp : w.queue.isPoisoned with
    | true =>
      simp [onRecord, hp] at hrec
    | false =>
      refine hi.empty hp fun hk => ?_
      rw [onRecord_eq hp, hi.waiting hp, hk] at hrec
      simp at hrec

/-- A call of `pop` waits for the first item, and another one for the poison. -/
theorem loses_nothing_run : ∃ w : World Nat,
    w.pops = [.returned (some 5), .returned (some 6), .returned none] ∧
    ∀ c ∈ w.registered, ¬ w.Waits c → w.released.count c = 1 := by
  let next : World Nat → Op Nat → Option (World Nat) := fun w op =>
    if Orderly w op then some (w.step op) else none
  have hnext : ∀ {w op w'}, next w op = some w' → w' = w.step op ∧ Orderly w op := by
    intro w op w' h
    obtain ⟨ho, he⟩ := Option.ite_none_right_eq_some.1 h
    cases he
    exact ⟨rfl, ho⟩
  have hinit : Reach (· = World.empty 1) (fun w op w' => w' = w.step op ∧ Orderly w op)
      (World.empty (T := Nat) 1) [] := .init rfl
  obtain ⟨rs, acc, k, -, -, -, -, -, -, honce, -⟩ := loses_nothing
    (hinit.foldlM hnext
      (show List.foldlM next _ [.pop, .push 5, .push 6, .pop, .pop, .poison] = some _ from rfl))
  exact ⟨_, rfl, honce⟩

/-- In a queue of one, the second item is popped before the first; a second poison releases a call of
`pop` again; and a call of `push` that waits returns when the queue is poisoned, though its item was not
accepted. -/
theorem loses_something :
    (∃ w : World Nat, Reach (· = World.empty 1) (fun w op w' => w' = w.step op) w
        [.push 5, .push 6, .pop, .pop] ∧ w.pops = [.returned (some 6), .returned (some 5)]) ∧
    (∃ w : World Nat, Reach (· = World.empty 1) (fun w op w' => w' = w.step op) w [.pop, .poison, .poison] ∧
        w.released = [.pop 0, .pop 0]) ∧
    ∃ w : World Nat, Reach (· = World.empty 1) (fun w op w' => w' = w.step op) w
        [.push 5, .push 6, .poison, .pop] ∧ w.pushes = [(5, .returned), (6, .returned)] ∧
        w.queue.workorderContainer = [5] ∧ w.pops = [.returned none] := by
  have hinit : Reach (· = World.empty 1) (fun (w : World Nat) op w' => w' = w.step op)
      (World.empty 1) [] := .init rfl
  have hrun := hinit.foldl (f := World.step) fun _ _ => rfl
  exact ⟨⟨_, hrun _, rfl⟩, ⟨_, hrun _, rfl⟩, _, hrun _, rfl, rfl, rfl⟩

end ConcurrentQueue
