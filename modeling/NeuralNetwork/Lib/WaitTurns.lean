import NeuralNetwork.Lib.ListUpdate

/-!
# Threads that wait in turn

The threads are the places of a list, and `waits p = some n` says that a thread in the phase `p` waits for
its semaphore `n`; semaphores are numbered as they are made. A record `(i, n)` says that the thread `i`
waits for the semaphore `n`. `Turns` says that the records are those of the threads that wait, and that
a semaphore that was made is waited for or was released, once. What a thread does is one of three things:
it does not touch its waiting (`Turns.set`), it begins to wait (`Turns.wait`), or it is served from the
front of the records (`Turns.serve`).
-/

namespace WaitTurns

open ListUpdate

variable {P : Type} {waits : P → Option Nat} {records rest : List (Nat × Nat)} {threads : List P}
  {made i n : Nat} {released : List Nat} {p p' : P}

structure Turns (waits : P → Option Nat) (records : List (Nat × Nat)) (threads : List P) (made : Nat)
    (released : List Nat) : Prop where
  mem_iff : ∀ i n, (i, n) ∈ records ↔ ∃ p, threads[i]? = some p ∧ waits p = some n
  nodup : (records.map Prod.fst).Nodup
  once : (threads.flatMap (fun p => (waits p).toList) ++ released).Perm (List.range made)

theorem Turns.init (h : ∀ p ∈ threads, waits p = none) : Turns waits [] threads 0 [] where
  mem_iff i n := by
    refine ⟨fun hm => absurd hm List.not_mem_nil, ?_⟩
    rintro ⟨p, hp, hw⟩
    rw [h p (List.mem_of_getElem? hp)] at hw
    cases hw
  nodup := List.nodup_nil
  once := by
    have hnil : threads.flatMap (fun p => (waits p).toList) = [] := by
      refine List.flatMap_eq_nil_iff.2 fun p hp => ?_
      rw [h p hp]
      rfl
    rw [hnil]
    exact .refl []

/-- A thread that did not wait goes on. -/
theorem Turns.set (h : Turns waits records threads made released) (hp : threads[i]? = some p)
    (hw : waits p = none) (hw' : waits p' = none) :
    Turns waits records (threads.set i p') made released where
  mem_iff j m := by
    rw [h.mem_iff, getElem?_set_of_some hp]
    by_cases hj : j = i
    · subst hj
      rw [if_pos rfl, hp]
      simp [hw, hw']
    · rw [if_neg hj]
  nodup := h.nodup
  once := by
    have hset := flatMap_set_perm (fun p => (waits p).toList) hp (b := p')
    simp only [hw, hw', Option.toList_none, List.append_nil] at hset
    exact (hset.append_right released).trans h.once

theorem Turns.wait (h : Turns waits records threads made released) (hp : threads[i]? = some p)
    (hw : waits p = none) (hw' : waits p' = some made) :
    Turns waits (records ++ [(i, made)]) (threads.set i p') (made + 1) released where
  mem_iff j m := by
    rw [List.mem_append, List.mem_singleton, h.mem_iff, getElem?_set_of_some hp]
    by_cases hj : j = i
    · subst hj
      rw [if_pos rfl, hp]
      simp [hw, hw', eq_comm]
    · rw [if_neg hj]
      simp [hj]
  nodup := by
    rw [List.map_append, List.nodup_append]
    refine ⟨h.nodup, by simp, fun a ha b hb => ?_⟩
    obtain ⟨⟨i', m⟩, hm, rfl⟩ := List.mem_map.1 ha
    obtain rfl : b = i := by simpa using hb
    rintro rfl
    obtain ⟨q, hq, hwq⟩ := (h.mem_iff _ _).1 hm
    rw [hp] at hq
    cases hq
    rw [hw] at hwq
    cases hwq
  once := by
    have hset := flatMap_set_perm (fun p => (waits p).toList) hp (b := p')
    simp only [hw, hw', Option.toList_none, Option.toList_some, List.append_nil] at hset
    rw [List.range_succ]
    refine (hset.append_right released).trans ?_
    rw [List.append_assoc]
    refine (List.perm_append_comm.append_left _).trans ?_
    rw [← List.append_assoc]
    exact h.once.append_right [made]

theorem Turns.front (h : Turns waits ((i, n) :: rest) threads made released) :
    ∃ p, threads[i]? = some p ∧ waits p = some n :=
  (h.mem_iff i n).1 List.mem_cons_self

/-- The first thread is served. -/
theorem Turns.serve (h : Turns waits ((i, n) :: rest) threads made released) (hw' : waits p' = none) :
    Turns waits rest (threads.set i p') made (released ++ [n]) := by
  obtain ⟨p, hp, hw⟩ := h.front
  have hnot : ∀ m, (i, m) ∉ rest := by
    intro m hm
    have hnodup := h.nodup
    rw [List.map_cons, List.nodup_cons] at hnodup
    exact hnodup.1 (List.mem_map.2 ⟨(i, m), hm, rfl⟩)
  refine ⟨fun j m => ?_, h.nodup.of_cons, ?_⟩
  · rw [getElem?_set_of_some hp]
    by_cases hj : j = i
    · subst hj
      rw [if_pos rfl]
      refine ⟨fun hm => absurd hm (hnot m), ?_⟩
      rintro ⟨q, hq, hwq⟩
      cases hq
      rw [hw'] at hwq
      cases hwq
    · rw [if_neg hj, ← h.mem_iff, List.mem_cons]
      simp [hj]
  · have hset := flatMap_set_perm (fun p => (waits p).toList) hp (b := p')
    simp only [hw, hw', Option.toList_none, Option.toList_some, List.append_nil] at hset
    refine .trans ?_ h.once
    refine .trans ?_ (hset.append_right released)
    rw [List.append_assoc]
    exact List.perm_append_comm.append_left _

/-! ## Consequences -/

/-- A thread waits for a semaphore that was not released. -/
theorem Turns.not_released (h : Turns waits records threads made released) (hp : threads[i]? = some p)
    (hw : waits p = some n) : n < made ∧ n ∉ released := by
  have hm : n ∈ threads.flatMap (fun p => (waits p).toList) :=
    List.mem_flatMap.2 ⟨p, List.mem_of_getElem? hp, by rw [hw]; exact List.mem_singleton_self n⟩
  refine ⟨List.mem_range.1 (h.once.mem_iff.1 (List.mem_append_left _ hm)), fun hr => ?_⟩
  exact (List.nodup_append.1 (h.once.nodup_iff.2 List.nodup_range)).2.2 n hm n hr rfl

/-- A semaphore that is not waited for was released once. -/
theorem Turns.released_once (h : Turns waits records threads made released) (hn : n < made)
    (hw : ∀ (i : Nat) p, threads[i]? = some p → waits p ≠ some n) : released.count n = 1 := by
  have hcount := h.once.count_eq n
  have hnone : n ∉ threads.flatMap (fun p => (waits p).toList) := by
    intro hm
    obtain ⟨p, hp, hm⟩ := List.mem_flatMap.1 hm
    obtain ⟨i, hi⟩ := List.mem_iff_getElem?.1 hp
    exact hw i p hi (Option.mem_toList.1 hm)
  rw [List.count_append, List.count_eq_zero.2 hnone, Nat.zero_add] at hcount
  rw [hcount]
  exact List.count_eq_one_of_mem List.nodup_range (List.mem_range.2 hn)

end WaitTurns
