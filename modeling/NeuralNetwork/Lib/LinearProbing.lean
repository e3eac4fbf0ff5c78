import Mathlib.Data.List.ReduceOption
import Mathlib.Data.List.Rotate
import Mathlib.Data.Nat.Find
import NeuralNetwork.Lib.Ring

/-!
# Linear probing

A table of slots that are empty or hold one entry. An entry is put into the first empty slot from its
home slot on, and is `Placed`: the slots between the two are occupied. `Placed.set`: placing one more
entry keeps this. `exists_empty`: there is room while the entries are fewer than the slots. `probe` is a
search, which finds exactly what it reaches (`reaches_of_probe`, `Reaches.probe_eq`); a placed entry is
reached from its home slot within as many steps as there are entries (`Placed.reaches`), in a table
without removals.
-/

namespace LinearProbing

variable {α : Type} {home : α → Nat} {table : List (Option α)} {h : Nat}

/-- The slot that is probed after `i` others, from the one of `h` on. -/
def probed (table : List (Option α)) (h i : Nat) : Option (Option α) := table[(h + i) % table.length]?

/-- The first `i` slots that are probed are occupied. -/
def Run (table : List (Option α)) (h i : Nat) : Prop := ∀ j < i, ∃ x, probed table h j = some (some x)

/-- Every entry is reached from its home slot over occupied slots. -/
def Placed (home : α → Nat) (table : List (Option α)) : Prop :=
  ∀ s e, table[s]? = some (some e) →
    ∃ i < table.length, (home e + i) % table.length = s ∧ Run table (home e) i

/-! ## Occupied slots -/

variable {e : α} {p : α → Bool} {n : Nat} {s : Nat}

theorem mem_of_getElem? (hs : table[s]? = some (some e)) : e ∈ table.reduceOption :=
  List.reduceOption_mem_iff.2 (List.mem_of_getElem? hs)

theorem probed_congr {h' : Nat} (hh : h' % table.length = h % table.length) (i : Nat) :
    probed table h' i = probed table h i := by
  unfold probed
  rw [← Nat.mod_add_mod, hh, Nat.mod_add_mod]

variable {i : Nat}

theorem Run.congr {h' : Nat} (hr : Run table h i) (hh : h' % table.length = h % table.length) :
    Run table h' i := by
  intro j hj
  rw [probed_congr hh]
  exact hr j hj

theorem Run.succ (hr : Run table h i) (he : probed table h i = some (some e)) :
    Run table h (i + 1) := by
  intro j hj
  by_cases hji : j = i
  · subst hji
    exact ⟨e, he⟩
  · exact hr j (by omega)

theorem reduceOption_length_of_run (l : List (Option α)) (hl : ∀ o ∈ l, ∃ x, o = some x) :
    l.reduceOption.length = l.length := by
  induction l with
  | nil => rfl
  | cons o l ih =>
    obtain ⟨x, rfl⟩ := hl o (by simp)
    rw [List.reduceOption_cons_of_some, List.length_cons, List.length_cons,
      ih fun o ho => hl o (by simp [ho])]

/-- A run is no longer than the entries are many. -/
theorem Run.le (hr : Run table h i) (hi : i ≤ table.length) : i ≤ table.reduceOption.length := by
  have hperm : (table.rotate h).reduceOption.length = table.reduceOption.length := by
    apply List.Perm.length_eq
    exact (table.rotate_perm h).filterMap id
  rw [← hperm, ← List.take_append_drop i (table.rotate h), List.reduceOption_append, List.length_append,
    reduceOption_length_of_run]
  · rw [List.length_take, List.length_rotate]
    omega
  · intro o ho
    obtain ⟨j, hj⟩ := List.mem_iff_getElem?.1 ho
    have hji : j < i := by
      by_contra hn
      rw [List.getElem?_take, if_neg hn] at hj
      cases hj
    obtain ⟨x, hx⟩ := hr j hji
    rw [List.getElem?_take_of_lt hji, List.getElem?_rotate (by omega), Nat.add_comm] at hj
    exact ⟨x, Option.some.inj (hj.symm.trans hx)⟩

/-- While there are fewer entries than slots, probing comes to an empty one. -/
theorem exists_empty (h : Nat) (hlen : table.reduceOption.length < table.length) :
    ∃ i < table.length, probed table h i = some none ∧ Run table h i := by
  classical
  have hex : ∃ i, i < table.length ∧ probed table h i = some none := by
    obtain ⟨s, hs⟩ := List.mem_iff_getElem?.1 (List.reduceOption_length_lt_iff.1 hlen)
    have hlt : s < table.length := (List.getElem?_eq_some_iff.1 hs).1
    obtain ⟨i, hi, hslot⟩ : ∃ i < table.length, (h + i) % table.length = s := Ring.slot_surj hlt
    subst hslot
    exact ⟨i, hi, hs⟩
  refine ⟨Nat.find hex, (Nat.find_spec hex).1, (Nat.find_spec hex).2, fun j hj => ?_⟩
  have hmin := Nat.find_min hex hj
  have hj' : j < table.length := Nat.lt_trans hj (Nat.find_spec hex).1
  have hslot : (h + j) % table.length < table.length := Nat.mod_lt _ (Nat.zero_lt_of_lt hj')
  have hget : probed table h j = some (table.get ⟨_, hslot⟩) := List.getElem?_eq_getElem hslot
  cases e : table.get ⟨_, hslot⟩ with
  | none =>
    rw [e] at hget
    exact absurd ⟨hj', hget⟩ hmin
  | some x =>
    rw [e] at hget
    exact ⟨x, hget⟩

/-! ## Placing -/

theorem reduceOption_set (hs : table[s]? = some none) (e : α) :
    (table.set s (some e)).reduceOption.Perm (e :: table.reduceOption) := by
  obtain ⟨hlt, hget⟩ := List.getElem?_eq_some_iff.1 hs
  have hsplit : table = table.take s ++ none :: table.drop (s + 1) := by
    conv_lhs => rw [← List.take_append_drop s table, List.drop_eq_getElem_cons hlt, hget]
  rw [List.set_eq_take_append_cons_drop, if_pos hlt]
  conv_rhs => rw [hsplit]
  rw [List.reduceOption_append, List.reduceOption_append, List.reduceOption_cons_of_some,
    List.reduceOption_cons_of_none]
  exact List.perm_middle

theorem Run.set (hr : Run table h i) (e : α) : Run (table.set s (some e)) h i := by
  intro j hj
  obtain ⟨x, hx⟩ := hr j hj
  unfold probed at hx ⊢
  rw [List.length_set]
  by_cases hslot : s = (h + j) % table.length
  · subst hslot
    exact ⟨e, List.getElem?_set_self (List.getElem?_eq_some_iff.1 hx).1⟩
  · rw [List.getElem?_set_ne hslot]
    exact ⟨x, hx⟩

theorem placed_replicate (n : Nat) : Placed home (List.replicate n none) := by
  intro s e hs
  rw [List.getElem?_replicate] at hs
  split at hs <;> cases hs

/-- **Placing an entry** into the first empty slot from its home slot on. -/
theorem Placed.set (hp : Placed home table) (hi : i < table.length) (hr : Run table (home e) i) :
    Placed home (table.set ((home e + i) % table.length) (some e)) := by
  intro s x hs
  rw [List.length_set]
  by_cases hslot : (home e + i) % table.length = s
  · subst hslot
    have hlt : (home e + i) % table.length < table.length := Nat.mod_lt _ (Nat.zero_lt_of_lt hi)
    rw [List.getElem?_set_self hlt] at hs
    obtain rfl := Option.some.inj (Option.some.inj hs)
    exact ⟨i, hi, rfl, hr.set _⟩
  · rw [List.getElem?_set_ne hslot] at hs
    obtain ⟨j, hj, rfl, hrun⟩ := hp s x hs
    exact ⟨j, hj, rfl, hrun.set _⟩

/-! ## Searching -/

/-- Probe `n` slots from the `i`-th on, up to an empty one or one whose entry has `p`. -/
def probe (table : List (Option α)) (p : α → Bool) (h : Nat) : Nat → Nat → Option α
  | 0, _ => none
  | n + 1, i =>
    match probed table h i with
    | some (some x) => if p x then some x else probe table p h n (i + 1)
    | _ => none

/-- An entry is reached within `n` slots from the one of `h` on, over occupied slots. -/
def Reaches (table : List (Option α)) (h n : Nat) (e : α) : Prop :=
  ∃ d < n, probed table h d = some (some e) ∧ Run table h d

/-- What is found has `p`, and is reached from the slot where the search is. -/
theorem probe_spec {x : α} (hx : probe table p h n i = some x) (hrun : Run table h i) :
    p x = true ∧ ∃ d < n, probed table h (i + d) = some (some x) ∧ Run table h (i + d) := by
  induction n generalizing i with
  | zero => cases hx
  | succ n ih =>
    rw [probe] at hx
    split at hx
    · next y hy =>
      split at hx
      · next hp =>
        obtain rfl := Option.some.inj hx
        exact ⟨hp, 0, Nat.succ_pos n, hy, hrun⟩
      · obtain ⟨hp, d, hd, hat, hfar⟩ := ih hx (hrun.succ hy)
        rw [Nat.add_assoc, Nat.add_comm 1] at hat hfar
        exact ⟨hp, d + 1, Nat.succ_lt_succ hd, hat, hfar⟩
    · cases hx

theorem Reaches.mem (hr : Reaches table h n e) : e ∈ table.reduceOption := by
  obtain ⟨d, -, hat, -⟩ := hr
  exact mem_of_getElem? hat

theorem reaches_of_probe {x : α} (hx : probe table p h n 0 = some x) :
    p x = true ∧ Reaches table h n x := by
  obtain ⟨hp, d, hd, hat, hrun⟩ := probe_spec hx fun j hj => absurd hj (Nat.not_lt_zero j)
  rw [Nat.zero_add] at hat hrun
  exact ⟨hp, d, hd, hat, hrun⟩

/-- Probing on over a run to an entry that has `p`. -/
theorem probe_run {n d : Nat} (hn : d < n) (hr : Run table h (i + d))
    (he : probed table h (i + d) = some (some e)) (hp : p e = true)
    (huniq : ∀ x ∈ table.reduceOption, p x = true → x = e) : probe table p h n i = some e := by
  induction n generalizing i d with
  | zero => exact absurd hn (Nat.not_lt_zero d)
  | succ n ih =>
    rw [probe]
    cases d with
    | zero =>
      rw [Nat.add_zero] at he
      simp only [he, hp, if_true]
    | succ d =>
      obtain ⟨x, hx⟩ := hr i (by omega)
      simp only [hx]
      by_cases hpx : p x = true
      · rw [if_pos hpx, huniq x (mem_of_getElem? hx) hpx]
      · rw [if_neg hpx]
        rw [← Nat.add_assoc, Nat.add_right_comm] at hr he
        exact ih (Nat.lt_of_succ_lt_succ hn) hr he

/-- **A search finds** the one entry that has `p` if it is reached. -/
theorem Reaches.probe_eq (hr : Reaches table h n e) (hp : p e = true)
    (huniq : ∀ x ∈ table.reduceOption, p x = true → x = e) : probe table p h n 0 = some e := by
  obtain ⟨d, hd, hat, hrun⟩ := hr
  rw [← Nat.zero_add d] at hat hrun
  exact probe_run hd hrun hat hp huniq

/-- **A placed entry is reached** from its home slot, in as many steps as there are entries. -/
theorem Placed.reaches (hp : Placed home table) (he : e ∈ table.reduceOption)
    (hh : h % table.length = home e % table.length) (hn : table.reduceOption.length ≤ n) :
    Reaches table h n e := by
  obtain ⟨s, hs⟩ := List.mem_iff_getElem?.1 (List.reduceOption_mem_iff.1 he)
  obtain ⟨i, hi, rfl, hrun⟩ := hp s e hs
  have hat : probed table h i = some (some e) := (probed_congr hh i).trans hs
  have hrun' : Run table h i := hrun.congr hh
  -- the slot of the entry itself is one more of the run
  have hle := (hrun'.succ hat).le hi
  exact ⟨i, by omega, hat, hrun'⟩

end LinearProbing
