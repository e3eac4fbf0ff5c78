import Mathlib.Data.Nat.ModEq
import Mathlib.Logic.Function.Basic

/-!
# Ring buffers

`Holds arr off cap f`: the ring `arr` of `cap` slots, read from `off` on, holds `f 0, f 1, …`. Slots
are written by `Holds.set` and `Holds.extend`, the reading position moves by `Holds.rotate`, and
`Holds.fill` resets a range that may wrap, in two pieces.
-/

namespace Ring

universe u

variable {S : Type u} {arr : List S} {off cap : Nat} {f : Nat → S}

/-- A ring of `cap` slots that holds `f 0, f 1, …` from `off` on. -/
structure Holds (arr : List S) (off cap : Nat) (f : Nat → S) : Prop where
  length : arr.length = cap
  slot : ∀ i < cap, arr[(off + i) % cap]? = some (f i)

/-- Slots that are less than a round apart differ. -/
theorem slot_inj {i j : Nat} (hi : i < cap) (hj : j < cap) (h : (off + i) % cap = (off + j) % cap) :
    i = j := by
  have hmod : i ≡ j [MOD cap] := Nat.ModEq.add_left_cancel' off h
  have := hmod.eq_of_lt_of_lt hi hj
  exact this

/-- Every slot is read. -/
theorem slot_surj {p : Nat} (hp : p < cap) : ∃ i < cap, (off + i) % cap = p := by
  have hcap : 0 < cap := Nat.zero_lt_of_lt hp
  have ho : off % cap < cap := Nat.mod_lt _ hcap
  refine ⟨(p + (cap - off % cap)) % cap, Nat.mod_lt _ hcap, ?_⟩
  rw [Nat.add_mod_mod, ← Nat.mod_add_mod]
  have hsum : off % cap + (p + (cap - off % cap)) = p + cap := by omega
  rw [hsum, Nat.add_mod_right, Nat.mod_eq_of_lt hp]

theorem Holds.replicate {x : S} (hcap : 0 < cap) : Holds (List.replicate cap x) off cap fun _ => x := by
  refine ⟨List.length_replicate, fun i _ => ?_⟩
  rw [List.getElem?_replicate, if_pos (Nat.mod_lt _ hcap)]

/-- The contents below the capacity count, and the offset up to whole rounds. -/
theorem Holds.congr {off' : Nat} {g : Nat → S} (h : Holds arr off cap f) (hoff : off' % cap = off % cap)
    (hg : ∀ i < cap, g i = f i) : Holds arr off' cap g := by
  refine ⟨h.length, fun i hi => ?_⟩
  rw [hg i hi, ← h.slot i hi, ← Nat.mod_add_mod, hoff, Nat.mod_add_mod]

theorem Holds.set (h : Holds arr off cap f) {i : Nat} (hi : i < cap) (x : S) :
    Holds (arr.set ((off + i) % cap) x) off cap (Function.update f i x) := by
  refine ⟨by rw [List.length_set, h.length], fun j hj => ?_⟩
  by_cases hji : j = i
  · subst hji
    have hlt : (off + j) % cap < arr.length := by
      rw [h.length]
      exact Nat.mod_lt _ (Nat.zero_lt_of_lt hj)
    rw [List.getElem?_set_self hlt, Function.update_self]
  · have hne : (off + i) % cap ≠ (off + j) % cap := fun e => hji (slot_inj hi hj e).symm
    rw [List.getElem?_set_ne hne, Function.update_of_ne hji]
    exact h.slot j hj

theorem Holds.extend {v n : Nat} {x : S}
    (h : Holds arr off cap fun i => if v ≤ i ∧ i < v + n then x else f i) (hn : v + n < cap) :
    Holds (arr.set ((off + (v + n)) % cap) x) off cap
      fun i => if v ≤ i ∧ i < v + (n + 1) then x else f i := by
  refine (h.set hn x).congr rfl fun i _ => ?_
  by_cases hi : i = v + n
  · subst hi
    rw [Function.update_self, if_pos (by omega)]
  · rw [Function.update_of_ne hi]
    have hrange : (v ≤ i ∧ i < v + (n + 1)) ↔ (v ≤ i ∧ i < v + n) := by omega
    simp only [hrange]

/-- Reading on from `k` slots further. -/
theorem Holds.rotate (h : Holds arr off cap f) (k : Nat) :
    Holds arr (off + k) cap fun i => f ((i + k) % cap) := by
  refine ⟨h.length, fun i hi => ?_⟩
  have hlt : (i + k) % cap < cap := Nat.mod_lt _ (Nat.zero_lt_of_lt hi)
  rw [← h.slot _ hlt, Nat.add_mod_mod]
  congr 2
  omega

/-- Write `x` to the slots from `first` up to `last`. -/
def fillRange (arr : List S) (first last : Nat) (x : S) : List S :=
  arr.mapIdx fun i y => if first ≤ i ∧ i < last then x else y

@[simp] theorem length_fillRange (arr : List S) (first last : Nat) (x : S) :
    (fillRange arr first last x).length = arr.length := List.length_mapIdx

theorem getElem?_fillRange (first last : Nat) (x : S) (i : Nat) :
    (fillRange arr first last x)[i]? = (arr[i]?).map fun y => if first ≤ i ∧ i < last then x else y :=
  List.getElem?_mapIdx

/-- The slots of a range that may wrap, as one or two pieces of the array. -/
theorem slot_mem_range {v n i : Nat} (hvn : v + n ≤ cap) (hi : i < cap) :
    ((off + v) % cap ≤ (off + i) % cap ∧
        (off + i) % cap < min cap ((off + v) % cap + n) ∨
      (off + i) % cap < (off + v) % cap + n - min cap ((off + v) % cap + n)) ↔
    v ≤ i ∧ i < v + n := by
  have hcap : 0 < cap := Nat.zero_lt_of_lt hi
  have ho : off % cap < cap := Nat.mod_lt _ hcap
  rw [← Nat.mod_add_mod off cap v, ← Nat.mod_add_mod off cap i]
  generalize off % cap = o at ho
  have hmod : ∀ j, j ≤ cap → (o + j) % cap = if o + j < cap then o + j else o + j - cap := by
    intro j hj
    split
    · next h => exact Nat.mod_eq_of_lt h
    · next h =>
      rw [Nat.mod_eq_sub_mod (Nat.not_lt.1 h)]
      exact Nat.mod_eq_of_lt (by omega)
  rw [hmod v (by omega), hmod i (by omega)]
  split <;> split <;> omega

/-- **Resetting a range that may wrap**, in two pieces. -/
theorem Holds.fill (h : Holds arr off cap f) {v n : Nat} (hvn : v + n ≤ cap) (x : S) :
    Holds (fillRange (fillRange arr ((off + v) % cap) (min cap ((off + v) % cap + n)) x) 0
        ((off + v) % cap + n - min cap ((off + v) % cap + n)) x) off cap
      fun i => if v ≤ i ∧ i < v + n then x else f i := by
  refine ⟨by rw [length_fillRange, length_fillRange, h.length], fun i hi => ?_⟩
  rw [getElem?_fillRange, getElem?_fillRange, h.slot i hi]
  simp only [Option.map_some, Nat.zero_le, true_and, Option.some.injEq]
  have hrange := @slot_mem_range off cap v n i hvn hi
  by_cases hin : v ≤ i ∧ i < v + n
  · rw [if_pos hin]
    rcases hrange.2 hin with hfirst | hsecond
    · rw [if_pos hfirst, ite_self]
    · rw [if_pos hsecond]
  · rw [if_neg hin, if_neg fun hsecond => hin (hrange.1 (.inr hsecond)),
      if_neg fun hfirst => hin (hrange.1 (.inl hfirst))]

end Ring
