import Mathlib.Data.List.Basic
import Mathlib.Data.List.Nodup

/-!
# Writing values through a table of indices

`scatter table vals full` writes each value at the index that the table has for it. What it gives is
determined by the values at the indices of the table and the old ones elsewhere (`scatter_unique`).
-/

namespace Scatter

variable {α : Type} {table : List Nat} {vals vals' full full' : List α} {k : Nat}

def scatter (table : List Nat) (vals full : List α) : List α :=
  (table.zip vals).foldl (fun full p => full.set p.1 p.2) full

@[simp] theorem length_scatter : (scatter table vals full).length = full.length := by
  unfold scatter
  generalize table.zip vals = ps
  induction ps generalizing full with
  | nil => rfl
  | cons p ps ih =>
    rw [List.foldl_cons, ih]
    exact List.length_set

theorem scatter_cons {i : Nat} {a : α} :
    scatter (i :: table) (a :: vals) full = scatter table vals (full.set i a) := rfl

theorem getElem?_scatter (hk : k ∉ table) : (scatter table vals full)[k]? = full[k]? := by
  unfold scatter
  induction table generalizing vals full with
  | nil => rfl
  | cons i table ih =>
    cases vals with
    | nil => rfl
    | cons a vals =>
      rw [List.mem_cons, not_or] at hk
      rw [List.zip_cons_cons, List.foldl_cons, ih hk.2, List.getElem?_set_ne (Ne.symm hk.1)]

/-- The values are where the table says. -/
theorem map_scatter (hnodup : table.Nodup) (hlen : vals.length = table.length)
    (hlt : ∀ i ∈ table, i < full.length) :
    table.map (fun i => (scatter table vals full)[i]?) = vals.map some := by
  induction table generalizing vals full with
  | nil =>
    rw [List.length_eq_zero_iff.1 hlen]
    rfl
  | cons i table ih =>
    cases vals with
    | nil => cases hlen
    | cons a vals =>
      obtain ⟨hi, hnodup⟩ := List.nodup_cons.1 hnodup
      rw [List.map_cons, List.map_cons, scatter_cons]
      refine congrArg₂ List.cons ?_ ?_
      · rw [getElem?_scatter hi, List.getElem?_set_self (hlt i List.mem_cons_self)]
      · refine ih hnodup (Nat.succ.inj hlen) fun j hj => ?_
        rw [List.length_set]
        exact hlt j (List.mem_cons_of_mem i hj)

theorem getElem?_scatter_of_mem (hnodup : table.Nodup) (hlen : vals.length = table.length)
    (hlt : ∀ i ∈ table, i < full.length) {p : Nat × α} (hp : p ∈ table.zip vals) :
    (scatter table vals full)[p.1]? = some p.2 := by
  obtain ⟨j, hj, rfl⟩ := List.getElem_of_mem hp
  rw [List.length_zip] at hj
  have h := congrArg (·[j]?) (map_scatter hnodup hlen hlt)
  rw [List.getElem?_map, List.getElem?_map, List.getElem?_eq_getElem (by omega),
    List.getElem?_eq_getElem (by omega)] at h
  rw [List.getElem_zip]
  exact Option.some.inj h

theorem scatter_append {table' : List Nat} (hlen : vals.length = table.length) :
    scatter (table ++ table') (vals ++ vals') full = scatter table' vals' (scatter table vals full) := by
  rw [scatter, List.zip_append hlen.symm, List.foldl_append]
  rfl

/-- **What is written determines the result.** -/
theorem scatter_unique (hnodup : table.Nodup) (hlt : ∀ i ∈ table, i < full.length)
    (hother : ∀ k, k ∉ table → full'[k]? = full[k]?)
    (hvals : table.map (fun i => full'[i]?) = vals.map some) : scatter table vals full = full' := by
  have hcount : vals.length = table.length := by
    have := congrArg List.length hvals
    simpa using this.symm
  refine List.ext_getElem? fun k => ?_
  by_cases hk : k ∈ table
  · exact List.map_inj_left.1 ((map_scatter hnodup hcount hlt).trans hvals.symm) k hk
  · rw [getElem?_scatter hk, hother k hk]

theorem scatter_self (hnodup : table.Nodup) (hlt : ∀ i ∈ table, i < full.length)
    (hvals : table.map (fun i => full[i]?) = vals.map some) : scatter table vals full = full :=
  scatter_unique hnodup hlt (fun _ _ => rfl) hvals

theorem exists_map_some (hlt : ∀ i ∈ table, i < full.length) :
    ∃ vals : List α, table.map (fun i => full[i]?) = vals.map some := by
  induction table with
  | nil => exact ⟨[], rfl⟩
  | cons i table ih =>
    obtain ⟨vals, hvals⟩ := ih fun j hj => hlt j (List.mem_cons_of_mem i hj)
    obtain ⟨a, ha⟩ : ∃ a, full[i]? = some a := ⟨_, List.getElem?_eq_getElem (hlt i List.mem_cons_self)⟩
    exact ⟨a :: vals, by rw [List.map_cons, List.map_cons, hvals, ha]⟩

end Scatter
