import Mathlib.Data.List.Nodup

/-!
# Hash containers with any order of iteration

A table is a list of keys with their values, in which `alter` updates the value of a key or adds it; an
iteration goes through it in an order of its own (`Order`). What matters of a table is which keys it has
(`mem_keys_alter`), and that it has each once (`nodup_keys_alter`).
-/

namespace HashTable

/-- The elements of a container in some order. -/
structure Order (α : Type) where
  order : List α → List α
  perm : ∀ l, (order l).Perm l

def Order.id (α : Type) : Order α := ⟨fun l => l, fun l => .refl l⟩

variable {K V : Type} [DecidableEq K] {f : Option V → V} {key k : K} {l : List (K × V)}

/-- `table[key]` is given a value that depends on the one it had. -/
def alter (f : Option V → V) (key : K) : List (K × V) → List (K × V)
  | [] => [(key, f none)]
  | (k, v) :: l => if k = key then (k, f (some v)) :: l else (k, v) :: alter f key l

def erase (key : K) (l : List (K × V)) : List (K × V) := l.filter (·.1 ≠ key)

variable {v : V}

theorem lookup_cons_of_ne {k' : K} (h : k ≠ k') : ((k', v) :: l).lookup k = l.lookup k := by
  rw [List.lookup_cons, beq_eq_false_iff_ne.2 h]

theorem lookup_alter :
    (alter f key l).lookup k = if k = key then some (f (l.lookup key)) else l.lookup k := by
  induction l with
  | nil =>
    by_cases hk : k = key
    · rw [if_pos hk, alter, hk, List.lookup_cons_self, List.lookup_nil]
    · rw [if_neg hk, alter, lookup_cons_of_ne hk]
  | cons e l ih =>
    obtain ⟨k', v⟩ := e
    unfold alter
    by_cases he : k' = key
    · subst he
      rw [if_pos rfl]
      by_cases hk : k = k'
      · rw [if_pos hk, hk, List.lookup_cons_self, List.lookup_cons_self]
      · rw [if_neg hk, lookup_cons_of_ne hk, lookup_cons_of_ne hk]
    · rw [if_neg he, lookup_cons_of_ne (Ne.symm he)]
      by_cases hk : k = k'
      · rw [hk, List.lookup_cons_self, List.lookup_cons_self, if_neg he]
      · rw [lookup_cons_of_ne hk, lookup_cons_of_ne hk, ih]

theorem alter_const : alter f key l = alter (fun _ => f (l.lookup key)) key l := by
  induction l with
  | nil => rfl
  | cons e l ih =>
    obtain ⟨k', v⟩ := e
    unfold alter
    by_cases he : k' = key
    · subst he
      rw [if_pos rfl, if_pos rfl, List.lookup_cons_self]
    · rw [if_neg he, if_neg he, lookup_cons_of_ne (Ne.symm he), ih]

theorem length_alter : (alter f key l).length = l.length + if (l.lookup key).isSome then 0 else 1 := by
  induction l with
  | nil => rfl
  | cons e l ih =>
    obtain ⟨k', v⟩ := e
    unfold alter
    by_cases he : k' = key
    · subst he
      rw [if_pos rfl, List.lookup_cons_self]
      rfl
    · rw [if_neg he, lookup_cons_of_ne (Ne.symm he), List.length_cons, List.length_cons, ih]
      omega

/-- What an update replaces, in a list that the elements are mapped to. -/
theorem flatMap_alter {β : Type} (f : Option V → V) (key : K) (l : List (K × V)) (g : K × V → List β) :
    ((alter f key l).flatMap g ++ ((l.lookup key).map fun v => g (key, v)).getD []).Perm
      (l.flatMap g ++ g (key, f (l.lookup key))) := by
  induction l with
  | nil => simp [alter]
  | cons e l ih =>
    obtain ⟨k', v⟩ := e
    unfold alter
    by_cases he : k' = key
    · subst he
      rw [if_pos rfl, List.lookup_cons_self, List.flatMap_cons, List.flatMap_cons, Option.map_some,
        Option.getD_some]
      refine List.perm_append_comm.trans ?_
      rw [List.append_assoc]
      exact List.perm_append_comm.append_left _
    · rw [if_neg he, lookup_cons_of_ne (Ne.symm he), List.flatMap_cons, List.flatMap_cons,
        List.append_assoc, List.append_assoc]
      exact ih.append_left _

theorem mem_alter {e : K × V} (h : e ∈ alter f key l) : e ∈ l ∨ e = (key, f (l.lookup key)) := by
  induction l with
  | nil => exact .inr (List.mem_singleton.1 h)
  | cons x l ih =>
    obtain ⟨k', v⟩ := x
    unfold alter at h
    by_cases hk : k' = key
    · subst hk
      rw [if_pos rfl] at h
      rcases List.mem_cons.1 h with rfl | h
      · rw [List.lookup_cons_self]
        exact .inr rfl
      · exact .inl (List.mem_cons_of_mem _ h)
    · rw [if_neg hk] at h
      rcases List.mem_cons.1 h with rfl | h
      · exact .inl List.mem_cons_self
      · rw [lookup_cons_of_ne (Ne.symm hk)]
        exact (ih h).imp_left (List.mem_cons_of_mem _)

theorem mem_of_lookup (h : l.lookup key = some v) : (key, v) ∈ l := by
  induction l with
  | nil => cases h
  | cons x l ih =>
    obtain ⟨k', w⟩ := x
    by_cases hk : key = k'
    · subst hk
      rw [List.lookup_cons_self] at h
      rw [Option.some.inj h]
      exact List.mem_cons_self
    · rw [lookup_cons_of_ne hk] at h
      exact List.mem_cons_of_mem _ (ih h)

theorem lookup_of_mem (hkeys : (l.map Prod.fst).Nodup) (h : (key, v) ∈ l) :
    l.lookup key = some v := by
  induction l with
  | nil => cases h
  | cons x l ih =>
    obtain ⟨k', w⟩ := x
    obtain ⟨hk, hkeys⟩ := List.nodup_cons.1 hkeys
    rcases List.mem_cons.1 h with e | h
    · obtain ⟨rfl, rfl⟩ := Prod.mk.inj e
      exact List.lookup_cons_self
    · rw [lookup_cons_of_ne, ih hkeys h]
      exact fun e => hk (List.mem_map.2 ⟨_, h, e⟩)

theorem mem_keys_alter : k ∈ (alter f key l).map Prod.fst ↔ k = key ∨ k ∈ l.map Prod.fst := by
  induction l with
  | nil => simp [alter]
  | cons e l ih =>
    unfold alter
    by_cases he : e.1 = key
    · rw [if_pos he]
      simp only [List.map_cons, List.mem_cons]
      rw [he]
      tauto
    · rw [if_neg he]
      simp only [List.map_cons, List.mem_cons]
      rw [ih]
      tauto

theorem nodup_keys_alter (h : (l.map Prod.fst).Nodup) : ((alter f key l).map Prod.fst).Nodup := by
  induction l with
  | nil => simp [alter]
  | cons e l ih =>
    unfold alter
    rw [List.map_cons, List.nodup_cons] at h
    by_cases he : e.1 = key
    · rw [if_pos he, List.map_cons, List.nodup_cons]
      exact h
    · rw [if_neg he, List.map_cons, List.nodup_cons]
      refine ⟨fun hmem => ?_, ih h.2⟩
      rcases mem_keys_alter.1 hmem with hk | hk
      · exact he hk
      · exact h.1 hk

theorem exists_lookup (h : key ∈ l.map Prod.fst) : ∃ v, l.lookup key = some v ∧ (key, v) ∈ l := by
  induction l with
  | nil => cases h
  | cons x l ih =>
    obtain ⟨k, v⟩ := x
    by_cases hk : key = k
    · subst hk
      exact ⟨v, List.lookup_cons_self, List.mem_cons_self⟩
    · obtain ⟨w, hw, hmem⟩ := ih ((List.mem_cons.1 h).resolve_left hk)
      exact ⟨w, (lookup_cons_of_ne hk).trans hw, List.mem_cons_of_mem _ hmem⟩

theorem alter_cons_self : alter f key ((key, v) :: l) = (key, f (some v)) :: l := if_pos rfl

theorem alter_cons_of_ne (h : k ≠ key) :
    alter f key ((k, v) :: l) = (k, v) :: alter f key l := if_neg h

/-- An update after an update of the same key. -/
theorem alter_alter {f' : Option V → V} :
    alter f key (alter f' key l) = alter (fun o => f (some (f' o))) key l := by
  induction l with
  | nil => exact alter_cons_self
  | cons e l ih =>
    obtain ⟨k', v⟩ := e
    by_cases he : k' = key
    · subst he
      rw [alter_cons_self, alter_cons_self, alter_cons_self]
    · rw [alter_cons_of_ne he, alter_cons_of_ne he, alter_cons_of_ne he, ih]

theorem alter_of_lookup {v d : V} (h : l.lookup key = some v) : alter (fun o => o.getD d) key l = l := by
  induction l with
  | nil => cases h
  | cons e l ih =>
    obtain ⟨k', w⟩ := e
    by_cases he : k' = key
    · subst he
      exact alter_cons_self
    · rw [lookup_cons_of_ne (Ne.symm he)] at h
      rw [alter_cons_of_ne he, ih h]

theorem lookup_map_snd {W : Type} (g : V → W) (key : K) (l : List (K × V)) :
    (l.map fun e => (e.1, g e.2)).lookup key = (l.lookup key).map g := by
  induction l with
  | nil => rfl
  | cons e l ih =>
    obtain ⟨k', v⟩ := e
    by_cases he : key = k'
    · subst he
      rw [List.map_cons, List.lookup_cons_self, List.lookup_cons_self, Option.map_some]
    · rw [List.map_cons, lookup_cons_of_ne he, lookup_cons_of_ne he, ih]

/-- An update that a map of the values turns into another one. -/
theorem map_alter {W : Type} {g : V → W} {f' : Option W → W} (h : ∀ o, g (f o) = f' (o.map g)) :
    (alter f key l).map (fun e => (e.1, g e.2)) = alter f' key (l.map fun e => (e.1, g e.2)) := by
  induction l with
  | nil => exact congrArg (fun w => [(key, w)]) (h none)
  | cons e l ih =>
    obtain ⟨k', v⟩ := e
    by_cases he : k' = key
    · subst he
      rw [alter_cons_self, List.map_cons, List.map_cons, alter_cons_self, h]
      rfl
    · rw [alter_cons_of_ne he, List.map_cons, List.map_cons, alter_cons_of_ne he, ih]

/-! ## Removal -/

theorem erase_alter_of_lookup (h : l.lookup key = none) : erase key (alter f key l) = l := by
  induction l with
  | nil => simp [alter, erase]
  | cons e l ih =>
    obtain ⟨k', v⟩ := e
    by_cases he : key = k'
    · subst he
      rw [List.lookup_cons_self] at h
      cases h
    · rw [lookup_cons_of_ne he] at h
      rw [alter_cons_of_ne (Ne.symm he), erase, List.filter_cons_of_pos (by simpa using Ne.symm he)]
      exact congrArg _ (ih h)

theorem mem_erase {e : K × V} : e ∈ erase key l ↔ e ∈ l ∧ e.1 ≠ key := by
  unfold erase
  rw [List.mem_filter, decide_eq_true_eq]

theorem nodup_keys_erase (h : (l.map Prod.fst).Nodup) : ((erase key l).map Prod.fst).Nodup :=
  h.sublist ((List.filter_sublist).map _)

/-- A removed element, in a table that has each key once. -/
theorem perm_cons_erase (hkeys : (l.map Prod.fst).Nodup) (h : l.lookup key = some v) :
    l.Perm ((key, v) :: erase key l) := by
  induction l with
  | nil => cases h
  | cons x l ih =>
    obtain ⟨k', w⟩ := x
    obtain ⟨hk, hkeys⟩ := List.nodup_cons.1 hkeys
    unfold erase at ih ⊢
    by_cases he : key = k'
    · subst he
      rw [List.lookup_cons_self] at h
      rw [List.filter_cons_of_neg (by simp), Option.some.inj h, List.filter_eq_self.2]
      intro e hmem
      rw [decide_eq_true_eq]
      exact fun e' => hk (List.mem_map.2 ⟨e, hmem, e'⟩)
    · rw [lookup_cons_of_ne he] at h
      rw [List.filter_cons_of_pos (by simpa using Ne.symm he)]
      exact ((ih hkeys h).cons _).trans (List.Perm.swap _ _ _)

end HashTable
