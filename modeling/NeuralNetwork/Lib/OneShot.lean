import Mathlib.Data.List.Perm.Basic
import Mathlib.Logic.Function.Basic
import Mathlib.Logic.Relation

/-!
# One-shot listeners

Listeners register at keys, and a value that is delivered at a key takes the listener off that waits
there. Whatever the order of registrations, deliveries and drops (`Next`), a listener takes at most
one value, the first that was delivered at its key since it registered; and one that neither waits nor
took a value was dropped (`Inv.steps`).
-/

namespace OneShot

/-- `registered s k n`: `s` registered at `k` after `n` deliveries. `gone s`: it does not wait any
longer, whether it took a value or not. -/
structure State (K S V : Type) where
  waiting : K → Option S
  deliveries : List (K × V)
  taken : List (S × V)
  registered : S → K → Nat → Prop
  gone : S → Prop

variable {K S V : Type} [DecidableEq K] {st st' st'' : State K S V}

inductive Next : State K S V → State K S V → Prop
  /-- The new listeners `f`, each at one key. -/
  | register (st : State K S V) (f : K → Option S) :
    (∀ k s, f k = some s → st.waiting k = none ∧ (∀ k' n, ¬ st.registered s k' n) ∧ ¬ st.gone s) →
    (∀ k k' s, f k = some s → f k' = some s → k = k') →
    Next st { st with
      waiting := fun k => (f k).or (st.waiting k)
      registered := fun s k n => st.registered s k n ∨ f k = some s ∧ n = st.deliveries.length }
  | deliver (st : State K S V) (k : K) (v : V) :
    Next st { st with
      waiting := Function.update st.waiting k none
      deliveries := st.deliveries ++ [(k, v)]
      taken := st.taken ++ (st.waiting k).toList.map (·, v) }
  | drop (st : State K S V) (p : K → Prop) [DecidablePred p] (gone : S → Prop) :
    (∀ s, st.gone s → gone s) → (∀ k s, st.waiting k = some s → (p k ↔ gone s)) →
    Next st { st with waiting := fun k => if p k then none else st.waiting k, gone }
  | reorder (st : State K S V) (taken : List (S × V)) : st.taken.Perm taken →
    Next st { st with taken }

abbrev Steps : State K S V → State K S V → Prop := Relation.ReflTransGen Next

/-- The first delivery at `k` after `n` of them. -/
def first (st : State K S V) (k : K) (n : Nat) : Option (K × V) :=
  (st.deliveries.drop n).find? (·.1 = k)

structure Inv (st : State K S V) : Prop where
  unique : ∀ s k k' n n', st.registered s k n → st.registered s k' n' → k = k' ∧ n = n'
  bound : ∀ s k n, st.registered s k n → n ≤ st.deliveries.length
  waiting : ∀ k s, st.waiting k = some s → ∃ n, st.registered s k n ∧ first st k n = none
  taken : ∀ s v, (s, v) ∈ st.taken → ∃ k n, st.registered s k n ∧ first st k n = some (k, v)
  untaken : ∀ k s, st.waiting k = some s → s ∉ st.taken.map Prod.fst
  present : ∀ k s, st.waiting k = some s → ¬ st.gone s
  nodup : (st.taken.map Prod.fst).Nodup
  complete : ∀ s k n, st.registered s k n →
    st.waiting k = some s ∨ s ∈ st.taken.map Prod.fst ∨ st.gone s

/-- A listener waits at one key. -/
theorem Inv.key (h : Inv st) {k k' : K} {s : S} (hk : st.waiting k = some s)
    (hk' : st.waiting k' = some s) : k = k' := by
  obtain ⟨n, hn, -⟩ := h.waiting k s hk
  obtain ⟨n', hn', -⟩ := h.waiting k' s hk'
  exact (h.unique s k k' n n' hn hn').1

theorem Inv.register (h : Inv st) {f : K → Option S}
    (hnew : ∀ k s, f k = some s →
      st.waiting k = none ∧ (∀ k' n, ¬ st.registered s k' n) ∧ ¬ st.gone s)
    (hinj : ∀ k k' s, f k = some s → f k' = some s → k = k') :
    Inv { st with
      waiting := fun k => (f k).or (st.waiting k)
      registered := fun s k n => st.registered s k n ∨ f k = some s ∧ n = st.deliveries.length } := by
  refine ⟨?_, ?_, ?_, fun s v hm => ?_, ?_, ?_, h.nodup, ?_⟩
  · rintro s k k' n n' (hr | ⟨hf, rfl⟩) (hr' | ⟨hf', rfl⟩)
    · exact h.unique s k k' n n' hr hr'
    · exact absurd hr ((hnew k' s hf').2.1 k n)
    · exact absurd hr' ((hnew k s hf).2.1 k' n')
    · exact ⟨hinj k k' s hf hf', rfl⟩
  · rintro s k n (hr | ⟨-, rfl⟩)
    · exact h.bound s k n hr
    · exact Nat.le_refl _
  · intro k s hw
    dsimp only at hw
    cases hf : f k with
    | some s' =>
      rw [hf, Option.some_or] at hw
      cases hw
      refine ⟨st.deliveries.length, .inr ⟨hf, rfl⟩, ?_⟩
      unfold first
      rw [List.drop_length]
      rfl
    | none =>
      rw [hf, Option.none_or] at hw
      obtain ⟨n, hr, hnone⟩ := h.waiting k s hw
      exact ⟨n, .inl hr, hnone⟩
  · obtain ⟨k, n, hr, hfirst⟩ := h.taken s v hm
    exact ⟨k, n, .inl hr, hfirst⟩
  · intro k s hw hm
    dsimp only at hw
    cases hf : f k with
    | some s' =>
      rw [hf, Option.some_or] at hw
      cases hw
      obtain ⟨x, hx, rfl⟩ := List.mem_map.1 hm
      obtain ⟨k', n, hr, -⟩ := h.taken x.1 x.2 hx
      exact (hnew k x.1 hf).2.1 k' n hr
    | none =>
      rw [hf, Option.none_or] at hw
      exact h.untaken k s hw hm
  · intro k s hw
    dsimp only at hw
    cases hf : f k with
    | some s' =>
      rw [hf, Option.some_or] at hw
      cases hw
      exact (hnew k s hf).2.2
    | none =>
      rw [hf, Option.none_or] at hw
      exact h.present k s hw
  · rintro s k n (hr | ⟨hf, -⟩)
    · rcases h.complete s k n hr with hw | hrest
      · left
        dsimp only
        cases hf : f k with
        | some s' =>
          rw [(hnew k s' hf).1] at hw
          cases hw
        | none => exact hw
      · exact .inr hrest
    · left
      dsimp only
      rw [hf]
      rfl

theorem first_append (deliveries : List (K × V)) {n : Nat} (hn : n ≤ deliveries.length) (k k' : K)
    (v : V) : ((deliveries ++ [(k, v)]).drop n).find? (·.1 = k') =
      ((deliveries.drop n).find? (·.1 = k')).or (if k = k' then some (k, v) else none) := by
  rw [List.drop_append_of_le_length hn, List.find?_append]
  by_cases hk : k = k'
  · rw [if_pos hk, List.find?_cons_of_pos (by simpa using hk)]
  · rw [if_neg hk, List.find?_cons_of_neg (by simpa using hk)]
    rfl

theorem Inv.deliver (h : Inv st) (k : K) (v : V) :
    Inv { st with
      waiting := Function.update st.waiting k none
      deliveries := st.deliveries ++ [(k, v)]
      taken := st.taken ++ (st.waiting k).toList.map (·, v) } := by
  have hbound : ∀ s k' n, st.registered s k' n → n ≤ (st.deliveries ++ [(k, v)]).length := by
    intro s k' n hr
    rw [List.length_append]
    exact Nat.le_trans (h.bound s k' n hr) (Nat.le_add_right _ _)
  have hwaiting : ∀ k' s, Function.update st.waiting k none k' = some s →
      k ≠ k' ∧ st.waiting k' = some s := by
    intro k' s hw
    by_cases hk : k' = k
    · subst hk
      rw [Function.update_self] at hw
      cases hw
    · rw [Function.update_of_ne hk] at hw
      exact ⟨Ne.symm hk, hw⟩
  have hmem : ∀ s, s ∈ (st.taken ++ (st.waiting k).toList.map (·, v)).map Prod.fst ↔
      s ∈ st.taken.map Prod.fst ∨ st.waiting k = some s := by
    intro s
    cases hw : st.waiting k with
    | none => simp
    | some s' => simp [eq_comm]
  refine ⟨h.unique, hbound, fun k' s hw => ?_, fun s v' hm => ?_, fun k' s hw hm => ?_,
    fun k' s hw => h.present k' s (hwaiting k' s hw).2, ?_, fun s k' n hr => ?_⟩
  · obtain ⟨hne, hw⟩ := hwaiting k' s hw
    obtain ⟨n, hr, hnone⟩ := h.waiting k' s hw
    refine ⟨n, hr, ?_⟩
    unfold first at hnone ⊢
    rw [first_append _ (h.bound s k' n hr), hnone, if_neg hne]
    rfl
  · rcases List.mem_append.1 hm with hm | hm
    · obtain ⟨k', n, hr, hfirst⟩ := h.taken s v' hm
      refine ⟨k', n, hr, ?_⟩
      unfold first at hfirst ⊢
      rw [first_append _ (h.bound s k' n hr), hfirst]
      rfl
    · obtain ⟨s', hs', he⟩ := List.mem_map.1 hm
      cases he
      obtain ⟨n, hr, hnone⟩ := h.waiting k s (Option.mem_toList.1 hs')
      refine ⟨k, n, hr, ?_⟩
      unfold first at hnone ⊢
      rw [first_append _ (h.bound s k n hr), hnone, if_pos rfl]
      rfl
  · obtain ⟨hne, hw⟩ := hwaiting k' s hw
    rcases (hmem s).1 hm with hm | hk
    · exact h.untaken k' s hw hm
    · exact hne (h.key hk hw)
  · rw [List.map_append]
    refine List.nodup_append.2 ⟨h.nodup, ?_, ?_⟩
    · cases st.waiting k with
      | none => exact List.nodup_nil
      | some s => simp
    · intro a ha b hb hab
      obtain ⟨x, hx, rfl⟩ := List.mem_map.1 hb
      obtain ⟨s, hs, rfl⟩ := List.mem_map.1 hx
      replace hab : a = s := hab
      rw [hab] at ha
      exact h.untaken k s (Option.mem_toList.1 hs) ha
  · rcases h.complete s k' n hr with hw | hm | hgone
    · by_cases hk : k' = k
      · subst hk
        exact .inr (.inl ((hmem s).2 (.inr hw)))
      · left
        dsimp only
        rw [Function.update_of_ne hk]
        exact hw
    · exact .inr (.inl ((hmem s).2 (.inl hm)))
    · exact .inr (.inr hgone)

theorem Inv.next (h : Inv st) (hn : Next st st') : Inv st' := by
  cases hn with
  | register f hnew hinj => exact h.register hnew hinj
  | deliver k v => exact h.deliver k v
  | @drop p _ gone hmono hgone =>
    have hwaiting : ∀ k s, (if p k then none else st.waiting k) = some s →
        ¬ p k ∧ st.waiting k = some s := by
      intro k s hw
      by_cases hp : p k
      · rw [if_pos hp] at hw
        cases hw
      · rw [if_neg hp] at hw
        exact ⟨hp, hw⟩
    refine ⟨h.unique, h.bound, fun k s hw => h.waiting k s (hwaiting k s hw).2, h.taken,
      fun k s hw => h.untaken k s (hwaiting k s hw).2, fun k s hw hg => ?_, h.nodup,
      fun s k n hr => ?_⟩
    · obtain ⟨hp, hw⟩ := hwaiting k s hw
      exact hp ((hgone k s hw).2 hg)
    · rcases h.complete s k n hr with hw | hm | hg
      · by_cases hp : p k
        · exact .inr (.inr ((hgone k s hw).1 hp))
        · left
          dsimp only
          rw [if_neg hp]
          exact hw
      · exact .inr (.inl hm)
      · exact .inr (.inr (hmono s hg))
  | reorder taken hperm =>
    have hfst := hperm.map Prod.fst
    refine ⟨h.unique, h.bound, h.waiting, fun s v hm => h.taken s v (hperm.mem_iff.2 hm),
      fun k s hw hm => h.untaken k s hw (hfst.mem_iff.2 hm), h.present, hfst.nodup_iff.1 h.nodup,
      fun s k n hr => ?_⟩
    rcases h.complete s k n hr with hw | hm | hg
    · exact .inl hw
    · exact .inr (.inl (hfst.mem_iff.1 hm))
    · exact .inr (.inr hg)

/-- **What holds is kept by any number of steps.** -/
theorem Inv.steps (h : Inv st) (hs : Steps st st') : Inv st' := by
  induction hs with
  | refl => exact h
  | tail _ hn ih => exact ih.next hn

end OneShot
