import Mathlib.Data.List.Basic

/-!
# Events regrouped by their keys

A list of events, each with a key, may be replayed in another order as long as the events of each key
keep theirs. Where steps of different keys commute, this makes no difference
(`foldlM_congr_of_ofKey`).
-/

namespace Regroup

variable {K E S : Type} {m : Type → Type} [Monad m] [LawfulMonad m] {f : S → K × E → m S}

/-- The two steps may be made in either order. -/
def Commute (f : S → K × E → m S) (x y : K × E) : Prop :=
  ∀ s, (f s x >>= fun s => f s y) = (f s y >>= fun s => f s x)

theorem foldlM_front {x : K × E} {before : List (K × E)} (hc : ∀ y ∈ before, Commute f y x)
    (after : List (K × E)) (s : S) :
    (before ++ x :: after).foldlM f s = (x :: (before ++ after)).foldlM f s := by
  induction before generalizing s with
  | nil => rfl
  | cons y before ih =>
    have hy := hc y List.mem_cons_self s
    calc (y :: (before ++ x :: after)).foldlM f s
      _ = f s y >>= fun s => (x :: (before ++ after)).foldlM f s := by
        rw [List.foldlM_cons]
        exact congrArg _ (funext fun s => ih (fun z hz => hc z (List.mem_cons_of_mem y hz)) s)
      _ = (f s y >>= fun s => f s x) >>= fun s => (before ++ after).foldlM f s := by
        simp only [List.foldlM_cons, bind_assoc]
      _ = (x :: y :: (before ++ after)).foldlM f s := by
        rw [hy]
        simp only [List.foldlM_cons, bind_assoc]

variable [DecidableEq K] {key : K} {l l' : List (K × E)}

def ofKey (key : K) (l : List (K × E)) : List E :=
  l.filterMap fun pair => if pair.1 = key then some pair.2 else none

theorem ofKey_cons (x : K × E) (l : List (K × E)) :
    ofKey key (x :: l) = if x.1 = key then x.2 :: ofKey key l else ofKey key l := by
  by_cases h : x.1 = key
  · simp [ofKey, h]
  · simp [ofKey, h]

@[simp] theorem ofKey_append (l l' : List (K × E)) :
    ofKey key (l ++ l') = ofKey key l ++ ofKey key l' :=
  List.filterMap_append

theorem ofKey_eq_nil (h : ∀ x ∈ l, x.1 ≠ key) : ofKey key l = [] := by
  refine List.filterMap_eq_nil_iff.2 fun x hx => ?_
  rw [if_neg (h x hx)]

/-- The first event of a key. -/
theorem exists_first {e : E} {es : List E} (h : ofKey key l = e :: es) :
    ∃ before after, l = before ++ (key, e) :: after ∧ (∀ x ∈ before, x.1 ≠ key) ∧
      ofKey key after = es := by
  induction l with
  | nil => cases h
  | cons x l ih =>
    rw [ofKey_cons] at h
    by_cases hx : x.1 = key
    · rw [if_pos hx] at h
      obtain ⟨rfl, rfl⟩ := List.cons.inj h
      subst hx
      exact ⟨[], l, rfl, fun x hx => absurd hx List.not_mem_nil, rfl⟩
    · rw [if_neg hx] at h
      obtain ⟨before, after, rfl, hb, rfl⟩ := ih h
      refine ⟨x :: before, after, rfl, fun y hy => ?_, rfl⟩
      cases hy with
      | head => exact hx
      | tail _ hy => exact hb y hy

theorem eq_nil_of_ofKey (h : ∀ key : K, ofKey key l = []) : l = [] := by
  cases l with
  | nil => rfl
  | cons x l =>
    have hx := h x.1
    rw [ofKey_cons, if_pos rfl] at hx
    cases hx

/-- **Where steps of different keys commute, only the order within each key matters.** -/
theorem foldlM_congr_of_ofKey (hp : ∀ key, ofKey key l = ofKey key l')
    (hc : ∀ x ∈ l, ∀ y ∈ l', y.1 ≠ x.1 → Commute f y x) (s : S) :
    l.foldlM f s = l'.foldlM f s := by
  induction l generalizing l' s with
  | nil => rw [eq_nil_of_ofKey fun key => (hp key).symm]
  | cons x l ih =>
    have hx : ofKey x.1 l' = x.2 :: ofKey x.1 l := by
      rw [← hp x.1, ofKey_cons, if_pos rfl]
    obtain ⟨before, after, rfl, hb, hafter⟩ := exists_first hx
    -- the first event of its key moves to the front, past events of other keys
    rw [foldlM_front fun y hy => hc x List.mem_cons_self y (List.mem_append_left _ hy) (hb y hy)]
    simp only [List.foldlM_cons]
    refine congrArg _ (funext fun s => ih (fun key => ?_) (fun z hz y hy => ?_) s)
    · have hk := hp key
      rw [ofKey_cons, ofKey_append, ofKey_cons] at hk
      rw [ofKey_append]
      by_cases hkey : x.1 = key
      · subst hkey
        rw [ofKey_eq_nil hb, List.nil_append, hafter]
      · rw [if_neg hkey, if_neg hkey] at hk
        exact hk
    · refine hc z (List.mem_cons_of_mem x hz) y ?_
      rcases List.mem_append.1 hy with hy | hy
      · exact List.mem_append_left _ hy
      · exact List.mem_append_right _ (List.mem_cons_of_mem _ hy)

end Regroup
