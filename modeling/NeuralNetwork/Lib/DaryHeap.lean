import NeuralNetwork.Lib.DaryTree

/-!
# The order of a heap of any out-degree

`t i` is what stands at the place `i` of a tree of out-degree `D`, and `r` is a total preorder, `r a b`
for `a` no worse than `b`. `Ordered r D t` says that no place is better than its parent, so that the
root is best (`Ordered.root`). What a sift does is a relation: `Up r D t k t'` for a sift up from the
place `k`, `Down r D t k t'` for a sift down; each puts one place right (`Up.ordered`, `Down.ordered`,
`Ordered.corrected`). The places after the last one in use hold `none`, the worst of all (`orLast`). A
comparison only has to say which of two values is no worse (`Decides`).
-/

namespace DaryHeap

open DaryTree

variable {β : Type} {r : β → β → Prop} {D : Nat} {t t' : Nat → β} {i j k p c : Nat}

structure TotalPreorder (r : β → β → Prop) : Prop where
  trans : ∀ {a b c : β}, r a b → r b c → r a c
  total : ∀ a b : β, r a b ∨ r b a

theorem TotalPreorder.refl (h : TotalPreorder r) (a : β) : r a a := (h.total a a).elim id id

/-- No value is worse than none. -/
def orLast (r : β → β → Prop) : Option β → Option β → Prop
  | _, none => True
  | none, some _ => False
  | some a, some b => r a b

@[simp] theorem orLast_none (a : Option β) : orLast r a none := by
  cases a <;> exact True.intro

theorem TotalPreorder.orLast (h : TotalPreorder r) : TotalPreorder (orLast r) where
  trans {a b c} hab hbc := by
    cases c with
    | none => exact orLast_none a
    | some c =>
      cases b with
      | none => exact hbc.elim
      | some b =>
        cases a with
        | none => exact hab.elim
        | some a => exact h.trans hab hbc
  total a b := by
    cases b with
    | none => exact .inl (orLast_none a)
    | some b =>
      cases a with
      | none => exact .inr (orLast_none _)
      | some a => exact h.total a b

/-- A comparison that says which of two values is no worse. -/
structure Decides (cmp : β → β → Bool) (r : β → β → Prop) : Prop where
  of_true : ∀ {a b : β}, cmp a b = true → r a b
  of_false : ∀ {a b : β}, cmp a b = false → r b a

variable {cmp : β → β → Bool}

theorem TotalPreorder.decides (h : TotalPreorder fun a b => cmp a b = true) :
    Decides cmp fun a b => cmp a b = true where
  of_true hab := hab
  of_false {a b} hab := (h.total a b).resolve_left (by rw [hab]; exact Bool.false_ne_true)

section Keys
variable {γ : Type} [LinearOrder γ] (f : β → γ)

theorem totalPreorder_le : TotalPreorder fun a b => f a ≤ f b where
  trans := le_trans
  total a b := le_total (f a) (f b)

theorem decides_le : Decides (fun a b => decide (f a ≤ f b)) fun a b => f a ≤ f b where
  of_true := of_decide_eq_true
  of_false h := (not_le.1 (of_decide_eq_false h)).le

end Keys

/-- A comparison of what stands at two places. -/
def noWorse (cmp : β → β → Bool) : Option β → Option β → Bool
  | _, none => true
  | none, some _ => false
  | some a, some b => cmp a b

theorem Decides.noWorse (h : Decides cmp r) :
    Decides (noWorse cmp) (DaryHeap.orLast r) where
  of_true {a b} hab := by
    cases b with
    | none => exact orLast_none a
    | some b =>
      cases a with
      | none => cases hab
      | some a => exact h.of_true hab
  of_false {a b} hab := by
    cases a with
    | none => exact orLast_none b
    | some a =>
      cases b with
      | none => cases hab
      | some b => exact h.of_false hab

def Ordered (r : β → β → Prop) (D : Nat) (t : Nat → β) : Prop := ∀ i, 0 < i → r (t (parent D i)) (t i)

/-- What stands at the children of the place `k` is no better than what stands at its parent. -/
def Spans (r : β → β → Prop) (D : Nat) (t : Nat → β) (k : Nat) : Prop :=
  ∀ i, 0 < i → parent D i = k → 0 < k → r (t (parent D k)) (t i)

/-- Ordered but for the place `k` and its parent. -/
def UpTo (r : β → β → Prop) (D : Nat) (t : Nat → β) (k : Nat) : Prop :=
  (∀ i, 0 < i → i ≠ k → r (t (parent D i)) (t i)) ∧ Spans r D t k

/-- Ordered but for the place `k` and its children. -/
def DownFrom (r : β → β → Prop) (D : Nat) (t : Nat → β) (k : Nat) : Prop :=
  (∀ i, 0 < i → parent D i ≠ k → r (t (parent D i)) (t i)) ∧ Spans r D t k

/-- Ordered but for the place `k` and its neighbours. -/
def AllBut (r : β → β → Prop) (D : Nat) (t : Nat → β) (k : Nat) : Prop :=
  (∀ i, 0 < i → i ≠ k → parent D i ≠ k → r (t (parent D i)) (t i)) ∧ Spans r D t k

/-- `b` may stand at the place `k`. -/
def Fits (r : β → β → Prop) (D : Nat) (t : Nat → β) (k : Nat) (b : β) : Prop :=
  (0 < k → r (t (parent D k)) b) ∧ ∀ i, 0 < i → parent D i = k → r b (t i)

def swap (t : Nat → β) (i j : Nat) : Nat → β := fun x => if x = j then t i else if x = i then t j else t x

theorem swap_of_ne {x : Nat} (hi : x ≠ i) (hj : x ≠ j) : swap t i j x = t x := by
  rw [swap, if_neg hj, if_neg hi]

@[simp] theorem swap_right (i j : Nat) : swap t i j j = t i := if_pos rfl

@[simp] theorem swap_left (i j : Nat) : swap t i j i = t j := by
  unfold swap
  by_cases h : i = j
  · rw [if_pos h, h]
  · rw [if_neg h, if_pos rfl]

theorem swap_comm (i j : Nat) : swap t i j = swap t j i := by
  funext x
  by_cases hi : x = i
  · rw [hi, swap_left, swap_right]
  by_cases hj : x = j
  · rw [hj, swap_left, swap_right]
  rw [swap_of_ne hi hj, swap_of_ne hj hi]

/-! ## The root -/

section

variable (hr : TotalPreorder r)

include hr

theorem Ordered.root (h : Ordered r D t) (i : Nat) : r (t 0) (t i) := by
  induction i using Nat.strong_induction_on with
  | _ i ih =>
    by_cases h0 : i = 0
    · rw [h0]
      exact hr.refl _
    · have hpos := Nat.pos_of_ne_zero h0
      exact hr.trans (ih _ (parent_lt hpos)) (h i hpos)

/-! ## Where a correction starts -/

theorem Ordered.spans (h : Ordered r D t) (k : Nat) : Spans r D t k := by
  intro i h0 hp hk
  refine hr.trans (h k hk) ?_
  rw [← hp]
  exact h i h0

theorem Ordered.downFrom (h : Ordered r D t) (k : Nat) : DownFrom r D t k :=
  ⟨fun i h0 _ => h i h0, h.spans hr k⟩

theorem Ordered.change (h : Ordered r D t) (he : ∀ i, i ≠ k → t' i = t i) :
    AllBut r D t' k := by
  refine ⟨fun i h0 hne hp => ?_, fun i h0 hp hk => ?_⟩
  · rw [he i hne, he _ hp]
    exact h i h0
  · have hki : k < i := hp ▸ parent_lt h0
    rw [he i hki.ne', he _ (parent_lt hk).ne]
    exact h.spans hr k i h0 hp hk

/-- What stands at a place may get worse if it stays no worse than its children. -/
theorem Ordered.worsen (h : Ordered r D t) (he : ∀ i, i ≠ k → t' i = t i)
    (hw : r (t k) (t' k)) (hc : ∀ i, 0 < i → parent D i = k → r (t' k) (t i)) : Ordered r D t' := by
  intro i h0
  by_cases hik : i = k
  · subst hik
    rw [he _ (parent_lt h0).ne]
    exact hr.trans (h i h0) hw
  rw [he i hik]
  by_cases hp : parent D i = k
  · rw [hp]
    exact hc i h0 hp
  · rw [he _ hp]
    exact h i h0

end

/-- The last place is no longer in use. -/
def dropAt (t : Nat → Option β) (last i : Nat) : Option β := if i = last then none else t i

theorem Ordered.dropAt (hr : TotalPreorder r) {t : Nat → Option β} {last : Nat}
    (h : Ordered (DaryHeap.orLast r) D t) (hlast : ∀ i, last < i → t i = none) :
    Ordered (DaryHeap.orLast r) D (dropAt t last) := by
  refine h.worsen (k := last) hr.orLast (fun i hi => if_neg hi) ?_ fun i h0 hp => ?_
  · rw [DaryHeap.dropAt, if_pos rfl]
    exact orLast_none _
  · rw [hlast i (hp ▸ parent_lt h0)]
    exact orLast_none _

theorem dropAt_swap_self (t : Nat → Option β) (last : Nat) :
    DaryHeap.dropAt (swap t last last) last = DaryHeap.dropAt t last := by
  funext i
  unfold DaryHeap.dropAt
  by_cases hl : i = last
  · rw [if_pos hl, if_pos hl]
  · rw [if_neg hl, if_neg hl, swap_of_ne hl hl]

/-- The last place changes places with another one, and is no longer in use. -/
theorem Ordered.dropSwapped (hr : TotalPreorder r) {t : Nat → Option β} {last : Nat}
    (h : Ordered (DaryHeap.orLast r) D t) (hlast : ∀ i, last < i → t i = none) :
    AllBut (DaryHeap.orLast r) D (DaryHeap.dropAt (swap t k last) last) k := by
  refine (h.dropAt hr hlast).change hr.orLast fun i hi => ?_
  unfold DaryHeap.dropAt
  by_cases hl : i = last
  · rw [if_pos hl, if_pos hl]
  · rw [if_neg hl, if_neg hl, swap_of_ne hi hl]

/-- A place with nothing below it was filled. -/
theorem AllBut.upTo (h : AllBut r D t k) (hc : ∀ i, 0 < i → parent D i = k → r (t k) (t i)) :
    UpTo r D t k := by
  refine ⟨fun i h0 hne => ?_, h.2⟩
  by_cases hp : parent D i = k
  · rw [hp]
    exact hc i h0 hp
  · exact h.1 i h0 hne hp

theorem AllBut.down (h : AllBut r D t k) (hge : 0 < k → r (t (parent D k)) (t k)) :
    DownFrom r D t k := by
  refine ⟨fun i h0 hp => ?_, h.2⟩
  by_cases hne : i = k
  · subst hne
    exact hge h0
  · exact h.1 i h0 hne hp

/-! ## Sifting up -/

/-- A sift up from the place `k`. What stands there may also change places with a place before it whose
value fits. -/
inductive Up (r : β → β → Prop) (D : Nat) : (Nat → β) → Nat → (Nat → β) → Prop
  | stop {t : Nat → β} {k : Nat} : (0 < k → r (t (parent D k)) (t k)) → Up r D t k t
  | swap {t t' : Nat → β} {k : Nat} : 0 < k → r (t k) (t (parent D k)) →
      Up r D (swap t k (parent D k)) (parent D k) t' → Up r D t k t'
  | move {t t' : Nat → β} {k p : Nat} : p < k → r (t k) (t p) → Fits r D t k (t p) →
      Up r D (DaryHeap.swap t k p) p t' → Up r D t k t'

theorem UpTo.ordered (h : UpTo r D t k) (hge : 0 < k → r (t (parent D k)) (t k)) : Ordered r D t := by
  intro i h0
  by_cases hne : i = k
  · subst hne
    exact hge h0
  · exact h.1 i h0 hne

/-- What stands at the place `k` changes places with what stands at a place before it and fits. -/
theorem AllBut.move (hr : TotalPreorder r) (h : AllBut r D t k) (hpk : p < k) (hlt : r (t k) (t p))
    (hfit : Fits r D t k (t p)) : UpTo r D (DaryHeap.swap t k p) p := by
  have hk : 0 < k := by omega
  -- an edge away from the place `k`
  have hedge : ∀ i, 0 < i → i ≠ p → i ≠ k → parent D i ≠ k →
      r (DaryHeap.swap t k p (parent D i)) (t i) := by
    intro i h0 hip hik hki
    have hold := h.1 i h0 hik hki
    by_cases hpi : parent D i = p
    · rw [hpi, swap_right]
      rw [hpi] at hold
      exact hr.trans hlt hold
    · rwa [swap_of_ne hki hpi]
  refine ⟨fun i h0 hne => ?_, fun i h0 hpi h0p => ?_⟩
  · by_cases hik : i = k
    · subst hik
      rw [swap_left]
      by_cases hpp : parent D i = p
      · rw [hpp, swap_right]
        exact hlt
      · rw [swap_of_ne (parent_lt h0).ne hpp]
        exact hfit.1 hk
    · rw [swap_of_ne hik hne]
      by_cases hki : parent D i = k
      · rw [hki, swap_left]
        exact hfit.2 i h0 hki
      · exact hedge i h0 hne hik hki
  · have hpp := parent_lt (D := D) h0p
    rw [swap_of_ne (hpp.trans hpk).ne hpp.ne]
    have habove : r (t (parent D p)) (t p) := h.1 p h0p hpk.ne (hpp.trans hpk).ne
    by_cases hik : i = k
    · subst hik
      rw [swap_left]
      exact habove
    · have hip : p < i := hpi ▸ parent_lt h0
      rw [swap_of_ne hik hip.ne']
      have hold := h.1 i h0 hik (by rw [hpi]; exact hpk.ne)
      rw [hpi] at hold
      exact hr.trans habove hold

theorem UpTo.allBut (h : UpTo r D t k) : AllBut r D t k := ⟨fun i h0 hne _ => h.1 i h0 hne, h.2⟩

/-- What stands at the parent fits. -/
theorem Spans.fits (hr : TotalPreorder r) (h : Spans r D t k) (hk : 0 < k) :
    Fits r D t k (t (parent D k)) :=
  ⟨fun _ => hr.refl _, fun i h0 hp => h i h0 hp hk⟩

theorem AllBut.swap (hr : TotalPreorder r) (h : AllBut r D t k) (hk : 0 < k)
    (hlt : r (t k) (t (parent D k))) : UpTo r D (DaryHeap.swap t k (parent D k)) (parent D k) :=
  h.move hr (parent_lt hk) hlt (h.2.fits hr hk)

/-- **A sift up puts a place right that may only be better than its parent.** -/
theorem Up.ordered (hr : TotalPreorder r) (h : UpTo r D t k) (hup : Up r D t k t') : Ordered r D t' := by
  induction hup with
  | stop hge => exact h.ordered hge
  | swap hk hlt _ ih => exact ih (h.allBut.swap hr hk hlt)
  | move hpk hlt hfit _ ih => exact ih (h.allBut.move hr hpk hlt hfit)

/-! ## Sifting down -/

/-- A sift down from the place `k`: it changes places with a best child. -/
inductive Down (r : β → β → Prop) (D : Nat) : (Nat → β) → Nat → (Nat → β) → Prop
  | stop {t : Nat → β} {k : Nat} : (∀ i, 0 < i → parent D i = k → r (t k) (t i)) → Down r D t k t
  | swap {t t' : Nat → β} {k c : Nat} : 0 < c → parent D c = k → r (t c) (t k) →
      (∀ i, 0 < i → parent D i = k → r (t c) (t i)) → Down r D (swap t k c) c t' → Down r D t k t'

theorem DownFrom.ordered (h : DownFrom r D t k) (hge : ∀ i, 0 < i → parent D i = k → r (t k) (t i)) :
    Ordered r D t := by
  intro i h0
  by_cases hp : parent D i = k
  · rw [hp]
    exact hge i h0 hp
  · exact h.1 i h0 hp

theorem DownFrom.swap (h : DownFrom r D t k) (hc : 0 < c) (hp : parent D c = k) (hlt : r (t c) (t k))
    (hbest : ∀ i, 0 < i → parent D i = k → r (t c) (t i)) : DownFrom r D (swap t k c) c := by
  have hkc : k < c := hp ▸ parent_lt hc
  refine ⟨fun i h0 hpi => ?_, fun i h0 hpi _ => ?_⟩
  · by_cases hic : i = c
    · subst hic
      rw [hp, swap_right, swap_left]
      exact hlt
    · by_cases hik : i = k
      · subst hik
        have hpk := parent_lt (D := D) h0
        rw [swap_left, swap_of_ne hpk.ne (hpk.trans hkc).ne]
        exact h.2 c hc hp h0
      · rw [swap_of_ne hik hic]
        by_cases hpk : parent D i = k
        · rw [hpk, swap_left]
          exact hbest i h0 hpk
        · rw [swap_of_ne hpk hpi]
          exact h.1 i h0 hpk
  · have hci : c < i := hpi ▸ parent_lt h0
    rw [hp, swap_left, swap_of_ne (hkc.trans hci).ne' hci.ne']
    have := h.1 i h0 (by rw [hpi]; exact hkc.ne')
    rwa [hpi] at this

/-- **A sift down puts a place right that may only be worse than its children.** -/
theorem Down.ordered (h : DownFrom r D t k) (hd : Down r D t k t') : Ordered r D t' := by
  induction hd with
  | stop hge => exact h.ordered hge
  | swap hc hp hlt hbest _ ih => exact ih (h.swap hc hp hlt hbest)

/-! ## The best child -/

/-- `m` more rounds, from the child number `i` on, of the loop that looks for the best child of the
place `k`; the loop ends at the first place that is not in use. -/
def bestChildFrom (better : Nat → Nat → Bool) (D n k : Nat) : Nat → Nat → Option Nat → Option Nat
  | 0, _, cand => cand
  | m + 1, i, cand =>
    let childIdx := child D k i
    if n ≤ childIdx then cand
    else bestChildFrom better D n k m (i + 1) <|
      match cand with
      | none => some childIdx
      | some c => if better childIdx c then some childIdx else some c

def bestChild (better : Nat → Nat → Bool) (D n k : Nat) : Option Nat :=
  bestChildFrom better D n k D 0 none

section
variable {cmp : β → β → Bool} {n m : Nat} {cand : Option Nat} {better better' : Nat → Nat → Bool}

theorem bestChildFrom_congr (he : ∀ a b, a < n → b < n → better' a b = better a b)
    (hcand : ∀ c, cand = some c → c < n) :
    bestChildFrom better' D n k m i cand = bestChildFrom better D n k m i cand := by
  induction m generalizing i cand with
  | zero => rfl
  | succ m ih =>
    unfold bestChildFrom
    by_cases hn : n ≤ child D k i
    · rw [if_pos hn, if_pos hn]
    · rw [if_neg hn, if_neg hn]
      have hn' := Nat.lt_of_not_le hn
      cases cand with
      | none =>
        refine ih fun c hc => ?_
        cases hc
        exact hn'
      | some c =>
        dsimp only
        rw [he _ _ hn' (hcand c rfl)]
        refine ih fun c' hc' => ?_
        split at hc'
        · cases hc'
          exact hn'
        · exact hcand c' hc'

theorem bestChild_congr (he : ∀ a b, a < n → b < n → better' a b = better a b) :
    bestChild better' D n k = bestChild better D n k :=
  bestChildFrom_congr he fun _ hc => by cases hc

/-- `cand` is the best of the first `i` children. -/
def IsBest (r : β → β → Prop) (D n : Nat) (t : Nat → β) (k i : Nat) : Option Nat → Prop
  | none => i = 0
  | some c => (∃ j, j < D ∧ c = child D k j) ∧ c < n ∧ ∀ j, j < i → r (t c) (t (child D k j))

theorem bestChildFrom_isBest (hr : TotalPreorder r) (hcmp : Decides cmp r)
    (hlast : ∀ b i, n ≤ i → r b (t i)) (hm : i + m = D) (h : IsBest r D n t k i cand) :
    (bestChildFrom (fun a b => cmp (t a) (t b)) D n k m i cand = none ∧ n ≤ child D k 0) ∨
      IsBest r D n t k D (bestChildFrom (fun a b => cmp (t a) (t b)) D n k m i cand) := by
  induction m generalizing i cand with
  | zero =>
    obtain rfl : i = D := hm
    exact .inr h
  | succ m ih =>
    unfold bestChildFrom
    by_cases hn : n ≤ child D k i
    · rw [if_pos hn]
      cases cand with
      | none =>
        obtain rfl : i = 0 := h
        exact .inl ⟨rfl, hn⟩
      | some c =>
        obtain ⟨hc, hcn, hbest⟩ := h
        refine .inr ⟨hc, hcn, fun j hj => ?_⟩
        by_cases hji : j < i
        · exact hbest j hji
        · apply hlast
          unfold child at hn ⊢
          omega
    · rw [if_neg hn]
      have hn' := Nat.lt_of_not_le hn
      refine ih (by omega) ?_
      cases cand with
      | none =>
        obtain rfl : i = 0 := h
        refine ⟨⟨0, by omega, rfl⟩, hn', fun j hj => ?_⟩
        obtain rfl : j = 0 := by omega
        exact hr.refl _
      | some c =>
        obtain ⟨hc, hcn, hbest⟩ := h
        dsimp only
        cases hb : cmp (t (child D k i)) (t c) with
        | true =>
          have hlt := hcmp.of_true hb
          refine ⟨⟨i, by omega, rfl⟩, hn', fun j hj => ?_⟩
          by_cases hji : j < i
          · exact hr.trans hlt (hbest j hji)
          · obtain rfl : j = i := by omega
            exact hr.refl _
        | false =>
          refine ⟨hc, hcn, fun j hj => ?_⟩
          by_cases hji : j < i
          · exact hbest j hji
          · obtain rfl : j = i := by omega
            exact hcmp.of_false hb

/-- The loop finds no child, or one that is in use and no worse than any other. -/
theorem bestChild_spec (hD : 0 < D) (hr : TotalPreorder r) (hcmp : Decides cmp r)
    (hlast : ∀ b i, n ≤ i → r b (t i)) (k : Nat) :
    (bestChild (fun a b => cmp (t a) (t b)) D n k = none ∧
        ∀ i, 0 < i → parent D i = k → r (t k) (t i)) ∨
      ∃ c, bestChild (fun a b => cmp (t a) (t b)) D n k = some c ∧ 0 < c ∧ c < n ∧ parent D c = k ∧
        ∀ i, 0 < i → parent D i = k → r (t c) (t i) := by
  have hchild : ∀ i, 0 < i → parent D i = k → ∃ j, j < D ∧ i = child D k j := by
    intro i h0 hp
    rw [← hp]
    exact exists_child hD h0
  rcases bestChildFrom_isBest hr hcmp hlast (Nat.zero_add D)
    (show IsBest r D n t k 0 none from rfl) with ⟨e, hn⟩ | hbest
  · refine .inl ⟨e, fun i h0 hp => ?_⟩
    obtain ⟨j, -, rfl⟩ := hchild i h0 hp
    apply hlast
    unfold child at hn ⊢
    omega
  · cases e : bestChildFrom (fun a b => cmp (t a) (t b)) D n k D 0 none with
    | none =>
      rw [e] at hbest
      have : D = 0 := hbest
      omega
    | some c =>
      rw [e] at hbest
      obtain ⟨⟨j, hj, rfl⟩, hcn, hbest⟩ := hbest
      refine .inr ⟨_, e, ?_, hcn, parent_child hj, fun i h0 hp => ?_⟩
      · unfold child
        omega
      · obtain ⟨j', hj', rfl⟩ := hchild i h0 hp
        exact hbest j' hj'

/-- In a binary heap the loop compares the two children. -/
theorem bestChild_two (better : Nat → Nat → Bool) (hn : k * 2 + 1 < n) : bestChild better 2 n k =
    some (if k * 2 + 1 + 1 < n ∧ better (k * 2 + 1 + 1) (k * 2 + 1) = true then k * 2 + 1 + 1
      else k * 2 + 1) := by
  unfold bestChild bestChildFrom child
  dsimp only
  rw [if_neg (Nat.not_le.2 hn)]
  unfold bestChildFrom child
  dsimp only
  by_cases hr : n ≤ k * 2 + 1 + 1
  · rw [if_pos hr, if_neg fun h => absurd h.1 (Nat.not_lt.2 hr)]
  · rw [if_neg hr, bestChildFrom]
    simp only [Nat.lt_of_not_le hr, true_and]
    split <;> rfl

theorem best_of_two (hr : TotalPreorder r) (hcmp : Decides cmp r) (hlast : ∀ b i, n ≤ i → r b (t i))
    (hn : k * 2 + 1 < n) (hc : (if k * 2 + 1 + 1 < n ∧ cmp (t (k * 2 + 1 + 1)) (t (k * 2 + 1)) = true
      then k * 2 + 1 + 1 else k * 2 + 1) = c) :
    0 < c ∧ c < n ∧ parent 2 c = k ∧ ∀ i, 0 < i → parent 2 i = k → r (t c) (t i) := by
  have htwo := (bestChild_two (fun a b => cmp (t a) (t b)) hn).trans (congrArg some hc)
  rcases bestChild_spec Nat.two_pos hr hcmp hlast k with ⟨e, -⟩ | ⟨c', e, h⟩
  · cases htwo.symm.trans e
  · cases htwo.symm.trans e
    exact h

theorem leaf_of_two {b : β} (hlast : ∀ b i, n ≤ i → r b (t i)) (hn : n ≤ k * 2 + 1) :
    ∀ i, 0 < i → parent 2 i = k → r b (t i) := by
  intro i h0 hp
  refine hlast b i ?_
  unfold parent at hp
  omega

end

/-! ## Both -/

/-- A sift up either leaves a place to be sifted down, or puts it right. -/
theorem Up.corrected (hr : TotalPreorder r) (h : AllBut r D t k) (hup : Up r D t k t') :
    DownFrom r D t' k := by
  cases hup with
  | stop hge => exact h.down hge
  | swap hk hlt hup => exact (hup.ordered hr (h.swap hr hk hlt)).downFrom hr k
  | move hpk hlt hfit hup => exact (hup.ordered hr (h.move hr hpk hlt hfit)).downFrom hr k

/-- **Sifting a place up and then down puts it right, whatever stands there.** -/
theorem Ordered.corrected (hr : TotalPreorder r) {t1 : Nat → β} (h : AllBut r D t k)
    (hup : Up r D t k t1) (hd : Down r D t1 k t') : Ordered r D t' :=
  hd.ordered (hup.corrected hr h)

/-! ## Lists -/

/-- No element of a list is better than its parent. -/
def IsHeap (r : β → β → Prop) (D : Nat) (l : List β) : Prop := Ordered (orLast r) D fun i => l[i]?

theorem IsHeap.root (hr : TotalPreorder r) {a : β} {l : List β} (h : IsHeap r D (a :: l)) : ∀ b ∈ l, r a b := by
  intro b hb
  obtain ⟨i, hi⟩ := List.mem_iff_getElem?.1 hb
  have := Ordered.root hr.orLast h (i + 1)
  rw [List.getElem?_cons_zero, List.getElem?_cons_succ, hi] at this
  exact this

theorem isHeap_iff {l : List β} : IsHeap r D l ↔
    ∀ i a b, 0 < i → l[parent D i]? = some a → l[i]? = some b → r a b := by
  refine ⟨fun h i a b h0 ha hb => ?_, fun h i h0 => ?_⟩
  · have := h i h0
    dsimp only at this
    rwa [ha, hb] at this
  · dsimp only
    by_cases hi : i < l.length
    · have ha := List.getElem?_eq_getElem ((parent_lt (D := D) h0).trans hi)
      have hb := List.getElem?_eq_getElem hi
      rw [ha, hb]
      exact h i _ _ h0 ha hb
    · rw [List.getElem?_eq_none (Nat.le_of_not_lt hi)]
      exact orLast_none _

theorem isHeap_nil : IsHeap r D [] := fun _ _ => orLast_none _

end DaryHeap
