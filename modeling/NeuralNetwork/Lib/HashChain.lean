import Mathlib.Data.List.Perm.Subperm
import Mathlib.Tactic.Ring

/-!
# Hash tables with chained cells

A memory `Mem` of buckets and cells, each holding the address of a cell or null, is a chained table
(`Chained`) when following the links from every bucket runs through exactly the cells whose key
belongs to the bucket, each once, and ends in null. The four ways a table changes keep it:
linking a new cell at the end of a chain (`Chained.insert`), taking a cell out (`Chained.unlink`),
moving a cell to a free address (`Chained.move`), and the two of them together, which is how a
table with dense storage erases a cell (`Chained.erase`).
-/

namespace HashChain

universe u

variable {K : Type u}

/-- A place that holds an address: the head of a bucket or the link of a cell. -/
inductive Ref where
  | bucket (b : Nat)
  | next (v : Nat)
deriving DecidableEq, Repr

/-- Buckets and cells; a cell is a key and a link. -/
structure Mem (K : Type u) where
  bucket : Nat → Option Nat
  cell : Nat → Option (K × Option Nat)

namespace Mem

variable (T : Mem K)

def read : Ref → Option Nat
  | .bucket b => T.bucket b
  | .next v => (T.cell v).bind Prod.snd

def write (r : Ref) (x : Option Nat) : Mem K :=
  match r with
  | .bucket b => { T with bucket := Function.update T.bucket b x }
  | .next v => { T with cell := Function.update T.cell v ((T.cell v).map fun c => (c.1, x)) }

def setCell (v : Nat) (c : Option (K × Option Nat)) : Mem K :=
  { T with cell := Function.update T.cell v c }

/-- The key of the cell at an address. -/
def key (v : Nat) : Option K := (T.cell v).map Prod.fst

/-- A place that exists: buckets always do, links when their cell does. -/
def HasRef : Ref → Prop
  | .bucket _ => True
  | .next v => T.cell v ≠ none

variable {T}

theorem ext_of {T' : Mem K} (hb : ∀ b, T.bucket b = T'.bucket b) (hc : ∀ v, T.cell v = T'.cell v) :
    T = T' := by
  cases T
  cases T'
  simp only [mk.injEq]
  exact ⟨funext hb, funext hc⟩

variable {v : Nat} {r : Ref}

theorem read_write_self (x : Option Nat) (h : T.HasRef r) : (T.write r x).read r = x := by
  cases r with
  | bucket b => simp [read, write]
  | next v =>
    obtain ⟨c, hc⟩ := Option.ne_none_iff_exists'.1 h
    simp [read, write, hc]

theorem read_write_of_ne {r r' : Ref} (x : Option Nat) (h : r' ≠ r) :
    (T.write r x).read r' = T.read r' := by
  cases r with
  | bucket b =>
    cases r' with
    | bucket b' =>
      have : b' ≠ b := fun e => h (e ▸ rfl)
      simp [read, write, this]
    | next v => simp [read, write]
  | next v =>
    cases r' with
    | bucket b => simp [read, write]
    | next v' =>
      have : v' ≠ v := fun e => h (e ▸ rfl)
      simp [read, write, this]

@[simp] theorem key_write (r : Ref) (x : Option Nat) (v : Nat) : (T.write r x).key v = T.key v := by
  cases r with
  | bucket b => rfl
  | next w =>
    by_cases h : v = w
    · subst h
      cases e : T.cell v <;> simp [key, write, e]
    · simp [key, write, h]

theorem cell_write_of_ne (x : Option Nat) (h : r ≠ .next v) :
    (T.write r x).cell v = T.cell v := by
  cases r with
  | bucket b => rfl
  | next w =>
    have : v ≠ w := fun e => h (e ▸ rfl)
    simp [write, this]

theorem cell_write_isNone {x : Option Nat} :
    (T.write r x).cell v = none ↔ T.cell v = none := by
  rw [← Option.map_eq_none_iff (f := Prod.fst), ← Option.map_eq_none_iff (f := Prod.fst)]
  exact iff_of_eq (congrArg (· = none) (key_write r x v))

@[simp] theorem cell_setCell_self (v : Nat) (c : Option (K × Option Nat)) :
    (T.setCell v c).cell v = c := by
  simp [setCell]

theorem cell_setCell_of_ne {v w : Nat} (c : Option (K × Option Nat)) (h : w ≠ v) :
    (T.setCell v c).cell w = T.cell w := by
  simp [setCell, h]

theorem read_setCell_of_ne (c : Option (K × Option Nat)) (h : r ≠ .next v) :
    (T.setCell v c).read r = T.read r := by
  cases r with
  | bucket b => rfl
  | next w =>
    have : w ≠ v := fun e => h (e ▸ rfl)
    simp [read, cell_setCell_of_ne c this]

theorem key_setCell_of_ne {v w : Nat} (c : Option (K × Option Nat)) (h : w ≠ v) :
    (T.setCell v c).key w = T.key w := by
  simp only [key, cell_setCell_of_ne c h]

@[simp] theorem key_setCell_self (v : Nat) (c : Option (K × Option Nat)) :
    (T.setCell v c).key v = c.map Prod.fst := by
  simp only [key, cell_setCell_self]

theorem key_isSome {k : K} (h : T.key v = some k) : T.cell v ≠ none := by
  intro hn
  simp [key, hn] at h

end Mem

/-! ## Chains -/

/-- Following the links from `r` runs through `l` and ends in null. -/
def Links (T : Mem K) : Ref → List Nat → Prop
  | r, [] => T.read r = none
  | r, v :: l => T.read r = some v ∧ Links T (.next v) l

/-- The place behind the cells `l` of a chain that starts at `r`. -/
def refAfter : Ref → List Nat → Ref
  | r, [] => r
  | _, v :: l => refAfter (.next v) l

@[simp] theorem refAfter_cons (r : Ref) (v : Nat) (l : List Nat) :
    refAfter r (v :: l) = refAfter (.next v) l := rfl

theorem refAfter_append (r : Ref) (l l' : List Nat) :
    refAfter r (l ++ l') = refAfter (refAfter r l) l' := by
  induction l generalizing r with
  | nil => rfl
  | cons v l ih => exact ih (.next v)

theorem refAfter_concat (r : Ref) (l : List Nat) (v : Nat) : refAfter r (l ++ [v]) = .next v := by
  rw [refAfter_append]
  rfl

theorem refAfter_cases (r : Ref) (l : List Nat) :
    (l = [] ∧ refAfter r l = r) ∨ ∃ v ∈ l, refAfter r l = .next v := by
  rcases List.eq_nil_or_concat' l with rfl | ⟨l', v, rfl⟩
  · exact .inl ⟨rfl, rfl⟩
  · exact .inr ⟨v, by simp, refAfter_concat r l' v⟩

variable {l : List Nat}

theorem refAfter_bucket_ne (b : Nat) {v : Nat} (h : v ∉ l) :
    refAfter (.bucket b) l ≠ .next v := by
  rcases refAfter_cases (.bucket b) l with ⟨-, e⟩ | ⟨w, hw, e⟩
  · rw [e]
    exact Ref.noConfusion
  · rw [e]
    intro hv
    cases hv
    exact h hw

variable {T T' : Mem K} {r : Ref}

theorem Links.read_refAfter {l' : List Nat} (h : Links T r (l ++ l')) :
    Links T (refAfter r l) l' := by
  induction l generalizing r with
  | nil => exact h
  | cons v l ih => exact ih h.2

/-- Links depend on the places they read only. -/
theorem Links.transport {r r' : Ref} (h : Links T r l) (hr : T'.read r' = T.read r)
    (hl : ∀ v ∈ l, T'.read (.next v) = T.read (.next v)) : Links T' r' l := by
  induction l generalizing r r' with
  | nil => exact hr.trans h
  | cons v l ih =>
    refine ⟨hr.trans h.1, ih h.2 (hl v (by simp)) fun w hw => hl w (by simp [hw])⟩

/-- A chain with a new end: only the place behind `l` has changed. -/
theorem Links.splice {l1 l2 : List Nat} (h : Links T r (l ++ l1)) (hn : l.Nodup)
    (hr : ∀ v ∈ l, r ≠ .next v)
    (hread : ∀ r', r' ≠ refAfter r l → r' = r ∨ (∃ v ∈ l, r' = .next v) → T'.read r' = T.read r')
    (hend : Links T' (refAfter r l) l2) : Links T' r (l ++ l2) := by
  induction l generalizing r with
  | nil => exact hend
  | cons v l ih =>
    obtain ⟨hv, hn⟩ := List.nodup_cons.1 hn
    have hne : r ≠ refAfter r (v :: l) := by
      rcases refAfter_cases r (v :: l) with ⟨e, -⟩ | ⟨w, hw, e⟩
      · cases e
      · rw [e]
        exact hr w hw
    refine ⟨(hread r hne (.inl rfl)).trans h.1, ih h.2 hn ?_ ?_ hend⟩
    · intro w hw e
      cases e
      exact hv hw
    · intro r' h' hm
      refine hread r' h' (.inr ?_)
      rcases hm with rfl | ⟨w, hw, rfl⟩
      · exact ⟨v, by simp, rfl⟩
      · exact ⟨w, by simp [hw], rfl⟩

/-- **A walk along a chain.** A function that steps from place to place, stopping at the end or at a
cell that has `stop`, ends behind the cells that do not. -/
theorem Links.walk {R : Type*} (walk : Nat → Ref → R) (done : Ref → R) (good : Ref → Prop)
    (stop : Nat → Prop) (hgood : ∀ v, T.cell v ≠ none → good (.next v))
    (hend : ∀ n r, good r → T.read r = none → walk (n + 1) r = done r)
    (hstop : ∀ n r v, good r → T.read r = some v → T.cell v ≠ none → stop v →
      walk (n + 1) r = done r)
    (hnext : ∀ n r v, good r → T.read r = some v → T.cell v ≠ none → ¬ stop v →
      walk (n + 1) r = walk n (.next v)) {pre : List Nat} (hr : good r) (hlinks : Links T r (pre ++ l))
    (hcells : ∀ v ∈ pre ++ l, T.cell v ≠ none) (hpre : ∀ v ∈ pre, ¬ stop v) (hl : ∀ v ∈ l.head?, stop v)
    {n : Nat} (hn : pre.length < n) :
    walk n r = done (refAfter r pre) := by
  induction pre generalizing n r with
  | nil =>
    obtain ⟨n, rfl⟩ := Nat.exists_eq_add_of_lt hn
    cases l with
    | nil => exact hend _ r hr hlinks
    | cons v l => exact hstop _ r v hr hlinks.1 (hcells v (by simp)) (hl v (by simp))
  | cons v pre ih =>
    obtain ⟨n, rfl⟩ := Nat.exists_eq_add_of_lt (Nat.zero_lt_of_lt hn)
    have hcell := hcells v (by simp)
    rw [hnext _ r v hr hlinks.1 hcell (hpre v (by simp))]
    refine ih (hgood v hcell) hlinks.2 (fun w hw => hcells w (by simp at hw ⊢; tauto))
      (fun w hw => hpre w (by simp [hw])) ?_
    simp only [List.length_cons] at hn
    omega

/-! ## Tables -/

/-- Keys that are hashed and compared by an equivalence that the hash respects. -/
structure Keys (K : Type u) where
  hasher : K → Nat
  pred : K → K → Bool
  refl : ∀ k, pred k k = true
  symm : ∀ {k l}, pred k l = true → pred l k = true
  trans : ∀ {k l m}, pred k l = true → pred l m = true → pred k m = true
  hash_eq : ∀ {k l}, pred k l = true → hasher k = hasher l

/-- Keys compared by equality. -/
def Keys.ofHash [DecidableEq K] (hasher : K → Nat) : Keys K where
  hasher := hasher
  pred k l := k = l
  refl k := by simp
  symm h := by simp_all
  trans h h' := by simp_all
  hash_eq h := by simp_all

@[simp] theorem Keys.ofHash_pred [DecidableEq K] (hasher : K → Nat) (k l : K) :
    (Keys.ofHash hasher).pred k l = true ↔ k = l := by
  simp [Keys.ofHash]

/-- Every cell is on the chain of its bucket, once, and no two cells have equivalent keys. -/
structure Chained (home : K → Nat) (same : K → K → Bool) (T : Mem K) (chain : Nat → List Nat) :
    Prop where
  links : ∀ b, Links T (.bucket b) (chain b)
  owner : ∀ b, ∀ v ∈ chain b, ∃ k, T.key v = some k ∧ home k = b
  cover : ∀ v k, T.key v = some k → v ∈ chain (home k)
  nodup : ∀ b, (chain b).Nodup
  distinct : ∀ v w k l, T.key v = some k → T.key w = some l → same k l = true → v = w

namespace Chained

variable {home : K → Nat} {same : K → K → Bool} {chain : Nat → List Nat}

variable {v b : Nat} {pre post : List Nat}

theorem cell_ne_none (h : Chained home same T chain) (hv : v ∈ chain b) :
    T.cell v ≠ none := by
  obtain ⟨k, hk, -⟩ := h.owner b v hv
  exact Mem.key_isSome hk

theorem not_mem (h : Chained home same T chain) (hv : T.cell v = none) (b : Nat) :
    v ∉ chain b :=
  fun hm => h.cell_ne_none hm hv

theorem chain_unique (h : Chained home same T chain) {b' : Nat} (hv : v ∈ chain b)
    (hv' : v ∈ chain b') : b = b' := by
  obtain ⟨k, hk, e⟩ := h.owner b v hv
  obtain ⟨k', hk', e'⟩ := h.owner b' v hv'
  obtain rfl : k = k' := Option.some.inj (hk.symm.trans hk')
  exact e.symm.trans e'

variable {pre' post' : List Nat}

section

variable (h : Chained home same T chain)

include h

/-- A cell lies on one chain, in one position. -/
theorem split_unique {c : Nat} (e : chain b = pre ++ v :: post)
    (e' : chain c = pre' ++ v :: post') : b = c ∧ pre = pre' := by
  obtain rfl : b = c := h.chain_unique (v := v) (by simp [e]) (by simp [e'])
  have hn := h.nodup b
  rw [e] at hn
  have h1 : v ∉ pre := fun hv => (List.nodup_append.1 hn).2.2 v hv v (by simp) rfl
  have h2 : v ∉ post := (List.nodup_cons.1 (List.nodup_append.1 hn).2.1).1
  exact ⟨rfl, ((List.append_cons_inj_of_notMem h1 h2).1 (e.symm.trans e')).1⟩

theorem length_le {n : Nat} (hn : ∀ v, T.cell v ≠ none → v < n)
    (b : Nat) : (chain b).length ≤ n := by
  have hsub : chain b ⊆ List.range n := fun v hv => List.mem_range.2 (hn v (h.cell_ne_none hv))
  simpa using (List.subperm_of_subset (h.nodup b) hsub).length_le

theorem hasRef {l' : List Nat}
    (e : chain b = l ++ l') : T.HasRef (refAfter (.bucket b) l) := by
  rcases refAfter_cases (.bucket b) l with ⟨-, e'⟩ | ⟨v, hv, e'⟩
  · rw [e']
    trivial
  · rw [e']
    exact h.cell_ne_none (b := b) (by simp [e, hv])

/-- **Lookup.** The chain of a key stops at the first cell with an equivalent key, or no cell of the
table has one. -/
theorem find (hhome : ∀ k l, same k l = true → home k = home l)
    (k : K) :
    (∃ v l pre post, T.key v = some l ∧ same l k = true ∧ chain (home k) = pre ++ v :: post ∧
      ∀ w ∈ pre, ∀ m, T.key w = some m → same m k = false) ∨
    ∀ v l, T.key v = some l → same l k = false := by
  cases e : (chain (home k)).find? (fun v => (T.key v).any (same · k)) with
  | some v =>
    obtain ⟨hv, pre, post, e1, hpre⟩ := List.find?_eq_some_iff_append.1 e
    obtain ⟨l, hl, hs⟩ := (Option.any_eq_true _ _).1 hv
    refine .inl ⟨v, l, pre, post, hl, hs, e1, fun w hw m hm => ?_⟩
    simpa [hm] using hpre w hw
  | none =>
    refine .inr fun v l hl => ?_
    by_contra hs
    have hs : same l k = true := by simpa using hs
    have hmem := h.cover v l hl
    rw [hhome l k hs] at hmem
    have := List.find?_eq_none.1 e v hmem
    simp [hl, hs] at this

/-- **The search for a key** as a walk: it ends at the place that leads to the first equivalent cell,
or at the end of the chain. -/
theorem search {ε : Type*}
    (hhome : ∀ k l, same k l = true → home k = home l) {good : Ref → Prop} {key : K}
    {f : Nat → Ref → Except ε Ref} {load : Ref → Except ε Nat} {null n : Nat}
    (hcell : ∀ v, T.cell v ≠ none → good (.next v)) (hbucket : good (.bucket (home key)))
    (hload : ∀ r, good r → load r = .ok ((T.read r).getD null))
    (hend : ∀ n r, good r → T.read r = none → f (n + 1) r = .ok r)
    (hround : ∀ n r v, good r → T.read r = some v → T.cell v ≠ none → ∃ k, T.key v = some k ∧
      f (n + 1) r = if same k key then .ok r else f n (.next v))
    (hn : (chain (home key)).length < n) :
    (∃ v k pre post, T.key v = some k ∧ same k key = true ∧ chain (home key) = pre ++ v :: post ∧
      f n (.bucket (home key)) = .ok (refAfter (.bucket (home key)) pre) ∧
      good (refAfter (.bucket (home key)) pre) ∧
      load (refAfter (.bucket (home key)) pre) = .ok v) ∨
    ((∀ v k, T.key v = some k → same k key = false) ∧
      f n (.bucket (home key)) = .ok (refAfter (.bucket (home key)) (chain (home key))) ∧
      good (refAfter (.bucket (home key)) (chain (home key))) ∧
      load (refAfter (.bucket (home key)) (chain (home key))) = .ok null) := by
  have hplace : ∀ pre l, chain (home key) = pre ++ l →
      good (refAfter (.bucket (home key)) pre) ∧
        Links T (refAfter (.bucket (home key)) pre) l := by
    intro pre l e
    refine ⟨?_, (e ▸ h.links (home key)).read_refAfter⟩
    rcases refAfter_cases (.bucket (home key)) pre with ⟨-, e'⟩ | ⟨v, hv, e'⟩
    · rw [e']
      exact hbucket
    · rw [e']
      exact hcell v (h.cell_ne_none (b := home key) (by simp [e, hv]))
  have hwalk : ∀ pre l, chain (home key) = pre ++ l →
      (∀ w ∈ pre, ∀ k, T.key w = some k → same k key = false) →
      (∀ v ∈ l.head?, ∃ k, T.key v = some k ∧ same k key = true) →
      f n (.bucket (home key)) = .ok (refAfter (.bucket (home key)) pre) := by
    intro pre l e hpre hl
    refine Links.walk f Except.ok good (fun v => ∃ k, T.key v = some k ∧ same k key = true) hcell
      hend ?_ ?_ hbucket (e ▸ h.links (home key)) (fun v hv => h.cell_ne_none (e ▸ hv)) ?_ hl ?_
    · rintro n r v hr hread hv ⟨k, hk, hp⟩
      obtain ⟨k', hk', e⟩ := hround n r v hr hread hv
      obtain rfl : k = k' := Option.some.inj (hk.symm.trans hk')
      rw [e, if_pos hp]
    · intro n r v hr hread hv hno
      obtain ⟨k, hk, e⟩ := hround n r v hr hread hv
      rw [e, if_neg fun hp => hno ⟨k, hk, hp⟩]
    · rintro w hw ⟨k, hk, hp⟩
      exact Bool.noConfusion ((hpre w hw k hk).symm.trans hp)
    · rw [e, List.length_append] at hn
      omega
  rcases h.find hhome key with ⟨v, k, pre, post, hk, hp, e, hpre⟩ | hno
  · obtain ⟨hgood, hlinks⟩ := hplace pre _ e
    refine .inl ⟨v, k, pre, post, hk, hp, e, hwalk pre _ e hpre ?_, hgood, ?_⟩
    · intro w hw
      obtain rfl : v = w := by simpa using hw
      exact ⟨k, hk, hp⟩
    · rw [hload _ hgood, hlinks.1]
      rfl
  · have e0 : chain (home key) = chain (home key) ++ [] := by simp
    obtain ⟨hgood, hlinks⟩ := hplace _ _ e0
    refine .inr ⟨hno, hwalk _ [] e0 (fun w _ k hk => hno w k hk) (by simp), hgood, ?_⟩
    have hnull : T.read _ = none := hlinks
    rw [hload _ hgood, hnull]
    rfl

/-! ## Changes of a table -/

/-- A table with one chain replaced: what the new table must keep and what the new chain must say. -/
theorem replace
    (hlinks : Links T' (.bucket b) l) (hnodup : l.Nodup)
    (hread : ∀ b', b' ≠ b → T'.bucket b' = T.bucket b' ∧
      ∀ v ∈ chain b', T'.read (.next v) = T.read (.next v))
    (hkey : ∀ v k, home k ≠ b → (T'.key v = some k ↔ T.key v = some k))
    (howner : ∀ v ∈ l, ∃ k, T'.key v = some k ∧ home k = b)
    (hcover : ∀ v k, T'.key v = some k → home k = b → v ∈ l)
    (hdistinct : ∀ v w k m, T'.key v = some k → T'.key w = some m → same k m = true → v = w) :
    Chained home same T' (Function.update chain b l) := by
  refine ⟨fun b' => ?_, fun b' v hv => ?_, fun v k hk => ?_, fun b' => ?_, hdistinct⟩
  · by_cases hb : b' = b
    · subst hb
      simpa using hlinks
    · simp only [Function.update_of_ne hb]
      exact (h.links b').transport (hread b' hb).1 (hread b' hb).2
  · by_cases hb : b' = b
    · subst hb
      exact howner v (by simpa using hv)
    · simp only [Function.update_of_ne hb] at hv
      obtain ⟨k, hk, e⟩ := h.owner b' v hv
      exact ⟨k, (hkey v k (by rwa [e])).2 hk, e⟩
  · by_cases hb : home k = b
    · rw [hb, Function.update_self]
      exact hcover v k hk hb
    · rw [Function.update_of_ne hb]
      exact h.cover v k ((hkey v k hb).1 hk)
  · by_cases hb : b' = b
    · subst hb
      simpa using hnodup
    · simpa [Function.update_of_ne hb] using h.nodup b'

/-- The place behind `l` on the chain of `b` is not read by another chain. -/
theorem ne_refAfter {b' : Nat} {l' : List Nat}
    (e : chain b = l ++ l') (hb : b' ≠ b) :
    Ref.bucket b' ≠ refAfter (.bucket b) l ∧ ∀ v ∈ chain b', Ref.next v ≠ refAfter (.bucket b) l := by
  rcases refAfter_cases (.bucket b) l with ⟨-, e'⟩ | ⟨w, hw, e'⟩
  · rw [e']
    exact ⟨fun hc => hb (Ref.bucket.inj hc), fun v _ => Ref.noConfusion⟩
  · rw [e']
    refine ⟨Ref.noConfusion, fun v hv hc => hb ?_⟩
    cases hc
    exact h.chain_unique hv (by simp [e, hw])

/-- **A new cell** at the end of the chain of its key. -/
theorem insert {k : K} (hv : T.cell v = none)
    (hk : ∀ w l, T.key w = some l → same l k = false ∧ same k l = false) :
    Chained home same
      ((T.write (refAfter (.bucket (home k)) (chain (home k))) (some v)).setCell v (some (k, none)))
      (Function.update chain (home k) (chain (home k) ++ [v])) := by
  have hmem := h.not_mem hv
  have hkey : ∀ w, w ≠ v → ((T.write (refAfter (.bucket (home k)) (chain (home k)))
      (some v)).setCell v (some (k, none))).key w = T.key w := fun w hw => by
    rw [Mem.key_setCell_of_ne _ hw, Mem.key_write]
  have hnone : T.key v = none := by simp [Mem.key, hv]
  have e0 : chain (home k) = chain (home k) ++ [] := by simp
  have href := h.hasRef e0
  have hlinks : Links T (.bucket (home k)) (chain (home k) ++ []) := e0 ▸ h.links (home k)
  have hend := refAfter_bucket_ne (home k) (hmem (home k))
  refine h.replace ?_ ?_ (fun b' hb => ?_) (fun w l hl => ?_) (fun w hw => ?_) (fun w l hl e => ?_) ?_
  · refine hlinks.splice (h.nodup _) (fun _ _ => Ref.noConfusion) (fun r hr hm => ?_) ⟨?_, ?_⟩
    · rw [Mem.read_setCell_of_ne, Mem.read_write_of_ne _ hr]
      rcases hm with rfl | ⟨w, hw, rfl⟩
      · exact Ref.noConfusion
      · intro hc
        cases hc
        exact hmem _ hw
    · rw [Mem.read_setCell_of_ne _ hend, Mem.read_write_self _ href]
    · simp [Links, Mem.read]
  · refine List.nodup_append.2 ⟨h.nodup _, by simp, fun a ha c hc => ?_⟩
    obtain rfl : c = v := by simpa using hc
    rintro rfl
    exact hmem _ ha
  · obtain ⟨h1, h2⟩ := h.ne_refAfter e0 hb
    refine ⟨?_, fun w hw => ?_⟩
    · exact Mem.read_write_of_ne (some v) h1
    · rw [Mem.read_setCell_of_ne, Mem.read_write_of_ne _ (h2 w hw)]
      intro hc
      cases hc
      exact hmem _ hw
  · by_cases hw : w = v
    · subst hw
      rw [Mem.key_setCell_self, hnone]
      simp only [Option.map_some, Option.some.injEq, reduceCtorEq, iff_false]
      rintro rfl
      exact hl rfl
    · rw [hkey w hw]
  · rcases List.mem_append.1 hw with hw | hw
    · rw [hkey w fun e => hmem _ (e ▸ hw)]
      exact h.owner _ w hw
    · obtain rfl : w = v := by simpa using hw
      exact ⟨k, by simp, rfl⟩
  · by_cases hw : w = v
    · simp [hw]
    · rw [hkey w hw] at hl
      have := h.cover w l hl
      rw [e] at this
      simp [this]
  · intro x w l m hl hm hs
    by_cases hx : x = v
    · by_cases hw : w = v
      · rw [hx, hw]
      · subst hx
        obtain rfl : k = l := by simpa using hl
        rw [hkey w hw] at hm
        rw [(hk w m hm).2] at hs
        cases hs
    · rw [hkey x hx] at hl
      by_cases hw : w = v
      · subst hw
        obtain rfl : k = m := by simpa using hm
        rw [(hk x l hl).1] at hs
        cases hs
      · rw [hkey w hw] at hm
        exact h.distinct x w l m hl hm hs

/-- **A cell taken out**: the place before it gets its link. -/
theorem unlink
    (e : chain b = pre ++ v :: post) :
    Chained home same
      ((T.write (refAfter (.bucket b) pre) (T.read (.next v))).setCell v none)
      (Function.update chain b (pre ++ post)) := by
  have hn := h.nodup b
  rw [e] at hn
  obtain ⟨hn1, hn2, hdis⟩ := List.nodup_append.1 hn
  obtain ⟨hv2, hn2⟩ := List.nodup_cons.1 hn2
  have hv1 : v ∉ pre := fun hv => hdis v hv v (by simp) rfl
  obtain ⟨k, hk, hkb⟩ := h.owner b v (by simp [e])
  have hkey : ∀ w, w ≠ v → ((T.write (refAfter (.bucket b) pre) (T.read (.next v))).setCell v
      none).key w = T.key w := fun w hw => by
    rw [Mem.key_setCell_of_ne _ hw, Mem.key_write]
  have hend := refAfter_bucket_ne b hv1
  have hlinks : Links T (.bucket b) (pre ++ v :: post) := e ▸ h.links b
  refine h.replace ?_ ?_ (fun b' hb => ?_) (fun w l hl => ?_) (fun w hw => ?_) (fun w l hl e' => ?_) ?_
  · refine hlinks.splice hn1 (fun _ _ => Ref.noConfusion) (fun r hr hm => ?_) ?_
    · rw [Mem.read_setCell_of_ne, Mem.read_write_of_ne _ hr]
      rcases hm with rfl | ⟨w, hw, rfl⟩
      · exact Ref.noConfusion
      · intro hc
        cases hc
        exact hv1 hw
    · refine (hlinks.read_refAfter.2).transport ?_ fun w hw => ?_
      · rw [Mem.read_setCell_of_ne _ hend, Mem.read_write_self _ (h.hasRef e)]
      · rw [Mem.read_setCell_of_ne, Mem.read_write_of_ne]
        · rcases refAfter_cases (.bucket b) pre with ⟨-, e'⟩ | ⟨x, hx, e'⟩
          · rw [e']
            exact Ref.noConfusion
          · rw [e']
            intro hc
            cases hc
            exact hdis w hx w (by simp [hw]) rfl
        · intro hc
          cases hc
          exact hv2 hw
  · exact List.nodup_append.2 ⟨hn1, hn2, fun a ha c hc => hdis a ha c (by simp [hc])⟩
  · obtain ⟨h1, h2⟩ := h.ne_refAfter e hb
    refine ⟨Mem.read_write_of_ne _ h1, fun w hw => ?_⟩
    rw [Mem.read_setCell_of_ne, Mem.read_write_of_ne _ (h2 w hw)]
    intro hc
    cases hc
    exact hb (h.chain_unique hw (by simp [e]))
  · by_cases hw : w = v
    · subst hw
      rw [Mem.key_setCell_self, hk]
      simp only [Option.map_none, Option.some.injEq, reduceCtorEq, false_iff]
      rintro rfl
      exact hl hkb
    · rw [hkey w hw]
  · have hw' : w ∈ pre ∨ w ∈ post := List.mem_append.1 hw
    have hne : w ≠ v := by
      rintro rfl
      exact hw'.elim hv1 hv2
    rw [hkey w hne]
    exact h.owner b w (by rw [e]; simp only [List.mem_append, List.mem_cons]; tauto)
  · by_cases hw : w = v
    · subst hw
      simp at hl
    · rw [hkey w hw] at hl
      have := h.cover w l hl
      rw [e', e] at this
      simpa [hw] using this
  · intro x w l m hl hm hs
    have hx : x ≠ v := by
      rintro rfl
      simp at hl
    have hw : w ≠ v := by
      rintro rfl
      simp at hm
    rw [hkey x hx] at hl
    rw [hkey w hw] at hm
    exact h.distinct x w l m hl hm hs

/-- **A cell moved** to a free address: the place before it gets the new address. -/
theorem move {i j : Nat}
    (hi : T.cell i = none) (e : chain b = pre ++ j :: post) :
    Chained home same
      (((T.write (refAfter (.bucket b) pre) (some i)).setCell i (T.cell j)).setCell j none)
      (Function.update chain b (pre ++ i :: post)) := by
  have hmem := h.not_mem hi
  have hn := h.nodup b
  rw [e] at hn
  obtain ⟨hn1, hn2, hdis⟩ := List.nodup_append.1 hn
  obtain ⟨hj2, hn2⟩ := List.nodup_cons.1 hn2
  have hj1 : j ∉ pre := fun hv => hdis j hv j (by simp) rfl
  have hi1 : i ∉ pre := fun hc => hmem b (by simp [e, hc])
  have hi2 : i ∉ post := fun hc => hmem b (by simp [e, hc])
  have hij : i ≠ j := fun hc => hmem b (by simp [e, hc])
  obtain ⟨k, hk, hkb⟩ := h.owner b j (by simp [e])
  have hkey : ∀ w, w ≠ i → w ≠ j → (((T.write (refAfter (.bucket b) pre) (some i)).setCell i
      (T.cell j)).setCell j none).key w = T.key w := fun w hw hw' => by
    rw [Mem.key_setCell_of_ne _ hw', Mem.key_setCell_of_ne _ hw, Mem.key_write]
  have hkeyi : (((T.write (refAfter (.bucket b) pre) (some i)).setCell i
      (T.cell j)).setCell j none).key i = some k := by
    rw [Mem.key_setCell_of_ne _ hij, Mem.key_setCell_self]
    exact hk
  have hendi := refAfter_bucket_ne b hi1
  have hendj := refAfter_bucket_ne b hj1
  have hlinks : Links T (.bucket b) (pre ++ j :: post) := e ▸ h.links b
  have hread : ∀ r, r ≠ .next i → r ≠ .next j → r ≠ refAfter (.bucket b) pre →
      (((T.write (refAfter (.bucket b) pre) (some i)).setCell i (T.cell j)).setCell j none).read r
        = T.read r := fun r h1 h2 h3 => by
    rw [Mem.read_setCell_of_ne _ h2, Mem.read_setCell_of_ne _ h1, Mem.read_write_of_ne _ h3]
  have hne : ∀ {w x : Nat}, w ≠ x → Ref.next w ≠ .next x := fun h' hc => h' (Ref.next.inj hc)
  refine h.replace ?_ ?_ (fun b' hb => ?_) (fun w l hl => ?_) (fun w hw => ?_) (fun w l hl e' => ?_) ?_
  · refine hlinks.splice hn1 (fun _ _ => Ref.noConfusion) (fun r hr hm => ?_) ⟨?_, ?_⟩
    · rcases hm with rfl | ⟨w, hw, rfl⟩
      · exact hread _ Ref.noConfusion Ref.noConfusion hr
      · exact hread _ (hne fun hc => hi1 (hc ▸ hw)) (hne fun hc => hj1 (hc ▸ hw)) hr
    · rw [Mem.read_setCell_of_ne _ hendj, Mem.read_setCell_of_ne _ hendi,
        Mem.read_write_self _ (h.hasRef e)]
    · refine (hlinks.read_refAfter.2).transport ?_ fun w hw => ?_
      · rw [Mem.read_setCell_of_ne _ (hne hij)]
        simp [Mem.read]
      · refine hread _ (hne fun hc => hi2 (hc ▸ hw)) (hne fun hc => hj2 (hc ▸ hw)) ?_
        rcases refAfter_cases (.bucket b) pre with ⟨-, e'⟩ | ⟨x, hx, e'⟩
        · rw [e']
          exact Ref.noConfusion
        · rw [e']
          exact hne fun hc => hdis x hx w (by simp [hw]) hc.symm
  · refine List.nodup_append.2 ⟨hn1, List.nodup_cons.2 ⟨hi2, hn2⟩, fun a ha c hc => ?_⟩
    rcases List.mem_cons.1 hc with rfl | hc
    · rintro rfl
      exact hi1 ha
    · exact hdis a ha c (by simp [hc])
  · obtain ⟨h1, h2⟩ := h.ne_refAfter e hb
    refine ⟨Mem.read_write_of_ne (some i) h1, fun w hw => ?_⟩
    exact hread _ (hne fun hc => hmem _ (hc ▸ hw))
      (hne fun hc => hb (h.chain_unique (hc ▸ hw) (by simp [e]))) (h2 w hw)
  · by_cases hw : w = i
    · subst hw
      have hnone : T.key w = none := by simp [Mem.key, hi]
      rw [hkeyi, hnone]
      simp only [Option.some.injEq, reduceCtorEq, iff_false]
      rintro rfl
      exact hl hkb
    · by_cases hw' : w = j
      · subst hw'
        rw [Mem.key_setCell_self, hk]
        simp only [Option.map_none, Option.some.injEq, reduceCtorEq, false_iff]
        rintro rfl
        exact hl hkb
      · rw [hkey w hw hw']
  · have hw' : w = i ∨ (w ∈ pre ∨ w ∈ post) := by
      simp only [List.mem_append, List.mem_cons] at hw
      tauto
    rcases hw' with rfl | hw'
    · exact ⟨k, hkeyi, hkb⟩
    · have h1 : w ≠ i := by
        rintro rfl
        exact hw'.elim hi1 hi2
      have h2 : w ≠ j := by
        rintro rfl
        exact hw'.elim hj1 hj2
      rw [hkey w h1 h2]
      exact h.owner b w (by rw [e]; simp only [List.mem_append, List.mem_cons]; tauto)
  · by_cases hw : w = i
    · simp [hw]
    · have hw' : w ≠ j := by
        rintro rfl
        simp at hl
      rw [hkey w hw hw'] at hl
      have := h.cover w l hl
      rw [e', e] at this
      simp only [List.mem_append, List.mem_cons] at this ⊢
      tauto
  · -- the moved cell has the key that address `j` had
    have hold : ∀ w l, (((T.write (refAfter (.bucket b) pre) (some i)).setCell i
        (T.cell j)).setCell j none).key w = some l →
        T.key (if w = i then j else w) = some l ∧ w ≠ j := fun w l hl => by
      have hw' : w ≠ j := by
        rintro rfl
        simp at hl
      by_cases hw : w = i
      · subst hw
        rw [hkeyi] at hl
        rw [if_pos rfl]
        exact ⟨hk.trans hl, hw'⟩
      · rw [hkey w hw hw'] at hl
        rw [if_neg hw]
        exact ⟨hl, hw'⟩
    intro x w l m hl hm hs
    obtain ⟨hl, hx⟩ := hold x l hl
    obtain ⟨hm, hw⟩ := hold w m hm
    have := h.distinct _ _ l m hl hm hs
    by_cases h1 : x = i
    · by_cases h2 : w = i
      · rw [h1, h2]
      · rw [if_pos h1, if_neg h2] at this
        exact absurd this.symm hw
    · by_cases h2 : w = i
      · rw [if_neg h1, if_pos h2] at this
        exact absurd this hx
      · rwa [if_neg h1, if_neg h2] at this

end

/-- The place of another cell of the chain that `v` was taken out of: where it was, or, when it was
the link of `v`, the place before `v`. -/
theorem refAfter_unlink {w : Nat} (hn : (pre ++ v :: post).Nodup) (hw : w ≠ v)
    (e : pre ++ v :: post = pre' ++ w :: post') :
    ∃ l l', pre ++ post = l ++ w :: l' ∧ refAfter (.bucket b) l =
      if refAfter (.bucket b) pre' = .next v then refAfter (.bucket b) pre
      else refAfter (.bucket b) pre' := by
  have hv1 : v ∉ pre := fun hv => (List.nodup_append.1 hn).2.2 v hv v (by simp) rfl
  rcases List.append_eq_append_iff.1 e with ⟨mid, e1, e2⟩ | ⟨mid, e1, e2⟩
  · -- `w` is behind `v`
    cases mid with
    | nil =>
      simp only [List.nil_append, List.cons.injEq] at e2
      exact absurd e2.1.symm hw
    | cons x mid =>
      simp only [List.cons_append, List.cons.injEq] at e2
      obtain ⟨rfl, rfl⟩ := e2
      refine ⟨pre ++ mid, post', by simp, ?_⟩
      rw [e1, refAfter_append, refAfter_append, refAfter_cons]
      rcases refAfter_cases (.next v) mid with ⟨rfl, e3⟩ | ⟨x, hx, e3⟩
      · rw [e3, if_pos rfl]
        rfl
      · have hxv : x ≠ v := by
          rintro rfl
          have := (List.nodup_cons.1 (List.nodup_append.1 hn).2.1).1
          exact this (by simp [hx])
        rw [if_neg (by rw [e3]; exact fun hc => hxv (Ref.next.inj hc))]
        obtain ⟨y, ys, rfl⟩ := List.exists_cons_of_ne_nil (List.ne_nil_of_mem hx)
        rfl
  · -- `w` is before `v`
    cases mid with
    | nil =>
      simp only [List.nil_append, List.cons.injEq] at e2
      exact absurd e2.1 hw
    | cons x mid =>
      simp only [List.cons_append, List.cons.injEq] at e2
      obtain ⟨rfl, rfl⟩ := e2
      refine ⟨pre', mid ++ post, by simp [e1], ?_⟩
      rw [if_neg (refAfter_bucket_ne b fun hc => hv1 (by simp [e1, hc]))]

/-- **Erase** the cell at `i` and move the cell at `j` into its place: the place before `i` gets the
link of `i`, then the place before `j` gets the address `i`. -/
theorem erase (h : Chained home same T chain) {c i j : Nat} (hij : j ≠ i)
    (ei : chain b = pre ++ i :: post) (ej : chain c = pre' ++ j :: post') {r : Ref}
    (hr : r = if refAfter (.bucket c) pre' = .next i then refAfter (.bucket b) pre
      else refAfter (.bucket c) pre') {T2 : Mem K}
    (hT : T2 = (T.write (refAfter (.bucket b) pre) (T.read (.next i))).write r (some i)) :
    ∃ chain', Chained home same ((T2.setCell i (T2.cell j)).setCell j none) chain' := by
  have hU := h.unlink ei
  generalize hU' : (T.write (refAfter (.bucket b) pre) (T.read (.next i))) = T1 at hT hU
  have hi1 : i ∉ pre := fun hv => by
    have := h.nodup b
    rw [ei] at this
    exact (List.nodup_append.1 this).2.2 i hv i (by simp) rfl
  -- where the cell at `j` is once the cell at `i` is out
  obtain ⟨l, l', e1, e2⟩ : ∃ l l', Function.update chain b (pre ++ post) c = l ++ j :: l' ∧
      refAfter (.bucket c) l = r := by
    by_cases hb : c = b
    · subst hb
      rw [Function.update_self, hr]
      have hn := h.nodup c
      rw [ei] at hn
      exact refAfter_unlink hn hij (ei.symm.trans ej)
    · refine ⟨pre', post', by rw [Function.update_of_ne hb, ej], ?_⟩
      rw [hr, if_neg]
      refine refAfter_bucket_ne c fun hc => hb ?_
      exact h.chain_unique (v := i) (by simp [ej, hc]) (by simp [ei])
  have hri : r ≠ .next i := by
    rw [hr]
    by_cases hc : refAfter (.bucket c) pre' = .next i
    · rw [if_pos hc]
      exact refAfter_bucket_ne b hi1
    · rwa [if_neg hc]
  have hrj : r ≠ .next j := by
    rw [← e2]
    refine refAfter_bucket_ne c fun hc => ?_
    have := hU.nodup c
    rw [e1] at this
    exact (List.nodup_append.1 this).2.2 j hc j (by simp) rfl
  have hmove := hU.move (Mem.cell_setCell_self i none) e1
  rw [e2] at hmove
  suffices heq : (T2.setCell i (T2.cell j)).setCell j none =
      (((T1.setCell i none).write r (some i)).setCell i ((T1.setCell i none).cell j)).setCell j none by
    rw [heq]
    exact ⟨_, hmove⟩
  refine Mem.ext_of (fun b' => ?_) (fun w => ?_)
  · rw [hT]
    cases r <;> rfl
  · by_cases hw : w = j
    · simp [hw]
    · by_cases hw' : w = i
      · subst hw'
        rw [Mem.cell_setCell_of_ne _ hw, Mem.cell_setCell_of_ne _ hw, Mem.cell_setCell_self,
          Mem.cell_setCell_self, Mem.cell_setCell_of_ne _ hij, hT, Mem.cell_write_of_ne _ hrj]
      · rw [Mem.cell_setCell_of_ne _ hw, Mem.cell_setCell_of_ne _ hw, Mem.cell_setCell_of_ne _ hw',
          Mem.cell_setCell_of_ne _ hw', hT]
        cases r with
        | bucket b' => exact (Mem.cell_setCell_of_ne none hw').symm
        | next x =>
          have hx : x ≠ i := fun hc => hri (hc ▸ rfl)
          by_cases hwx : w = x
          · subst hwx
            simp [Mem.write, Mem.cell_setCell_of_ne _ hx]
          · simp [Mem.write, hwx, Mem.cell_setCell_of_ne _ hw']

end Chained

end HashChain
