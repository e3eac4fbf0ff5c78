import NeuralNetwork.Lib.Scatter
import NeuralNetwork.MatrixOptimizer.BlockCoordinatedSearch

/-!
# The block-coordinated search never worsens a matrix

`Engine.Improves`: whatever the machines do, an engine returns a matrix of its own that is no worse than
the one it was given, with the coefficients that are fixed as they were, and keeps what was made before,
the scratch matrices of the evaluator apart (`Stays`). The innermost engine has it for matrices that
check the size of what they are set to, the translation carries it to blocks of the coefficients
(`blockedSearch_improves`), and the outermost loop composes blocks.
-/

namespace MatrixOptimizer

open Cpp Command Scatter

variable {C R : Type}

/-! ## nan_cmp -/

namespace EvalFloat

variable [LinearOrder R] {a b c : EvalFloat R}

theorem nanCmp_le_zero : nanCmp a b ≤ 0 ↔ b = nan ∨ ∃ x y, a = num x ∧ b = num y ∧ x ≤ y := by
  cases a with
  | nan =>
    cases b with
    | nan => simp [nanCmp, isnan]
    | num y =>
      have hval : nanCmp nan (num y) = 1 := rfl
      simp [hval]
  | num x =>
    cases b with
    | nan => simp [nanCmp, isnan]
    | num y =>
      have hval : nanCmp (num x) (num y) = if x < y then -1 else if y < x then 1 else 0 := by
        simp [nanCmp, isnan, less]
      rw [hval]
      rcases lt_trichotomy x y with h | h | h
      · simp [h, h.le]
      · simp [h]
      · simp [h, h.not_gt, h.not_ge]

theorem nanCmp_self : nanCmp a a ≤ 0 := by
  cases a with
  | nan => exact nanCmp_le_zero.2 (.inl rfl)
  | num x => exact nanCmp_le_zero.2 (.inr ⟨x, x, rfl, rfl, le_refl x⟩)

theorem nanCmp_trans (hab : nanCmp a b ≤ 0) (hbc : nanCmp b c ≤ 0) : nanCmp a c ≤ 0 := by
  rcases nanCmp_le_zero.1 hbc with rfl | ⟨y, z, rfl, rfl, hyz⟩
  · exact nanCmp_le_zero.2 (.inl rfl)
  · rcases nanCmp_le_zero.1 hab with h | ⟨x, y', rfl, h, hxy⟩
    · cases h
    · cases h
      exact nanCmp_le_zero.2 (.inr ⟨x, z, rfl, rfl, hxy.trans hyz⟩)

end EvalFloat

/-! ## Stores -/

structure Keeps (s s' : Store C) (except : List Nat) : Prop where
  length : s.length ≤ s'.length
  cells : ∀ a, a < s.length → a ∉ except → s'[a]? = s[a]?

variable {s s' s'' : Store C} {except : List Nat}

theorem Keeps.refl : Keeps s s except := ⟨le_refl _, fun _ _ _ => rfl⟩

theorem Keeps.trans (h : Keeps s s' except) (h' : Keeps s' s'' except) : Keeps s s'' except where
  length := h.length.trans h'.length
  cells a ha hx := (h'.cells a (ha.trans_le h.length) hx).trans (h.cells a ha hx)

theorem Keeps.append (v : List C) : Keeps s (s ++ [v]) except where
  length := by simp
  cells _ ha _ := List.getElem?_append_left ha

theorem Keeps.weaken {except' : List Nat} (h : Keeps s s' except) (hx : except ⊆ except') :
    Keeps s s' except' where
  length := h.length
  cells a ha hmem := h.cells a ha fun hx' => hmem (hx hx')

theorem Keeps.setCell (a : Nat) (v : List C) : Keeps s (s.set a v) [a] where
  length := by simp
  cells _ _ hx := List.getElem?_set_ne (Ne.symm (List.ne_of_not_mem_cons hx))

theorem Keeps.set {a : Nat} (h : Keeps s s' except) (ha : s.length ≤ a) (v : List C) :
    Keeps s (s'.set a v) except where
  length := by simpa using h.length
  cells b hb hx := by
    rw [List.getElem?_set_ne (Nat.ne_of_gt (hb.trans_le ha))]
    exact h.cells b hb hx

namespace Matrix

variable {m m' : Matrix} {v v' : List C}

def leaf : Matrix → Nat
  | matrix addr => addr
  | retranslated baseMatrix _ => baseMatrix.leaf

def checks : Matrix → Bool
  | matrix _ => false
  | retranslated _ _ => true

def Holds (s : Store C) : Matrix → List C → Prop
  | matrix addr, v => s[addr]? = some v
  | retranslated baseMatrix table, v => ∃ full, baseMatrix.Holds s full ∧ table.Nodup ∧
      (∀ i ∈ table, i < full.length) ∧ table.map (fun i => full[i]?) = v.map some

theorem Holds.leaf_lt (h : m.Holds s v) : m.leaf < s.length := by
  induction m generalizing v with
  | matrix addr => exact (List.getElem?_eq_some_iff.1 h).1
  | retranslated baseMatrix table ih =>
    obtain ⟨full, hbase, -⟩ := h
    exact ih hbase

theorem Holds.congr (h : m.Holds s v) (he : s'[m.leaf]? = s[m.leaf]?) : m.Holds s' v := by
  induction m generalizing v with
  | matrix addr => exact he.trans h
  | retranslated baseMatrix table ih =>
    obtain ⟨full, hbase, hrest⟩ := h
    exact ⟨full, ih hbase he, hrest⟩

theorem Holds.keep (h : m.Holds s v) (hk : Keeps s s' except) (hx : m.leaf ∉ except) :
    m.Holds s' v :=
  h.congr (hk.cells _ h.leaf_lt hx)

variable {table : List Nat} {baseMatrix : Matrix}

theorem Holds.length_retranslated (h : (retranslated baseMatrix table).Holds s v) :
    v.length = table.length := by
  obtain ⟨full, -, -, -, hvals⟩ := h
  simpa using (congrArg List.length hvals).symm

theorem Holds.unique (h : m.Holds s v) (h' : m.Holds s v') : v = v' := by
  induction m generalizing v v' with
  | matrix addr => exact Option.some.inj (h.symm.trans h')
  | retranslated baseMatrix table ih =>
    obtain ⟨full, hbase, -, -, hvals⟩ := h
    obtain ⟨full', hbase', -, -, hvals'⟩ := h'
    rw [ih hbase hbase'] at hvals
    exact List.map_injective_iff.2 (fun _ _ => Option.some.inj) (hvals.symm.trans hvals')

variable {Q : List C → Store C → Prop} {E : Thrown → Store C → Prop}

theorem wp_gather {full rs : List C} (h : table.map (fun i => full[i]?) = v.map some)
    (hq : Q (rs ++ v) s) :
    wp (table.foldlM (fun rs idx => do
      let c ← at? full idx
      pure (rs ++ [c])) rs) Q E s := by
  induction table generalizing v rs with
  | nil =>
    cases v with
    | nil => simpa using hq
    | cons c v => cases h
  | cons i table ih =>
    cases v with
    | nil => cases h
    | cons c v =>
      obtain ⟨hi, h⟩ := List.cons.inj h
      have hi : full[i]? = some c := hi
      rw [List.foldlM_cons, wp_bind, wp_bind]
      unfold at?
      rw [hi]
      refine ih h ?_
      rwa [List.append_assoc]

theorem wp_getCoefficientVector (h : m.Holds s v) (hq : Q v s) : wp m.getCoefficientVector Q E s := by
  induction m generalizing v Q with
  | matrix addr =>
    unfold getCoefficientVector
    rw [wp_bind, wp_getState, show s[addr]? = some v from h]
    exact hq
  | retranslated baseMatrix table ih =>
    obtain ⟨full, hbase, -, -, hvals⟩ := h
    unfold getCoefficientVector
    rw [wp_bind]
    exact ih hbase (wp_gather hvals hq)

theorem wp_scatter {full : List C} (hlt : ∀ i ∈ table, i < full.length)
    (hq : Q (scatter table v full) s) :
    wp ((table.zip v).foldlM (fun full p => assign full p.1 p.2) full) Q E s := by
  induction table generalizing v full with
  | nil => exact hq
  | cons i table ih =>
    cases v with
    | nil => exact hq
    | cons c v =>
      rw [List.zip_cons_cons, List.foldlM_cons, wp_bind]
      unfold assign
      rw [if_pos (hlt i List.mem_cons_self)]
      refine ih (fun j hj => ?_) hq
      rw [List.length_set]
      exact hlt j (List.mem_cons_of_mem i hj)

/-- **`set_coefficient_vector`** with a vector of the right size changes the cell of the matrix only. -/
theorem wp_setCoefficientVector {Q : Unit → Store C → Prop} (h : m.Holds s v)
    (hlen : v'.length = v.length)
    (hq : ∀ w, m.Holds (s.set m.leaf w) v' → Q () (s.set m.leaf w)) :
    wp (m.setCoefficientVector v') Q E s := by
  induction m generalizing v v' Q with
  | matrix addr =>
    have hlt : addr < s.length := h.leaf_lt
    unfold setCoefficientVector
    rw [wp_bind, wp_getState, if_pos hlt]
    exact hq v' (List.getElem?_set_self hlt)
  | retranslated baseMatrix table ih =>
    have htable := hlen.trans h.length_retranslated
    obtain ⟨full, hbase, hnodup, hlt, -⟩ := h
    unfold setCoefficientVector
    rw [if_neg (not_not.2 htable), wp_bind]
    refine wp_getCoefficientVector hbase ?_
    rw [wp_bind]
    refine wp_scatter hlt (ih hbase length_scatter fun w hw => hq w ?_)
    refine ⟨_, hw, hnodup, fun i hi => ?_, map_scatter hnodup htable hlt⟩
    rw [length_scatter]
    exact hlt i hi

theorem wp_set_retranslated {Q : Unit → Store C → Prop} {full : List C} (h : baseMatrix.Holds s full)
    (hlt : ∀ i ∈ table, i < full.length) (hlen : v.length = table.length)
    (hq : ∀ w, baseMatrix.Holds (s.set baseMatrix.leaf w) (scatter table v full) →
      Q () (s.set baseMatrix.leaf w)) :
    wp ((retranslated baseMatrix table).setCoefficientVector v) Q E s := by
  unfold setCoefficientVector
  rw [if_neg (not_not.2 hlen), wp_bind]
  refine wp_getCoefficientVector h ?_
  rw [wp_bind]
  exact wp_scatter hlt (wp_setCoefficientVector h length_scatter hq)

theorem wp_set_throws {Q : Unit → Store C → Prop} (hc : m.checks = true) (h : m.Holds s v)
    (hlen : v'.length ≠ v.length) (he : ∀ e, E e s) : wp (m.setCoefficientVector v') Q E s := by
  cases m with
  | matrix addr => cases hc
  | retranslated baseMatrix table =>
    unfold setCoefficientVector
    rw [h.length_retranslated] at hlen
    rw [if_pos hlen]
    exact he _

theorem wp_clone {Q : Matrix → Store C → Prop} (h : m.Holds s v)
    (hq : ∀ m' w, m'.leaf = s.length → m'.checks = m.checks → m'.Holds (s ++ [w]) v → Q m' (s ++ [w])) :
    wp m.clone Q E s := by
  induction m generalizing v Q with
  | matrix addr =>
    unfold clone
    rw [wp_bind, wp_getState, show s[addr]? = some v from h]
    refine hq (.matrix s.length) v rfl rfl ?_
    exact List.getElem?_concat_length
  | retranslated baseMatrix table ih =>
    obtain ⟨full, hbase, hrest⟩ := h
    unfold clone
    rw [wp_bind]
    exact ih hbase fun m' w hleaf _ hm => hq _ w hleaf rfl ⟨full, hm, hrest⟩

end Matrix

/-! ## Evaluators -/

namespace Evaluator

variable {ev : Evaluator C R} {n : Nat} {dev : List C → EvalFloat R}

def leaves : Evaluator C R → List Nat
  | evaluator _ => []
  | retranslated originalBase _ matrixEvaluator => originalBase.leaf :: matrixEvaluator.leaves

/-- The deviation of a matrix of `n` coefficients is `dev` of them. -/
def Ok (s : Store C) : Evaluator C R → Nat → (List C → EvalFloat R) → Prop
  | evaluator deviation, n, dev => ∀ v, v.length = n → dev v = deviation v
  | retranslated originalBase table matrixEvaluator, n, dev => table.length = n ∧ table.Nodup ∧
      originalBase.leaf ∉ matrixEvaluator.leaves ∧ ∃ full d, originalBase.Holds s full ∧
        (∀ i ∈ table, i < full.length) ∧ matrixEvaluator.Ok s full.length d ∧
        ∀ v, v.length = n → dev v = d (scatter table v full)

variable {a : Nat}

theorem Ok.leaves_lt (h : ev.Ok s n dev) (ha : a ∈ ev.leaves) : a < s.length := by
  induction ev generalizing n dev with
  | evaluator deviation => cases ha
  | retranslated originalBase table ev ih =>
    obtain ⟨-, -, -, full, d, hbase, -, hev, -⟩ := h
    rcases List.mem_cons.1 ha with rfl | ha
    · exact hbase.leaf_lt
    · exact ih hev ha

theorem Ok.notMem_leaves (h : ev.Ok s n dev) (ha : s.length ≤ a) : a ∉ ev.leaves :=
  fun hmem => absurd (h.leaves_lt hmem) (Nat.not_lt.2 ha)

def Same (s s' : Store C) : Evaluator C R → Prop
  | evaluator _ => True
  | retranslated originalBase table matrixEvaluator => matrixEvaluator.Same s s' ∧
      ∀ full, originalBase.Holds s full → ∃ full', originalBase.Holds s' full' ∧
        full'.length = full.length ∧ ∀ k, k ∉ table → full'[k]? = full[k]?

theorem Same.trans (h : ev.Same s s') (h' : ev.Same s' s'') : ev.Same s s'' := by
  induction ev with
  | evaluator deviation => exact True.intro
  | retranslated originalBase table ev ih =>
    refine ⟨ih h.1 h'.1, fun full hfull => ?_⟩
    obtain ⟨full1, h1, hlen1, hother1⟩ := h.2 full hfull
    obtain ⟨full2, h2, hlen2, hother2⟩ := h'.2 full1 h1
    exact ⟨full2, h2, hlen2.trans hlen1, fun k hk => (hother2 k hk).trans (hother1 k hk)⟩

theorem Same.of_keeps (hk : Keeps s s' except) (hx : ∀ a ∈ ev.leaves, a ∉ except) :
    ev.Same s s' := by
  induction ev with
  | evaluator deviation => exact True.intro
  | retranslated originalBase table ev ih =>
    refine ⟨ih fun a ha => hx a (List.mem_cons_of_mem _ ha), fun full hfull => ?_⟩
    exact ⟨full, hfull.keep hk (hx _ List.mem_cons_self), rfl, fun _ _ => rfl⟩

theorem Ok.same (h : ev.Ok s n dev) (hs : ev.Same s s') : ev.Ok s' n dev := by
  induction ev generalizing n dev with
  | evaluator deviation => exact h
  | retranslated originalBase table ev ih =>
    obtain ⟨hn, hnodup, hleaf, full, d, hbase, hlt, hev, hdev⟩ := h
    obtain ⟨full', hbase', hlen, hother⟩ := hs.2 full hbase
    have hlt' : ∀ i ∈ table, i < full'.length := fun i hi => hlen ▸ hlt i hi
    refine ⟨hn, hnodup, hleaf, full', d, hbase', hlt', hlen ▸ ih hev hs.1, fun v hv => ?_⟩
    rw [hdev v hv]
    refine congrArg d (scatter_unique hnodup hlt (fun k hk => ?_) (map_scatter hnodup ?_ hlt'))
    · rw [getElem?_scatter hk, hother k hk]
    · exact hv.trans hn.symm

/-- What was made before is kept, and the evaluator computes what it did. -/
structure Stays (ev : Evaluator C R) (s s' : Store C) : Prop where
  keeps : Keeps s s' ev.leaves
  same : ev.Same s s'

theorem Stays.ok (hs : ev.Stays s s') (h : ev.Ok s n dev) : ev.Ok s' n dev := h.same hs.same

theorem Stays.refl : ev.Stays s s := by
  have hk : Keeps s s [] := .refl
  exact ⟨.refl, .of_keeps hk nofun⟩

theorem Stays.trans (h : ev.Stays s s') (h' : ev.Stays s' s'') : ev.Stays s s'' :=
  ⟨h.keeps.trans h'.keeps, h.same.trans h'.same⟩

theorem Stays.append (h : ev.Stays s s') (w : List C) : ev.Stays s (s' ++ [w]) := by
  have hk : Keeps s' (s' ++ [w]) [] := .append w
  exact ⟨h.keeps.trans (.append w), h.same.trans (.of_keeps hk nofun)⟩

theorem Stays.set (h : ev.Stays s s') (h0 : ev.Ok s n dev) (ha : s.length ≤ a) (w : List C) :
    ev.Stays s (s'.set a w) where
  keeps := h.keeps.set ha w
  same := by
    refine h.same.trans (.of_keeps (Keeps.setCell a w) fun b hb hx => ?_)
    rw [List.mem_singleton.1 hx] at hb
    exact h0.notMem_leaves ha hb

variable {Q : EvalFloat R → Store C → Prop} {E : Thrown → Store C → Prop} {m : Matrix} {v : List C}

/-- **`get_deviation`** computes the deviation, and leaves the rest of the store as it is. -/
theorem wp_getDeviation (h : ev.Ok s n dev) (hm : m.Holds s v) (hn : v.length = n)
    (hq : ∀ s', ev.Stays s s' → Q (dev v) s') : wp (ev.getDeviation m) Q E s := by
  induction ev generalizing n dev m v s Q with
  | evaluator deviation =>
    unfold getDeviation
    rw [wp_bind]
    refine Matrix.wp_getCoefficientVector hm ?_
    rw [wp_pure, ← h v hn]
    exact hq s .refl
  | retranslated originalBase table ev ih =>
    obtain ⟨htable, hnodup, hleaf, full, d, hbase, hlt, hev, hdev⟩ := h
    unfold getDeviation
    rw [wp_bind]
    refine Matrix.wp_getCoefficientVector hm ?_
    rw [wp_bind]
    refine Matrix.wp_set_retranslated hbase hlt (hn.trans htable.symm) fun w hbase' => ?_
    rw [wp_bind]
    refine Matrix.wp_clone hbase' fun org w' _ _ hholds => ?_
    have hset : Keeps s (s.set originalBase.leaf w) [originalBase.leaf] := .setCell _ w
    have hadd : Keeps (s.set originalBase.leaf w) (s.set originalBase.leaf w ++ [w']) [] := .append w'
    have hsame : ev.Same s (s.set originalBase.leaf w ++ [w']) := by
      refine (Same.of_keeps hset fun a ha hx => ?_).trans (.of_keeps hadd nofun)
      rw [List.mem_singleton.1 hx] at ha
      exact hleaf ha
    refine ih (hev.same hsame) hholds length_scatter fun s' hs' => ?_
    rw [← hdev v hn]
    refine hq s' ⟨?_, hsame.trans hs'.same, fun full0 hfull0 => ⟨scatter table v full, ?_, ?_⟩⟩
    · refine (hset.weaken ?_).trans ((hadd.weaken (List.nil_subset _)).trans (hs'.keeps.weaken ?_))
      · exact List.cons_subset_cons _ (List.nil_subset _)
      · exact List.subset_cons_self ..
    · exact (hbase'.keep hadd List.not_mem_nil).keep hs'.keeps hleaf
    · rw [hfull0.unique hbase]
      exact ⟨length_scatter, fun k hk => getElem?_scatter hk⟩

end Evaluator

/-! ## CoordinatedSearchOptimizerEngine -/

section

variable [LinearOrder R] {ev : Evaluator C R} {n : Nat} {dev : List C → EvalFloat R} {m m' : Matrix}
  {v v' : List C} {s0 : Store C} {Q : Matrix → Store C → Prop} {E : Thrown → Store C → Prop}

open Evaluator

theorem wp_throwIf {Q : Unit → Store C → Prop} {o : Option Thrown} (hq : Q () s) (he : ∀ e, E e s) :
    wp (throwIf o) Q E s := by
  cases o with
  | none => exact hq
  | some e => exact he e

theorem wp_isBetter {Q : Bool → Store C → Prop} (h : ev.Ok s n dev) (hm : m.Holds s v) (hn : v.length = n)
    (hleaf : m.leaf ∉ ev.leaves) (hm' : m'.Holds s v') (hn' : v'.length = n)
    (hleaf' : m'.leaf ∉ ev.leaves)
    (hq : ∀ b s', (b = true → (dev v).nanCmp (dev v') ≤ 0) → ev.Stays s s' → Q b s') :
    wp (isBetter ev m m') Q E s := by
  unfold isBetter
  rw [wp_bind]
  refine wp_getDeviation h hm hn fun s1 hs1 => ?_
  rw [wp_bind]
  refine wp_getDeviation (hs1.ok h) (hm'.keep hs1.keeps hleaf') hn' fun s2 hs2 => ?_
  have h2 := hs1.trans hs2
  split
  · next hlt =>
    rw [wp_bind]
    refine wp_getDeviation (h2.ok h) (hm.keep h2.keeps hleaf) hn fun s3 hs3 => ?_
    have h3 := h2.trans hs3
    rw [wp_bind]
    refine wp_getDeviation (h3.ok h) (hm'.keep h3.keeps hleaf') hn' fun s4 hs4 => ?_
    exact hq true s4 (fun _ => le_of_lt hlt) (h3.trans hs4)
  · exact hq false s2 nofun h2

/-- **A candidate** of a search that began at `s0` with a deviation of `dev v`. -/
structure Candidate (ev : Evaluator C R) (dev : List C → EvalFloat R) (s0 : Store C) (v : List C)
    (s : Store C) (m : Matrix) : Prop where
  made : s0.length ≤ m.leaf
  checks : m.checks = true
  holds : ∃ v', m.Holds s v' ∧ v'.length = v.length ∧ (dev v').nanCmp (dev v) ≤ 0

theorem Candidate.keep (h : Candidate ev dev s0 v s m) (h0 : ev.Ok s0 n dev)
    (hs : ev.Stays s s') : Candidate ev dev s0 v s' m where
  made := h.made
  checks := h.checks
  holds := by
    obtain ⟨v', hm, hrest⟩ := h.holds
    exact ⟨v', hm.keep hs.keeps (h0.notMem_leaves h.made), hrest⟩

omit [LinearOrder R] in
theorem wp_evaluate {Q : Unit → Store C → Prop} {eval : List C × Bool} (h : ev.Ok s n dev)
    (hs : ev.Stays s s') (hm : m.Holds s' v) (hn : v.length = n) (hc : m.checks = true)
    (hmade : s.length ≤ m.leaf)
    (hq : ∀ s'' v'', ev.Stays s s'' → m.Holds s'' v'' → v''.length = n → Q () s'')
    (he : ∀ e s'', ev.Stays s s'' → E e s'') : wp (evaluate m ev eval) Q E s' := by
  unfold evaluate timeMachine
  rw [wp_tryCatch, wp_bind, wp_bind]
  by_cases hsize : eval.1.length = v.length
  · refine Matrix.wp_setCoefficientVector hm hsize fun w hset => ?_
    have hs1 : ev.Stays s (s'.set m.leaf w) := hs.set h hmade w
    refine wp_getDeviation (hs1.ok h) hset (hsize.trans hn) fun s2 hs2 => ?_
    exact hq s2 _ (hs1.trans hs2) (hset.keep hs2.keeps (h.notMem_leaves hmade)) (hsize.trans hn)
  · refine Matrix.wp_set_throws hc hm hsize fun e => ?_
    split
    · exact hq s' v hs hm hn
    · exact he e s' hs

omit [LinearOrder R] in
theorem wp_optimizeOne {Q : List C → Store C → Prop} {one : One C} (h : ev.Ok s n dev)
    (hm : m.Holds s v) (hn : v.length = n) (hc : m.checks = true)
    (hq : ∀ v' s', ev.Stays s s' → Q v' s')
    (he : ∀ e s', ev.Stays s s' → E e s') : wp (optimizeOne m ev one) Q E s := by
  unfold optimizeOne
  split
  · exact he _ s .refl
  · rw [wp_bind]
    refine Matrix.wp_clone hm fun tmp w hleaf htmp hholds => ?_
    let Inv : Unit → Store C → Prop := fun _ s' =>
      ev.Stays s s' ∧ ∃ v', tmp.Holds s' v' ∧ v'.length = n
    have h0 : Inv () (s ++ [w]) := ⟨Stays.refl.append w, v, hholds, hn⟩
    rw [wp_bind]
    refine (wp_foldlM_inv Inv h0 fun eval _ s' hinv => ?_).mono (fun _ s' hinv => ?_) he
    · obtain ⟨hs', v', hv', hn'⟩ := hinv
      refine wp_evaluate h hs' hv' hn' (htmp.trans hc) hleaf.ge (fun s'' v'' hs'' hv'' hn'' => ?_) ?_
      · exact ⟨hs'', v'', hv'', hn''⟩
      · exact fun _ s'' hs'' => hs''
    · exact wp_ofExcept (fun v' _ => hq v' s' hinv.1) fun e _ => he e s' hinv.1

/-- **One try** goes on with a candidate. -/
theorem wp_tryOne {one : One C} (h0 : ev.Ok s0 v.length dev) (hs : ev.Stays s0 s)
    (hm : Candidate ev dev s0 v s m)
    (hq : ∀ m' s', ev.Stays s s' → Candidate ev dev s0 v s' m' → Q m' s')
    (he : ∀ e s', ev.Stays s s' → E e s') : wp (tryOne ev m one) Q E s := by
  obtain ⟨v1, hm1, hn1, hle1⟩ := hm.holds
  have hgiveUp : ∀ s', ev.Stays s s' → Q m s' := fun s' hs' => hq m s' hs' (hm.keep h0 hs')
  unfold tryOne
  rw [wp_tryCatch, wp_bind]
  refine wp_optimizeOne (hs.ok h0) hm1 hn1 hm.checks (fun v2 s1 hs1 => ?_) fun e s1 hs1 => ?_
  · rw [wp_bind]
    have hm2 := hm1.keep hs1.keeps (h0.notMem_leaves hm.made)
    refine Matrix.wp_clone hm2 fun test w hleaf htest hholds => ?_
    have hs2 : ev.Stays s (s1 ++ [w]) := hs1.append w
    rw [wp_bind]
    by_cases hsize : v2.length = v1.length
    · refine Matrix.wp_setCoefficientVector hholds hsize fun w' hset => ?_
      have hmade : s.length ≤ test.leaf := hs1.keeps.length.trans hleaf.ge
      have hs3 : ev.Stays s ((s1 ++ [w]).set test.leaf w') := hs2.set (hs.ok h0) hmade w'
      rw [wp_bind]
      refine wp_isBetter (hs3.ok (hs.ok h0)) hset (hsize.trans hn1) ((hs.ok h0).notMem_leaves hmade)
        (hm1.keep hs3.keeps (h0.notMem_leaves hm.made)) hn1 (h0.notMem_leaves hm.made)
        fun b s4 hb hs4 => ?_
      have hs5 := hs3.trans hs4
      cases b with
      | true =>
        refine hq test s4 hs5 ⟨hs.keeps.length.trans hmade, htest.trans hm.checks, v2, ?_, ?_, ?_⟩
        · exact hset.keep hs4.keeps ((hs.ok h0).notMem_leaves hmade)
        · exact hsize.trans hn1
        · exact EvalFloat.nanCmp_trans (hb rfl) hle1
      | false => exact hgiveUp s4 hs5
    · refine Matrix.wp_set_throws (htest.trans hm.checks) hholds hsize fun e => ?_
      cases e with
      | operationCanceled => exact he _ _ hs2
      | invalidArgument what => exact hgiveUp _ hs2
      | other => exact hgiveUp _ hs2
  · cases e with
    | operationCanceled => exact he _ s1 hs1
    | invalidArgument what => exact hgiveUp s1 hs1
    | other => exact hgiveUp s1 hs1

variable {activationVec : List Bool} {inner : Inner C}

theorem wp_stepLoop {loopSz i j : Nat} (h0 : ev.Ok s0 v.length dev) (hs : ev.Stays s0 s)
    (hm : Candidate ev dev s0 v s m)
    (hq : ∀ m' s', ev.Stays s s' → Candidate ev dev s0 v s' m' → Q m' s')
    (he : ∀ e s', ev.Stays s s' → E e s') : wp (stepLoop inner loopSz ev i j m) Q E s := by
  let Inv : Matrix → Store C → Prop := fun m' s' =>
    ev.Stays s s' ∧ Candidate ev dev s0 v s' m'
  refine (wp_foldlM_inv Inv ⟨.refl, hm⟩ fun z tmp s' hinv => ?_).mono (fun m' s' hinv => ?_) he
  · rw [wp_bind]
    refine wp_throwIf ?_ fun _ => hinv.1
    rw [wp_bind]
    refine wp_tryOne h0 (hs.trans hinv.1) hinv.2 (fun m' s'' hs'' hm' => ?_) fun _ s'' hs'' =>
      hinv.1.trans hs''
    rw [wp_bind]
    exact wp_throwIf ⟨hinv.1.trans hs'', hm'⟩ fun _ => hinv.1.trans hs''
  · exact hq m' s' hinv.1 hinv.2

theorem wp_epochLoop {stepSz loopSz i : Nat} {best : Matrix} (h0 : ev.Ok s0 v.length dev)
    (hs : ev.Stays s0 s) (hbest : Candidate ev dev s0 v s best) (hm : Candidate ev dev s0 v s m)
    (hq : ∀ m' s', ev.Stays s s' → Candidate ev dev s0 v s' m' → Q m' s')
    (he : ∀ e s', ev.Stays s s' → E e s') :
    wp (epochLoop inner stepSz loopSz ev i best m) Q E s := by
  let Inv : Matrix → Store C → Prop := fun m' s' =>
    ev.Stays s s' ∧ Candidate ev dev s0 v s' m'
  refine (wp_foldlM_inv Inv ⟨.refl, hm⟩ fun j tmp s' hinv => ?_).mono (fun m' s' hinv => ?_) he
  · obtain ⟨vbest, hvbest, -⟩ := (hbest.keep h0 hinv.1).holds
    rw [wp_bind]
    refine wp_throwIf ?_ fun _ => hinv.1
    rw [wp_bind]
    refine Matrix.wp_getCoefficientVector hvbest ?_
    rw [wp_bind]
    refine wp_stepLoop h0 (hs.trans hinv.1) hinv.2 (fun m' s'' hs'' hm' => ?_) fun _ s'' hs'' =>
      hinv.1.trans hs''
    rw [wp_bind]
    exact wp_throwIf ⟨hinv.1.trans hs'', hm'⟩ fun _ => hinv.1.trans hs''
  · exact hq m' s' hinv.1 hinv.2

/-- **What an engine is for.** For the matrices that have `needs`, it returns a new matrix that is no
worse and has the old coefficients where `fixed`; and what was made before stays as it is, also if it
throws. -/
def Engine.Improves (engine : Engine C R) (needs : Matrix → Prop) (fixed : Nat → Prop) : Prop :=
  ∀ s m ev dev v, needs m → m.Holds s v → ev.Ok s v.length dev →
    wp (engine m ev)
      (fun m' s' => ev.Stays s s' ∧ s.length ≤ m'.leaf ∧ ∃ v', m'.Holds s' v' ∧
        v'.length = v.length ∧ (dev v').nanCmp (dev v) ≤ 0 ∧ ∀ k, fixed k → v'[k]? = v[k]?)
      (fun _ s' => ev.Stays s s') s

/-- **The innermost engine** improves a matrix that checks the size of what it is set to. -/
theorem coordinatedSearch_improves (config : CoordinatedSearchOptimizerEngineConfig) (inner : Inner C) :
    Engine.Improves (coordinatedSearch (R := R) config inner) (fun m => m.checks = true)
      fun _ => False := by
  intro s m ev dev v hc hm h
  unfold coordinatedSearch
  rw [wp_bind]
  refine Matrix.wp_getCoefficientVector hm ?_
  rw [wp_bind]
  refine Matrix.wp_clone hm fun best w hleaf hbest hholds => ?_
  have hs1 : ev.Stays s (s ++ [w]) := Stays.refl.append w
  rw [wp_bind]
  refine wp_throwIf ?_ fun _ => hs1
  let Inv : Matrix → Store C → Prop := fun m' s' =>
    ev.Stays s s' ∧ Candidate ev dev s v s' m'
  have hcand : Candidate ev dev s v (s ++ [w]) best :=
    ⟨hleaf.ge, hbest.trans hc, v, hholds, rfl, EvalFloat.nanCmp_self⟩
  refine (wp_foldlM_inv Inv ⟨hs1, hcand⟩ fun i best s2 hinv => ?_).mono (fun m' s' hinv => ?_)
    fun _ s' hs' => hs'
  · obtain ⟨hs2, hbest⟩ := hinv
    obtain ⟨vbest, hvbest, hnbest, hlebest⟩ := hbest.holds
    rw [wp_bind]
    refine wp_throwIf ?_ fun _ => hs2
    rw [wp_bind]
    refine Matrix.wp_clone hvbest fun tmp w hleaf htmp hholds => ?_
    have hclone : ev.Stays s2 (s2 ++ [w]) := Stays.refl.append w
    have hs3 := hs2.trans hclone
    have htmp' : Candidate ev dev s v (s2 ++ [w]) tmp :=
      ⟨hs2.keeps.length.trans hleaf.ge, htmp.trans hbest.checks, vbest, hholds, hnbest, hlebest⟩
    rw [wp_bind]
    refine wp_epochLoop h hs3 (hbest.keep h hclone) htmp' (fun tmp s4 hs4 htmp => ?_)
      fun _ s4 hs4 => hs3.trans hs4
    have hs5 := hs3.trans hs4
    have hbest4 := (hbest.keep h hclone).keep h hs4
    obtain ⟨vtmp, hvtmp, hntmp, hletmp⟩ := htmp.holds
    obtain ⟨vbest4, hvbest4, hnbest4, hlebest4⟩ := hbest4.holds
    rw [wp_bind]
    refine wp_isBetter (hs5.ok h) hvtmp hntmp (h.notMem_leaves htmp.made) hvbest4 hnbest4
      (h.notMem_leaves hbest4.made) fun b s6 _ hs6 => ?_
    rw [wp_bind]
    refine wp_throwIf ?_ fun _ => hs5.trans hs6
    cases b with
    | true => exact ⟨hs5.trans hs6, htmp.keep h hs6⟩
    | false => exact ⟨hs5.trans hs6, hbest4.keep h hs6⟩
  · obtain ⟨hs', hm'⟩ := hinv
    obtain ⟨v', hv', hn', hle⟩ := hm'.holds
    exact ⟨hs', hm'.made, v', hv', hn', hle, fun _ hf => hf.elim⟩

/-! ## BlockedSearchOptimizerEngine -/

omit [LinearOrder R] in
/-- The evaluator that an inner engine is given stays as the outer one does, but for its own scratch. -/
theorem stays_of_retranslated {original : Matrix} {table : List Nat}
    (hs : (retranslated original table ev).Stays s s') (h0 : s0.length ≤ original.leaf)
    (hk : ev.Stays s0 s) : ev.Stays s0 s' where
  keeps :=
    { length := hk.keeps.length.trans hs.keeps.length
      cells := fun a ha hx => by
        have hne : a ∉ (retranslated original table ev).leaves := by
          intro hmem
          rcases List.mem_cons.1 hmem with rfl | hmem
          · exact absurd ha (Nat.not_lt.2 h0)
          · exact hx hmem
        exact (hs.keeps.cells a (ha.trans_le hk.keeps.length) hne).trans (hk.keeps.cells a ha hx) }
  same := hk.same.trans hs.same.1

theorem getTranslationTable_lt {i : Nat} (hi : i ∈ getTranslationTable activationVec n) : i < n :=
  List.mem_range.1 (List.mem_filter.1 hi).1

theorem getTranslationTable_active {i : Nat} (hi : i ∈ getTranslationTable activationVec n) :
    activationVec[i]? ≠ some false := by
  intro hf
  have h := (List.mem_filter.1 hi).2
  rw [List.getD_eq_getElem?_getD, hf] at h
  cases h

/-- **A block** is improved if the engine behind it improves what it is shown. -/
theorem blockedSearch_improves {base : Engine C R}
    (hbase : Engine.Improves base (fun m => m.checks = true) fun _ => False) :
    Engine.Improves (blockedSearch base activationVec) (fun _ => True)
      fun k => activationVec[k]? = some false := by
  intro s m ev dev v _ hm h
  have hlt : ∀ i ∈ getTranslationTable activationVec v.length, i < v.length :=
    fun i hi => getTranslationTable_lt hi
  have hnodup : (getTranslationTable activationVec v.length).Nodup :=
    List.nodup_range.filter _
  obtain ⟨vt, hvt⟩ : ∃ vt : List C, (getTranslationTable activationVec v.length).map (fun i => v[i]?) =
    vt.map some := exists_map_some hlt
  unfold blockedSearch
  rw [wp_bind]
  refine Matrix.wp_getCoefficientVector hm ?_
  rw [wp_bind]
  refine Matrix.wp_clone hm fun original w horiginal _ hholds => ?_
  have hs1 : ev.Stays s (s ++ [w]) := Stays.refl.append w
  have hm1 : m.Holds (s ++ [w]) v := hm.congr (List.getElem?_append_left hm.leaf_lt)
  rw [wp_bind]
  refine Matrix.wp_getCoefficientVector hm1 ?_
  rw [wp_bind]
  refine Matrix.wp_clone hm1 fun baseMatrix w' hleaf _ hbaseHolds => ?_
  have hs2 : ev.Stays s (s ++ [w] ++ [w']) := hs1.append w'
  have horiginal2 : original.Holds (s ++ [w] ++ [w']) v :=
    hholds.congr (List.getElem?_append_left hholds.leaf_lt)
  have htable : (getTranslationTable activationVec v.length).length = vt.length := by
    simpa using congrArg List.length hvt
  have hfresh : original.leaf ∉ ev.leaves := h.notMem_leaves horiginal.ge
  -- what the inner engine is shown: the active coefficients, and their deviation in the full vector
  have hshown : (Matrix.retranslated baseMatrix (getTranslationTable activationVec v.length)).Holds
      (s ++ [w] ++ [w']) vt := ⟨v, hbaseHolds, hnodup, hlt, hvt⟩
  have hev : (retranslated original (getTranslationTable activationVec v.length) ev).Ok
      (s ++ [w] ++ [w']) vt.length
      (fun u => dev (scatter (getTranslationTable activationVec v.length) u v)) :=
    ⟨htable, hnodup, hfresh, v, dev, horiginal2, hlt, hs2.ok h, fun _ _ => rfl⟩
  rw [wp_bind]
  refine (hbase _ _ _ _ vt rfl hshown hev).mono (fun rs s3 hpost => ?_) fun e s3 hs3 =>
    stays_of_retranslated hs3 horiginal.ge hs2
  obtain ⟨hs3, -, v', hv', hn', hle, -⟩ := hpost
  have hs3' : ev.Stays s s3 := stays_of_retranslated hs3 horiginal.ge hs2
  rw [wp_bind]
  refine Matrix.wp_getCoefficientVector hv' ?_
  have hout : baseMatrix.leaf ∉ (retranslated original (getTranslationTable activationVec v.length)
      ev).leaves := by
    intro hmem
    have hlen : (s ++ [w]).length = s.length + 1 := by simp
    rcases List.mem_cons.1 hmem with hmem | hmem
    · omega
    · exact h.notMem_leaves (by omega) hmem
  have hmade : s.length ≤ baseMatrix.leaf := by
    have hlen : (s ++ [w]).length = s.length + 1 := by simp
    omega
  rw [wp_bind]
  refine Matrix.wp_set_retranslated (hbaseHolds.keep hs3.keeps hout) hlt (hn'.trans htable.symm)
    fun u hset => ?_
  have hs4 : ev.Stays s (s3.set baseMatrix.leaf u) := hs3'.set h hmade u
  refine Matrix.wp_clone hset fun m' u' hleaf' _ hholds' => ?_
  refine ⟨hs4.append u', hs4.keeps.length.trans hleaf'.ge, _, hholds', length_scatter, ?_,
    fun k hk => getElem?_scatter fun hmem => getTranslationTable_active hmem hk⟩
  rwa [scatter_self hnodup hlt hvt] at hle

/-! ## TailBlockedSearchOptimizerEngine -/

namespace TailBlockedSearchOptimizerEngine

variable (engine : TailBlockedSearchOptimizerEngine)

def level : Nat → Level
  | 0 => engine.firstLevel
  | i + 1 =>
    { engine.raise (level i) with lvlBarCounter := (engine.raise (level i)).lvlBarCounter + 1 }

def activeX (i : Nat) : Nat := (engine.raise (engine.level i)).activeX

theorem getActivationVector_getElem? {activeSz totalSz k : Nat} (hk : activeSz ≤ k)
    (hlt : k < totalSz) : (getActivationVector activeSz totalSz)[k]? = some false := by
  unfold getActivationVector
  rw [List.getElem?_append_right (by simp; omega), List.getElem?_replicate, if_pos]
  simp
  omega

/-- **The outermost engine** keeps the coefficients behind every prefix that it made active. -/
theorem optimize_improves {base : Nat → Engine C R}
    (hbase : ∀ i, Engine.Improves (base i) (fun m => m.checks = true) fun _ => False) :
    Engine.Improves (engine.optimize base) (fun _ => True)
      fun k => ∀ i < engine.iterationSz, engine.activeX i ≤ k := by
  intro s m ev dev v _ hm h
  unfold optimize
  rw [wp_bind]
  refine Matrix.wp_getCoefficientVector hm ?_
  rw [wp_bind]
  refine Matrix.wp_clone hm fun operating w hleaf _ hholds => ?_
  have hs1 : ev.Stays s (s ++ [w]) := Stays.refl.append w
  -- after `i` iterations: an improved matrix that has the coefficients behind the prefixes used
  let Inv : List Nat → Matrix × Level → Store C → Prop := fun done r s' =>
    ev.Stays s s' ∧ s.length ≤ r.1.leaf ∧ r.2 = engine.level done.length ∧ ∃ v', r.1.Holds s' v' ∧
      v'.length = v.length ∧ (dev v').nanCmp (dev v) ≤ 0 ∧
      ∀ k, (∀ i < done.length, engine.activeX i ≤ k) → v'[k]? = v[k]?
  rw [wp_bind]
  refine (wp_foldlM Inv ?_ ?_).mono ?_ fun _ s' hs' => hs'
  · exact ⟨hs1, hleaf.ge, rfl, v, hholds, rfl, EvalFloat.nanCmp_self, fun _ _ => rfl⟩
  · rintro done i ⟨operating, level⟩ s2 - ⟨hs2, hmade, hlevel, v', hv', hn', hle, hsame⟩
    have hok : ev.Ok s2 v'.length dev := hn' ▸ hs2.ok h
    dsimp only at hlevel hmade hv' ⊢
    rw [wp_bind]
    refine (blockedSearch_improves (hbase i) s2 operating ev dev v' True.intro hv' hok).mono ?_
      fun _ s3 hs3 => hs2.trans hs3
    rintro m3 s3 ⟨hs3, hmade3, v3, hv3, hn3, hle3, hsame3⟩
    refine ⟨hs2.trans hs3, hs2.keeps.length.trans hmade3, ?_, v3, hv3, hn3.trans hn',
      EvalFloat.nanCmp_trans hle3 hle, fun k hk => ?_⟩
    · rw [hlevel, List.length_append]
      rfl
    · rw [List.length_append] at hk
      have hactive : (engine.raise level).activeX ≤ k := hlevel ▸ hk done.length (Nat.lt_succ_self _)
      by_cases hlt : k < v.length
      · rw [hsame3 k (getActivationVector_getElem? hactive hlt)]
        exact hsame k fun j hj => hk j (Nat.lt_succ_of_lt hj)
      · rw [List.getElem?_eq_none (by omega), List.getElem?_eq_none (by omega)]
  · rintro ⟨m', level⟩ s' ⟨hs', hmade, -, v', hv', hn', hle, hsame⟩
    rw [List.length_range] at hsame
    exact ⟨hs', hmade, v', hv', hn', hle, hsame⟩

end TailBlockedSearchOptimizerEngine

/-- **The block-coordinated search never worsens a matrix**, whatever the machines do: it does not go
wrong, the input keeps its coefficients, and a matrix that it returns is no worse than the input and has
the input's coefficients behind the largest prefix that was active. -/
theorem blockCoordinatedSearch_never_worsens (config : CoordinatedSearchOptimizerEngineConfig)
    (tail : TailBlockedSearchOptimizerEngine) (inner : Nat → Inner C) (deviation : List C → EvalFloat R)
    (hm : m.Holds s v) : ∃ r s',
      blockCoordinatedSearch config tail inner m (.evaluator deviation) s = .ok (r, s') ∧
      m.Holds s' v ∧ ∀ m', r = .ok m' → ∃ v', m'.Holds s' v' ∧ v'.length = v.length ∧
        (deviation v').nanCmp (deviation v) ≤ 0 ∧
        ∀ k, (∀ i < tail.iterationSz, tail.activeX i ≤ k) → v'[k]? = v[k]? := by
  have h := tail.optimize_improves (fun i => coordinatedSearch_improves config (inner i)) s m
    (.evaluator deviation) deviation v True.intro hm fun _ _ => rfl
  obtain ⟨r, s', hrun, hok, herr⟩ := wp_iff.1 h
  refine ⟨r, s', hrun, ?_, fun m' hr => ?_⟩
  · cases r with
    | ok m' => exact hm.keep (hok m' rfl).1.keeps List.not_mem_nil
    | error e => exact hm.keep (herr e rfl).keeps List.not_mem_nil
  · obtain ⟨-, -, v', hv', hn', hle, hsame⟩ := hok m' hr
    exact ⟨v', hv', hn', hle, hsame⟩

end

/-- One iteration with one active coefficient, for which the machines find a better value. -/
theorem blockCoordinatedSearch_never_worsens_one :
    let inner : Inner Int := ⟨none, fun _ => none, fun _ => none, fun _ _ => none, fun _ _ => none,
      fun _ _ _ => none, fun _ _ _ => ⟨false, [([3], false)], .ok [1]⟩, fun _ _ _ => none⟩
    let deviation : List Int → EvalFloat Int := fun v => .num v.sum
    ∃ r s', blockCoordinatedSearch ⟨1, 1, some 1⟩ ⟨(2 * ·), 1, 1, 1, id⟩ (fun _ => inner) (.matrix 0)
        (.evaluator deviation) [[5, 7, 9]] = .ok (r, s') ∧
      (Matrix.matrix 0).Holds s' [5, 7, 9] ∧ ∀ m', r = .ok m' → ∃ v', m'.Holds s' v' ∧ v'.length = 3 ∧
        (deviation v').nanCmp (deviation [5, 7, 9]) ≤ 0 ∧
        ∀ k, (∀ i < 1, (⟨(2 * ·), 1, 1, 1, id⟩ : TailBlockedSearchOptimizerEngine).activeX i ≤ k) →
          v'[k]? = [5, 7, 9][k]? :=
  blockCoordinatedSearch_never_worsens _ _ _ _ rfl

end MatrixOptimizer
