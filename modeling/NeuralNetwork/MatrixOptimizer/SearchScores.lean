import Mathlib.Algebra.Order.Field.Basic
import Mathlib.Algebra.Order.Ring.Rat
import NeuralNetwork.Lib.Run
import NeuralNetwork.MatrixOptimizer.BlockCoordinatedSearch

/-!
# The scores of the coordinated search

What `CoordinatedSearchOptimizerEngine::optimize` feeds back, over exact deviations: a step of the `Search` is
given the deviation of the candidate of `optimize_one`, or `none` if that threw, and a run may end at any
step. The normalizer clamps to the range of the improvements and not to `[0, 1]`, and an iteration is
credited with the running maximum of its step, so the scores are fair in the runs in which neither shows
(`Search.scores_fair`).
-/

namespace MatrixOptimizer

/-! ## MinMaxScoreNormalizer -/

structure MinMaxScoreNormalizer where
  minValue : Option ℚ
  maxValue : Option ℚ
deriving DecidableEq

def clamp (v lo hi : ℚ) : ℚ := if v < lo then lo else if hi < v then hi else v

/-- The quotient is NaN if it is one of two zeros. -/
def MinMaxScoreNormalizer.normalize (normalizer : MinMaxScoreNormalizer) (x : ℚ) :
    MinMaxScoreNormalizer × ℚ :=
  let minValue := normalizer.minValue.getD x
  let minValue := if minValue > x then x else minValue
  let maxValue := normalizer.maxValue.getD x
  let maxValue := if maxValue < x then x else maxValue
  let tentativeValue :=
    if maxValue - minValue = 0 then minValue else (x - minValue) / (maxValue - minValue)
  (⟨some minValue, some maxValue⟩, clamp tentativeValue minValue maxValue)

/-! ## The loops of `optimize` -/

/-- A score that is fed back, with what the deviation was lowered by. -/
inductive Feedback where
  /-- To `time_machine_container` and `heuristic_time_machine_wrapper`. -/
  | iteration (improvement : Option ℚ) (score : ℚ)
  /-- To `projector_container`, `heuristic_projector_wrapper` and `time_machine_iteration_ctx_wrapper`. -/
  | step (score : ℚ)
  /-- To `outer_time_machine_iteration_ctx_wrapper` and `projector_iteration_ctx_wrapper`. -/
  | epoch (improvement : Option ℚ) (score : ℚ)
deriving DecidableEq

/-- The test of a loop comes next. -/
inductive SearchPc where
  | epoch (i : Nat)
  | step (i j : Nat)
  | loop (i j z : Nat)
deriving DecidableEq

structure Search where
  pc : SearchPc
  scoreNormalizer0 : MinMaxScoreNormalizer
  scoreNormalizer1 : MinMaxScoreNormalizer
  /-- The deviations of `best_matrix` and `tmp_matrix`. -/
  best : ℚ
  tmp : ℚ
  projectionScore : ℚ
  /-- What was fed back, the last one first. -/
  log : List Feedback
deriving DecidableEq

namespace Search

def start (deviation : ℚ) : Search := ⟨.epoch 0, ⟨none, none⟩, ⟨none, none⟩, deviation, deviation, 0, []⟩

def isLower (lhs rhs : ℚ) : Bool := (EvalFloat.num lhs).nanCmp (.num rhs) < 0

/-- The body of the inner loop. -/
def iteration (w : Search) (candidate : Option ℚ) : Search :=
  match candidate.filter (isLower · w.tmp) with
  | none => { w with log := .iteration none 0 :: w.log }
  | some test =>
    let improvement := |test - w.tmp|
    let (scoreNormalizer0, tentativeScore) := w.scoreNormalizer0.normalize improvement
    let projectionScore := max w.projectionScore tentativeScore
    let timeMachineScore := max projectionScore tentativeScore
    { w with scoreNormalizer0, projectionScore, tmp := test
             log := .iteration (some improvement) timeMachineScore :: w.log }

/-- What an epoch ends with. -/
def epochFeedback (w : Search) : Search :=
  if isLower w.tmp w.best then
    let improvement := |w.tmp - w.best|
    let (scoreNormalizer1, tentativeScore) := w.scoreNormalizer1.normalize improvement
    { w with scoreNormalizer1, best := w.tmp, log := .epoch (some improvement) tentativeScore :: w.log }
  else { w with log := .epoch none 0 :: w.log }

/-- A step; `none` after the last epoch. -/
def next (config : CoordinatedSearchOptimizerEngineConfig) (w : Search) (candidate : Option ℚ) :
    Option Search :=
  match w.pc with
  | .epoch i =>
    if i < config.optimizationEpochSz then some { w with tmp := w.best, pc := .step i 0 } else none
  | .step i j =>
    if j < config.optimizationStepSz then some { w with projectionScore := 0, pc := .loop i j 0 }
    else some { w.epochFeedback with pc := .epoch (i + 1) }
  | .loop i j z =>
    if z < config.optimizationLoopSz.getD DEFAULT_OPTIMIZATION_LOOP_SZ then
      some { w.iteration candidate with pc := .loop i j (z + 1) }
    else some { w with log := .step w.projectionScore :: w.log, pc := .step i (j + 1) }

end Search

/-! ## Fair scores -/

namespace Feedback

def improvement : Feedback → Option ℚ
  | iteration x _ => x
  | _ => none

def epochImprovement : Feedback → Option ℚ
  | epoch x _ => x
  | _ => none

/-- The scores of the iterations since the last step ended. -/
def stepScores : List Feedback → List ℚ
  | iteration _ score :: log => score :: stepScores log
  | _ => []

/-- What the iterations lowered the deviation by, the last one first. -/
abbrev improvements (log : List Feedback) : List ℚ := log.filterMap improvement

/-- What the epochs lowered the deviation by. -/
abbrev epochImprovements (log : List Feedback) : List ℚ := log.filterMap epochImprovement

/-- `x` min-max normalised against what was seen, or `c` where all of that is equal. -/
def minMax (c : ℚ) (seen : List ℚ) (x : ℚ) : ℚ :=
  match seen.min?, seen.max? with
  | some lo, some hi => if hi = lo then c else (x - lo) / (hi - lo)
  | _, _ => c

def InUnit (score : ℚ) : Prop := 0 ≤ score ∧ score ≤ 1

/-- The scores that a log has are fair, with the fixed value `c`. -/
def Fair (c : ℚ) : List Feedback → Prop
  | [] => True
  | iteration none score :: log => score = 0 ∧ Fair c log
  | iteration (some x) score :: log =>
    (InUnit score ∧ score = minMax c (x :: improvements log) x) ∧ Fair c log
  | step score :: log => (InUnit score ∧ score = (stepScores log).foldr max 0) ∧ Fair c log
  | epoch _ score :: log => InUnit score ∧ Fair c log

/-- The normalised value of `x` is not clamped to the range of `x` and what was seen, and the only value
seen is no more than one. -/
def Unclamped (seen : List ℚ) (x : ℚ) : Prop :=
  ∀ lo hi, (x :: seen).min? = some lo → (x :: seen).max? = some hi →
    if hi = lo then lo ≤ 1 else lo ≤ (x - lo) / (hi - lo) ∧ (x - lo) / (hi - lo) ≤ hi

theorem Fair.const {c : ℚ} {log : List Feedback} (h : Fair c log) (hnil : improvements log = [])
    (c' : ℚ) : Fair c' log := by
  induction log with
  | nil => trivial
  | cons f log ih =>
    cases f with
    | iteration x score =>
      cases x with
      | none => exact ⟨h.1, ih h.2 hnil⟩
      | some x => cases hnil
    | step score => exact ⟨h.1, ih h.2 hnil⟩
    | epoch x score => exact ⟨h.1, ih h.2 hnil⟩

theorem minMax_const {lo hi : ℚ} {seen : List ℚ} (hmin : seen.min? = some lo) (hmax : seen.max? = some hi)
    (h : hi ≠ lo) (c c' x : ℚ) : minMax c seen x = minMax c' seen x := by
  unfold minMax
  rw [hmin, hmax]
  exact (if_neg h).trans (if_neg h).symm

end Feedback

open Feedback MinMaxScoreNormalizer

theorem min?_le {l : List ℚ} {lo y : ℚ} (h : l.min? = some lo) (hy : y ∈ l) : lo ≤ y :=
  (List.min?_eq_some_iff.1 h).2 y hy

theorem le_max? {l : List ℚ} {hi y : ℚ} (h : l.max? = some hi) (hy : y ∈ l) : y ≤ hi :=
  (List.max?_eq_some_iff.1 h).2 y hy

namespace MinMaxScoreNormalizer

/-- The range of the normalizer is that of the values that it has seen. -/
def Has (normalizer : MinMaxScoreNormalizer) (seen : List ℚ) : Prop :=
  normalizer.minValue = seen.min? ∧ normalizer.maxValue = seen.max?

variable {normalizer : MinMaxScoreNormalizer} {seen : List ℚ} {x : ℚ}

theorem normalize_range (h : normalizer.Has seen) (x : ℚ) :
    ∃ lo hi, (x :: seen).min? = some lo ∧ (x :: seen).max? = some hi ∧
      normalizer.normalize x = (⟨some lo, some hi⟩,
        clamp (if hi - lo = 0 then lo else (x - lo) / (hi - lo)) lo hi) := by
  refine ⟨_, _, List.min?_cons, List.max?_cons, ?_⟩
  have hmin : (if normalizer.minValue.getD x > x then x else normalizer.minValue.getD x) =
      seen.min?.elim x (min x) := by
    rw [h.1]
    cases seen.min? with
    | none => exact ite_self x
    | some lo => exact (min_def_lt x lo).symm
  have hmax : (if normalizer.maxValue.getD x < x then x else normalizer.maxValue.getD x) =
      seen.max?.elim x (max x) := by
    rw [h.2]
    cases seen.max? with
    | none => exact ite_self x
    | some hi =>
      rw [Option.elim_some, max_comm]
      exact (max_def_lt hi x).symm
  unfold normalize
  simp only [hmin, hmax]

theorem normalize_eq (h : normalizer.Has seen) (hx : 0 ≤ x) (hu : Unclamped seen x) :
    (normalizer.normalize x).1.Has (x :: seen) ∧
      (normalizer.normalize x).2 = minMax x (x :: seen) x ∧ InUnit (normalizer.normalize x).2 := by
  obtain ⟨lo, hi, hmin, hmax, e⟩ := normalize_range h x
  have hlo : lo ≤ x := min?_le hmin List.mem_cons_self
  have hhi : x ≤ hi := le_max? hmax List.mem_cons_self
  have hu := hu lo hi hmin hmax
  rw [e]
  refine ⟨⟨hmin.symm, hmax.symm⟩, ?_⟩
  unfold minMax clamp
  rw [hmin, hmax]
  dsimp only
  by_cases heq : hi = lo
  · obtain rfl : x = lo := le_antisymm (heq ▸ hhi) hlo
    rw [if_pos heq] at hu
    rw [if_pos heq, if_pos (sub_eq_zero.2 heq), if_neg (lt_irrefl x), if_neg (not_lt.2 hhi)]
    exact ⟨rfl, hx, hu⟩
  · rw [if_neg heq] at hu
    rw [if_neg heq, if_neg (sub_ne_zero.2 heq), if_neg (not_lt.2 hu.1), if_neg (not_lt.2 hu.2)]
    have hpos : 0 < hi - lo := sub_pos.2 (lt_of_le_of_ne (hlo.trans hhi) (Ne.symm heq))
    exact ⟨rfl, div_nonneg (sub_nonneg.2 hlo) hpos.le, (div_le_one hpos).2 (sub_le_sub_right hhi lo)⟩

end MinMaxScoreNormalizer

/-! ## Runs -/

namespace Search

variable {config : CoordinatedSearchOptimizerEngineConfig} {w w' : Search} {candidate : Option ℚ}

theorem isLower_iff {a b : ℚ} : isLower a b = true ↔ a < b := by
  have hcmp : (EvalFloat.num a).nanCmp (.num b) = if a < b then -1 else if b < a then 1 else 0 := by
    simp [EvalFloat.nanCmp, EvalFloat.isnan, EvalFloat.less]
  unfold isLower
  rw [decide_eq_true_iff, hcmp]
  by_cases h : a < b
  · rw [if_pos h]
    exact iff_of_true (by decide) h
  · rw [if_neg h]
    exact iff_of_false (by split <;> decide) h

/-- What is asked of an iteration that lowers the deviation by `x`. -/
def MeetsLower (w : Search) (x : ℚ) : Prop :=
  Unclamped (improvements w.log) x ∧ w.projectionScore ≤ minMax x (x :: improvements w.log) x

/-- What is asked of a step: no normalised value is clamped, and an iteration that lowers the deviation
scores no less than those before it in its step. -/
def Meets (config : CoordinatedSearchOptimizerEngineConfig) (w : Search) (candidate : Option ℚ) : Prop :=
  match w.pc with
  | .epoch _ => True
  | .step _ j => config.optimizationStepSz ≤ j → w.tmp < w.best →
    Unclamped (epochImprovements w.log) |w.tmp - w.best|
  | .loop _ _ z => z < config.optimizationLoopSz.getD DEFAULT_OPTIMIZATION_LOOP_SZ →
    ∀ test, candidate = some test → test < w.tmp → MeetsLower w |test - w.tmp|

/-- The running maximum of a step, and no iteration between the steps. -/
def SearchPc.Keeps (w : Search) : SearchPc → Prop
  | .loop _ _ _ => w.projectionScore = (stepScores w.log).foldr max 0
  | _ => stepScores w.log = []

structure Inv (w : Search) : Prop where
  normalizer0 : w.scoreNormalizer0.Has (improvements w.log)
  normalizer1 : w.scoreNormalizer1.Has (epochImprovements w.log)
  unit : InUnit w.projectionScore
  pc : SearchPc.Keeps w w.pc
  fair : ∃ c, InUnit c ∧ (improvements w.log ≠ [] → c ∈ improvements w.log) ∧
    Fair c w.log

theorem inUnit_zero : InUnit 0 := ⟨le_rfl, zero_le_one⟩

/-- A fair score for the iteration that lowers the deviation by `x`. -/
theorem fair_cons {log : List Feedback} {c x score : ℚ} (hc : InUnit c)
    (hmem : improvements log ≠ [] → c ∈ improvements log) (hfair : Fair c log)
    (hscore : score = minMax x (x :: improvements log) x) (hunit : InUnit score) :
    ∃ c', InUnit c' ∧ c' ∈ x :: improvements log ∧
      Fair c' (.iteration (some x) score :: log) := by
  rcases hnil : improvements log with - | ⟨y, l⟩
  · rw [hnil] at hscore
    have hx : score = x := hscore.trans (if_pos rfl)
    refine ⟨x, hx ▸ hunit, List.mem_cons_self, ⟨hunit, ?_⟩, hfair.const hnil x⟩
    rw [hnil]
    exact hscore
  · have hcm := hmem (by rw [hnil]; exact List.cons_ne_nil y l)
    rw [hnil] at hcm hscore
    refine ⟨c, hc, List.mem_cons_of_mem x hcm, ⟨hunit, ?_⟩, hfair⟩
    rw [hnil, hscore]
    obtain ⟨lo, hmin⟩ : ∃ lo, (x :: y :: l).min? = some lo := ⟨_, List.min?_cons⟩
    obtain ⟨hi, hmax⟩ : ∃ hi, (x :: y :: l).max? = some hi := ⟨_, List.max?_cons⟩
    -- what was seen is all equal, or the fixed value does not count
    by_cases heq : hi = lo
    · have hx : x = lo := le_antisymm (heq ▸ le_max? hmax List.mem_cons_self)
        (min?_le hmin List.mem_cons_self)
      have hc : c = lo := le_antisymm (heq ▸ le_max? hmax (List.mem_cons_of_mem x hcm))
        (min?_le hmin (List.mem_cons_of_mem x hcm))
      rw [hc, hx]
    · exact minMax_const hmin hmax heq _ _ _

theorem Inv.start (deviation : ℚ) : Inv (start deviation) :=
  ⟨⟨rfl, rfl⟩, ⟨rfl, rfl⟩, inUnit_zero, rfl, 0, inUnit_zero, fun h => absurd rfl h, trivial⟩

theorem Inv.iteration (h : Inv w) (hp : w.projectionScore = (stepScores w.log).foldr max 0)
    (hmeets : ∀ test, candidate = some test → test < w.tmp → MeetsLower w |test - w.tmp|) (i j z : Nat) :
    Inv { w.iteration candidate with pc := .loop i j z } := by
  obtain ⟨c, hc, hmem, hfair⟩ := h.fair
  unfold Search.iteration
  rcases hcandidate : candidate.filter (isLower · w.tmp) with - | test
  · refine ⟨h.normalizer0, h.normalizer1, h.unit, ?_, c, hc, hmem, rfl, hfair⟩
    show w.projectionScore = max 0 _
    rw [← hp, max_eq_right h.unit.1]
  · obtain ⟨e, hlower⟩ := Option.filter_eq_some_iff.1 hcandidate
    obtain ⟨hu, hle⟩ := hmeets test e (isLower_iff.1 hlower)
    obtain ⟨hhas, e0, hunit⟩ := normalize_eq h.normalizer0 (abs_nonneg (test - w.tmp)) hu
    have hscore : max w.projectionScore (w.scoreNormalizer0.normalize |test - w.tmp|).2 =
        (w.scoreNormalizer0.normalize |test - w.tmp|).2 := max_eq_right (e0 ▸ hle)
    obtain ⟨c', hc', hmem', hfair'⟩ := fair_cons hc hmem hfair e0 hunit
    dsimp only
    rw [hscore, max_self]
    refine ⟨hhas, h.normalizer1, hunit, ?_, c', hc', fun _ => hmem', hfair'⟩
    show _ = max _ _
    rw [← hp, max_comm]
    exact hscore.symm

theorem Inv.epochFeedback (h : Inv w)
    (hmeets : w.tmp < w.best → Unclamped (epochImprovements w.log) |w.tmp - w.best|) (i : Nat) :
    Inv { w.epochFeedback with pc := .epoch i } := by
  obtain ⟨c, hc, hmem, hfair⟩ := h.fair
  unfold Search.epochFeedback
  by_cases hlower : isLower w.tmp w.best = true
  · obtain ⟨hhas, -, hunit⟩ := normalize_eq h.normalizer1 (abs_nonneg (w.tmp - w.best))
      (hmeets (isLower_iff.1 hlower))
    rw [if_pos hlower]
    exact ⟨h.normalizer0, hhas, h.unit, rfl, c, hc, hmem, hunit, hfair⟩
  · rw [if_neg hlower]
    exact ⟨h.normalizer0, h.normalizer1, h.unit, rfl, c, hc, hmem, inUnit_zero, hfair⟩

theorem Inv.next (h : Inv w) (hmeets : Meets config w candidate) (e : w.next config candidate = some w') :
    Inv w' := by
  have hpc := h.pc
  unfold Meets at hmeets
  unfold Search.next at e
  cases hw : w.pc with
  | epoch i =>
    rw [hw] at e hpc
    obtain ⟨-, e⟩ := Option.ite_none_right_eq_some.1 e
    obtain rfl := Option.some.inj e
    exact ⟨h.normalizer0, h.normalizer1, h.unit, hpc, h.fair⟩
  | step i j =>
    rw [hw] at e hpc hmeets
    dsimp only at e
    by_cases hj : j < config.optimizationStepSz
    · rw [if_pos hj] at e
      obtain rfl := Option.some.inj e
      refine ⟨h.normalizer0, h.normalizer1, inUnit_zero, ?_, h.fair⟩
      show 0 = (stepScores w.log).foldr max 0
      rw [hpc]
      rfl
    · rw [if_neg hj] at e
      obtain rfl := Option.some.inj e
      exact h.epochFeedback (hmeets (not_lt.1 hj)) _
  | loop i j z =>
    rw [hw] at e hpc hmeets
    dsimp only at e
    by_cases hz : z < config.optimizationLoopSz.getD DEFAULT_OPTIMIZATION_LOOP_SZ
    · rw [if_pos hz] at e
      obtain rfl := Option.some.inj e
      exact h.iteration hpc (hmeets hz) i j _
    · rw [if_neg hz] at e
      obtain rfl := Option.some.inj e
      obtain ⟨c, hc, hmem, hfair⟩ := h.fair
      exact ⟨h.normalizer0, h.normalizer1, h.unit, rfl, c, hc, hmem, ⟨h.unit, hpc⟩, hfair⟩

/-- **Fair scores.** In a run whose steps all meet the condition, every score fed back is in `[0, 1]`; an
iteration scores 0 if it did not lower the deviation, and else what it lowered the deviation by, min-max
normalised against what all iterations so far lowered it by; a step scores the greatest score of its
iterations. -/
theorem scores_fair {candidates : List (Option ℚ)}
    (h : Run.Reach (fun w => ∃ deviation, w = Search.start deviation)
      (fun w candidate w' => Meets config w candidate ∧ w.next config candidate = some w') w candidates) :
    ∃ c, InUnit c ∧ Fair c w.log := by
  have hinv : Inv w := by
    refine h.inv (fun w _ => Inv w) ?_ ?_
    · rintro w ⟨deviation, rfl⟩
      exact Inv.start deviation
    · rintro w _ candidate w' hw ⟨hmeets, e⟩
      exact hw.next hmeets e
  obtain ⟨c, hc, -, hfair⟩ := hinv.fair
  exact ⟨c, hc, hfair⟩

/-- A deviation is lowered once, by a half. -/
theorem scores_fair_half : ∃ w : Search,
    w.log = [.epoch (some (1 / 2)) (1 / 2), .step (1 / 2), .iteration (some (1 / 2)) (1 / 2)] ∧
      ∃ c, InUnit c ∧ Fair c w.log := by
  let config : CoordinatedSearchOptimizerEngineConfig := ⟨1, 1, some 1⟩
  let normalizer : MinMaxScoreNormalizer := ⟨some (1 / 2), some (1 / 2)⟩
  let log : List Feedback := [.step (1 / 2), .iteration (some (1 / 2)) (1 / 2)]
  let w2 : Search := ⟨.loop 0 0 0, ⟨none, none⟩, ⟨none, none⟩, 1, 1, 0, []⟩
  let w4 : Search := ⟨.step 0 1, normalizer, ⟨none, none⟩, 1, 1 / 2, 1 / 2, log⟩
  have hlowered : Unclamped [] |(1 / 2 - 1 : ℚ)| := by
    intro lo hi hmin hmax
    cases hmin
    cases hmax
    refine (if_pos rfl).mpr ?_
    exact (by decide +kernel : |(1 / 2 - 1 : ℚ)| ≤ 1)
  have h3 : Meets config w2 (some (1 / 2)) := by
    rintro - test ⟨⟩ -
    exact ⟨hlowered, (abs_nonneg _).trans (if_pos rfl).ge⟩
  have h4 : Meets config ⟨.loop 0 0 1, normalizer, ⟨none, none⟩, 1, 1 / 2, 1 / 2, log.tail⟩ none :=
    fun h => absurd h (lt_irrefl 1)
  have h5 : Meets config w4 none := fun _ _ => hlowered
  have e3 : next config w2 (some (1 / 2)) =
      some ⟨.loop 0 0 1, normalizer, ⟨none, none⟩, 1, 1 / 2, 1 / 2, log.tail⟩ := by decide +kernel
  have e5 : next config w4 none = some ⟨.epoch 1, normalizer, normalizer, 1 / 2, 1 / 2, 1 / 2,
      .epoch (some (1 / 2)) (1 / 2) :: log⟩ := by decide +kernel
  have hrun : Run.Reach (fun w => ∃ deviation, w = Search.start deviation)
      (fun w candidate w' => Meets config w candidate ∧ w.next config candidate = some w') _
      [none, none, some (1 / 2), none, none] :=
    .step (.step (.step (.step (.step (.init ⟨1, rfl⟩) ⟨trivial, rfl⟩) ⟨by rintro ⟨⟩, rfl⟩)
      ⟨h3, e3⟩) ⟨h4, rfl⟩) ⟨h5, e5⟩
  exact ⟨_, rfl, scores_fair hrun⟩

/-- The first iteration that lowers the deviation, by ten, scores ten. -/
theorem scores_unfair : ∃ w : Search,
    Run.Reach (fun w => ∃ deviation, w = Search.start deviation)
      (fun w candidate w' => w.next ⟨1, 1, some 1⟩ candidate = some w') w [none, none, some 0] ∧
      ¬ ∃ c, InUnit c ∧ Fair c w.log := by
  have hrun : [none, none, some 0].foldlM (next ⟨1, 1, some 1⟩) (Search.start 10) =
      some ⟨.loop 0 0 1, ⟨some 10, some 10⟩, ⟨none, none⟩, 10, 0, 10, [.iteration (some 10) 10]⟩ := by
    decide +kernel
  refine ⟨_, (Run.Reach.init ⟨10, rfl⟩).foldlM id hrun, ?_⟩
  rintro ⟨c, -, ⟨⟨-, hle⟩, -⟩, -⟩
  exact absurd hle (by decide +kernel)

end Search
end MatrixOptimizer
