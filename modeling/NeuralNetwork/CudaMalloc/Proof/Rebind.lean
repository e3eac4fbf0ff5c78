import NeuralNetwork.Lib.FreeRun
import NeuralNetwork.CudaMalloc.SegmentAllocator

/-!
# Rebinding keeps the cached runs

`rebindHeapNode_ok`: when every child caches the runs of its block (`Kids`), the node written by
`rebind_heap_node` caches the runs of the whole interval, and its trace leads to a best run
(`TraceOk`). The loop over the crossing runs carries `CrossInv`.
-/

namespace CudaMalloc

open Cpp Loop DaryTree FreeRun

variable {T : Params} {P : Nat → Prop} {arr : Array HeapNode} {idx a sub : Nat}
  {kid : Nat → HeapNode}

theorem readNode_of_getElem? {n : HeapNode} (h : arr[idx]? = some n) : readNode arr idx = .ok n := by
  simp [readNode, h]

theorem writeNode_ok {n : HeapNode} (h : idx < arr.size) :
    writeNode arr idx n = .ok (arr.setIfInBounds idx n) := by
  simp [writeNode, h]

/-- The children of `idx`, each caching the runs of its block of the interval from `a` on. -/
structure Kids (T : Params) (P : Nat → Prop) (arr : Array HeapNode) (idx a sub : Nat)
    (kid : Nat → HeapNode) : Prop where
  get : ∀ i < T.outDegreeSize, arr[child T.outDegreeSize idx i]? = some (kid i)
  sum : ∀ i < T.outDegreeSize, Summary P (a + sub * i) sub (kid i).l (kid i).r (kid i).c

/-- The run of length `sum` that the right trace to block `first` stands for. -/
def Starts (P : Nat → Prop) (a sub : Nat) (kid : Nat → HeapNode) (sum first : Nat) : Prop :=
  Run P (a + sub * (first + 1) - (kid first).r) sum

/-! ## The two edge loops -/

theorem edgeSize_left (h : Kids T P arr idx a sub kid) :
    ∃ l, edgeSize T arr (fun i => child T.outDegreeSize idx i) HeapNode.l sub = .ok l ∧
      IsHead P a (sub * T.outDegreeSize) l := by
  refine forBreak_ok (fun i sum => sum = sub * i ∧ Run P a sum) _ ⟨rfl, run_zero⟩ ?_ ?_
  · rintro i hi sum ⟨rfl, hr⟩
    have hs := (h.sum i hi).head
    have hle : sub * (i + 1) ≤ sub * T.outDegreeSize := Nat.mul_le_mul_left _ hi
    rw [Nat.mul_succ] at hle ⊢
    rw [readNode_of_getElem? (h.get i hi), ok_bind]
    by_cases hl : (kid i).l = sub
    · refine .inl ⟨sub * i + (kid i).l, by simp [hl], by rw [hl], hr.append hs.run⟩
    · refine .inr ⟨sub * i + (kid i).l, by simp [hl], ?_, hr.append hs.run, fun _ => ?_⟩
      · have := hs.le; omega
      · rw [← Nat.add_assoc]; exact hs.stop (by have := hs.le; omega)
  · rintro sum ⟨rfl, hr⟩
    exact ⟨Nat.le_refl _, hr, fun hlt => by omega⟩

theorem edgeSize_right (h : Kids T P arr idx a sub kid) :
    ∃ r, edgeSize T arr (fun i => child T.outDegreeSize idx (T.outDegreeSize - i - 1))
        HeapNode.r sub = .ok r ∧ IsTail P a (sub * T.outDegreeSize) r := by
  refine forBreak_ok (fun i sum => sum = sub * i ∧
    Run P (a + sub * T.outDegreeSize - sum) sum) _ ⟨rfl, run_zero⟩ ?_ ?_
  · rintro i hi sum ⟨rfl, hr⟩
    obtain ⟨j, hj⟩ : ∃ j, T.outDegreeSize = j + i + 1 := ⟨T.outDegreeSize - i - 1, by omega⟩
    have ej : T.outDegreeSize - i - 1 = j := by omega
    have hjD : j < T.outDegreeSize := by omega
    have hs := (h.sum j hjD).tail
    have hle := hs.le
    have e1 : sub * T.outDegreeSize = sub * j + sub + sub * i := by rw [hj]; ring
    have hrun : Run P (a + sub * T.outDegreeSize - (sub * i + (kid j).r))
        (sub * i + (kid j).r) := by
      rw [Nat.add_comm (sub * i)]
      refine Run.append ?_ ?_
      · exact hs.run.sub (by omega) (by omega)
      · exact hr.sub (by omega) (by omega)
    simp only [ej]
    rw [readNode_of_getElem? (h.get j hjD), ok_bind]
    by_cases hl : (kid j).r = sub
    · refine .inl ⟨sub * i + (kid j).r, by simp [hl], by rw [hl, Nat.mul_succ], hrun⟩
    · refine .inr ⟨sub * i + (kid j).r, by simp [hl], by omega, hrun, fun _ => ?_⟩
      have e : a + sub * T.outDegreeSize - (sub * i + (kid j).r) - 1
          = a + sub * j + sub - (kid j).r - 1 := by omega
      rw [e]; exact hs.stop (by omega)
  · rintro sum ⟨rfl, hr⟩
    exact ⟨Nat.le_refl _, hr, fun hlt => by omega⟩

/-! ## The best run inside one child -/

theorem otherBest_ok (h : Kids T P arr idx a sub kid) :
    ∃ b, otherBest T arr idx = .ok b ∧ (∀ j < T.outDegreeSize, (kid j).c ≤ b.sum) ∧
      b.first < T.outDegreeSize ∧ (b.sum = 0 ∨ (kid b.first).c = b.sum) := by
  have hD := T.two_le
  refine forLoop_ok (fun i (b : OtherBest) => (∀ j < i, (kid j).c ≤ b.sum) ∧ b.first < T.outDegreeSize ∧
    (b.sum = 0 ∨ (kid b.first).c = b.sum)) ⟨fun j hj => by omega, by simp; omega, .inl rfl⟩ ?_
  rintro i hi b ⟨hmax, hfirst, hb⟩
  rw [readNode_of_getElem? (h.get i hi), ok_bind]
  by_cases hlt : b.sum < (kid i).c
  · refine ⟨_, if_pos hlt, fun j hj => ?_, hi, .inr rfl⟩
    rcases Nat.lt_succ_iff_lt_or_eq.1 hj with hj | rfl
    · have := hmax j hj; dsimp only; omega
    · exact Nat.le_refl _
  · refine ⟨_, if_neg hlt, fun j hj => ?_, hfirst, hb⟩
    rcases Nat.lt_succ_iff_lt_or_eq.1 hj with hj | rfl
    · exact hmax j hj
    · omega

/-! ## The best run across children -/

/-- A candidate `(sum, first)` of the crossing loop: a run inside one of the first `i` blocks is as
long, or it starts where the right trace to `first` says. -/
def Candidate (P : Nat → Prop) (a sub : Nat) (kid : Nat → HeapNode) (i sum first : Nat) : Prop :=
  (∃ j < i, sum ≤ (kid j).c) ∨ sum = 0 ∨
    (first < i ∧ a + sub * (first + 1) - (kid first).r + sum ≤ a + sub * i ∧
      Starts P a sub kid sum first)

/-- The invariant of the crossing loop after `i` blocks. -/
structure CrossInv (P : Nat → Prop) (a sub : Nat) (kid : Nat → HeapNode) (i : Nat) (x : CrossRun) :
    Prop where
  tail : IsTail P a (sub * i) x.cSum
  fresh : x.cSum = 0 → x.cFirst = i
  start : 0 < x.cSum → x.cFirst < i ∧
    a + sub * (x.cFirst + 1) - (kid x.cFirst).r = a + sub * i - x.cSum
  max : ∀ s k, a ≤ s → s + k ≤ a + sub * i → Run P s k →
    k ≤ x.cBestSum ∨ (∃ j < i, k ≤ (kid j).c) ∨ k ≤ x.cSum
  best : Candidate P a sub kid i x.cBestSum x.cBestFirst

theorem Candidate.mono {i sum first : Nat} (h : Candidate P a sub kid i sum first) :
    Candidate P a sub kid (i + 1) sum first := by
  rcases h with ⟨j, hj, hc⟩ | h0 | ⟨hf, hb, hs⟩
  · exact .inl ⟨j, by omega, hc⟩
  · exact .inr (.inl h0)
  · have e : sub * (i + 1) = sub * i + sub := Nat.mul_succ _ _
    exact .inr (.inr ⟨by omega, by omega, hs⟩)

variable {x : CrossRun} {i : Nat}

theorem takeBest_spec (hb : Candidate P a sub kid i x.cBestSum x.cBestFirst)
    (hc : Candidate P a sub kid i x.cSum x.cFirst) :
    Candidate P a sub kid i x.takeBest.cBestSum x.takeBest.cBestFirst ∧
      x.takeBest.cBestSum = max x.cBestSum x.cSum := by
  unfold CrossRun.takeBest
  split
  · exact ⟨hc, by dsimp only; omega⟩
  · exact ⟨hb, by omega⟩

/-- The current run, prolonged by the head of block `i`, is a candidate. -/
theorem CrossInv.candidate (h : CrossInv P a sub kid i x)
    (hs : Summary P (a + sub * i) sub (kid i).l (kid i).r (kid i).c) :
    Candidate P a sub kid (i + 1) (x.cSum + (kid i).l) x.cFirst := by
  rcases Nat.eq_zero_or_pos x.cSum with h0 | hpos
  · exact .inl ⟨i, by omega, by have := hs.head_le_best; omega⟩
  · obtain ⟨hf, hst⟩ := h.start hpos
    have hle := h.tail.le
    have hl := hs.head.le
    refine .inr (.inr ⟨by omega, by rw [hst, Nat.mul_succ]; omega, ?_⟩)
    unfold Starts
    rw [hst]
    refine h.tail.run.append ?_
    have e : a + sub * i - x.cSum + x.cSum = a + sub * i := by omega
    rw [e]; exact hs.head.run

/-- A run in the first `i + 1` blocks that is none of the first `i` blocks' or of block `i`'s runs
is at most the current run with the head of block `i`. -/
theorem CrossInv.max_succ {i s k : Nat} (h : CrossInv P a sub kid i x)
    (hs : Summary P (a + sub * i) sub (kid i).l (kid i).r (kid i).c)
    (h1 : a ≤ s) (h2 : s + k ≤ a + sub * (i + 1)) (hr : Run P s k) :
    k ≤ x.cBestSum ∨ (∃ j < i + 1, k ≤ (kid j).c) ∨ k ≤ x.cSum + (kid i).l := by
  rw [Nat.mul_succ, ← Nat.add_assoc] at h2
  rcases run_split h.tail hs.head h1 h2 hr with hin | hin | hk
  · rcases h.max s k h1 hin hr with hb | ⟨j, hj, hc⟩ | hb
    · exact .inl hb
    · exact .inr (.inl ⟨j, by omega, hc⟩)
    · exact .inr (.inr (by omega))
  · exact .inr (.inl ⟨i, by omega, hs.best.max s k hin h2 hr⟩)
  · exact .inr (.inr hk)

theorem CrossInv.step_free (h : CrossInv P a sub kid i x)
    (hs : Summary P (a + sub * i) sub (kid i).l (kid i).r (kid i).c) (hl : (kid i).l = sub)
    (hsub : 0 < sub) : CrossInv P a sub kid (i + 1) { x with cSum := x.cSum + (kid i).l } where
  tail := by
    rw [hl, Nat.mul_succ]
    exact h.tail.append_free (by rw [hl] at hs; exact hs.head.run)
  fresh := fun h0 => by dsimp only at h0; omega
  start := fun _ => by
    have hr : (kid i).r = sub := by rw [hl] at hs; exact hs.tail_eq_of_head
    have hle := h.tail.le
    have e : sub * (i + 1) = sub * i + sub := Nat.mul_succ _ _
    dsimp only
    rcases Nat.eq_zero_or_pos x.cSum with h0 | hpos
    · rw [h.fresh h0, hr]
      exact ⟨by omega, by omega⟩
    · obtain ⟨hf, hst⟩ := h.start hpos
      exact ⟨by omega, by omega⟩
  max := fun s k h1 h2 hr => h.max_succ hs h1 h2 hr
  best := h.best.mono

theorem CrossInv.step_stop (h : CrossInv P a sub kid i x)
    (hs : Summary P (a + sub * i) sub (kid i).l (kid i).r (kid i).c) (hl : (kid i).l ≠ sub) :
    CrossInv P a sub kid (i + 1)
      { ({ x with cSum := x.cSum + (kid i).l } : CrossRun).takeBest with
        cFirst := i + (decide ((kid i).r = 0)).toNat, cSum := (kid i).r } := by
  obtain ⟨hb, hmax⟩ := takeBest_spec (x := { x with cSum := x.cSum + (kid i).l })
    h.best.mono (h.candidate hs)
  have hr : (kid i).r < sub := by
    refine Nat.lt_of_le_of_ne hs.tail.le fun hr => hl ?_
    have hrun := hs.tail.run
    rw [hr] at hrun
    exact Nat.le_antisymm hs.head.le (hs.head.le_of_run (Nat.le_refl _) (by simpa using hrun))
  refine ⟨?_, fun h0 => ?_, fun hpos => ?_, fun s k h1 h2 hrun => ?_, hb⟩
  · rw [Nat.mul_succ]
    exact hs.tail.append_of_lt hr
  · dsimp only at h0 ⊢; simp [h0]
  · have h0 : (kid i).r ≠ 0 := by dsimp only at hpos; omega
    simp [h0]
  · rcases h.max_succ hs h1 h2 hrun with hk | hk | hk
    · exact .inl (by dsimp only at hmax ⊢; omega)
    · exact .inr (.inl hk)
    · exact .inl (by dsimp only at hmax ⊢; omega)

theorem crossRun_ok (h : Kids T P arr idx a sub kid) (hsub : 0 < sub) :
    ∃ x, crossRun T arr idx sub = .ok x ∧ CrossInv P a sub kid T.outDegreeSize x := by
  refine forLoop_ok (CrossInv P a sub kid) ?_ ?_
  · refine ⟨⟨by simp, run_zero, fun h => by simp at h⟩, fun _ => rfl,
      fun h => by simp at h, fun s k h1 h2 _ => ?_, .inr (.inl rfl)⟩
    exact .inl (by rw [Nat.mul_zero] at h2; omega)
  · intro i hi x hx
    rw [readNode_of_getElem? (h.get i hi), ok_bind]
    by_cases hl : (kid i).l = sub
    · exact ⟨_, if_neg (not_not.2 hl), hx.step_free (h.sum i hi) hl hsub⟩
    · exact ⟨_, if_pos hl, hx.step_stop (h.sum i hi) hl⟩

/-! ## The rebound node -/

/-- The trace of a node with a free leaf leads to a run of its best length: into a child with the
same best length, or to the start of the tail run of a child. -/
def TraceOk (T : Params) (P : Nat → Prop) (arr : Array HeapNode) (idx a sub : Nat) (n : HeapNode) :
    Prop :=
  n.c ≠ 0 → ∃ j < T.outDegreeSize, ∃ k, arr[child T.outDegreeSize idx j]? = some k ∧
    ((readTrace n.trace = (j, true) ∧ k.r ≤ sub ∧
        a + sub * (j + 1) - k.r + n.c ≤ a + sub * T.outDegreeSize ∧
        Run P (a + sub * (j + 1) - k.r) n.c) ∨
      (readTrace n.trace = (j, false) ∧ k.c = n.c))

theorem readTrace_makeTrace {j : Nat} (b : Bool) (h64 : 2 * j + 2 ≤ 2 ^ 64)
    (hw : 2 * j + 2 ≤ 2 ^ T.nodeBits) : readTrace (nodeType T (makeTrace j b)) = (j, b) := by
  have hb : b.toNat < 2 ^ 1 := by cases b <;> decide
  have e : makeTrace j b = 2 * j + b.toNat := by
    have hs : j <<< 1 = 2 * j := by rw [Nat.shiftLeft_eq]; omega
    rw [makeTrace, sizeT, hs, Nat.mod_eq_of_lt (by omega), ← hs,
      ← Nat.shiftLeft_add_eq_or_of_lt hb]
  rw [e, nodeType, Nat.mod_eq_of_lt (by omega), readTrace]
  have h1 : (2 * j + b.toNat) >>> 1 = j := by rw [Nat.shiftRight_eq_div_pow]; omega
  have h2 : (2 * j + b.toNat) &&& 1 = b.toNat := by rw [Nat.and_one_is_mod]; omega
  rw [h1, h2]
  cases b <;> rfl

/-- The longest run of the interval: the longer of the best crossing run and the best run inside
one child. -/
theorem best_of_cross {b : OtherBest} (h : Kids T P arr idx a sub kid)
    (hx : CrossInv P a sub kid T.outDegreeSize x)
    (hmax : ∀ j < T.outDegreeSize, (kid j).c ≤ b.sum) (hfirst : b.first < T.outDegreeSize)
    (hb : b.sum = 0 ∨ (kid b.first).c = b.sum) :
    (x.takeBest.cBestSum ≤ b.sum → IsBest P a (sub * T.outDegreeSize) b.sum) ∧
    (b.sum < x.takeBest.cBestSum → x.takeBest.cBestFirst < T.outDegreeSize ∧
      a + sub * (x.takeBest.cBestFirst + 1) - (kid x.takeBest.cBestFirst).r + x.takeBest.cBestSum ≤
        a + sub * T.outDegreeSize ∧
      Starts P a sub kid x.takeBest.cBestSum x.takeBest.cBestFirst ∧
      IsBest P a (sub * T.outDegreeSize) x.takeBest.cBestSum) := by
  have hc : Candidate P a sub kid T.outDegreeSize x.cSum x.cFirst := by
    rcases Nat.eq_zero_or_pos x.cSum with h0 | hpos
    · exact .inr (.inl h0)
    · obtain ⟨hf, hst⟩ := hx.start hpos
      have hle := hx.tail.le
      refine .inr (.inr ⟨hf, by omega, ?_⟩)
      unfold Starts
      rw [hst]; exact hx.tail.run
  obtain ⟨hcand, hsum⟩ := takeBest_spec hx.best hc
  have hall : ∀ s k, a ≤ s → s + k ≤ a + sub * T.outDegreeSize → Run P s k →
      k ≤ max x.takeBest.cBestSum b.sum := by
    intro s k h1 h2 hr
    rcases hx.max s k h1 h2 hr with hk | ⟨j, hj, hk⟩ | hk
    · omega
    · have := hmax j hj; omega
    · omega
  have hblock : ∀ j < T.outDegreeSize, sub * j + sub ≤ sub * T.outDegreeSize := fun j hj => by
    rw [← Nat.mul_succ]; exact Nat.mul_le_mul_left _ hj
  constructor
  · intro hle
    refine ⟨?_, fun s k h1 h2 hr => by have := hall s k h1 h2 hr; omega⟩
    rcases hb with h0 | hk
    · exact ⟨a, Nat.le_refl _, by omega, by rw [h0]; exact run_zero⟩
    · obtain ⟨s, h1, h2, hr⟩ := (h.sum b.first hfirst).best.run
      have := hblock b.first hfirst
      exact ⟨s, by omega, by omega, by rw [← hk]; exact hr⟩
  · intro hlt
    rcases hcand with ⟨j, hj, hk⟩ | h0 | ⟨hf, hbd, hs⟩
    · have := hmax j hj; omega
    · omega
    · have hr := (h.sum _ hf).tail.le
      have e := Nat.mul_succ sub x.takeBest.cBestFirst
      rw [Nat.succ_eq_add_one] at e
      exact ⟨hf, hbd, hs, ⟨⟨_, by omega, hbd, hs⟩,
        fun s k h1 h2 hr => by have := hall s k h1 h2 hr; omega⟩⟩

/-- **Rebinding** a node whose children cache the runs of their blocks writes a node that caches
the runs of the whole interval, with a trace that leads to a best run. -/
theorem rebindHeapNode_ok (h : Kids T P arr idx a sub kid) (hsub : 0 < sub)
    (hw : sub * T.outDegreeSize < 2 ^ T.nodeBits) (htr : 2 * T.outDegreeSize ≤ 2 ^ T.nodeBits)
    (htr64 : 2 * T.outDegreeSize ≤ 2 ^ 64) (hidx : idx < arr.size) :
    ∃ n, rebindHeapNode T arr idx a (a + sub * T.outDegreeSize) =
        .ok (arr.setIfInBounds idx n) ∧
      Summary P a (sub * T.outDegreeSize) n.l n.r n.c ∧ TraceOk T P arr idx a sub n := by
  have hD := T.two_le
  have hlen : sub * 2 ≤ sub * T.outDegreeSize := Nat.mul_le_mul_left _ hD
  obtain ⟨l, el, hl⟩ := edgeSize_left h
  obtain ⟨r, er, hr⟩ := edgeSize_right h
  obtain ⟨b, eb, hmax, hfirst, hb⟩ := otherBest_ok h
  obtain ⟨x, ex, hx⟩ := crossRun_ok h hsub
  have hsubsz : (a + sub * T.outDegreeSize - a) / T.outDegreeSize = sub := by
    rw [Nat.add_sub_cancel_left, Nat.mul_div_cancel _ (by omega)]
  have hcast : ∀ {m}, m ≤ sub * T.outDegreeSize → nodeType T m = m := fun hm =>
    Nat.mod_eq_of_lt (by omega)
  have hguard : ¬ a + 1 ≥ a + sub * T.outDegreeSize := by omega
  obtain ⟨hother, hcross⟩ := best_of_cross h hx hmax hfirst hb
  simp only [rebindHeapNode, if_neg hguard, hsubsz, el, er, eb, ex, ok_bind]
  by_cases hle : x.takeBest.cBestSum ≤ b.sum
  · have hbest := hother hle
    have hc : b.sum ≤ sub * T.outDegreeSize := by
      obtain ⟨s, h1, h2, -⟩ := hbest.run; omega
    simp only [if_pos hle]
    refine ⟨_, writeNode_ok hidx, ?_, fun h0 => ?_⟩
    · simp only [hcast hl.le, hcast hr.le, hcast hc]
      exact ⟨hl, hr, hbest⟩
    · simp only [hcast hc] at h0 ⊢
      exact ⟨b.first, hfirst, kid b.first, h.get _ hfirst,
        .inr ⟨readTrace_makeTrace _ (by omega) (by omega), by omega⟩⟩
  · obtain ⟨hf, hbd, hs, hbest⟩ := hcross (by omega)
    have hc : x.takeBest.cBestSum ≤ sub * T.outDegreeSize := by
      obtain ⟨s, h1, h2, -⟩ := hbest.run; omega
    simp only [if_neg hle]
    refine ⟨_, writeNode_ok hidx, ?_, fun h0 => ?_⟩
    · simp only [hcast hl.le, hcast hr.le, hcast hc]
      exact ⟨hl, hr, hbest⟩
    · simp only [hcast hc] at h0 ⊢
      exact ⟨_, hf, _, h.get _ hf, .inl ⟨readTrace_makeTrace _ (by omega) (by omega),
        (h.sum _ hf).tail.le, hbd, hs⟩⟩

end CudaMalloc
