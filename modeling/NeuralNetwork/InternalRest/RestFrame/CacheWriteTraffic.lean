import Mathlib.Algebra.BigOperators.Group.List.Basic
import Mathlib.Algebra.GroupWithZero.Nat
import Mathlib.Logic.Function.Basic
import NeuralNetwork.Lib.Run

/-!
# CacheUniqueWriteTrafficController

The write quota of `internal_rest/network_rest_frame.h`, with the threads that call it; a step is one load
or one `compare_exchange_strong` of the block. The counter has 32 bits, and its sum with what comes in, a
`size_t`, may wrap: `write_quota` is about the runs in which neither happens (`World.Fits`), and
`write_quota_wraps` is one in which the sum does.
-/

namespace RestFrame.CacheWriteTraffic

structure AtomicBlock where
  thruCounter : BitVec 32
  verCtrl : BitVec 32
deriving DecidableEq

/-- Where a thread is in its call: before a load, or before the exchange of the block that it read. -/
inductive Phase where
  | idle
  | thru (incomingSz : BitVec 64)
  | thruLoaded (incomingSz : BitVec 64) (thenBlock : AtomicBlock)
  | reset
  | resetLoaded (thenBlock : AtomicBlock)
deriving DecidableEq

/-- The controller and its threads. `admitted` are the sizes let through since the last `reset`, of which
the program keeps the sum. -/
structure World (T : Type) where
  blockCtrl : AtomicBlock
  thruCap : BitVec 64
  phase : T → Phase
  admitted : List (BitVec 64)

/-- A call of `thru` or of `reset`, and the next access of the call that a thread is in. -/
inductive Event (T : Type) where
  | thru (t : T) (incomingSz : BitVec 64)
  | reset (t : T)
  | go (t : T)

def AtomicBlock.thru (b : AtomicBlock) (incomingSz : BitVec 64) : AtomicBlock :=
  ⟨(b.thruCounter.setWidth 64 + incomingSz).setWidth 32, b.verCtrl + 1⟩

def AtomicBlock.clear (b : AtomicBlock) : AtomicBlock := ⟨0, b.verCtrl + 1⟩

/-- What `thru` tests. -/
def AtomicBlock.exceeds (b : AtomicBlock) (incomingSz thruCap : BitVec 64) : Bool :=
  thruCap < b.thruCounter.setWidth 64 + incomingSz

namespace World

variable {T : Type}

def make (thruCap : BitVec 64) : World T := ⟨⟨0, 0⟩, thruCap, fun _ => .idle, []⟩

/-- The sum of the sizes that were let through. -/
def total (w : World T) : Nat := (w.admitted.map BitVec.toNat).sum

variable [DecidableEq T] (w : World T)

def setPhase (t : T) (p : Phase) : World T := { w with phase := Function.update w.phase t p }

/-- One step; `none` if the thread is somewhere else. -/
def step : Event T → Option (World T)
  | .thru t incomingSz => if w.phase t = .idle then some (w.setPhase t (.thru incomingSz)) else none
  | .reset t => if w.phase t = .idle then some (w.setPhase t .reset) else none
  | .go t =>
    match w.phase t with
    | .idle => none
    | .thru incomingSz =>
      -- the request is refused without an exchange
      if w.blockCtrl.exceeds incomingSz w.thruCap then some (w.setPhase t .idle)
      else some (w.setPhase t (.thruLoaded incomingSz w.blockCtrl))
    | .thruLoaded incomingSz thenBlock =>
      if w.blockCtrl = thenBlock then
        some { w.setPhase t .idle with
          blockCtrl := thenBlock.thru incomingSz
          admitted := w.admitted ++ [incomingSz] }
      else some (w.setPhase t (.thru incomingSz))
    | .reset => some (w.setPhase t (.resetLoaded w.blockCtrl))
    | .resetLoaded thenBlock =>
      if w.blockCtrl = thenBlock then
        some { w.setPhase t .idle with blockCtrl := thenBlock.clear, admitted := [] }
      else some (w.setPhase t .reset)

/-- A load of `thru` whose sum does not wrap, and fits into the counter if it is within the cap. -/
def Fits : Event T → Prop
  | .go t => ∀ incomingSz, w.phase t = .thru incomingSz →
      w.blockCtrl.thruCounter.toNat + incomingSz.toNat < 2 ^ 64 ∧
        (w.blockCtrl.thruCounter.toNat + incomingSz.toNat ≤ w.thruCap.toNat →
          w.blockCtrl.thruCounter.toNat + incomingSz.toNat < 2 ^ 32)
  | _ => True

end World

variable {T : Type} {w w' : World T} {e : Event T} {t : T} {b : AtomicBlock} {sz : BitVec 64} {p : Phase}

theorem lt_of_exceeds {cap : BitVec 64} (h : b.exceeds sz cap = true) :
    cap.toNat < b.thruCounter.toNat + sz.toNat := by
  simp only [AtomicBlock.exceeds, BitVec.lt_def, BitVec.toNat_add, BitVec.toNat_setWidth,
    decide_eq_true_eq] at h
  have := Nat.mod_le (b.thruCounter.toNat % 2 ^ 64 + sz.toNat) (2 ^ 64)
  omega

theorem le_of_not_exceeds {cap : BitVec 64} (h : b.exceeds sz cap = false)
    (hfit : b.thruCounter.toNat + sz.toNat < 2 ^ 64) : b.thruCounter.toNat + sz.toNat ≤ cap.toNat := by
  simp only [AtomicBlock.exceeds, BitVec.lt_def, BitVec.toNat_add, BitVec.toNat_setWidth,
    decide_eq_false_iff_not] at h
  omega

theorem toNat_thru (h : b.thruCounter.toNat + sz.toNat < 2 ^ 32) :
    (b.thru sz).thruCounter.toNat = b.thruCounter.toNat + sz.toNat := by
  simp only [AtomicBlock.thru, BitVec.toNat_setWidth, BitVec.toNat_add]
  omega

/-- The counter is the sum of what was let through, and what a thread is about to let through fits. -/
structure Inv (w : World T) : Prop where
  counter : w.blockCtrl.thruCounter.toNat = w.total
  quota : w.total ≤ w.thruCap.toNat
  loaded : ∀ t sz b, w.phase t = .thruLoaded sz b →
    b.thruCounter.toNat + sz.toNat ≤ w.thruCap.toNat ∧ b.thruCounter.toNat + sz.toNat < 2 ^ 32

theorem Inv.make (thruCap : BitVec 64) : Inv (World.make thruCap : World T) :=
  ⟨rfl, Nat.zero_le _, fun _ _ _ h => by cases h⟩

variable [DecidableEq T]

/-- What holds of the other threads, and of the one that goes on, holds of all. -/
theorem loaded_setPhase {P : BitVec 64 → AtomicBlock → Prop}
    (h : ∀ t sz b, w.phase t = .thruLoaded sz b → P sz b) (hp : ∀ sz b, p = .thruLoaded sz b → P sz b) :
    ∀ u sz b, (w.setPhase t p).phase u = .thruLoaded sz b → P sz b := by
  intro u sz b hu
  by_cases hut : u = t
  · subst hut
    exact hp sz b (by simpa [World.setPhase] using hu)
  · exact h u sz b (by simpa [World.setPhase, hut] using hu)

theorem Inv.setPhase (h : Inv w) (t : T) (hp : ∀ sz b, p = .thruLoaded sz b →
    b.thruCounter.toNat + sz.toNat ≤ w.thruCap.toNat ∧ b.thruCounter.toNat + sz.toNat < 2 ^ 32) :
    Inv (w.setPhase t p) :=
  ⟨h.counter, h.quota, loaded_setPhase h.loaded hp⟩

theorem Inv.step (h : Inv w) (hfit : w.Fits e) (hs : w.step e = some w') : Inv w' := by
  cases e with
  | thru t sz =>
    simp only [World.step, Option.ite_none_right_eq_some, Option.some.injEq] at hs
    exact hs.2 ▸ h.setPhase t (by simp)
  | reset t =>
    simp only [World.step, Option.ite_none_right_eq_some, Option.some.injEq] at hs
    exact hs.2 ▸ h.setPhase t (by simp)
  | go t =>
    simp only [World.step] at hs
    cases hp : w.phase t with
    | idle => simp [hp] at hs
    | reset =>
      simp only [hp, Option.some.injEq] at hs
      exact hs ▸ h.setPhase t (by simp)
    | thru sz =>
      simp only [hp] at hs
      cases hx : w.blockCtrl.exceeds sz w.thruCap with
      | true =>
        simp only [hx, if_true, Option.some.injEq] at hs
        exact hs ▸ h.setPhase t (by simp)
      | false =>
        simp only [hx, Bool.false_eq_true, if_false, Option.some.injEq] at hs
        subst hs
        obtain ⟨h64, h32⟩ := hfit sz hp
        have hle := le_of_not_exceeds hx h64
        exact h.setPhase t fun sz' b he => by cases he; exact ⟨hle, h32 hle⟩
    | thruLoaded sz b =>
      simp only [hp] at hs
      obtain ⟨hle, h32⟩ := h.loaded t sz b hp
      by_cases hb : w.blockCtrl = b
      · simp only [if_pos hb, Option.some.injEq] at hs
        subst hs
        have hsum : ((w.admitted ++ [sz]).map BitVec.toNat).sum = w.total + sz.toNat := by
          simp [World.total]
        have hcounter := h.counter
        rw [hb] at hcounter
        refine ⟨(toNat_thru h32).trans ?_, ?_, loaded_setPhase h.loaded (by simp)⟩
        · rw [hcounter]
          exact hsum.symm
        · exact hsum.trans_le (hcounter ▸ hle)
      · simp only [if_neg hb, Option.some.injEq] at hs
        exact hs ▸ h.setPhase t (by simp)
    | resetLoaded b =>
      simp only [hp] at hs
      by_cases hb : w.blockCtrl = b
      · simp only [if_pos hb, Option.some.injEq] at hs
        subst hs
        exact ⟨rfl, Nat.zero_le _, loaded_setPhase h.loaded (by simp)⟩
      · simp only [if_neg hb, Option.some.injEq] at hs
        exact hs ▸ h.setPhase t (by simp)

/-- **The write quota.** In a run whose sums fit, what was let through since the last `reset` is within
the cap, and a request is refused only if it would exceed the cap. -/
theorem write_quota {hist : List (Event T)}
    (h : Run.Reach (fun w => ∃ thruCap, w = World.make thruCap)
      (fun w e w' => w.Fits e ∧ w.step e = some w') w hist) :
    w.total ≤ w.thruCap.toNat ∧ ∀ t sz w', w.phase t = .thru sz → w.step (.go t) = some w' →
      w'.phase t = .idle → w.thruCap.toNat < w.total + sz.toNat := by
  have hinv : Inv w := by
    refine h.inv (fun w _ => Inv w) ?_ fun w _ e w' hw hs => hw.step hs.1 hs.2
    rintro w ⟨thruCap, rfl⟩
    exact Inv.make thruCap
  refine ⟨hinv.quota, fun t sz w' hp hs hidle => ?_⟩
  simp only [World.step, hp] at hs
  split at hs
  · next hx => exact hinv.counter ▸ lt_of_exceeds hx
  · cases hs
    simp [World.setPhase] at hidle

/-- Of a cap of 10, a thread takes 4 while another one waits, which is refused 7. -/
theorem write_quota_refuses : ∃ w : World Bool, w.total = 4 ∧ w.total ≤ w.thruCap.toNat ∧
    w.thruCap.toNat < w.total + 7 := by
  have h0 : Run.Reach (fun w : World Bool => ∃ thruCap, w = World.make thruCap)
      (fun w e w' => w.Fits e ∧ w.step e = some w') (World.make 10) [] := .init ⟨10, rfl⟩
  have h1 := h0.step (a := Event.thru true 4) ⟨trivial, rfl⟩
  have h2 := h1.step (a := Event.thru false 7) ⟨trivial, rfl⟩
  have h3 := h2.step (a := Event.go true) ⟨fun sz hp => by cases hp; decide, rfl⟩
  have h4 := h3.step (a := Event.go true) ⟨fun sz hp => (by cases hp), rfl⟩
  obtain ⟨hquota, hrefused⟩ := write_quota h4
  exact ⟨_, rfl, hquota, hrefused false 7 _ rfl rfl rfl⟩

/-- After 1, a request for the greatest `size_t` is let through: the sum is 0. -/
theorem write_quota_wraps : ¬ ∀ (w : World Unit) hist,
    Run.Reach (fun w => ∃ thruCap, w = World.make thruCap) (fun w e w' => w.step e = some w') w hist →
    w.total ≤ w.thruCap.toNat := by
  intro hall
  have h0 : Run.Reach (fun w : World Unit => ∃ thruCap, w = World.make thruCap)
      (fun w e w' => w.step e = some w') (World.make 1) [] := .init ⟨1, rfl⟩
  have hrun : [Event.thru () 1, .go (), .go (), .thru () (BitVec.allOnes 64), .go (), .go ()].foldlM
      World.step (World.make 1) = some _ := rfl
  exact absurd (hall _ _ (h0.foldlM (f := World.step) (fun e => e) hrun)) (by decide)

end RestFrame.CacheWriteTraffic
