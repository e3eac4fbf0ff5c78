import NeuralNetwork.InternalRest.RestFrame.BatchRequestResponse
import NeuralNetwork.Lib.Loop

/-!
# When a batch response waits for every answer

The counter of a batch of `n` starts at `1 - n`, so `wait(0)` lets `response` through at once while more
than one answer is missing. `waits_of_patient` is about the runs in which `response` waits only when at
most one is missing (`Patient`): all runs, for a single request.
-/

namespace RestFrame.BatchResponse

open Cpp Loop Mailbox Run BatchRequestResponseBase UpdatePhase

variable {R : Type} {debug : Bool} {n idx : Nat} {w w' : World R} {hist : List (Event R)}

/-! ## What is observed -/

def UpdatePhase.value? : UpdatePhase R → Option (Expected R)
  | .idle => none
  | .stored response => some response
  | .notifying response => some response
  | .done response => some response

def UpdatePhase.applied : UpdatePhase R → Bool
  | .idle => false
  | .stored _ => false
  | .notifying _ => true
  | .done _ => true

def Complete (w : World R) : Prop := ∀ u ∈ w.updates, u.applied

def ResponsePhase.released : ResponsePhase R → Prop
  | .reading => True
  | .returned _ => True
  | _ => False

/-- `response` tests the counter in `wait` only when at most one update is missing. -/
def Patient (w : World R) : Event R → Prop
  | .goResponse => w.response = .waiting → 0 ≤ w.base.atomicSmp
  | _ => True

/-! ## The invariant -/

def Holds (w : World R) (rs : List (Expected R)) : Prop :=
  rs.length = w.updates.length ∧
    ∀ (idx : Nat) (u : UpdatePhase R) (v : Expected R), w.updates[idx]? = some u → u.value? = some v →
      rs[idx]? = some v

structure Inv (n : Nat) (w : World R) : Prop where
  size : w.updates.length = n
  counter : w.base.atomicSmp = 1 - n + w.updates.countP applied
  blocked : w.response = .blocked →
    w.base.atomicSmp = 0 ∨ ∃ v : Expected R, .notifying v ∈ w.updates
  released : w.response.released → w.base.atomicSmp = 1
  values : (∀ rs, w.response ≠ .returned rs) → Holds w w.base.respVec
  returned : ∀ rs, w.response = .returned rs → Holds w rs

theorem Inv.of_fresh (h : Fresh n w) : Inv n w := by
  obtain ⟨base, hb, rfl⟩ := h
  unfold make at hb
  split at hb
  · cases hb
  · split at hb
    · cases hb
    · cases hb
      refine ⟨by simp, ?_, nofun, fun h => h.elim, fun _ => ⟨by simp, ?_⟩, nofun⟩
      · simp [List.countP_replicate, applied]
      · intro idx u v hu hv
        obtain rfl : UpdatePhase.idle = u := (List.mem_replicate.1 (List.mem_of_getElem? hu)).2 ▸ rfl
        cases hv

theorem Inv.complete_iff (hi : Inv n w) : w.base.atomicSmp = 1 ↔ Complete w := by
  have hc := hi.counter
  have hs := hi.size
  have hle := List.countP_le_length (p := applied) (l := w.updates)
  have hall : Complete w ↔ w.updates.countP applied = w.updates.length :=
    List.countP_eq_length.symm
  rw [hall]
  constructor
  · intro h
    omega
  · intro h
    omega

theorem Inv.counter_le (hi : Inv n w) : w.base.atomicSmp ≤ 1 := by
  have hc := hi.counter
  have hs := hi.size
  have hle := List.countP_le_length (p := applied) (l := w.updates)
  omega

variable {u : UpdatePhase R} {b b' : BatchRequestResponseBase R} {l : List (UpdatePhase R)}

theorem countP_set (h : l[idx]? = some u) (u' : UpdatePhase R) :
    (l.set idx u').countP applied + u.applied.toNat =
      l.countP applied + u'.applied.toNat := by
  induction l generalizing idx with
  | nil => simp at h
  | cons x l ih =>
    cases idx with
    | zero =>
      obtain rfl : x = u := by simpa using h
      rw [List.set_cons_zero, List.countP_cons, List.countP_cons]
      cases x.applied <;> cases u'.applied <;> simp
    | succ idx =>
      have hrest : l[idx]? = some u := by simpa using h
      have := ih hrest
      rw [List.set_cons_succ, List.countP_cons, List.countP_cons]
      omega

theorem Holds.go {rs : List (Expected R)} {u' : UpdatePhase R} (h : Holds w rs)
    (hu : w.updates[idx]? = some u) (hv : u'.value? = u.value?) :
    Holds (w.setUpdate idx u') rs := by
  refine ⟨by rw [h.1]; simp [World.setUpdate], fun j x v hj hx => ?_⟩
  simp only [World.setUpdate, List.getElem?_set] at hj
  split at hj
  · rename_i hij
    subst hij
    split at hj
    · cases hj
      exact h.2 idx u v hu (hv ▸ hx)
    · cases hj
  · exact h.2 j x v hj hx

/-! ## Steps -/

theorem store_cases {v : Expected R} (e : b.store debug idx v = .ok b') :
    idx < b.respVec.length ∧ b' = { b with respVec := b.respVec.set idx v } := by
  unfold store at e
  split at e
  · split at e <;> cases e
  · rename_i old hold
    split at e
    · cases e
    · cases e
      exact ⟨(List.getElem?_eq_some_iff.1 hold).1, rfl⟩

theorem fetchAdd_cases {old : Int} (e : b.fetchAdd debug = .ok (b', old)) :
    old = b.atomicSmp ∧ b' = { b with atomicSmp := b.atomicSmp + 1 } := by
  unfold fetchAdd at e
  split at e
  · cases e
  · cases e
    exact ⟨rfl, rfl⟩

/-- While an update is missing, `response` is before or in its `wait`. -/
theorem Inv.not_released (hi : Inv n w) (hu : w.updates[idx]? = some u)
    (ha : u.applied = false) :
    ¬ w.response.released ∧ ∀ rs, w.response ≠ .returned rs := by
  have hidle : ¬ w.response.released := by
    intro hr
    have hall := hi.complete_iff.1 (hi.released hr) u (List.mem_of_getElem? hu)
    rw [ha] at hall
    cases hall
  refine ⟨hidle, fun rs hr => ?_⟩
  rw [hr] at hidle
  exact hidle trivial

theorem mem_set_of_mem {x u' : UpdatePhase R} (hx : x ∈ l) (hu : l[idx]? = some u) (hne : x ≠ u) :
    x ∈ l.set idx u' := by
  obtain ⟨j, hj⟩ := List.mem_iff_getElem?.1 hx
  apply List.mem_of_getElem? (i := j)
  rw [List.getElem?_set, if_neg, hj]
  rintro rfl
  rw [hu] at hj
  exact hne (Option.some.inj hj).symm

theorem Inv.update {v : Expected R} (hi : Inv n w) (e : Step debug w (.update idx v) w') :
    Inv n w' := by
  unfold Step World.step at e
  dsimp only at e
  split at e
  case h_2 => cases e
  rename_i hu
  obtain ⟨base, hstore, e⟩ := bind_eq_ok e
  obtain ⟨hlt, rfl⟩ := store_cases hstore
  cases e
  have hcount := countP_set hu (.stored v)
  simp only [applied, Bool.toNat_false, Nat.add_zero] at hcount
  obtain ⟨hidle, hreturned⟩ := hi.not_released hu rfl
  refine ⟨by simpa [World.setUpdate] using hi.size, ?_, fun hb => ?_, fun hr => absurd hr hidle, ?_,
    fun rs hr => absurd hr (hreturned rs)⟩
  · have hcounter := hi.counter
    show w.base.atomicSmp = 1 - n + ((w.updates.set idx (.stored v)).countP applied : Nat)
    omega
  · rcases hi.blocked hb with h0 | ⟨x, hx⟩
    · exact .inl h0
    · exact .inr ⟨x, mem_set_of_mem hx hu nofun⟩
  · intro _
    have hold := hi.values hreturned
    refine ⟨by simpa [World.setUpdate] using hold.1, fun j x u hj hx => ?_⟩
    simp only [World.setUpdate, List.getElem?_set] at hj ⊢
    split at hj
    · rename_i hij
      subst hij
      split at hj
      · cases hj
        cases hx
        rw [if_pos rfl, if_pos hlt]
      · cases hj
    · rename_i hij
      rw [if_neg hij]
      exact hold.2 j x u hj hx

theorem Inv.goUpdate (hi : Inv n w) (e : Step debug w (.goUpdate idx) w') : Inv n w' := by
  unfold Step World.step at e
  dsimp only at e
  split at e
  case h_3 => cases e
  case h_1 v hu =>
    obtain ⟨⟨base, old⟩, hadd, e⟩ := bind_eq_ok e
    obtain ⟨rfl, rfl⟩ := fetchAdd_cases hadd
    have hcounter := hi.counter
    obtain ⟨hidle, hreturned⟩ := hi.not_released hu rfl
    split at e
    · -- the last but one value of the counter
      rename_i h0
      cases e
      have hcount := countP_set hu (.notifying v)
      simp only [applied, Bool.toNat_false, Bool.toNat_true] at hcount
      refine ⟨by simpa [World.setUpdate] using hi.size, ?_, fun _ => .inr ⟨v, ?_⟩,
        fun hr => absurd hr hidle, fun _ => (hi.values hreturned).go hu rfl,
        fun rs hr => absurd hr (hreturned rs)⟩
      · show w.base.atomicSmp + 1 =
          1 - n + ((w.updates.set idx (.notifying v)).countP applied : Nat)
        omega
      · exact List.mem_set (List.getElem?_eq_some_iff.1 hu).1 _
    · rename_i h0
      cases e
      have hcount := countP_set hu (.done v)
      simp only [applied, Bool.toNat_false, Bool.toNat_true] at hcount
      refine ⟨by simpa [World.setUpdate] using hi.size, ?_, fun hb => ?_, fun hr => absurd hr hidle,
        fun _ => (hi.values hreturned).go hu rfl, fun rs hr => absurd hr (hreturned rs)⟩
      · show w.base.atomicSmp + 1 =
          1 - n + ((w.updates.set idx (.done v)).countP applied : Nat)
        omega
      · obtain ⟨x, hx⟩ := (hi.blocked hb).resolve_left h0
        exact .inr ⟨x, mem_set_of_mem hx hu nofun⟩
  case h_2 v hu =>
    cases e
    have hcount := countP_set hu (.done v)
    simp only [applied, Bool.toNat_true] at hcount
    have hsame : w.notifyOne.base = w.base ∧ w.notifyOne.updates = w.updates ∧
        w.notifyOne.response ≠ .blocked ∧
        (w.notifyOne.response.released ↔ w.response.released) ∧
        ∀ rs, w.notifyOne.response = .returned rs ↔ w.response = .returned rs := by
      unfold World.notifyOne
      cases hr : w.response <;> simp [ResponsePhase.released, hr]
    obtain ⟨hbase, hupdates, hblocked, hreleased, hreturned⟩ := hsame
    have hgo : ∀ rs, Holds w rs → Holds (w.notifyOne.setUpdate idx (.done v)) rs := by
      intro rs h
      refine Holds.go (w := w.notifyOne) (u := .notifying v) ?_ (by rw [hupdates]; exact hu) rfl
      unfold Holds at h ⊢
      rw [hupdates]
      exact h
    refine ⟨by simpa [World.setUpdate, hupdates] using hi.size, ?_, fun hb => absurd hb hblocked,
      fun hr => ?_, fun hr => ?_, fun rs hr => hgo rs (hi.returned rs ((hreturned rs).1 hr))⟩
    · have hcounter := hi.counter
      show w.notifyOne.base.atomicSmp =
        1 - n + ((w.notifyOne.updates.set idx (.done v)).countP applied : Nat)
      rw [hbase, hupdates]
      omega
    · show w.notifyOne.base.atomicSmp = 1
      rw [hbase]
      exact hi.released (hreleased.1 hr)
    · show Holds _ w.notifyOne.base.respVec
      rw [hbase]
      exact hgo _ (hi.values fun rs h => hr rs ((hreturned rs).2 h))

theorem Inv.goResponse (hi : Inv n w) (hp : Patient w .goResponse)
    (e : Step debug w .goResponse w') : Inv n w' := by
  unfold Step World.step at e
  dsimp only at e
  split at e
  case h_3 => cases e
  case h_1 hr =>
    have hkeep : ∀ rs, w.response ≠ .returned rs := by
      rw [hr]
      nofun
    split at e
    · rename_i h0
      cases e
      exact ⟨hi.size, hi.counter, fun _ => .inl h0, fun h => h.elim, fun _ => hi.values hkeep, nofun⟩
    · rename_i h0
      cases e
      have hle := hi.counter_le
      have hge := hp hr
      refine ⟨hi.size, hi.counter, nofun, fun _ => ?_, fun _ => hi.values hkeep, nofun⟩
      show w.base.atomicSmp = 1
      omega
  case h_2 hr =>
    obtain ⟨⟨base, rs⟩, hmove, e⟩ := bind_eq_ok e
    unfold moveResponses at hmove
    split at hmove
    · cases hmove
    · cases hmove
      cases e
      have hold := hi.values (by rw [hr]; nofun)
      refine ⟨hi.size, hi.counter, nofun, fun _ => hi.released (by rw [hr]; trivial),
        fun h => absurd rfl (h _), fun rs' hrs => ?_⟩
      cases hrs
      exact hold

theorem Inv.step {a : Event R} (hi : Inv n w) (hp : Patient w a) (e : Step debug w a w') :
    Inv n w' := by
  cases a with
  | update idx v => exact hi.update e
  | goUpdate idx => exact hi.goUpdate e
  | response =>
    unfold Step World.step at e
    dsimp only at e
    split at e
    · rename_i hr
      split at e
      · cases e
      · cases e
        exact ⟨hi.size, hi.counter, nofun, fun h => h.elim,
          fun _ => hi.values (by rw [hr]; nofun), nofun⟩
    · cases e
  | goResponse => exact hi.goResponse hp e

/-! ## Runs -/

/-- **A batch response waits for every answer in the runs in which `response` waits only when at most
one answer is missing**: it gets past its `wait` only when all updates have been applied, and returns
their values by index. The first impatient step lets `response` through with an answer missing. -/
theorem waits_of_patient
    (h : Reach (Fresh n) (fun w a w' => Step debug w a w' ∧ Patient w a) w hist) :
    (w.response.released → Complete w) ∧
    (∀ rs, w.response = .returned rs → rs.length = n ∧
      ∀ (idx : Nat) (u : UpdatePhase R), w.updates[idx]? = some u → u.value? = rs[idx]?) ∧
    (w.base.isCompleted ↔ Complete w) ∧
    ((∀ u ∈ w.updates, ∃ v, u = .done v) → w.response ≠ .blocked) ∧
    ∀ w', Step debug w .goResponse w' → ¬ Patient w .goResponse →
      w'.response.released ∧ ¬ Complete w' := by
  have hi : Inv n w := h.inv (fun w _ => Inv n w) (fun _ => Inv.of_fresh)
    fun _ _ _ _ hi hstep => hi.step hstep.2 hstep.1
  refine ⟨fun hr => hi.complete_iff.1 (hi.released hr), fun rs hr => ?_, ?_, fun hdone hb => ?_,
    fun w' e hp => ?_⟩
  · obtain ⟨hlen, hvalues⟩ := hi.returned rs hr
    refine ⟨by rw [hlen, hi.size], fun idx u hu => ?_⟩
    have hall := hi.complete_iff.1 (hi.released (by rw [hr]; trivial)) u (List.mem_of_getElem? hu)
    cases u with
    | idle => cases hall
    | stored v => cases hall
    | notifying v => exact (hvalues idx _ v hu rfl).symm
    | done v => exact (hvalues idx _ v hu rfl).symm
  · rw [← hi.complete_iff, isCompleted, decide_eq_true_iff]
  · have hcomplete : Complete w := by
      intro u hu
      obtain ⟨v, rfl⟩ := hdone u hu
      rfl
    rcases hi.blocked hb with h0 | ⟨v, hv⟩
    · have h1 := hi.complete_iff.2 hcomplete
      omega
    · obtain ⟨x, hx⟩ := hdone _ hv
      cases hx
  · obtain ⟨hr, hneg⟩ : w.response = .waiting ∧ w.base.atomicSmp < 0 := by
      simpa [Patient] using hp
    unfold Step World.step at e
    simp only [hr] at e
    rw [if_neg (by omega)] at e
    cases e
    refine ⟨trivial, fun hc => ?_⟩
    have h1 := hi.complete_iff.2 hc
    omega

/-- Of two answers one is there when `response` waits. -/
theorem waits_of_patient_two : ∃ w : World Nat, w.response = .returned [.ok 5, .ok 6] ∧
    Complete w := by
  obtain ⟨w0, h0, w1, h1, w2, h2, w3, h3, w4, h4, w5, h5, w6, h6, w7, h7, w8, h8, w9, h9, w10, h10,
      hw⟩ : ∃ w0 : World Nat, Fresh 2 w0 ∧
      ∃ w1, Step true w0 .response w1 ∧ ∃ w2, Step true w1 (.update 0 (.ok 5)) w2 ∧
      ∃ w3, Step true w2 (.goUpdate 0) w3 ∧
      ∃ w4, (Step true w3 .goResponse w4 ∧ 0 ≤ w3.base.atomicSmp) ∧
      ∃ w5, Step true w4 (.update 1 (.ok 6)) w5 ∧ ∃ w6, Step true w5 (.goUpdate 1) w6 ∧
      ∃ w7, Step true w6 (.goUpdate 1) w7 ∧
      ∃ w8, (Step true w7 .goResponse w8 ∧ 0 ≤ w7.base.atomicSmp) ∧
      ∃ w9, (Step true w8 .goResponse w9 ∧ 0 ≤ w8.base.atomicSmp) ∧
      ∃ w10, w10 = w9 ∧ w10.response = .returned [.ok 5, .ok 6] :=
    ⟨_, ⟨_, rfl, rfl⟩, _, rfl, _, rfl, _, rfl, _, ⟨rfl, by decide⟩, _, rfl, _, rfl, _, rfl, _,
      ⟨rfl, by decide⟩, _, ⟨rfl, by decide⟩, _, rfl, rfl⟩
  subst h10
  obtain ⟨hist, hreach⟩ : ∃ hist, Reach (Fresh 2) (fun w a w' => Step true w a w' ∧ Patient w a)
      w10 hist :=
    ⟨_, .step (.step (.step (.step (.step (.step (.step (.step (.step (.init h0) ⟨h1, trivial⟩)
      ⟨h2, trivial⟩) ⟨h3, trivial⟩) ⟨h4.1, fun _ => h4.2⟩) ⟨h5, trivial⟩) ⟨h6, trivial⟩)
      ⟨h7, trivial⟩) ⟨h8.1, fun _ => h8.2⟩) ⟨h9.1, fun _ => h9.2⟩⟩
  exact ⟨w10, hw, (waits_of_patient hreach).1 (by rw [hw]; trivial)⟩

/-- A batch of two: `response` returns before any update. -/
theorem response_before_updates : ∃ (w : World Nat) (hist : List (Event Nat)),
    Reach (Fresh 2) (Step false) w hist ∧ ¬ Complete w ∧
    w.response = .returned [.error .expectedNotInitialized, .error .expectedNotInitialized] := by
  obtain ⟨w0, h0, w, hrun, hu, hr⟩ : ∃ w0 : World Nat, Fresh 2 w0 ∧ ∃ w,
      [Event.response, .goResponse, .goResponse].foldlM (fun w e => ofStep (World.step w false e)) w0 =
        some w ∧ w.updates = [.idle, .idle] ∧
      w.response = .returned [.error .expectedNotInitialized, .error .expectedNotInitialized] :=
    ⟨_, ⟨_, rfl, rfl⟩, _, rfl, rfl, rfl⟩
  refine ⟨w, _, (Reach.init h0).runM id hrun, fun hc => ?_, hr⟩
  have := hc .idle (by simp [hu])
  cases this

end RestFrame.BatchResponse
