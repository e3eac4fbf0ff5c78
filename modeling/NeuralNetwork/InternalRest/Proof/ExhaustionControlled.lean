import NeuralNetwork.InternalRest.Mailbox.ExhaustionControlled
import Mathlib.Data.List.Pairwise

/-!
# Retries of the exhaustion-controlled wrappers

`Inv` is kept by every element that the base is handed, and `Ready` by every round: before the window
nothing is refused, and what is in the window was refused each time it was handed over. **`push_retried`**:
what a call of a wrapper does.
-/

namespace Mailbox.ExhaustionControlled

open Cpp Loop

variable {α : Type} {pkts : List α} {init : List ExceptionT} {s s' : State α} {r : Round}

/-! ## The answers to an element -/

def answersOf (calls : List (Call α)) (i : Nat) : List ExceptionT :=
  (calls.filter (·.index = i)).map (·.answer)

theorem answersOf_concat_self (calls : List (Call α)) (c : Call α) :
    answersOf (calls ++ [c]) c.index = answersOf calls c.index ++ [c.answer] := by
  simp [answersOf]

variable {i : Nat} {calls : List (Call α)}

theorem answersOf_concat_of_ne (calls : List (Call α)) (c : Call α) (h : c.index ≠ i) :
    answersOf (calls ++ [c]) i = answersOf calls i := by
  simp [answersOf, h]

/-- Every answer to the element was that the queue is full. -/
def Refused (s : State α) (i : Nat) : Prop := ∀ a ∈ answersOf s.calls i, a = .socketQueueFull

def Answered (s : State α) (i : Nat) : Prop := answersOf s.calls i ≠ []

/-- An element is handed over again only after it was refused. -/
def Again (calls : List (Call α)) : Prop :=
  calls.Pairwise fun d c => d.index = c.index → d.answer = .socketQueueFull

theorem Again.concat {c : Call α} (h : Again calls)
    (hc : ∀ a ∈ answersOf calls c.index, a = .socketQueueFull) : Again (calls ++ [c]) := by
  refine List.pairwise_append.2 ⟨h, List.pairwise_singleton _ _, fun d hd c' hc' hi => ?_⟩
  obtain rfl := List.mem_singleton.1 hc'
  exact hc _ (List.mem_map_of_mem (List.mem_filter.2 ⟨hd, decide_eq_true hi⟩))

theorem Again.refused (h : Again calls) {l : List ExceptionT} {a : ExceptionT}
    (e : answersOf calls i = l ++ [a]) : ∀ b ∈ l, b = .socketQueueFull := by
  have hp : (answersOf calls i).Pairwise fun b _ => b = .socketQueueFull := by
    refine List.pairwise_map.2 (List.Pairwise.imp_of_mem (fun {d c} hd hc hdc => ?_) (h.filter _))
    refine hdc ?_
    rw [of_decide_eq_true (List.mem_filter.1 hd).2, of_decide_eq_true (List.mem_filter.1 hc).2]
  rw [e] at hp
  exact fun b hb => (List.pairwise_append.1 hp).2.2 b hb a (List.mem_singleton_self a)

/-! ## What every element satisfies -/

structure Inv (pkts : List α) (init : List ExceptionT) (s : State α) : Prop where
  pktArr : s.pktArr.length = pkts.length
  exceptionArr : s.exceptionArr.length = pkts.length
  untouched : ∀ i < pkts.length, Refused s i → s.pktArr[i]? = some pkts[i]?
  handed : ∀ c ∈ s.calls, c.index < pkts.length ∧ c.element = pkts[c.index]?
  again : Again s.calls
  last : ∀ i < pkts.length, s.exceptionArr[i]? = ((answersOf s.calls i).getLast?).or init[i]?

/-- An element whose status is that the queue is full was refused each time. -/
theorem Inv.refused (h : Inv pkts init s) (hi : i < pkts.length) (ha : Answered s i)
    (he : s.exceptionArr[i]? = some .socketQueueFull) : Refused s i := by
  obtain ⟨a, hlast⟩ := Option.ne_none_iff_exists'.1 (fun hn => ha (List.getLast?_eq_none_iff.1 hn))
  obtain ⟨l, hl⟩ := List.getLast?_eq_some_iff.1 hlast
  have ha' : a = .socketQueueFull := by
    have hi' := h.last i hi
    rw [hlast, he, Option.some_or] at hi'
    exact (Option.some.inj hi').symm
  intro b hb
  rw [hl] at hb
  rcases List.mem_append.1 hb with hb | hb
  · exact h.again.refused hl b hb
  · rw [List.mem_singleton.1 hb, ha']

structure Handed (j : Nat) (a : ExceptionT) (s s' : State α) : Prop where
  calls : answersOf s'.calls j = answersOf s.calls j ++ [a]
  others : ∀ k, k ≠ j → answersOf s'.calls k = answersOf s.calls k ∧
    s'.exceptionArr[k]? = s.exceptionArr[k]?
  pktArrFirst : s'.pktArrFirst = s.pktArrFirst
  exceptionArrFirst : s'.exceptionArrFirst = s.exceptionArrFirst

theorem handOver_ok (h : Inv pkts init s) (hc : s.exceptionArrFirst = s.pktArrFirst)
    (hi : s.pktArrFirst + i < pkts.length) (hr : Refused s (s.pktArrFirst + i)) :
    ∃ s', handOver r i s = .ok s' ∧ Inv pkts init s' ∧ Handed (s.pktArrFirst + i) (r.answers i) s s' := by
  have hslot := h.untouched _ hi hr
  have hlt : s.exceptionArrFirst + i < s.exceptionArr.length := by
    rw [hc, h.exceptionArr]
    exact hi
  unfold handOver
  rw [hslot]
  dsimp only
  rw [if_pos hlt]
  refine ⟨_, rfl, ⟨?_, ?_, fun k hk hk' => ?_, fun c hcm => ?_, h.again.concat hr, fun k hk => ?_⟩,
    answersOf_concat_self _ _, fun k hk => ⟨answersOf_concat_of_ne _ _ (Ne.symm hk), ?_⟩, rfl, rfl⟩
  · split
    · exact h.pktArr
    · rw [List.length_set]
      exact h.pktArr
  · rw [List.length_set]
    exact h.exceptionArr
  · unfold Refused at hk'
    by_cases hkj : k = s.pktArrFirst + i
    · subst hkj
      rw [answersOf_concat_self] at hk'
      have hq : r.answers i = .socketQueueFull := hk' _ (List.mem_append_right _ (List.mem_singleton_self _))
      rw [if_pos hq]
      exact hslot
    · rw [answersOf_concat_of_ne _ _ (Ne.symm hkj)] at hk'
      have hold := h.untouched k hk hk'
      split
      · exact hold
      · rw [List.getElem?_set_ne (Ne.symm hkj)]
        exact hold
  · rcases List.mem_append.1 hcm with hcm | hcm
    · exact h.handed c hcm
    · obtain rfl := List.mem_singleton.1 hcm
      exact ⟨hi, rfl⟩
  · by_cases hkj : k = s.pktArrFirst + i
    · subst hkj
      rw [answersOf_concat_self, hc, List.getElem?_set_self (by rw [h.exceptionArr]; exact hk),
        List.getLast?_concat, Option.some_or]
    · rw [answersOf_concat_of_ne _ _ (Ne.symm hkj), hc, List.getElem?_set_ne (Ne.symm hkj)]
      exact h.last k hk
  · rw [hc, List.getElem?_set_ne (Ne.symm hk)]

/-! ## A round -/

/-- Between two rounds: the cursors are at the first run of refused elements. -/
structure Ready (pkts : List α) (init : List ExceptionT) (s : State α) : Prop where
  inv : Inv pkts init s
  cursors : s.exceptionArrFirst = s.pktArrFirst
  window : s.pktArrFirst + s.slidingWindowSz ≤ pkts.length
  before : ∀ k < s.pktArrFirst, Answered s k ∧ s.exceptionArr[k]? ≠ some .socketQueueFull
  refused : ∀ k, s.pktArrFirst ≤ k → k < s.pktArrFirst + s.slidingWindowSz → Refused s k
  after : ∀ k, s.pktArrFirst + s.slidingWindowSz ≤ k → k < pkts.length → Answered s k

theorem Ready.start (hlen : init.length = pkts.length) : Ready pkts init (start pkts init) := by
  have hnil : ∀ k, answersOf (ExhaustionControlled.start pkts init).calls k = [] := fun _ => rfl
  refine ⟨⟨?_, hlen, fun i hi _ => ?_, (fun c hc => nomatch hc), List.Pairwise.nil, fun i _ => ?_⟩,
    rfl, ?_, (fun k hk => nomatch hk), fun k _ _ a ha => ?_, fun k hk hk' => ?_⟩
  · exact List.length_map ..
  · simp [ExhaustionControlled.start, hi]
  · rw [hnil, List.getLast?_nil, Option.none_or]
    rfl
  · exact (Nat.zero_add _).le
  · rw [hnil] at ha
    nomatch ha
  · change 0 + pkts.length ≤ k at hk
    omega

theorem Ready.basePush (h : Ready pkts init s) :
    ∃ s', basePush r s = .ok s' ∧ Inv pkts init s' ∧ s'.pktArrFirst = s.pktArrFirst ∧
      s'.exceptionArrFirst = s.pktArrFirst ∧ (∀ k < pkts.length, Answered s' k) ∧
      ∀ k < s.pktArrFirst, s'.exceptionArr[k]? = s.exceptionArr[k]? := by
  obtain ⟨s', e, hinv, h1, h2, hdone, hsame⟩ : ∃ s', ExhaustionControlled.basePush r s = .ok s' ∧
      Inv pkts init s' ∧ s'.pktArrFirst = s.pktArrFirst ∧ s'.exceptionArrFirst = s.pktArrFirst ∧
      (∀ k, s.pktArrFirst ≤ k → k < s.pktArrFirst + s.slidingWindowSz → Answered s' k) ∧
      ∀ k, (k < s.pktArrFirst ∨ s.pktArrFirst + s.slidingWindowSz ≤ k) →
        answersOf s'.calls k = answersOf s.calls k ∧ s'.exceptionArr[k]? = s.exceptionArr[k]? := by
    -- after `i` elements the first `i` of the window are answered
    refine forLoop_ok (fun i s' => Inv pkts init s' ∧ s'.pktArrFirst = s.pktArrFirst ∧
      s'.exceptionArrFirst = s.pktArrFirst ∧
      (∀ k, s.pktArrFirst ≤ k → k < s.pktArrFirst + i → Answered s' k) ∧
      ∀ k, (k < s.pktArrFirst ∨ s.pktArrFirst + i ≤ k) →
        answersOf s'.calls k = answersOf s.calls k ∧ s'.exceptionArr[k]? = s.exceptionArr[k]?) ?_ ?_
    · exact ⟨h.inv, rfl, h.cursors, fun k h1 h2 => by omega, fun _ _ => ⟨rfl, rfl⟩⟩
    · intro i hi s1 hs1
      obtain ⟨hinv, h1, h2, hdone, hsame⟩ := hs1
      have hwin := h.window
      have hrefused : Refused s1 (s1.pktArrFirst + i) := by
        unfold Refused
        rw [h1, (hsame _ (.inr (Nat.le_refl _))).1]
        exact h.refused _ (Nat.le_add_right _ _) (by omega)
      obtain ⟨s2, e, hinv2, hh⟩ := handOver_ok (r := r) hinv (h2.trans h1.symm) (by omega) hrefused
      rw [h1] at hh
      refine ⟨s2, e, hinv2, hh.pktArrFirst.trans h1, hh.exceptionArrFirst.trans h2, fun k hk hk' => ?_,
        fun k hk => ?_⟩
      · by_cases hkj : k = s.pktArrFirst + i
        · subst hkj
          unfold Answered
          rw [hh.calls]
          exact List.append_ne_nil_of_right_ne_nil _ (List.cons_ne_nil _ _)
        · unfold Answered
          rw [(hh.others k hkj).1]
          exact hdone k hk (by omega)
      · obtain ⟨ho, he⟩ := hh.others k (by omega)
        rw [ho, he]
        exact hsame k (by omega)
  refine ⟨s', e, hinv, h1, h2, fun k hk => ?_, fun k hk => (hsame k (.inl hk)).2⟩
  by_cases hb : k < s.pktArrFirst
  · unfold Answered
    rw [(hsame k (.inl hb)).1]
    exact (h.before k hb).1
  · by_cases ha : k < s.pktArrFirst + s.slidingWindowSz
    · exact hdone k (by omega) ha
    · unfold Answered
      rw [(hsame k (.inr (by omega))).1]
      exact h.after k (by omega) hk

theorem eq_false_of_lt_findIdx {β : Type} {p : β → Bool} {l : List β} {j : Nat} {b : β}
    (h : j < l.findIdx p) (hb : l[j]? = some b) : p b = false := by
  obtain ⟨_, rfl⟩ := List.getElem?_eq_some_iff.1 hb
  exact List.not_of_lt_findIdx h

theorem advance_ready (hinv : Inv pkts init s) (hc : s.exceptionArrFirst = s.pktArrFirst)
    (hf : s.pktArrFirst ≤ pkts.length) (ha : ∀ k < pkts.length, Answered s k)
    (hb : ∀ k < s.pktArrFirst, s.exceptionArr[k]? ≠ some .socketQueueFull) :
    Ready pkts init (advance s) := by
  have hlen := hinv.exceptionArr
  generalize hoff : (s.exceptionArr.drop s.exceptionArrFirst).findIdx (· = .socketQueueFull) = off
  generalize hw : ((s.exceptionArr.drop s.exceptionArrFirst).drop off).findIdx (· ≠ .socketQueueFull) = w
  have hadv : advance s = { s with
      slidingWindowSz := w, pktArrFirst := s.pktArrFirst + off,
      exceptionArrFirst := s.exceptionArrFirst + off,
      reported := s.reported ++ [(s.exceptionArr.drop s.exceptionArrFirst).count .socketQueueFull] } := by
    rw [← hw, ← hoff]
    rfl
  have hoffle : off ≤ s.exceptionArr.length - s.pktArrFirst := by
    rw [← hoff, ← hc, ← List.length_drop]
    exact List.findIdx_le_length
  have hwle : w ≤ s.exceptionArr.length - s.pktArrFirst - off := by
    rw [← hw, ← hc, ← List.length_drop, ← List.length_drop]
    exact List.findIdx_le_length
  rw [hadv]
  refine ⟨⟨hinv.pktArr, hinv.exceptionArr, hinv.untouched, hinv.handed, hinv.again, hinv.last⟩, ?_, ?_,
    fun k hk => ⟨ha k ?_, ?_⟩, fun k hk hk' => ?_, fun k _ hk => ha k hk⟩
  · rw [hc]
  · dsimp only
    omega
  · dsimp only at hk
    omega
  · dsimp only at hk ⊢
    by_cases hold : k < s.pktArrFirst
    · exact hb k hold
    · intro he
      have hlt : k - s.pktArrFirst < off := by omega
      rw [← hoff] at hlt
      have hno := eq_false_of_lt_findIdx (b := .socketQueueFull) hlt (by
        rw [List.getElem?_drop, hc, Nat.add_sub_cancel' (by omega)]
        exact he)
      simp at hno
  · dsimp only at hk hk'
    apply hinv.refused (by omega) (ha k (by omega))
    have hlt : k - (s.pktArrFirst + off) < w := by omega
    obtain ⟨e, he⟩ : ∃ e, s.exceptionArr[k]? = some e :=
      ⟨_, List.getElem?_eq_getElem (by omega)⟩
    rw [← hw] at hlt
    have hno := eq_false_of_lt_findIdx (b := e) hlt (by
      rw [List.getElem?_drop, List.getElem?_drop, hc, ← Nat.add_assoc, Nat.add_sub_cancel' (by omega)]
      exact he)
    rw [he]
    simpa using hno

theorem Ready.task (h : Ready pkts init s) :
    ∃ last s', task r s = .ok (last, s') ∧ Ready pkts init s' ∧ (∀ k < pkts.length, Answered s' k) ∧
      (last = true → r.shouldWait = false ∨ ∀ k : Nat, s'.exceptionArr[k]? ≠ some .socketQueueFull) := by
  obtain ⟨s1, e, hinv, h1, h2, hdone, hsame⟩ := h.basePush (r := r)
  have hwin := h.window
  have hready : Ready pkts init (advance s1) := by
    refine advance_ready hinv (h2.trans h1.symm) (by omega) hdone fun k hk => ?_
    rw [h1] at hk
    rw [hsame k hk]
    exact (h.before k hk).2
  refine ⟨_, advance s1, by simp only [ExhaustionControlled.task, e, ok_bind]; rfl, hready, hdone,
    fun hlast => ?_⟩
  rcases Bool.or_eq_true_iff.1 hlast with hwait | hend
  · exact .inl (by simpa using hwait)
  · right
    intro k he
    have hend' : (advance s1).pktArrFirst = pkts.length := (beq_iff_eq.1 hend).trans hready.inv.pktArr
    have hk : k < (advance s1).exceptionArr.length := (List.getElem?_eq_some_iff.1 he).1
    rw [hready.inv.exceptionArr, ← hend'] at hk
    exact (hready.before k hk).2 he

/-! ## A call -/

/-- What a call of a wrapper has done, when its executor has come so far. -/
structure Retried (pkts : List α) (init : List ExceptionT) (rounds : List Round) (stop : Stop)
    (s : State α) : Prop where
  /-- What is handed over is an element of the batch that the base did not take. -/
  element : ∀ c ∈ s.calls, c.index < pkts.length ∧ c.element = pkts[c.index]?
  /-- Whenever an element was handed over before, it was refused. -/
  again : s.calls.Pairwise fun d c => d.index = c.index → d.answer = .socketQueueFull
  answered : (∃ r rest, rounds = r :: rest ∧ r.poisoned = false) →
    ∀ i < pkts.length, answersOf s.calls i ≠ []
  status : ∀ i < pkts.length, s.exceptionArr[i]? = ((answersOf s.calls i).getLast?).or init[i]?
  finished : stop = .finished → (∀ e ∈ s.exceptionArr, e ≠ .socketQueueFull) ∨
    ∃ before r after s₀, rounds = before ++ r :: after ∧
      exec before (start pkts init) = .ok (.running, s₀) ∧ task r s₀ = .ok (true, s) ∧
      r.shouldWait = false
  poisoned : stop = .poisoned → ∃ r ∈ rounds, r.poisoned = true

theorem exec_cons (rounds : List Round) : exec (r :: rounds) s =
    if r.poisoned then .ok (.poisoned, s)
    else task r s >>= fun p => if p.1 then .ok (.finished, p.2) else exec rounds p.2 := rfl

theorem Ready.exec (rounds : List Round) (h : Ready pkts init s) :
    ∃ stop s', exec rounds s = .ok (stop, s') ∧ Ready pkts init s' ∧
      ((∀ k < pkts.length, Answered s k) ∨ (∃ r rest, rounds = r :: rest ∧ r.poisoned = false) →
        ∀ k < pkts.length, Answered s' k) ∧
      (stop = .finished → (∀ k : Nat, s'.exceptionArr[k]? ≠ some .socketQueueFull) ∨
        ∃ before r after s₀, rounds = before ++ r :: after ∧
          ExhaustionControlled.exec before s = .ok (.running, s₀) ∧
          ExhaustionControlled.task r s₀ = .ok (true, s') ∧ r.shouldWait = false) ∧
      (stop = .poisoned → ∃ r ∈ rounds, r.poisoned = true) := by
  induction rounds generalizing s with
  | nil =>
    refine ⟨.running, s, rfl, h, fun ha => ?_, (fun hs => nomatch hs), fun hs => nomatch hs⟩
    rcases ha with ha | ⟨r, rest, hr, -⟩
    · exact ha
    · cases hr
  | cons r rounds ih =>
    rw [exec_cons]
    by_cases hp : r.poisoned = true
    · rw [if_pos hp]
      refine ⟨.poisoned, s, rfl, h, fun ha => ?_, (fun hs => nomatch hs),
        fun _ => ⟨r, List.mem_cons_self, hp⟩⟩
      rcases ha with ha | ⟨r', rest, hr, hp'⟩
      · exact ha
      · cases hr
        rw [hp] at hp'
        cases hp'
    · rw [if_neg hp]
      obtain ⟨last, s1, e, h1, hdone, hlast⟩ := h.task (r := r)
      rw [e, ok_bind]
      cases last with
      | true =>
        refine ⟨.finished, s1, rfl, h1, fun _ => hdone, fun _ => ?_, fun hs => nomatch hs⟩
        rcases hlast rfl with hwait | hnone
        · exact .inr ⟨[], r, rounds, s, rfl, rfl, e, hwait⟩
        · exact .inl hnone
      | false =>
        obtain ⟨stop, s2, e2, h2, hans, hfin, hpois⟩ := ih h1
        refine ⟨stop, s2, e2, h2, fun _ => hans (.inl hdone), fun hs => ?_, fun hs => ?_⟩
        · rcases hfin hs with hnone | ⟨before, r', after, s₀, hrounds, hrun, htask, hwait⟩
          · exact .inl hnone
          · refine .inr ⟨r :: before, r', after, s₀, by rw [hrounds]; rfl, ?_, htask, hwait⟩
            rw [exec_cons, if_neg hp, e, ok_bind]
            exact hrun
        · obtain ⟨r', hm, hp'⟩ := hpois hs
          exact ⟨r', List.mem_cons_of_mem _ hm, hp'⟩

/-- Every call goes through without an access outside the arrays, and retries what it should. -/
theorem push_ok (hlen : init.length = pkts.length) (rounds : List Round) :
    ∃ stop s, push pkts init rounds = .ok (stop, s) ∧ Retried pkts init rounds stop s := by
  obtain ⟨stop, s, e, h, hans, hfin, hpois⟩ := (Ready.start hlen).exec rounds
  refine ⟨stop, s, e, h.inv.handed, h.inv.again, fun hr => hans (.inr hr), h.inv.last, fun hs => ?_, hpois⟩
  rcases hfin hs with hnone | hwait
  · refine .inl fun e he heq => ?_
    obtain ⟨k, hk⟩ := List.mem_iff_getElem?.1 he
    exact hnone k (heq ▸ hk)
  · exact .inr hwait

/-- **The three wrappers retry** each element only as long as it is refused, and stop when none is, when the
controller says not to wait, or when the executor is stopped. -/
theorem push_retried (init : List ExceptionT) (rounds : List Round) :
    (∀ pkts : List Packet, init.length = pkts.length → ∃ stop s,
      ExhaustionControlledRetransmissionController.addRetriables pkts init rounds = .ok (stop, s) ∧
        Retried pkts init rounds stop s) ∧
    (∀ buffers : List (List Byte), init.length = buffers.length → ∃ stop s,
      ExhaustionControlledBufferContainer.push buffers init rounds = .ok (stop, s) ∧
        Retried buffers init rounds stop s) ∧
    ∀ pkts : List Packet, init.length = pkts.length → ∃ stop s,
      ExhaustionControlledPacketContainer.push pkts init rounds = .ok (stop, s) ∧
        Retried pkts init rounds stop s :=
  ⟨fun _ hlen => push_ok hlen rounds, fun _ hlen => push_ok hlen rounds, fun _ hlen => push_ok hlen rounds⟩

/-- The middle one of three elements is refused once. -/
theorem push_retried_sample : ∃ stop s, ExhaustionControlledBufferContainer.push [[], [], []] [0, 0, 0]
    [⟨false, fun i => if i = 1 then .socketQueueFull else .success, true⟩, ⟨false, fun _ => .success, true⟩] =
      .ok (stop, s) ∧ Retried [[], [], []] [0, 0, 0]
    [⟨false, fun i => if i = 1 then .socketQueueFull else .success, true⟩, ⟨false, fun _ => .success, true⟩]
      stop s :=
  (push_retried [0, 0, 0] [⟨false, fun i => if i = 1 then .socketQueueFull else .success, true⟩,
    ⟨false, fun _ => .success, true⟩]).2.1 [[], [], []] rfl

/-- The executor is stopped after the first round, while an element is refused and the controller says to
wait. -/
theorem push_stopped : ∃ rounds : List Round, (∀ r ∈ rounds, r.shouldWait = true) ∧
    ∃ stop s, ExhaustionControlledBufferContainer.push [[]] [0] rounds = .ok (stop, s) ∧
      stop ≠ .running ∧ s.exceptionArr = [.socketQueueFull] := by
  refine ⟨[⟨false, fun _ => .socketQueueFull, true⟩, ⟨true, fun _ => .socketQueueFull, true⟩], ?_,
    .poisoned, ⟨[some []], 0, [.socketQueueFull], 0, 1, [⟨0, some [], .socketQueueFull⟩], [1]⟩, ?_,
    by decide, rfl⟩
  · simp
  · rfl

end Mailbox.ExhaustionControlled
