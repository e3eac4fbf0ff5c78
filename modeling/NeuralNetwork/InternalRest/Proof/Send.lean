import NeuralNetwork.Funnel.Proof.Funnel
import NeuralNetwork.InternalRest.Mailbox.Send

/-!
# What `send` reports

Every packet that was built reaches the outbound container, the container's answer reaches
`request_exception_arr`, and the retransmission controller gets the accepted packets (`send_ok`).
`exception_arr` gets the errors of the construction only, so the report is true exactly if the
container refuses nothing (`send_truthful_iff`).
-/

namespace Mailbox.RetransmittableMailBoxController

open Cpp FlashStream Funnel DeliveryHandle

variable (world : World)

/-! ## The packets of a batch -/

def build (i : Nat) (arg : MailBoxArgument) : Except Failure RequestPacket :=
  match world.packetGen.get i arg with
  | .error e => .error e
  | .ok pkt =>
    match world.copyRequest i with
    | some e => .error e
    | none => .ok pkt

def built (dataArr : List MailBoxArgument) : List (Nat × RequestPacket) :=
  dataArr.zipIdx.filterMap fun (arg, i) =>
    match build world i arg with
    | .ok pkt => some (i, pkt)
    | .error _ => none

theorem built_append_singleton (dataArr : List MailBoxArgument) (arg : MailBoxArgument) :
    built world (dataArr ++ [arg]) = built world dataArr ++
      match build world dataArr.length arg with
      | .ok pkt => [(dataArr.length, pkt)]
      | .error _ => [] := by
  simp only [built, List.zipIdx_append, List.filterMap_append, List.zipIdx_singleton]
  cases h : build world dataArr.length arg with
  | ok pkt => simp [h]
  | error e => simp [h]

variable {sz : Nat} {dataArr : List MailBoxArgument} {arg : InternalOBArgument}

theorem mem_built_iff {i : Nat} {pkt : RequestPacket} :
    (i, pkt) ∈ built world dataArr ↔
      ∃ arg, dataArr[i]? = some arg ∧ build world i arg = .ok pkt := by
  simp only [built, List.mem_filterMap, Prod.exists, List.mk_mem_zipIdx_iff_getElem?]
  constructor
  · rintro ⟨arg, j, harg, h⟩
    cases hb : build world j arg with
    | error e => simp [hb] at h
    | ok p =>
      simp only [hb, Option.some.injEq, Prod.mk.injEq] at h
      obtain ⟨rfl, rfl⟩ := h
      exact ⟨arg, harg, hb⟩
  · rintro ⟨arg, harg, h⟩
    exact ⟨arg, i, harg, by simp [h]⟩

/-- The arguments that `send` delivers for these packets, from the `k`-th on. -/
def obArguments : Nat → List (Nat × RequestPacket) → List InternalOBArgument
  | _, [] => []
  | k, (_, pkt) :: rest => ⟨pkt, pkt, k⟩ :: obArguments (k + 1) rest

theorem obArguments_append (k : Nat) (b b' : List (Nat × RequestPacket)) :
    obArguments k (b ++ b') = obArguments k b ++ obArguments (k + b.length) b' := by
  induction b generalizing k with
  | nil => rfl
  | cons x b ih => simp [obArguments, ih, Nat.add_comm 1, Nat.add_assoc]

@[simp] theorem length_obArguments (k : Nat) (b : List (Nat × RequestPacket)) :
    (obArguments k b).length = b.length := by
  induction b generalizing k with
  | nil => rfl
  | cons x b ih => simp [obArguments, ih]

theorem map_obArguments (k : Nat) (b : List (Nat × RequestPacket)) :
    (obArguments k b).map (fun arg => virtualizeRequestPacket arg.arg) =
      b.map (virtualizeRequestPacket ·.2) := by
  induction b generalizing k with
  | nil => rfl
  | cons x b ih => simp [obArguments, ih]

/-- The copies of the packets that the container accepts, the first one being the `k`-th pushed. -/
def accepted : Nat → List InternalOBArgument → List Packet
  | _, [] => []
  | k, arg :: args =>
    if isFailed (world.obException k) then accepted (k + 1) args
    else virtualizeRequestPacket arg.cpyArg :: accepted (k + 1) args

theorem accepted_append (k : Nat) (xs ys : List InternalOBArgument) :
    accepted world k (xs ++ ys) = accepted world k xs ++ accepted world (k + xs.length) ys := by
  induction xs generalizing k with
  | nil => rfl
  | cons x xs ih =>
    rw [List.cons_append, accepted, accepted, ih, List.length_cons, Nat.add_right_comm,
      Nat.add_assoc]
    split <;> rfl

/-! ## The retransmission handle -/

theorem foldl_retransmissionPush (batches : List (List Packet)) (s : SendState) :
    batches.foldl retransmissionPush s = { s with retried := s.retried ++ batches.flatten } := by
  induction batches generalizing s with
  | nil => simp
  | cons batch batches ih => simp [ih, retransmissionPush]

def SendState.forRetry (s : SendState) : List Packet :=
  s.retried ++ s.retransmissionDeliverer.deliverableArr

structure Keeps (s s' : SendState) : Prop where
  exceptionArr : s'.exceptionArr = s.exceptionArr
  idxArr : s'.idxArr = s.idxArr
  offered : s'.offered = s.offered
  obDeliverer : s'.obDeliverer = s.obDeliverer
  room : s'.requestExceptionArr.length = s.requestExceptionArr.length

variable {s : SendState} {done : List MailBoxArgument}

theorem Keeps.trans {s' s'' : SendState} (h : Keeps s s') (h' : Keeps s' s'') : Keeps s s'' where
  exceptionArr := h'.exceptionArr.trans h.exceptionArr
  idxArr := h'.idxArr.trans h.idxArr
  offered := h'.offered.trans h.offered
  obDeliverer := h'.obDeliverer.trans h.obDeliverer
  room := h'.room.trans h.room

theorem retransmissionDeliver_ok (s : SendState) (pkt : Packet) :
    Keeps s (retransmissionDeliver s pkt) ∧
      (retransmissionDeliver s pkt).requestExceptionArr = s.requestExceptionArr ∧
      (retransmissionDeliver s pkt).forRetry = s.forRetry ++ [pkt] := by
  rw [retransmissionDeliver]
  dsimp only
  rw [foldl_retransmissionPush]
  refine ⟨⟨rfl, rfl, rfl, rfl, rfl⟩, rfl, ?_⟩
  simp only [SendState.forRetry]
  rw [List.append_assoc, deliver_flatten, List.append_assoc]

/-! ## The outbound handle -/

structure Answered (sent : List InternalOBArgument) (s : SendState) : Prop where
  retry : s.forRetry = accepted world 0 sent
  status : ∀ k < s.requestExceptionArr.length, s.requestExceptionArr[k]? =
    some (if k < sent.length then world.obException k else .success)

variable {world}

theorem Answered.obAnswer {sent : List InternalOBArgument} (h : Answered world sent s)
    (harg : arg.exceptionPtr = sent.length) :
    Keeps s (obAnswer s arg (world.obException sent.length)) ∧
      Answered world (sent ++ [arg]) (obAnswer s arg (world.obException sent.length)) := by
  have hstatus : ∀ k < s.requestExceptionArr.length, k ≠ sent.length →
      s.requestExceptionArr[k]? =
        some (if k < (sent ++ [arg]).length then world.obException k else .success) := by
    intro k hk hne
    rw [h.status k hk, List.length_append, List.length_singleton]
    congr 1
    exact if_congr (by omega) rfl rfl
  unfold RetransmittableMailBoxController.obAnswer
  by_cases hf : isFailed (world.obException sent.length)
  · rw [if_pos hf]
    refine ⟨⟨rfl, rfl, rfl, rfl, by simp⟩, ?_, ?_⟩
    · show s.forRetry = _
      rw [h.retry, accepted_append, Nat.zero_add, accepted, if_pos hf, accepted, List.append_nil]
    · intro k hk
      simp only [List.length_set] at hk
      by_cases hke : k = sent.length
      · rw [harg, hke, List.getElem?_set_self (by omega), List.length_append, if_pos (by simp)]
      · rw [harg, List.getElem?_set_ne (fun he => hke he.symm)]
        exact hstatus k hk hke
  · rw [if_neg hf]
    obtain ⟨hk, hreq, hr⟩ := retransmissionDeliver_ok s (virtualizeRequestPacket arg.cpyArg)
    refine ⟨hk, ?_, ?_⟩
    · rw [hr, h.retry, accepted_append, Nat.zero_add, accepted, if_neg hf, accepted]
    · intro k hk
      rw [hreq] at hk ⊢
      by_cases hke : k = sent.length
      · rw [h.status k hk, hke, if_neg (Nat.lt_irrefl _), List.length_append, if_pos (by simp),
          not_not.1 hf]
      · exact hstatus k hk hke

theorem Answered.obAnswers {batch : List InternalOBArgument} :
    ∀ {n i : Nat} {sent : List InternalOBArgument} {s : SendState},
      Answered world sent s → sent.length = n + i →
      (∀ (k : Nat) arg, batch[k]? = some arg → arg.exceptionPtr = n + i + k) →
      Keeps s (obAnswers (fun i => world.obException (n + i)) i s batch) ∧
        Answered world (sent ++ batch)
          (obAnswers (fun i => world.obException (n + i)) i s batch) := by
  induction batch with
  | nil =>
    intro n i sent s h hlen hidx
    exact ⟨⟨rfl, rfl, rfl, rfl, rfl⟩, by rw [List.append_nil]; exact h⟩
  | cons arg batch ih =>
    intro n i sent s h hlen hidx
    have harg : arg.exceptionPtr = sent.length := by rw [hlen]; exact hidx 0 arg rfl
    obtain ⟨hk, ha⟩ := h.obAnswer harg
    have hidx' : ∀ (k : Nat) a, batch[k]? = some a → a.exceptionPtr = n + (i + 1) + k := by
      intro k a ha
      rw [hidx (k + 1) a (by simpa using ha)]
      omega
    obtain ⟨hk', ha'⟩ := ih ha (n := n) (i := i + 1)
      (by rw [List.length_append, hlen]; rfl) hidx'
    rw [hlen] at hk ha' hk'
    rw [List.append_assoc] at ha'
    exact ⟨hk.trans hk', ha'⟩

/-- The state of `send` when the packets of `b` were built, those of `sent` pushed. -/
structure Sending (world : World) (b : List (Nat × RequestPacket)) (s : SendState)
    (sent : List InternalOBArgument) : Prop where
  args : sent ++ s.obDeliverer.deliverableArr = obArguments 0 b
  offered : s.offered = sent.map fun arg => virtualizeRequestPacket arg.arg
  answered : Answered world sent s
  idxArr : s.idxArr = b.map Prod.fst

theorem exceptionPtr_obArguments (b : List (Nat × RequestPacket)) {j k : Nat}
    (h : (obArguments j b)[k]? = some arg) :
    arg.exceptionPtr = j + k := by
  induction b generalizing j k with
  | nil => simp [obArguments] at h
  | cons x b ih =>
    cases k with
    | zero =>
      simp only [obArguments, List.getElem?_cons_zero, Option.some.injEq] at h
      rw [← h]
      rfl
    | succ k =>
      simp only [obArguments, List.getElem?_cons_succ] at h
      rw [ih h, Nat.add_right_comm, Nat.add_assoc]

theorem foldl_obPush {b : List (Nat × RequestPacket)} (batches : List (List InternalOBArgument)) :
    ∀ {s : SendState} {sent : List InternalOBArgument},
      sent ++ batches.flatten ++ s.obDeliverer.deliverableArr = obArguments 0 b →
      (s.offered = sent.map fun arg => virtualizeRequestPacket arg.arg) →
      Answered world sent s → s.idxArr = b.map Prod.fst →
      Sending world b (batches.foldl (obPush world) s) (sent ++ batches.flatten) ∧
        (batches.foldl (obPush world) s).exceptionArr = s.exceptionArr ∧
        (batches.foldl (obPush world) s).obDeliverer = s.obDeliverer ∧
        (batches.foldl (obPush world) s).requestExceptionArr.length =
          s.requestExceptionArr.length := by
  induction batches with
  | nil =>
    intro s sent hargs hoff ha hidx
    simp only [List.flatten_nil, List.append_nil] at hargs ⊢
    exact ⟨⟨hargs, hoff, ha, hidx⟩, rfl, rfl, rfl⟩
  | cons batch batches ih =>
    intro s sent hargs hoff ha hidx
    have hlen : s.offered.length = sent.length := by rw [hoff, List.length_map]
    have hptr : ∀ (k : Nat) arg, batch[k]? = some arg → arg.exceptionPtr = sent.length + 0 + k := by
      intro k arg hk
      have : (obArguments 0 b)[sent.length + k]? = some arg := by
        rw [← hargs, List.flatten_cons, List.append_assoc, List.append_assoc,
          List.getElem?_append_right (Nat.le_add_right _ _), Nat.add_sub_cancel_left,
          List.getElem?_append_left (List.getElem?_eq_some_iff.1 hk).1]
        exact hk
      rw [exceptionPtr_obArguments b this, Nat.zero_add, Nat.add_zero]
    obtain ⟨hk, ha'⟩ := Answered.obAnswers (n := sent.length) (i := 0)
      (s := { s with offered := s.offered ++ batch.map fun arg => virtualizeRequestPacket arg.arg })
      ⟨ha.retry, ha.status⟩ rfl hptr
    have e : obPush world s batch = obAnswers (fun i => world.obException (sent.length + i)) 0
        { s with offered := s.offered ++ batch.map fun arg => virtualizeRequestPacket arg.arg }
        batch := by
      rw [obPush, hlen]
    rw [List.foldl_cons, List.flatten_cons, ← List.append_assoc, e]
    obtain ⟨hs, hexc, hdel, hroom⟩ := ih (by rw [hk.obDeliverer]; simpa using hargs)
      (by rw [hk.offered, hoff, List.map_append]) ha' (hk.idxArr.trans hidx)
    exact ⟨hs, hexc.trans hk.exceptionArr, hdel.trans hk.obDeliverer, hroom.trans hk.room⟩

/-! ## The loop -/

def outcome (world : World) (i : Nat) (arg : MailBoxArgument) : ExceptionT :=
  match build world i arg with
  | .ok _ => .success
  | .error e => e

/-- The state of `send` after its rounds for `done`. -/
structure Sent (world : World) (sz : Nat) (done : List MailBoxArgument) (s : SendState) :
    Prop where
  sending : ∃ sent, Sending world (built world done) s sent
  room : s.requestExceptionArr.length = sz
  size : s.exceptionArr.length = sz
  status : ∀ i < sz, s.exceptionArr[i]? = some (match done[i]? with
    | some arg => outcome world i arg
    | none => .success)

theorem Sent.status_append (h : Sent world sz done s) (arg : MailBoxArgument) {arr : List ExceptionT}
    (harr : arr = s.exceptionArr.set done.length (outcome world done.length arg)) (i : Nat)
    (hi : i < sz) : arr[i]? = some (match (done ++ [arg])[i]? with
      | some arg => outcome world i arg
      | none => .success) := by
  have hsize := h.size
  rw [harr]
  by_cases hid : i = done.length
  · rw [hid, List.getElem?_set_self (by omega), List.getElem?_concat_length]
  · rw [List.getElem?_set_ne (fun he => hid he.symm), h.status i hi]
    by_cases hlt : i < done.length
    · rw [List.getElem?_append_left hlt]
    · rw [List.getElem?_eq_none (by omega : done.length ≤ i), List.getElem?_eq_none]
      simp only [List.length_append, List.length_singleton]
      omega

theorem Sent.sendRound (h : Sent world sz done s) (arg : MailBoxArgument) (hlt : done.length < sz) :
    Sent world sz (done ++ [arg]) (sendRound world s done.length arg) := by
  obtain ⟨sent, hs⟩ := h.sending
  have hfail : ∀ e : Failure, build world done.length arg = .error e →
      Sent world sz (done ++ [arg])
        { s with exceptionArr := s.exceptionArr.set done.length e } := by
    intro e he
    have hb : built world (done ++ [arg]) = built world done := by
      rw [built_append_singleton, he, List.append_nil]
    refine ⟨⟨sent, ?_⟩, h.room, by rw [List.length_set]; exact h.size,
      h.status_append arg (by rw [outcome, he])⟩
    rw [hb]
    exact ⟨hs.args, hs.offered, ⟨hs.answered.retry, hs.answered.status⟩, hs.idxArr⟩
  unfold RetransmittableMailBoxController.sendRound
  cases hg : world.packetGen.get done.length arg with
  | error e => exact hfail e (by rw [build, hg])
  | ok pkt =>
    cases hc : world.copyRequest done.length with
    | some e => exact hfail e (by simp only [build, hg, hc])
    | none =>
      have hok : build world done.length arg = .ok pkt := by simp only [build, hg, hc]
      have hb : built world (done ++ [arg]) = built world done ++ [(done.length, pkt)] := by
        rw [built_append_singleton, hok]
      have hptr : s.idxArr.length = (built world done).length := by rw [hs.idxArr, List.length_map]
      -- `exception_arr[i]` keeps the success it was filled with
      have hsame : s.exceptionArr =
          s.exceptionArr.set done.length (outcome world done.length arg) := by
        have : s.exceptionArr[done.length]? = some .success := by
          simpa using h.status done.length hlt
        obtain ⟨hi, he⟩ := List.getElem?_eq_some_iff.1 this
        simp only [outcome, hok]
        rw [← he, List.set_getElem_self]
      obtain ⟨hs', hexc, hdel, hroom⟩ := foldl_obPush
        (b := built world (done ++ [arg]))
        (s := { s with
          idxArr := s.idxArr ++ [done.length]
          obDeliverer := (s.obDeliverer.deliver ⟨pkt, pkt, s.idxArr.length⟩).1 })
        (s.obDeliverer.deliver ⟨pkt, pkt, s.idxArr.length⟩).2
        (by
          rw [List.append_assoc, deliver_flatten, ← List.append_assoc, hs.args, hb,
            obArguments_append, hptr, Nat.zero_add]
          rfl)
        hs.offered ⟨hs.answered.retry, hs.answered.status⟩
        (by rw [hb, List.map_append, hs.idxArr]; rfl)
      refine ⟨⟨_, hs'⟩, hroom.trans h.room, ?_, ?_⟩
      · exact (congrArg List.length hexc).trans h.size
      · exact h.status_append arg (hexc.trans hsame)

theorem Sent.sendLoop (args : List MailBoxArgument) :
    ∀ {done : List MailBoxArgument} {s : SendState}, Sent world sz done s →
      (done ++ args).length = sz →
      Sent world sz (done ++ args) (sendLoop world s done.length args) := by
  induction args with
  | nil =>
    intro done s h hsz
    rw [List.append_nil]
    exact h
  | cons arg args ih =>
    intro done s h hsz
    rw [List.length_append, List.length_cons] at hsz
    have := ih (h.sendRound arg (by omega)) (by simp; omega)
    rw [List.length_append, List.append_assoc] at this
    exact this

/-! ## The whole call -/

theorem Sent.closeHandles (h : Sent world sz done s) :
    (closeHandles world s).offered = (built world done).map (virtualizeRequestPacket ·.2) ∧
      (closeHandles world s).retried = accepted world 0 (obArguments 0 (built world done)) ∧
      (closeHandles world s).exceptionArr = s.exceptionArr ∧
      (closeHandles world s).requestExceptionArr.length = sz ∧
      ∀ k < sz, (closeHandles world s).requestExceptionArr[k]? = some
        (if k < (built world done).length then world.obException k else .success) := by
  obtain ⟨sent, hs⟩ := h.sending
  obtain ⟨hs', hexc, hdel, hroom⟩ := foldl_obPush (b := built world done)
    (s := { s with obDeliverer := s.obDeliverer.clear.1 }) s.obDeliverer.clear.2
    (by
      rw [clear_flatten]
      rw [clear_arr, List.append_nil, hs.args])
    hs.offered ⟨hs.answered.retry, hs.answered.status⟩ hs.idxArr
  have hall : sent ++ s.obDeliverer.clear.2.flatten = obArguments 0 (built world done) := by
    rw [clear_flatten, hs.args]
  rw [hall] at hs'
  unfold RetransmittableMailBoxController.closeHandles
  dsimp only
  rw [foldl_retransmissionPush]
  refine ⟨hs'.offered.trans (map_obArguments 0 _), ?_, hexc, hroom.trans h.room, ?_⟩
  · rw [clear_flatten]
    exact hs'.answered.retry
  · intro k hk
    have := hs'.answered.status k (by rw [hroom]; exact h.room ▸ hk)
    rw [length_obArguments] at this
    exact this

theorem openHandle_ok {E : Type} (cap sz : Nat) :
    DeliveryHandle.openHandle (E := E) (min (min cap sz) defaultAccumulationSize) =
      .ok ⟨[], min (min cap sz) defaultAccumulationSize⟩ := by
  rw [DeliveryHandle.openHandle, if_neg]
  have : min (min cap sz) defaultAccumulationSize ≤ 2 ^ 8 := Nat.min_le_right _ _
  exact Nat.not_lt.2 (this.trans (by decide))

/-- **What a call of `send` did**: it pushed every packet that was built, in order, gave the
accepted ones to the retransmission controller, and reported how the construction ended. -/
theorem send_ok (world : World) {debugMode : Bool} {inboundCapacity : Nat}
    (hsz : debugMode = true → dataArr.length ≤ inboundCapacity) :
    ∃ s, send world debugMode inboundCapacity dataArr = .ok s ∧
      s.offered = (built world dataArr).map (virtualizeRequestPacket ·.2) ∧
      s.retried = accepted world 0 (obArguments 0 (built world dataArr)) ∧
      (∀ k < (built world dataArr).length, s.requestExceptionArr[k]? = some (world.obException k)) ∧
      s.exceptionArr.length = dataArr.length ∧
      ∀ i arg, dataArr[i]? = some arg → s.exceptionArr[i]? = some (outcome world i arg) := by
  have hopen : ¬ (debugMode = true ∧ dataArr.length > inboundCapacity) := fun h =>
    Nat.not_lt.2 (hsz h.1) h.2
  have h0 : Sent world dataArr.length [] (⟨⟨[], min (min world.obMaxConsumeSize dataArr.length)
      defaultAccumulationSize⟩, ⟨[], min (min world.retransmissionMaxConsumeSize dataArr.length)
      defaultAccumulationSize⟩, List.replicate dataArr.length .success,
      List.replicate dataArr.length .success, [], [], []⟩ : SendState) := by
    refine ⟨⟨[], rfl, rfl, ⟨rfl, ?_⟩, rfl⟩, by simp, by simp, ?_⟩
    · intro k hk
      simp only [List.length_replicate] at hk
      simp [hk]
    · intro i hi
      simp [hi]
  have h1 := h0.sendLoop dataArr rfl
  rw [List.nil_append] at h1
  obtain ⟨hoff, hret, hexc, hroom, hstatus⟩ := h1.closeHandles
  refine ⟨_, by
    rw [send, if_neg hopen]
    dsimp only
    rw [openHandle_ok, openHandle_ok]
    rfl, hoff, hret, ?_, ?_, ?_⟩
  · intro k hk
    have hle : (built world dataArr).length ≤ dataArr.length := by
      have := List.length_filterMap_le (fun (x : MailBoxArgument × Nat) =>
        match build world x.2 x.1 with
        | .ok pkt => some (x.2, pkt)
        | .error _ => none) dataArr.zipIdx
      rw [List.length_zipIdx] at this
      exact this
    rw [hstatus k (hk.trans_le hle), if_pos hk]
  · rw [hexc]
    exact h1.size
  · intro i arg harg
    have := h1.status i (List.getElem?_eq_some_iff.1 harg).1
    rw [harg] at this
    rw [hexc]
    exact this

/-! ## The report -/

/-- `exception_arr` tells what became of every packet, and the retransmission controller has the
accepted ones. -/
structure Truthful (world : World) (dataArr : List MailBoxArgument) (s : SendState) : Prop where
  size : s.exceptionArr.length = dataArr.length
  success : ∀ i, s.exceptionArr[i]? = some .success ↔
    ∃ k pkt, (built world dataArr)[k]? = some (i, pkt) ∧ ¬ isFailed (world.obException k)
  refused : ∀ k i pkt, (built world dataArr)[k]? = some (i, pkt) →
    isFailed (world.obException k) → s.exceptionArr[i]? = some (world.obException k)
  retried : s.retried = accepted world 0 (obArguments 0 (built world dataArr))

/-- **The report of `send` is true iff the outbound container refuses none of the packets.** -/
theorem send_truthful_iff (world : World) (debugMode : Bool) (inboundCapacity : Nat)
    (dataArr : List MailBoxArgument)
    (hsz : debugMode = true → dataArr.length ≤ inboundCapacity) :
    ∃ s, send world debugMode inboundCapacity dataArr = .ok s ∧
      (Truthful world dataArr s ↔
        ∀ k < (built world dataArr).length, ¬ isFailed (world.obException k)) := by
  obtain ⟨s, e, hoff, hret, hreq, hsize, hstatus⟩ := send_ok world hsz
  refine ⟨s, e, ?_, ?_⟩
  · intro ht k hk hf
    obtain ⟨⟨i, pkt⟩, hk'⟩ : ∃ x, (built world dataArr)[k]? = some x :=
      ⟨_, List.getElem?_eq_getElem hk⟩
    obtain ⟨arg, harg, hok⟩ := (mem_built_iff world).1 (List.mem_of_getElem? hk')
    have h1 := ht.refused k i pkt hk' hf
    rw [hstatus i arg harg, outcome, hok] at h1
    exact hf (Option.some.inj h1).symm
  · intro hall
    refine ⟨hsize, fun i => ⟨fun h => ?_, ?_⟩, ?_, hret⟩
    · obtain ⟨hi, -⟩ := List.getElem?_eq_some_iff.1 h
      obtain ⟨arg, harg⟩ : ∃ arg, dataArr[i]? = some arg :=
        ⟨_, List.getElem?_eq_getElem (hsize ▸ hi)⟩
      rw [hstatus i arg harg] at h
      cases hb : build world i arg with
      | error e =>
        rw [outcome, hb] at h
        exact absurd (Option.some.inj h) e.2
      | ok pkt =>
        obtain ⟨k, hk, hget⟩ := List.mem_iff_getElem.1 ((mem_built_iff world).2 ⟨_, harg, hb⟩)
        exact ⟨k, pkt, by rw [List.getElem?_eq_getElem hk, hget], hall k hk⟩
    · rintro ⟨k, pkt, hk, -⟩
      obtain ⟨arg, harg, hok⟩ := (mem_built_iff world).1 (List.mem_of_getElem? hk)
      rw [hstatus i arg harg, outcome, hok]
    · intro k i pkt hk hf
      exact absurd hf (hall k (List.getElem?_eq_some_iff.1 hk).1)

/-- One message of one byte, for a container that has no vector left. -/
def exhausted : World where
  packetGen := ⟨fun _ => ⟨0, Vector.replicate 20 0⟩, fun _ => true, ⟨.v4 ⟨Vector.replicate 4 0⟩, 0⟩⟩
  copyRequest := fun _ => none
  obException := fun _ => .resourceExhaustion
  obMaxConsumeSize := 1
  retransmissionMaxConsumeSize := 1

def oneMessage : List MailBoxArgument := [⟨⟨.v4 ⟨Vector.replicate 4 0⟩, 0⟩, [7]⟩]

/-- The packet is refused, nobody retransmits it, and `exception_arr` says `SUCCESS`. -/
theorem send_reports_refused :
    ∃ s, send exhausted true 1 oneMessage = .ok s ∧ s.exceptionArr = [.success] ∧
      s.offered.length = 1 ∧ s.retried = [] ∧ ¬ Truthful exhausted oneMessage s := by
  refine ⟨_, rfl, by decide, by decide, by decide, fun h => ?_⟩
  obtain ⟨k, pkt, hk, hok⟩ := (h.success 0).1 (by decide)
  have : isFailed ExceptionT.resourceExhaustion := by decide
  exact hok this

/-- The same message, for a container that takes it. -/
theorem send_truthful_iff_one :
    ∃ s, send { exhausted with obException := fun _ => .success } true 1 oneMessage = .ok s ∧
      (Truthful { exhausted with obException := fun _ => .success } oneMessage s ↔
        ∀ k < (built { exhausted with obException := fun _ => .success } oneMessage).length,
          ¬ isFailed ExceptionT.success) :=
  send_truthful_iff _ true 1 oneMessage (by decide)

end Mailbox.RetransmittableMailBoxController
