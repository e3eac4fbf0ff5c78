import NeuralNetwork.Funnel.Proof.Funnel
import NeuralNetwork.InternalRest.RestFrame.Proof.TicketController
import NeuralNetwork.Lib.Regroup

/-!
# DistributedTicketController and its table

Every operation of `DistributedTicketController` but `open_ticket` does to the table of its tickets (`book`)
what one register does: the feeder only regroups the tickets by partition (`scatter_eq`). `open_ticket`
packs ids with `safe_unsigned_lshift`, which drops the id of the partition, so that only the base id 0
unpacks (`decode_encode_iff`).
-/

namespace RestFrame

open Cpp Mailbox Batch Loop Run Funnel Regroup Book

/-! ## Packed ids -/

section
variable {k : Nat} {id id' base : TicketId} {idx : Nat}

theorem decodeTicketId_eq (hk : k ≤ 30) (id : TicketId) :
    decodeTicketId (2 ^ k) id = (id >>> k, id.toNat % 2 ^ k) := by
  have h64 : k < 64 := by omega
  unfold decodeTicketId
  dsimp only
  rw [Stdx.countrZero_two_pow h64, BitVec.toNat_and, Stdx.toNat_lowonesBitgen h64,
    Nat.and_two_pow_sub_one_eq_mod]

theorem decodeTicketId_lt (hk : k ≤ 30) (id : TicketId) : (decodeTicketId (2 ^ k) id).2 < 2 ^ k := by
  rw [decodeTicketId_eq hk]
  exact Nat.mod_lt _ (Nat.two_pow_pos k)

theorem decodeTicketId_inj (hk : k ≤ 30) (h : decodeTicketId (2 ^ k) id = decodeTicketId (2 ^ k) id') :
    id = id' := by
  rw [decodeTicketId_eq hk, decodeTicketId_eq hk] at h
  obtain ⟨h1, h2⟩ := Prod.mk.inj h
  have h1 := congrArg BitVec.toNat h1
  rw [BitVec.toNat_ushiftRight, BitVec.toNat_ushiftRight, Nat.shiftRight_eq_div_pow,
    Nat.shiftRight_eq_div_pow] at h1
  apply BitVec.eq_of_toNat_eq
  rw [← Nat.div_add_mod id.toNat (2 ^ k), ← Nat.div_add_mod id'.toNat (2 ^ k), h1, h2]

theorem encodeTicketId_eq (base : TicketId) (idx : Nat) :
    encodeTicketId (2 ^ k) base idx = BitVec.ofNat 64 idx := by
  unfold encodeTicketId Stdx.safeUnsignedLshift
  simp

theorem decode_encode (hk : k ≤ 30) (hidx : idx < 2 ^ k) (base : TicketId) :
    decodeTicketId (2 ^ k) (encodeTicketId (2 ^ k) base idx) = (0, idx) := by
  have hpow : 2 ^ k ≤ 2 ^ 30 := Nat.pow_le_pow_right (by decide) hk
  have hnat : (BitVec.ofNat 64 idx).toNat = idx := by
    rw [BitVec.toNat_ofNat]
    exact Nat.mod_eq_of_lt (by omega)
  rw [encodeTicketId_eq, decodeTicketId_eq hk, hnat, Nat.mod_eq_of_lt hidx]
  refine Prod.ext (BitVec.eq_of_toNat_eq ?_) rfl
  rw [BitVec.toNat_ushiftRight, hnat, Nat.shiftRight_eq_div_pow, Nat.div_eq_of_lt hidx]
  rfl

/-- **Decoding an encoded id gives back its base id exactly if that is 0.** -/
theorem decode_encode_iff (hk : k ≤ 30) (hidx : idx < 2 ^ k) :
    decodeTicketId (2 ^ k) (encodeTicketId (2 ^ k) base idx) = (base, idx) ↔ base = 0 := by
  rw [decode_encode hk hidx]
  refine ⟨fun h => (Prod.mk.inj h).1.symm, fun h => by rw [h]⟩

end

/-! ## The table of the partitions -/

section
variable {O : Type} {k : Nat} {baseArr : List (TicketController O)}

/-- The table whose entry for an id is the one of its base id in its partition. -/
def partitionBook (pow2BaseArrSz : Nat) (baseArr : List (TicketController O)) : Book O := fun id =>
  baseArr[(decodeTicketId pow2BaseArrSz id).2]?.bind fun base =>
    base.book (decodeTicketId pow2BaseArrSz id).1

theorem partitionBook_set (hk : k ≤ 30) {id : TicketId} {base base' : TicketController O}
    {e : Option (Entry O)} (hb : baseArr[(decodeTicketId (2 ^ k) id).2]? = some base)
    (he : base'.book = Function.update base.book (decodeTicketId (2 ^ k) id).1 e) :
    partitionBook (2 ^ k) (baseArr.set (decodeTicketId (2 ^ k) id).2 base') =
      Function.update (partitionBook (2 ^ k) baseArr) id e := by
  have hi := (List.getElem?_eq_some_iff.1 hb).1
  funext id'
  by_cases hid : id' = id
  · subst hid
    rw [Function.update_self, partitionBook, List.getElem?_set_self hi, Option.bind_some, he,
      Function.update_self]
  · rw [Function.update_of_ne hid]
    unfold partitionBook
    by_cases hp : (decodeTicketId (2 ^ k) id').2 = (decodeTicketId (2 ^ k) id).2
    · rw [hp, List.getElem?_set_self hi, hb, Option.bind_some, Option.bind_some, he,
        Function.update_of_ne fun h => hid (decodeTicketId_inj hk (Prod.ext h hp))]
    · rw [List.getElem?_set_ne (Ne.symm hp)]

end

/-! ## Feeders -/

section
variable {O E X R : Type}

def partAct (act : TicketController O → E → Except Fault (TicketController O × R))
    (baseArr : List (TicketController O)) (event : Nat × E) :
    Except Fault (TicketController O × R) :=
  match baseArr[event.1]? with
  | none => .error .abort
  | some base => act base event.2

/-- One event of a feeder: `act` on its partition, and `put` on the caller's array. -/
def actAt (act : TicketController O → E → Except Fault (TicketController O × R)) (put : X → E → R → X)
    (s : List (TicketController O) × X) (event : Nat × E) :
    Except Fault (List (TicketController O) × X) := do
  let (base, r) ← partAct act s.1 event
  .ok (s.1.set event.1 base, put s.2 event.2 r)

/-- A resolutor handles the events of a batch one after the other. -/
def OneByOne (push : TicketController O → List E → X → Except Fault (TicketController O × X))
    (act : TicketController O → E → Except Fault (TicketController O × R)) (put : X → E → R → X) :
    Prop :=
  ∀ base events x, push base events x = events.foldlM (fun s event => do
    let (base, r) ← act s.1 event
    .ok (base, put s.2 event r)) (base, x)

variable {act : TicketController O → E → Except Fault (TicketController O × R)}
  {put : X → E → R → X}
  {push : TicketController O → List E → X → Except Fault (TicketController O × X)}

variable {s s' : List (TicketController O) × X} {baseArr : List (TicketController O)}
  {events : List (Nat × E)} {event : Nat × E}

theorem partAct_set {idx : Nat} (h : idx ≠ event.1) (base : TicketController O) :
    partAct act (baseArr.set idx base) event = partAct act baseArr event := by
  unfold partAct
  rw [List.getElem?_set_ne h]

theorem actAt_length (e : actAt act put s event = .ok s') : s'.1.length = s.1.length := by
  obtain ⟨⟨base, r⟩, -, e⟩ := bind_eq_ok e
  cases e
  exact List.length_set

theorem actAt_commute (hab : ∀ base event f, act base event = .error f → f = .abort)
    {x y : Nat × E} (hk : x.1 ≠ y.1)
    (hput : ∀ s r r', put (put s x.2 r) y.2 r' = put (put s y.2 r') x.2 r) :
    Commute (actAt act put) x y := by
  intro s
  have hpart : ∀ z f, partAct act s.1 z = .error f → f = .abort := by
    intro z f hz
    unfold partAct at hz
    split at hz
    · exact (Except.error.inj hz).symm
    · exact hab _ _ f hz
  unfold actAt
  cases hx : partAct act s.1 x with
  | error f =>
    cases hy : partAct act s.1 y with
    | error f' =>
      rw [hpart x f hx, hpart y f' hy]
      rfl
    | ok q => simp [partAct_set (Ne.symm hk), hx]
  | ok p =>
    cases hy : partAct act s.1 y with
    | error f' => simp [partAct_set hk, hy]
    | ok q => simp [partAct_set hk, partAct_set (Ne.symm hk), hx, hy, hput, List.set_comm _ _ hk]

theorem foldlM_actAt_length (e : events.foldlM (actAt act put) s = .ok s') :
    s'.1.length = s.1.length := by
  induction events generalizing s with
  | nil =>
    cases e
    rfl
  | cons event events ih =>
    rw [List.foldlM_cons] at e
    obtain ⟨s1, e1, e2⟩ := bind_eq_ok e
    exact (ih e2).trans (actAt_length e1)

theorem pushAt_eq (hp : OneByOne push act put) {s : List (TicketController O) × X}
    {group : Group Nat E} (hi : group.1 < s.1.length) :
    pushAt push s group = (group.2.map (group.1, ·)).foldlM (actAt act put) s := by
  obtain ⟨idx, events⟩ := group
  obtain ⟨baseArr, x⟩ := s
  unfold pushAt
  rw [List.getElem?_eq_getElem hi]
  simp only
  rw [hp]
  induction events generalizing baseArr x with
  | nil =>
    simp only [List.foldlM_nil, List.map_nil]
    exact congrArg (fun l => Except.ok (l, x)) (List.set_getElem_self hi)
  | cons event events ih =>
    rw [List.map_cons, List.foldlM_cons, List.foldlM_cons, actAt, partAct,
      List.getElem?_eq_getElem hi]
    simp only
    cases act baseArr[idx] event with
    | error f => rfl
    | ok r =>
      have hi' : idx < (baseArr.set idx r.1).length := by rwa [List.length_set]
      simp only [ok_bind]
      rw [← ih _ _ hi']
      simp

/-- **A feeder handles its events one after the other.** -/
theorem scatter_eq (layout : EventLayout) (head : Nat) {feedCap : Nat}
    (hcap : feedCap ≤ maxDeliverableCap) (hp : OneByOne push act put)
    (hab : ∀ base event f, act base event = .error f → f = .abort) {x : X}
    (hput : ∀ y ∈ events, ∀ z ∈ events, y.1 ≠ z.1 → ∀ s r r',
      put (put s y.2 r) z.2 r' = put (put s z.2 r') y.2 r)
    (hkeys : ∀ event ∈ events, event.1 < baseArr.length) :
    scatter layout head feedCap push baseArr x events =
      events.foldlM (actAt act put) (baseArr, x) := by
  obtain ⟨groups, e, hperm, hflat, -⟩ := kvScope_ok layout head hcap events
  have hgroups : ∀ (groups : List (Group Nat E)) (s : List (TicketController O) × X),
      (∀ group ∈ groups, group.1 < s.1.length) →
      groups.foldlM (pushAt push) s = (pairs groups).foldlM (actAt act put) s := by
    intro groups
    induction groups with
    | nil => exact fun s _ => rfl
    | cons group groups ih =>
      intro s hs
      rw [List.foldlM_cons, pairs_cons, List.foldlM_append, pushAt_eq hp (hs group List.mem_cons_self)]
      cases e : (group.2.map (group.1, ·)).foldlM (actAt act put) s with
      | error f => rfl
      | ok s1 =>
        exact ih s1 fun g hg => foldlM_actAt_length e ▸ hs g (List.mem_cons_of_mem _ hg)
  unfold scatter
  rw [e, ok_bind, hgroups groups (baseArr, x) fun group hg => ?_]
  · exact (foldlM_congr_of_ofKey (fun key => (hflat key).symm) (fun y hy z hz hne =>
      actAt_commute hab hne (hput z (hperm.mem_iff.1 hz) y hy hne)) (baseArr, x)).symm
  · obtain ⟨event, hevent, hkey⟩ := List.mem_map.1 (kvScope_keys e group hg)
    exact hkey ▸ hkeys event hevent

end

/-! ## Observers -/

section
variable {O E A R : Type} {k : Nat} {one : TicketController O → TicketId × A → TicketController O × R}
  {f : Option (Entry O) → A → Option (Entry O) × R}
  {act : TicketController O → E → Except Fault (TicketController O × R)}
  {arg : (TicketId × A) × Nat → E} {place : E → Nat} {P : TicketController O → Prop}

/-- What the feeder's events are made of: `one` is `f` on the entry of a partition and keeps `P`, and
`act` is `one` on the base id of the element that the event was made from. -/
structure Feeds (k : Nat) (one : TicketController O → TicketId × A → TicketController O × R)
    (f : Option (Entry O) → A → Option (Entry O) × R)
    (act : TicketController O → E → Except Fault (TicketController O × R))
    (arg : (TicketId × A) × Nat → E) (place : E → Nat) (P : TicketController O → Prop) : Prop where
  book : ∀ base x, atKey f base.book x = ((one base x).1.book, (one base x).2)
  act_arg : ∀ base x, act base (arg x) = .ok (one base ((decodeTicketId (2 ^ k) x.1.1).1, x.1.2))
  place_arg : ∀ x, place (arg x) = x.2
  keeps : ∀ base x, P base → P (one base x).1

variable {baseArr : List (TicketController O)}

variable (h : Feeds k one f act arg place P)

include h

theorem Feeds.actAt (hk : k ≤ 30) (hlen : baseArr.length = 2 ^ k)
    (hbase : ∀ base ∈ baseArr, P base) (out : List R) (x : TicketId × A) (i : Nat) :
    ∃ baseArr' r, actAt act (fun out a r => out.set (place a) r) (baseArr, out)
        ((decodeTicketId (2 ^ k) x.1).2, arg (x, i)) = .ok (baseArr', out.set i r) ∧
      atKey f (partitionBook (2 ^ k) baseArr) x = (partitionBook (2 ^ k) baseArr', r) ∧
      baseArr'.length = 2 ^ k ∧ ∀ base ∈ baseArr', P base := by
  have hi : (decodeTicketId (2 ^ k) x.1).2 < baseArr.length := hlen ▸ decodeTicketId_lt hk x.1
  obtain ⟨base, hb⟩ : ∃ base, baseArr[(decodeTicketId (2 ^ k) x.1).2]? = some base :=
    ⟨_, List.getElem?_eq_getElem hi⟩
  have hP := h.keeps base ((decodeTicketId (2 ^ k) x.1).1, x.2) (hbase base (List.mem_of_getElem? hb))
  obtain ⟨he, hr⟩ := Prod.mk.inj (h.book base ((decodeTicketId (2 ^ k) x.1).1, x.2))
  have hact := h.act_arg base (x, i)
  generalize one base ((decodeTicketId (2 ^ k) x.1).1, x.2) = r at hP he hr hact
  refine ⟨baseArr.set (decodeTicketId (2 ^ k) x.1).2 r.1, r.2, ?_, ?_, ?_, fun base' hm => ?_⟩
  · unfold RestFrame.actAt partAct
    simp only [hb, hact, ok_bind, h.place_arg]
  · have hentry : partitionBook (2 ^ k) baseArr x.1 = base.book (decodeTicketId (2 ^ k) x.1).1 := by
      rw [partitionBook, hb, Option.bind_some]
    rw [partitionBook_set hk hb he.symm, ← hr, atKey, hentry]
  · rw [List.length_set, hlen]
  · rcases List.mem_or_eq_of_mem_set hm with hm | rfl
    · exact hbase base' hm
    · exact hP

/-- The events of a call do to the table what the operation does to its elements, and fill the
caller's array with the results. -/
theorem Feeds.foldlM (hk : k ≤ 30) (hlen : baseArr.length = 2 ^ k)
    (hbase : ∀ base ∈ baseArr, P base) (xs : List (TicketId × A)) (done rest : List R)
    (hrest : rest.length = xs.length) :
    ∃ baseArr', ((xs.zipIdx done.length).map fun x => ((decodeTicketId (2 ^ k) x.1.1).2, arg x)).foldlM
        (RestFrame.actAt act fun out a r => out.set (place a) r) (baseArr, done ++ rest) =
          .ok (baseArr', done ++ (batch (atKey f) (partitionBook (2 ^ k) baseArr) xs).2) ∧
      partitionBook (2 ^ k) baseArr' = (batch (atKey f) (partitionBook (2 ^ k) baseArr) xs).1 ∧
      baseArr'.length = 2 ^ k ∧ ∀ base ∈ baseArr', P base := by
  induction xs generalizing baseArr done rest with
  | nil =>
    obtain rfl := List.length_eq_zero_iff.1 hrest
    exact ⟨baseArr, rfl, rfl, hlen, hbase⟩
  | cons x xs ih =>
    cases rest with
    | nil => cases hrest
    | cons old rest =>
      obtain ⟨baseArr1, r, e1, hat, hlen1, hbase1⟩ :=
        h.actAt hk hlen hbase (done ++ old :: rest) x done.length
      obtain ⟨baseArr2, e2, hbook, hlen2, hbase2⟩ :=
        ih hlen1 hbase1 (done ++ [r]) rest (Nat.succ.inj hrest)
      have hset : (done ++ old :: rest).set done.length r = (done ++ [r]) ++ rest := by simp
      rw [List.length_append, List.length_singleton] at e2
      refine ⟨baseArr2, ?_, ?_, hlen2, hbase2⟩
      · rw [List.zipIdx_cons, List.map_cons, List.foldlM_cons, e1, ok_bind, hset, e2, batch_cons, hat,
          List.append_assoc]
        rfl
      · rw [hbook, batch_cons, hat]

theorem Feeds.place_ne {xs : List (TicketId × A)}
    {y z : Nat × E}
    (hy : y ∈ xs.zipIdx.map fun x => ((decodeTicketId (2 ^ k) x.1.1).2, arg x))
    (hz : z ∈ xs.zipIdx.map fun x => ((decodeTicketId (2 ^ k) x.1.1).2, arg x)) (hne : y.1 ≠ z.1) :
    place y.2 ≠ place z.2 := by
  obtain ⟨⟨x, i⟩, hx, rfl⟩ := List.mem_map.1 hy
  obtain ⟨⟨x', i'⟩, hx', rfl⟩ := List.mem_map.1 hz
  intro he
  rw [h.place_arg, h.place_arg] at he
  subst he
  rw [List.mem_zipIdx_iff_getElem?] at hx hx'
  obtain rfl : x = x' := Option.some.inj (hx.symm.trans hx')
  exact hne rfl

/-- **A feeder does to the table what the operation does.** -/
theorem Feeds.scatter (hk : k ≤ 30) (layout : EventLayout)
    (head : Nat) {feedCap : Nat} (hcap : feedCap ≤ maxDeliverableCap)
    {push : TicketController O → List E → List R → Except Fault (TicketController O × List R)}
    (hp : OneByOne push act fun out a r => out.set (place a) r)
    (hab : ∀ base event f, act base event = .error f → f = .abort) (hlen : baseArr.length = 2 ^ k)
    (hbase : ∀ base ∈ baseArr, P base) (xs : List (TicketId × A)) (out : List R)
    (hout : out.length = xs.length) :
    ∃ baseArr', scatter layout head feedCap push baseArr out
        (xs.zipIdx.map fun x => ((decodeTicketId (2 ^ k) x.1.1).2, arg x)) =
          .ok (baseArr', (batch (atKey f) (partitionBook (2 ^ k) baseArr) xs).2) ∧
      partitionBook (2 ^ k) baseArr' = (batch (atKey f) (partitionBook (2 ^ k) baseArr) xs).1 ∧
      baseArr'.length = 2 ^ k ∧ ∀ base ∈ baseArr', P base := by
  obtain ⟨baseArr', e, hr⟩ := h.foldlM hk hlen hbase xs [] out hout
  refine ⟨baseArr', ?_, hr⟩
  rw [scatter_eq layout head hcap hp hab]
  · exact e
  · intro y hy z hz hne s r r'
    exact List.set_comm _ _ (h.place_ne hy hz hne)
  · intro event hevent
    obtain ⟨x, -, rfl⟩ := List.mem_map.1 hevent
    exact hlen ▸ decodeTicketId_lt hk x.1.1

end

/-- A partition that takes calls of `m` tickets, and whose only ticket is the one with the base id 0,
which it has opened. -/
def TicketController.Single {O : Type} (m : Nat) (c : TicketController O) : Prop :=
  c.maxConsumePerLoad = m ∧ ∀ id ∈ c.ticketResourceMap, id = 0 ∧ c.ticketIdCounter ≠ 0

theorem TicketController.Single.within {O : Type} {m : Nat} {c c' : TicketController O}
    (h : c.Single m) (hw : c'.Within c) : c'.Single m := by
  obtain ⟨h1, h2, h3⟩ := hw
  refine ⟨h2.trans h.1, fun id hid => ?_⟩
  rw [h1]
  exact h.2 id (h3 id hid)

namespace DistributedTicketController

variable {O : Type} (layout : EventLayout) (head : Nat) {k : Nat} {debug : Bool}
  {d d' : DistributedTicketController O}

def book (d : DistributedTicketController O) : Book O := partitionBook d.pow2BaseArrSz d.baseArr

/-- A controller with `2 ^ k` partitions that have opened no ticket but their first one. -/
structure Laid (k : Nat) (d : DistributedTicketController O) : Prop where
  k_le : k ≤ 30
  pow2_eq : d.pow2BaseArrSz = 2 ^ k
  length_eq : d.baseArr.length = 2 ^ k
  feedCap_le : d.keyvalueFeedCap ≤ maxDeliverableCap
  minimum_pos : 0 < d.minimumDiscretizationSz
  minimum_le : d.minimumDiscretizationSz ≤ d.maximumDiscretizationSz
  single : ∀ base ∈ d.baseArr, base.Single d.maximumDiscretizationSz

theorem Laid.book_eq (h : d.Laid k) : d.book = partitionBook (2 ^ k) d.baseArr := by
  rw [book, h.pow2_eq]

theorem Laid.setBases (h : d.Laid k) {baseArr : List (TicketController O)}
    (hlen : baseArr.length = 2 ^ k)
    (hsingle : ∀ base ∈ baseArr, base.Single d.maximumDiscretizationSz) :
    Laid k { d with baseArr } :=
  ⟨h.k_le, h.pow2_eq, hlen, h.feedCap_le, h.minimum_pos, h.minimum_le, hsingle⟩

theorem Laid.split_eq (h : d.Laid k) {A : Type} (xs : List (TicketId × A)) :
    d.split xs = (xs.zipIdx, []) := by
  have hall : ∀ x ∈ xs.zipIdx, (decodeTicketId d.pow2BaseArrSz x.1.1).2 < d.pow2BaseArrSz := by
    intro x _
    rw [h.pow2_eq]
    exact decodeTicketId_lt h.k_le x.1.1
  unfold split
  rw [List.partition_eq_filter_filter]
  refine Prod.ext (List.filter_eq_self.2 fun x hx => by simpa using hall x hx)
    (List.filter_eq_nil_iff.2 fun x hx => by simpa using hall x hx)

theorem Laid.feed_le (h : d.Laid k) (n : Nat) : min d.keyvalueFeedCap n ≤ maxDeliverableCap :=
  (Nat.min_le_left _ _).trans h.feedCap_le

/-- **assign_observer** is that of one register, but for the observers it gives back. -/
theorem assignObserver_ok (h : d.Laid k) (xs : List (TicketId × Option O))
    (exceptionArr : List (Except ExceptionT Bool)) (hl : exceptionArr.length = xs.length) :
    ∃ d', d.assignObserver layout head xs exceptionArr =
        .ok (d', (d.book.assignObserver xs).2.map giveBack) ∧
      d'.book = (d.book.assignObserver xs).1 ∧ d'.Laid k := by
  have hf : Feeds (R := Option O × Except ExceptionT Bool) k
      (fun base x => ((base.assignOne x).1, giveBack (base.assignOne x).2))
      (fun e observer => ((assignEntry e observer).1, giveBack (assignEntry e observer).2))
      (fun base a => .ok ((base.assignOne (a.baseTicketId, a.observer)).1,
        giveBack (base.assignOne (a.baseTicketId, a.observer)).2))
      (fun x => ⟨(decodeTicketId (2 ^ k) x.1.1).1, x.1.2, x.2⟩)
      InternalAssignObserverFeedArgument.place
      (TicketController.Single d.maximumDiscretizationSz) := by
    refine ⟨fun base x => ?_, fun base x => rfl, fun x => rfl, fun base x hb => ?_⟩
    · have := base.assignOne_book x
      obtain ⟨h1, h2⟩ := Prod.mk.inj this
      exact Prod.ext h1 (congrArg giveBack h2)
    · exact hb.within (base.assignOne_within x)
  have hp : OneByOne assignPush (fun base (a : InternalAssignObserverFeedArgument O) =>
      .ok ((base.assignOne (a.baseTicketId, a.observer)).1,
        giveBack (base.assignOne (a.baseTicketId, a.observer)).2))
      (fun out a r => out.set a.place r) := by
    intro base events out
    induction events generalizing base out with
    | nil => rfl
    | cons a events ih =>
      rw [List.foldlM_cons, ok_bind, ok_bind, ← ih]
      rfl
  have hout : ((xs.map Prod.snd).zip exceptionArr).length = xs.length := by
    rw [List.length_zip, List.length_map, hl, Nat.min_self]
  obtain ⟨baseArr', e, hbook, hlen, hsingle⟩ := hf.scatter h.k_le layout head
    (h.feed_le xs.length) hp (fun base a f e => by cases e) h.length_eq h.single xs
    ((xs.map Prod.snd).zip exceptionArr) hout
  have hbatch : batch (atKey fun e observer => ((assignEntry e observer).1,
      giveBack (assignEntry e observer).2)) d.book xs =
        ((d.book.assignObserver xs).1, (d.book.assignObserver xs).2.map giveBack) :=
    batch_mapResult (atKey (assignEntry (O := O))) giveBack d.book xs
  rw [← h.book_eq, hbatch] at e hbook
  refine ⟨{ d with baseArr := baseArr' }, ?_, ?_, h.setBases hlen hsingle⟩
  · unfold assignObserver
    rw [h.split_eq, h.pow2_eq]
    exact (congrArg (· >>= _) e).trans rfl
  · rw [book, h.pow2_eq]
    exact hbook

theorem stealObserver_ok (h : d.Laid k) (ids : List TicketId)
    (outObserverArr : List (Except ExceptionT O)) (hl : outObserverArr.length = ids.length) :
    ∃ d', d.stealObserver layout head ids outObserverArr = .ok (d', (d.book.stealObserver ids).2) ∧
      d'.book = (d.book.stealObserver ids).1 ∧ d'.Laid k := by
  have hf : Feeds (A := Unit) k (fun base x => base.stealOne x.1) (stealEntry (O := O))
      (fun base a => .ok (base.stealOne a.baseTicketId))
      (fun x => ⟨(decodeTicketId (2 ^ k) x.1.1).1, x.2⟩)
      InternalStealObserverFeedArgument.place
      (TicketController.Single d.maximumDiscretizationSz) :=
    ⟨fun base x => base.stealOne_book x.1, fun base x => rfl, fun x => rfl,
      fun base x hb => hb.within (base.stealOne_within x.1)⟩
  have hp : OneByOne stealPush (fun base (a : InternalStealObserverFeedArgument) =>
      .ok (base.stealOne a.baseTicketId)) (fun (out : List (Except ExceptionT O)) a r =>
        out.set a.place r) := by
    intro base events out
    induction events generalizing base out with
    | nil => rfl
    | cons a events ih =>
      rw [List.foldlM_cons, ok_bind, ok_bind, ← ih]
      rfl
  obtain ⟨baseArr', e, hbook, hlen, hsingle⟩ := hf.scatter h.k_le layout head
    (h.feed_le ids.length) hp (fun base a f e => by cases e) h.length_eq h.single
    (ids.map fun id => (id, ())) outObserverArr (by rw [List.length_map, hl])
  have hbatch : batch (atKey (stealEntry (O := O))) d.book (ids.map fun id => (id, ())) =
      d.book.stealObserver ids := batch_map _ _ d.book ids
  rw [← h.book_eq, hbatch] at e hbook
  refine ⟨{ d with baseArr := baseArr' }, ?_, ?_, h.setBases hlen hsingle⟩
  · unfold stealObserver
    rw [h.split_eq, h.pow2_eq]
    exact (congrArg (· >>= _) e).trans rfl
  · rw [book, h.pow2_eq]
    exact hbook

/-! ## Closing -/

def closeAct (debug : Bool) (base : TicketController O) (id : TicketId) :
    Except Fault (TicketController O × Unit) := do
  let base ← base.closeOne debug id
  .ok (base, ())

variable {base : TicketController O} {clue : Nat → BitVec 64} {rs : List TicketId}

theorem closeAct_error {id : TicketId} {f : Fault} (e : closeAct debug base id = .error f) :
    f = .abort := by
  unfold closeAct TicketController.closeOne at e
  split at e
  · cases e
    rfl
  · cases e

theorem closePush_oneByOne :
    OneByOne (closePush (O := O) debug) (closeAct debug) fun x _ _ => x := by
  intro base ids x
  unfold closePush TicketController.closeTicket
  induction ids generalizing base with
  | nil => rfl
  | cons id ids ih =>
    rw [List.foldlM_cons, List.foldlM_cons, closeAct]
    cases base.closeOne debug id with
    | error f => rfl
    | ok base' => exact ih base'

theorem actAt_close (hk : k ≤ 30) {s : List (TicketController O) × Unit} (hlen : s.1.length = 2 ^ k)
    (id : TicketId) :
    (actAt (closeAct debug) (fun x _ _ => x) s (decodeTicketId (2 ^ k) id).swap).map
      (fun s => partitionBook (2 ^ k) s.1) =
        Book.closeOne debug (partitionBook (2 ^ k) s.1) id := by
  have hi : (decodeTicketId (2 ^ k) id).2 < s.1.length := hlen ▸ decodeTicketId_lt hk id
  obtain ⟨base, hb⟩ : ∃ base, s.1[(decodeTicketId (2 ^ k) id).2]? = some base :=
    ⟨_, List.getElem?_eq_getElem hi⟩
  have hentry : partitionBook (2 ^ k) s.1 id = base.book (decodeTicketId (2 ^ k) id).1 := by
    rw [partitionBook, hb, Option.bind_some]
  have hone := base.closeOne_book debug (decodeTicketId (2 ^ k) id).1
  unfold actAt partAct closeAct
  simp only [Prod.fst_swap, Prod.snd_swap, hb]
  rw [Book.closeOne, hentry]
  rw [Book.closeOne] at hone
  cases e : base.closeOne debug (decodeTicketId (2 ^ k) id).1 with
  | error f =>
    rw [e] at hone
    split at hone
    · next hd =>
      cases hone
      rw [if_pos hd]
      rfl
    · cases hone
  | ok base' =>
    rw [e] at hone
    split at hone
    · cases hone
    · next hd =>
      rw [if_neg hd, ← partitionBook_set hk hb (Except.ok.inj hone)]
      rfl

theorem actAt_close_single {m : Nat} {s s' : List (TicketController O) × Unit}
    {event : Nat × TicketId} (hs : ∀ base ∈ s.1, base.Single m)
    (e : actAt (closeAct debug) (fun x _ _ => x) s event = .ok s') :
    ∀ base ∈ s'.1, base.Single m := by
  obtain ⟨⟨base', u⟩, e1, e2⟩ := bind_eq_ok e
  cases e2
  intro base hm
  rcases List.mem_or_eq_of_mem_set hm with hm | rfl
  · exact hs base hm
  · unfold partAct at e1
    split at e1
    · cases e1
    · next old hold =>
      obtain ⟨base1, e3, e4⟩ := bind_eq_ok e1
      cases e4
      exact (hs old (List.mem_of_getElem? hold)).within (TicketController.closeOne_within e3)

theorem closeTicket_eq (h : d.Laid k) (ids : List TicketId) :
    d.closeTicket layout head debug ids =
      (ids.foldlM (fun s id => actAt (closeAct debug) (fun x _ _ => x) s
        (decodeTicketId (2 ^ k) id).swap) (d.baseArr, ())).map fun s => { d with baseArr := s.1 } := by
  have hany : ((ids.map (decodeTicketId d.pow2BaseArrSz)).any (·.2 ≥ d.pow2BaseArrSz)) = false := by
    rw [List.any_eq_false]
    intro x hx
    obtain ⟨id, -, rfl⟩ := List.mem_map.1 hx
    have := decodeTicketId_lt h.k_le id
    rw [h.pow2_eq]
    simpa using this
  have hscatter : scatter layout head (min d.keyvalueFeedCap ids.length) (closePush debug) d.baseArr ()
      ((ids.map (decodeTicketId (2 ^ k))).map Prod.swap) =
        ((ids.map (decodeTicketId (2 ^ k))).map Prod.swap).foldlM
          (actAt (closeAct debug) fun x _ _ => x) (d.baseArr, ()) :=
    scatter_eq layout head (h.feed_le ids.length) closePush_oneByOne (fun _ _ _ => closeAct_error)
      (fun _ _ _ _ _ _ _ _ => rfl) fun event hevent => by
      obtain ⟨x, hx, rfl⟩ := List.mem_map.1 hevent
      obtain ⟨id, -, rfl⟩ := List.mem_map.1 hx
      exact h.length_eq ▸ decodeTicketId_lt h.k_le id
  unfold closeTicket
  simp only [hany, Bool.false_eq_true, and_false, if_false]
  rw [h.pow2_eq, hscatter, List.map_map, List.foldlM_map]
  simp only [Function.comp_apply]
  cases ids.foldlM (fun s id => actAt (closeAct debug) (fun x _ _ => x) s
    (decodeTicketId (2 ^ k) id).swap) (d.baseArr, ()) with
  | error f => rfl
  | ok s =>
    rw [← h.pow2_eq]
    rfl

variable (debug) in
theorem closeTicket_book (h : d.Laid k) (ids : List TicketId) :
    (d.closeTicket layout head debug ids).map book = ids.foldlM (Book.closeOne debug) d.book ∧
      ∀ d', d.closeTicket layout head debug ids = .ok d' → d'.Laid k := by
  obtain ⟨hview, hinv⟩ := foldlM_view (S := List (TicketController O) × Unit)
    (fun s => s.1.length = 2 ^ k ∧ ∀ base ∈ s.1, base.Single d.maximumDiscretizationSz)
    (fun s => partitionBook (2 ^ k) s.1) (g := Book.closeOne debug)
    (f := fun s id => actAt (closeAct debug) (fun x _ _ => x) s (decodeTicketId (2 ^ k) id).swap)
    (fun s id hs => ⟨actAt_close h.k_le hs.1 id, fun s' e =>
      ⟨(actAt_length e).trans hs.1, actAt_close_single hs.2 e⟩⟩)
    (s := (d.baseArr, ())) ⟨h.length_eq, h.single⟩ ids
  rw [closeTicket_eq layout head h, h.book_eq, ← hview]
  cases e : ids.foldlM (fun s id => actAt (closeAct debug) (fun x _ _ => x) s
    (decodeTicketId (2 ^ k) id).swap) (d.baseArr, ()) with
  | error f => exact ⟨rfl, fun d' e' => by cases e'⟩
  | ok s =>
    obtain ⟨hlen, hsingle⟩ := hinv s e
    refine ⟨?_, fun d' e' => ?_⟩
    · rw [← h.pow2_eq]
      rfl
    · cases e'
      exact h.setBases hlen hsingle

/-! ## Opening -/

theorem single_counted {m : Nat} (h : base.Single m) (h0 : base.ticketIdCounter = 0) :
    base.Counted 0 := by
  refine ⟨by rw [h0]; rfl, fun id hid => absurd h0 (h.2 id hid).2⟩

variable (debug) in
theorem openTicket_piece {m sz : Nat} (hs : base.Single m) (hsz : sz ≤ m)
    (hz : base.ticketResourceMap.entries.length + sz ≤ base.ticketResourceMapCap →
      sz = 1 ∧ base.ticketIdCounter = 0) :
    base.openTicket debug sz = .ok (base, .error .resourceExhaustion) ∨
      (base.ticketResourceMap.entries.length + sz ≤ base.ticketResourceMapCap ∧ sz = 1 ∧
        base.book 0 = none ∧ ∃ base', base.openTicket debug sz = .ok (base', .ok [0]) ∧
          base'.Single m ∧ base'.book = Function.update base.book 0 (some none)) := by
  have hmax : ¬ (debug ∧ sz > base.maxConsumePerLoad) := fun h => by
    rw [hs.1] at h
    exact Nat.not_lt.2 hsz h.2
  unfold TicketController.openTicket
  rw [if_neg hmax]
  by_cases hcap : base.ticketResourceMap.entries.length + sz ≤ base.ticketResourceMapCap
  · obtain ⟨rfl, h0⟩ := hz hcap
    have hc := single_counted hs h0
    obtain ⟨base', ids, e, hc', hb, hl, -, hr, -, hm⟩ :=
      TicketController.openLoop_ok debug hc (by decide : 0 + 1 < 2 ^ 64)
    obtain ⟨id, rfl⟩ := List.length_eq_one_iff.1 hl
    obtain rfl : id = 0 := BitVec.eq_of_toNat_eq (Nat.lt_one_iff.1 (hr id List.mem_cons_self).2)
    refine .inr ⟨hcap, rfl, TicketController.book_eq_none.2 fun hm => (hs.2 0 hm).2 h0, base', ?_, ?_, ?_⟩
    · rw [if_neg (Nat.not_lt.2 hcap), e]
      rfl
    · refine ⟨hm.trans hs.1, fun id hid => ⟨?_, fun h => ?_⟩⟩
      · exact BitVec.eq_of_toNat_eq (Nat.lt_one_iff.1 (hc'.2 id hid))
      · have := hc'.1
        rw [h] at this
        cases this
    · rw [hb, openTickets_cons, openTickets_nil]
  · rw [if_pos (Nat.not_le.1 hcap)]
    exact .inl rfl

theorem Laid.openPiece (h : d.Laid k) {idx : Nat} {base base' : TicketController O}
    (hb : d.baseArr[idx]? = some base) (hnone : base.book 0 = none)
    (hs : base'.Single d.maximumDiscretizationSz)
    (hb' : base'.book = Function.update base.book 0 (some none)) :
    Laid k { d with baseArr := d.baseArr.set idx base' } ∧
      d.book (encodeTicketId d.pow2BaseArrSz 0 idx) = none ∧
      book { d with baseArr := d.baseArr.set idx base' } =
        d.book.openTickets [encodeTicketId d.pow2BaseArrSz 0 idx] := by
  have hidx : idx < 2 ^ k := h.length_eq ▸ (List.getElem?_eq_some_iff.1 hb).1
  have hdec : decodeTicketId (2 ^ k) (encodeTicketId d.pow2BaseArrSz 0 idx) = (0, idx) := by
    rw [h.pow2_eq]
    exact decode_encode h.k_le hidx 0
  generalize encodeTicketId d.pow2BaseArrSz 0 idx = new at hdec ⊢
  have hlaid : Laid k { d with baseArr := d.baseArr.set idx base' } := by
    refine h.setBases (by rw [List.length_set, h.length_eq]) fun base1 hm => ?_
    rcases List.mem_or_eq_of_mem_set hm with hm | rfl
    · exact h.single base1 hm
    · exact hs
  refine ⟨hlaid, ?_, ?_⟩
  · rw [h.book_eq, partitionBook, hdec, hb]
    exact hnone
  · have hset := partitionBook_set h.k_le (e := some none)
      (show d.baseArr[(decodeTicketId (2 ^ k) new).2]? = some base by rw [hdec]; exact hb)
      (show base'.book = Function.update base.book (decodeTicketId (2 ^ k) new).1 _ by
        rw [hdec]; exact hb')
    rw [hdec] at hset
    rw [hlaid.book_eq, hset, ← h.book_eq, openTickets_cons, openTickets_nil]

variable (debug) in
theorem Laid.rollback (h : d.Laid k) {m : Book O} (hbook : d.book = m.openTickets rs) (hnd : rs.Nodup)
    (hfresh : ∀ id ∈ rs, m id = none) :
    ∃ d', d.closeTicket layout head debug rs = .ok d' ∧ d'.Laid k ∧ d'.book = m := by
  obtain ⟨hclose, hlaid⟩ := closeTicket_book layout head debug h rs
  have hall : rs.foldlM (Book.closeOne debug) d.book = .ok (d.book.closeTickets rs) := by
    refine closeAll_iff.2 ⟨rfl, fun _ => ⟨hnd, fun id hid => ?_⟩⟩
    simp [hbook, openTickets, hid]
  rw [hall] at hclose
  cases e : d.closeTicket layout head debug rs with
  | error f =>
    rw [e] at hclose
    cases hclose
  | ok d' =>
    rw [e] at hclose
    refine ⟨d', rfl, hlaid d' e, ?_⟩
    rw [← close_openTickets hfresh, ← hbook]
    exact Except.ok.inj hclose

/-- **A call of open_ticket that opens only base ids 0** opens new tickets, or leaves all as it was. -/
theorem openPieces_ok {sz discretizationSz n i : Nat} {m : Book O} (h : d.Laid k)
    (hle : discretizationSz ≤ d.maximumDiscretizationSz)
    (hz : ZeroPieces debug clue sz discretizationSz n i d.baseArr) (hbook : d.book = m.openTickets rs)
    (hnd : rs.Nodup) (hfresh : ∀ id ∈ rs, m id = none)
    (hlen : rs.length = min (i * discretizationSz) sz) :
    ∃ d' r, openPieces layout head debug clue sz discretizationSz n i rs d = .ok (d', r) ∧
      d'.Laid k ∧
      ((r = .error .resourceExhaustion ∧ d'.book = m) ∨
        ∃ ids, r = .ok ids ∧ d'.book = m.openTickets ids ∧ ids.Nodup ∧ (∀ id ∈ ids, m id = none) ∧
          ids.length = min ((i + n) * discretizationSz) sz) := by
  induction n generalizing i rs d with
  | zero => exact ⟨d, .ok rs, rfl, h, .inr ⟨rs, rfl, hbook, hnd, hfresh, hlen⟩⟩
  | succ n ih =>
    have hidx : (clue i).toNat &&& (d.pow2BaseArrSz - 1) < d.baseArr.length := by
      rw [h.pow2_eq, h.length_eq, Nat.and_two_pow_sub_one_eq_mod]
      exact Nat.mod_lt _ (Nat.two_pow_pos k)
    unfold ZeroPieces at hz
    unfold openPieces
    dsimp only at hz ⊢
    rw [h.length_eq, ← h.pow2_eq] at hz
    generalize (clue i).toNat &&& (d.pow2BaseArrSz - 1) = idx at hidx hz ⊢
    obtain ⟨base, hb⟩ : ∃ base, d.baseArr[idx]? = some base := ⟨_, List.getElem?_eq_getElem hidx⟩
    rw [hb]
    dsimp only
    have hs := h.single base (List.mem_of_getElem? hb)
    have hadd := Nat.add_mul i 1 discretizationSz
    have hsub : min ((i + 1) * discretizationSz) sz - i * discretizationSz ≤
        d.maximumDiscretizationSz := by
      omega
    generalize hsubSz : min ((i + 1) * discretizationSz) sz - i * discretizationSz = subSz
      at hsub hz ⊢
    rcases openTicket_piece debug hs hsub
      (fun hcap => ⟨(hz base hb hcap).1, (hz base hb hcap).2.1⟩) with
      e | ⟨hcap, rfl, hnone, base', e, hs', hb'⟩
    · -- the piece is refused: what the call has opened is closed again
      have hset : d.baseArr.set idx base = d.baseArr := by
        obtain ⟨hi, rfl⟩ := List.getElem?_eq_some_iff.1 hb
        exact List.set_getElem_self hi
      rw [e, ok_bind, hset]
      obtain ⟨d', e', hlaid, hm⟩ := h.rollback layout head debug
        hbook hnd hfresh
      exact ⟨d', _, congrArg (· >>= _) e', hlaid, .inl ⟨rfl, hm⟩⟩
    · obtain ⟨hlaid, hnew, hbook'⟩ := h.openPiece hb hnone hs' hb'
      rw [hbook] at hnew hbook'
      rw [← openTickets_append] at hbook'
      have hfresh' : encodeTicketId d.pow2BaseArrSz 0 idx ∉ rs ∧
          m (encodeTicketId d.pow2BaseArrSz 0 idx) = none := by
        unfold openTickets at hnew
        split at hnew
        · cases hnew
        · next hm => exact ⟨fun h => hm h, hnew⟩
      obtain ⟨d', r, e', hl', hr'⟩ := ih (i := i + 1) hlaid hle ((hz base hb hcap).2.2 base' _ e)
        hbook' (List.nodup_append.2 ⟨hnd, List.nodup_singleton _, fun a ha b hb' hab => by
          obtain rfl := List.mem_singleton.1 hb'
          exact hfresh'.1 (hab ▸ ha)⟩)
        (fun id hid => by
          rcases List.mem_append.1 hid with hid | hid
          · exact hfresh id hid
          · obtain rfl := List.mem_singleton.1 hid
            exact hfresh'.2)
        (by
          rw [List.length_append, List.length_singleton, hlen]
          omega)
      refine ⟨d', r, ?_, hl', ?_⟩
      · rw [e, ok_bind]
        exact e'
      · rwa [Nat.add_assoc, Nat.add_comm 1] at hr'

theorem le_peekingBaseArrSz (h : d.Laid k) (sz : Nat) :
    sz ≤ d.peekingBaseArrSz sz * d.discretizationSz sz := by
  have hpos : 0 < d.discretizationSz sz := lt_of_lt_of_le h.minimum_pos (le_max_left _ _)
  have hdiv := Nat.div_add_mod sz (d.discretizationSz sz)
  have hmod := Nat.mod_lt sz hpos
  unfold peekingBaseArrSz
  rw [Nat.add_mul, Nat.mul_comm]
  split
  · omega
  · omega

/-- **open_ticket**, where it opens only base ids 0: it opens `sz` new tickets, or it is refused and
leaves none of them open. -/
theorem openTicket_ok {sz : Nat} (h : d.Laid k) (hz : d.ZeroOpens debug clue sz)
    (hsz : debug → sz ≤ d.maxConsumePerLoad) :
    ∃ d' r, d.openTicket layout head debug clue sz = .ok (d', r) ∧ d'.Laid k ∧
      ((r = .error .resourceExhaustion ∧ d'.book = d.book) ∨
        ∃ ids, r = .ok ids ∧ d'.book = d.book.openTickets ids ∧ ids.Nodup ∧
          (∀ id ∈ ids, d.book id = none) ∧ ids.length = sz) := by
  have hle : d.discretizationSz sz ≤ d.maximumDiscretizationSz :=
    max_le h.minimum_le (min_le_right _ _)
  obtain ⟨d', r, e, hl, hr⟩ := openPieces_ok layout head (m := d.book) h hle hz
    (openTickets_nil _).symm List.nodup_nil (fun id hid => absurd hid List.not_mem_nil) (by simp)
  refine ⟨d', r, ?_, hl, ?_⟩
  · unfold openTicket
    rw [if_neg fun hd => Nat.not_lt.2 (hsz hd.1) hd.2]
    exact e
  · rcases hr with hr | ⟨ids, hr, hb, hnd, hfresh, hlen⟩
    · exact .inl hr
    · refine .inr ⟨ids, hr, hb, hnd, hfresh, ?_⟩
      rw [Nat.zero_add] at hlen
      exact hlen.trans (Nat.min_eq_right (le_peekingBaseArrSz h sz))

/-! ## Runs -/

def Fresh (d : DistributedTicketController O) : Prop :=
  ∃ baseTicketCap concurrencySz, getDistributedTicketController baseTicketCap concurrencySz = .ok d

theorem Fresh.laid (h : Fresh d) : (∃ k, d.Laid k) ∧ d.book.IsEmpty := by
  obtain ⟨baseTicketCap, concurrencySz, e⟩ := h
  unfold getDistributedTicketController at e
  split at e
  · cases e
  split at e
  · cases e
  next hclamp hpow =>
  obtain ⟨base, hbase, e⟩ := bind_eq_ok e
  cases e
  obtain ⟨k, rfl⟩ := Nat.ne_zero_and_sub_one_eq_zero_iff_isPowerOfTwo.1 (not_not.1 hpow)
  have hfresh : base.Fresh := ⟨baseTicketCap, hbase⟩
  obtain ⟨hmap, -, hmax⟩ := hfresh.eq
  have hpos : 1 ≤ base.maxConsumePerLoad := by
    rw [hmax]
    exact le_max_left _ _
  refine ⟨⟨k, ?_, rfl, List.length_replicate, by show 2 ^ 6 ≤ 2 ^ 30; decide, one_pos, hpos, ?_⟩, fun id => ?_⟩
  · exact (Nat.pow_le_pow_iff_right (by decide : 1 < 2)).1 (not_not.1 hclamp).2
  · intro base' hm
    obtain rfl := List.eq_of_mem_replicate hm
    refine ⟨rfl, fun id hid => ?_⟩
    rw [hmap] at hid
    exact absurd hid (AList.notMem_empty id)
  · unfold book partitionBook
    cases hb : (List.replicate (2 ^ k) base)[(decodeTicketId (2 ^ k) id).2]? with
    | none => rfl
    | some base' =>
      obtain rfl := List.eq_of_mem_replicate (List.mem_of_getElem? hb)
      exact hfresh.isEmpty _

theorem Laid.step {call : Call O} (h : d.Laid k) (hs : Step debug (ZeroOpens debug) d call d') :
    d'.Laid k ∧ Book.Step debug d.book call d'.book := by
  cases hs with
  | @openTicket layout head _ _ clue sz r hz e =>
    have hsz : debug → sz ≤ d.maxConsumePerLoad := by
      intro hd
      by_contra hgt
      rw [openTicket, if_pos ⟨hd, Nat.not_le.1 hgt⟩] at e
      cases e
    obtain ⟨d1, r1, e1, hl, hr⟩ := openTicket_ok layout head h hz hsz
    obtain ⟨rfl, rfl⟩ := Prod.mk.inj (Except.ok.inj (e.symm.trans e1))
    refine ⟨hl, ?_⟩
    rcases hr with ⟨rfl, hb⟩ | ⟨ids, rfl, hb, hnd, hfresh, rfl⟩
    · rw [hb]
      exact .refused _ _
    · rw [hb]
      exact .opened _ ids hnd hfresh
  | @assignObserver layout head _ _ xs exceptionArr out hl e =>
    obtain ⟨d1, e1, hb, hlaid⟩ := assignObserver_ok layout head h xs exceptionArr hl
    obtain ⟨rfl, rfl⟩ := Prod.mk.inj (Except.ok.inj (e.symm.trans e1))
    refine ⟨hlaid, ?_⟩
    have hres : ((d.book.assignObserver xs).2.map giveBack).map Prod.snd =
        (d.book.assignObserver xs).2.map Prod.snd := by
      rw [List.map_map]
      rfl
    rw [hb, hres]
    exact .assignObserver _ xs
  | @stealObserver layout head _ _ ids outObserverArr rs hl e =>
    obtain ⟨d1, e1, hb, hlaid⟩ := stealObserver_ok layout head h ids outObserverArr hl
    obtain ⟨rfl, rfl⟩ := Prod.mk.inj (Except.ok.inj (e.symm.trans e1))
    refine ⟨hlaid, ?_⟩
    rw [hb]
    exact .stealObserver _ ids
  | @closeTicket layout head _ _ ids e =>
    obtain ⟨hclose, hlaid⟩ := closeTicket_book layout head debug h ids
    rw [e] at hclose
    obtain ⟨hb, hd⟩ := closeAll_iff.1 hclose.symm
    refine ⟨hlaid d' e, ?_⟩
    rw [hb]
    exact .closeTicket _ ids hd

/-- **A controller that opens only base ids 0 is one table.** -/
theorem refines_book {hist : List (Call O)}
    (h : Reach Fresh (Step debug (ZeroOpens debug)) d hist) :
    (∃ k, d.Laid k) ∧ Reach Book.IsEmpty (Book.Step debug) d.book hist := by
  induction h with
  | init hf => exact ⟨hf.laid.1, .init hf.laid.2⟩
  | step _ hs ih =>
    obtain ⟨⟨k, hl⟩, hr⟩ := ih
    obtain ⟨hl', hb⟩ := hl.step hs
    exact ⟨⟨k, hl'⟩, .step hr hb⟩

theorem Laid.unpacks (h : d.Laid k) {idx : Nat} (hb : d.baseArr[idx]? = some base) {id : TicketId}
    (hid : id ∈ base.ticketResourceMap) :
    decodeTicketId d.pow2BaseArrSz (encodeTicketId d.pow2BaseArrSz id idx) = (id, idx) := by
  have hidx : idx < 2 ^ k := h.length_eq ▸ (List.getElem?_eq_some_iff.1 hb).1
  rw [h.pow2_eq]
  exact (decode_encode_iff h.k_le hidx).2 ((h.single base (List.mem_of_getElem? hb)).2 id hid).1

/-- **In every run that opens only base ids 0** the ids open at the same time are pairwise distinct,
they are the keys of the table, every ticket of a partition unpacks to its base id and its partition,
and every call did to the table what one register does. -/
theorem one_register {hist : List (Call O)}
    (h : Reach Fresh (Step debug (ZeroOpens debug)) d hist) :
    (openIds hist).Nodup ∧ (∀ id, id ∈ openIds hist ↔ (d.book id).isSome) ∧
      (∀ idx base, d.baseArr[idx]? = some base → ∀ id ∈ base.ticketResourceMap,
        decodeTicketId d.pow2BaseArrSz (encodeTicketId d.pow2BaseArrSz id idx) = (id, idx)) ∧
      Reach Book.IsEmpty (Book.Step debug) d.book hist := by
  obtain ⟨⟨k, hl⟩, hr⟩ := refines_book h
  obtain ⟨hnd, hmem⟩ := openIds_ok hr
  exact ⟨hnd, hmem, fun idx base hb id hid => hl.unpacks hb hid, hr⟩

theorem width_pos : 0 < 16 := by decide

theorem align_pos : 0 < 8 := by decide

def wlayout : EventLayout := ⟨16, 8, width_pos, align_pos⟩

theorem one_register_two : ∃ (d : DistributedTicketController Nat) (hist : List (Call Nat)),
    Reach Fresh (Step true (ZeroOpens true)) d hist ∧
      hist = [.openTicket 1 (.ok [0]), .openTicket 1 (.ok [1]), .assignObserver [(1, some 5)] [.ok true],
        .stealObserver [1, 0] [.ok 5, .error .restTicketObserverNotFound], .closeTicket [0]] ∧
      (openIds hist).Nodup := by
  obtain ⟨d0, h0, d1, h1, d2, h2, d3, h3, d4, h4, d5, h5⟩ :
      ∃ d0 : DistributedTicketController Nat, d0.Fresh ∧
      ∃ d1, Step true (ZeroOpens true) d0 (.openTicket 1 (.ok [0])) d1 ∧
      ∃ d2, Step true (ZeroOpens true) d1 (.openTicket 1 (.ok [1])) d2 ∧
      ∃ d3, Step true (ZeroOpens true) d2 (.assignObserver [(1, some 5)] [.ok true]) d3 ∧
      ∃ d4, Step true (ZeroOpens true) d3
        (.stealObserver [1, 0] [.ok 5, .error .restTicketObserverNotFound]) d4 ∧
      ∃ d5, Step true (ZeroOpens true) d4 (.closeTicket [0]) d5 := by
    refine ⟨_, ⟨16, 2, rfl⟩,
      _, .openTicket ?_ (show openTicket wlayout 0 _ true (fun _ => 0) 1 = _ from rfl),
      _, .openTicket ?_ (show openTicket wlayout 0 _ true (fun _ => 1) 1 = _ from rfl),
      _, .assignObserver (show [.ok false].length = 1 from rfl)
        (show assignObserver wlayout 0 _ _ _ = .ok (_, [(none, .ok true)]) from rfl),
      _, .stealObserver (show [.ok 0, .ok 0].length = 2 from rfl)
        (show stealObserver wlayout 0 _ _ _ = _ from rfl),
      _, .closeTicket (show closeTicket wlayout 0 _ true _ = _ from rfl)⟩
    · intro base hb _
      cases hb
      exact ⟨rfl, rfl, fun _ _ _ => trivial⟩
    · intro base hb _
      cases hb
      exact ⟨rfl, rfl, fun _ _ _ => trivial⟩
  have hrun := Reach.step (.step (.step (.step (.step (.init h0) h1) h2) h3) h4) h5
  exact ⟨d5, _, hrun, rfl, (one_register hrun).1⟩

/-- Two tickets opened in one partition get the same id. -/
theorem one_id_twice : ∃ (d : DistributedTicketController Nat) (hist : List (Call Nat)),
    Reach Fresh (Step true fun _ _ _ => True) d hist ∧ ¬ (openIds hist).Nodup := by
  have hstep : ∃ d0 : DistributedTicketController Nat, d0.Fresh ∧
      ∃ d, Step true (fun _ _ _ => True) d0 (.openTicket 2 (.ok [0, 0])) d :=
    ⟨_, ⟨32, 1, rfl⟩, _,
      .openTicket trivial (show openTicket wlayout 0 _ true (fun _ => 0) 2 = _ from rfl)⟩
  obtain ⟨d0, h0, d, hs⟩ := hstep
  exact ⟨d, [.openTicket 2 (.ok [0, 0])], Reach.step (.init h0) hs, by decide⟩

end DistributedTicketController

end RestFrame
