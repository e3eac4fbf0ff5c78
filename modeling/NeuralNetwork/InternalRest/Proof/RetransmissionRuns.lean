import NeuralNetwork.InternalRest.Proof.RetransmissionController

/-!
# Runs of the retransmission controller

Over every run of critical sections: which of them fail and where the packets are
(`waiting_invariants_iff`), and which acknowledged packets come back (`acked_not_retransmitted`).
-/

namespace Retransmission

open Cpp FlashStream HashChain CyclicUnordered ExpiryQueue Loop Mailbox Run
open TemporalOrderedItemMap (add_ok capacity erase_ok getExpiredItem_ok make_inv)

namespace World

variable (debug : Bool) {env : Outside} {w w' : World} {gone : List Packet} {P : Packet → Prop}

/-! ## ack, get_retriables -/

def kept (w : World) : List Packet := w.controller.pktMap.entries.map Prod.fst

structure Acked (env : Outside) (w : World) (idArr : List GlobalPacketIdentifier) (w' : World) :
    Prop where
  map : w'.controller.pktMap.Inv packetIdExtractor
  cap : w'.controller.pktMap.capacity = w.controller.pktMap.capacity
  acked : w'.controller.ackedIdHashset.Ordered env.hasher
  kept : w'.kept = w.kept.filter fun pkt => pkt.id ∉ idArr
  ids : ∀ id ∈ w'.controller.ackedIdHashset.ids,
    id ∈ w.controller.ackedIdHashset.ids ∨ id ∈ idArr
  same : w' = { w with controller := { w.controller with
    pktMap := w'.controller.pktMap, ackedIdHashset := w'.controller.ackedIdHashset } }

theorem ackOne_ok (hm : w.controller.pktMap.Inv packetIdExtractor)
    (ha : w.controller.ackedIdHashset.Ordered env.hasher) (id : GlobalPacketIdentifier) :
    ∃ w', ackOne debug env w id = .ok w' ∧ Acked env w [id] w' := by
  obtain ⟨m, em, hm', hentries, hcap, -⟩ := erase_ok debug hm id
  obtain ⟨set, es, hset, hids, -⟩ := Mailbox.TemporalFiniteUnorderedSet.insert_ok ha id
  refine ⟨{ w with controller := { w.controller with pktMap := m, ackedIdHashset := set } }, ?_,
    hm', hcap, hset, ?_, fun x hx => ?_, rfl⟩
  · unfold ackOne
    rw [em, ok_bind, show env.keys = Keys.ofHash env.hasher from rfl, es]
    rfl
  · show m.entries.map Prod.fst = (w.controller.pktMap.entries.map Prod.fst).filter _
    rw [hentries, List.filter_map]
    refine congrArg (List.map Prod.fst) (List.filter_congr fun x _ => ?_)
    by_cases hx : x.1.id = id
    · simp [packetIdExtractor, hx]
    · simp [packetIdExtractor, hx]
  · replace hx : x ∈ set.ids := hx
    rw [hids] at hx
    rcases Mailbox.TemporalFiniteUnorderedSet.mem_of_mem_insert hx with hx | hx
    · exact .inl hx
    · exact .inr (List.mem_singleton.2 hx)

theorem ackAll_ok (hm : w.controller.pktMap.Inv packetIdExtractor)
    (ha : w.controller.ackedIdHashset.Ordered env.hasher) (idArr : List GlobalPacketIdentifier) :
    ∃ w', idArr.foldlM (ackOne debug env) w = .ok w' ∧ Acked env w idArr w' := by
  induction idArr generalizing w with
  | nil => exact ⟨w, rfl, hm, rfl, ha, by simp [World.kept], fun id hid => .inl hid, rfl⟩
  | cons id idArr ih =>
    obtain ⟨w1, e1, h1⟩ := ackOne_ok debug hm ha id
    obtain ⟨w2, e2, h2⟩ := ih h1.map h1.acked
    refine ⟨w2, ?_, h2.map, h2.cap.trans h1.cap, h2.acked, ?_, fun x hx => ?_, ?_⟩
    · rw [List.foldlM_cons, e1]
      exact e2
    · rw [h2.kept, h1.kept, List.filter_filter]
      refine List.filter_congr fun pkt _ => ?_
      simp [Bool.and_comm]
    · rcases h2.ids x hx with hx | hx
      · rcases h1.ids x hx with hx | hx
        · exact .inl hx
        · exact .inr (List.mem_singleton.1 hx ▸ List.mem_cons_self)
      · exact .inr (List.mem_cons_of_mem _ hx)
    · have hsame := h2.same
      rw [h1.same] at hsame
      exact hsame

variable {idArr : List GlobalPacketIdentifier}

theorem Acked.good (h : Good env gone w)
    (ha : Acked env w idArr w') (rounds : Nat → Round) :
    Good env (gone ++ w.erasedBy (.ack idArr rounds)) w' ∧
      Ledger.Steps P (w.book gone) (w'.book (gone ++ w.erasedBy (.ack idArr rounds))) := by
  have hcells : w'.cells = w.cells := by rw [ha.same]
  have hfirst : w'.controller.pushWaitQueue1 = w.controller.pushWaitQueue1 := by rw [ha.same]
  have hsecond : w'.controller.pushWaitQueue2 = w.controller.pushWaitQueue2 := by rw [ha.same]
  have hwait : w'.waitPtrs = w.waitPtrs := by
    unfold waitPtrs
    rw [hfirst, hsecond]
  have hperm : w.kept.Perm (w.erasedBy (.ack idArr rounds) ++ w'.kept) := by
    rw [ha.kept]
    refine (List.filter_append_perm (fun pkt => pkt.id ∈ idArr) w.kept).symm.trans (.of_eq ?_)
    simp [erasedBy, World.kept]
  have hsteps : Ledger.Steps P (w.book gone)
      (w'.book (gone ++ w.erasedBy (.ack idArr rounds))) := by
    unfold World.book page
    rw [hcells, hwait]
    exact Ledger.Steps.leave _ _ _ hperm
  refine ⟨⟨ha.map, ha.acked, ?_, h.book.steps hsteps⟩, hsteps⟩
  rw [hfirst, hsecond]
  exact h.items

variable {e : Event} {c : MemoryEfficientRetransmissionController} {m : TemporalOrderedPacketMap}
  {config : Config}

theorem takeExpired_ok (hm : m.Inv packetIdExtractor) (timeBar : Int) (cap : Nat) :
    ∃ m' output, takeExpired debug timeBar cap m = .ok (m', output) ∧ m'.Inv packetIdExtractor ∧
      m'.capacity = m.capacity ∧
      (m.entries.map Prod.fst).Perm (output ++ m'.entries.map Prod.fst) := by
  induction cap generalizing m with
  | zero => exact ⟨m, [], rfl, hm, rfl, List.Perm.refl _⟩
  | succ cap ih =>
    unfold takeExpired
    obtain ⟨m1, r, e1, hm1, hcap1, -, ⟨rfl, rfl⟩ | ⟨pkt, time, rfl, -, hperm⟩⟩ :=
      getExpiredItem_ok debug hm timeBar
    · rw [e1]
      exact ⟨m1, [], rfl, hm1, rfl, List.Perm.refl _⟩
    · obtain ⟨m2, output, e2, hm2, hcap2, hperm2⟩ := ih hm1
      refine ⟨m2, pkt :: output, ?_, hm2, hcap2.trans hcap1, ?_⟩
      · rw [e1, ok_bind]
        dsimp only
        rw [e2]
        rfl
      · exact (hperm.map Prod.fst).trans (hperm2.cons pkt)

theorem setMap_good (h : Good env gone w) {output : List Packet} (hm : m.Inv packetIdExtractor)
    (hperm : w.kept.Perm (output ++ m.entries.map Prod.fst)) :
    Good env (gone ++ output) (w.setMap m) ∧
      Ledger.Steps P (w.book gone) ((w.setMap m).book (gone ++ output)) := by
  have hsteps : Ledger.Steps P (w.book gone) ((w.setMap m).book (gone ++ output)) :=
    Ledger.Steps.leave _ _ _ hperm
  exact ⟨⟨hm, h.acked, h.items, h.book.steps hsteps⟩, hsteps⟩

theorem Acked.settings (h : Acked env w idArr w') :
    (settings w'.controller).2 = (settings w.controller).2 := by
  have hcap := h.cap
  rw [h.same] at hcap ⊢
  simp only [World.settings, Prod.mk.injEq, true_and]
  exact hcap

theorem Acked.short (h : Acked env w idArr w') (hs : Short w) : Short w' := by
  rw [h.same]
  exact hs

theorem ack_ok (h : Good env gone w) (hsmall : w.controller.retriablePktMapCap < 2 ^ 64)
    (hfits : Fits w) (rounds : Nat → Round)
    (hbatch : idArr.length ≤ w.controller.consumeSzPerLoad) :
    ∃ w', w.ack debug env idArr rounds = .ok w' := by
  obtain ⟨w1, e1, h1⟩ := ackAll_ok debug h.map h.acked idArr
  have hretriable : w1.controller.retriablePktMapCap = w.controller.retriablePktMapCap := by
    rw [h1.same]
  have hfits1 : Fits w1 := by
    rcases hfits with hle | hshort
    · left
      rw [hretriable, h1.cap]
      exact hle
    · exact .inr (h1.short hshort)
  obtain ⟨w', e', -⟩ := fulfillWaitQueue_ok debug (P := w.NotAcked)
    (h1.good (P := w.NotAcked) h rounds).1 (hretriable ▸ hsmall) hfits1 rounds
  refine ⟨w', ?_⟩
  unfold ack
  rw [checkConsumeSize_ok fun _ => hbatch, ok_bind, e1, ok_bind]
  exact e'

theorem getRetriables_ok (h : Good env gone w)
    (hsmall : w.controller.retriablePktMapCap < 2 ^ 64) (hfits : Fits w) (outputArrCap : Nat)
    (timeBar : Int) (rounds : Nat → Round) :
    ∃ r, w.getRetriables debug env outputArrCap timeBar rounds = .ok r := by
  obtain ⟨m, output, e1, hm, hcap, hperm⟩ :=
    takeExpired_ok debug h.map timeBar outputArrCap
  have hfits1 : Fits (w.setMap m) := by
    rcases hfits with hle | hshort
    · exact .inl (Nat.le_trans hle (Nat.le_of_eq hcap.symm))
    · exact .inr hshort
  obtain ⟨w', e', -⟩ := fulfillWaitQueue_ok debug (P := w.NotAcked)
    (setMap_good (P := w.NotAcked) h hm hperm).1 hsmall hfits1 rounds
  refine ⟨(w', output), ?_⟩
  unfold getRetriables
  rw [e1, ok_bind]
  dsimp only
  rw [e']
  rfl

/-! ## Critical sections -/

def Op.batch : Op → Nat
  | .addRetriables pktArr _ => pktArr.length
  | .reentrantAddRetriables pktArr _ => pktArr.length
  | .ack idArr _ => idArr.length
  | .getRetriables _ _ _ => 0

def HasRoom (w : World) : Op → Prop
  | .addRetriables _ _ => w.controller.pushWaitQueue1.size ≠ w.controller.pushWaitQueue1.cap
  | .reentrantAddRetriables _ _ =>
    w.controller.pushWaitQueue2.size ≠ w.controller.pushWaitQueue2.cap
  | .ack _ _ => True
  | .getRetriables _ _ _ => True

def limits (w : World) : Nat × Nat × Nat × Nat := (settings w.controller).2

theorem step_ok (h : Good env gone w) (hsmall : w.controller.retriablePktMapCap < 2 ^ 64)
    (hfits : Fits w) {op : Op} (hbatch : op.batch ≤ w.controller.consumeSzPerLoad)
    (hroom : w.HasRoom op) : ∃ r, w.step debug env op = .ok r := by
  cases op with
  | addRetriables pktArr now =>
    rcases addRetriables_cases debug h pktArr now with
      ⟨w', e, -⟩ | ⟨fault, -, hlarge | hfull⟩
    · exact ⟨(w', []), by simp only [step, e]; rfl⟩
    · exact absurd hlarge (Nat.not_lt.2 hbatch)
    · exact absurd hfull hroom
  | reentrantAddRetriables pktArr now =>
    rcases reentrantAddRetriables_cases debug h pktArr now with
      ⟨w', e, -⟩ | ⟨fault, -, hlarge | hfull⟩
    · exact ⟨(w', []), by simp only [step, e]; rfl⟩
    · exact absurd hlarge (Nat.not_lt.2 hbatch)
    · exact absurd hfull hroom
  | ack idArr rounds =>
    obtain ⟨w', e⟩ := ack_ok debug h hsmall hfits rounds hbatch
    exact ⟨(w', []), by simp only [step, e]; rfl⟩
  | getRetriables outputArrCap timeBar rounds =>
    exact getRetriables_ok debug h hsmall hfits outputArrCap timeBar rounds

/-! ## New controllers -/

structure Made (env : Outside) (config : Config) (c : MemoryEfficientRetransmissionController) :
    Prop where
  cap_le : config.pktMapCapacity ≤ 2 ^ 30
  retriable_le : config.retriablePktMapCap ≤ 2 ^ 30
  map : c.pktMap = .make config.pktMapCapacity
  first : c.pushWaitQueue1.items = [] ∧ 0 < c.pushWaitQueue1.cap
  second : c.pushWaitQueue2.items = []
  acked : c.ackedIdHashset.Ordered env.hasher ∧ c.ackedIdHashset.ids = []
  retransmission : c.maxRetransmissionSz = config.maxRetransmissionSz
  retriable : c.retriablePktMapCap = config.retriablePktMapCap
  consume : c.consumeSzPerLoad =
    max (min (min config.pktMapCapacity config.ackedSetCapacity) config.tentativeConsumeSz) 1

theorem made (env : Outside) (hc : getMemoryEfficientRetransmissionController config = .ok c) :
    Made env config c := by
  unfold getMemoryEfficientRetransmissionController at hc
  split at hc
  · cases hc
  rename_i hcap
  split at hc
  · cases hc
  split at hc
  · cases hc
  split at hc
  · cases hc
  rename_i hretriable
  split at hc
  · cases hc
  split at hc
  · cases hc
  split at hc
  · cases hc
  obtain ⟨user, -, hc⟩ := bind_eq_ok hc
  obtain ⟨retriable, -, hc⟩ := bind_eq_ok hc
  obtain ⟨set, hset, hc⟩ := bind_eq_ok hc
  cases hc
  exact ⟨Nat.le_of_not_lt hcap, (not_not.1 hretriable).2, rfl, ⟨rfl, Nat.two_pow_pos _⟩, rfl,
    Mailbox.TemporalFiniteUnorderedSet.make_ok hset, rfl, rfl, rfl⟩

theorem Made.good (h : Made env config c) : Good env [] ⟨c, [], 0, []⟩ := by
  have hmap : c.pktMap.Inv packetIdExtractor := by
    rw [h.map]
    exact make_inv (Nat.lt_of_le_of_lt h.cap_le (by decide))
  refine ⟨hmap, h.acked.1, ?_, ?_⟩
  · rw [h.first.1, h.second]
    simp
  · have hbook : (⟨c, [], 0, []⟩ : World).book [] = ⟨[], [], [], []⟩ := by
      simp only [World.book, page, waitPtrs]
      rw [h.first.1, h.second, h.map]
      rfl
    rw [hbook]
    exact ⟨List.nodup_nil, by simp, List.Perm.refl _⟩

/-! ## Acknowledged packets -/

def waitingIds (w : World) : List GlobalPacketIdentifier :=
  w.waitPtrs.filterMap fun p => w.cells[p]?.map (·.pkt.id)

def AcksNoWaiting (w : World) : Op → Prop
  | .ack idArr _ => ∀ id ∈ idArr, id ∉ w.waitingIds
  | _ => True

instance (op : Op) : Decidable (w.AcksNoWaiting op) :=
  match op with
  | .ack idArr _ => inferInstanceAs (Decidable (∀ id ∈ idArr, id ∉ w.waitingIds))
  | .addRetriables _ _ => .isTrue trivial
  | .reentrantAddRetriables _ _ => .isTrue trivial
  | .getRetriables _ _ _ => .isTrue trivial

def IsAcked (w : World) (pkt : Packet) : Prop := pkt.id ∈ w.controller.ackedIdHashset.ids

def Clean (gone : List Packet) (w : World) : Prop := Ledger.Clean w.IsAcked (w.book gone)

theorem waitingIds_spec {p : Nat} {pkt : Packet} (hp : p ∈ w.waitPtrs)
    (hpkt : Ledger.valueAt (w.cells.map entryOf) p = some pkt) : pkt.id ∈ w.waitingIds := by
  unfold Ledger.valueAt at hpkt
  rw [List.getElem?_map, Option.map_map, Option.map_eq_some_iff] at hpkt
  obtain ⟨cell, hcell, rfl⟩ := hpkt
  exact List.mem_filterMap.2 ⟨p, hp, by rw [hcell]; rfl⟩

theorem Clean.of_same (hc : w.Clean gone) (h : Good env gone w) {gone' : List Packet}
    (hs : Ledger.Steps w.NotAcked (w.book gone) (w'.book gone'))
    (hsame : w'.controller.ackedIdHashset = w.controller.ackedIdHashset) : w'.Clean gone' := by
  have hbad : w'.IsAcked = w.IsAcked := by
    unfold IsAcked
    rw [hsame]
  unfold Clean
  rw [hbad]
  exact Ledger.Clean.steps hc h.book hs

theorem Acked.clean (hc : w.Clean gone)
    (ha : Acked env w idArr w')
    (hwait : ∀ id ∈ idArr, id ∉ w.waitingIds) (gone' : List Packet) : w'.Clean gone' := by
  have hcells : w'.cells = w.cells := by rw [ha.same]
  have hptrs : w'.waitPtrs = w.waitPtrs := by
    unfold waitPtrs
    rw [ha.same]
  refine ⟨fun pkt hpkt hacked => ?_, fun p hp pkt hpkt hacked => ?_⟩
  · replace hpkt : pkt ∈ w'.kept := hpkt
    rw [ha.kept, List.mem_filter] at hpkt
    rcases ha.ids pkt.id hacked with hold | hnew
    · exact hc.kept pkt hpkt.1 hold
    · simp [hnew] at hpkt
  · replace hp : p ∈ w'.waitPtrs := hp
    replace hpkt : Ledger.valueAt (w'.cells.map entryOf) p = some pkt := hpkt
    rw [hptrs] at hp
    rw [hcells] at hpkt
    rcases ha.ids pkt.id hacked with hold | hnew
    · exact hc.waiting p hp pkt hpkt hold
    · exact hwait pkt.id hnew (waitingIds_spec hp hpkt)

/-! ## What a critical section does -/

def Op.given : Op → List Packet
  | .addRetriables pktArr _ => pktArr
  | .reentrantAddRetriables pktArr _ => pktArr
  | _ => []

/-- What `ack` and `get_retriables` do before they serve the waiting queues: packets leave the map. -/
structure Taken (env : Outside) (gone : List Packet) (e : Event) (w w' : World) : Prop where
  given : e.op.given = []
  good : Good env (gone ++ (e.returned ++ e.erased)) w'
  cells : w'.cells = w.cells
  served : Served w w'
  limits : w'.limits = w.limits
  short : Short w → Short w'
  clean : w.Clean gone → (∀ pkt ∈ e.returned, ¬ w.IsAcked pkt) ∧
    (w.AcksNoWaiting e.op → w'.Clean (gone ++ (e.returned ++ e.erased)))

/-- A critical section adds packets, or takes some and serves the waiting queues. -/
inductive Section (env : Outside) (gone : List Packet) (e : Event) (w w' : World) : Prop
  | adds : e.returned = [] → e.erased = [] → e.op.given.length = e.op.batch →
      Grown env gone e.op.given w w' → Section env gone e w w'
  | serves {w1 : World} : Taken env gone e w w1 →
      (∀ P, Turns env (gone ++ (e.returned ++ e.erased)) P w1 w') → Settled w' → Section env gone e w w'

theorem Step.does (h : Good env gone w) (hsmall : w.controller.retriablePktMapCap < 2 ^ 64)
    (hs : Step debug env w e w') : Section env gone e w w' := by
  obtain ⟨op, returned, erased⟩ := e
  obtain ⟨estep, herased⟩ := hs
  replace herased : erased = w.erasedBy op := herased
  subst herased
  cases op with
  | addRetriables pktArr now =>
    obtain ⟨w1, e1, e2⟩ := bind_eq_ok estep
    cases e2
    rcases addRetriables_cases debug h pktArr now with ⟨w2, e2, h2⟩ | ⟨fault, e2, -⟩
    · obtain rfl := Except.ok.inj (e1.symm.trans e2)
      exact .adds rfl rfl rfl h2
    · exact absurd (e1.symm.trans e2) (by simp)
  | reentrantAddRetriables pktArr now =>
    obtain ⟨w1, e1, e2⟩ := bind_eq_ok estep
    cases e2
    rcases reentrantAddRetriables_cases debug h pktArr now with ⟨w2, e2, h2⟩ | ⟨fault, e2, -⟩
    · obtain rfl := Except.ok.inj (e1.symm.trans e2)
      exact .adds rfl rfl rfl h2
    · exact absurd (e1.symm.trans e2) (by simp)
  | ack idArr rounds =>
    obtain ⟨w1, e1, e2⟩ := bind_eq_ok estep
    cases e2
    obtain ⟨-, -, e1⟩ := bind_eq_ok e1
    obtain ⟨w2, e2, h2⟩ := ackAll_ok debug h.map h.acked idArr
    rw [e2] at e1
    have hretriable : w2.controller.retriablePktMapCap < 2 ^ 64 := by
      rw [h2.same]
      exact hsmall
    have hgood := (h2.good (P := w.NotAcked) h rounds).1
    have hserved : Served w w2 := by
      rw [h2.same]
      exact .of_same rfl rfl rfl
    have htaken : Taken env gone ⟨.ack idArr rounds, [], _⟩ w w2 :=
      ⟨rfl, hgood, by rw [h2.same], hserved, h2.settings, h2.short, fun hc =>
        ⟨fun pkt hm => absurd hm List.not_mem_nil, fun hwait => h2.clean hc hwait _⟩⟩
    refine .serves htaken (fun P => (fulfillWaitQueue_inv debug hgood hretriable e1).1)
      (fulfillWaitQueue_inv debug (P := w.NotAcked) hgood hretriable e1).2
  | getRetriables outputArrCap timeBar rounds =>
    obtain ⟨m, out, e1, hm, hcap, hperm⟩ := takeExpired_ok debug h.map timeBar outputArrCap
    change w.getRetriables debug env outputArrCap timeBar rounds = _ at estep
    unfold getRetriables at estep
    rw [e1, ok_bind] at estep
    obtain ⟨w1, e2, estep⟩ := bind_eq_ok estep
    cases estep
    obtain ⟨hgood, hsteps⟩ := setMap_good (P := w.NotAcked) h hm hperm
    rw [← List.append_nil returned] at hgood hsteps
    have hlimits : (w.setMap m).limits = w.limits := by
      simp [World.limits, World.settings, setMap, hcap]
    have htaken : Taken env gone ⟨_, returned, []⟩ w (w.setMap m) :=
      ⟨rfl, hgood, rfl, .of_same rfl rfl rfl, hlimits, id, fun hc =>
        ⟨fun pkt hpkt => hc.kept pkt (hperm.mem_iff.2 (List.mem_append_left _ hpkt)),
          fun _ => hc.of_same h hsteps rfl⟩⟩
    exact .serves htaken (fun P => (fulfillWaitQueue_inv debug hgood hsmall e2).1)
      (fulfillWaitQueue_inv debug (P := w.NotAcked) hgood hsmall e2).2

structure Keeps (env : Outside) (gone : List Packet) (e : Event) (w w' : World) : Prop where
  good : Good env (gone ++ (e.returned ++ e.erased)) w'
  limits : w'.limits = w.limits
  settled : Settled w → Settled w'
  short : e.op.batch ≤ 1 ∨ w.controller.maxRetransmissionSz = 0 → Short w → Short w'

theorem Section.keeps (hs : Section env gone e w w') : Keeps env gone e w w' := by
  cases hs with
  | adds hreturned herased hbatch h =>
    refine ⟨?_, congrArg Prod.snd h.settings, h.settled, hbatch ▸ h.short⟩
    rw [hreturned, herased, List.append_nil, List.append_nil]
    exact h.good
  | serves ht hturns hsettled =>
    have h := hturns w.NotAcked
    exact ⟨h.good, (congrArg Prod.snd h.settings).trans ht.limits, fun _ => hsettled,
      fun _ hshort => h.short (ht.short hshort)⟩

theorem Step.keeps (h : Good env gone w) (hsmall : w.controller.retriablePktMapCap < 2 ^ 64)
    (hs : Step debug env w e w') : Keeps env gone e w w' :=
  (Step.does debug h hsmall hs).keeps

/-- A step keeps the map and the queues free of acknowledged packets, and returns none. -/
theorem Step.clean (h : Good env gone w) (hsmall : w.controller.retriablePktMapCap < 2 ^ 64)
    (hc : w.Clean gone) (hs : Step debug env w e w') :
    (∀ pkt ∈ e.returned, ¬ w.IsAcked pkt) ∧
      (w.AcksNoWaiting e.op → w'.Clean (gone ++ (e.returned ++ e.erased))) := by
  cases Step.does debug h hsmall hs with
  | adds hreturned herased _ hg =>
    rw [hreturned, herased, List.append_nil, List.append_nil]
    exact ⟨fun pkt hm => absurd hm List.not_mem_nil,
      fun _ => hc.of_same h hg.steps (congrArg Prod.fst hg.settings)⟩
  | serves ht hturns _ =>
    obtain ⟨hfree, hclean⟩ := ht.clean hc
    exact ⟨hfree, fun hwait => (hclean hwait).of_same ht.good (hturns _).steps
      (congrArg Prod.fst (hturns w.NotAcked).settings)⟩

/-- The cells after a critical section: the old ones, some of them declined, and one for each packet
that was given. -/
theorem Step.cells (h : Good env gone w) (hsmall : w.controller.retriablePktMapCap < 2 ^ 64)
    (hs : Step debug env w e w') :
    ∃ old new, w'.cells = old ++ new ∧ Same w.cells old ∧
      List.Forall₂ (Offered w.controller.maxRetransmissionSz) e.op.given new := by
  cases Step.does debug h hsmall hs with
  | adds _ _ _ hg =>
    obtain ⟨new, hnew, hall⟩ := hg.cells
    exact ⟨w.cells, new, hnew, .refl _, hall⟩
  | serves ht hturns _ =>
    exact ⟨w'.cells, [], (List.append_nil _).symm, ht.cells ▸ (hturns w.NotAcked).cells, ht.given ▸ .nil⟩

/-- **What a critical section does** with cells and waiting calls. -/
theorem Step.outcome (h : Good env gone w) (hsmall : w.controller.retriablePktMapCap < 2 ^ 64)
    (hs : Step debug env w e w') : Outcome e.op.given.length w w' := by
  cases Step.does debug h hsmall hs with
  | adds _ _ _ hg => exact hg.outcome
  | serves ht hturns _ => exact ht.given ▸ (ht.served.trans (hturns w.NotAcked).served).outcome

/-! ## Where it faults -/

theorem fulfillWaitQueue_fault (h : Oversized w) (hsecond : w.controller.pushWaitQueue2.items = [])
    (hsmall : w.controller.retriablePktMapCap < 2 ^ 64) (rounds : Nat → Round) :
    w.fulfillWaitQueue debug env rounds = .error (unreachable debug) := by
  obtain ⟨hroom, hlt, item, others, hq, hgt⟩ := h
  have hsub := subT_of_le (Nat.le_of_lt (Nat.lt_trans hroom hlt)) hsmall
  have hmove : ∀ now, w.fulfillOnePushWaitQueue1 debug env now = .error (unreachable debug) := by
    intro now
    unfold fulfillOnePushWaitQueue1
    rw [hq]
    dsimp only
    rw [if_neg (by omega), hsub]
    unfold moveToPktMap
    rw [if_pos (.inl (by omega))]
    rfl
  have hround : ∀ round, w.fulfillRound debug env round = .error (unreachable debug) := by
    intro round
    unfold fulfillRound
    rw [if_neg (by omega), if_neg (by omega), if_neg (by simp [hq]), if_pos hsecond, hmove]
    rfl
  show Prod.snd <$> whileLoop _ (loopBody debug env rounds) _ _ = _
  unfold whileLoop loopBody
  rw [hround]
  rfl

end World

/-! ## Examples of runs -/

def numbered (n : Nat) : Packet :=
  { (default : Packet) with id := ⟨BitVec.ofNat 64 n, Vector.replicate 20 0⟩ }

/-- Every key has one hash, and nothing is delayed. -/
def calm : Outside := ⟨fun _ => 0, fun _ _ => .ok 0⟩

def World.next (debug : Bool) (env : Outside) (w : World) (e : Event) : Option World :=
  match w.step debug env e.op with
  | .error _ => none
  | .ok (w', returned) =>
    if returned = e.returned ∧ e.erased = w.erasedBy e.op then some w' else none

theorem World.next_step {debug : Bool} {env : Outside} {w w' : World} {e : Event}
    (h : w.next debug env e = some w') : Step debug env w e w' := by
  unfold World.next at h
  split at h
  · cases h
  · rename_i w1 returned hstep
    split at h
    · rename_i hsame
      cases h
      exact ⟨hsame.1 ▸ hstep, hsame.2⟩
    · cases h

def World.nextIf (P : World → Event → Prop) [∀ w e, Decidable (P w e)] (debug : Bool)
    (env : Outside) (w : World) (e : Event) : Option World :=
  if P w e then w.next debug env e else none

theorem World.nextIf_step {P : World → Event → Prop} [∀ w e, Decidable (P w e)] {debug : Bool}
    {env : Outside} {w w' : World} {e : Event} (h : w.nextIf P debug env e = some w') :
    Step debug env w e w' ∧ P w e := by
  unfold World.nextIf at h
  split at h
  · rename_i hp
    exact ⟨World.next_step h, hp⟩
  · cases h

/-! ## What acknowledged packets do -/

theorem Fresh.spec {config : Config} {w : World} (h : Fresh config w) (env : Outside) :
    World.Good env [] w ∧ World.Made env config w.controller := by
  obtain ⟨c, hc, rfl⟩ := h
  exact ⟨(World.made env hc).good, World.made env hc⟩

/-- **Which acknowledged packets stay away.** As long as no packet that waits is acknowledged, no
packet whose id is in the set of acknowledged ones is returned. -/
theorem acked_not_retransmitted (config : Config) (debug : Bool) (env : Outside) {w w' : World}
    {hist : List Event} {e : Event}
    (h : Reach (Fresh config)
      (fun w e w' => Step debug env w e w' ∧ w.AcksNoWaiting e.op) w hist)
    (hs : Step debug env w e w') :
    ∀ pkt ∈ e.returned, w.controller.ackedIdHashset.contains env.keys pkt.id = .ok false := by
  obtain ⟨gone, hgood, hclean, hsmall⟩ : ∃ gone, World.Good env gone w ∧ w.Clean gone ∧
      w.controller.retriablePktMapCap < 2 ^ 64 := by
    refine h.inv (fun w _ => ∃ gone, World.Good env gone w ∧ w.Clean gone ∧
      w.controller.retriablePktMapCap < 2 ^ 64) (fun w h0 => ?_) fun w hist e w' hw hs => ?_
    · obtain ⟨hgood, hmade⟩ := h0.spec env
      refine ⟨[], hgood, ⟨fun pkt _ => ?_, fun p _ pkt _ => ?_⟩, ?_⟩
      · simp [World.IsAcked, hmade.acked.2]
      · simp [World.IsAcked, hmade.acked.2]
      · rw [hmade.retriable]
        exact Nat.lt_of_le_of_lt hmade.retriable_le (by decide)
    · obtain ⟨gone, hgood, hclean, hsmall⟩ := hw
      have hkeeps := World.Step.keeps debug hgood hsmall hs.1
      have hlimits := hkeeps.limits
      simp only [World.limits, World.settings, Prod.mk.injEq] at hlimits
      refine ⟨_, hkeeps.good, (World.Step.clean debug hgood hsmall hclean hs.1).2 hs.2, ?_⟩
      rw [hlimits.2.1]
      exact hsmall
  intro pkt hpkt
  have hnot := (World.Step.clean debug hgood hsmall hclean hs).1 pkt hpkt
  rw [show env.keys = Keys.ofHash env.hasher from rfl,
    Mailbox.TemporalFiniteUnorderedSet.contains_ok hgood.acked]
  exact congrArg Except.ok (decide_eq_false hnot)

/-- One place in the map, and one for a caller that waits. -/
def oneConfig : Config := ⟨1, 1, 1, 1, 1, 1, 1⟩

def coins : Nat → World.Round := fun _ => ⟨true, true, 0⟩

/-- A packet is acknowledged in the map, and another one is returned. -/
theorem acked_not_retransmitted_one : ∃ w w' : World, ∃ e : Event,
    e.returned = [bump (numbered 1)] ∧ Step true calm w e w' ∧
    ∀ pkt ∈ e.returned, w.controller.ackedIdHashset.contains calm.keys pkt.id = .ok false := by
  obtain ⟨w0, h0, w, hrun, w', hs⟩ : ∃ w0, Fresh oneConfig w0 ∧ ∃ w,
      [⟨.addRetriables [numbered 0] 0, [], []⟩,
        ⟨.ack [(numbered 0).id] coins, [], [bump (numbered 0)]⟩,
        ⟨.addRetriables [numbered 1] 0, [], []⟩].foldlM
        (World.nextIf (fun w e => w.AcksNoWaiting e.op) true calm) w0 = some w ∧ ∃ w',
      w.next true calm ⟨.getRetriables 1 1 coins, [bump (numbered 1)], []⟩ = some w' :=
    ⟨_, ⟨_, rfl, rfl⟩, _, rfl, _, rfl⟩
  have hstep := World.next_step hs
  exact ⟨w, w', _, rfl, hstep, acked_not_retransmitted oneConfig true calm
    ((Reach.init h0).foldlM World.nextIf_step hrun) hstep⟩

/-- A packet waits, is acknowledged, and comes back. -/
theorem acked_packet_returned : ∃ w w' : World, ∃ e : Event,
    Reach (Fresh oneConfig) (Step true calm) w
      [⟨.addRetriables [numbered 0] 0, [], []⟩, ⟨.addRetriables [numbered 1] 0, [], []⟩,
        ⟨.ack [(numbered 1).id] coins, [], []⟩,
        ⟨.getRetriables 1 1 coins, [bump (numbered 0)], []⟩] ∧
    Step true calm w e w' ∧ e.returned = [bump (numbered 1)] ∧
    w.controller.ackedIdHashset.contains calm.keys (numbered 1).id = .ok true := by
  obtain ⟨w0, h0, w, hrun, w', hs, hin⟩ : ∃ w0, Fresh oneConfig w0 ∧ ∃ w,
      [⟨.addRetriables [numbered 0] 0, [], []⟩, ⟨.addRetriables [numbered 1] 0, [], []⟩,
        ⟨.ack [(numbered 1).id] coins, [], []⟩,
        ⟨.getRetriables 1 1 coins, [bump (numbered 0)], []⟩].foldlM
        (World.next true calm) w0 = some w ∧ ∃ w',
      w.next true calm ⟨.getRetriables 1 1 coins, [bump (numbered 1)], []⟩ = some w' ∧
      w.controller.ackedIdHashset.contains calm.keys (numbered 1).id = .ok true := by
    refine ⟨_, ⟨_, rfl, rfl⟩, _, rfl, _, rfl, ?_⟩
    decide +kernel
  exact ⟨w, w', _, (Reach.init h0).foldlM World.next_step hrun, World.next_step hs, rfl, hin⟩

/-! ## What every run keeps -/

/-- The packets whose status is `SUCCESS` and which wait no more, as the map holds them. -/
def World.succeeded (w : World) : List Packet :=
  (List.range w.cells.length).filterMap fun p =>
    if p ∈ w.waitPtrs then none
    else w.cells[p]?.bind fun cell =>
      if cell.exception = .success then some (bump cell.pkt) else none

structure Sound (debug : Bool) (env : Outside) (w : World) (hist : List Event) : Prop where
  size_le : w.controller.pktMap.size ≤ w.controller.pktMap.capacity
  settled : w.Settled
  placed : w.succeeded.Perm
    (w.kept ++ (hist.flatMap Event.returned ++ hist.flatMap Event.erased))
  returns : ∀ op : World.Op, op.batch ≤ w.controller.consumeSzPerLoad → w.HasRoom op →
    ∃ r, w.step debug env op = .ok r

def StepUpTo (debug : Bool) (env : Outside) (w : World) (e : Event) (w' : World) : Prop :=
  Step debug env w e w' ∧ e.op.batch ≤ w.controller.consumeSzPerLoad

namespace World

variable (debug : Bool) {env : Outside} {w : World}

theorem succeeded_eq (w : World) (gone : List Packet) :
    w.succeeded = (w.book gone).finished := by
  have hlen : (w.book gone).cells.length = w.cells.length := List.length_map _
  unfold succeeded Ledger.Book.finished
  rw [hlen]
  refine List.filterMap_congr fun p _ => ?_
  have hat : Ledger.acceptedAt (w.book gone).cells p = w.cells[p]?.bind fun cell =>
      if cell.exception = .success then some (bump cell.pkt) else none := by
    show ((w.cells.map entryOf)[p]?).bind _ = _
    rw [List.getElem?_map, Option.bind_map]
    refine congrArg _ (funext fun cell => ?_)
    simp [entryOf]
  rw [hat]
  rfl

/-- The condition under which no call can be too large for the map. -/
def Related (config : Config) : Prop :=
  config.retriablePktMapCap ≤ config.pktMapCapacity ∨
    min (min config.pktMapCapacity config.ackedSetCapacity) config.tentativeConsumeSz ≤ 1 ∨
    config.maxRetransmissionSz = 0

/-- What holds in every run of a controller with related capacities. -/
structure RunInv (env : Outside) (config : Config) (w : World) (hist : List Event) : Prop where
  good : Good env (hist.flatMap fun e => e.returned ++ e.erased) w
  limits : w.limits = (config.maxRetransmissionSz, config.retriablePktMapCap,
    max (min (min config.pktMapCapacity config.ackedSetCapacity) config.tentativeConsumeSz) 1,
    config.pktMapCapacity)
  small : config.retriablePktMapCap ≤ 2 ^ 30
  settled : Settled w
  fits : config.retriablePktMapCap ≤ config.pktMapCapacity ∨ Short w

variable {config : Config} {hist : List Event}

theorem RunInv.fresh (env : Outside) (h : Fresh config w) :
    RunInv env config w [] := by
  obtain ⟨hgood, hmade⟩ := h.spec env
  refine ⟨hgood, ?_, hmade.retriable_le, ⟨fun hne => ?_, fun hne => ?_⟩, .inr ?_⟩
  · simp only [World.limits, World.settings, hmade.retransmission, hmade.retriable, hmade.consume,
      hmade.map]
    simp [capacity, TemporalOrderedItemMap.make]
  · exact absurd hmade.first.1 hne
  · exact absurd hmade.second hne
  · unfold Short
    simp [hmade.first.1]

theorem RunInv.same (h : RunInv env config w hist) :
    w.controller.maxRetransmissionSz = config.maxRetransmissionSz ∧
    w.controller.retriablePktMapCap = config.retriablePktMapCap ∧
    w.controller.consumeSzPerLoad =
      max (min (min config.pktMapCapacity config.ackedSetCapacity) config.tentativeConsumeSz) 1 ∧
    w.controller.pktMap.capacity = config.pktMapCapacity := by
  simpa [World.limits, World.settings] using h.limits

theorem RunInv.retriable_lt (h : RunInv env config w hist) :
    w.controller.retriablePktMapCap < 2 ^ 64 := by
  rw [h.same.2.1]
  exact Nat.lt_of_le_of_lt h.small (by decide)

theorem RunInv.step {e : Event} {w' : World}
    (hconfig : Related config) (h : RunInv env config w hist) (hs : StepUpTo debug env w e w') :
    RunInv env config w' (hist ++ [e]) := by
  obtain ⟨hmax, hretriable, hconsume, hcap⟩ := h.same
  have hkeeps := Step.keeps debug h.good h.retriable_lt hs.1
  refine ⟨?_, hkeeps.limits.trans h.limits, h.small, hkeeps.settled h.settled, ?_⟩
  · rw [List.flatMap_append, List.flatMap_singleton]
    exact hkeeps.good
  · rcases h.fits with hle | hshort
    · exact .inl hle
    · rcases hconfig with hle | hfew | hnone
      · exact .inl hle
      · have := hs.2
        exact .inr (hkeeps.short (.inl (by omega)) hshort)
      · exact .inr (hkeeps.short (.inr (hmax.trans hnone)) hshort)

theorem RunInv.sound (h : RunInv env config w hist) :
    Sound debug env w hist := by
  obtain ⟨hmax, hretriable, hconsume, hcap⟩ := h.same
  have hfits : Fits w := by
    rcases h.fits with hle | hshort
    · left
      rw [hretriable, hcap]
      exact hle
    · exact .inr hshort
  refine ⟨h.good.size_le, h.settled, ?_, fun op hbatch hroom =>
    step_ok debug h.good h.retriable_lt hfits hbatch hroom⟩
  rw [succeeded_eq w (hist.flatMap fun e => e.returned ++ e.erased)]
  refine h.good.book.finished_perm.trans (List.Perm.append_left _ ?_)
  exact (List.flatMap_append_perm hist Event.returned Event.erased).symm

/-! ## A run that faults -/

/-- The capacities are not related. -/
structure Unrelated (config : Config) : Prop where
  retransmission : 0 < config.maxRetransmissionSz
  retriable : config.pktMapCapacity < config.retriablePktMapCap
  consume : 2 ≤ min (min config.pktMapCapacity config.ackedSetCapacity) config.tentativeConsumeSz
  small : config.retriablePktMapCap ≤ 2 ^ 30

theorem id_mem_iff {m : TemporalOrderedPacketMap} (hm : m.Inv packetIdExtractor)
    {pkts : List Packet} (hpkts : m.entries.map Prod.fst = pkts) (id : GlobalPacketIdentifier) :
    id ∈ m.ids ↔ ∃ pkt ∈ pkts, pkt.id = id := by
  rw [← hm.entries_ids, ← hpkts]
  simp [packetIdExtractor]

structure Filled (config : Config) (k : Nat) (w : World) : Prop where
  good : Good calm [] w
  limits : w.limits = (config.maxRetransmissionSz, config.retriablePktMapCap,
    max (min (min config.pktMapCapacity config.ackedSetCapacity) config.tentativeConsumeSz) 1,
    config.pktMapCapacity)
  kept : w.kept = (List.range k).map fun n => bump (numbered n)
  first : w.controller.pushWaitQueue1.items = []
  room : 0 < w.controller.pushWaitQueue1.cap
  second : w.controller.pushWaitQueue2.items = []
  acked : w.controller.ackedIdHashset.ids = []

variable {k : Nat}

theorem Filled.size (h : Filled config k w) :
    w.controller.pktMap.size = k := by
  have hlen := congrArg List.length h.kept
  rw [World.kept, List.length_map, h.good.map.length_entries] at hlen
  simpa using hlen

theorem Filled.same (h : Filled config k w) :
    w.controller.maxRetransmissionSz = config.maxRetransmissionSz ∧
    w.controller.retriablePktMapCap = config.retriablePktMapCap ∧
    w.controller.consumeSzPerLoad =
      max (min (min config.pktMapCapacity config.ackedSetCapacity) config.tentativeConsumeSz) 1 ∧
    w.controller.pktMap.capacity = config.pktMapCapacity := by
  simpa [World.limits, World.settings] using h.limits

theorem Filled.fresh (h : Fresh config w) : Filled config 0 w := by
  obtain ⟨hgood, hmade⟩ := h.spec calm
  refine ⟨hgood, (RunInv.fresh calm h).limits, ?_, hmade.first.1, hmade.first.2,
    hmade.second, hmade.acked.2⟩
  unfold World.kept
  rw [hmade.map]
  rfl

theorem numbered_id_inj {m n : Nat} (hm : m < 2 ^ 64) (hn : n < 2 ^ 64)
    (h : (numbered m).id = (numbered n).id) : m = n := by
  have := congrArg (fun id : GlobalPacketIdentifier => id.localPacketId.toNat) h
  simp only [numbered, BitVec.toNat_ofNat, Nat.mod_eq_of_lt hm, Nat.mod_eq_of_lt hn] at this
  exact this

theorem Filled.addOne (h : Filled config k w) (hconfig : Unrelated config) (n mapCap base : Nat)
    (s : Adding) :
    w.addOne debug calm 0 mapCap base s (numbered n) =
      if s.pktMap.size ≥ mapCap then
        .ok { s with
          cells := s.cells ++ [⟨numbered n, .success⟩]
          waitingQueue := s.waitingQueue ++ [base + s.cells.length] }
      else (do
        let (pktMap, err) ← s.pktMap.add debug packetIdExtractor (bump (numbered n)) 0
        .ok { s with pktMap := pktMap, cells := s.cells ++ [⟨numbered n, err⟩] }) := by
  have hcount : ¬ (numbered n).retransmissionCount.toNat ≥ w.controller.maxRetransmissionSz := by
    rw [h.same.1]
    exact Nat.not_le.2 hconfig.retransmission
  unfold World.addOne
  rw [if_neg hcount, show calm.keys = Keys.ofHash calm.hasher from rfl,
    Mailbox.TemporalFiniteUnorderedSet.contains_ok h.good.acked, ok_bind, if_neg (by simp [h.acked])]
  rfl

theorem Filled.add (h : Filled config k w) (hconfig : Unrelated config) (hk : k < config.pktMapCapacity) :
    ∃ w', StepUpTo debug calm w ⟨.addRetriables [numbered k] 0, [], []⟩ w' ∧
      Filled config (k + 1) w' := by
  obtain ⟨-, hretr, hconsume, hcap⟩ := h.same
  have hretriable := hconfig.retriable
  have hsmall := hconfig.small
  have hnew : packetIdExtractor (bump (numbered k)) ∉ w.controller.pktMap.ids := by
    rw [id_mem_iff h.good.map h.kept]
    rintro ⟨pkt, hpkt, he⟩
    obtain ⟨n, hn, rfl⟩ := List.mem_map.1 hpkt
    have hlt := List.mem_range.1 hn
    have := numbered_id_inj (by omega) (by omega) he
    omega
  have hroom : w.controller.pktMap.size ≠ w.controller.pktMap.capacity := by
    rw [h.size, hcap]
    omega
  obtain ⟨m, em, hm, hentries, hcapm, -⟩ :=
    (((add_ok debug h.good.map (bump (numbered k)) 0).resolve_left fun hold => hnew hold.1).resolve_left
      fun hfull => hroom hfull.2.1).2.2
  have hadd : w.addRetriables debug calm [numbered k] 0 =
      .ok (w.afterAdding ⟨m, [⟨numbered k, .success⟩], []⟩) := by
    unfold World.addRetriables addAll
    have hbatch : [numbered k].length ≤ w.controller.consumeSzPerLoad := by
      rw [hconsume]
      exact Nat.le_max_right _ _
    dsimp only
    rw [checkConsumeSize_ok fun _ => hbatch, ok_bind, List.foldlM_cons,
      h.addOne debug hconfig, if_neg (by rw [h.size, hretr, hcap]; omega)]
    rw [em]
    rfl
  have hstep : StepUpTo debug calm w ⟨.addRetriables [numbered k] 0, [], []⟩
      (w.afterAdding ⟨m, [⟨numbered k, .success⟩], []⟩) := by
    refine ⟨⟨?_, rfl⟩, ?_⟩
    · simp only [World.step, hadd]
      rfl
    · rw [hconsume]
      exact Nat.le_max_right _ _
  have hkeeps := Step.keeps debug h.good (hretr ▸ Nat.lt_of_le_of_lt hsmall (by decide)) hstep.1
  refine ⟨_, hstep, hkeeps.good, hkeeps.limits.trans h.limits, ?_, h.first, h.room, h.second,
    h.acked⟩
  show m.entries.map Prod.fst = _
  rw [hentries, List.map_append, List.range_succ, List.map_append]
  exact congrArg (· ++ _) h.kept

theorem Filled.reach (hconfig : Unrelated config) (h : Fresh config w) (hk : k ≤ config.pktMapCapacity) :
    ∃ w' hist, Reach (Fresh config) (StepUpTo debug calm) w' hist ∧ Filled config k w' := by
  induction k with
  | zero => exact ⟨w, [], .init h, .fresh h⟩
  | succ k ih =>
    obtain ⟨w1, hist, hreach, h1⟩ := ih (Nat.le_of_lt hk)
    obtain ⟨w2, hstep, h2⟩ := h1.add debug hconfig hk
    exact ⟨w2, _, hreach.step hstep, h2⟩

theorem Filled.wait (hconfig : Unrelated config)
    (h : Filled config config.pktMapCapacity w) :
    ∃ w' item, StepUpTo debug calm w
        ⟨.addRetriables [numbered config.pktMapCapacity, numbered (config.pktMapCapacity + 1)] 0,
          [], []⟩ w' ∧
      Good calm [] w' ∧ w'.limits = w.limits ∧ w'.kept = w.kept ∧
      w'.controller.pushWaitQueue1.items = [item] ∧ item.pktArr.length = 2 ∧
      w'.controller.pushWaitQueue2.items = [] := by
  obtain ⟨-, hretr, hconsume, hcap⟩ := h.same
  have htwo := hconfig.consume
  obtain ⟨waiting, hwaiting⟩ : ∃ waiting, waiting = [w.cells.length, w.cells.length + 1] := ⟨_, rfl⟩
  obtain ⟨s, hs⟩ : ∃ s : Adding, s = ⟨w.controller.pktMap,
    [⟨numbered config.pktMapCapacity, .success⟩,
      ⟨numbered (config.pktMapCapacity + 1), .success⟩], waiting⟩ := ⟨_, rfl⟩
  have hbatch : [numbered config.pktMapCapacity, numbered (config.pktMapCapacity + 1)].length ≤
      w.controller.consumeSzPerLoad := by
    show 2 ≤ w.controller.consumeSzPerLoad
    omega
  have hfull : w.controller.pktMap.size ≥
      min w.controller.retriablePktMapCap w.controller.pktMap.capacity := by
    rw [h.size, hcap]
    exact Nat.min_le_right _ _
  have hall : w.addAll debug calm 0
      (min w.controller.retriablePktMapCap w.controller.pktMap.capacity)
      [numbered config.pktMapCapacity, numbered (config.pktMapCapacity + 1)] = .ok s := by
    unfold addAll
    rw [checkConsumeSize_ok fun _ => hbatch, ok_bind, List.foldlM_cons, h.addOne debug hconfig,
      if_pos hfull, ok_bind, List.foldlM_cons, h.addOne debug hconfig, if_pos hfull, ok_bind, hs,
      hwaiting]
    rfl
  have hadd : w.addRetriables debug calm
      [numbered config.pktMapCapacity, numbered (config.pktMapCapacity + 1)] 0 =
      .ok ((w.afterAdding s).setQueue1 [⟨waiting, w.calls⟩]) := by
    have hroom : ¬ w.controller.pushWaitQueue1.size = w.controller.pushWaitQueue1.cap := by
      unfold Pow2CyclicQueue.size
      rw [h.first]
      exact Nat.ne_of_lt h.room
    have hne : ¬ s.waitingQueue = [] := by simp [hs, hwaiting]
    unfold World.addRetriables
    dsimp only
    rw [hall, ok_bind, if_neg hne]
    unfold Pow2CyclicQueue.pushBackNothrow
    rw [if_neg hroom, h.first, hs]
    rfl
  have hstep : StepUpTo debug calm w
      ⟨.addRetriables [numbered config.pktMapCapacity, numbered (config.pktMapCapacity + 1)] 0,
        [], []⟩ ((w.afterAdding s).setQueue1 [⟨waiting, w.calls⟩]) := by
    refine ⟨⟨?_, rfl⟩, hbatch⟩
    simp only [World.step, hadd]
    rfl
  have hkeeps := Step.keeps debug h.good
    (hretr ▸ Nat.lt_of_le_of_lt hconfig.small (by decide)) hstep.1
  refine ⟨_, ⟨waiting, w.calls⟩, hstep, hkeeps.good, hkeeps.limits, ?_, rfl, ?_, h.second⟩
  · rw [hs]
    rfl
  · rw [hwaiting]
    rfl

/-- **The next `ack` faults.** -/
theorem Unrelated.fault (hconfig : Unrelated config) (h : Fresh config w) :
    ∃ w' hist, Reach (Fresh config) (StepUpTo debug calm) w' hist ∧
      1 ≤ w'.controller.consumeSzPerLoad ∧
      w'.step debug calm (.ack [(numbered 0).id] coins) = .error (unreachable debug) := by
  obtain ⟨w1, hist, hreach, h1⟩ := Filled.reach debug hconfig h (Nat.le_refl _)
  obtain ⟨w2, item, hstep, hgood, hlimits, hkept, hfirst, hlen, hsecond⟩ :=
    h1.wait debug hconfig
  obtain ⟨w3, e3, h3⟩ := ackAll_ok debug hgood.map hgood.acked [(numbered 0).id]
  rw [h1.limits] at hlimits
  obtain ⟨-, hretr, hconsume, hcap⟩ : w2.controller.maxRetransmissionSz = _ ∧
      w2.controller.retriablePktMapCap = _ ∧ w2.controller.consumeSzPerLoad = _ ∧
      w2.controller.pktMap.capacity = _ := by
    simpa [World.limits, World.settings] using hlimits
  obtain ⟨n, hn⟩ : ∃ n, config.pktMapCapacity = n + 1 :=
    ⟨config.pktMapCapacity - 1, by have := hconfig.consume; omega⟩
  have hretriable := hconfig.retriable
  have hsmall := hconfig.small
  have hsize : w3.controller.pktMap.size = n := by
    have hrest : w3.kept = (List.range n).map fun k => bump (numbered (k + 1)) := by
      rw [h3.kept, hkept, h1.kept, hn, List.range_succ_eq_map, List.map_cons, List.map_map,
        List.filter_cons_of_neg (by simp [bump])]
      refine List.filter_eq_self.2 fun pkt hpkt => ?_
      obtain ⟨k, hk, rfl⟩ := List.mem_map.1 hpkt
      have hlt := List.mem_range.1 hk
      have hne : (numbered (k + 1)).id ≠ (numbered 0).id := fun he =>
        absurd (numbered_id_inj (by omega) (by omega) he) (Nat.succ_ne_zero k)
      simpa [bump] using hne
    have := congrArg List.length hrest
    rw [World.kept, List.length_map, h3.map.length_entries] at this
    simpa using this
  have hover : Oversized w3 := by
    have hretr3 : w3.controller.retriablePktMapCap = w2.controller.retriablePktMapCap := by
      rw [h3.same]
    refine ⟨?_, ?_, item, [], ?_, ?_⟩
    · rw [hsize, h3.cap, hcap, hn]
      exact Nat.lt_succ_self n
    · rw [h3.cap, hcap, hretr3, hretr]
      exact hretriable
    · rw [h3.same]
      exact hfirst
    · rw [hsize, h3.cap, hcap, hn, hlen]
      exact Nat.lt_succ_self (n + 1)
  have hsecond3 : w3.controller.pushWaitQueue2.items = [] := by
    rw [h3.same]
    exact hsecond
  have hsmall3 : w3.controller.retriablePktMapCap < 2 ^ 64 := by
    rw [h3.same]
    exact hretr ▸ Nat.lt_of_le_of_lt hsmall (by decide)
  have hbatch : [(numbered 0).id].length ≤ w2.controller.consumeSzPerLoad := by
    rw [hconsume]
    exact Nat.le_max_right _ _
  have hack : w2.ack debug calm [(numbered 0).id] coins = .error (unreachable debug) := by
    unfold World.ack
    rw [checkConsumeSize_ok fun _ => hbatch, ok_bind, e3, ok_bind,
      fulfillWaitQueue_fault debug hover hsecond3 hsmall3]
  refine ⟨w2, _, hreach.step hstep, hbatch, ?_⟩
  simp only [World.step, hack]
  rfl

end World

/-- **When the controller keeps its waiting invariants.** In every run with batches up to
`consumeSzPerLoad`, if and only if the bound for the first queue is at most the capacity of the map,
or no call can have two packets, or no packet is retriable. -/
theorem waiting_invariants_iff (debug : Bool) {config : Config}
    {c : MemoryEfficientRetransmissionController}
    (hc : getMemoryEfficientRetransmissionController config = .ok c) :
    (∀ env w hist, Reach (Fresh config) (StepUpTo debug env) w hist → Sound debug env w hist) ↔
      config.retriablePktMapCap ≤ config.pktMapCapacity ∨
      min (min config.pktMapCapacity config.ackedSetCapacity) config.tentativeConsumeSz ≤ 1 ∨
      config.maxRetransmissionSz = 0 := by
  constructor
  · intro hsound
    by_contra hnot
    rw [not_or, not_or] at hnot
    obtain ⟨hretriable, hconsume, hretransmission⟩ := hnot
    have hconfig : World.Unrelated config :=
      ⟨Nat.pos_of_ne_zero hretransmission, Nat.lt_of_not_le hretriable, Nat.lt_of_not_le hconsume,
        (World.made calm hc).retriable_le⟩
    obtain ⟨w, hist, hreach, hbatch, hfault⟩ :=
      hconfig.fault debug (w := ⟨c, [], 0, []⟩) ⟨c, hc, rfl⟩
    obtain ⟨r, hr⟩ :=
      (hsound calm w hist hreach).returns (.ack [(numbered 0).id] coins) hbatch trivial
    rw [hfault] at hr
    cases hr
  · intro hconfig env w hist hreach
    refine World.RunInv.sound debug (hreach.inv (World.RunInv env config) ?_ ?_)
    · exact fun w h => World.RunInv.fresh env h
    · exact fun w hist e w' h hs => h.step debug hconfig hs

theorem waiting_invariants_iff_one : ∃ (w : World) (hist : List Event),
    hist.map (·.op.batch) = [1, 1] ∧ w.waitPtrs = [1] ∧ Sound true calm w hist := by
  obtain ⟨c, hc, w, hrun, hwait⟩ : ∃ c, getMemoryEfficientRetransmissionController oneConfig = .ok c ∧
      ∃ w, [⟨.addRetriables [numbered 0] 0, [], []⟩, ⟨.addRetriables [numbered 1] 0, [], []⟩].foldlM
        (World.nextIf (fun w e => e.op.batch ≤ w.controller.consumeSzPerLoad) true calm)
          (⟨c, [], 0, []⟩ : World) = some w ∧ w.waitPtrs = [1] :=
    ⟨_, rfl, _, rfl, rfl⟩
  have hreach : Reach (Fresh oneConfig) (StepUpTo true calm) w _ :=
    (Reach.init ⟨c, hc, rfl⟩).foldlM World.nextIf_step hrun
  exact ⟨w, _, rfl, hwait, (waiting_invariants_iff true hc).2 (.inl (by decide)) calm w _ hreach⟩

/-- Two places in the map, and three for the first queue. -/
def wideConfig : Config := ⟨2, 2, 1, 3, 1, 1, 2⟩

/-- Two packets fill the map, two more wait, and an acknowledgement aborts. -/
theorem ack_aborts : ∃ w hist, Reach (Fresh wideConfig) (StepUpTo true calm) w hist ∧
    w.step true calm (.ack [(numbered 0).id] coins) = .error .abort := by
  obtain ⟨w0, h0, w, hrun, hack⟩ : ∃ w0, Fresh wideConfig w0 ∧ ∃ w,
      [⟨.addRetriables [numbered 0] 0, [], []⟩, ⟨.addRetriables [numbered 1] 0, [], []⟩,
        ⟨.addRetriables [numbered 2, numbered 3] 0, [], []⟩].foldlM
        (World.nextIf (fun w e => e.op.batch ≤ w.controller.consumeSzPerLoad) true calm) w0 =
          some w ∧
      w.step true calm (.ack [(numbered 0).id] coins) = .error .abort :=
    ⟨_, ⟨_, rfl, rfl⟩, _, rfl, rfl⟩
  exact ⟨w, _, (Reach.init h0).foldlM World.nextIf_step hrun, hack⟩

end Retransmission
