import NeuralNetwork.InternalRest.Proof.AckExpiryQueue
import NeuralNetwork.InternalRest.Proof.InBoundIdController
import NeuralNetwork.InternalRest.Mailbox.RetransmissionController
import NeuralNetwork.Lib.Ledger

/-!
# What the retransmission controller does with its packets

The packets of the callers, of the map and of the waiting queues are a ledger (`World.book`), and
every critical section is a sequence of its moves (`Turns`). The loop `fulfillWaitQueue` ends, with
nobody waiting who need not (`Settled`), unless it serves from the first queue a call with more
packets than the map has room for (`Oversized`).
-/

namespace Retransmission

open Cpp FlashStream HashChain CyclicUnordered ExpiryQueue Loop Mailbox

def countOf (pkt : Packet) : Nat := pkt.retransmissionCount.toNat

namespace World

/-! ## The ledger -/

def entryOf (cell : Cell) : Ledger.Cell Packet := ⟨bump cell.pkt, decide (cell.exception = .success)⟩

def page (cells : List Cell) (m : TemporalOrderedPacketMap) (waiting : List Nat)
    (gone : List Packet) : Ledger.Book Packet :=
  ⟨cells.map entryOf, m.entries.map Prod.fst, waiting, gone⟩

def book (w : World) (gone : List Packet) : Ledger.Book Packet :=
  page w.cells w.controller.pktMap w.waitPtrs gone

def placed (w : World) (m : TemporalOrderedPacketMap) (cells : List Cell) : World :=
  { w.setMap m with cells }

variable (debug : Bool) {env : Outside} {w w' : World} {gone : List Packet} {P : Packet → Prop}

variable {p : Nat} {pkt : Packet} {cells : List Cell} {s : Adding} {waiting : List Nat}
  {err : ExceptionT}

theorem cell_of_place {m : TemporalOrderedPacketMap} (h : Ledger.Inv (page cells m waiting gone))
    (hp : p ∈ waiting) :
    ∃ pkt, cells[p]? = some ⟨pkt, .success⟩ := by
  obtain ⟨v, hv⟩ := h.place p hp
  replace hv : (cells.map entryOf)[p]? = some ⟨v, true⟩ := hv
  rw [List.getElem?_map, Option.map_eq_some_iff] at hv
  obtain ⟨⟨pkt, exception⟩, hcell, he⟩ := hv
  obtain rfl : exception = .success := by simpa [entryOf] using congrArg Ledger.Cell.accepted he
  exact ⟨pkt, hcell⟩

theorem setException_success (h : w.cells[p]? = some ⟨pkt, .success⟩) :
    w.setException p .success = w := by
  unfold setException
  have hsame : w.cells.modify p (fun cell => { cell with exception := .success }) = w.cells := by
    refine List.ext_getElem? fun q => ?_
    rw [List.getElem?_modify]
    by_cases hpq : p = q
    · subst hpq
      rw [h]
      simp
    · simp [hpq]
  rw [hsame]

theorem entries_modify (h : cells[p]? = some ⟨pkt, .success⟩) (herr : isFailed err) :
    (cells.modify p fun cell => { cell with exception := err }).map entryOf =
      (cells.map entryOf).set p ⟨bump pkt, false⟩ := by
  refine List.ext_getElem? fun q => ?_
  rw [List.getElem?_map, List.getElem?_modify, List.getElem?_set, List.getElem?_map]
  by_cases hpq : p = q
  · subst hpq
    have hlt := (List.getElem?_eq_some_iff.1 h).1
    rw [h, if_pos rfl, if_pos (by simpa using hlt)]
    simp [entryOf, herr]
  · simp [hpq]

/-- The same packets, some of which were declined meanwhile. -/
def Same (cells cells' : List Cell) : Prop :=
  List.Forall₂ (fun a b => b.pkt = a.pkt ∧ (isFailed a.exception → b.exception = a.exception)) cells
    cells'

theorem Same.refl (cells : List Cell) : Same cells cells :=
  List.forall₂_same.2 fun _ _ => ⟨rfl, fun _ => rfl⟩

theorem Same.trans {a b c : List Cell} (h : Same a b) (h' : Same b c) : Same a c := by
  induction h generalizing c with
  | nil => exact h'
  | cons hab _ ih =>
    cases h' with
    | cons hbc h' =>
      refine .cons ⟨hbc.1.trans hab.1, fun hfailed => ?_⟩ (ih h')
      have heq := hab.2 hfailed
      exact (hbc.2 (heq ▸ hfailed)).trans heq

theorem Same.modify (h : cells[p]? = some ⟨pkt, .success⟩) (err : ExceptionT) :
    Same cells (cells.modify p fun cell => { cell with exception := err }) := by
  induction cells generalizing p with
  | nil => cases p <;> exact .nil
  | cons cell cells ih =>
    cases p with
    | zero =>
      cases h
      exact .cons ⟨rfl, fun hfailed => absurd rfl hfailed⟩ (Same.refl cells)
    | succ p => exact .cons ⟨rfl, fun _ => rfl⟩ (ih h)

/-- What is left of `w` when the packets `ps` move out of the waiting queues. -/
structure Leaves (w : World) (gone : List Packet) (P : Packet → Prop) (ps rest : List Nat)
    (m : TemporalOrderedPacketMap) (cells : List Cell) : Prop where
  map : m.Inv packetIdExtractor
  cap : m.capacity = w.controller.pktMap.capacity
  same : Same w.cells cells
  others : ∀ q, q ∉ ps → cells[q]? = w.cells[q]?
  steps : Ledger.Steps P (page w.cells w.controller.pktMap (ps ++ rest) gone) (page cells m rest gone)

theorem moveOne_ok (hm : w.controller.pktMap.Inv packetIdExtractor)
    (hb : Ledger.Inv (page w.cells w.controller.pktMap (p :: waiting) gone)) (now : Int) :
    ∃ m cells, moveOne debug env now w p = .ok (w.placed m cells) ∧
      Leaves w gone P [p] waiting m cells := by
  obtain ⟨pkt, hcell⟩ := cell_of_place hb List.mem_cons_self
  have hentry : (w.cells.map entryOf)[p]? = some ⟨bump pkt, true⟩ := by
    rw [List.getElem?_map, hcell]
    rfl
  have hdecline : ∀ err, isFailed err → Leaves w gone P [p] waiting w.controller.pktMap
      (w.cells.modify p fun cell => { cell with exception := err }) := by
    intro err herr
    refine ⟨hm, rfl, .modify hcell err, fun q hq => ?_, .single ?_⟩
    · exact List.getElem?_modify_ne _ _ fun he => hq (he ▸ List.mem_singleton.2 rfl)
    · unfold page
      rw [entries_modify hcell herr]
      exact .declineWaiting _ _ _ hentry
  unfold moveOne
  rw [hcell]
  dsimp only
  cases hdelay : env.delay pkt.retransmissionCount pkt.toAddr with
  | error err => exact ⟨_, _, rfl, hdecline err err.2⟩
  | ok delay =>
    dsimp only
    rcases TemporalOrderedItemMap.add_ok debug hm (bump pkt) (now + delay) with
      ⟨-, e⟩ | ⟨-, -, e⟩ | ⟨-, -, m, e, hm', hentries, hcap, -⟩
    · rw [e]
      exact ⟨_, _, rfl, hdecline .duplicatedEntry (by decide)⟩
    · rw [e]
      exact ⟨_, _, rfl, hdecline .resourceExhaustion (by decide)⟩
    · rw [e]
      refine ⟨m, w.cells, ?_, hm', hcap, .refl _, fun _ _ => rfl, .single ?_⟩
      · exact congrArg Except.ok (setException_success hcell)
      · unfold page
        rw [hentries, List.map_append]
        exact .keepWaiting _ _ _ hentry

theorem moveAll_ok {ps rest : List Nat} (hm : w.controller.pktMap.Inv packetIdExtractor)
    (hb : Ledger.Inv (page w.cells w.controller.pktMap (ps ++ rest) gone)) (now : Int) :
    ∃ m cells, ps.foldlM (moveOne debug env now) w = .ok (w.placed m cells) ∧
      Leaves w gone P ps rest m cells := by
  induction ps generalizing w with
  | nil => exact ⟨w.controller.pktMap, w.cells, rfl, hm, rfl, .refl _, fun _ _ => rfl, .refl⟩
  | cons p ps ih =>
    obtain ⟨m1, cells1, e1, h1⟩ := moveOne_ok debug (P := P) hm hb now
    obtain ⟨m2, cells2, e2, h2⟩ := ih (w := w.placed m1 cells1) h1.map (hb.steps h1.steps)
    refine ⟨m2, cells2, ?_, h2.map, h2.cap.trans h1.cap, h1.same.trans h2.same, fun q hq => ?_,
      h1.steps.trans h2.steps⟩
    · rw [List.foldlM_cons, e1]
      exact e2
    · rw [List.mem_cons, not_or] at hq
      exact (h2.others q hq.2).trans (h1.others q fun hm => hq.1 (List.mem_singleton.1 hm))

/-! ## Serving a waiting call -/

def items (w : World) : List RetransmissionWaitingItem :=
  w.controller.pushWaitQueue1.items ++ w.controller.pushWaitQueue2.items

theorem mem_waitPtrs : p ∈ w.waitPtrs ↔ ∃ item ∈ w.items, p ∈ item.pktArr :=
  List.mem_flatMap

/-- Any number of packets leave the waiting queues. -/
structure Served (w w' : World) : Prop where
  length : w'.cells.length = w.cells.length
  cells : ∀ p, p ∉ w.waitPtrs → w'.cells[p]? = w.cells[p]?
  items : ∀ item' ∈ w'.items, ∃ item ∈ w.items, item'.smp = item.smp ∧ item'.pktArr ⊆ item.pktArr
  waiting : (w.items.map (·.smp)).Perm w.waiting → (w'.items.map (·.smp)).Perm w'.waiting

theorem Served.of_same (hcells : w'.cells = w.cells) (hitems : w'.items = w.items)
    (hwaiting : w'.waiting = w.waiting) : Served w w' := by
  refine ⟨by rw [hcells], fun _ _ => by rw [hcells], fun item hm => ?_, fun hperm => ?_⟩
  · rw [hitems] at hm
    exact ⟨item, hm, rfl, List.Subset.refl _⟩
  · rw [hitems, hwaiting]
    exact hperm

theorem Served.refl (w : World) : Served w w := .of_same rfl rfl rfl

theorem Served.trans {w'' : World} (h : Served w w') (h' : Served w' w'') : Served w w'' := by
  refine ⟨h'.length.trans h.length, fun p hp => ?_, fun item'' hm => ?_,
    fun hperm => h'.waiting (h.waiting hperm)⟩
  · have hp' : p ∉ w'.waitPtrs := by
      intro hm
      obtain ⟨item', hm', hp'⟩ := mem_waitPtrs.1 hm
      obtain ⟨item, hm, -, hsub⟩ := h.items item' hm'
      exact hp (mem_waitPtrs.2 ⟨item, hm, hsub hp'⟩)
    exact (h'.cells p hp').trans (h.cells p hp)
  · obtain ⟨item', hm', hsmp', hsub'⟩ := h'.items item'' hm
    obtain ⟨item, hm, hsmp, hsub⟩ := h.items item' hm'
    exact ⟨item, hm, hsmp'.trans hsmp, fun _ hp => hsub (hsub' hp)⟩

structure Good (env : Outside) (gone : List Packet) (w : World) : Prop where
  map : w.controller.pktMap.Inv packetIdExtractor
  acked : w.controller.ackedIdHashset.Ordered env.hasher
  items : ∀ item ∈ w.controller.pushWaitQueue1.items ++ w.controller.pushWaitQueue2.items,
    item.pktArr ≠ []
  book : Ledger.Inv (w.book gone)

def settings (c : MemoryEfficientRetransmissionController) :
    Mailbox.TemporalFiniteUnorderedSet GlobalPacketIdentifier × Nat × Nat × Nat × Nat :=
  (c.ackedIdHashset, c.maxRetransmissionSz, c.retriablePktMapCap, c.consumeSzPerLoad,
    c.pktMap.capacity)

/-- The first queue has no call with more than one packet. -/
def Short (w : World) : Prop :=
  ∀ item ∈ w.controller.pushWaitQueue1.items, item.pktArr.length ≤ 1

structure Turns (env : Outside) (gone : List Packet) (P : Packet → Prop) (w w' : World) : Prop where
  good : Good env gone w'
  steps : Ledger.Steps P (w.book gone) (w'.book gone)
  settings : settings w'.controller = settings w.controller
  short : Short w → Short w'
  cells : Same w.cells w'.cells
  served : Served w w'

theorem Turns.refl (h : Good env gone w) : Turns env gone P w w :=
  ⟨h, .refl, rfl, fun h => h, .refl _, .refl w⟩

theorem Turns.trans {w'' : World} (h : Turns env gone P w w') (h' : Turns env gone P w' w'') :
    Turns env gone P w w'' :=
  ⟨h'.good, h.steps.trans h'.steps, h'.settings.trans h.settings, fun hs => h'.short (h.short hs),
    h.cells.trans h'.cells, h.served.trans h'.served⟩

def served (pushSz : Nat) (item : RetransmissionWaitingItem)
    (others : List RetransmissionWaitingItem) : List RetransmissionWaitingItem :=
  if pushSz = item.pktArr.length then others
  else { item with pktArr := item.pktArr.drop pushSz } :: others

section Served

variable {pushSz : Nat} {item : RetransmissionWaitingItem} {others : List RetransmissionWaitingItem}

theorem flatMap_served :
    (served pushSz item others).flatMap (·.pktArr) =
      item.pktArr.drop pushSz ++ others.flatMap (·.pktArr) := by
  unfold served
  split
  · rename_i hall
    rw [hall, List.drop_length, List.nil_append]
  · rw [List.flatMap_cons]

theorem mem_served {x : RetransmissionWaitingItem} (hle : pushSz ≤ item.pktArr.length)
    (hx : x ∈ served pushSz item others) :
    x ∈ others ∨ x.pktArr ≠ [] ∧ x.pktArr.length ≤ item.pktArr.length := by
  unfold served at hx
  split at hx
  · exact .inl hx
  · rename_i hnot
    rcases List.mem_cons.1 hx with rfl | hx
    · refine .inr ⟨fun hnil => ?_, ?_⟩
      · have := List.drop_eq_nil_iff.1 hnil
        omega
      · simp
    · exact .inl hx

theorem served_of_eq (h : pushSz = item.pktArr.length) : served pushSz item others = others := if_pos h

theorem served_of_ne (h : ¬ pushSz = item.pktArr.length) :
    served pushSz item others = { item with pktArr := item.pktArr.drop pushSz } :: others := if_neg h

variable {pre post : List RetransmissionWaitingItem}

/-- The call at the front of a queue is served, with the calls `pre` and `post` around it. -/
theorem Served.of_front (hitems : w.items = pre ++ item :: post)
    (hitems' : w'.items = pre ++ served pushSz item post) (hwaiting : w'.waiting =
      if pushSz = item.pktArr.length then w.waiting.erase item.smp else w.waiting)
    (hlen : w'.cells.length = w.cells.length)
    (hcells : ∀ q, q ∉ item.pktArr → w'.cells[q]? = w.cells[q]?) : Served w w' := by
  have hmem : item ∈ w.items := by
    rw [hitems]
    exact List.mem_append_right _ List.mem_cons_self
  refine ⟨hlen, fun p hp => hcells p fun hm => hp (mem_waitPtrs.2 ⟨item, hmem, hm⟩),
    fun item' hm => ?_, fun hperm => ?_⟩
  · have hold : ∀ x, x ∈ pre ∨ x ∈ post → x ∈ w.items := by
      intro x hx
      rw [hitems]
      rcases hx with hx | hx
      · exact List.mem_append_left _ hx
      · exact List.mem_append_right _ (List.mem_cons_of_mem _ hx)
    rw [hitems', List.mem_append] at hm
    unfold served at hm
    split at hm
    · exact ⟨item', hold item' hm, rfl, List.Subset.refl _⟩
    · rw [List.mem_cons] at hm
      rcases hm with hm | rfl | hm
      · exact ⟨item', hold item' (.inl hm), rfl, List.Subset.refl _⟩
      · exact ⟨item, hmem, rfl, List.drop_subset _ _⟩
      · exact ⟨item', hold item' (.inr hm), rfl, List.Subset.refl _⟩
  · rw [hitems, List.map_append, List.map_cons] at hperm
    rw [hitems', hwaiting]
    unfold served
    split
    · rw [List.map_append]
      exact List.cons_perm_iff_perm_erase.1 (List.perm_middle.symm.trans hperm) |>.2
    · rw [List.map_append, List.map_cons]
      exact hperm

/-- **A call is served**, the one between `pre` and `post` in the waiting queues. -/
theorem serve_ok (h : Good env gone w) (hitems : w.items = pre ++ item :: post)
    (hroom : w.controller.pktMap.size + pushSz ≤ w.controller.pktMap.capacity) (hpos : 0 < pushSz)
    (hle : pushSz ≤ item.pktArr.length) (now : Int) :
    ∃ m cells, w.moveToPktMap debug env now item pushSz = .ok (w.placed m cells,
        if pushSz = item.pktArr.length then none
        else some { item with pktArr := item.pktArr.drop pushSz }) ∧
      ∀ first second waiting, first ++ second = pre ++ served pushSz item post →
        (Short w → ∀ x ∈ first, x.pktArr.length ≤ 1) →
        waiting = (if pushSz = item.pktArr.length then w.waiting.erase item.smp else w.waiting) →
        Turns env gone P w { ((w.placed m cells).setQueue1 first).setQueue2 second with waiting } ∧
          ((first ++ second).flatMap (·.pktArr)).length < w.waitPtrs.length := by
  obtain ⟨rest, hrest⟩ : ∃ rest, rest = pre.flatMap (·.pktArr) ++ post.flatMap (·.pktArr) := ⟨_, rfl⟩
  have hperm : w.waitPtrs.Perm (item.pktArr ++ rest) := by
    show (w.items.flatMap _).Perm _
    rw [hitems, List.flatMap_append, List.flatMap_cons, hrest]
    exact List.perm_append_comm_assoc _ _ _
  have hfirst : Ledger.Next P (w.book gone)
      (page w.cells w.controller.pktMap (item.pktArr ++ rest) gone) :=
    .reorder _ _ (List.Perm.refl _) hperm
  have hb := h.book.next hfirst
  rw [← List.take_append_drop pushSz item.pktArr, List.append_assoc] at hb
  obtain ⟨m, cells, e, hl⟩ := moveAll_ok debug (P := P) h.map hb now
  have hsteps := hl.steps
  rw [← List.append_assoc, List.take_append_drop] at hsteps
  refine ⟨m, cells, ?_, fun first second waiting hqueues hshort hwaiting => ?_⟩
  · unfold moveToPktMap
    rw [if_neg (by omega), e, ok_bind]
    split <;> rfl
  have hafter : ((first ++ second).flatMap (·.pktArr)).Perm (item.pktArr.drop pushSz ++ rest) := by
    rw [hqueues, List.flatMap_append, flatMap_served, hrest]
    exact List.perm_append_comm_assoc _ _ _
  have hs : Ledger.Steps P (w.book gone)
      (page cells m ((first ++ second).flatMap (·.pktArr)) gone) :=
    (Relation.ReflTransGen.head hfirst hsteps).tail (.reorder _ _ (List.Perm.refl _) hafter.symm)
  refine ⟨⟨⟨hl.map, h.acked, fun x hx => ?_, h.book.steps hs⟩, hs, ?_, hshort, hl.same, ?_⟩, ?_⟩
  · have hold : ∀ y ∈ pre ++ item :: post, y.pktArr ≠ [] := fun y hy =>
      h.items y (show y ∈ w.items from hitems.symm ▸ hy)
    replace hx : x ∈ pre ++ served pushSz item post := hqueues ▸ hx
    rcases List.mem_append.1 hx with hx | hx
    · exact hold x (List.mem_append_left _ hx)
    · rcases mem_served hle hx with hx | hx
      · exact hold x (List.mem_append_right _ (List.mem_cons_of_mem _ hx))
      · exact hx.1
  · simp [World.settings, setQueue1, setQueue2, placed, setMap, hl.cap]
  · refine .of_front hitems hqueues hwaiting hl.same.length_eq.symm fun q hq => ?_
    exact hl.others q fun hm => hq (List.mem_of_mem_take hm)
  · rw [hafter.length_eq, hperm.length_eq, List.length_append, List.length_append, List.length_drop]
    omega

end Served

theorem fulfillOnePushWaitQueue2_ok (h : Good env gone w)
    (hroom : w.controller.pktMap.size < w.controller.pktMap.capacity)
    (hne : w.controller.pushWaitQueue2.items ≠ []) (now : Int) :
    ∃ w', w.fulfillOnePushWaitQueue2 debug env now = .ok w' ∧ Turns env gone P w w' ∧
      w'.waitPtrs.length < w.waitPtrs.length := by
  obtain ⟨item, others, hq⟩ := List.exists_cons_of_ne_nil hne
  have hsub := subT_of_le (Nat.le_of_lt hroom) h.map.bound
  obtain ⟨k, hk⟩ : ∃ k, k = min (w.controller.pktMap.capacity - w.controller.pktMap.size)
    item.pktArr.length := ⟨_, rfl⟩
  have hpos : 0 < item.pktArr.length := List.length_pos_iff.2 (h.items item (by simp [hq]))
  have hitems : w.items = w.controller.pushWaitQueue1.items ++ item :: others := by rw [items, hq]
  obtain ⟨m, cells, e, hserved⟩ := serve_ok debug (P := P) h hitems
    (show w.controller.pktMap.size + k ≤ _ by omega) (by omega) (by omega) now
  unfold fulfillOnePushWaitQueue2
  rw [hq]
  dsimp only
  rw [hsub, ← hk, e, ok_bind]
  by_cases hall : k = item.pktArr.length
  · rw [if_pos hall]
    exact ⟨_, rfl, hserved w.controller.pushWaitQueue1.items others _ (by rw [served_of_eq hall]) id
      (if_pos hall).symm⟩
  · rw [if_neg hall]
    exact ⟨_, rfl, hserved w.controller.pushWaitQueue1.items (_ :: others) _ (by rw [served_of_ne hall]) id
      (if_neg hall).symm⟩

/-- The front of the first queue has more packets than the map has room for, and the bound for the
first queue is above the capacity. -/
def Oversized (w : World) : Prop :=
  w.controller.pktMap.size < w.controller.pktMap.capacity ∧
  w.controller.pktMap.capacity < w.controller.retriablePktMapCap ∧
  ∃ item others, w.controller.pushWaitQueue1.items = item :: others ∧
    w.controller.pktMap.capacity < w.controller.pktMap.size + item.pktArr.length

theorem fulfillOnePushWaitQueue1_cases (h : Good env gone w)
    (hroom : w.controller.pktMap.size < w.controller.pktMap.capacity)
    (hretriable : w.controller.pktMap.size < w.controller.retriablePktMapCap)
    (hsmall : w.controller.retriablePktMapCap < 2 ^ 64)
    (hne : w.controller.pushWaitQueue1.items ≠ []) (now : Int) :
    (∃ w', w.fulfillOnePushWaitQueue1 debug env now = .ok w' ∧ Turns env gone P w w' ∧
      w'.waitPtrs.length < w.waitPtrs.length) ∨
    (w.fulfillOnePushWaitQueue1 debug env now = .error (unreachable debug) ∧ Oversized w) := by
  obtain ⟨item, others, hq⟩ := List.exists_cons_of_ne_nil hne
  have hsub := subT_of_le (Nat.le_of_lt hretriable) hsmall
  obtain ⟨k, hk⟩ : ∃ k, k = min (w.controller.retriablePktMapCap - w.controller.pktMap.size)
    item.pktArr.length := ⟨_, rfl⟩
  have hpos : 0 < item.pktArr.length := List.length_pos_iff.2 (h.items item (by simp [hq]))
  unfold fulfillOnePushWaitQueue1
  rw [hq]
  dsimp only
  rw [if_neg (by omega), hsub, ← hk]
  by_cases hfit : w.controller.pktMap.size + k ≤ w.controller.pktMap.capacity
  case neg =>
    refine .inr ⟨?_, hroom, by omega, item, others, hq, by omega⟩
    unfold moveToPktMap
    rw [if_pos (.inl (by omega))]
    rfl
  left
  have hle : k ≤ item.pktArr.length := by omega
  have hitems : w.items = [] ++ item :: (others ++ w.controller.pushWaitQueue2.items) := by
    rw [items, hq]
    rfl
  have hshort : Short w → ∀ x ∈ served k item others, x.pktArr.length ≤ 1 := by
    intro hshort x hx
    rcases mem_served hle hx with hx | hx
    · exact hshort x (hq ▸ List.mem_cons_of_mem _ hx)
    · exact Nat.le_trans hx.2 (hshort item (hq ▸ List.mem_cons_self))
  obtain ⟨m, cells, e, hserved⟩ := serve_ok debug (P := P) h hitems hfit (by omega) hle now
  rw [e, ok_bind]
  by_cases hall : k = item.pktArr.length
  · rw [served_of_eq hall] at hshort
    rw [if_pos hall]
    exact ⟨_, rfl, hserved others w.controller.pushWaitQueue2.items _ (by rw [served_of_eq hall]; rfl) hshort
      (if_pos hall).symm⟩
  · rw [served_of_ne hall] at hshort
    rw [if_neg hall]
    exact ⟨_, rfl, hserved (_ :: others) w.controller.pushWaitQueue2.items _ (by rw [served_of_ne hall]; rfl)
      hshort (if_neg hall).symm⟩

/-! ## fulfill_wait_queue -/

structure Settled (w : World) : Prop where
  first : w.controller.pushWaitQueue1.items ≠ [] →
    min w.controller.retriablePktMapCap w.controller.pktMap.capacity ≤ w.controller.pktMap.size
  second : w.controller.pushWaitQueue2.items ≠ [] →
    w.controller.pktMap.size = w.controller.pktMap.capacity

theorem Good.size_le (h : Good env gone w) :
    w.controller.pktMap.size ≤ w.controller.pktMap.capacity := h.map.size_le

theorem fulfillRound_cases (h : Good env gone w)
    (hsmall : w.controller.retriablePktMapCap < 2 ^ 64) (round : Round) :
    (w.fulfillRound debug env round = .ok (.done w) ∧ Settled w) ∨
    (∃ w', w.fulfillRound debug env round = .ok (.yield w') ∧ Turns env gone P w w' ∧
      w'.waitPtrs.length < w.waitPtrs.length) ∨
    (∃ fault, w.fulfillRound debug env round = .error fault ∧ Oversized w) := by
  have hle := h.size_le
  unfold fulfillRound
  by_cases hfull : w.controller.pktMap.size = w.controller.pktMap.capacity
  · rw [if_pos hfull]
    exact .inl ⟨rfl, fun _ => by omega, fun _ => hfull⟩
  rw [if_neg hfull]
  have hroom : w.controller.pktMap.size < w.controller.pktMap.capacity := by omega
  have hserve2 : w.controller.pushWaitQueue2.items ≠ [] →
      ∃ w', ForInStep.yield <$> w.fulfillOnePushWaitQueue2 debug env round.now = .ok (.yield w') ∧
        Turns env gone P w w' ∧ w'.waitPtrs.length < w.waitPtrs.length := by
    intro hne
    obtain ⟨w', e, hturns, hless⟩ := fulfillOnePushWaitQueue2_ok debug (P := P) h hroom hne round.now
    exact ⟨w', by rw [e]; rfl, hturns, hless⟩
  by_cases hretriable : w.controller.pktMap.size ≥ w.controller.retriablePktMapCap
  · rw [if_pos hretriable]
    by_cases hempty2 : w.controller.pushWaitQueue2.items = []
    · rw [if_pos hempty2]
      exact .inl ⟨rfl, fun _ => by omega, fun hne => absurd hempty2 hne⟩
    · rw [if_neg hempty2]
      exact .inr (.inl (hserve2 hempty2))
  rw [if_neg hretriable]
  by_cases hempty1 : w.controller.pushWaitQueue1.items = []
  · rw [if_pos hempty1]
    by_cases hempty2 : w.controller.pushWaitQueue2.items = []
    · rw [if_pos hempty2]
      exact .inl ⟨rfl, fun hne => absurd hempty1 hne, fun hne => absurd hempty2 hne⟩
    · rw [if_neg hempty2]
      exact .inr (.inl (hserve2 hempty2))
  rw [if_neg hempty1]
  have hserve1 : (∃ w', ForInStep.yield <$> w.fulfillOnePushWaitQueue1 debug env round.now =
        .ok (.yield w') ∧ Turns env gone P w w' ∧ w'.waitPtrs.length < w.waitPtrs.length) ∨
      ∃ fault, ForInStep.yield <$> w.fulfillOnePushWaitQueue1 debug env round.now =
        .error fault ∧ Oversized w := by
    rcases fulfillOnePushWaitQueue1_cases debug (P := P) h hroom (by omega) hsmall hempty1
      round.now with ⟨w', e, hturns, hless⟩ | ⟨e, hover⟩
    · exact .inl ⟨w', by rw [e]; rfl, hturns, hless⟩
    · exact .inr ⟨_, by rw [e]; rfl, hover⟩
  by_cases hempty2 : w.controller.pushWaitQueue2.items = []
  · rw [if_pos hempty2]
    exact .inr hserve1
  rw [if_neg hempty2]
  split
  · split
    · exact .inr hserve1
    · exact .inr (.inl (hserve2 hempty2))
  · exact .inr hserve1

/-- No call of the first queue can be too large for the map. -/
def Fits (w : World) : Prop :=
  w.controller.retriablePktMapCap ≤ w.controller.pktMap.capacity ∨ Short w

theorem Fits.not_oversized (h : Fits w) : ¬ Oversized w := by
  rintro ⟨hroom, hlt, item, others, hq, hgt⟩
  rcases h with h | h
  · omega
  · have := h item (hq ▸ List.mem_cons_self)
    omega

theorem Turns.same (h : Turns env gone P w w') :
    w'.controller.retriablePktMapCap = w.controller.retriablePktMapCap ∧
      w'.controller.pktMap.capacity = w.controller.pktMap.capacity := by
  have := h.settings
  simp only [World.settings, Prod.mk.injEq] at this
  exact ⟨this.2.2.1, this.2.2.2.2⟩

theorem Turns.fits (h : Turns env gone P w w') (hf : Fits w) : Fits w' := by
  obtain ⟨hretriable, hcap⟩ := h.same
  rcases hf with hf | hf
  · exact .inl (by rw [hretriable, hcap]; exact hf)
  · exact .inr (h.short hf)

def loopBody (debug : Bool) (env : Outside) (rounds : Nat → Round) (s : Nat × World) :
    Except Fault (ForInStep (Nat × World)) := do
  match ← s.2.fulfillRound debug env (rounds s.1) with
  | .done w => .ok (.done (s.1, w))
  | .yield w => .ok (.yield (s.1 + 1, w))

/-- **The loop ends, with nobody waiting who need not.** -/
theorem fulfillWaitQueue_ok (h : Good env gone w)
    (hsmall : w.controller.retriablePktMapCap < 2 ^ 64) (hfits : Fits w) (rounds : Nat → Round) :
    ∃ w', w.fulfillWaitQueue debug env rounds = .ok w' ∧ Turns env gone P w w' ∧ Settled w' := by
  obtain ⟨s, e, hs⟩ : ∃ s, whileLoop Fault.outOfFuel (loopBody debug env rounds)
      (w.waitPtrs.length + 1) (0, w) = .ok s ∧ Turns env gone P w s.2 ∧ Settled s.2 := by
    refine whileLoop_ok (fun s : Nat × World => Turns env gone P w s.2)
      (fun s => Turns env gone P w s.2 ∧ Settled s.2) (fun s => s.2.waitPtrs.length)
      (Turns.refl h) (Nat.lt_succ_self _) fun s hs => ?_
    unfold loopBody
    rcases fulfillRound_cases debug (P := P) hs.good (hs.same.1 ▸ hsmall) (rounds s.1) with
      ⟨e, hsettled⟩ | ⟨w1, e, hturns, hless⟩ | ⟨fault, -, hover⟩
    · rw [e]
      exact .inr ⟨_, rfl, hs, hsettled⟩
    · rw [e]
      exact .inl ⟨_, rfl, hs.trans hturns, hless⟩
    · exact absurd hover (hs.fits hfits).not_oversized
  refine ⟨s.2, ?_, hs⟩
  show Prod.snd <$> whileLoop _ (loopBody debug env rounds) _ _ = _
  rw [e]
  rfl

theorem fulfillWaitQueue_inv (h : Good env gone w)
    (hsmall : w.controller.retriablePktMapCap < 2 ^ 64) {rounds : Nat → Round}
    (e : w.fulfillWaitQueue debug env rounds = .ok w') : Turns env gone P w w' ∧ Settled w' := by
  replace e : Prod.snd <$> whileLoop .outOfFuel (loopBody debug env rounds)
    (w.waitPtrs.length + 1) (0, w) = .ok w' := e
  cases hloop : whileLoop .outOfFuel (loopBody debug env rounds) (w.waitPtrs.length + 1) (0, w) with
  | error fault =>
    rw [hloop] at e
    cases e
  | ok s =>
    rw [hloop] at e
    cases e
    refine whileLoop_inv (fun s : Nat × World => Turns env gone P w s.2)
      (fun s => Turns env gone P w s.2 ∧ Settled s.2) hloop (Turns.refl h) ?_ ?_
    · intro s1 s2 e1 h1
      unfold loopBody at e1
      rcases fulfillRound_cases debug (P := P) h1.good (h1.same.1 ▸ hsmall) (rounds s1.1) with
        ⟨e, hsettled⟩ | ⟨w1, e, hturns, hless⟩ | ⟨fault, e, hover⟩
      · rw [e] at e1
        cases e1
      · rw [e] at e1
        cases e1
        exact h1.trans hturns
      · rw [e] at e1
        cases e1
    · intro s1 s2 e1 h1
      unfold loopBody at e1
      rcases fulfillRound_cases debug (P := P) h1.good (h1.same.1 ▸ hsmall) (rounds s1.1) with
        ⟨e, hsettled⟩ | ⟨w1, e, hturns, hless⟩ | ⟨fault, e, hover⟩
      · rw [e] at e1
        cases e1
        exact ⟨h1, hsettled⟩
      · rw [e] at e1
        cases e1
      · rw [e] at e1
        cases e1

/-! ## add_retriables, reentrant_add_retriables -/

/-- What is accepted: ids that are not in the set of acknowledged ones. -/
def NotAcked (w : World) (pkt : Packet) : Prop := pkt.id ∉ w.controller.ackedIdHashset.ids

def Offered (limit : Nat) (pkt : Packet) (cell : Cell) : Prop :=
  cell.pkt = pkt ∧ (cell.exception = .success → countOf pkt < limit) ∧
    (limit ≤ countOf pkt → cell.exception = .socketMaxRetransmissionReached)

def addingBook (w : World) (gone : List Packet) (s : Adding) : Ledger.Book Packet :=
  page (w.cells ++ s.cells) s.pktMap (w.waitPtrs ++ s.waitingQueue) gone

/-- What the loop over the packets of a call keeps, after `pkts`. -/
structure Added (w : World) (gone : List Packet) (mapCap : Nat) (pkts : List Packet) (s : Adding) :
    Prop where
  map : s.pktMap.Inv packetIdExtractor
  cap : s.pktMap.capacity = w.controller.pktMap.capacity
  grows : w.controller.pktMap.size ≤ s.pktMap.size
  steps : Ledger.Steps w.NotAcked (w.book gone) (w.addingBook gone s)
  offered : List.Forall₂ (Offered w.controller.maxRetransmissionSz) pkts s.cells
  range : ∀ p ∈ s.waitingQueue, w.cells.length ≤ p ∧ p < w.cells.length + s.cells.length
  full : s.waitingQueue ≠ [] → mapCap ≤ s.pktMap.size
  short : s.waitingQueue.length ≤ s.cells.length
  none : w.controller.maxRetransmissionSz = 0 → s.waitingQueue = []

variable {mapCap : Nat} {pkts : List Packet}

theorem Added.next {s s' : Adding} (h : Added w gone mapCap pkts s)
    (hcells : s'.cells = s.cells ++ [⟨pkt, err⟩])
    (ho : Offered w.controller.maxRetransmissionSz pkt ⟨pkt, err⟩)
    (hn : Ledger.Next w.NotAcked (w.addingBook gone s) (w.addingBook gone s'))
    (hm : s'.pktMap.Inv packetIdExtractor) (hcap : s'.pktMap.capacity = s.pktMap.capacity)
    (hgrows : s.pktMap.size ≤ s'.pktMap.size) (hw : s'.waitingQueue = s.waitingQueue ∨
      s'.waitingQueue = s.waitingQueue ++ [w.cells.length + s.cells.length] ∧
        mapCap ≤ s'.pktMap.size ∧ w.controller.maxRetransmissionSz ≠ 0) :
    Added w gone mapCap (pkts ++ [pkt]) s' where
  map := hm
  cap := hcap.trans h.cap
  grows := Nat.le_trans h.grows hgrows
  steps := h.steps.tail hn
  offered := hcells ▸ List.rel_append h.offered (.cons ho .nil)
  range p hp := by
    rw [hcells, List.length_append, List.length_singleton]
    have hold : ∀ p ∈ s.waitingQueue, w.cells.length ≤ p ∧ p < w.cells.length + (s.cells.length + 1) :=
      fun p hp => ⟨(h.range p hp).1, by have := (h.range p hp).2; omega⟩
    rcases hw with hw | ⟨hw, -⟩
    · exact hold p (hw ▸ hp)
    · rw [hw] at hp
      rcases List.mem_append.1 hp with hp | hp
      · exact hold p hp
      · rw [List.mem_singleton] at hp
        omega
  full hne := by
    rcases hw with hw | ⟨-, hfull, -⟩
    · exact Nat.le_trans (h.full (hw ▸ hne)) hgrows
    · exact hfull
  short := by
    have := h.short
    rw [hcells, List.length_append, List.length_singleton]
    rcases hw with hw | ⟨hw, -⟩
    · rw [hw]
      omega
    · rw [hw, List.length_append, List.length_singleton]
      omega
  none h0 := by
    rcases hw with hw | ⟨-, -, hlimit⟩
    · exact hw.trans (h.none h0)
    · exact absurd h0 hlimit

theorem entries_append (w : World) (s : Adding) (pkt : Packet) (err : ExceptionT) :
    (w.cells ++ (s.cells ++ [(⟨pkt, err⟩ : Cell)])).map entryOf =
      (w.cells ++ s.cells).map entryOf ++ [⟨bump pkt, decide (err = .success)⟩] := by
  rw [← List.append_assoc, List.map_append]
  rfl

theorem addOne_ok (hacked : w.controller.ackedIdHashset.Ordered env.hasher)
    (h : Added w gone mapCap pkts s) (now : Int) (pkt : Packet) :
    ∃ s', w.addOne debug env now mapCap w.cells.length s pkt = .ok s' ∧
      Added w gone mapCap (pkts ++ [pkt]) s' := by
  have hdecline : ∀ err, isFailed err → Offered w.controller.maxRetransmissionSz pkt ⟨pkt, err⟩ →
      Added w gone mapCap (pkts ++ [pkt]) { s with cells := s.cells ++ [⟨pkt, err⟩] } := by
    intro err herr ho
    refine h.next rfl ho ?_ h.map rfl (Nat.le_refl _) (.inl rfl)
    unfold addingBook page
    rw [entries_append, decide_eq_false herr]
    exact .decline _ _ _ _ _
  unfold addOne
  by_cases hcount : pkt.retransmissionCount.toNat ≥ w.controller.maxRetransmissionSz
  · rw [if_pos hcount]
    have hfailed : ExceptionT.socketMaxRetransmissionReached ≠ .success := by decide
    exact ⟨_, rfl, hdecline _ hfailed ⟨rfl, fun hs => absurd hs hfailed, fun _ => rfl⟩⟩
  have hbelow : countOf pkt < w.controller.maxRetransmissionSz := Nat.not_le.1 hcount
  have hoffered : ∀ err, Offered w.controller.maxRetransmissionSz pkt ⟨pkt, err⟩ := fun err =>
    ⟨rfl, fun _ => hbelow, fun hle => absurd hle (Nat.not_le.2 hbelow)⟩
  rw [if_neg hcount, show env.keys = Keys.ofHash env.hasher from rfl,
    Mailbox.TemporalFiniteUnorderedSet.contains_ok hacked, ok_bind]
  by_cases hid : pkt.id ∈ w.controller.ackedIdHashset.ids
  · rw [decide_eq_true hid, if_pos rfl]
    exact ⟨_, rfl, hdecline _ (by decide) (hoffered _)⟩
  rw [decide_eq_false hid, if_neg (by simp)]
  have hfree : w.NotAcked (bump pkt) := hid
  cases hdelay : env.delay pkt.retransmissionCount pkt.toAddr with
  | error err => exact ⟨_, rfl, hdecline err err.2 (hoffered _)⟩
  | ok delay =>
    dsimp only
    by_cases hfull : s.pktMap.size ≥ mapCap
    · rw [if_pos hfull]
      refine ⟨_, rfl, h.next rfl (hoffered _) ?_ h.map rfl (Nat.le_refl _)
        (.inr ⟨rfl, hfull, (Nat.zero_lt_of_lt hbelow).ne'⟩)⟩
      unfold addingBook page
      have hplace : w.cells.length + s.cells.length = ((w.cells ++ s.cells).map entryOf).length := by
        simp
      rw [entries_append, hplace, ← List.append_assoc]
      exact .wait _ _ _ _ hfree
    rw [if_neg hfull]
    rcases TemporalOrderedItemMap.add_ok debug h.map (bump pkt) (now + delay) with
      ⟨-, e⟩ | ⟨-, -, e⟩ | ⟨-, -, m, e, hm', hentries, hcap, -⟩
    · rw [e]
      exact ⟨_, rfl, hdecline .duplicatedEntry (by decide) (hoffered _)⟩
    · rw [e]
      exact ⟨_, rfl, hdecline .resourceExhaustion (by decide) (hoffered _)⟩
    · rw [e]
      refine ⟨_, rfl, h.next rfl (hoffered _) ?_ hm' hcap ?_ (.inl rfl)⟩
      · have hkept : m.entries.map Prod.fst = s.pktMap.entries.map Prod.fst ++ [bump pkt] := by
          rw [hentries, List.map_append]
          rfl
        unfold addingBook page
        rw [entries_append, hkept]
        exact .keep _ _ _ _ hfree
      · rw [← hm'.length_entries, ← h.map.length_entries, hentries, List.length_append]
        exact Nat.le_add_right _ _

theorem addLoop_ok (hacked : w.controller.ackedIdHashset.Ordered env.hasher)
    (h : Added w gone mapCap pkts s) (now : Int) (pktArr : List Packet) :
    ∃ s', pktArr.foldlM (w.addOne debug env now mapCap w.cells.length) s = .ok s' ∧
      Added w gone mapCap (pkts ++ pktArr) s' := by
  induction pktArr generalizing s pkts with
  | nil => exact ⟨s, rfl, (List.append_nil pkts).symm ▸ h⟩
  | cons pkt pktArr ih =>
    obtain ⟨s1, e1, h1⟩ := addOne_ok debug hacked h now pkt
    obtain ⟨s2, e2, h2⟩ := ih h1
    rw [List.append_assoc] at h2
    refine ⟨s2, ?_, h2⟩
    rw [List.foldlM_cons, e1]
    exact e2

theorem addAll_cases (h : Good env gone w) (now : Int) (mapCap : Nat) (pktArr : List Packet) :
    (∃ s, w.addAll debug env now mapCap pktArr = .ok s ∧ Added w gone mapCap pktArr s) ∨
    (∃ fault, w.addAll debug env now mapCap pktArr = .error fault ∧
      w.controller.consumeSzPerLoad < pktArr.length) := by
  have h0 : Added w gone mapCap [] ⟨w.controller.pktMap, [], []⟩ := by
    refine ⟨h.map, rfl, Nat.le_refl _, ?_, .nil, fun p hp => absurd hp List.not_mem_nil,
      fun hne => absurd rfl hne, Nat.le_refl _, fun _ => rfl⟩
    unfold addingBook
    rw [List.append_nil, List.append_nil]
    exact .refl
  unfold addAll checkConsumeSize
  split
  · rename_i hc
    exact .inr ⟨_, rfl, hc.2⟩
  · exact .inl (addLoop_ok debug h.acked h0 now pktArr)

/-- What a critical section that is given `n` packets does with the cells and the waiting calls. -/
structure Outcome (n : Nat) (w w' : World) : Prop where
  length : w'.cells.length = w.cells.length + n
  cells : ∀ p < w.cells.length, p ∉ w.waitPtrs → w'.cells[p]? = w.cells[p]?
  items : ∀ item' ∈ w'.items,
    (∃ item ∈ w.items, item'.smp = item.smp ∧ item'.pktArr ⊆ item.pktArr) ∨
      item'.smp = w.calls ∧ ∀ p ∈ item'.pktArr, w.cells.length ≤ p ∧ p < w.cells.length + n
  waiting : (w.items.map (·.smp)).Perm w.waiting → (w'.items.map (·.smp)).Perm w'.waiting

theorem Served.outcome (h : Served w w') : Outcome 0 w w' :=
  ⟨h.length, fun p _ hp => h.cells p hp, fun item hm => .inl (h.items item hm), h.waiting⟩

/-- What a critical section that adds packets keeps. -/
structure Grown (env : Outside) (gone pktArr : List Packet) (w w' : World) : Prop where
  good : Good env gone w'
  steps : Ledger.Steps w.NotAcked (w.book gone) (w'.book gone)
  settings : settings w'.controller = settings w.controller
  settled : Settled w → Settled w'
  short : pktArr.length ≤ 1 ∨ w.controller.maxRetransmissionSz = 0 → Short w → Short w'
  cells : ∃ new, w'.cells = w.cells ++ new ∧
    List.Forall₂ (Offered w.controller.maxRetransmissionSz) pktArr new
  outcome : Outcome pktArr.length w w'

def queued (w : World) (s : Adding) (first second : List RetransmissionWaitingItem) : World :=
  ((w.afterAdding s).setQueue1 first).setQueue2 second

def newItems (w : World) (s : Adding) : List RetransmissionWaitingItem :=
  if s.waitingQueue = [] then [] else [⟨s.waitingQueue, w.calls⟩]

theorem Added.outcome (ha : Added w gone mapCap pkts s) {first second : List RetransmissionWaitingItem}
    (hperm : (first ++ second).Perm (w.items ++ w.newItems s)) :
    Outcome pkts.length w (w.queued s first second) := by
  have hlen := ha.offered.length_eq
  refine ⟨?_, fun p hp _ => List.getElem?_append_left hp, fun item hm => ?_, fun hwait => ?_⟩
  · show (w.cells ++ s.cells).length = _
    rw [List.length_append, hlen]
  · rcases List.mem_append.1 (hperm.mem_iff.1 hm) with hm | hm
    · exact .inl ⟨item, hm, rfl, List.Subset.refl _⟩
    · unfold newItems at hm
      split at hm
      · cases hm
      · obtain rfl := List.mem_singleton.1 hm
        exact .inr ⟨rfl, hlen ▸ ha.range⟩
  · have hwaiting : (w.queued s first second).waiting =
        if s.waitingQueue = [] then w.waiting else w.waiting ++ [w.calls] := rfl
    refine (hperm.map _).trans ?_
    rw [hwaiting, List.map_append, newItems]
    split
    · rw [List.map_nil, List.append_nil]
      exact hwait
    · exact hwait.append_right _

theorem Added.grown (h : Good env gone w) (ha : Added w gone mapCap pkts s)
    (first second : List RetransmissionWaitingItem)
    (hperm : (first ++ second).Perm (w.items ++ w.newItems s))
    (hfirst : first ≠ [] → w.controller.pushWaitQueue1.items ≠ [] ∨
      min w.controller.retriablePktMapCap w.controller.pktMap.capacity ≤ s.pktMap.size)
    (hsecond : second ≠ [] → w.controller.pushWaitQueue2.items ≠ [] ∨
      w.controller.pktMap.capacity ≤ s.pktMap.size)
    (hshort : pkts.length ≤ 1 ∨ w.controller.maxRetransmissionSz = 0 → Short w →
      ∀ item ∈ first, item.pktArr.length ≤ 1) :
    Grown env gone pkts w (w.queued s first second) := by
  have hgrows := ha.grows
  have hle : s.pktMap.size ≤ w.controller.pktMap.capacity := ha.cap ▸ ha.map.size_le
  have hptrs : ((first ++ second).flatMap (·.pktArr)).Perm (w.waitPtrs ++ s.waitingQueue) := by
    refine (hperm.flatMap_right _).trans (.of_eq ?_)
    rw [List.flatMap_append, newItems]
    split
    · next hnil => rw [hnil]; rfl
    · rw [List.flatMap_singleton]; rfl
  have hsteps : Ledger.Steps w.NotAcked (w.book gone) ((w.queued s first second).book gone) :=
    ha.steps.tail (.reorder _ _ (List.Perm.refl _) hptrs.symm)
  refine ⟨⟨ha.map, h.acked, fun item hm => ?_, h.book.steps hsteps⟩, hsteps, ?_,
    fun hset => ⟨?_, ?_⟩, hshort, ⟨s.cells, rfl, ha.offered⟩, ha.outcome hperm⟩
  · rcases List.mem_append.1 (hperm.mem_iff.1 hm) with hm | hm
    · exact h.items item hm
    · unfold newItems at hm
      split at hm
      · cases hm
      · next hne =>
        obtain rfl := List.mem_singleton.1 hm
        exact hne
  · simp [World.settings, queued, setQueue1, setQueue2, afterAdding, setMap, ha.cap]
  · intro hne
    show min w.controller.retriablePktMapCap s.pktMap.capacity ≤ s.pktMap.size
    rw [ha.cap]
    rcases hfirst hne with hold | hnew
    · exact Nat.le_trans (hset.first hold) hgrows
    · exact hnew
  · intro hne
    show s.pktMap.size = s.pktMap.capacity
    rw [ha.cap]
    rcases hsecond hne with hold | hnew
    · have := hset.second hold
      omega
    · exact Nat.le_antisymm hle hnew

/-- `internal_add_retriables` with a waiting queue, which `put` writes back. -/
def internalAddRetriables (debug : Bool) (env : Outside) (w : World) (mapCap : Nat)
    (queue : Pow2CyclicQueue RetransmissionWaitingItem)
    (put : World → List RetransmissionWaitingItem → World) (pktArr : List Packet) (now : Int) :
    Except Fault World := do
  let s ← w.addAll debug env now mapCap pktArr
  if s.waitingQueue = [] then .ok (w.afterAdding s)
  else do
    let queue ← queue.pushBackNothrow ⟨s.waitingQueue, w.calls⟩
    .ok (put (w.afterAdding s) queue.items)

/-- A batch that is too large, or one that cannot wait, faults. -/
theorem internalAdd_cases (h : Good env gone w) (mapCap : Nat)
    (queue : Pow2CyclicQueue RetransmissionWaitingItem)
    (put : World → List RetransmissionWaitingItem → World) (pktArr : List Packet) (now : Int)
    (hput : ∀ s, Added w gone mapCap pktArr s → s.waitingQueue ≠ [] → Grown env gone pktArr w
      (put (w.afterAdding s) (queue.items ++ [⟨s.waitingQueue, w.calls⟩]))) :
    (∃ w', internalAddRetriables debug env w mapCap queue put pktArr now = .ok w' ∧
      Grown env gone pktArr w w') ∨
    (∃ fault, internalAddRetriables debug env w mapCap queue put pktArr now = .error fault ∧
      (w.controller.consumeSzPerLoad < pktArr.length ∨ queue.size = queue.cap)) := by
  unfold internalAddRetriables
  rcases addAll_cases debug h now mapCap pktArr with ⟨s, e, ha⟩ | ⟨fault, e, hlarge⟩
  case inr =>
    rw [e]
    exact .inr ⟨fault, rfl, .inl hlarge⟩
  rw [e, ok_bind]
  by_cases hnil : s.waitingQueue = []
  · rw [if_pos hnil]
    refine .inl ⟨_, rfl, ha.grown h w.controller.pushWaitQueue1.items w.controller.pushWaitQueue2.items
      (.of_eq ?_) .inl .inl fun _ hshort => hshort⟩
    rw [newItems, if_pos hnil, List.append_nil]
    rfl
  rw [if_neg hnil]
  unfold Pow2CyclicQueue.pushBackNothrow
  split
  · rename_i hroom
    exact .inr ⟨_, rfl, .inr hroom⟩
  · exact .inl ⟨_, rfl, hput s ha hnil⟩

theorem addRetriables_cases (h : Good env gone w) (pktArr : List Packet) (now : Int) :
    (∃ w', w.addRetriables debug env pktArr now = .ok w' ∧ Grown env gone pktArr w w') ∨
    (∃ fault, w.addRetriables debug env pktArr now = .error fault ∧
      (w.controller.consumeSzPerLoad < pktArr.length ∨
        w.controller.pushWaitQueue1.size = w.controller.pushWaitQueue1.cap)) := by
  refine internalAdd_cases debug h _ w.controller.pushWaitQueue1 setQueue1 pktArr now fun s ha hnil =>
    ha.grown h _ w.controller.pushWaitQueue2.items ?_ (fun _ => .inr (ha.full hnil)) .inl ?_
  · rw [newItems, if_neg hnil, items, List.append_assoc, List.append_assoc]
    exact List.perm_append_comm.append_left _
  · intro hfew hshort item hitem
    rcases List.mem_append.1 hitem with hitem | hitem
    · exact hshort item hitem
    · obtain rfl := List.mem_singleton.1 hitem
      rcases hfew with hfew | hzero
      · exact Nat.le_trans ha.short (ha.offered.length_eq ▸ hfew)
      · exact absurd (ha.none hzero) hnil

theorem reentrantAddRetriables_cases (h : Good env gone w) (pktArr : List Packet) (now : Int) :
    (∃ w', w.reentrantAddRetriables debug env pktArr now = .ok w' ∧ Grown env gone pktArr w w') ∨
    (∃ fault, w.reentrantAddRetriables debug env pktArr now = .error fault ∧
      (w.controller.consumeSzPerLoad < pktArr.length ∨
        w.controller.pushWaitQueue2.size = w.controller.pushWaitQueue2.cap)) := by
  refine internalAdd_cases debug h _ w.controller.pushWaitQueue2 setQueue2 pktArr now fun s ha hnil =>
    ha.grown h w.controller.pushWaitQueue1.items _ ?_ .inl (fun _ => .inr (ha.full hnil))
      fun _ hshort => hshort
  rw [newItems, if_neg hnil, items, List.append_assoc]

end World

end Retransmission
