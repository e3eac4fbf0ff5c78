import NeuralNetwork.Funnel.Proof.Funnel
import NeuralNetwork.InternalRest.Proof.TicketWaiting
import NeuralNetwork.InternalRest.RestFrame.Proof.BatchRequestResponse
import NeuralNetwork.InternalRest.RestFrame.Proof.TicketController
import NeuralNetwork.InternalRest.RestFrame.RestController
import NeuralNetwork.Lib.OneShot

/-!
# Every request is answered once

The observers of the client are one-shot listeners at the tickets (`World.view`): they register when
`assign_observer` runs, each call of `steal_observer` delivers to them, and `close_ticket` drops them.
`answered_once` reads off what follows for every run.
-/

namespace RestFrame.RestController

open Cpp Mailbox Batch BatchResponse TicketSystem Funnel Loop Run TicketController

variable {R : Type} {debug : Bool} {clock : SteadyClock} {conf : Config R} {w w' : World R}

/-! ## What is observed -/

/-- What a step of the user of a batch may change, less what only its response needs. -/
structure Slots where
  ids : List TicketId
  since : Option Nat
  closed : Bool

def BatchRequest.closed (batch : BatchRequest R) : Bool :=
  match batch.phase with
  | .gone => true
  | _ => batch.wasReleased

def BatchRequest.slots (batch : BatchRequest R) : Slots := ⟨batch.ticketIdArr, batch.since, batch.closed⟩

def Slots.close (s : Slots) : Slots := { s with closed := true }

def Slots.assign (s : Slots) (n : Nat) : Slots := { s with since := some n }

def World.slots (w : World R) : List Slots := w.batches.map BatchRequest.slots

/-- The observer was assigned to the ticket `id`, after `n` items had been handled. -/
def listens (l : List Slots) (o : Observer) (id : TicketId) (n : Nat) : Prop :=
  ∃ s, l[o.batch]? = some s ∧ s.since = some n ∧ s.ids[o.idx]? = some id

def closed (l : List Slots) (o : Observer) : Prop :=
  ∃ s, l[o.batch]? = some s ∧ s.closed = true

def opened (l : List Slots) : Nat := (l.map (·.ids.length)).sum

def Act.items : Act R → List (Item R)
  | .inbound responses => responses
  | .expiry ticketIds => ticketIds.map timeoutItem
  | _ => []

def Act.stolen : Act R → List (Observer × Expected R)
  | .store observer response => [(observer, response)]
  | _ => []

def World.pending (w : World R) : List (Item R) := w.workers.flatMap (·.flatMap Act.items)

def World.stolen (w : World R) : List (Observer × Expected R) :=
  w.workers.flatMap (·.flatMap Act.stolen)

def World.view (w : World R) : OneShot.State TicketId Observer (Expected R) where
  waiting := fun id => (w.controller.book id).join
  deliveries := w.handled
  taken := w.updates ++ w.stolen
  registered := listens w.slots
  gone := closed w.slots

/-! ## The invariant -/

/-- A response that is not held yet was not released, and before `assign_observer` no slot listens. -/
def BatchRequest.Starts (batch : BatchRequest R) : Prop :=
  batch.phase = .opened ∨ batch.phase = .made → batch.since = none ∧ batch.wasReleased = false

structure Inv (debug : Bool) (w : World R) : Prop where
  shot : OneShot.Inv w.view
  tickets : ∀ (b : Nat) (s : Slots), w.slots[b]? = some s → s.closed = false →
    s.ids.Nodup ∧ ∀ id ∈ s.ids, w.controller.book id ≠ none
  disjoint : ∀ (b b' : Nat) (s s' : Slots) id, w.slots[b]? = some s → w.slots[b']? = some s' →
    s.closed = false →
    s'.closed = false → id ∈ s.ids → id ∈ s'.ids → b = b'
  starts : ∀ batch ∈ w.batches, batch.Starts
  arrivals : (w.handled ++ w.pending).Perm w.arrived
  closes : ∀ call ∈ w.closeCalls, call.2.Nodup ∧ ∀ id ∈ call.2, call.1.book id ≠ none
  counted : debug = true ∨ w.controller.Counted (opened w.slots)

variable {batch : BatchRequest R}

variable {b : Nat} {batch' : BatchRequest R} {rest : List (Act R)} {p : Nat}
  {timeoutDurArr : List Int} {a : Act R} {ids : List TicketId}

theorem getElem?_slots (hb : w.batches[b]? = some batch) :
    w.slots[b]? = some batch.slots := by
  unfold World.slots
  rw [List.getElem?_map, hb]
  rfl

theorem Inv.of_fresh (h : Fresh w) : Inv debug w := by
  obtain ⟨ticketCap, controller, timeouts, hc, -, rfl⟩ := h
  have hempty := TicketController.Fresh.isEmpty ⟨ticketCap, hc⟩
  have hnone : ∀ id, (controller.book id).join = none := fun id => by rw [hempty id]; rfl
  have hlistens : ∀ o id n, ¬ listens [] o id n := by
    rintro o id n ⟨s, hs, -⟩
    cases hs
  refine ⟨⟨?_, ?_, ?_, nofun, nofun, ?_, List.nodup_nil, ?_⟩, nofun, nofun, nofun, .refl _, nofun,
    .inr ⟨?_, fun id hid => ?_⟩⟩
  · exact fun o id id' n n' h => absurd h (hlistens o id n)
  · exact fun o id n h => absurd h (hlistens o id n)
  · exact fun id o ho => absurd ((hnone id).symm.trans ho) nofun
  · exact fun id o ho => absurd ((hnone id).symm.trans ho) nofun
  · exact fun o id n h => absurd h (hlistens o id n)
  · rw [(TicketController.Fresh.eq ⟨ticketCap, hc⟩).2.1]
    rfl
  · exact absurd hid (book_eq_none.1 (hempty id))

theorem Inv.frame (h : Inv debug w) (hcontroller : w'.controller = w.controller)
    (hslots : w'.slots = w.slots) (hstarts : ∀ batch ∈ w'.batches, batch.Starts)
    (hhandled : w'.handled = w.handled)
    (htaken : (w.updates ++ w.stolen).Perm (w'.updates ++ w'.stolen))
    (harrivals : (w'.handled ++ w'.pending).Perm w'.arrived)
    (hcloses : w'.closeCalls = w.closeCalls) : Inv debug w' := by
  have hview : w'.view = { w.view with taken := w'.updates ++ w'.stolen } := by
    unfold World.view
    rw [hcontroller, hslots, hhandled]
  refine ⟨?_, ?_, ?_, hstarts, harrivals, ?_, ?_⟩
  · rw [hview]
    exact h.shot.next (.reorder _ _ htaken)
  · rw [hslots, hcontroller]
    exact h.tickets
  · rw [hslots]
    exact h.disjoint
  · rw [hcloses]
    exact h.closes
  · rw [hcontroller, hslots]
    exact h.counted

/-! ## The user of a batch -/

theorem slots_setBatch (w : World R) (hb : w.batches[b]? = some batch) (hs : batch'.slots = batch.slots) :
    (w.setBatch b batch').slots = w.slots :=
  ListUpdate.map_set_same BatchRequest.slots hb hs

theorem Inv.starts_set (h : Inv debug w) (hstarts : batch.Starts) :
    ∀ x ∈ w.batches.set b batch, x.Starts := ListUpdate.forall_mem_set h.starts hstarts

theorem Inv.setBatch (h : Inv debug w) (hb : w.batches[b]? = some batch)
    (hs : batch'.slots = batch.slots) (hstarts : batch'.Starts) :
    Inv debug (w.setBatch b batch') :=
  h.frame rfl (slots_setBatch w hb hs) (h.starts_set hstarts) rfl (.refl _) h.arrivals rfl

theorem Inv.answer (h : Inv debug w) (rs : List (Return R)) : Inv debug (w.answer rs) :=
  h.frame rfl rfl h.starts rfl (.refl _) h.arrivals rfl

theorem Inv.setTimeouts (h : Inv debug w) (timeouts : TicketSystem.World TicketId) :
    Inv debug { w with timeouts } :=
  h.frame rfl rfl h.starts rfl (.refl _) h.arrivals rfl

/-! ## Closing -/

section
variable {l : List Slots} {b : Nat} {s s' : Slots}

theorem listens_set (hb : l[b]? = some s) (hids : s'.ids = s.ids) (hsince : s'.since = s.since)
    (o : Observer) (id : TicketId) (n : Nat) : listens (l.set b s') o id n ↔ listens l o id n := by
  unfold listens
  rw [ListUpdate.getElem?_set_of_some hb]
  by_cases ho : o.batch = b
  · rw [if_pos ho, ho, hb]
    simp only [Option.some.injEq, exists_eq_left', hids, hsince]
  · rw [if_neg ho]

theorem opened_set (hb : l[b]? = some s) (hids : s'.ids = s.ids) : opened (l.set b s') = opened l := by
  unfold opened
  rw [ListUpdate.map_set_same (fun s : Slots => s.ids.length) hb]
  rw [hids]

theorem closed_set (hb : l[b]? = some s) (o : Observer) :
    closed (l.set b s.close) o ↔ o.batch = b ∨ closed l o := by
  unfold closed
  rw [ListUpdate.getElem?_set_of_some hb]
  by_cases ho : o.batch = b
  · rw [if_pos ho]
    simp only [Option.some.injEq, exists_eq_left', ho, true_or, Slots.close]
  · rw [if_neg ho]
    simp only [ho, false_or]

end

theorem Inv.listener (h : Inv debug w) {id : TicketId} {o : Observer}
    (hw : (w.controller.book id).join = some o) :
    ∃ s n, w.slots[o.batch]? = some s ∧ s.closed = false ∧ s.since = some n ∧
      s.ids[o.idx]? = some id := by
  obtain ⟨n, ⟨s, hs, hsince, hid⟩, -⟩ := h.shot.waiting id o hw
  refine ⟨s, n, hs, ?_, hsince, hid⟩
  by_contra hclosed
  exact h.shot.present id o hw ⟨s, hs, Bool.not_eq_false _ ▸ hclosed⟩

theorem Inv.close (h : Inv debug w) (hb : w.batches[b]? = some batch) (hopen : batch.closed = false)
    (e : w.closeTicket debug batch.ticketIdArr = .ok w') (hs : batch'.slots = batch.slots.close)
    (hstarts : batch'.Starts) :
    Inv debug (w'.setBatch b batch') := by
  obtain ⟨controller, e1, e2⟩ := bind_eq_ok e
  cases e2
  have hbs := getElem?_slots hb
  obtain ⟨hnodup, hmem⟩ := h.tickets b _ hbs hopen
  have hbook : controller.book = w.controller.book.closeTickets batch.ticketIdArr := by
    have hb := w.controller.closeTicket_book debug batch.ticketIdArr
    rw [e1] at hb
    exact (Book.closeAll_iff.1 hb.symm).1
  have hslots : (w.batches.set b batch').map BatchRequest.slots =
      w.slots.set b batch.slots.close := by
    rw [List.map_set, hs]
    rfl
  -- the batches that stay open are others
  have hother : ∀ (j : Nat) (x : Slots),
      (w.slots.set b batch.slots.close)[j]? = some x → x.closed = false →
      j ≠ b ∧ w.slots[j]? = some x := by
    intro j x hx hopen
    rw [ListUpdate.getElem?_set_of_some hbs] at hx
    by_cases hj : j = b
    · rw [if_pos hj] at hx
      cases hx
      cases hopen
    · rw [if_neg hj] at hx
      exact ⟨hj, hx⟩
  refine ⟨?_, ?_, ?_, h.starts_set hstarts, h.arrivals, ?_, ?_⟩
  · have hview : (World.setBatch { w with
          controller, closeCalls := w.closeCalls ++ [(w.controller, batch.ticketIdArr)] } b batch').view =
        { w.view with
          waiting := fun id => if id ∈ batch.ticketIdArr then none else (w.controller.book id).join
          gone := closed (w.slots.set b batch.slots.close) } := by
      unfold World.view World.setBatch World.slots
      rw [hslots]
      congr 1
      · funext id
        rw [hbook]
        unfold Book.closeTickets
        split <;> rfl
      · funext o id n
        apply propext
        apply listens_set hbs
        · rfl
        · rfl
    rw [hview]
    refine h.shot.next (.drop w.view (· ∈ batch.ticketIdArr) _ (fun o ho => ?_) fun id o hw => ?_)
    · exact (closed_set hbs o).2 (.inr ho)
    · obtain ⟨s, n, ho, hsopen, -, hid⟩ := h.listener hw
      rw [closed_set hbs]
      constructor
      · intro hmem
        exact .inl (h.disjoint _ _ _ _ id ho hbs hsopen hopen (List.mem_of_getElem? hid) hmem)
      · rintro (rfl | hclosed)
        · rw [hbs] at ho
          cases ho
          exact List.mem_of_getElem? hid
        · exact absurd hclosed (h.shot.present id o hw)
  · intro j x hx hxopen
    rw [World.slots, World.setBatch, hslots] at hx
    obtain ⟨hj, hx⟩ := hother j x hx hxopen
    obtain ⟨hxnodup, hxmem⟩ := h.tickets j x hx hxopen
    refine ⟨hxnodup, fun id hid => ?_⟩
    show controller.book id ≠ none
    rw [hbook]
    unfold Book.closeTickets
    have hnew : id ∉ batch.ticketIdArr := fun hmem =>
      hj (h.disjoint _ _ _ _ id hx hbs hxopen hopen hid hmem)
    rw [if_neg hnew]
    exact hxmem id hid
  · intro i j x y id hx hy hxopen hyopen
    rw [World.slots, World.setBatch, hslots] at hx hy
    exact h.disjoint i j x y id (hother i x hx hxopen).2 (hother j y hy hyopen).2 hxopen hyopen
  · intro call hcall
    rcases List.mem_append.1 hcall with hcall | hcall
    · exact h.closes call hcall
    · rw [List.mem_singleton.1 hcall]
      exact ⟨hnodup, hmem⟩
  · rcases h.counted with hdebug | hcounted
    · exact .inl hdebug
    · right
      have hids : batch.slots.close.ids = batch.slots.ids := rfl
      rw [World.slots, World.setBatch, hslots, opened_set hbs hids]
      exact hcounted.closeTicket e1

/-! ## Assigning -/

theorem find?_eq_some {K V : Type} [DecidableEq K] {xs : List (K × V)}
    (hnodup : (xs.map Prod.fst).Nodup) (k : K) (v : V) :
    (xs.find? (·.1 = k)).map Prod.snd = some v ↔ (k, v) ∈ xs := by
  constructor
  · intro h
    obtain ⟨x, hx, rfl⟩ := Option.map_eq_some_iff.1 h
    obtain rfl : x.1 = k := by simpa using List.find?_some hx
    exact List.mem_of_find?_eq_some hx
  · intro h
    cases hx : xs.find? (·.1 = k) with
    | none => simpa using List.find?_eq_none.1 hx (k, v) h
    | some x =>
      have hk : x.1 = k := by simpa using List.find?_some hx
      have hxv : x = (k, v) :=
        List.inj_on_of_nodup_map hnodup (List.mem_of_find?_eq_some hx) h hk
      rw [hxv]
      rfl

theorem checkAssigned_ok {A : Type} (xs : List A) :
    checkAssigned debug (xs.map fun _ => .ok true) = .ok none := by
  induction xs with
  | nil => rfl
  | cons x xs ih =>
    rw [List.map_cons, checkAssigned, if_neg (by simp)]
    exact ih

section
variable {l : List Slots} {b : Nat} {s : Slots}

theorem listens_assign (hb : l[b]? = some s) (hnone : s.since = none) (m : Nat) (o : Observer)
    (id : TicketId) (n : Nat) : listens (l.set b (s.assign m)) o id n ↔
      listens l o id n ∨ (o.batch = b ∧ s.ids[o.idx]? = some id) ∧ n = m := by
  unfold listens
  rw [ListUpdate.getElem?_set_of_some hb]
  by_cases ho : o.batch = b
  · rw [if_pos ho, ho, hb]
    simp only [Option.some.injEq, exists_eq_left', Slots.assign, hnone, reduceCtorEq, false_and,
      false_or, true_and]
    exact ⟨fun ⟨hm, hid⟩ => ⟨hid, hm.symm⟩, fun ⟨hid, hm⟩ => ⟨hm.symm, hid⟩⟩
  · rw [if_neg ho]
    simp only [ho, false_and, or_false]

/-- An element of the list after `assign_observer`, less who listens. -/
theorem of_getElem?_assign (hb : l[b]? = some s) {m j : Nat} {x : Slots}
    (hx : (l.set b (s.assign m))[j]? = some x) :
    ∃ y, l[j]? = some y ∧ y.ids = x.ids ∧ y.closed = x.closed := by
  rw [ListUpdate.getElem?_set_of_some hb] at hx
  by_cases hj : j = b
  · rw [if_pos hj] at hx
    cases hx
    exact ⟨s, hj ▸ hb, rfl, rfl⟩
  · rw [if_neg hj] at hx
    exact ⟨x, hx, rfl, rfl⟩

theorem closed_assign (hb : l[b]? = some s) (m : Nat) (o : Observer) :
    closed (l.set b (s.assign m)) o ↔ closed l o := by
  unfold closed
  rw [ListUpdate.getElem?_set_of_some hb]
  by_cases ho : o.batch = b
  · rw [if_pos ho, ho, hb]
    simp only [Option.some.injEq, exists_eq_left', Slots.assign]
  · rw [if_neg ho]

end

def observers (b : Nat) (ids : List TicketId) : List (TicketId × Observer) :=
  ids.zipIdx.map fun x => (x.1, ⟨b, x.2⟩)

theorem map_fst_observers (b : Nat) (ids : List TicketId) : (observers b ids).map Prod.fst = ids := by
  unfold observers
  rw [List.map_map]
  exact List.zipIdx_map_fst 0 ids

theorem mem_observers {id : TicketId} {o : Observer} :
    (id, o) ∈ observers b ids ↔ o.batch = b ∧ ids[o.idx]? = some id := by
  unfold observers
  rw [List.mem_map]
  constructor
  · rintro ⟨x, hx, he⟩
    cases he
    exact ⟨rfl, List.mem_zipIdx_iff_getElem?.1 hx⟩
  · rintro ⟨rfl, hid⟩
    exact ⟨(id, o.idx), List.mem_zipIdx_iff_getElem?.2 hid, rfl⟩

theorem Inv.assign (h : Inv debug w) (hb : w.batches[b]? = some batch) (hphase : batch.phase = .made)
    (e : w.assignObserver debug b batch = .ok w') : Inv debug w' := by
  obtain ⟨hsince, hreleased⟩ := h.starts batch (List.mem_of_getElem? hb) (.inr hphase)
  have hopen : batch.closed = false := by
    unfold BatchRequest.closed
    rw [hphase]
    exact hreleased
  have hbs := getElem?_slots hb
  obtain ⟨hnodup, hmem⟩ := h.tickets b _ hbs hopen
  -- nobody listens at the tickets of the batch
  have hnone : ∀ id ∈ batch.ticketIdArr, (w.controller.book id).join = none := by
    intro id hid
    by_contra hw
    obtain ⟨o, hw⟩ := Option.ne_none_iff_exists'.1 hw
    obtain ⟨s, n, hs, hsopen, hn, hsid⟩ := h.listener hw
    obtain rfl : o.batch = b :=
      h.disjoint _ _ _ _ id hs hbs hsopen hopen (List.mem_of_getElem? hsid) hid
    rw [hbs] at hs
    cases hs
    rw [show batch.slots.since = batch.since from rfl, hsince] at hn
    cases hn
  have hentry : ∀ x ∈ observers b batch.ticketIdArr, w.controller.book x.1 = some none := by
    intro x hx
    have hid := (mem_observers.1 hx).2
    have hw := hnone x.1 (List.mem_of_getElem? hid)
    cases he : w.controller.book x.1 with
    | none => exact absurd he (hmem x.1 (List.mem_of_getElem? hid))
    | some entry =>
      rw [he] at hw
      cases entry with
      | none => rfl
      | some o => cases hw
  have hkeys : ((observers b batch.ticketIdArr).map Prod.fst).Nodup := by
    rw [map_fst_observers]
    exact hnodup
  have hassign := Book.assignObserver_new hkeys hentry
  have harr : (observers b batch.ticketIdArr).map (fun x => (x.1, some x.2)) =
      World.observerArr b batch.ticketIdArr := by
    unfold observers World.observerArr
    rw [List.map_map]
    rfl
  rw [harr, w.controller.assignObserver_book] at hassign
  obtain ⟨hbook, hrs⟩ := Prod.ext_iff.1 hassign
  dsimp only at hbook hrs
  -- so every slot gets its observer
  unfold World.assignObserver at e
  dsimp only at e
  rw [hrs, List.map_map] at e
  obtain ⟨err, hcheck, e⟩ := bind_eq_ok e
  obtain rfl : none = err := Except.ok.inj ((checkAssigned_ok _).symm.trans hcheck)
  cases e
  have hset : (w.batches.set b { batch with
        phase := .assigned, since := some w.handled.length }).map BatchRequest.slots =
      w.slots.set b (batch.slots.assign w.handled.length) := by
    rw [List.map_set]
    congr 1
    unfold BatchRequest.slots Slots.assign
    rw [hopen]
    congr 1
  have hkey := find?_eq_some hkeys
  refine ⟨?_, fun j x hx hxopen => ?_, fun i j x y id hx hy hxopen hyopen hxid hyid => ?_,
    h.starts_set fun hp => ?_, h.arrivals, h.closes, ?_⟩
  · have hview : (World.setBatch { w with
          controller := (w.controller.assignObserver (World.observerArr b batch.ticketIdArr)).1 } b
          { batch with phase := .assigned, since := some w.handled.length }).view =
        { w.view with
          waiting := fun id =>
            (((observers b batch.ticketIdArr).find? (·.1 = id)).map Prod.snd).or (w.view.waiting id)
          registered := fun o id n => w.view.registered o id n ∨
            ((observers b batch.ticketIdArr).find? (·.1 = id)).map Prod.snd = some o ∧
              n = w.view.deliveries.length } := by
      unfold World.view World.setBatch World.slots
      rw [hset]
      congr 1
      · funext id
        rw [hbook]
        dsimp only
        cases (observers b batch.ticketIdArr).find? (·.1 = id) <;> rfl
      · funext o id n
        rw [hkey, mem_observers]
        exact propext (listens_assign hbs hsince _ o id n)
      · funext o
        exact propext (closed_assign hbs _ o)
    rw [hview]
    refine h.shot.next (.register w.view _ (fun id o ho => ?_) fun id id' o ho ho' => ?_)
    · rw [hkey, mem_observers] at ho
      obtain ⟨rfl, hid⟩ := ho
      refine ⟨hnone id (List.mem_of_getElem? hid), ?_, ?_⟩
      · rintro id' n ⟨s, hs, hn, -⟩
        rw [hbs] at hs
        cases hs
        rw [show batch.slots.since = batch.since from rfl, hsince] at hn
        cases hn
      · rintro ⟨s, hs, hclosed⟩
        rw [hbs] at hs
        cases hs
        exact absurd (hclosed.symm.trans hopen) nofun
    · rw [hkey, mem_observers] at ho ho'
      exact Option.some.inj (ho.2.symm.trans ho'.2)
  · rw [World.slots, World.setBatch, hset] at hx
    obtain ⟨y, hy, hids, hclosed⟩ := of_getElem?_assign hbs hx
    rw [← hids]
    obtain ⟨hynodup, hymem⟩ := h.tickets j y hy (hclosed.trans hxopen)
    refine ⟨hynodup, fun id hid => ?_⟩
    show (w.controller.assignObserver (World.observerArr b batch.ticketIdArr)).1.book id ≠ none
    have hsome := Book.isSome_assignObserver w.controller.book
      (World.observerArr b batch.ticketIdArr) id
    rw [w.controller.assignObserver_book] at hsome
    rw [← Option.isSome_iff_ne_none, hsome, Option.isSome_iff_ne_none]
    exact hymem id hid
  · rw [World.slots, World.setBatch, hset] at hx hy
    obtain ⟨x', hx', hxids, hxclosed⟩ := of_getElem?_assign hbs hx
    obtain ⟨y', hy', hyids, hyclosed⟩ := of_getElem?_assign hbs hy
    exact h.disjoint i j x' y' id hx' hy' (hxclosed.trans hxopen) (hyclosed.trans hyopen)
      (hxids ▸ hxid) (hyids ▸ hyid)
  · rcases hp with hp | hp <;> cases hp
  · rcases h.counted with hdebug | hcounted
    · exact .inl hdebug
    · right
      have hids : (batch.slots.assign w.handled.length).ids = batch.slots.ids := rfl
      rw [World.slots, World.setBatch, hset, opened_set hbs hids]
      exact hcounted.assignObserver _

/-! ## Opening -/

theorem Inv.openTicket (h : Inv debug w) {sz : Nat} {controller : TicketController Observer}
    (e : w.controller.openTicket debug sz = .ok (controller, .ok ids))
    (hbound : debug = true ∨ opened w.slots + ids.length < 2 ^ 64) :
    Inv debug { w with
      controller
      batches := w.batches ++ [⟨ids, timeoutDurArr, none, false, .opened, none⟩] } := by
  obtain ⟨-, he⟩ | ⟨-, ids', he, e1⟩ := openTicket_cases e
  · cases he
  cases he
  rw [openLoop_length e1] at hbound
  obtain ⟨hbook, hnodup, hnew, hcounted⟩ := openLoop_fresh h.counted hbound e1
  have hslots : (w.batches ++ [(⟨ids, timeoutDurArr, none, false, .opened, none⟩ :
      BatchRequest R)]).map BatchRequest.slots = w.slots ++ [⟨ids, none, false⟩] := by
    rw [List.map_append]
    rfl
  have hget : ∀ (j : Nat) (x : Slots), (w.slots ++ [(⟨ids, none, false⟩ : Slots)])[j]? = some x →
      w.slots[j]? = some x ∨ j = w.slots.length ∧ x = ⟨ids, none, false⟩ := by
    intro j x hx
    rcases Nat.lt_trichotomy j w.slots.length with hlt | rfl | hgt
    · rw [List.getElem?_append_left hlt] at hx
      exact .inl hx
    · rw [List.getElem?_concat_length] at hx
      cases hx
      exact .inr ⟨rfl, rfl⟩
    · rw [List.getElem?_eq_none (by rw [List.length_append]; exact hgt)] at hx
      cases hx
  have hold : ∀ {id : TicketId}, w.controller.book id ≠ none → controller.book id ≠ none := by
    intro id hid
    rw [hbook]
    unfold Book.openTickets
    split
    · nofun
    · exact hid
  refine ⟨?_, fun j x hx hxopen => ?_, fun i j x y id hx hy hxopen hyopen hxid hyid => ?_,
    fun batch hbatch => ?_, h.arrivals, h.closes, ?_⟩
  · have hview : World.view { w with
          controller
          batches := w.batches ++ [⟨ids, timeoutDurArr, none, false, .opened, none⟩] } = w.view := by
      unfold World.view World.slots
      rw [hslots]
      congr 1
      · funext id
        rw [hbook]
        unfold Book.openTickets
        split
        · next hid => rw [hnew id hid]; rfl
        · rfl
      · funext o id n
        apply propext
        constructor
        · rintro ⟨s, hs, hsince, hid⟩
          rcases hget _ _ hs with hs | ⟨-, rfl⟩
          · exact ⟨s, hs, hsince, hid⟩
          · cases hsince
        · rintro ⟨s, hs, hrest⟩
          exact ⟨s, List.getElem?_append_left (List.getElem?_eq_some_iff.1 hs).1 ▸ hs, hrest⟩
      · funext o
        apply propext
        constructor
        · rintro ⟨s, hs, hclosed⟩
          rcases hget _ _ hs with hs | ⟨-, rfl⟩
          · exact ⟨s, hs, hclosed⟩
          · cases hclosed
        · rintro ⟨s, hs, hrest⟩
          exact ⟨s, List.getElem?_append_left (List.getElem?_eq_some_iff.1 hs).1 ▸ hs, hrest⟩
    rw [hview]
    exact h.shot
  · rw [World.slots, hslots] at hx
    rcases hget j x hx with hx | ⟨-, rfl⟩
    · obtain ⟨hxnodup, hxmem⟩ := h.tickets j x hx hxopen
      exact ⟨hxnodup, fun id hid => hold (hxmem id hid)⟩
    · refine ⟨hnodup, fun id hid => ?_⟩
      rw [hbook]
      unfold Book.openTickets
      rw [if_pos hid]
      nofun
  · rw [World.slots, hslots] at hx hy
    rcases hget i x hx with hx | ⟨rfl, rfl⟩
    · rcases hget j y hy with hy | ⟨rfl, rfl⟩
      · exact h.disjoint i j x y id hx hy hxopen hyopen hxid hyid
      · exact absurd (hnew id hyid) ((h.tickets i x hx hxopen).2 id hxid)
    · rcases hget j y hy with hy | ⟨rfl, rfl⟩
      · exact absurd (hnew id hxid) ((h.tickets j y hy hyopen).2 id hyid)
      · rfl
  · rcases List.mem_append.1 hbatch with hbatch | hbatch
    · exact h.starts batch hbatch
    · rw [List.mem_singleton.1 hbatch]
      exact fun _ => ⟨rfl, rfl⟩
  · refine hcounted.imp id fun hcounted => ?_
    unfold World.slots opened
    rw [hslots, List.map_append, List.sum_append]
    exact hcounted

/-! ## Epochs -/

theorem flatMap_workers {B : Type} (g : Act R → List B) (hp : w.workers[p]? = some (a :: rest))
    (acts : List (Act R)) :
    ((w.workers.set p (acts ++ rest)).flatMap (·.flatMap g) ++ g a).Perm
      (w.workers.flatMap (·.flatMap g) ++ acts.flatMap g) := by
  have h := ListUpdate.flatMap_set_perm (fun l : List (Act R) => l.flatMap g) hp (b := acts ++ rest)
  rw [List.flatMap_cons, List.flatMap_append, ← List.append_assoc, ← List.append_assoc] at h
  exact (List.perm_append_right_iff _).1 h

theorem Inv.worker (h : Inv debug w) (hp : w.workers[p]? = some (a :: rest)) (acts : List (Act R))
    {arrived : List (Item R)} {updates : List (Observer × Expected R)}
    (hitems : (w.arrived ++ acts.flatMap Act.items).Perm (arrived ++ a.items))
    (hstolen : (w.updates ++ a.stolen).Perm (updates ++ acts.flatMap Act.stolen)) :
    Inv debug { w with workers := w.workers.set p (acts ++ rest), arrived, updates } := by
  refine h.frame rfl rfl h.starts rfl ?_ ?_ rfl
  · have hset := (flatMap_workers Act.stolen hp acts).symm.append_left w.updates
    have hall := hset.trans
      ((List.perm_append_comm_assoc _ _ _).trans (hstolen.append_left _))
    rw [← List.append_assoc, ← List.append_assoc] at hall
    exact ((List.perm_append_right_iff _).1 hall).trans List.perm_append_comm
  · have hset := (flatMap_workers Act.items hp acts).append_left w.handled
    rw [← List.append_assoc, ← List.append_assoc] at hset
    exact (List.perm_append_right_iff _).1
      ((hset.trans (h.arrivals.append_right _)).trans hitems)

theorem stealEntry_join (e : Option (Entry Observer)) (x : Item R) :
    (Book.stealEntry e ()).1.join = none ∧
      (updateActs (x, (Book.stealEntry e ()).2)).flatMap Act.stolen = e.join.toList.map (·, x.2) := by
  cases e with
  | none => exact ⟨rfl, rfl⟩
  | some e => cases e <;> exact ⟨rfl, rfl⟩

theorem steal_steps (st : OneShot.State TicketId Observer (Expected R)) (m : Book Observer)
    (hm : st.waiting = fun id => (m id).join) (items : List (Item R)) :
    OneShot.Steps st { st with
      waiting := fun id => ((m.stealObserver (items.map Prod.fst)).1 id).join
      deliveries := st.deliveries ++ items
      taken := st.taken ++
        ((items.zip (m.stealObserver (items.map Prod.fst)).2).flatMap updateActs).flatMap
          Act.stolen } := by
  induction items generalizing st m with
  | nil =>
    have hst : st = { st with
        waiting := fun id => ((m.stealObserver (([] : List (Item R)).map Prod.fst)).1 id).join
        deliveries := st.deliveries ++ []
        taken := st.taken ++ [] } := by
      rw [List.append_nil, List.append_nil]
      exact congrArg (fun f => { st with waiting := f }) hm
    exact hst ▸ .refl
  | cons x items ih =>
    obtain ⟨hjoin, hstolen⟩ := stealEntry_join (m x.1) x
    obtain ⟨waiting, deliveries, taken, registered, gone⟩ := st
    obtain rfl : waiting = fun id => (m id).join := hm
    have hwaiting : Function.update (fun id => (m id).join) x.1 none =
        fun id => ((atKey Book.stealEntry m (x.1, ())).1 id).join := by
      funext id
      unfold atKey
      dsimp only
      by_cases hid : id = x.1
      · subst hid
        rw [Function.update_self, Function.update_self, hjoin]
      · rw [Function.update_of_ne hid, Function.update_of_ne hid]
    refine .trans (.single (.deliver _ x.1 x.2)) ?_
    have hnext := ih ⟨Function.update (fun id => (m id).join) x.1 none, deliveries ++ [(x.1, x.2)],
      taken ++ (m x.1).join.toList.map (·, x.2), registered, gone⟩
      (atKey Book.stealEntry m (x.1, ())).1 hwaiting
    rw [List.append_assoc, List.append_assoc, ← hstolen, ← List.flatMap_append] at hnext
    rw [← hstolen]
    exact hnext

theorem updateActs_items (xs : List (Item R × Except ExceptionT Observer)) :
    (xs.flatMap updateActs).flatMap Act.items = [] := by
  rw [List.flatMap_assoc, List.flatMap_eq_nil_iff]
  intro x _
  unfold updateActs
  split <;> rfl

theorem Inv.steal (h : Inv debug w) {items : List (Item R)} (hp : w.workers[p]? = some (a :: rest))
    (tail : List (Act R)) (hitems : a.items = items) (hstolen : a.stolen = [])
    (htail : tail.flatMap Act.items = []) (htail' : tail.flatMap Act.stolen = []) :
    Inv debug { (w.steal items).1 with
      workers := w.workers.set p ((w.steal items).2 ++ tail ++ rest) } := by
  have hbook := w.controller.stealObserver_book (items.map Prod.fst)
  have hsteps := steal_steps w.view w.controller.book rfl items
  have hsome := Book.isSome_stealObserver w.controller.book (items.map Prod.fst)
  rw [hbook] at hsteps hsome
  have htaken := flatMap_workers Act.stolen hp ((w.steal items).2 ++ tail)
  have hleft := flatMap_workers Act.items hp ((w.steal items).2 ++ tail)
  rw [List.flatMap_append, htail', List.append_nil, hstolen, List.append_nil] at htaken
  rw [List.flatMap_append, htail, List.append_nil, hitems] at hleft
  have hnothing : (w.steal items).2.flatMap Act.items = [] := updateActs_items _
  rw [hnothing, List.append_nil] at hleft
  refine ⟨?_, fun j x hx hxopen => ?_, h.disjoint, h.starts, ?_, h.closes, ?_⟩
  · have hperm := htaken.symm.append_left w.updates
    rw [← List.append_assoc] at hperm
    exact (h.shot.steps hsteps).next (.reorder _ _ hperm)
  · obtain ⟨hnodup, hmem⟩ := h.tickets j x hx hxopen
    refine ⟨hnodup, fun id hid => ?_⟩
    have hid' := hmem id hid
    rw [← Option.isSome_iff_ne_none, ← hsome, Option.isSome_iff_ne_none] at hid'
    exact hid'
  · show ((w.handled ++ items) ++ _).Perm w.arrived
    rw [List.append_assoc]
    exact ((List.perm_append_comm.trans hleft).append_left w.handled).trans h.arrivals
  · exact h.counted.imp id fun hcounted => hcounted.stealObserver _

theorem updateBase_cases {f : BatchRequestResponseBase R → Except Fault (BatchRequestResponseBase R)}
    (e : w.updateBase b f = .ok (some w')) :
    ∃ batch base, w.batches[b]? = some batch ∧ w' = w.setBatch b { batch with base } := by
  unfold World.updateBase at e
  split at e
  · cases e
  · next batch hb =>
    split at e
    · cases e
    · obtain ⟨base, -, e⟩ := bind_eq_ok e
      cases e
      exact ⟨batch, some base, hb, rfl⟩

theorem Inv.setBase (h : Inv debug w) (hb : w.batches[b]? = some batch)
    (base : Option (BatchRequestResponseBase R)) :
    Inv debug (w.setBatch b { batch with base }) :=
  h.setBatch hb rfl (h.starts batch (List.mem_of_getElem? hb))

theorem scope_flatten {E : Type} {cap : Nat} {events : List E} {batches : List (List E)}
    (e : scope cap events = .ok batches) : batches.flatten = events := by
  by_cases hcap : cap ≤ maxDeliverableCap
  · obtain ⟨batches', e', hflat, -⟩ := scope_ok hcap events
    obtain rfl : batches = batches' := Except.ok.inj (e.symm.trans e')
    exact hflat
  · unfold scope DeliveryHandle.openHandle at e
    rw [if_pos (Nat.lt_of_not_le hcap)] at e
    cases e

theorem Inv.newWorker (h : Inv debug w) (acts : List (Act R)) (arrived : List (Item R))
    (hitems : acts.flatMap Act.items = arrived) (hstolen : acts.flatMap Act.stolen = []) :
    Inv debug { w with workers := w.workers ++ [acts], arrived := w.arrived ++ arrived } := by
  refine h.frame rfl rfl h.starts rfl ?_ ?_ rfl
  · unfold World.stolen
    rw [List.flatMap_append, List.flatMap_singleton, hstolen, List.append_nil]
  · unfold World.pending
    rw [List.flatMap_append, List.flatMap_singleton, hitems, ← List.append_assoc]
    exact h.arrivals.append_right arrived

theorem Inv.goWorker (h : Inv debug w) (e : w.goWorker debug clock conf p = .ok (some w')) :
    Inv debug w' := by
  unfold World.goWorker at e
  split at e
  case h_2 => cases e
  next a rest hp =>
  obtain ⟨r, ha, e⟩ := bind_eq_ok e
  cases r with
  | none => cases e
  | some r =>
  cases e
  cases a with
  | inbound responses =>
    cases ha
    exact h.steal hp [.voidTicket (responses.map Prod.fst)] rfl rfl rfl rfl
  | getExpiredTicket =>
    obtain ⟨timeouts, -, ha⟩ := bind_eq_ok ha
    cases ha
    exact (h.setTimeouts timeouts).worker hp [.expired w.timeouts.gets.length] (.refl _) (.refl _)
  | expired smp =>
    unfold World.act at ha
    dsimp only at ha
    split at ha
    · next ticketIds _ =>
      obtain ⟨batches, hscope, ha⟩ := bind_eq_ok ha
      cases ha
      have hitems : (batches.map Act.expiry).flatMap (Act.items (R := R)) =
          ticketIds.map timeoutItem := by
        rw [← scope_flatten hscope, List.map_flatten, List.flatMap_map]
        rfl
      have hstolen : (batches.map Act.expiry).flatMap (Act.stolen (R := R)) = [] := by
        rw [List.flatMap_map, List.flatMap_eq_nil_iff]
        exact fun _ _ => rfl
      refine h.worker hp (batches.map .expiry) ?_ ?_
      · rw [hitems]
        exact .of_eq (List.append_nil _).symm
      · rw [hstolen]
        exact .refl _
    · cases ha
  | expiry ticketIds =>
    cases ha
    have hsteal := h.steal hp [] rfl rfl rfl rfl
    rwa [List.append_nil] at hsteal
  | store observer response =>
    obtain ⟨r, hr, ha⟩ := bind_eq_ok ha
    cases r with
    | none => cases ha
    | some w1 =>
      cases ha
      obtain ⟨batch, base, hb, rfl⟩ := updateBase_cases hr
      have h1 := h.setBase hb base
      refine h1.worker hp [] (.refl _) ?_
      exact .of_eq (List.append_nil _).symm
  | fetchAdd observer =>
    obtain ⟨r, hr, ha⟩ := bind_eq_ok ha
    cases r with
    | none => cases ha
    | some w1 =>
      cases ha
      obtain ⟨batch, base, hb, rfl⟩ := updateBase_cases hr
      exact (h.setBase hb base).worker hp [] (.refl _) (.refl _)
  | voidTicket ticketIds =>
    obtain ⟨timeouts, -, ha⟩ := bind_eq_ok ha
    cases ha
    exact (h.setTimeouts timeouts).worker hp [] (.refl _) (.refl _)

/-! ## Steps -/

theorem closed_eq (hphase : batch.phase ≠ .gone) :
    batch.closed = batch.wasReleased := by
  unfold BatchRequest.closed
  split
  · next h => exact absurd h hphase
  · rfl

theorem Inv.phase (h : Inv debug w) (hb : w.batches[b]? = some batch) (hphase : batch.phase ≠ .gone)
    (p : Phase R) (hp : p ≠ .opened ∧ p ≠ .made ∧ p ≠ .gone)
    (base : Option (BatchRequestResponseBase R)) :
    Inv debug (w.setBatch b { batch with base, phase := p }) := by
  refine h.setBatch hb ?_ fun hstart => ?_
  · unfold BatchRequest.slots
    rw [closed_eq hphase, closed_eq hp.2.2]
  · rcases hstart with hstart | hstart
    · exact absurd hstart hp.1
    · exact absurd hstart hp.2.1

theorem Inv.release (h : Inv debug w) (hb : w.batches[b]? = some batch) {why : Releasing R}
    (hphase : batch.phase = .releasing why) (e : w.release debug b batch why = .ok w') :
    Inv debug w' := by
  have hopen : batch.closed = batch.wasReleased := closed_eq (by rw [hphase]; nofun)
  have hclosed : ({ batch with wasReleased := true, phase := why.next } : BatchRequest R).slots =
      batch.slots.close := by
    unfold BatchRequest.slots Slots.close
    congr 1
    cases why <;> rfl
  have hstarts : ({ batch with wasReleased := true, phase := why.next } : BatchRequest R).Starts := by
    intro hp
    replace hp : why.next = .opened ∨ why.next = .made := hp
    cases why <;> simp [Releasing.next] at hp
  obtain ⟨w1, e1, e⟩ := bind_eq_ok e
  cases e
  apply Inv.answer
  cases hw : batch.wasReleased with
  | true =>
    rw [hw] at e1 hopen
    cases e1
    refine h.setBatch hb (hclosed.trans ?_) hstarts
    unfold Slots.close BatchRequest.slots
    rw [hopen]
  | false =>
    rw [hw] at e1 hopen
    exact h.close hb hopen e1 hclosed hstarts

theorem Inv.go (h : Inv debug w) {err : Option Failure} (hb : w.batches[b]? = some batch)
    (e : w.go debug clock b batch err = .ok (some w')) :
    Inv debug w' := by
  have hstarts := h.starts batch (List.mem_of_getElem? hb)
  unfold World.go at e
  cases hphase : batch.phase with
  | opened =>
    rw [hphase] at e
    obtain ⟨hsince, hreleased⟩ := hstarts (.inl hphase)
    have hopen : batch.closed = false := (closed_eq (by rw [hphase]; nofun)).trans hreleased
    have e := map_some_eq_ok e
    cases err with
    | none =>
      obtain ⟨base, -, e⟩ := bind_eq_ok e
      cases e
      refine h.setBatch hb ?_ fun _ => ⟨hsince, hreleased⟩
      unfold BatchRequest.slots
      rw [hopen, ← hreleased]
      rfl
    | some err =>
      obtain ⟨w1, e1, e⟩ := bind_eq_ok e
      cases e
      have hstarts : ({ batch with phase := .gone } : BatchRequest R).Starts := by
        intro hp
        rcases hp with hp | hp <;> cases hp
      exact (h.close hb hopen e1 rfl hstarts).answer _
  | made =>
    rw [hphase] at e
    exact h.assign hb hphase (map_some_eq_ok e)
  | assigned =>
    rw [hphase] at e
    cases e
    have hne : batch.phase ≠ .gone := by
      rw [hphase]
      nofun
    cases err with
    | none => exact h.phase hb hne .pushed ⟨nofun, nofun, nofun⟩ batch.base
    | some err =>
      exact h.phase hb hne (.releasing (.refused err.1)) ⟨nofun, nofun, nofun⟩ batch.base
  | pushed =>
    rw [hphase] at e
    have hne : batch.phase ≠ .gone := by
      rw [hphase]
      nofun
    obtain ⟨timeouts, -, e⟩ := bind_eq_ok (map_some_eq_ok e)
    cases e
    exact (h.setTimeouts timeouts).phase hb hne (.clockingIn _) ⟨nofun, nofun, nofun⟩ batch.base
  | clockingIn smp =>
    rw [hphase] at e
    have hne : batch.phase ≠ .gone := by
      rw [hphase]
      nofun
    unfold World.goClockIn at e
    dsimp only at e
    split at e
    · obtain ⟨timeouts, -, e⟩ := bind_eq_ok e
      cases e
      exact h.setTimeouts timeouts
    · split at e
      · cases e
      · cases e
        exact (h.phase hb hne .held ⟨nofun, nofun, nofun⟩ batch.base).answer _
    · cases e
  | held =>
    rw [hphase] at e
    cases e
  | waiting =>
    rw [hphase] at e
    have hne : batch.phase ≠ .gone := by
      rw [hphase]
      nofun
    replace e : w.await b batch = some w' := Except.ok.inj e
    unfold World.await at e
    split at e
    · cases e
    · split at e
      · cases e
      · cases e
        exact h.phase hb hne .reading ⟨nofun, nofun, nofun⟩ batch.base
  | reading =>
    rw [hphase] at e
    have hne : batch.phase ≠ .gone := by
      rw [hphase]
      nofun
    replace e : w.read debug b batch = .ok (some w') := e
    unfold World.read at e
    split at e
    · cases e
    · obtain ⟨⟨base, rs⟩, -, e⟩ := bind_eq_ok e
      cases e
      exact h.phase hb hne (.releasing (.response (.ok rs))) ⟨nofun, nofun, nofun⟩ (some base)
  | releasing why =>
    rw [hphase] at e
    exact h.release hb hphase (map_some_eq_ok e)
  | gone =>
    rw [hphase] at e
    cases e

theorem Inv.batchRequest (h : Inv debug w) (hbound : debug = true ∨ opened w'.slots < 2 ^ 64)
    (e : w.batchRequest debug conf timeoutDurArr = .ok w') : Inv debug w' := by
  unfold World.batchRequest at e
  split at e
  · cases e
    exact h.answer _
  split at e
  · cases e
    exact h.answer _
  split at e
  · cases e
    exact h.answer _
  obtain ⟨⟨controller, r⟩, hopen, e⟩ := bind_eq_ok e
  cases r with
  | error err =>
    cases e
    obtain ⟨rfl, -⟩ | ⟨-, ids, he, -⟩ := openTicket_cases hopen
    · exact h.answer _
    · cases he
  | ok ids =>
    cases e
    refine h.openTicket hopen (hbound.imp id fun hbound => ?_)
    unfold World.slots opened at hbound
    rw [List.map_append, List.map_append, List.sum_append] at hbound
    exact hbound

/-- A step of debug mode, or one after which fewer than `2 ^ 64` tickets have been opened. -/
def CountedStep (debug : Bool) (clock : SteadyClock) (conf : Config R) (w : World R) (e : Event R)
    (w' : World R) : Prop :=
  Step debug clock conf w e w' ∧ (debug = true ∨ opened w'.slots < 2 ^ 64)

theorem withBatch_cases {f : BatchRequest R → Except Fault (Option (World R))}
    (e : w.withBatch b f = .ok (some w')) :
    ∃ batch, w.batches[b]? = some batch ∧ f batch = .ok (some w') := by
  unfold World.withBatch at e
  split at e
  · cases e
  · next batch hb => exact ⟨batch, hb, e⟩

theorem withHeld_cases {f : BatchRequest R → Option (World R)} (e : w.withHeld b f = .ok (some w')) :
    ∃ batch, w.batches[b]? = some batch ∧ batch.phase ≠ .gone ∧ f batch = some w' := by
  obtain ⟨batch, hb, e⟩ := withBatch_cases e
  split at e
  · next hphase =>
    refine ⟨batch, hb, ?_, Except.ok.inj e⟩
    rw [hphase]
    nofun
  · cases e

theorem Inv.step (h : Inv debug w) {ev : Event R} (hs : CountedStep debug clock conf w ev w') :
    Inv debug w' := by
  obtain ⟨e, hbound⟩ := hs
  cases ev with
  | batchRequest timeoutDurArr => exact h.batchRequest hbound (map_some_eq_ok e)
  | response b =>
    obtain ⟨batch, hb, hne, e⟩ := withHeld_cases e
    obtain ⟨base, -, e⟩ := Option.map_eq_some_iff.1 e
    split at e
    · cases e
      exact h.phase hb hne (.releasing _) ⟨nofun, nofun, nofun⟩ batch.base
    · cases e
      exact h.phase hb hne .waiting ⟨nofun, nofun, nofun⟩ _
  | destroy b =>
    obtain ⟨batch, hb, hne, e⟩ := withHeld_cases e
    cases e
    exact h.phase hb hne (.releasing .destroyed) ⟨nofun, nofun, nofun⟩ batch.base
  | go b err =>
    obtain ⟨batch, hb, e⟩ := withBatch_cases e
    exact h.go hb e
  | inboundEpoch bufArr =>
    replace e : w.inboundEpoch conf bufArr = .ok (some w') := e
    unfold World.inboundEpoch at e
    split at e
    · cases e
    · obtain ⟨batches, hscope, e⟩ := bind_eq_ok e
      cases e
      refine h.newWorker (batches.map .inbound) _ ?_ ?_
      · rw [List.flatMap_map, ← scope_flatten hscope]
        exact List.flatMap_id
      · rw [List.flatMap_map, List.flatMap_eq_nil_iff]
        exact fun _ _ => rfl
  | expiryEpoch =>
    cases e
    have hnew := h.newWorker [.getExpiredTicket] [] rfl rfl
    rwa [List.append_nil] at hnew
  | goWorker p => exact h.goWorker e
  | updateTimeouts =>
    obtain ⟨timeouts, -, e⟩ := bind_eq_ok e
    cases e
    exact h.setTimeouts timeouts

/-! ## Runs -/

variable {hist : List (Event R)}

/-- The first item that was handled for the ticket `id` after `n` items had been. -/
def firstHandled (w : World R) (id : TicketId) (n : Nat) : Option (Item R) :=
  (w.handled.drop n).find? (·.1 = id)

def registered (w : World R) (o : Observer) (id : TicketId) : Prop :=
  w.controller.ticketResourceMap.lookup id = some (some o)

/-- **Every request is answered once.** In every state of a run: no slot is updated twice; an update is the
first item that was handled for the slot's own ticket since its observer was assigned, and every item handled
is a response that came in or the timeout of an expired ticket; a slot of an open batch, once assigned, was
updated, is about to be, or has its observer registered. -/
theorem answered_once (h : Reach Fresh (CountedStep debug clock conf) w hist) :
    ((w.updates ++ w.stolen).map Prod.fst).Nodup ∧
    (∀ o v, (o, v) ∈ w.updates ++ w.stolen →
      ∃ id n, listens w.slots o id n ∧ firstHandled w id n = some (id, v)) ∧
    (w.handled ++ w.pending).Perm w.arrived ∧
    (∀ call ∈ w.closeCalls, call.2.Nodup ∧ ∀ id ∈ call.2, id ∈ call.1.ticketResourceMap) ∧
    (∀ (b : Nat) (s : Slots), w.slots[b]? = some s → s.closed = false →
      s.ids.Nodup ∧ ∀ id ∈ s.ids, id ∈ w.controller.ticketResourceMap) ∧
    ∀ o id n, listens w.slots o id n → ¬ closed w.slots o →
      o ∈ w.updates.map Prod.fst ∨ o ∈ w.stolen.map Prod.fst ∨ registered w o id := by
  have hi : Inv debug w :=
    h.inv (fun w _ => Inv debug w) (fun _ h => .of_fresh h) fun _ _ _ _ hi hs => hi.step hs
  have hopen : ∀ {c : TicketController Observer} {id : TicketId},
      c.book id ≠ none → id ∈ c.ticketResourceMap := by
    intro c id hid
    by_contra hmem
    exact hid (book_eq_none.2 hmem)
  refine ⟨hi.shot.nodup, hi.shot.taken, hi.arrivals, fun call hcall => ?_, fun b s hs hclosed => ?_,
    fun o id n hl hclosed => ?_⟩
  · obtain ⟨hnodup, hmem⟩ := hi.closes call hcall
    exact ⟨hnodup, fun id hid => hopen (hmem id hid)⟩
  · obtain ⟨hnodup, hmem⟩ := hi.tickets b s hs hclosed
    exact ⟨hnodup, fun id hid => hopen (hmem id hid)⟩
  · rcases hi.shot.complete o id n hl with hw | hm | hgone
    · exact .inr (.inr (Option.join_eq_some_iff.1 hw))
    · replace hm : o ∈ (w.updates ++ w.stolen).map Prod.fst := hm
      rw [List.map_append] at hm
      rcases List.mem_append.1 hm with hm | hm
      · exact .inl hm
      · exact .inr (.inl hm)
    · exact absurd hgone hclosed

/-! ### Two runs of a batch of one -/

/-- Every buffer is a response to the ticket 0, whose value is its size. -/
def oneTicket : Config Nat where
  maxConsumePerLoad := 1
  ticketControllerFeedCap := 1
  recvConsumeSz := 1
  observerStealCap := 1
  timeoutConsumeSz := 1
  deserialize := fun buf => .ok (0, .ok buf.length)

def run (acts : List (Event Nat)) (w : World Nat) : Option (World Nat) :=
  acts.foldlM (fun w e => ofStep (w.step true stopped oneTicket e)) w

theorem reach_run {acts : List (Event Nat)} {w w' : World Nat} (h : Fresh w)
    (e : run acts w = some w') : Reach Fresh (CountedStep true stopped oneTicket) w' acts :=
  Reach.runM (f := World.step true stopped oneTicket) (fun e => ⟨e, .inl rfl⟩) (.init h) e

/-- A response comes before `assign_observer`, and another one after it. -/
def lateRun : List (Event Nat) :=
  [.batchRequest [0], .inboundEpoch [[]], .goWorker 0, .go 0 none, .go 0 none, .inboundEpoch [[0]],
    .goWorker 1, .goWorker 1]

theorem lateRun_ok : ∃ w0 w : World Nat, Fresh w0 ∧ run lateRun w0 = some w ∧
    listens w.slots ⟨0, 0⟩ 0 1 ∧ w.updates = [(⟨0, 0⟩, .ok 1)] ∧
      firstHandled w 0 0 = some (0, .ok 0) :=
  ⟨_, _, ⟨16, _, _, rfl, ⟨1, 1, 1, 0, _, rfl, rfl⟩, rfl⟩, rfl, ⟨_, rfl, rfl, rfl⟩, rfl, rfl⟩

theorem answered_once_late : ∃ w : World Nat,
    Reach Fresh (CountedStep true stopped oneTicket) w lateRun ∧
      ∃ id n, listens w.slots ⟨0, 0⟩ id n ∧ firstHandled w id n = some (id, .ok 1) := by
  obtain ⟨w0, w, h0, hrun, -, hupdates, -⟩ := lateRun_ok
  have hreach := reach_run h0 hrun
  refine ⟨w, hreach, (answered_once hreach).2.1 ⟨0, 0⟩ (.ok 1) ?_⟩
  rw [hupdates]
  exact List.mem_append_left _ List.mem_cons_self

/-- In one run a slot of an open batch is neither updated nor has its observer registered, since a
worker took it. In another a slot is updated, but not with the first response to its ticket. -/
theorem not_registered_and_not_first :
    (∃ (w : World Nat) (hist : List (Event Nat)),
      Reach Fresh (CountedStep true stopped oneTicket) w hist ∧ ∃ o id n,
        listens w.slots o id n ∧ ¬ closed w.slots o ∧ o ∉ w.updates.map Prod.fst ∧
          ¬ registered w o id) ∧
    ∃ (w : World Nat) (hist : List (Event Nat)),
      Reach Fresh (CountedStep true stopped oneTicket) w hist ∧ ∃ o id n v,
        listens w.slots o id n ∧ (o, v) ∈ w.updates ∧ firstHandled w id 0 ≠ some (id, v) := by
  constructor
  · obtain ⟨w0, w, h0, hrun, hl, hclosed, hupdates, hregistered⟩ :
        ∃ w0 w : World Nat, Fresh w0 ∧
          run [.batchRequest [0], .go 0 none, .go 0 none, .inboundEpoch [[]], .goWorker 0] w0 =
            some w ∧
          listens w.slots ⟨0, 0⟩ 0 0 ∧ (w.slots.map Slots.closed) = [false] ∧ w.updates = [] ∧
            w.controller.ticketResourceMap.lookup 0 = some none :=
      ⟨_, _, ⟨16, _, _, rfl, ⟨1, 1, 1, 0, _, rfl, rfl⟩, rfl⟩, rfl, ⟨_, rfl, rfl, rfl⟩, rfl, rfl, rfl⟩
    refine ⟨w, _, reach_run h0 hrun, ⟨0, 0⟩, 0, 0, hl, ?_, by rw [hupdates]; nofun, ?_⟩
    · rintro ⟨s, hs, hs'⟩
      have hfalse : s.closed ∈ w.slots.map Slots.closed :=
        List.mem_map_of_mem (List.mem_of_getElem? hs)
      rw [hclosed, List.mem_singleton, hs'] at hfalse
      cases hfalse
    · intro hreg
      rw [registered, hregistered] at hreg
      cases hreg
  · obtain ⟨w0, w, h0, hrun, hl, hupdates, hfirst⟩ := lateRun_ok
    refine ⟨w, _, reach_run h0 hrun, ⟨0, 0⟩, 0, 1, .ok 1, hl, by rw [hupdates]; simp, ?_⟩
    rw [hfirst]
    intro he
    cases he

end RestFrame.RestController
