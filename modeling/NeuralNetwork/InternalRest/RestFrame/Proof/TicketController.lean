import NeuralNetwork.InternalRest.RestFrame.TicketController
import NeuralNetwork.Lib.Run

/-!
# The register of tickets as a table

`Book` is the abstract register: a table from the open tickets to their entries, with what each call
does to it (`Book.Step`). Each call of a `TicketController` is one of it (`openLoop_fresh`, …,
`closeTicket_book`) as long as fewer than `2 ^ 64` tickets were opened (`Counted`).
-/

namespace RestFrame

open Cpp Mailbox Batch Loop Run

/-! ## The table -/

abbrev Book (O : Type) := TicketId → Option (Entry O)

namespace Book

variable {O : Type}

def assignEntry : Option (Entry O) → Option O → Option (Entry O) × (Option O × Except ExceptionT Bool)
  | none, observer => (none, (observer, .error .restTicketNotFound))
  | some (some held), observer => (some (some held), (observer, .ok false))
  | some none, none => (some none, (none, .error .invalidArgument))
  | some none, some observer => (some (some observer), (none, .ok true))

def stealEntry : Option (Entry O) → Unit → Option (Entry O) × Except ExceptionT O
  | none, _ => (none, .error .restTicketNotFound)
  | some none, _ => (some none, .error .restTicketObserverNotFound)
  | some (some held), _ => (some none, .ok held)

def assignObserver (m : Book O) (xs : List (TicketId × Option O)) :
    Book O × List (Option O × Except ExceptionT Bool) :=
  batch (atKey assignEntry) m xs

def stealObserver (m : Book O) (ids : List TicketId) : Book O × List (Except ExceptionT O) :=
  batch (fun m id => atKey stealEntry m (id, ())) m ids

def openTickets (m : Book O) (ids : List TicketId) : Book O :=
  fun id => if id ∈ ids then some none else m id

def closeTickets (m : Book O) (ids : List TicketId) : Book O :=
  fun id => if id ∈ ids then none else m id

/-- Closing one ticket; in debug mode it has to be open. -/
def closeOne (debug : Bool) (m : Book O) (id : TicketId) : Except Fault (Book O) :=
  if debug ∧ (m id).isNone then .error .abort else .ok (Function.update m id none)

inductive Step (debug : Bool) : Book O → Call O → Book O → Prop
  | opened (m : Book O) (ids : List TicketId) : ids.Nodup → (∀ id ∈ ids, m id = none) →
    Step debug m (.openTicket ids.length (.ok ids)) (m.openTickets ids)
  | refused (m : Book O) (sz : Nat) :
    Step debug m (.openTicket sz (.error .resourceExhaustion)) m
  | assignObserver (m : Book O) (xs : List (TicketId × Option O)) :
    Step debug m (.assignObserver xs ((m.assignObserver xs).2.map Prod.snd)) (m.assignObserver xs).1
  | stealObserver (m : Book O) (ids : List TicketId) :
    Step debug m (.stealObserver ids (m.stealObserver ids).2) (m.stealObserver ids).1
  | closeTicket (m : Book O) (ids : List TicketId) :
    (debug → ids.Nodup ∧ ∀ id ∈ ids, m id ≠ none) →
    Step debug m (.closeTicket ids) (m.closeTickets ids)

def IsEmpty (m : Book O) : Prop := ∀ id, m id = none

end Book

def openAfter {O : Type} (ids : List TicketId) : Call O → List TicketId
  | .openTicket _ (.ok new) => ids ++ new
  | .closeTicket closed => ids.filter (· ∉ closed)
  | _ => ids

def openIds {O : Type} (hist : List (Call O)) : List TicketId := hist.foldl openAfter []

theorem openIds_concat {O : Type} (hist : List (Call O)) (call : Call O) :
    openIds (hist ++ [call]) = openAfter (openIds hist) call := by
  simp [openIds]

namespace Book

variable {O : Type} {debug : Bool} {m m' : Book O}

@[simp] theorem openTickets_nil (m : Book O) : m.openTickets [] = m := by
  funext id
  simp [openTickets]

@[simp] theorem closeTickets_nil (m : Book O) : m.closeTickets [] = m := by
  funext id
  simp [closeTickets]

theorem openTickets_append (m : Book O) (ids ids' : List TicketId) :
    m.openTickets (ids ++ ids') = (m.openTickets ids).openTickets ids' := by
  funext id
  simp only [openTickets, List.mem_append]
  by_cases h : id ∈ ids'
  · simp [h]
  · simp [h]

theorem openTickets_cons (m : Book O) (id : TicketId) (ids : List TicketId) :
    m.openTickets (id :: ids) = openTickets (Function.update m id (some none)) ids := by
  funext id'
  by_cases h : id' = id
  · simp [openTickets, h]
  · simp [openTickets, h]

theorem closeTickets_cons (m : Book O) (id : TicketId) (ids : List TicketId) :
    m.closeTickets (id :: ids) = closeTickets (Function.update m id none) ids := by
  funext id'
  by_cases h : id' = id
  · simp [closeTickets, h]
  · simp [closeTickets, h]

variable {ids : List TicketId}

theorem close_openTickets (h : ∀ id ∈ ids, m id = none) :
    (m.openTickets ids).closeTickets ids = m := by
  funext id
  by_cases hid : id ∈ ids
  · simp [closeTickets, hid, h id hid]
  · simp [closeTickets, openTickets, hid]

/-- Closing tickets one by one closes them all, and in debug mode each has to be open at its turn. -/
theorem closeAll_iff :
    ids.foldlM (closeOne debug) m = .ok m' ↔
      m' = m.closeTickets ids ∧ (debug → ids.Nodup ∧ ∀ id ∈ ids, m id ≠ none) := by
  induction ids generalizing m with
  | nil =>
    simp only [List.foldlM_nil, closeTickets_nil, List.nodup_nil, List.not_mem_nil, false_imp_iff,
      implies_true, and_self, and_true]
    exact ⟨fun h => (Except.ok.inj h).symm, fun h => congrArg _ h.symm⟩
  | cons id ids ih =>
    rw [List.foldlM_cons, closeTickets_cons]
    by_cases hd : debug ∧ (m id).isNone
    · refine ⟨fun h => ?_, fun h => absurd (h.2 hd.1).2 fun h => ?_⟩
      · simp [closeOne, hd] at h
      · exact h id List.mem_cons_self (Option.isNone_iff_eq_none.1 hd.2)
    · rw [closeOne, if_neg hd, ok_bind, ih]
      refine and_congr_right fun _ => ⟨fun h hdebug => ?_, fun h hdebug => ?_⟩
      · obtain ⟨hnd, hopen⟩ := h hdebug
        refine ⟨List.nodup_cons.2 ⟨fun hm => hopen id hm (by simp), hnd⟩, fun id' hm => ?_⟩
        cases hm with
        | head => exact fun hnone => hd ⟨hdebug, Option.isNone_iff_eq_none.2 hnone⟩
        | tail _ hm =>
          have := hopen id' hm
          by_cases hid : id' = id
          · subst hid
            simp at this
          · rwa [Function.update_of_ne hid] at this
      · obtain ⟨hnd, hopen⟩ := h hdebug
        obtain ⟨hid, hnd⟩ := List.nodup_cons.1 hnd
        refine ⟨hnd, fun id' hm => ?_⟩
        rw [Function.update_of_ne (ne_of_mem_of_not_mem hm hid)]
        exact hopen id' (List.mem_cons_of_mem id hm)

/-! ### Entries keep their tickets -/

theorem assignEntry_isSome (e : Option (Entry O)) (observer : Option O) :
    (assignEntry e observer).1.isSome = e.isSome := by
  unfold assignEntry
  split <;> rfl

theorem stealEntry_isSome (e : Option (Entry O)) (u : Unit) :
    (stealEntry e u).1.isSome = e.isSome := by
  unfold stealEntry
  split <;> rfl

/-- An operation on entries that opens and closes none leaves the keys as they are. -/
theorem isSome_atKey {A R : Type} {f : Option (Entry O) → A → Option (Entry O) × R}
    (h : ∀ e a, (f e a).1.isSome = e.isSome) (m : Book O) (x : TicketId × A) (id : TicketId) :
    ((atKey f m x).1 id).isSome = (m id).isSome := by
  unfold atKey
  by_cases hid : id = x.1
  · subst hid
    simp [h]
  · simp [hid]

theorem isSome_assignObserver (m : Book O) (xs : List (TicketId × Option O)) (id : TicketId) :
    ((m.assignObserver xs).1 id).isSome = (m id).isSome :=
  batch_inv (fun m' : Book O => (m' id).isSome = (m id).isSome)
    (fun m' x hm' => (isSome_atKey assignEntry_isSome m' x id).trans hm') rfl xs

theorem isSome_stealObserver (m : Book O) (ids : List TicketId) (id : TicketId) :
    ((m.stealObserver ids).1 id).isSome = (m id).isSome :=
  batch_inv (fun m' : Book O => (m' id).isSome = (m id).isSome)
    (fun m' x hm' => (isSome_atKey stealEntry_isSome m' (x, ()) id).trans hm') rfl ids

theorem assignObserver_new {xs : List (TicketId × O)} (hnodup : (xs.map Prod.fst).Nodup)
    (hm : ∀ x ∈ xs, m x.1 = some none) :
    m.assignObserver (xs.map fun x => (x.1, some x.2)) =
      (fun id => ((xs.find? (·.1 = id)).map fun x => some (some x.2)).getD (m id),
        xs.map fun _ => (none, .ok true)) := by
  induction xs generalizing m with
  | nil => rfl
  | cons x xs ih =>
    rw [List.map_cons, List.nodup_cons] at hnodup
    have hrest : ∀ y ∈ xs, y.1 ≠ x.1 := fun y hy he =>
      hnodup.1 (he ▸ List.mem_map_of_mem hy)
    have hstep : atKey assignEntry m (x.1, some x.2) =
        (Function.update m x.1 (some (some x.2)), (none, .ok true)) := by
      unfold atKey
      rw [hm x List.mem_cons_self]
      rfl
    unfold assignObserver at ih ⊢
    rw [List.map_cons, batch_cons, hstep,
      ih hnodup.2 fun y hy => (Function.update_of_ne (hrest y hy) _ _).trans
        (hm y (List.mem_cons_of_mem _ hy))]
    refine Prod.ext (funext fun id => ?_) rfl
    dsimp only
    by_cases hid : x.1 = id
    · subst hid
      rw [List.find?_cons_of_pos (by simp), List.find?_eq_none.2 fun y hy => by simpa using hrest y hy,
        Function.update_self]
      rfl
    · rw [List.find?_cons_of_neg (by simpa using hid), Function.update_of_ne (Ne.symm hid)]

/-! ### Runs of the table -/

def Opened (m : Book O) (ids : List TicketId) : Prop :=
  ids.Nodup ∧ ∀ id, id ∈ ids ↔ (m id).isSome

theorem Opened.step {call : Call O} (hi : m.Opened ids) (h : Step debug m call m') :
    m'.Opened (openAfter ids call) := by
  obtain ⟨hnodup, hmem⟩ := hi
  cases h with
  | opened new hnew hfresh =>
    refine ⟨List.nodup_append.2 ⟨hnodup, hnew, fun a ha b hb hab => ?_⟩, fun id => ?_⟩
    · rw [hab, hmem, hfresh b hb] at ha
      cases ha
    · simp only [openAfter, openTickets, List.mem_append]
      by_cases hid : id ∈ new
      · simp [hid]
      · simp [hid, hmem]
  | refused => exact ⟨hnodup, hmem⟩
  | assignObserver xs => exact ⟨hnodup, fun id => by rw [isSome_assignObserver]; exact hmem id⟩
  | stealObserver ids => exact ⟨hnodup, fun id => by rw [isSome_stealObserver]; exact hmem id⟩
  | closeTicket closed hd =>
    refine ⟨hnodup.filter _, fun id => ?_⟩
    simp only [openAfter, closeTickets, List.mem_filter, decide_eq_true_eq]
    by_cases hid : id ∈ closed
    · simp [hid]
    · simp [hid, hmem]

/-- **The ids that are open are pairwise distinct** and are those of the table. -/
theorem openIds_ok {hist : List (Call O)} (h : Reach IsEmpty (Step debug) m hist) :
    m.Opened (openIds hist) := by
  refine h.inv (fun m hist => m.Opened (openIds hist)) (fun m hm => ?_) fun m hist call m' hi hs => ?_
  · exact ⟨List.nodup_nil, fun id => by simp [openIds, hm id]⟩
  · rw [openIds_concat]
    exact hi.step hs

end Book

/-! ## TicketController is one -/

namespace TicketController

variable {O : Type} {debug : Bool} {c c' : TicketController O}

def book (c : TicketController O) : Book O := fun id => c.ticketResourceMap.lookup id

theorem book_eq_none {id : TicketId} : c.book id = none ↔ id ∉ c.ticketResourceMap :=
  AList.lookup_eq_none

theorem book_insert (c : TicketController O) (id : TicketId) (e : Entry O) :
    ({ c with ticketResourceMap := c.ticketResourceMap.insert id e } : TicketController O).book =
      Function.update c.book id (some e) := by
  funext id'
  by_cases h : id' = id
  · subst h
    simp [book]
  · simp [book, h, AList.lookup_insert_ne h]

theorem book_erase (c : TicketController O) (id : TicketId) :
    ({ c with ticketResourceMap := c.ticketResourceMap.erase id } : TicketController O).book =
      Function.update c.book id none := by
  funext id'
  by_cases h : id' = id
  · subst h
    simp [book]
  · simp [book, h, AList.lookup_erase_ne h]

/-! ### Observers -/

theorem assignOne_book (c : TicketController O) (x : TicketId × Option O) :
    atKey Book.assignEntry c.book x = ((c.assignOne x).1.book, (c.assignOne x).2) := by
  obtain ⟨id, observer⟩ := x
  have hself : Function.update c.book id (c.book id) = c.book := Function.update_eq_self _ _
  unfold atKey assignOne
  cases he : c.ticketResourceMap.lookup id with
  | none =>
    have hb : c.book id = none := he
    rw [hb] at hself ⊢
    simp [Book.assignEntry, hself]
  | some e =>
    have hb : c.book id = some e := he
    rw [hb] at hself ⊢
    cases e with
    | some held => simp [Book.assignEntry, hself]
    | none =>
      cases observer with
      | none => simp [Book.assignEntry, hself]
      | some observer => simp [Book.assignEntry, book_insert]

theorem stealOne_book (c : TicketController O) (id : TicketId) :
    atKey Book.stealEntry c.book (id, ()) = ((c.stealOne id).1.book, (c.stealOne id).2) := by
  have hself : Function.update c.book id (c.book id) = c.book := Function.update_eq_self _ _
  unfold atKey stealOne
  cases he : c.ticketResourceMap.lookup id with
  | none =>
    have hb : c.book id = none := he
    rw [hb] at hself ⊢
    simp [Book.stealEntry, hself]
  | some e =>
    have hb : c.book id = some e := he
    rw [hb] at hself ⊢
    cases e with
    | none => simp [Book.stealEntry, hself]
    | some held => simp [Book.stealEntry, book_insert]

theorem assignObserver_book (c : TicketController O) (xs : List (TicketId × Option O)) :
    c.book.assignObserver xs = ((c.assignObserver xs).1.book, (c.assignObserver xs).2) := by
  have h : Simulates (fun _ => True) book assignOne (atKey (Book.assignEntry (O := O))) :=
    fun c x _ => ⟨trivial, c.assignOne_book x⟩
  exact (h.batch trivial xs).2

theorem stealObserver_book (c : TicketController O) (ids : List TicketId) :
    c.book.stealObserver ids = ((c.stealObserver ids).1.book, (c.stealObserver ids).2) := by
  have h : Simulates (fun _ => True) book stealOne
      (fun m id => atKey (Book.stealEntry (O := O)) m (id, ())) :=
    fun c id _ => ⟨trivial, c.stealOne_book id⟩
  exact (h.batch trivial ids).2

/-! ### Closing -/

variable (debug) in
theorem closeOne_book (c : TicketController O) (id : TicketId) :
    (closeOne debug c id).map book = Book.closeOne debug c.book id := by
  have hnone : (c.book id).isNone ↔ id ∉ c.ticketResourceMap := by
    rw [Option.isNone_iff_eq_none, book_eq_none]
  unfold closeOne Book.closeOne
  by_cases hd : debug ∧ id ∉ c.ticketResourceMap
  · rw [if_pos hd, if_pos ⟨hd.1, hnone.2 hd.2⟩]
    rfl
  · rw [if_neg hd, if_neg fun h => hd ⟨h.1, hnone.1 h.2⟩, ← book_erase]
    rfl

variable (debug) in
theorem closeTicket_book (c : TicketController O) (ids : List TicketId) :
    (c.closeTicket debug ids).map book = ids.foldlM (Book.closeOne debug) c.book :=
  (foldlM_view (fun _ => True) book (fun c id _ => ⟨c.closeOne_book debug id, fun _ _ => trivial⟩)
    trivial ids).1

/-! ### Opening -/

/-- The counter is the number of tickets opened, and is ahead of every ticket. -/
def Counted (c : TicketController O) (n : Nat) : Prop :=
  c.ticketIdCounter.toNat = n ∧ ∀ id ∈ c.ticketResourceMap, id.toNat < n

/-- No new ticket, and the counter and the maximal size of a call as they were. -/
def Within (c' c : TicketController O) : Prop :=
  c'.ticketIdCounter = c.ticketIdCounter ∧ c'.maxConsumePerLoad = c.maxConsumePerLoad ∧
    ∀ id ∈ c'.ticketResourceMap, id ∈ c.ticketResourceMap

variable {ids : List TicketId} {n : Nat}

theorem Counted.within (h : c.Counted n) (hw : c'.Within c) : c'.Counted n :=
  ⟨hw.1 ▸ h.1, fun id hid => h.2 id (hw.2.2 id hid)⟩

theorem Counted.not_mem (h : c.Counted n) : c.ticketIdCounter ∉ c.ticketResourceMap :=
  fun hm => absurd (h.2 _ hm) (by rw [h.1]; exact Nat.lt_irrefl n)

variable {sz : Nat}

theorem openLoop_length (e : openLoop debug sz c = .ok (c', ids)) :
    ids.length = sz := by
  induction sz generalizing c c' ids with
  | zero =>
    cases e
    rfl
  | succ sz ih =>
    unfold openLoop at e
    dsimp only at e
    split at e
    · cases e
    · obtain ⟨⟨c1, rest⟩, e1, e2⟩ := bind_eq_ok e
      cases e2
      rw [List.length_cons, ih e1]

variable (debug) in
theorem openLoop_ok (h : c.Counted n) (hn : n + sz < 2 ^ 64) :
    ∃ c' ids, openLoop debug sz c = .ok (c', ids) ∧ c'.Counted (n + sz) ∧
      c'.book = c.book.openTickets ids ∧ ids.length = sz ∧ ids.Nodup ∧
      (∀ id ∈ ids, n ≤ id.toNat ∧ id.toNat < n + sz) ∧
      c'.ticketResourceMapCap = c.ticketResourceMapCap ∧
      c'.maxConsumePerLoad = c.maxConsumePerLoad := by
  induction sz generalizing c n with
  | zero => exact ⟨c, [], rfl, h, by simp, rfl, List.nodup_nil, by simp, rfl, rfl⟩
  | succ sz ih =>
    have hfresh := h.not_mem
    have hadd : (c.ticketIdCounter + 1).toNat = n + 1 := by
      rw [BitVec.toNat_add, h.1]
      exact Nat.mod_eq_of_lt (show n + 1 < 2 ^ 64 by omega)
    have h1 : Counted { c with
        ticketResourceMap := c.ticketResourceMap.insert c.ticketIdCounter none
        ticketIdCounter := c.ticketIdCounter + 1 } (n + 1) := by
      refine ⟨hadd, fun id hid => ?_⟩
      rcases (AList.mem_insert _).1 hid with rfl | hid
      · rw [h.1]
        exact Nat.lt_succ_self n
      · exact Nat.lt_succ_of_lt (h.2 id hid)
    obtain ⟨c', ids, e, hc', hb, hl, hnd, hr, hcap, hmax⟩ := ih h1 (by omega)
    refine ⟨c', c.ticketIdCounter :: ids, ?_, ?_, ?_, ?_, ?_, ?_, hcap, hmax⟩
    · rw [openLoop]
      simp only [hfresh, not_false_eq_true, not_true_eq_false, and_false, if_false, if_true, e]
      rfl
    · rwa [Nat.add_assoc, Nat.add_comm 1] at hc'
    · have hins := c.book_insert c.ticketIdCounter none
      rw [hb, Book.openTickets_cons, ← hins]
      rfl
    · rw [List.length_cons, hl]
    · refine List.nodup_cons.2 ⟨fun hm => ?_, hnd⟩
      have := (hr _ hm).1
      rw [h.1] at this
      omega
    · intro id hid
      cases hid with
      | head => rw [h.1]; omega
      | tail _ hid => have := hr id hid; omega

theorem openLoop_new (e : openLoop true sz c = .ok (c', ids)) :
    c'.book = c.book.openTickets ids ∧ ids.Nodup ∧ ∀ id ∈ ids, c.book id = none := by
  induction sz generalizing c c' ids with
  | zero =>
    cases e
    exact ⟨by simp, List.nodup_nil, nofun⟩
  | succ sz ih =>
    unfold openLoop at e
    by_cases hmem : c.ticketIdCounter ∈ c.ticketResourceMap
    · rw [if_pos ⟨rfl, not_not.2 hmem⟩] at e
      cases e
    · rw [if_neg fun h => h.2 hmem, if_pos hmem] at e
      obtain ⟨⟨c1, rest⟩, e1, e2⟩ := bind_eq_ok e
      cases e2
      obtain ⟨hbook, hnodup, hnew⟩ := ih e1
      have hinsert := c.book_insert c.ticketIdCounter none
      replace hnew : ∀ id ∈ rest, Function.update c.book c.ticketIdCounter (some none) id = none := by
        intro id hid
        rw [← hinsert]
        exact hnew id hid
      have hrest : ∀ id ∈ rest, id ≠ c.ticketIdCounter := by
        rintro id hid rfl
        have := hnew _ hid
        rw [Function.update_self] at this
        cases this
      refine ⟨?_, List.nodup_cons.2 ⟨fun h => hrest _ h rfl, hnodup⟩, fun id hid => ?_⟩
      · rw [hbook, Book.openTickets_cons, ← hinsert]
        rfl
      · cases hid with
        | head => exact book_eq_none.2 hmem
        | tail _ hid =>
          have := hnew id hid
          rwa [Function.update_of_ne (hrest id hid)] at this

theorem openTicket_cases {r : Except ExceptionT (List TicketId)}
    (e : c.openTicket debug sz = .ok (c', r)) :
    (c' = c ∧ r = .error .resourceExhaustion) ∨
      (c.ticketResourceMap.entries.length + sz ≤ c.ticketResourceMapCap ∧
        ∃ ids, r = .ok ids ∧ openLoop debug sz c = .ok (c', ids)) := by
  unfold openTicket at e
  split at e
  · cases e
  split at e
  · cases e
    exact .inl ⟨rfl, rfl⟩
  · next hcap =>
    obtain ⟨⟨c1, ids⟩, e1, e2⟩ := bind_eq_ok e
    cases e2
    exact .inr ⟨Nat.not_lt.1 hcap, ids, rfl, e1⟩

theorem openLoop_fresh (h : debug = true ∨ c.Counted n) (hn : debug = true ∨ n + sz < 2 ^ 64)
    (e : openLoop debug sz c = .ok (c', ids)) :
    c'.book = c.book.openTickets ids ∧ ids.Nodup ∧ (∀ id ∈ ids, c.book id = none) ∧
      (debug = true ∨ c'.Counted (n + ids.length)) := by
  cases debug with
  | true =>
    obtain ⟨hbook, hnodup, hnew⟩ := openLoop_new e
    exact ⟨hbook, hnodup, hnew, .inl rfl⟩
  | false =>
    replace h : c.Counted n := h.resolve_left nofun
    obtain ⟨c1, ids1, e1, hc, hbook, hlength, hnodup, hrange, -⟩ :=
      openLoop_ok false h (hn.resolve_left nofun)
    obtain ⟨rfl, rfl⟩ := Prod.mk.inj (Except.ok.inj (e.symm.trans e1))
    refine ⟨hbook, hnodup, fun id hid => book_eq_none.2 fun hm => ?_, .inr (hlength ▸ hc)⟩
    exact Nat.not_lt.2 (hrange id hid).1 (h.2 id hm)

/-! ### Runs -/

def Fresh (c : TicketController O) : Prop := ∃ ticketCap, getTicketController ticketCap = .ok c

theorem Fresh.eq (h : Fresh c) : c.ticketResourceMap = ∅ ∧ c.ticketIdCounter = 0 ∧
    c.maxConsumePerLoad = max 1 (c.ticketResourceMapCap >>> 4) := by
  obtain ⟨ticketCap, e⟩ := h
  unfold getTicketController at e
  split at e
  · cases e
  · cases e
    exact ⟨rfl, rfl, rfl⟩

theorem Fresh.isEmpty (h : Fresh c) : c.book.IsEmpty := fun id => by
  rw [book_eq_none, h.eq.1]
  exact AList.notMem_empty id

theorem assignOne_within (c : TicketController O) (x : TicketId × Option O) :
    (c.assignOne x).1.Within c := by
  unfold assignOne
  split
  · exact ⟨rfl, rfl, fun _ h => h⟩
  · exact ⟨rfl, rfl, fun _ h => h⟩
  · next he =>
    split
    · exact ⟨rfl, rfl, fun _ h => h⟩
    · refine ⟨rfl, rfl, fun id hid => ?_⟩
      rcases (AList.mem_insert _).1 hid with rfl | hid
      · exact AList.lookup_isSome.1 (by rw [he]; rfl)
      · exact hid

theorem stealOne_within (c : TicketController O) (id : TicketId) : (c.stealOne id).1.Within c := by
  unfold stealOne
  split
  · exact ⟨rfl, rfl, fun _ h => h⟩
  · exact ⟨rfl, rfl, fun _ h => h⟩
  · next he =>
    refine ⟨rfl, rfl, fun id' hid => ?_⟩
    rcases (AList.mem_insert _).1 hid with rfl | hid
    · exact AList.lookup_isSome.1 (by rw [he]; rfl)
    · exact hid

theorem closeOne_within {id : TicketId} (e : closeOne debug c id = .ok c') : c'.Within c := by
  unfold closeOne at e
  split at e
  · cases e
  · cases e
    exact ⟨rfl, rfl, fun id' hid => (AList.mem_erase.1 hid).2⟩

theorem Counted.closeTicket (h : c.Counted n)
    (e : c.closeTicket debug ids = .ok c') : c'.Counted n :=
  (foldlM_view (fun c : TicketController O => c.Counted n) book
    (fun c id hc => ⟨c.closeOne_book debug id, fun _ e => hc.within (closeOne_within e)⟩) h ids).2 c' e

theorem Counted.assignObserver (h : c.Counted n) (xs : List (TicketId × Option O)) :
    (c.assignObserver xs).1.Counted n :=
  batch_inv (fun c' : TicketController O => c'.Counted n)
    (fun c' x hc' => hc'.within (c'.assignOne_within x)) h xs

theorem Counted.stealObserver (h : c.Counted n) (ids : List TicketId) :
    (c.stealObserver ids).1.Counted n :=
  batch_inv (fun c' : TicketController O => c'.Counted n)
    (fun c' x hc' => hc'.within (c'.stealOne_within x)) h ids

end TicketController

end RestFrame
