import Mathlib.Data.List.Induction
import Mathlib.Data.List.Nodup
import Mathlib.Logic.Relation

/-!
# Offered values

A ledger of values that are offered: one is declined, kept, or accepted and left waiting; what waits
is later kept or declined after all, and what is kept leaves. `Next ok` is one such move, in which
only values with `ok` are accepted. `Inv.steps`: every accepted value waits, is kept or has left,
once. `Clean.steps`: nothing bad is kept or waits, if nothing bad is accepted.
-/

namespace Ledger

/-- An offered value, and whether it is accepted. -/
structure Cell (V : Type) where
  value : V
  accepted : Bool

/-- What waits is named by its cell. -/
structure Book (V : Type) where
  cells : List (Cell V)
  kept : List V
  waiting : List Nat
  gone : List V

variable {V : Type}

def acceptedOf (cells : List (Cell V)) : List V := (cells.filter (·.accepted)).map (·.value)

def valueAt (cells : List (Cell V)) (p : Nat) : Option V := cells[p]?.map (·.value)

def acceptedAt (cells : List (Cell V)) (p : Nat) : Option V :=
  cells[p]?.bind fun cell => if cell.accepted then some cell.value else none

namespace Book

variable (b : Book V)

def accepted : List V := acceptedOf b.cells

def waitingValues : List V := b.waiting.filterMap (valueAt b.cells)

/-- The accepted values that wait no more. -/
def finished : List V :=
  (List.range b.cells.length).filterMap fun p =>
    if p ∈ b.waiting then none else acceptedAt b.cells p

end Book

inductive Next (ok : V → Prop) : Book V → Book V → Prop
  | decline (cells : List (Cell V)) (kept waiting gone) (v : V) :
    Next ok ⟨cells, kept, waiting, gone⟩ ⟨cells ++ [⟨v, false⟩], kept, waiting, gone⟩
  | wait (cells : List (Cell V)) (kept waiting gone) {v : V} : ok v →
    Next ok ⟨cells, kept, waiting, gone⟩
      ⟨cells ++ [⟨v, true⟩], kept, waiting ++ [cells.length], gone⟩
  | keep (cells : List (Cell V)) (kept waiting gone) {v : V} : ok v →
    Next ok ⟨cells, kept, waiting, gone⟩ ⟨cells ++ [⟨v, true⟩], kept ++ [v], waiting, gone⟩
  | keepWaiting {cells : List (Cell V)} (kept waiting gone) {p : Nat} {v : V} :
    cells[p]? = some ⟨v, true⟩ →
    Next ok ⟨cells, kept, p :: waiting, gone⟩ ⟨cells, kept ++ [v], waiting, gone⟩
  | declineWaiting {cells : List (Cell V)} (kept waiting gone) {p : Nat} {v : V} :
    cells[p]? = some ⟨v, true⟩ →
    Next ok ⟨cells, kept, p :: waiting, gone⟩ ⟨cells.set p ⟨v, false⟩, kept, waiting, gone⟩
  | leave (cells : List (Cell V)) (waiting gone) {kept kept' : List V} {v : V} :
    kept.Perm (v :: kept') →
    Next ok ⟨cells, kept, waiting, gone⟩ ⟨cells, kept', waiting, gone ++ [v]⟩
  | reorder (cells : List (Cell V)) (gone) {kept kept' : List V} {waiting waiting' : List Nat} :
    kept.Perm kept' → waiting.Perm waiting' →
    Next ok ⟨cells, kept, waiting, gone⟩ ⟨cells, kept', waiting', gone⟩

abbrev Steps (ok : V → Prop) : Book V → Book V → Prop := Relation.ReflTransGen (Next ok)

/-! ## Cells -/

theorem acceptedOf_append (cells : List (Cell V)) (v : V) (accepted : Bool) :
    acceptedOf (cells ++ [⟨v, accepted⟩]) = acceptedOf cells ++ if accepted then [v] else [] := by
  cases accepted <;> simp [acceptedOf]

variable {cells : List (Cell V)} {p : Nat}

theorem acceptedOf_set {v : V} (h : cells[p]? = some ⟨v, true⟩) :
    (acceptedOf cells).Perm (v :: acceptedOf (cells.set p ⟨v, false⟩)) := by
  induction cells generalizing p with
  | nil => simp at h
  | cons c cells ih =>
    cases p with
    | zero =>
      obtain rfl : c = ⟨v, true⟩ := by simpa using h
      simp [acceptedOf]
    | succ p =>
      have := ih (p := p) (by simpa using h)
      rw [List.set_cons_succ]
      cases hc : c.accepted with
      | true =>
        simp only [acceptedOf, List.filter_cons, hc, if_true, List.map_cons] at this ⊢
        exact (this.cons c.value).trans (List.Perm.swap _ _ _)
      | false =>
        simpa [acceptedOf, hc] using this

theorem valueAt_append {c : Cell V} (h : cells[p]? = some c) (cells' : List (Cell V)) :
    valueAt (cells ++ cells') p = valueAt cells p := by
  unfold valueAt
  rw [List.getElem?_append_left (List.getElem?_eq_some_iff.1 h).1]

theorem valueAt_set {v : V} {accepted : Bool} (h : cells[p]? = some ⟨v, accepted⟩) (accepted' : Bool)
    (q : Nat) :
    valueAt (cells.set p ⟨v, accepted'⟩) q = valueAt cells q := by
  unfold valueAt
  by_cases hpq : p = q
  · subst hpq
    rw [List.getElem?_set_self (List.getElem?_eq_some_iff.1 h).1, h]
    rfl
  · rw [List.getElem?_set_ne hpq]

theorem acceptedAt_append (hp : p < cells.length) (cells' : List (Cell V)) :
    acceptedAt (cells ++ cells') p = acceptedAt cells p := by
  unfold acceptedAt
  rw [List.getElem?_append_left hp]

theorem acceptedOf_eq (cells : List (Cell V)) :
    acceptedOf cells = (List.range cells.length).filterMap (acceptedAt cells) := by
  induction cells using List.reverseRecOn with
  | nil => rfl
  | append_singleton cells c ih =>
    have hlast : acceptedAt (cells ++ [c]) cells.length =
        if c.accepted then some c.value else none := by
      simp [acceptedAt]
    have hold : (List.range cells.length).filterMap (acceptedAt (cells ++ [c])) =
        (List.range cells.length).filterMap (acceptedAt cells) :=
      List.filterMap_congr fun p hp => acceptedAt_append (List.mem_range.1 hp) [c]
    rw [List.length_append, List.length_singleton, List.range_succ, List.filterMap_append, hold,
      ← ih, acceptedOf_append cells c.value c.accepted, List.filterMap_cons, hlast]
    cases c.accepted <;> rfl

/-! ## What a move keeps -/

/-- What waits is accepted, and every accepted value is in one place. -/
structure Inv (b : Book V) : Prop where
  nodup : b.waiting.Nodup
  place : ∀ p ∈ b.waiting, ∃ v, b.cells[p]? = some ⟨v, true⟩
  balanced : b.accepted.Perm (b.waitingValues ++ b.kept ++ b.gone)

variable {ok : V → Prop} {b b' : Book V}

theorem waitingValues_append {waiting : List Nat}
    (place : ∀ p ∈ waiting, ∃ v, cells[p]? = some ⟨v, true⟩) (cells' : List (Cell V)) :
    waiting.filterMap (valueAt (cells ++ cells')) = waiting.filterMap (valueAt cells) := by
  refine List.filterMap_congr fun p hp => ?_
  obtain ⟨v, hv⟩ := place p hp
  exact valueAt_append hv cells'

theorem Inv.next (h : Inv b) (hn : Next ok b b') : Inv b' := by
  obtain ⟨hnodup, hplace, hbal⟩ := h
  cases hn with
  | decline cells kept waiting gone v =>
    refine ⟨hnodup, fun p hp => ?_, ?_⟩
    · obtain ⟨v', hv'⟩ := hplace p hp
      exact ⟨v', (List.getElem?_append_left (List.getElem?_eq_some_iff.1 hv').1).trans hv'⟩
    · simp only [Book.accepted, Book.waitingValues, acceptedOf_append,
        waitingValues_append hplace] at hbal ⊢
      simpa using hbal
  | @wait cells kept waiting gone v hv =>
    have hnew : cells.length ∉ waiting := by
      intro hmem
      obtain ⟨v', hv'⟩ := hplace _ hmem
      simp at hv'
    refine ⟨?_, fun p hp => ?_, ?_⟩
    · refine List.nodup_append.2 ⟨hnodup, List.nodup_singleton _, fun a ha c hc he => ?_⟩
      obtain rfl := List.mem_singleton.1 hc
      exact hnew (he ▸ ha)
    · rcases List.mem_append.1 hp with hp | hp
      · obtain ⟨v', hv'⟩ := hplace p hp
        exact ⟨v', (List.getElem?_append_left (List.getElem?_eq_some_iff.1 hv').1).trans hv'⟩
      · obtain rfl := List.mem_singleton.1 hp
        exact ⟨v, by simp⟩
    · have hlast : valueAt (cells ++ [⟨v, true⟩]) cells.length = some v := by simp [valueAt]
      simp only [Book.accepted, Book.waitingValues, acceptedOf_append, List.filterMap_append,
        waitingValues_append hplace, if_true] at hbal ⊢
      simp only [List.filterMap_cons, List.filterMap_nil, hlast]
      refine (hbal.append_right [v]).trans ?_
      rw [List.append_assoc, List.append_assoc, List.append_assoc, List.append_assoc,
        List.singleton_append, ← List.append_assoc kept gone]
      exact (List.perm_append_singleton _ _).append_left _
  | @keep cells kept waiting gone v hv =>
    refine ⟨hnodup, fun p hp => ?_, ?_⟩
    · obtain ⟨v', hv'⟩ := hplace p hp
      exact ⟨v', (List.getElem?_append_left (List.getElem?_eq_some_iff.1 hv').1).trans hv'⟩
    · simp only [Book.accepted, Book.waitingValues, acceptedOf_append,
        waitingValues_append hplace, if_true] at hbal ⊢
      refine (hbal.append_right [v]).trans ?_
      rw [List.append_assoc, List.append_assoc, List.append_assoc, List.append_assoc,
        List.singleton_append]
      exact ((List.perm_append_singleton _ _).append_left _).append_left _
  | @keepWaiting cells kept waiting gone p v hv =>
    refine ⟨(List.nodup_cons.1 hnodup).2, fun q hq => hplace q (List.mem_cons_of_mem _ hq), ?_⟩
    have hat : valueAt cells p = some v := by simp [valueAt, hv]
    simp only [Book.accepted, Book.waitingValues, List.filterMap_cons, hat] at hbal ⊢
    refine hbal.trans ?_
    rw [List.cons_append, List.cons_append, List.append_assoc, List.append_assoc, List.append_assoc,
      List.singleton_append]
    exact (List.perm_middle.symm.trans (List.perm_middle.symm.append_left _))
  | @declineWaiting cells kept waiting gone p v hv =>
    obtain ⟨hp, hnodup'⟩ := List.nodup_cons.1 hnodup
    refine ⟨hnodup', fun q hq => ?_, ?_⟩
    · obtain ⟨v', hv'⟩ := hplace q (List.mem_cons_of_mem _ hq)
      have hne : p ≠ q := fun he => hp (he ▸ hq)
      exact ⟨v', (List.getElem?_set_ne hne).trans hv'⟩
    · have hat : valueAt cells p = some v := by simp [valueAt, hv]
      have hsame : waiting.filterMap (valueAt (cells.set p ⟨v, false⟩)) =
          waiting.filterMap (valueAt cells) :=
        List.filterMap_congr fun q _ => valueAt_set hv false q
      simp only [Book.accepted, Book.waitingValues, List.filterMap_cons, hat, hsame] at hbal ⊢
      exact ((acceptedOf_set hv).symm.trans hbal).cons_inv
  | @leave cells waiting gone kept kept' v hperm =>
    refine ⟨hnodup, hplace, ?_⟩
    simp only [Book.accepted, Book.waitingValues] at hbal ⊢
    refine hbal.trans ?_
    rw [List.append_assoc, List.append_assoc]
    refine List.Perm.append_left _ ((hperm.append_right gone).trans ?_)
    rw [List.cons_append, ← List.append_assoc]
    exact (List.perm_append_singleton _ _).symm
  | @reorder cells gone kept kept' waiting waiting' hkept hperm =>
    refine ⟨hperm.nodup_iff.1 hnodup, fun p hp => hplace p (hperm.mem_iff.2 hp), ?_⟩
    exact hbal.trans (((hperm.filterMap _).append hkept).append_right _)

/-- Every accepted value that waits no more is kept or has left, once. -/
theorem Inv.finished_perm (h : Inv b) : b.finished.Perm (b.kept ++ b.gone) := by
  have hwait : ((List.range b.cells.length).filter (· ∈ b.waiting)).Perm b.waiting := by
    refine (List.perm_ext_iff_of_nodup (List.nodup_range.filter _) h.nodup).2 fun p => ?_
    rw [List.mem_filter, List.mem_range]
    constructor
    · exact fun hp => by simpa using hp.2
    · intro hp
      obtain ⟨v, hv⟩ := h.place p hp
      exact ⟨(List.getElem?_eq_some_iff.1 hv).1, by simpa using hp⟩
  have hvalues : b.waiting.filterMap (acceptedAt b.cells) = b.waitingValues := by
    refine List.filterMap_congr fun p hp => ?_
    obtain ⟨v, hv⟩ := h.place p hp
    simp [acceptedAt, valueAt, hv]
  have hrest : ((List.range b.cells.length).filter fun p => ! decide (p ∈ b.waiting)).filterMap
      (acceptedAt b.cells) = b.finished := by
    rw [List.filterMap_filter]
    refine List.filterMap_congr fun p _ => ?_
    by_cases hp : p ∈ b.waiting <;> simp [hp]
  have hsplit : b.accepted.Perm (b.waitingValues ++ b.finished) := by
    unfold Book.accepted
    rw [acceptedOf_eq, ← hvalues, ← hrest]
    refine (List.filter_append_perm (· ∈ b.waiting) _).symm.filterMap _ |>.trans ?_
    rw [List.filterMap_append]
    exact (hwait.filterMap _).append_right _
  have hall := hsplit.symm.trans h.balanced
  rw [List.append_assoc] at hall
  exact (List.perm_append_left_iff _).1 hall

/-- Nothing bad is kept, and nothing bad waits. -/
structure Clean (bad : V → Prop) (b : Book V) : Prop where
  kept : ∀ v ∈ b.kept, ¬ bad v
  waiting : ∀ p ∈ b.waiting, ∀ v, valueAt b.cells p = some v → ¬ bad v

theorem Clean.next {bad : V → Prop} (h : Clean bad b) (hi : Inv b)
    (hn : Next (fun v => ¬ bad v) b b') : Clean bad b' := by
  have hplace := hi.place
  obtain ⟨hkept, hwait⟩ := h
  cases hn with
  | decline cells kept waiting gone v =>
    refine ⟨hkept, fun p hp => ?_⟩
    obtain ⟨v', hv'⟩ := hplace p hp
    rw [valueAt_append hv']
    exact hwait p hp
  | @wait cells kept waiting gone v hv =>
    refine ⟨hkept, fun p hp => ?_⟩
    rcases List.mem_append.1 hp with hp | hp
    · obtain ⟨v', hv'⟩ := hplace p hp
      rw [valueAt_append hv']
      exact hwait p hp
    · obtain rfl := List.mem_singleton.1 hp
      intro v' hv'
      obtain rfl : v = v' := by simpa [valueAt] using hv'
      exact hv
  | @keep cells kept waiting gone v hv =>
    refine ⟨fun v' hv' => ?_, fun p hp => ?_⟩
    · rcases List.mem_append.1 hv' with hv' | hv'
      · exact hkept v' hv'
      · obtain rfl := List.mem_singleton.1 hv'
        exact hv
    · obtain ⟨v', hv'⟩ := hplace p hp
      rw [valueAt_append hv']
      exact hwait p hp
  | @keepWaiting cells kept waiting gone p v hv =>
    refine ⟨fun v' hv' => ?_, fun q hq => hwait q (List.mem_cons_of_mem _ hq)⟩
    rcases List.mem_append.1 hv' with hv' | hv'
    · exact hkept v' hv'
    · obtain rfl := List.mem_singleton.1 hv'
      exact hwait p List.mem_cons_self v' (by simp [valueAt, hv])
  | @declineWaiting cells kept waiting gone p v hv =>
    refine ⟨hkept, fun q hq => ?_⟩
    rw [valueAt_set hv]
    exact hwait q (List.mem_cons_of_mem _ hq)
  | @leave cells waiting gone kept kept' v hperm =>
    exact ⟨fun v' hv' => hkept v' (hperm.mem_iff.2 (List.mem_cons_of_mem _ hv')), hwait⟩
  | @reorder cells gone kept kept' waiting waiting' hkept' hperm =>
    exact ⟨fun v hv => hkept v (hkept'.mem_iff.2 hv), fun p hp => hwait p (hperm.mem_iff.2 hp)⟩

/-! ## What any number of moves keeps -/

theorem Steps.leave (cells : List (Cell V)) (waiting : List Nat) {kept kept' vs : List V}
    (gone : List V) (h : kept.Perm (vs ++ kept')) :
    Steps ok ⟨cells, kept, waiting, gone⟩ ⟨cells, kept', waiting, gone ++ vs⟩ := by
  induction vs generalizing kept gone with
  | nil =>
    rw [List.append_nil]
    exact .single (.reorder cells gone h (List.Perm.refl _))
  | cons v vs ih =>
    have hrest := ih (gone ++ [v]) (List.Perm.refl (vs ++ kept'))
    rw [List.append_assoc, List.singleton_append] at hrest
    exact .head (.leave cells waiting gone h) hrest

theorem Inv.steps (h : Inv b) (hs : Steps ok b b') : Inv b' := by
  induction hs with
  | refl => exact h
  | tail _ hn ih => exact ih.next hn

theorem Clean.steps {bad : V → Prop} (h : Clean bad b) (hi : Inv b)
    (hs : Steps (fun v => ¬ bad v) b b') : Clean bad b' := by
  induction hs with
  | refl => exact h
  | tail hs hn ih => exact ih.next (hi.steps hs) hn

end Ledger
