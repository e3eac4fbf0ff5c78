import Mathlib.Algebra.BigOperators.Group.List.Basic
import NeuralNetwork.Funnel.Proof.Funnel
import NeuralNetwork.Funnel.Scopes

/-!
# Accounts of nested handles

An `Account` of a state is an invariant and a total, in a commutative monoid. `Adds f m`: in a state
with the invariant `f` goes through, keeps it and adds `m`. A handle counts for the events it holds,
so that delivering an event adds its worth, whatever the handle pushes (`Consumes.deliver`,
`ConsumesKV.deliver`), and closing the handle adds nothing (`Consumes.close`, `ConsumesKV.close`).
-/

namespace Funnel

open Cpp Loop

structure Account (S M : Type) where
  Inv : S → Prop
  total : S → M

namespace Account

variable {S M H K E : Type} [AddCommMonoid M] {A : Account S M}

def Adds (A : Account S M) (f : S → Except Fault S) (m : M) : Prop :=
  ∀ s, A.Inv s → ∃ s', f s = .ok s' ∧ A.Inv s' ∧ A.total s' = A.total s + m

/-- `f` goes through, to another account of the same total. -/
def Turns {S' : Type} (A : Account S M) (A' : Account S' M) (f : S → Except Fault S') : Prop :=
  ∀ s, A.Inv s → ∃ s', f s = .ok s' ∧ A'.Inv s' ∧ A'.total s' = A.total s

theorem Adds.skip : A.Adds .ok 0 := fun s hs => ⟨s, rfl, hs, (add_zero _).symm⟩

theorem Adds.bind {f g : S → Except Fault S} {m m' : M} (hf : A.Adds f m) (hg : A.Adds g m') :
    A.Adds (fun s => f s >>= g) (m + m') := by
  intro s hs
  obtain ⟨s1, e1, h1, t1⟩ := hf s hs
  obtain ⟨s2, e2, h2, t2⟩ := hg s1 h1
  refine ⟨s2, ?_, h2, by rw [t2, t1, add_assoc]⟩
  show f s >>= g = _
  rw [e1]
  exact e2

variable {f : S → E → Except Fault S}

theorem Adds.foldlM {worth : E → M} {events : List E} (h : ∀ e ∈ events, A.Adds (f · e) (worth e)) :
    A.Adds (fun s => events.foldlM f s) (events.map worth).sum := by
  intro s hs
  induction events generalizing s with
  | nil => exact ⟨s, rfl, hs, (add_zero _).symm⟩
  | cons e events ih =>
    obtain ⟨s1, e1, h1, t1⟩ := h e List.mem_cons_self s hs
    obtain ⟨s2, e2, h2, t2⟩ := ih (fun e he => h e (List.mem_cons_of_mem _ he)) s1 h1
    refine ⟨s2, ?_, h2, ?_⟩
    · replace e1 : f s e = .ok s1 := e1
      show (e :: events).foldlM f s = .ok s2
      rw [List.foldlM_cons, e1]
      exact e2
    · rw [t2, t1, List.map_cons, List.sum_cons, add_assoc]

/-! ## Local variables -/

def withLocal (A : Account S M) (InvH : H → Prop) (held : H → M) : Account (Scoped H S) M where
  Inv s := InvH s.here ∧ A.Inv s.outer
  total s := A.total s.outer + held s.here

theorem Adds.inOuter {f : S → Except Fault S} {m : M} (h : A.Adds f m) (InvH : H → Prop)
    (held : H → M) : (A.withLocal InvH held).Adds (·.inOuter f) m := by
  rintro ⟨here, outer⟩ ⟨hh, hs⟩
  obtain ⟨s', e, hs', ht⟩ := h outer hs
  refine ⟨⟨here, s'⟩, ?_, ⟨hh, hs'⟩, ?_⟩
  · show (f outer >>= fun outer => .ok (⟨here, outer⟩ : Scoped H S)) = _
    rw [e]
    rfl
  · show A.total s' + held here = A.total outer + held here + m
    rw [ht, add_right_comm]

/-! ## Plain handles -/

/-- The handle holds no more events than it may, and those that it may. -/
structure Holds (cap : Nat) (ok : E → Prop) (h : DeliveryHandle E) : Prop where
  cap_eq : h.deliverableCap = cap
  length_le : h.deliverableArr.length ≤ cap
  ok : ∀ e ∈ h.deliverableArr, ok e

def held (worth : E → M) (h : DeliveryHandle E) : M := (h.deliverableArr.map worth).sum

abbrev handle (A : Account S M) (cap : Nat) (ok : E → Prop) (worth : E → M) :
    Account (Scoped (DeliveryHandle E) S) M :=
  A.withLocal (Holds cap ok) (held worth)

/-- `push` takes batches of up to `sz` events for their worth. -/
def Consumes (A : Account S M) (sz : Nat) (ok : E → Prop) (worth : E → M)
    (push : S → List E → Except Fault S) : Prop :=
  ∀ batch, batch.length ≤ sz → (∀ e ∈ batch, ok e) → A.Adds (push · batch) (batch.map worth).sum

theorem Consumes.of_each {ok : E → Prop} {worth : E → M} (h : ∀ e, ok e → A.Adds (f · e) (worth e))
    (sz : Nat) :
    A.Consumes sz ok worth fun s batch => batch.foldlM f s :=
  fun _ _ hok => .foldlM fun e he => h e (hok e he)

variable {cap sz : Nat} {ok : E → Prop} {worth : E → M} {push : S → List E → Except Fault S}

theorem Consumes.all (h : A.Consumes sz ok worth push) {batches : List (List E)}
    (hsz : ∀ batch ∈ batches, batch.length ≤ sz) (hok : ∀ e ∈ batches.flatten, ok e) :
    A.Adds (fun s => batches.foldlM push s) (batches.flatten.map worth).sum := by
  have hsum : (batches.flatten.map worth).sum =
      (batches.map fun batch => (batch.map worth).sum).sum := by
    rw [List.map_flatten, List.sum_flatten, List.map_map]
    rfl
  rw [hsum]
  exact .foldlM fun batch hb => h batch (hsz batch hb) fun e he =>
    hok e (List.mem_flatten.2 ⟨batch, hb, he⟩)

theorem Consumes.deliver (h : A.Consumes sz ok worth push) (hsz : max cap 1 ≤ sz) {event : E}
    (hevent : ok event) : (A.handle cap ok worth).Adds (·.deliver push event) (worth event) := by
  rintro ⟨here, outer⟩ ⟨hh, hs⟩
  obtain ⟨hle, hbatch⟩ := here.deliver_length_le event (hh.cap_eq ▸ hh.length_le)
  have hflat := here.deliver_flatten event
  have hall : ∀ e ∈ (here.deliver event).2.flatten ++ (here.deliver event).1.deliverableArr, ok e := by
    intro e he
    rw [hflat] at he
    rcases List.mem_append.1 he with he | he
    · exact hh.ok e he
    · exact List.mem_singleton.1 he ▸ hevent
  rw [hh.cap_eq] at hle hbatch
  obtain ⟨s', e, hs', ht⟩ := h.all (fun batch hb => Nat.le_trans (hbatch batch hb) hsz)
    (fun e he => hall e (List.mem_append_left _ he)) outer hs
  refine ⟨⟨(here.deliver event).1, s'⟩, ?_, ⟨⟨?_, hle, fun e he => ?_⟩, hs'⟩, ?_⟩
  · replace e : (here.deliver event).2.foldlM push outer = .ok s' := e
    show ((here.deliver event).2.foldlM push outer >>= fun outer =>
      .ok (⟨(here.deliver event).1, outer⟩ : Scoped (DeliveryHandle E) S)) = _
    rw [e]
    rfl
  · rw [DeliveryHandle.deliver_cap, hh.cap_eq]
  · exact hall e (List.mem_append_right _ he)
  · show A.total s' + held worth _ = A.total outer + held worth here + worth event
    have hsum := congrArg (fun l : List E => (l.map worth).sum) hflat
    simp only [List.map_append, List.sum_append, List.map_singleton, List.sum_singleton] at hsum
    rw [ht, add_assoc, add_assoc]
    exact congrArg _ hsum

theorem Consumes.close (h : A.Consumes sz ok worth push) (hsz : cap ≤ sz) :
    (A.handle cap ok worth).Turns A (·.close push) := by
  rintro ⟨here, outer⟩ ⟨hh, hs⟩
  have hflat := here.clear_flatten
  have hbatch : ∀ batch ∈ here.clear.2, batch.length ≤ sz := by
    intro batch hb
    unfold DeliveryHandle.clear at hb
    split at hb
    · rw [List.mem_singleton.1 hb]
      exact Nat.le_trans hh.length_le hsz
    · cases hb
  obtain ⟨s', e, hs', ht⟩ := h.all hbatch (fun e he => hh.ok e (hflat ▸ he)) outer hs
  refine ⟨s', e, hs', ?_⟩
  rw [ht, hflat]
  rfl

theorem handle_open (A : Account S M) (ok : E → Prop) (worth : E → M)
    (hcap : cap ≤ maxDeliverableCap) :
    A.Turns (A.handle cap ok worth) (Scoped.openHandle cap) := by
  intro s hs
  refine ⟨⟨⟨[], cap⟩, s⟩, ?_, ⟨⟨rfl, Nat.zero_le _, by simp⟩, hs⟩, add_zero _⟩
  unfold Scoped.openHandle DeliveryHandle.openHandle
  rw [if_neg (Nat.not_lt.2 hcap)]
  rfl

/-! ## Key-value handles -/

def HoldsKV (cap : Nat) (h : KVDeliveryHandle K E) : Prop := h.Inv ∧ h.deliverableCap = cap

def heldKV (worth : K × E → M) (h : KVDeliveryHandle K E) : M := ((pairs h.groups).map worth).sum

abbrev handleKV (A : Account S M) (cap : Nat) (worth : K × E → M) :
    Account (Scoped (KVDeliveryHandle K E) S) M :=
  A.withLocal (HoldsKV cap) (heldKV worth)

def ConsumesKV (A : Account S M) (sz : Nat) (worth : K × E → M)
    (push : S → Group K E → Except Fault S) : Prop :=
  ∀ group : Group K E, group.2.length ≤ sz → A.Adds (push · group) ((pairs [group]).map worth).sum

variable {worthKV : K × E → M} {pushKV : S → Group K E → Except Fault S}

theorem ConsumesKV.all (h : A.ConsumesKV sz worthKV pushKV) {groups : List (Group K E)}
    (hsz : ∀ group ∈ groups, group.2.length ≤ sz) :
    A.Adds (fun s => groups.foldlM pushKV s) ((pairs groups).map worthKV).sum := by
  have hsum : ((pairs groups).map worthKV).sum =
      (groups.map fun group => ((pairs [group]).map worthKV).sum).sum := by
    clear hsz
    induction groups with
    | nil => rfl
    | cons group groups ih =>
      rw [List.map_cons, List.sum_cons, ← ih, ← List.sum_append, ← List.map_append,
        ← pairs_append, List.singleton_append]
  rw [hsum]
  exact .foldlM fun group hg => h group (hsz group hg)

theorem ConsumesKV.deliver [DecidableEq K] (h : A.ConsumesKV sz worthKV pushKV)
    (hsz : max cap 1 ≤ sz) (key : K) (event : E) :
    (A.handleKV cap worthKV).Adds (·.deliverKV pushKV key event) (worthKV (key, event)) := by
  rintro ⟨here, outer⟩ ⟨⟨hi, hcap⟩, hs⟩
  obtain ⟨here', pushed, e1, d⟩ := KVDeliveryHandle.deliver_ok hi key event
  obtain ⟨s', e2, hs', ht⟩ := h.all
    (fun group hg => Nat.le_trans (hcap ▸ (d.bound group hg).2) hsz) outer hs
  refine ⟨⟨here', s'⟩, ?_, ⟨⟨d.inv, d.cap.trans hcap⟩, hs'⟩, ?_⟩
  · replace e2 : pushed.foldlM pushKV outer = .ok s' := e2
    show (here.deliver key event >>= fun r => r.2.foldlM pushKV outer >>= fun outer =>
      .ok (⟨r.1, outer⟩ : Scoped (KVDeliveryHandle K E) S)) = _
    rw [e1, ok_bind, e2]
    rfl
  · show A.total s' + heldKV worthKV here' = A.total outer + heldKV worthKV here + worthKV (key, event)
    have hsum := (d.pairs.map worthKV).sum_eq
    simp only [List.map_append, List.sum_append, List.map_singleton, List.sum_singleton] at hsum
    rw [ht, add_assoc, add_assoc]
    exact congrArg _ hsum

theorem ConsumesKV.close (h : A.ConsumesKV sz worthKV pushKV) (hsz : cap ≤ sz) :
    (A.handleKV cap worthKV).Turns A (·.closeKV pushKV) := by
  rintro ⟨here, outer⟩ ⟨⟨hi, hcap⟩, hs⟩
  obtain ⟨here', e1, -⟩ := KVDeliveryHandle.clear_ok hi
  obtain ⟨s', e2, hs', ht⟩ := h.all
    (fun group hg => Nat.le_trans (hcap ▸ (hi.bound hg).2) hsz) outer hs
  refine ⟨s', ?_, hs', ht⟩
  show (here.clear >>= fun r => r.2.foldlM pushKV outer) = _
  rw [e1]
  exact e2

theorem handleKV_open (A : Account S M) (worthKV : K × E → M) (layout : EventLayout) (head : Nat)
    (hcap : cap ≤ maxDeliverableCap) :
    A.Turns (A.handleKV cap worthKV) (Scoped.openKV layout head cap) := by
  intro s hs
  obtain ⟨h, e, hi, hc, hg, -⟩ := KVDeliveryHandle.openHandle_ok (K := K) (E := E) layout head hcap
  refine ⟨⟨h, s⟩, ?_, ⟨⟨hi, hc⟩, hs⟩, ?_⟩
  · unfold Scoped.openKV
    rw [e]
    rfl
  · show A.total s + ((pairs h.groups).map worthKV).sum = _
    rw [hg]
    exact add_zero _

end Account

end Funnel
