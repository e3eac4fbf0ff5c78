import NeuralNetwork.StlExtension.CyclicUnorderedNodeMap

/-!
# The evicting map is a bounded sequence of entries

`Inv` says that the queue, seen through virtual addresses (`view`), is a chained table. Under it
every operation goes through, keeps `Inv`, and acts on the sequence of entries as `fifoInsert` and
`slotErase` say.
-/

namespace CyclicUnordered

open Cpp Loop Stdx HashChain Mem

/-! ## The abstract sequence -/

section Spec

variable {K V : Type} (pred : K → K → Bool)

def holds (es : List (K × V)) (k : K) : Bool := es.any fun e => pred e.1 k

/-- What a full container drops before an insertion. -/
def evict {E : Type} (cap : Nat) (es : List E) : List E := if es.length = cap then es.tail else es

/-- Insert into a sequence bounded by `cap`: a full one loses its front in any case, a present key
stays as it is. -/
def fifoInsert (cap : Nat) (es : List (K × V)) (e : K × V) : List (K × V) :=
  if holds pred (evict cap es) e.1 then evict cap es else evict cap es ++ [e]

def slotErase : List (K × V) → Nat → List (K × V)
  | [], _ => []
  | e :: es, p => ((e :: es).set p e).tail

theorem cons_slotErase_perm {es : List (K × V)} {p : Nat} {e : K × V} (h : es[p]? = some e) :
    (e :: slotErase es p).Perm es := by
  cases es with
  | nil => simp at h
  | cons x es =>
    cases p with
    | zero =>
      obtain rfl : x = e := by simpa using h
      exact List.Perm.refl _
    | succ p =>
      have h : es[p]? = some e := by simpa using h
      obtain ⟨hp, rfl⟩ := List.getElem?_eq_some_iff.1 h
      have h1 : (es.set p x).Perm (x :: es.eraseIdx p) := List.set_perm_cons_eraseIdx hp x
      have h2 : (es[p] :: es.eraseIdx p).Perm es := List.getElem_cons_eraseIdx_perm hp
      show (es[p] :: es.set p x).Perm (x :: es)
      exact ((h1.cons _).trans (List.Perm.swap _ _ _)).trans (h2.cons _)

end Spec

namespace CyclicUnorderedNodeMap

variable {K V : Type} (keys : Keys K)

/-! ## The view through virtual addresses -/

def decode (addr : Nat) : Option Nat := if addr = nullVirtualAddr then none else some addr

@[simp] theorem decode_null : decode nullVirtualAddr = none := by simp [decode]

theorem decode_eq_some {a v : Nat} (h : decode a = some v) : a = v ∧ a ≠ nullVirtualAddr := by
  unfold decode at h
  split at h
  · cases h
  · next hn => exact ⟨Option.some.inj h, hn⟩

theorem decode_eq_none {a : Nat} (h : decode a = none) : a = nullVirtualAddr := by
  by_contra hn
  simp [decode, hn] at h

theorem decode_getD (a : Nat) : (decode a).getD nullVirtualAddr = a := by
  unfold decode
  split
  · next hn => exact hn.symm
  · rfl

def entries (m : CyclicUnorderedNodeMap K V) : List (K × V) :=
  m.virtualStorageVec.items.map fun node => (node.first, node.second)

def cellOf (node : Node K V) : K × Option Nat := (node.first, decode node.nxtAddr)

def view (m : CyclicUnorderedNodeMap K V) : Mem K where
  bucket b := m.bucketVec[b]?.bind decode
  cell v := if v < m.storageCap then (m.virtualStorageVec.items[m.toStorageAddr v]?).map cellOf
    else none

def home (m : CyclicUnorderedNodeMap K V) (k : K) : Nat := m.toBucketIndex (keys.hasher k)

/-- Power-of-two sizes and an offset inside the queue. -/
structure Shape (m : CyclicUnorderedNodeMap K V) : Prop where
  cap_pow : ∃ e ≤ 50, m.storageCap = 2 ^ e
  bucket_pow : ∃ e ≤ 50, m.bucketVec.length = 2 ^ e
  offset_lt : m.virtualAddrOffset < m.storageCap
  size_le : m.size ≤ m.storageCap

/-- The container is in order: its shape, and a chained table over the virtual addresses. -/
structure Inv (m : CyclicUnorderedNodeMap K V) : Prop extends Shape m where
  chained : ∃ chain, Chained (m.home keys) keys.pred m.view chain

variable {keys} {m : CyclicUnorderedNodeMap K V}

theorem size_eq (m : CyclicUnorderedNodeMap K V) : m.size = m.entries.length := by
  simp [size, entries, Pow2CyclicQueue.size]

theorem two_pow_le {e : Nat} (h : e ≤ 50) : 2 ^ e ≤ 2 ^ 50 := Nat.pow_le_pow_right (by decide) h

theorem sizeT_mod {e : Nat} (he : e ≤ 50) (x : Nat) : sizeT x % 2 ^ e = x % 2 ^ e :=
  Nat.mod_mod_of_dvd x (Nat.pow_dvd_pow 2 (by omega))

namespace Shape

variable (h : Shape m)

include h

theorem cap_pos : 0 < m.storageCap := by
  obtain ⟨e, -, he⟩ := h.cap_pow
  exact he ▸ Nat.two_pow_pos e

theorem cap_le : m.storageCap ≤ 2 ^ 50 := by
  obtain ⟨e, h50, he⟩ := h.cap_pow
  exact he ▸ two_pow_le h50

theorem toBucketIndex_eq (x : Nat) : m.toBucketIndex x = x % m.bucketVec.length := by
  obtain ⟨e, h50, he⟩ := h.bucket_pow
  unfold toBucketIndex
  rw [he, and_mask (by omega)]

theorem home_lt (k : K) : m.home keys k < m.bucketVec.length := by
  obtain ⟨e, -, he⟩ := h.bucket_pow
  unfold home
  rw [h.toBucketIndex_eq, he]
  exact Nat.mod_lt _ (Nat.two_pow_pos e)

theorem toStorageAddr_eq (v : Nat) :
    m.toStorageAddr v = (m.virtualAddrOffset + v) % m.storageCap := by
  obtain ⟨e, h50, he⟩ := h.cap_pow
  unfold toStorageAddr
  rw [he, and_mask (by omega), sizeT_mod h50]

variable {s : Nat}

theorem toVirtualAddr_eq (hs : s < m.storageCap) :
    m.toVirtualAddr s = (s + m.storageCap - m.virtualAddrOffset) % m.storageCap := by
  have hcap := h.cap_le
  have hoff := h.offset_lt
  obtain ⟨e, h50, he⟩ := h.cap_pow
  unfold toVirtualAddr
  simp only []
  rw [he] at hs hoff hcap ⊢
  have h64 : e < 64 := by omega
  rw [and_mask h64, and_mask h64, Nat.mod_eq_of_lt hoff, sizeT_of_lt (by omega),
    subT_of_le (by omega) (by omega)]

theorem toVirtualAddr_lt (hs : s < m.storageCap) : m.toVirtualAddr s < m.storageCap := by
  rw [h.toVirtualAddr_eq hs]
  exact Nat.mod_lt _ h.cap_pos

theorem toStorageAddr_toVirtualAddr (hs : s < m.storageCap) :
    m.toStorageAddr (m.toVirtualAddr s) = s := by
  have hoff := h.offset_lt
  rw [h.toStorageAddr_eq, h.toVirtualAddr_eq hs, Nat.add_mod_mod]
  have : m.virtualAddrOffset + (s + m.storageCap - m.virtualAddrOffset) = s + m.storageCap := by omega
  rw [this, Nat.add_mod_right, Nat.mod_eq_of_lt hs]

theorem toVirtualAddr_toStorageAddr {v : Nat} (hv : v < m.storageCap) :
    m.toVirtualAddr (m.toStorageAddr v) = v := by
  have hoff := h.offset_lt
  have hlt : m.toStorageAddr v < m.storageCap := by
    rw [h.toStorageAddr_eq]
    exact Nat.mod_lt _ h.cap_pos
  rw [h.toVirtualAddr_eq hlt, h.toStorageAddr_eq]
  by_cases hc : m.virtualAddrOffset + v < m.storageCap
  · rw [Nat.mod_eq_of_lt hc]
    have : m.virtualAddrOffset + v + m.storageCap - m.virtualAddrOffset = v + m.storageCap := by omega
    rw [this, Nat.add_mod_right, Nat.mod_eq_of_lt hv]
  · have : (m.virtualAddrOffset + v) % m.storageCap = m.virtualAddrOffset + v - m.storageCap := by
      rw [Nat.mod_eq_sub_mod (by omega), Nat.mod_eq_of_lt (by omega)]
    rw [this, Nat.mod_eq_of_lt (by omega)]
    omega

theorem toVirtualAddr_ne_null (hs : s < m.storageCap) :
    m.toVirtualAddr s ≠ nullVirtualAddr := by
  have hcap := h.cap_le
  have hlt := h.toVirtualAddr_lt hs
  unfold nullVirtualAddr
  omega

theorem decode_toVirtualAddr (hs : s < m.storageCap) :
    decode (m.toVirtualAddr s) = some (m.toVirtualAddr s) :=
  if_neg (h.toVirtualAddr_ne_null hs)

theorem toStorageAddr_inj {v w : Nat} (hv : v < m.storageCap) (hw : w < m.storageCap)
    (e : m.toStorageAddr v = m.toStorageAddr w) : v = w := by
  rw [← h.toVirtualAddr_toStorageAddr hv, e, h.toVirtualAddr_toStorageAddr hw]

end Shape

/-! ## Places -/

def Valid (m : CyclicUnorderedNodeMap K V) : Ref → Prop
  | .bucket b => b < m.bucketVec.length
  | .next v => m.view.cell v ≠ none

variable {x : V} {node : Node K V} {m' : CyclicUnorderedNodeMap K V}
  {m : CyclicUnorderedNodeMap K V} {v : Nat}

theorem cell_ne_none (hv : m.view.cell v ≠ none) :
    v < m.storageCap ∧ ∃ node, m.virtualStorageVec.items[m.toStorageAddr v]? = some node ∧
      m.view.cell v = some (cellOf node) := by
  simp only [view] at hv ⊢
  by_cases hc : v < m.storageCap
  · rw [if_pos hc] at hv ⊢
    cases e : m.virtualStorageVec.items[m.toStorageAddr v]? with
    | none =>
      rw [e] at hv
      exact absurd rfl hv
    | some node => exact ⟨hc, node, rfl, rfl⟩
  · rw [if_neg hc] at hv
    exact absurd rfl hv

theorem get_of_some {q : Pow2CyclicQueue (Node K V)} {i : Nat} (h : q.items[i]? = some node) :
    q.get i = .ok node := by
  simp [Pow2CyclicQueue.get, h]

theorem load_ok {r : Ref} (hr : m.Valid r) :
    ∃ addr, m.load r = .ok addr ∧ decode addr = m.view.read r := by
  cases r with
  | bucket b =>
    have hb : b < m.bucketVec.length := hr
    refine ⟨m.bucketVec[b], ?_, ?_⟩
    · simp [load, hb]
    · simp [Mem.read, view, hb]
  | next v =>
    obtain ⟨-, node, hnode, hcell⟩ := cell_ne_none hr
    refine ⟨node.nxtAddr, ?_, ?_⟩
    · simp only [load, get_of_some hnode, ok_bind]
      rfl
    · simp [Mem.read, hcell, cellOf]

@[simp] theorem bucketVec_store_length (m : CyclicUnorderedNodeMap K V) (r : Ref) (a : Nat) :
    (m.store r a).bucketVec.length = m.bucketVec.length := by
  cases r <;> simp [store]

@[simp] theorem storageCap_store (m : CyclicUnorderedNodeMap K V) (r : Ref) (a : Nat) :
    (m.store r a).storageCap = m.storageCap := by
  cases r <;> rfl

@[simp] theorem virtualAddrOffset_store (m : CyclicUnorderedNodeMap K V) (r : Ref) (a : Nat) :
    (m.store r a).virtualAddrOffset = m.virtualAddrOffset := by
  cases r <;> rfl

@[simp] theorem toStorageAddr_store (m : CyclicUnorderedNodeMap K V) (r : Ref) (a v : Nat) :
    (m.store r a).toStorageAddr v = m.toStorageAddr v := by
  cases r <;> rfl

@[simp] theorem size_store (m : CyclicUnorderedNodeMap K V) (r : Ref) (a : Nat) :
    (m.store r a).size = m.size := by
  cases r <;> simp [store, size, Pow2CyclicQueue.size, Pow2CyclicQueue.modify]

@[simp] theorem entries_store (m : CyclicUnorderedNodeMap K V) (r : Ref) (a : Nat) :
    (m.store r a).entries = m.entries := by
  cases r with
  | bucket b => rfl
  | next v =>
    refine List.ext_getElem? fun i => ?_
    simp only [entries, store, Pow2CyclicQueue.modify, List.getElem?_map, List.getElem?_modify]
    cases m.virtualStorageVec.items[i]? with
    | none => rfl
    | some node => by_cases hi : m.toStorageAddr v = i <;> simp [hi]

theorem view_store (h : Shape m) {r : Ref} (hr : m.Valid r) (a : Nat) :
    (m.store r a).view = m.view.write r (decode a) := by
  cases r with
  | bucket b =>
    refine ext_of (fun b' => ?_) fun v => rfl
    by_cases hb : b' = b
    · subst hb
      have hb : b' < m.bucketVec.length := hr
      simp [view, store, Mem.write, hb]
    · simp [view, store, Mem.write, hb, List.getElem?_set_ne (Ne.symm hb)]
  | next v =>
    obtain ⟨hv, node, hnode, hcell⟩ := cell_ne_none hr
    refine ext_of (fun b' => rfl) fun w => ?_
    by_cases hw : w = v
    · subst hw
      have hit : (m.store (.next w) a).virtualStorageVec.items[m.toStorageAddr w]? =
          some { node with nxtAddr := a } := by
        simp [store, Pow2CyclicQueue.modify, hnode]
      simp only [Mem.write, Function.update_self, hcell]
      simp only [view, storageCap_store, toStorageAddr_store, if_pos hv, hit]
      rfl
    · simp only [Mem.write, Function.update_of_ne hw]
      by_cases hw' : w < m.storageCap
      · have hne : m.toStorageAddr v ≠ m.toStorageAddr w :=
          fun e => hw (h.toStorageAddr_inj hv hw' e).symm
        have hit : (m.store (.next v) a).virtualStorageVec.items[m.toStorageAddr w]? =
            m.virtualStorageVec.items[m.toStorageAddr w]? := by
          simp [store, Pow2CyclicQueue.modify, hne]
        simp only [view, storageCap_store, toStorageAddr_store, if_pos hw', hit]
      · simp only [view, storageCap_store, if_neg hw']

/-! ## Lookup -/

variable {p : Nat} {key k : K} {chain : Nat → List Nat}

theorem home_eq {l : K} (hp : keys.pred k l = true) :
    m.home keys k = m.home keys l := by
  unfold home
  rw [keys.hash_eq hp]

/-- What the search for a key finds: the place that leads to its cell, or the end of its chain. -/
theorem reference_ok (h : Shape m)
    (hc : Chained (m.home keys) keys.pred m.view chain) (key : K) :
    (∃ v k pre post, m.view.key v = some k ∧ keys.pred k key = true ∧
      chain (m.home keys key) = pre ++ v :: post ∧
      m.internalFindBucketReference keys key = .ok (refAfter (.bucket (m.home keys key)) pre) ∧
      m.Valid (refAfter (.bucket (m.home keys key)) pre) ∧
      m.load (refAfter (.bucket (m.home keys key)) pre) = .ok v) ∨
    ((∀ v k, m.view.key v = some k → keys.pred k key = false) ∧
      m.internalFindBucketReference keys key =
        .ok (refAfter (.bucket (m.home keys key)) (chain (m.home keys key))) ∧
      m.Valid (refAfter (.bucket (m.home keys key)) (chain (m.home keys key))) ∧
      m.load (refAfter (.bucket (m.home keys key)) (chain (m.home keys key))) =
        .ok nullVirtualAddr) := by
  refine hc.search (f := m.findFrom keys key) (fun k l hp => home_eq hp) (fun v hv => hv)
    (h.home_lt key) (fun r hr => ?_) ?_ ?_
    (Nat.lt_succ_of_le (hc.length_le (fun v hv => (cell_ne_none hv).1) _))
  · obtain ⟨addr, hload, hdec⟩ := load_ok hr
    rw [hload, ← hdec, decode_getD]
  · intro n r hr hread
    obtain ⟨addr, hload, hdec⟩ := load_ok hr
    have hnull := decode_eq_none (hdec.trans hread)
    simp only [findFrom, hload, ok_bind, if_pos hnull]
    rfl
  · intro n r v hr hread hcell
    obtain ⟨addr, hload, hdec⟩ := load_ok hr
    obtain ⟨rfl, hne⟩ := decode_eq_some (hdec.trans hread)
    obtain ⟨-, node, hnode, hcell⟩ := cell_ne_none hcell
    refine ⟨node.first, by simp [Mem.key, hcell, cellOf], ?_⟩
    simp only [findFrom, hload, ok_bind, if_neg hne, get_of_some hnode]
    split <;> rfl

/-! ## Steps and their views -/

theorem Shape.store (h : Shape m) (r : Ref) (a : Nat) : Shape (m.store r a) := by
  refine ⟨?_, ?_, ?_, ?_⟩
  · simpa using h.cap_pow
  · simpa using h.bucket_pow
  · simpa using h.offset_lt
  · simpa using h.size_le

theorem entries_getElem? (m : CyclicUnorderedNodeMap K V) (i : Nat) :
    m.entries[i]? = (m.virtualStorageVec.items[i]?).map fun node => (node.first, node.second) := by
  simp [entries]

theorem key_eq_some :
    m.view.key v = some k ↔ v < m.storageCap ∧ ∃ x, m.entries[m.toStorageAddr v]? = some (k, x) := by
  simp only [Mem.key, view, entries_getElem?]
  by_cases hv : v < m.storageCap
  · rw [if_pos hv]
    cases m.virtualStorageVec.items[m.toStorageAddr v]? with
    | none => simp
    | some node => simp [hv, cellOf]
  · simp [hv]

theorem key_toVirtualAddr (h : Shape m) {i : Nat} (hi : m.entries[i]? = some (k, x)) :
    i < m.storageCap ∧ m.view.key (m.toVirtualAddr i) = some k := by
  have hlt : i < m.storageCap := by
    have := (List.getElem?_eq_some_iff.1 hi).1
    have := h.size_le
    rw [size_eq] at this
    omega
  refine ⟨hlt, key_eq_some.2 ⟨h.toVirtualAddr_lt hlt, x, ?_⟩⟩
  rw [h.toStorageAddr_toVirtualAddr hlt]
  exact hi

/-- The container without its front node; virtual addresses keep their meaning. -/
def dropFront (m : CyclicUnorderedNodeMap K V) : CyclicUnorderedNodeMap K V :=
  ⟨⟨m.virtualStorageVec.items.tail, m.storageCap⟩, m.bucketVec,
    (m.virtualAddrOffset + (m.storageCap - 1)) % m.storageCap⟩

theorem popFront_ok (h : Shape m) (hne : m.entries ≠ []) : m.popFront = .ok m.dropFront := by
  have hcap := h.cap_le
  have hpos := h.cap_pos
  have hoff := h.offset_lt
  obtain ⟨node, rest, hitems⟩ : ∃ node rest, m.virtualStorageVec.items = node :: rest :=
    List.exists_cons_of_ne_nil fun e => hne (by simp [entries, e])
  obtain ⟨e, -, he⟩ := h.cap_pow
  have hoff' : sizeT (m.virtualAddrOffset + subT m.storageCap 1) &&& subT m.storageCap 1 =
      (m.virtualAddrOffset + (m.storageCap - 1)) % m.storageCap := by
    rw [subT_of_le hpos (by omega), sizeT_of_lt (by omega), he, Nat.and_two_pow_sub_one_eq_mod]
  simp only [popFront, Pow2CyclicQueue.popFront, hitems, ok_bind, hoff', dropFront]
  rfl

theorem Shape.dropFront (h : Shape m) : Shape m.dropFront := by
  refine ⟨h.cap_pow, h.bucket_pow, Nat.mod_lt _ h.cap_pos, ?_⟩
  have hsize := h.size_le
  simp only [size, Pow2CyclicQueue.size, CyclicUnorderedNodeMap.dropFront, storageCap,
    List.length_tail] at hsize ⊢
  omega

@[simp] theorem entries_dropFront (m : CyclicUnorderedNodeMap K V) :
    m.dropFront.entries = m.entries.tail := by
  simp [entries, dropFront]

theorem view_dropFront (h : Shape m) :
    m.dropFront.view = m.view.setCell (m.toVirtualAddr 0) none := by
  have hpos := h.cap_pos
  have hsize := h.size_le
  refine ext_of (fun b => rfl) fun v => ?_
  have hcap : m.dropFront.storageCap = m.storageCap := rfl
  have hshift : m.dropFront.toStorageAddr v =
      (m.toStorageAddr v + (m.storageCap - 1)) % m.storageCap := by
    rw [h.dropFront.toStorageAddr_eq, h.toStorageAddr_eq, hcap, Nat.mod_add_mod]
    simp only [dropFront, Nat.mod_add_mod]
    congr 1
    omega
  by_cases hv : v = m.toVirtualAddr 0
  · subst hv
    have hlast : m.dropFront.toStorageAddr (m.toVirtualAddr 0) = m.storageCap - 1 := by
      rw [hshift, h.toStorageAddr_toVirtualAddr hpos, Nat.zero_add]
      exact Nat.mod_eq_of_lt (by omega)
    have hnone : m.dropFront.virtualStorageVec.items[m.storageCap - 1]? = none := by
      simp only [size, Pow2CyclicQueue.size] at hsize
      refine List.getElem?_eq_none ?_
      simp only [dropFront, List.length_tail]
      omega
    rw [cell_setCell_self]
    simp only [view, hcap, hlast, hnone, Option.map_none, ite_self]
  · rw [cell_setCell_of_ne _ hv]
    simp only [view, hcap]
    by_cases hlt : v < m.storageCap
    · have hne : m.toStorageAddr v ≠ 0 := fun e => hv <| by
        rw [← e, h.toVirtualAddr_toStorageAddr hlt]
      have hs : m.toStorageAddr v < m.storageCap := by
        rw [h.toStorageAddr_eq]
        exact Nat.mod_lt _ hpos
      have hpred : m.dropFront.toStorageAddr v = m.toStorageAddr v - 1 := by
        have e : m.toStorageAddr v + (m.storageCap - 1) = m.toStorageAddr v - 1 + m.storageCap := by
          omega
        rw [hshift, e, Nat.add_mod_right, Nat.mod_eq_of_lt (by omega)]
      have hget : m.dropFront.virtualStorageVec.items[m.toStorageAddr v - 1]? =
          m.virtualStorageVec.items[m.toStorageAddr v]? := by
        simp only [dropFront, List.getElem?_tail]
        congr 1
        omega
      rw [if_pos hlt, if_pos hlt, hpred, hget]
    · rw [if_neg hlt, if_neg hlt]

theorem pushBack_eq (hroom : m.size < m.storageCap) (node : Node K V) :
    m.pushBack node = { m with virtualStorageVec :=
      ⟨m.virtualStorageVec.items ++ [node], m.virtualStorageVec.cap⟩ } := by
  have hpush : m.virtualStorageVec.pushBack node =
      ⟨m.virtualStorageVec.items ++ [node], m.virtualStorageVec.cap⟩ :=
    if_neg (Nat.ne_of_lt hroom)
  rw [pushBack, hpush]

theorem entries_pushBack (hroom : m.size < m.storageCap) (node : Node K V) :
    (m.pushBack node).entries = m.entries ++ [(node.first, node.second)] := by
  rw [pushBack_eq hroom]
  simp [entries]

theorem storageCap_pushBack (hroom : m.size < m.storageCap) (node : Node K V) :
    (m.pushBack node).storageCap = m.storageCap := by
  rw [pushBack_eq hroom]
  rfl

theorem Shape.pushBack (h : Shape m) (hroom : m.size < m.storageCap) (node : Node K V) :
    Shape (m.pushBack node) := by
  refine ⟨?_, h.bucket_pow, ?_, ?_⟩
  · rw [storageCap_pushBack hroom]
    exact h.cap_pow
  · rw [storageCap_pushBack hroom]
    exact h.offset_lt
  · rw [storageCap_pushBack hroom, size_eq, entries_pushBack hroom, List.length_append, ← size_eq]
    exact hroom

theorem view_pushBack (h : Shape m) (hroom : m.size < m.storageCap) (node : Node K V) :
    (m.pushBack node).view = m.view.setCell (m.toVirtualAddr m.size) (some (cellOf node)) := by
  rw [pushBack_eq hroom]
  refine ext_of (fun b => rfl) fun v => ?_
  by_cases hv : v = m.toVirtualAddr m.size
  · subst hv
    have hlast : (m.virtualStorageVec.items ++ [node])[m.size]? = some node := by
      simp [size, Pow2CyclicQueue.size]
    rw [cell_setCell_self]
    show (if m.toVirtualAddr m.size < m.storageCap then
      ((m.virtualStorageVec.items ++ [node])[m.toStorageAddr (m.toVirtualAddr m.size)]?).map cellOf
      else none) = _
    rw [if_pos (h.toVirtualAddr_lt hroom), h.toStorageAddr_toVirtualAddr hroom, hlast]
    rfl
  · rw [cell_setCell_of_ne _ hv]
    show (if v < m.storageCap then
      ((m.virtualStorageVec.items ++ [node])[m.toStorageAddr v]?).map cellOf else none) =
      if v < m.storageCap then (m.virtualStorageVec.items[m.toStorageAddr v]?).map cellOf else none
    by_cases hlt : v < m.storageCap
    · have hne : m.toStorageAddr v ≠ m.virtualStorageVec.items.length := fun e => hv <| by
        rw [← h.toVirtualAddr_toStorageAddr hlt, e]
        rfl
      have hget : (m.virtualStorageVec.items ++ [node])[m.toStorageAddr v]? =
          m.virtualStorageVec.items[m.toStorageAddr v]? := by
        by_cases hs : m.toStorageAddr v < m.virtualStorageVec.items.length
        · exact List.getElem?_append_left hs
        · have hle : m.virtualStorageVec.items.length + 1 ≤ m.toStorageAddr v := by omega
          rw [List.getElem?_eq_none (by simpa using hle), List.getElem?_eq_none (by omega)]
      rw [hget]
    · rw [if_neg hlt, if_neg hlt]

theorem Shape.setSlot (h : Shape m) (slot : Nat) (node : Node K V) : Shape (m.setSlot slot node) := by
  refine ⟨h.cap_pow, h.bucket_pow, h.offset_lt, ?_⟩
  have hlen : (m.setSlot slot node).size = m.size := List.length_modify ..
  rw [hlen]
  exact h.size_le

theorem entries_setSlot (m : CyclicUnorderedNodeMap K V) (slot : Nat) (node : Node K V) :
    (m.setSlot slot node).entries = m.entries.set slot (node.first, node.second) := by
  refine List.ext_getElem? fun i => ?_
  simp only [entries, setSlot, Pow2CyclicQueue.modify, List.getElem?_map, List.getElem?_modify,
    List.getElem?_set, List.length_map]
  by_cases hi : slot = i
  · subst hi
    by_cases hlt : slot < m.virtualStorageVec.items.length
    · simp [hlt]
    · simp [hlt]
  · simp [hi]

theorem view_setSlot (h : Shape m) (hv : m.view.cell v ≠ none) (node : Node K V) :
    (m.setSlot (m.toStorageAddr v) node).view = m.view.setCell v (some (cellOf node)) := by
  obtain ⟨hlt, old, hold, -⟩ := cell_ne_none hv
  refine ext_of (fun b => rfl) fun w => ?_
  show (if w < m.storageCap then ((m.virtualStorageVec.items.modify (m.toStorageAddr v)
    fun _ => node)[m.toStorageAddr w]?).map cellOf else none) = _
  by_cases hw : w = v
  · subst hw
    rw [cell_setCell_self, if_pos hlt, List.getElem?_modify_eq, hold]
    rfl
  · rw [cell_setCell_of_ne _ hw]
    by_cases hw' : w < m.storageCap
    · have hne : m.toStorageAddr v ≠ m.toStorageAddr w :=
        fun e => hw (h.toStorageAddr_inj hlt hw' e).symm
      rw [List.getElem?_modify_ne _ _ hne]
      rfl
    · rw [if_neg hw']
      exact (if_neg hw').symm

/-! ## Lookup in terms of entries -/

theorem home_congr (e : m'.bucketVec.length = m.bucketVec.length) : m'.home keys = m.home keys := by
  funext k
  simp only [home, toBucketIndex, e]

theorem holds_iff (h : Shape m) (key : K) :
    holds keys.pred m.entries key = true ↔
      ∃ v k, m.view.key v = some k ∧ keys.pred k key = true := by
  unfold holds
  rw [List.any_eq_true]
  constructor
  · rintro ⟨⟨k, x⟩, hmem, hp⟩
    obtain ⟨i, hi⟩ := List.getElem?_of_mem hmem
    exact ⟨_, k, (key_toVirtualAddr h hi).2, hp⟩
  · rintro ⟨v, k, hk, hp⟩
    obtain ⟨-, x, hx⟩ := key_eq_some.1 hk
    exact ⟨(k, x), List.mem_of_getElem? hx, hp⟩

theorem not_holds_iff (h : Shape m) (key : K) :
    holds keys.pred m.entries key = false ↔
      ∀ v k, m.view.key v = some k → keys.pred k key = false := by
  rw [← Bool.not_eq_true, holds_iff h]
  simp only [not_exists, not_and, Bool.not_eq_true]

theorem Inv.entries_distinct (h : Inv keys m) {i j : Nat} {l : K} {x y : V}
    (hi : m.entries[i]? = some (k, x)) (hj : m.entries[j]? = some (l, y))
    (hp : keys.pred k l = true) : i = j := by
  obtain ⟨chain, hc⟩ := h.chained
  obtain ⟨hi', hki⟩ := key_toVirtualAddr h.toShape hi
  obtain ⟨hj', hkj⟩ := key_toVirtualAddr h.toShape hj
  have := congrArg m.toStorageAddr (hc.distinct _ _ k l hki hkj hp)
  rwa [h.toStorageAddr_toVirtualAddr hi', h.toStorageAddr_toVirtualAddr hj'] at this

theorem Inv.eq_toVirtualAddr (h : Inv keys m) {l : K} (hp : m.entries[p]? = some (k, x))
    (hk : keys.pred k key = true) (hv : m.view.key v = some l) (hl : keys.pred l key = true) :
    v = m.toVirtualAddr p := by
  obtain ⟨chain, hc⟩ := h.chained
  exact hc.distinct _ _ l k hv (key_toVirtualAddr h.toShape hp).2
    (keys.trans hl (keys.symm hk))

theorem front_ok (h : Shape m) (hne : m.entries ≠ []) :
    ∃ node, m.virtualStorageVec.front = .ok node ∧ m.virtualStorageVec.items[0]? = some node ∧
      m.view.cell (m.toVirtualAddr 0) = some (cellOf node) := by
  obtain ⟨node, rest, hitems⟩ : ∃ node rest, m.virtualStorageVec.items = node :: rest :=
    List.exists_cons_of_ne_nil fun e => hne (by simp [entries, e])
  refine ⟨node, by simp [Pow2CyclicQueue.front, hitems], by simp [hitems], ?_⟩
  simp only [view, if_pos (h.toVirtualAddr_lt h.cap_pos), h.toStorageAddr_toVirtualAddr h.cap_pos,
    hitems]
  rfl

theorem find_absent (h : Inv keys m) (hno : holds keys.pred m.entries key = false) :
    m.find keys key = .ok m.entries.length := by
  obtain ⟨chain, hc⟩ := h.chained
  rw [not_holds_iff h.toShape] at hno
  rcases reference_ok h.toShape hc key with ⟨v, k, -, -, hk, hp, -⟩ | ⟨-, hfind, -, hload⟩
  · rw [hno v k hk] at hp
    cases hp
  · simp only [find, internalFind, hfind, hload, ok_bind, if_true, size_eq]
    rfl

theorem find_ok (h : Inv keys m) (hentry : m.entries[p]? = some (k, x)) (hpred : keys.pred k key = true) :
    m.find keys key = .ok p := by
  obtain ⟨chain, hc⟩ := h.chained
  obtain ⟨hlt, hkey⟩ := key_toVirtualAddr h.toShape hentry
  rcases reference_ok h.toShape hc key with ⟨v, l, pre, post, hl, hp, -, hfind, -, hload⟩ | ⟨hno, -⟩
  · have hv := h.eq_toVirtualAddr hentry hpred hl hp
    have hne : v ≠ nullVirtualAddr := hv ▸ h.toVirtualAddr_ne_null hlt
    simp only [find, internalFind, hfind, hload, ok_bind, if_neg hne]
    rw [hv, h.toStorageAddr_toVirtualAddr hlt]
    rfl
  · rw [hno _ _ hkey] at hpred
    cases hpred

theorem contains_ok (h : Inv keys m) (key : K) :
    m.contains keys key = .ok (holds keys.pred m.entries key) := by
  cases hh : holds keys.pred m.entries key with
  | false =>
    simp only [contains, find_absent h hh, ok_bind, size_eq]
    simp [pure, Except.pure]
  | true =>
    unfold holds at hh
    obtain ⟨⟨k, x⟩, hmem, hp⟩ := List.any_eq_true.1 hh
    obtain ⟨p, hentry⟩ := List.getElem?_of_mem hmem
    have hlt := (List.getElem?_eq_some_iff.1 hentry).1
    simp only [contains, find_ok h hentry hp, ok_bind, size_eq]
    simp [pure, Except.pure, Nat.ne_of_lt hlt]

/-! ## Operations -/

theorem Inv.of_view (hs : Shape m') (e : m'.bucketVec.length = m.bucketVec.length)
    (hc : ∃ chain, Chained (m.home keys) keys.pred m'.view chain) : Inv keys m' :=
  ⟨hs, by rwa [home_congr e]⟩

theorem front_reference (h : Inv keys m) (hc : Chained (m.home keys) keys.pred m.view chain)
    (hcell : m.view.cell (m.toVirtualAddr 0) = some (cellOf node)) :
    ∃ pre post, chain (m.home keys node.first) = pre ++ m.toVirtualAddr 0 :: post ∧
      m.internalFindBucketReference keys node.first =
        .ok (refAfter (.bucket (m.home keys node.first)) pre) ∧
      m.Valid (refAfter (.bucket (m.home keys node.first)) pre) := by
  have hkey : m.view.key (m.toVirtualAddr 0) = some node.first := by
    simp [Mem.key, hcell, cellOf]
  rcases reference_ok h.toShape hc node.first with ⟨v, k, pre, post, hk, hp, e, hfind, hvalid, -⟩ |
    ⟨hno, -⟩
  · obtain rfl := hc.distinct _ _ k node.first hk hkey hp
    exact ⟨pre, post, e, hfind, hvalid⟩
  · have := hno _ _ hkey
    rw [keys.refl] at this
    cases this

theorem toVirtualAddr_store (m : CyclicUnorderedNodeMap K V) (r : Ref) (a s : Nat) :
    (m.store r a).toVirtualAddr s = m.toVirtualAddr s := by
  cases r <;> rfl

theorem unlinkFront_inv (h : Inv keys m) (hc : Chained (m.home keys) keys.pred m.view chain) {b : Nat}
    {pre post : List Nat} (hcell : m.view.cell (m.toVirtualAddr 0) = some (cellOf node))
    (e : chain b = pre ++ m.toVirtualAddr 0 :: post) (hvalid : m.Valid (refAfter (.bucket b) pre)) :
    Inv keys (m.store (refAfter (.bucket b) pre) node.nxtAddr).dropFront := by
  have hs := h.toShape.store (refAfter (.bucket b) pre) node.nxtAddr
  have hread : m.view.read (.next (m.toVirtualAddr 0)) = decode node.nxtAddr := by
    simp [Mem.read, hcell, cellOf]
  have hview : (m.store (refAfter (.bucket b) pre) node.nxtAddr).dropFront.view =
      (m.view.write (refAfter (.bucket b) pre) (m.view.read (.next (m.toVirtualAddr 0)))).setCell
        (m.toVirtualAddr 0) none := by
    rw [view_dropFront hs, view_store h.toShape hvalid, toVirtualAddr_store, hread]
  have hun := hc.unlink e
  rw [← hview] at hun
  exact Inv.of_view hs.dropFront (bucketVec_store_length m _ _) ⟨_, hun⟩

theorem internalEraseFront_ok (h : Inv keys m) (hne : m.entries ≠ []) :
    ∃ m', m.internalEraseFront keys = .ok m' ∧ Inv keys m' ∧ m'.entries = m.entries.tail ∧
      m'.storageCap = m.storageCap := by
  obtain ⟨chain, hc⟩ := h.chained
  obtain ⟨node, hfront, -, hcell⟩ := front_ok h.toShape hne
  obtain ⟨pre, post, e, hfind, hvalid⟩ := front_reference h hc hcell
  have hs := h.toShape.store (refAfter (.bucket (m.home keys node.first)) pre) node.nxtAddr
  refine ⟨_, ?_, unlinkFront_inv h hc hcell e hvalid, by simp, storageCap_store m _ _⟩
  simp only [internalEraseFront, hfront, hfind, ok_bind]
  exact popFront_ok hs (by simpa using hne)

/-- What an insertion answers: the position of an entry that has the key, the new one if it was
absent. -/
def InsertAnswer (keys : Keys K) (m' : CyclicUnorderedNodeMap K V) (e : K × V) (pos : Nat)
    (fresh : Bool) : Prop :=
  (∃ k x, m'.entries[pos]? = some (k, x) ∧ keys.pred k e.1 = true) ∧
  (fresh = true → m'.entries[pos]? = some e ∧ pos + 1 = m'.entries.length)

theorem internalInsertRoom_ok (h : Inv keys m) (hroom : m.size < m.storageCap) {value : Node K V}
    (hnull : value.nxtAddr = nullVirtualAddr) :
    ∃ m' pos, m.internalInsertRoom keys value =
        .ok (m', pos, !holds keys.pred m.entries value.first) ∧ Inv keys m' ∧
      m'.entries = (if holds keys.pred m.entries value.first then m.entries
        else m.entries ++ [(value.first, value.second)]) ∧
      m'.storageCap = m.storageCap ∧
      InsertAnswer keys m' (value.first, value.second) pos
        (!holds keys.pred m.entries value.first) := by
  obtain ⟨chain, hc⟩ := h.chained
  have hcap := h.cap_le
  rcases reference_ok h.toShape hc value.first with
    ⟨v, k, pre, post, hk, hp, e, hfind, -, hload⟩ | ⟨hno, hfind, hvalid, hload⟩
  · have hh := (holds_iff h.toShape value.first).2 ⟨v, k, hk, hp⟩
    obtain ⟨hv, x, hx⟩ := key_eq_some.1 hk
    have hne : v ≠ nullVirtualAddr := by
      unfold nullVirtualAddr
      omega
    refine ⟨m, m.toStorageAddr v, ?_, h, by simp [hh], rfl, ⟨k, x, hx, hp⟩, by simp [hh]⟩
    simp only [internalInsertRoom, hfind, hload, ok_bind, if_neg hne, hh]
    rfl
  · have hh := (not_holds_iff h.toShape value.first).2 hno
    generalize hr : refAfter (.bucket (m.home keys value.first)) (chain (m.home keys value.first)) = r
      at hfind hvalid hload
    have hs := h.toShape.store r (m.toVirtualAddr m.size)
    have hroom' : (m.store r (m.toVirtualAddr m.size)).size <
        (m.store r (m.toVirtualAddr m.size)).storageCap := by simpa using hroom
    have hlt := h.toVirtualAddr_lt hroom
    have hview := view_pushBack hs hroom' value
    rw [view_store h.toShape hvalid, toVirtualAddr_store, size_store,
      h.decode_toVirtualAddr hroom] at hview
    have hentries := entries_pushBack hroom' value
    rw [entries_store] at hentries
    have hlast : (m.entries ++ [(value.first, value.second)])[m.size]? =
        some (value.first, value.second) := by
      rw [size_eq]
      simp
    refine ⟨_, m.size, ?_, ?_, hentries.trans (by simp [hh]), ?_, ?_⟩
    · have : ((m.store r (m.toVirtualAddr m.size)).pushBack value).size - 1 = m.size := by
        rw [size_eq, hentries, List.length_append, size_eq]
        rfl
      simp only [internalInsertRoom, hfind, hload, ok_bind, if_true, hh, this]
      rfl
    · have hcell : m.view.cell (m.toVirtualAddr m.size) = none := by
        have hend : m.virtualStorageVec.items[m.size]? = none := List.getElem?_eq_none (Nat.le_refl _)
        simp only [view, if_pos hlt, h.toStorageAddr_toVirtualAddr hroom, hend]
        rfl
      have hsym : ∀ w l, m.view.key w = some l → keys.pred value.first l = false := fun w l hl => by
        by_contra hs
        rw [Bool.not_eq_false] at hs
        have := hno w l hl
        rw [keys.symm hs] at this
        cases this
      have hins := hc.insert hcell (k := value.first) fun w l hl => ⟨hno w l hl, hsym w l hl⟩
      refine Inv.of_view (hs.pushBack hroom' value) (bucketVec_store_length m _ _) ?_
      rw [hview, ← hr]
      simp only [cellOf, hnull, decode_null]
      exact ⟨_, hins⟩
    · rw [storageCap_pushBack hroom', storageCap_store]
    · refine ⟨⟨value.first, value.second, by rw [hentries, hlast], keys.refl _⟩, fun _ => ?_⟩
      rw [hentries, hlast, List.length_append, ← size_eq]
      exact ⟨rfl, rfl⟩

/-- **insert**, **try_emplace**: a full container loses its front, then an absent key is appended. -/
theorem internalInsert_ok (h : Inv keys m) (value : Node K V)
    (hnull : value.nxtAddr = nullVirtualAddr) :
    ∃ m' pos, m.internalInsert keys value =
        .ok (m', pos, !holds keys.pred (evict m.storageCap m.entries) value.first) ∧ Inv keys m' ∧
      m'.entries = fifoInsert keys.pred m.storageCap m.entries (value.first, value.second) ∧
      m'.storageCap = m.storageCap ∧
      InsertAnswer keys m' (value.first, value.second) pos
        (!holds keys.pred (evict m.storageCap m.entries) value.first) := by
  unfold fifoInsert evict
  by_cases hfull : m.size = m.storageCap
  · have hpos := h.cap_pos
    have hlen : m.entries.length = m.storageCap := by rw [← size_eq, hfull]
    have hne : m.entries ≠ [] := List.ne_nil_of_length_pos (by omega)
    obtain ⟨m1, e1, h1, he1, hc1⟩ := internalEraseFront_ok h hne
    have hroom : m1.size < m1.storageCap := by
      rw [size_eq, he1, hc1, List.length_tail]
      omega
    obtain ⟨m2, pos, e2, h2, he2, hc2, ha⟩ := internalInsertRoom_ok h1 hroom hnull
    rw [he1] at e2 he2 ha
    simp only [if_pos hlen]
    refine ⟨m2, pos, ?_, h2, he2, hc2.trans hc1, ha⟩
    simp only [internalInsert, if_pos hfull, e1, ok_bind, e2]
  · have hroom : m.size < m.storageCap := by
      have := h.size_le
      omega
    obtain ⟨m2, pos, e2, h2, he2, hc2, ha⟩ := internalInsertRoom_ok h hroom hnull
    have hlen : m.entries.length ≠ m.storageCap := by rwa [← size_eq]
    simp only [if_neg hlen]
    refine ⟨m2, pos, ?_, h2, he2, hc2, ha⟩
    simp only [internalInsert, if_neg hfull, e2]

/-! ## Erase -/

theorem node_reference (h : Inv keys m) (hc : Chained (m.home keys) keys.pred m.view chain)
    (hentry : m.entries[p]? = some (k, x)) (hpred : keys.pred k key = true) :
    ∃ b pre post node, chain b = pre ++ m.toVirtualAddr p :: post ∧
      m.internalFindBucketReference keys key = .ok (refAfter (.bucket b) pre) ∧
      m.Valid (refAfter (.bucket b) pre) ∧
      m.load (refAfter (.bucket b) pre) = .ok (m.toVirtualAddr p) ∧
      m.virtualStorageVec.get p = .ok node ∧
      m.view.cell (m.toVirtualAddr p) = some (cellOf node) := by
  obtain ⟨hlt, hkey⟩ := key_toVirtualAddr h.toShape hentry
  rcases reference_ok h.toShape hc key with
    ⟨v, l, pre, post, hl, hp, e, hfind, hvalid, hload⟩ | ⟨hno, -⟩
  · obtain rfl := h.eq_toVirtualAddr hentry hpred hl hp
    obtain ⟨-, node, hnode, hcell⟩ := cell_ne_none (key_isSome hkey)
    rw [h.toStorageAddr_toVirtualAddr hlt] at hnode
    exact ⟨_, pre, post, node, e, hfind, hvalid, hload, get_of_some hnode, hcell⟩
  · rw [hno _ _ hkey] at hpred
    cases hpred

theorem Valid.store (h : Shape m) {r r' : Ref} (hr : m.Valid r) (hr' : m.Valid r') (a : Nat) :
    (m.store r a).Valid r' := by
  cases r' with
  | bucket b =>
    show b < (m.store r a).bucketVec.length
    rw [bucketVec_store_length]
    exact hr'
  | next v =>
    show (m.store r a).view.cell v ≠ none
    rw [view_store h hr]
    exact fun hn => hr' (cell_write_isNone.1 hn)

theorem relinkFront_ok (h : Inv keys m)
    (hc : Chained (m.home keys) keys.pred m.view chain) {b c : Nat}
    {pre post pre' post' : List Nat} {node front : Node K V} (hp : 0 < p) (hlt : p < m.storageCap)
    (ei : chain b = pre ++ m.toVirtualAddr p :: post)
    (ej : chain c = pre' ++ m.toVirtualAddr 0 :: post')
    (hvi : m.Valid (refAfter (.bucket b) pre)) (hvj : m.Valid (refAfter (.bucket c) pre'))
    (hnode : m.virtualStorageVec.get p = .ok node)
    (hcell : m.view.cell (m.toVirtualAddr p) = some (cellOf node))
    (hfront : m.virtualStorageVec.items[0]? = some front) :
    ∃ m', m.relinkFront (refAfter (.bucket b) pre) (refAfter (.bucket c) pre')
        (m.toVirtualAddr p) = .ok m' ∧ Shape m' ∧ Inv keys m'.dropFront ∧
      m'.entries = m.entries.set p (front.first, front.second) ∧ m'.storageCap = m.storageCap := by
  have hpos := h.cap_pos
  have hne : m.toVirtualAddr 0 ≠ m.toVirtualAddr p := fun e => by
    have := congrArg m.toStorageAddr e
    rw [h.toStorageAddr_toVirtualAddr hpos, h.toStorageAddr_toVirtualAddr hlt] at this
    omega
  generalize hr : (if refAfter (.bucket c) pre' = .next (m.toVirtualAddr p)
    then refAfter (.bucket b) pre else refAfter (.bucket c) pre') = r
  have hvr : m.Valid r := by
    rw [← hr]
    split
    · exact hvi
    · exact hvj
  -- the container after the two stores
  generalize hm1 : m.store (refAfter (.bucket b) pre) node.nxtAddr = m1
  have hs1 : Shape m1 := hm1 ▸ h.toShape.store _ _
  have hv1 : m1.Valid r := hm1 ▸ Valid.store h.toShape hvi hvr _
  generalize hm2 : m1.store r (m.toVirtualAddr p) = m2
  have hs2 : Shape m2 := hm2 ▸ hs1.store _ _
  have hread : m.view.read (.next (m.toVirtualAddr p)) = decode node.nxtAddr := by
    simp [Mem.read, hcell, cellOf]
  have hview2 : m2.view = (m.view.write (refAfter (.bucket b) pre)
      (m.view.read (.next (m.toVirtualAddr p)))).write r (some (m.toVirtualAddr p)) := by
    rw [← hm2, view_store hs1 hv1, ← hm1, view_store h.toShape hvi, hread,
      h.decode_toVirtualAddr hlt]
  have hentries2 : m2.entries = m.entries := by rw [← hm2, ← hm1, entries_store, entries_store]
  have hcap2 : m2.storageCap = m.storageCap := by rw [← hm2, ← hm1]; simp
  have haddr2 : ∀ v, m2.toStorageAddr v = m.toStorageAddr v := fun v => by rw [← hm2, ← hm1]; simp
  have hvirt2 : ∀ v, m2.toVirtualAddr v = m.toVirtualAddr v := fun v => by
    rw [← hm2, ← hm1, toVirtualAddr_store, toVirtualAddr_store]
  have hlen2 : m2.bucketVec.length = m.bucketVec.length := by rw [← hm2, ← hm1]; simp
  have hv2 : m2.Valid r := hm2 ▸ Valid.store hs1 hv1 hv1 _
  -- the place that led to the front now leads to the freed slot
  obtain ⟨addr, hload, hdec⟩ := load_ok hv2
  have haddr : addr = m.toVirtualAddr p := by
    have hself : m2.view.read r = some (m.toVirtualAddr p) := by
      rw [hview2]
      refine read_write_self _ ?_
      cases r with
      | bucket b' => trivial
      | next v =>
        intro hn
        rw [cell_write_isNone] at hn
        exact hvr hn
    exact (decode_eq_some (hdec.trans hself)).1
  subst haddr
  have hne2 : m2.entries ≠ [] := by
    rw [hentries2]
    intro e
    have : m.entries[0]? = some (front.first, front.second) := by
      rw [entries_getElem?, hfront]
      rfl
    simp [e] at this
  obtain ⟨front2, hfront2, hitem2, hcell2⟩ := front_ok hs2 hne2
  have hsame : (front2.first, front2.second) = (front.first, front.second) := by
    have h2 := entries_getElem? m2 0
    rw [hentries2, entries_getElem?, hfront, hitem2] at h2
    exact (Option.some.inj h2).symm
  have hlive : m2.view.cell (m.toVirtualAddr p) ≠ none := by
    rw [hview2]
    intro hn
    rw [cell_write_isNone, cell_write_isNone, hcell] at hn
    cases hn
  have hentries3 : (m2.setSlot p front2).entries = m.entries.set p (front.first, front.second) := by
    rw [entries_setSlot, hentries2, hsame]
  refine ⟨m2.setSlot p front2, ?_, hs2.setSlot _ _, ?_, hentries3, hcap2⟩
  · simp only [relinkFront, hr, h.toStorageAddr_toVirtualAddr hlt, hnode, ok_bind, hm1, hm2,
      hfront2, hload, haddr2]
    rfl
  · refine Inv.of_view (m := m) (hs2.setSlot _ _).dropFront hlen2 ?_
    have hslot := view_setSlot hs2 hlive front2
    rw [haddr2, h.toStorageAddr_toVirtualAddr hlt] at hslot
    have hvirt3 : (m2.setSlot p front2).toVirtualAddr 0 = m.toVirtualAddr 0 := hvirt2 0
    rw [hvirt2] at hcell2
    rw [view_dropFront (hs2.setSlot _ _), hvirt3, hslot, ← hcell2]
    exact hc.erase hne ei ej hr.symm hview2

theorem internalEraseKey_absent (h : Inv keys m)
    (hno : holds keys.pred m.entries key = false) :
    m.internalEraseKey keys key = .ok (m, false) := by
  obtain ⟨chain, hc⟩ := h.chained
  rw [not_holds_iff h.toShape] at hno
  rcases reference_ok h.toShape hc key with ⟨v, k, -, -, hk, hp, -⟩ | ⟨-, hfind, -, hload⟩
  · rw [hno v k hk] at hp
    cases hp
  · simp only [internalEraseKey, hfind, hload, ok_bind, if_true]
    rfl

/-- **erase** of the key of the entry at `p`: the front moves there and the front slot goes. -/
theorem internalEraseKey_ok (h : Inv keys m) (hentry : m.entries[p]? = some (k, x))
    (hpred : keys.pred k key = true) :
    ∃ m', m.internalEraseKey keys key = .ok (m', true) ∧ Inv keys m' ∧
      m'.entries = slotErase m.entries p ∧ m'.storageCap = m.storageCap := by
  obtain ⟨chain, hc⟩ := h.chained
  have hpos := h.cap_pos
  obtain ⟨hlt, -⟩ := key_toVirtualAddr h.toShape hentry
  have hne : m.entries ≠ [] := fun e => by simp [e] at hentry
  obtain ⟨b, pre, post, node, ei, hfindi, hvi, hloadi, hget, hcell⟩ :=
    node_reference h hc hentry hpred
  obtain ⟨front, hfront, hitem, hcell0⟩ := front_ok h.toShape hne
  obtain ⟨pre', post', ej, hfindj, hvj⟩ := front_reference h hc hcell0
  have hnull := h.toVirtualAddr_ne_null hlt
  have hlist : slotErase m.entries p = (m.entries.set p (front.first, front.second)).tail := by
    have h0 : m.entries[0]? = some (front.first, front.second) := by
      rw [entries_getElem?, hitem]
      rfl
    cases hm : m.entries with
    | nil => exact absurd hm hne
    | cons e es =>
      rw [hm] at h0
      obtain rfl : e = _ := by simpa using h0
      rfl
  have hslot := h.toStorageAddr_toVirtualAddr hlt
  by_cases hp : p = 0
  · subst hp
    have hsame : refAfter (.bucket (m.home keys front.first)) pre' = refAfter (.bucket b) pre := by
      obtain ⟨hb, hpre⟩ := hc.split_unique ej ei
      rw [hb, hpre]
    have hs := h.toShape.store (refAfter (.bucket b) pre) node.nxtAddr
    refine ⟨_, ?_, unlinkFront_inv h hc hcell ei hvi, ?_, storageCap_store m _ _⟩
    · have hpop := popFront_ok hs (by simpa using hne)
      rw [internalEraseKey, hfindi, ok_bind, hloadi, ok_bind, if_neg hnull, hfront, ok_bind, hfindj,
        ok_bind, if_pos hsame, hslot, hget, ok_bind, hpop]
      rfl
    · rw [hlist, entries_dropFront, entries_store]
      cases m.entries <;> rfl
  · have hdiff : refAfter (.bucket (m.home keys front.first)) pre' ≠ refAfter (.bucket b) pre := by
      intro e
      have h1 := (ej ▸ hc.links (m.home keys front.first)).read_refAfter.1
      have h2 := (ei ▸ hc.links b).read_refAfter.1
      rw [e, h2] at h1
      have := congrArg m.toStorageAddr (Option.some.inj h1)
      rw [hslot, h.toStorageAddr_toVirtualAddr hpos] at this
      exact hp this
    obtain ⟨m', e', hs', hinv, hentries, hcap'⟩ := relinkFront_ok h hc (Nat.pos_of_ne_zero hp) hlt
      ei ej hvi hvj hget hcell hitem
    refine ⟨m'.dropFront, ?_, hinv, ?_, hcap'⟩
    · have hne' : m'.entries ≠ [] := by
        rw [hentries]
        intro e
        exact hne (List.eq_nil_of_length_eq_zero (by simpa using congrArg List.length e))
      rw [internalEraseKey, hfindi, ok_bind, hloadi, ok_bind, if_neg hnull, hfront, ok_bind, hfindj,
        ok_bind, if_neg hdiff, e', ok_bind, popFront_ok hs' hne']
      rfl
    · rw [hlist, entries_dropFront, hentries]

theorem internalEraseIter_ok (h : Inv keys m) {e : K × V}
    (hentry : m.entries[p]? = some e) :
    ∃ m', m.internalEraseIter keys p = .ok (m', p) ∧ Inv keys m' ∧
      m'.entries = slotErase m.entries p ∧ m'.storageCap = m.storageCap := by
  obtain ⟨m', e', h', hentries, hcap⟩ := internalEraseKey_ok h hentry (keys.refl e.1)
  refine ⟨m', ?_, h', hentries, hcap⟩
  have hlt : p < m.size := by
    rw [size_eq]
    exact (List.getElem?_eq_some_iff.1 hentry).1
  rw [entries_getElem?] at hentry
  cases hnode : m.virtualStorageVec.items[p]? with
  | none => simp [hnode] at hentry
  | some node =>
    obtain rfl : (node.first, node.second) = e := by simpa [hnode] using hentry
    rw [internalEraseIter, if_neg (Nat.ne_of_lt hlt), get_of_some hnode, ok_bind, e', ok_bind]
    rfl

/-! ## The rest of the interface -/

theorem Inv.of_empty (h : Shape m) (hitems : m.virtualStorageVec.items = [])
    (hnull : ∀ a ∈ m.bucketVec, a = nullVirtualAddr) : Inv keys m := by
  have hcell : ∀ v, m.view.cell v = none := fun v => by simp [view, hitems]
  have hkey : ∀ v k, m.view.key v ≠ some k := fun v k => by simp [Mem.key, hcell v]
  refine ⟨h, fun _ => [], fun b => ?_, by simp, fun v k hk => absurd hk (hkey v k), by simp,
    fun v w k l hk => absurd hk (hkey v k)⟩
  show m.bucketVec[b]?.bind decode = none
  cases e : m.bucketVec[b]? with
  | none => rfl
  | some a => simp [hnull a (List.mem_of_getElem? e)]

theorem clear_ok (h : Inv keys m) :
    Inv keys m.clear ∧ m.clear.entries = [] ∧ m.clear.storageCap = m.storageCap := by
  refine ⟨Inv.of_empty ⟨h.cap_pow, ?_, h.cap_pos, Nat.zero_le _⟩ rfl ?_, rfl, rfl⟩
  · simpa [clear] using h.bucket_pow
  · simp [clear]

theorem make_ok {lf : LoadFactor} {bucketCount : Nat} (e : make lf bucketCount = .ok m) :
    Inv keys m ∧ m.entries = [] ∧ ∃ c, ceil2 bucketCount = .ok c ∧ c ≤ maxCapacity ∧
      m.storageCap = max c minCapacity / lf.den := by
  unfold make at e
  obtain ⟨c, hc, e⟩ := bind_eq_ok e
  obtain ⟨cap, hcap, e⟩ := bind_eq_ok e
  unfold minSizeClamp at hcap
  split at hcap
  · cases hcap
  next hle =>
  obtain rfl := Except.ok.inj hcap
  obtain rfl := Except.ok.inj e
  obtain ⟨x, -, rfl⟩ := ceil2_pow hc
  have hle : 2 ^ x ≤ 2 ^ 50 := Nat.not_lt.1 hle
  have hx : x ≤ 50 := (Nat.pow_le_pow_iff_right (by decide)).1 hle
  obtain ⟨y, hy3, hy, hmax⟩ : ∃ y, 3 ≤ y ∧ y ≤ 50 ∧ max (2 ^ x) minCapacity = 2 ^ y := by
    by_cases h3 : 3 ≤ x
    · have : 2 ^ 3 ≤ 2 ^ x := Nat.pow_le_pow_right (by decide) h3
      exact ⟨x, h3, hx, Nat.max_eq_left this⟩
    · have : 2 ^ x ≤ 2 ^ 3 := Nat.pow_le_pow_right (by decide) (by omega)
      exact ⟨3, Nat.le_refl _, by decide, Nat.max_eq_right this⟩
  obtain ⟨z, hz, hdiv⟩ : ∃ z, z ≤ 50 ∧ 2 ^ y / lf.den = 2 ^ z := by
    cases lf with
    | half => exact ⟨y - 1, by omega, by
        show 2 ^ y / 2 = 2 ^ (y - 1)
        rw [show y = y - 1 + 1 by omega, Nat.pow_succ]
        simp⟩
    | full => exact ⟨y, hy, by simp [LoadFactor.den]⟩
  have hright : rightCapacityToSize lf (2 ^ y) = 2 ^ z := by
    have := two_pow_le hz
    rw [rightCapacityToSize, hdiv, LoadFactor.num, Nat.mul_one, sizeT_of_lt (by omega)]
  rw [hmax, hright, ulog2_two_pow]
  refine ⟨Inv.of_empty ⟨⟨z, hz, rfl⟩, ⟨y, hy, by simp⟩, Nat.two_pow_pos z, Nat.zero_le _⟩ rfl ?_,
    rfl, 2 ^ x, hc, hle, ?_⟩
  · simp
  · rw [hmax, hdiv]
    rfl

theorem assign_ok (h : Inv keys m) (hentry : m.entries[p]? = some (k, x)) (mapped : V) :
    Inv keys (m.assign p mapped) ∧
      (m.assign p mapped).entries = m.entries.set p (k, mapped) ∧
      (m.assign p mapped).storageCap = m.storageCap := by
  have hview : (m.assign p mapped).view = m.view := by
    refine ext_of (fun b => rfl) fun v => ?_
    show (if v < m.storageCap then ((m.virtualStorageVec.items.modify p
      fun node => { node with second := mapped })[m.toStorageAddr v]?).map cellOf else none) = _
    rw [List.getElem?_modify]
    simp only [view]
    cases m.virtualStorageVec.items[m.toStorageAddr v]? with
    | none => simp
    | some node => by_cases hp : p = m.toStorageAddr v <;> simp [hp, cellOf]
  refine ⟨⟨⟨h.cap_pow, h.bucket_pow, h.offset_lt, ?_⟩, ?_⟩, ?_, rfl⟩
  · have hlen : (m.assign p mapped).size = m.size := List.length_modify ..
    rw [hlen]
    exact h.size_le
  · rw [hview]
    exact h.chained
  · rw [entries_getElem?] at hentry
    refine List.ext_getElem? fun i => ?_
    simp only [entries, assign, Pow2CyclicQueue.modify, List.getElem?_map, List.getElem?_modify,
      List.getElem?_set, List.length_map]
    by_cases hi : p = i
    · subst hi
      cases e : m.virtualStorageVec.items[p]? with
      | none => simp [e] at hentry
      | some node =>
        have hlt := (List.getElem?_eq_some_iff.1 e).1
        simp only [e, Option.map_some, Option.some.injEq, Prod.mk.injEq] at hentry
        simp [hlt, hentry.1]
    · simp [hi]

end CyclicUnorderedNodeMap

/-! ## Sets -/

section Sets

variable {K : Type}

theorem map_evict (cap : Nat) (es : List (K × Unit)) :
    (evict cap es).map Prod.fst = evict cap (es.map Prod.fst) := by
  unfold evict
  rw [List.length_map]
  split
  · exact List.map_tail
  · rfl

variable [DecidableEq K] (hasher : K → Nat)

theorem holds_ofHash (es : List (K × Unit)) (k : K) :
    holds (Keys.ofHash hasher).pred es k = true ↔ k ∈ es.map Prod.fst := by
  unfold holds
  rw [List.any_eq_true, List.mem_map]
  simp only [Keys.ofHash_pred]

theorem map_fifoInsert (cap : Nat) (es : List (K × Unit)) (k : K) :
    (fifoInsert (Keys.ofHash hasher).pred cap es (k, ())).map Prod.fst =
      if k ∈ evict cap (es.map Prod.fst) then evict cap (es.map Prod.fst)
      else evict cap (es.map Prod.fst) ++ [k] := by
  unfold fifoInsert
  rw [← map_evict]
  by_cases hk : k ∈ (evict cap es).map Prod.fst
  · rw [if_pos hk, if_pos ((holds_ofHash hasher _ k).2 hk)]
  · rw [if_neg hk, if_neg fun hh => hk ((holds_ofHash hasher _ k).1 hh), List.map_append]
    rfl

omit [DecidableEq K] in
theorem mem_of_mem_evict {cap : Nat} {ks : List K} {k : K} (h : k ∈ evict cap ks) : k ∈ ks := by
  unfold evict at h
  split at h
  · exact List.mem_of_mem_tail h
  · exact h

end Sets

end CyclicUnordered
