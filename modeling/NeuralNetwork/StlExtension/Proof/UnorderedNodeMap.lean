import NeuralNetwork.StlExtension.UnorderedNodeMap

/-!
# The dense hash map is a chained table

`Linked P n m` says that the first `n` nodes, seen through their addresses (`viewTo`), are a chained
table; `Inv P m` says so of all. Under it every call goes through, keeps `Inv` and acts on the
entries as a list does.
-/

namespace UnorderedMapVariants

open Cpp Stdx HashChain Loop

/-! ## The load factor -/

theorem LoadFactor.den_mul_gcd (lf : LoadFactor) : lf.den * Nat.gcd lf.eighths 8 = 8 :=
  Nat.div_mul_cancel (Nat.gcd_dvd_right _ _)

theorem LoadFactor.num_mul_gcd (lf : LoadFactor) : lf.num * Nat.gcd lf.eighths 8 = lf.eighths :=
  Nat.div_mul_cancel (Nat.gcd_dvd_left _ _)

theorem LoadFactor.den_pos (lf : LoadFactor) : 0 < lf.den :=
  Nat.pos_of_mul_pos_right (lf.den_mul_gcd ▸ (by decide : 0 < 8))

theorem LoadFactor.num_pos (lf : LoadFactor) : 0 < lf.num :=
  Nat.pos_of_mul_pos_right (lf.num_mul_gcd.symm ▸ lf.pos)

theorem Params.rightCapacityToSize_pow (P : Params) {e : Nat} (h3 : 3 ≤ e) (h50 : e ≤ 50) :
    P.rightCapacityToSize (2 ^ e) = 2 ^ (e - 3) * P.loadFactor.eighths := by
  have hpow : 2 ^ e = P.loadFactor.den * (Nat.gcd P.loadFactor.eighths 8 * 2 ^ (e - 3)) := by
    rw [← Nat.mul_assoc, P.loadFactor.den_mul_gcd, show (8 : Nat) = 2 ^ 3 from rfl, ← Nat.pow_add]
    congr 1
    omega
  have hle : 2 ^ (e - 3) ≤ 2 ^ 47 := Nat.pow_le_pow_right (by decide) (by omega)
  have hsize : 2 ^ (e - 3) * P.loadFactor.eighths ≤ 2 ^ 47 * 8 :=
    Nat.mul_le_mul hle P.loadFactor.le_eight
  have hval : 2 ^ e / P.loadFactor.den * P.loadFactor.num = 2 ^ (e - 3) * P.loadFactor.eighths := by
    rw [hpow, Nat.mul_div_cancel_left _ P.loadFactor.den_pos, Nat.mul_right_comm,
      Nat.mul_comm (Nat.gcd _ _), P.loadFactor.num_mul_gcd, Nat.mul_comm]
  rw [Params.rightCapacityToSize, hval, sizeT_of_lt (by omega)]

theorem Params.maxSize_le (P : Params) : P.maxSize ≤ 2 ^ 50 := by
  have hle := P.loadFactor.le_eight
  rw [Params.maxSize, maxCapacity, P.rightCapacityToSize_pow (by decide) (Nat.le_refl 50)]
  omega

/-- `ceil_size_to_capacity` rounds up, and does not overflow below the largest bucket count. -/
theorem Params.ceilSizeToCapacity_eq (P : Params) {sz : Nat} (h0 : 0 < sz) (hsz : sz ≤ 2 ^ 50) :
    P.ceilSizeToCapacity sz = (sz * P.loadFactor.den - 1) / P.loadFactor.num + 1 := by
  have hden : P.loadFactor.den ≤ 8 := Nat.div_le_self 8 _
  have hnum : P.loadFactor.num ≤ 8 := (Nat.div_le_self _ _).trans P.loadFactor.le_eight
  have hmul : sz * P.loadFactor.den ≤ 2 ^ 50 * 8 := Nat.mul_le_mul hsz hden
  have hpos : 1 ≤ sz * P.loadFactor.den := Nat.mul_pos h0 P.loadFactor.den_pos
  have hquot : (sz * P.loadFactor.den - 1) / P.loadFactor.num ≤ 2 ^ 50 * 8 :=
    (Nat.div_le_self _ _).trans (by omega)
  have hround : ((sz * P.loadFactor.den - 1) / P.loadFactor.num + 1) * P.loadFactor.num ≤
      (2 ^ 50 * 8 + 1) * 8 := Nat.mul_le_mul (by omega) hnum
  unfold Params.ceilSizeToCapacity
  rw [if_neg (by omega)]
  dsimp only
  rw [sizeT_of_lt (n := sz * P.loadFactor.den) (by omega), subT_of_le hpos (by omega),
    sizeT_of_lt (by omega), Nat.mul_div_cancel _ P.loadFactor.num_pos]

/-! ## Addresses -/

namespace Params

variable (P : Params)

def decode (addr : Nat) : Option Nat := if addr = P.nullVirtualAddr then none else some addr

variable {P}

@[simp] theorem decode_null : P.decode P.nullVirtualAddr = none := by simp [decode]

theorem decode_eq_some {a v : Nat} (h : P.decode a = some v) : a = v ∧ a ≠ P.nullVirtualAddr := by
  unfold decode at h
  split at h
  · cases h
  · next hn => exact ⟨Option.some.inj h, hn⟩

theorem decode_eq_none {a : Nat} (h : P.decode a = none) : a = P.nullVirtualAddr := by
  by_contra hn
  simp [decode, hn] at h

theorem decode_getD (a : Nat) : (P.decode a).getD P.nullVirtualAddr = a := by
  unfold decode
  split
  · next hn => exact hn.symm
  · rfl

theorem toVirtualAddr_of_lt {i : Nat} (h : i < P.nullVirtualAddr) : P.toVirtualAddr i = i := by
  have hpos : 0 < 2 ^ P.addrBits := Nat.two_pow_pos _
  unfold nullVirtualAddr at h
  exact Nat.mod_eq_of_lt (by omega)

theorem decode_toVirtualAddr {i : Nat} (h : i < P.nullVirtualAddr) :
    P.decode (P.toVirtualAddr i) = some i := by
  rw [toVirtualAddr_of_lt h]
  exact if_neg h.ne

end Params

namespace UnorderedNodeMap

variable {K V : Type} {P : Params} {m : UnorderedNodeMap K V} {n : Nat}

/-! ## The view through addresses -/

def entries (m : UnorderedNodeMap K V) : List (K × V) :=
  m.virtualStorageVec.items.map fun node => (node.first, node.second)

def cellOf (P : Params) (node : Node K V) : K × Option Nat := (node.first, P.decode node.nxtAddr)

def viewTo (P : Params) (n : Nat) (m : UnorderedNodeMap K V) : Mem K where
  bucket b := m.bucketVec[b]?.bind P.decode
  cell v := if v < n then (m.virtualStorageVec.items[v]?).map (cellOf P) else none

def home (m : UnorderedNodeMap K V) (k : K) : Nat := m.toBucketIndex (m.keys.hasher k)

/-- The bucket count of a map that no move has emptied. -/
def Buckets (m : UnorderedNodeMap K V) : Prop := ∃ e, 3 ≤ e ∧ e ≤ 50 ∧ m.bucketVec.length = 2 ^ e

/-- The chains of the buckets run through exactly the first `n` nodes. -/
structure Linked (P : Params) (n : Nat) (m : UnorderedNodeMap K V) : Prop where
  buckets : Buckets m
  le : n ≤ m.size
  small : m.size ≤ P.nullVirtualAddr
  chained : ∃ chain, Chained m.home m.keys.pred (m.viewTo P n) chain

def Inv (P : Params) (m : UnorderedNodeMap K V) : Prop := Linked P m.size m

theorem size_eq (m : UnorderedNodeMap K V) : m.size = m.entries.length := by
  simp [size, entries, StdVector.size]

theorem entries_getElem? (m : UnorderedNodeMap K V) (i : Nat) :
    m.entries[i]? = (m.virtualStorageVec.items[i]?).map fun node => (node.first, node.second) := by
  rw [entries, List.getElem?_map]

theorem home_lt (h : Buckets m) (k : K) : m.home k < m.bucketVec.length := by
  obtain ⟨e, -, he, hlen⟩ := h
  rw [home, toBucketIndex, hlen, and_mask (by omega)]
  exact Nat.mod_lt _ (Nat.two_pow_pos e)

variable {m' : UnorderedNodeMap K V} {bucketCount : Nat} {value : Node K V} {keys : Keys K} {k : K}

theorem home_congr (hb : m'.bucketVec.length = m.bucketVec.length) (hk : m'.keys = m.keys) :
    m'.home = m.home := by
  funext k
  simp only [home, toBucketIndex, hb, hk]

def Valid (m : UnorderedNodeMap K V) (n : Nat) : Ref → Prop
  | .bucket b => b < m.bucketVec.length
  | .next v => v < n

variable {v t : Nat} {node : Node K V} {r : Ref} {key : K} {chain : Nat → List Nat}

theorem node_of_lt (hv : v < m.size) :
    ∃ node, m.virtualStorageVec.items[v]? = some node :=
  ⟨_, List.getElem?_eq_getElem hv⟩

theorem get_of_some {q : StdVector (Node K V)} {i : Nat}
    (h : q.items[i]? = some node) : q.get i = .ok node := by
  rw [StdVector.get, h]

theorem cell_of_some (hv : v < n)
    (h : m.virtualStorageVec.items[v]? = some node) :
    (m.viewTo P n).cell v = some (cellOf P node) := by
  simp only [viewTo, if_pos hv, h]
  rfl

theorem lt_of_cell (h : (m.viewTo P n).cell v ≠ none) : v < n := by
  by_contra hv
  exact h (if_neg hv)

theorem key_eq_some :
    (m.viewTo P n).key v = some k ↔ v < n ∧ ∃ x, m.entries[v]? = some (k, x) := by
  rw [entries_getElem?]
  by_cases hv : v < n
  · cases hi : m.virtualStorageVec.items[v]? <;> simp [Mem.key, viewTo, hv, hi, cellOf]
  · simp [Mem.key, viewTo, hv]

theorem load_ok (hn : n ≤ m.size) (hr : m.Valid n r) :
    ∃ addr, m.load r = .ok addr ∧ P.decode addr = (m.viewTo P n).read r := by
  cases r with
  | bucket b =>
    have hb : b < m.bucketVec.length := hr
    refine ⟨m.bucketVec[b], ?_, ?_⟩
    · simp [load, hb]
    · simp [Mem.read, viewTo, hb]
  | next v =>
    have hv : v < n := hr
    obtain ⟨node, hnode⟩ := node_of_lt (hv.trans_le hn)
    refine ⟨node.nxtAddr, ?_, ?_⟩
    · simp only [load, get_of_some hnode, ok_bind]
      rfl
    · simp [Mem.read, cell_of_some hv hnode, cellOf]

/-! ## Storing -/

@[simp] theorem bucketVec_store_length (m : UnorderedNodeMap K V) (r : Ref) (a : Nat) :
    (m.store r a).bucketVec.length = m.bucketVec.length := by
  cases r <;> simp [store]

@[simp] theorem keys_store (m : UnorderedNodeMap K V) (r : Ref) (a : Nat) :
    (m.store r a).keys = m.keys := by
  cases r <;> rfl

@[simp] theorem cap_store (m : UnorderedNodeMap K V) (r : Ref) (a : Nat) :
    (m.store r a).virtualStorageVec.cap = m.virtualStorageVec.cap := by
  cases r <;> rfl

@[simp] theorem entries_store (m : UnorderedNodeMap K V) (r : Ref) (a : Nat) :
    (m.store r a).entries = m.entries := by
  cases r with
  | bucket b => rfl
  | next v =>
    refine List.ext_getElem? fun i => ?_
    simp only [entries, store, StdVector.modify, List.getElem?_map, List.getElem?_modify]
    cases m.virtualStorageVec.items[i]? with
    | none => rfl
    | some node => by_cases hi : v = i <;> simp [hi]

@[simp] theorem size_store (m : UnorderedNodeMap K V) (r : Ref) (a : Nat) :
    (m.store r a).size = m.size := by
  rw [size_eq, size_eq, entries_store]

theorem view_store (hn : n ≤ m.size) (hr : m.Valid n r) (a : Nat) :
    (m.store r a).viewTo P n = (m.viewTo P n).write r (P.decode a) := by
  cases r with
  | bucket b =>
    refine Mem.ext_of (fun b' => ?_) fun v => rfl
    by_cases hb : b' = b
    · subst hb
      have hb : b' < m.bucketVec.length := hr
      simp [viewTo, store, Mem.write, hb]
    · simp [viewTo, store, Mem.write, hb, List.getElem?_set_ne (Ne.symm hb)]
  | next v =>
    have hv : v < n := hr
    obtain ⟨node, hnode⟩ := node_of_lt (hv.trans_le hn)
    refine Mem.ext_of (fun b' => rfl) fun w => ?_
    by_cases hw : w = v
    · subst hw
      simp [viewTo, store, StdVector.modify, Mem.write, hv, hnode, cellOf]
    · simp [viewTo, store, StdVector.modify, Mem.write, hw, Ne.symm hw]

theorem view_store_of_le (hv : n ≤ v) (a : Nat) :
    (m.store (.next v) a).viewTo P n = m.viewTo P n := by
  refine Mem.ext_of (fun b' => rfl) fun w => ?_
  by_cases hw : w < n
  · have hne : v ≠ w := by omega
    simp [viewTo, store, StdVector.modify, hw, hne]
  · simp [viewTo, hw]

/-! ## Walks -/

theorem chainEnd_ok (hn : n ≤ m.size) {fuel : Nat} {l : List Nat} (hr : m.Valid n r)
    (hlinks : Links (m.viewTo P n) r l) (hcells : ∀ v ∈ l, (m.viewTo P n).cell v ≠ none)
    (hfuel : l.length < fuel) : m.chainEnd P fuel r = .ok (refAfter r l) := by
  have hlinks' : Links (m.viewTo P n) r (l ++ []) := by rwa [List.append_nil]
  apply hlinks'.walk (fun fuel r => m.chainEnd P fuel r) Except.ok (m.Valid n) (fun _ => False)
  · exact fun v hv => lt_of_cell hv
  · intro fuel r hr hread
    obtain ⟨addr, hload, hdec⟩ := load_ok hn hr
    have hnull := Params.decode_eq_none (hdec.trans hread)
    simp only [chainEnd, hload, ok_bind, if_pos hnull]
    rfl
  · exact fun _ _ _ _ _ _ hfalse => hfalse.elim
  · intro fuel r v hr hread hcell _
    obtain ⟨addr, hload, hdec⟩ := load_ok hn hr
    obtain ⟨rfl, hne⟩ := Params.decode_eq_some (hdec.trans hread)
    simp only [chainEnd, hload, ok_bind, if_neg hne]
  · exact hr
  · rwa [List.append_nil]
  · exact fun _ _ hfalse => hfalse
  · simp
  · exact hfuel

namespace Linked

variable (h : Linked P n m)

include h

theorem valid (hc : Chained m.home m.keys.pred (m.viewTo P n) chain) (k : K)
    {l l' : List Nat} (e : chain (m.home k) = l ++ l') : m.Valid n (refAfter (.bucket (m.home k)) l) := by
  rcases refAfter_cases (.bucket (m.home k)) l with ⟨-, e'⟩ | ⟨v, hv, e'⟩
  · rw [e']
    exact home_lt h.buckets k
  · rw [e']
    exact lt_of_cell (hc.cell_ne_none (b := m.home k) (by simp [e, hv]))

theorem length_le
    (hc : Chained m.home m.keys.pred (m.viewTo P n) chain) (b : Nat) : (chain b).length ≤ m.size :=
  (hc.length_le (fun _ hv => lt_of_cell hv) b).trans h.le

end Linked

theorem reference_ok (h : Linked P n m)
    (hc : Chained m.home m.keys.pred (m.viewTo P n) chain) (key : K) :
    (∃ v k pre post, (m.viewTo P n).key v = some k ∧ m.keys.pred k key = true ∧
      chain (m.home key) = pre ++ v :: post ∧
      m.internalFindBucketReference P key = .ok (refAfter (.bucket (m.home key)) pre) ∧
      m.Valid n (refAfter (.bucket (m.home key)) pre) ∧
      m.load (refAfter (.bucket (m.home key)) pre) = .ok v) ∨
    ((∀ v k, (m.viewTo P n).key v = some k → m.keys.pred k key = false) ∧
      m.internalFindBucketReference P key =
        .ok (refAfter (.bucket (m.home key)) (chain (m.home key))) ∧
      m.Valid n (refAfter (.bucket (m.home key)) (chain (m.home key))) ∧
      m.load (refAfter (.bucket (m.home key)) (chain (m.home key))) = .ok P.nullVirtualAddr) := by
  refine hc.search (f := m.findFrom P key) (fun k l hp => ?_) (fun v hv => lt_of_cell hv)
    (home_lt h.buckets key) (fun r hr => ?_) ?_ ?_ (Nat.lt_succ_of_le (h.length_le hc _))
  · rw [home, home, m.keys.hash_eq hp]
  · obtain ⟨addr, hload, hdec⟩ := load_ok (P := P) h.le hr
    rw [hload, ← hdec, Params.decode_getD]
  · intro fuel r hr hread
    obtain ⟨addr, hload, hdec⟩ := load_ok h.le hr
    have hnull := Params.decode_eq_none (hdec.trans hread)
    simp only [findFrom, hload, ok_bind, if_pos hnull]
    rfl
  · intro fuel r v hr hread hcell
    obtain ⟨addr, hload, hdec⟩ := load_ok h.le hr
    obtain ⟨rfl, hne⟩ := Params.decode_eq_some (hdec.trans hread)
    have hv := lt_of_cell hcell
    obtain ⟨node, hnode⟩ := node_of_lt (hv.trans_le h.le)
    refine ⟨node.first, by simp [Mem.key, cell_of_some hv hnode, cellOf], ?_⟩
    simp only [findFrom, hload, ok_bind, if_neg hne, get_of_some hnode]
    split <;> rfl

/-! ## One more node -/

def Distinct (m : UnorderedNodeMap K V) : Prop :=
  ∀ (i j : Nat) (k l : K) (x y : V), m.entries[i]? = some (k, x) → m.entries[j]? = some (l, y) →
    m.keys.pred k l = true → i = j

theorem Inv.distinct (h : Inv P m) : Distinct m := by
  obtain ⟨chain, hc⟩ := h.chained
  have hkey : ∀ i k x, m.entries[i]? = some (k, x) → (m.viewTo P m.size).key i = some k := by
    intro i k x hi
    refine key_eq_some.2 ⟨?_, x, hi⟩
    rw [size_eq]
    exact (List.getElem?_eq_some_iff.1 hi).1
  intro i j k l x y hi hj hp
  exact hc.distinct i j k l (hkey i k x hi) (hkey j l y hj) hp

theorem view_succ (h : m.virtualStorageVec.items[n]? = some node) :
    m.viewTo P (n + 1) = (m.viewTo P n).setCell n (some (cellOf P node)) := by
  refine Mem.ext_of (fun b => rfl) fun v => ?_
  by_cases hv : v = n
  · subst hv
    simp [viewTo, h]
  · have hlt : v < n + 1 ↔ v < n := by omega
    rw [Mem.cell_setCell_of_ne _ hv]
    simp only [viewTo, hlt]

theorem chained_succ (hc : Chained m.home m.keys.pred (m.viewTo P n) chain)
    (hno : ∀ v l, (m.viewTo P n).key v = some l → m.keys.pred l k = false) (hhome : m'.home = m.home)
    (hkeys : m'.keys = m.keys) (hview : m'.viewTo P n =
      (m.viewTo P n).write (refAfter (.bucket (m.home k)) (chain (m.home k))) (some n))
    (hnode : m'.virtualStorageVec.items[n]? = some node) (hk : node.first = k)
    (hnull : node.nxtAddr = P.nullVirtualAddr) :
    ∃ chain', Chained m'.home m'.keys.pred (m'.viewTo P (n + 1)) chain' := by
  have hcell : (m.viewTo P n).cell n = none := by
    by_contra hcell
    exact Nat.lt_irrefl n (lt_of_cell hcell)
  have hins := hc.insert hcell (k := k) fun w l hl => by
    refine ⟨hno w l hl, ?_⟩
    by_contra hs
    rw [Bool.not_eq_false] at hs
    exact Bool.noConfusion ((hno w l hl).symm.trans (m.keys.symm hs))
  rw [hhome, hkeys, view_succ hnode, hview]
  simp only [cellOf, hk, hnull, Params.decode_null]
  exact ⟨_, hins⟩

/-! ## Rehashing -/

structure Frame (m m' : UnorderedNodeMap K V) : Prop where
  entries : m'.entries = m.entries
  keys : m'.keys = m.keys
  cap : m'.virtualStorageVec.cap = m.virtualStorageVec.cap
  buckets : m'.bucketVec.length = m.bucketVec.length

namespace Frame

theorem refl (m : UnorderedNodeMap K V) : Frame m m := ⟨rfl, rfl, rfl, rfl⟩

theorem trans {m₁ m₂ m₃ : UnorderedNodeMap K V} (h : Frame m₁ m₂) (h' : Frame m₂ m₃) :
    Frame m₁ m₃ :=
  ⟨h'.entries.trans h.entries, h'.keys.trans h.keys, h'.cap.trans h.cap, h'.buckets.trans h.buckets⟩

theorem store (m : UnorderedNodeMap K V) (r : Ref) (a : Nat) : Frame m (m.store r a) :=
  ⟨entries_store m r a, keys_store m r a, cap_store m r a, bucketVec_store_length m r a⟩

variable {m' : UnorderedNodeMap K V} (h : Frame m m')

include h

theorem size : m'.size = m.size := by rw [size_eq, size_eq, h.entries]

theorem home : m'.home = m.home := home_congr h.buckets h.keys

theorem distinct (hd : Distinct m) : Distinct m' := by
  unfold Distinct
  rw [h.entries, h.keys]
  exact hd

end Frame

theorem relink_frame {i : Nat} (e : m.relink P i = .ok m') :
    Frame m m' := by
  obtain ⟨node, -, e⟩ := bind_eq_ok e
  obtain ⟨r, -, e⟩ := bind_eq_ok e
  obtain rfl := Except.ok.inj e
  exact (Frame.store m _ _).trans (Frame.store _ _ _)

theorem relink_ok (h : Linked P n m) (hd : Distinct m) (hn : n < m.size) :
    ∃ m', m.relink P n = .ok m' ∧ Linked P (n + 1) m' := by
  obtain ⟨chain, hc⟩ := h.chained
  have hsmall : n < P.nullVirtualAddr := hn.trans_le h.small
  -- the link of the node is cleared first, which the view does not see
  have hframe : Frame m (m.store (.next n) P.nullVirtualAddr) := Frame.store m _ _
  have hview1 : (m.store (.next n) P.nullVirtualAddr).viewTo P n = m.viewTo P n :=
    view_store_of_le (Nat.le_refl n) _
  obtain ⟨old, hold⟩ := node_of_lt hn
  have hnode : (m.store (.next n) P.nullVirtualAddr).virtualStorageVec.items[n]? =
      some { old with nxtAddr := P.nullVirtualAddr } := by
    simp [store, StdVector.modify, hold]
  generalize hm1 : m.store (.next n) P.nullVirtualAddr = m1 at hframe hview1 hnode
  have hentry : m.entries[n]? = some (old.first, old.second) := by
    rw [entries_getElem?, hold]
    rfl
  have h1 : Linked P n m1 := by
    refine ⟨?_, hframe.size ▸ h.le, hframe.size ▸ h.small, chain, ?_⟩
    · rw [Buckets, hframe.buckets]
      exact h.buckets
    · rw [hframe.home, hframe.keys, hview1]
      exact hc
  have hc1 : Chained m1.home m1.keys.pred (m1.viewTo P n) chain := by
    rw [hframe.home, hframe.keys, hview1]
    exact hc
  have e0 : chain (m1.home old.first) = chain (m1.home old.first) ++ [] := by simp
  have hvalid := h1.valid hc1 old.first e0
  have hlen := h1.length_le hc1 (m1.home old.first)
  have hend : m1.chainEnd P (m1.size + 1) (.bucket (m1.home old.first)) =
      .ok (refAfter (.bucket (m1.home old.first)) (chain (m1.home old.first))) :=
    chainEnd_ok h1.le (home_lt h1.buckets old.first) (hc1.links _)
      (fun v hv => hc1.cell_ne_none hv) (by omega)
  have hno : ∀ v l, (m1.viewTo P n).key v = some l → m1.keys.pred l old.first = false := by
    intro v l hl
    obtain ⟨hv, x, hx⟩ := key_eq_some.1 hl
    rw [hframe.entries] at hx
    by_contra hp
    rw [Bool.not_eq_false, hframe.keys] at hp
    exact absurd (hd v n l old.first x old.second hx hentry hp) hv.ne
  -- the place behind the chain is not the link of the node
  have hnode2 : ∀ a, (m1.store (refAfter (.bucket (m1.home old.first))
      (chain (m1.home old.first))) a).virtualStorageVec.items[n]? =
        some { old with nxtAddr := P.nullVirtualAddr } := by
    intro a
    cases hr : refAfter (.bucket (m1.home old.first)) (chain (m1.home old.first)) with
    | bucket b => exact hnode
    | next v =>
      rw [hr] at hvalid
      have hv : v ≠ n := Nat.ne_of_lt hvalid
      simp [store, StdVector.modify, hv, hnode]
  have hframe2 := Frame.store m1 (refAfter (.bucket (m1.home old.first))
    (chain (m1.home old.first))) (P.toVirtualAddr n)
  refine ⟨_, ?_, ?_, ?_, ?_, chained_succ hc1 hno hframe2.home hframe2.keys ?_ (hnode2 _) rfl rfl⟩
  · have hget := get_of_some hnode
    simp only [relink, hm1, hget, ok_bind]
    rw [show m1.toBucketIndex (m1.keys.hasher old.first) = m1.home old.first from rfl, hend]
    rfl
  · rw [Buckets, hframe2.buckets]
    exact h1.buckets
  · rw [hframe2.size, hframe.size]
    exact hn
  · rw [hframe2.size]
    exact h1.small
  · rw [view_store h1.le hvalid, Params.decode_toVirtualAddr hsmall]

theorem relinkAll_frame (e : forLoop (fun i m => relink P m i) n m = .ok m') : Frame m m' :=
  forLoop_inv (fun _ m' => Frame m m') e (.refl m) fun _ _ _ _ e h => h.trans (relink_frame e)

theorem relinkAll_ok (h : Linked P 0 m) (hd : Distinct m) :
    ∃ m', forLoop (fun i m => relink P m i) m.size m = .ok m' ∧ Linked P m.size m' := by
  obtain ⟨m', e, h', -⟩ : ∃ m', forLoop (fun i m => relink P m i) m.size m = .ok m' ∧
      Linked P m.size m' ∧ Frame m m' := by
    apply forLoop_ok (fun i m' => Linked P i m' ∧ Frame m m') ⟨h, .refl m⟩
    rintro i hi m1 ⟨h1, hframe⟩
    obtain ⟨m2, e2, h2⟩ := relink_ok h1 (hframe.distinct hd) (hframe.size ▸ hi)
    exact ⟨m2, e2, h2, hframe.trans (relink_frame e2)⟩
  exact ⟨m', e, h'⟩

def withBuckets (P : Params) (c : Nat) (m : UnorderedNodeMap K V) : UnorderedNodeMap K V :=
  { m with
    bucketVec := List.replicate c P.nullVirtualAddr
    virtualStorageVec := m.virtualStorageVec.reserve (P.rightCapacityToSize c) }

structure Rehashed (P : Params) (c : Nat) (m m' : UnorderedNodeMap K V) : Prop where
  entries : m'.entries = m.entries
  keys : m'.keys = m.keys
  cap : m'.virtualStorageVec.cap = max m.virtualStorageVec.cap (P.rightCapacityToSize c)
  buckets : m'.bucketVec.length = c

theorem buckets_ceil2 {n c : Nat} (hc : ceil2 n = .ok c) (hle : max minCapacity c ≤ maxCapacity) :
    ∃ e, 3 ≤ e ∧ e ≤ 50 ∧ max minCapacity c = 2 ^ e := by
  obtain ⟨x, -, rfl⟩ := ceil2_pow hc
  have h8 : minCapacity = 2 ^ 3 := rfl
  rcases Nat.le_total x 3 with hx | hx
  · refine ⟨3, Nat.le_refl 3, by decide, ?_⟩
    rw [h8]
    exact max_eq_left (Nat.pow_le_pow_right (by decide) hx)
  · have hmax : max minCapacity (2 ^ x) = 2 ^ x := by
      rw [h8]
      exact max_eq_right (Nat.pow_le_pow_right (by decide) hx)
    rw [hmax] at hle
    exact ⟨x, hx, (Nat.pow_le_pow_iff_right (by decide)).1 hle, hmax⟩

theorem rehash_grow {c : Nat} (ht : m.capacity < t) (hc : ceil2 t = .ok c)
    (hle : max minCapacity c ≤ maxCapacity) : m.rehash P t =
      forLoop (fun i m => relink P m i) m.size (m.withBuckets P (max minCapacity c)) := by
  unfold rehash
  rw [if_neg (Nat.not_le.2 ht), hc]
  simp only [ok_bind, if_neg (Nat.not_lt.2 hle)]
  rfl

theorem rehash_eq_ok (e : m.rehash P t = .ok m') :
    (t ≤ m.capacity ∧ m' = m) ∨ ∃ c, m.capacity < t ∧ ceil2 t = .ok c ∧
      max minCapacity c ≤ maxCapacity ∧ Rehashed P (max minCapacity c) m m' := by
  by_cases ht : t ≤ m.capacity
  · unfold rehash at e
    rw [if_pos ht] at e
    exact .inl ⟨ht, (Except.ok.inj e).symm⟩
  have hc : ∃ c, ceil2 t = .ok c ∧ max minCapacity c ≤ maxCapacity := by
    unfold rehash at e
    rw [if_neg ht] at e
    obtain ⟨c, hc, e⟩ := bind_eq_ok e
    refine ⟨c, hc, Nat.not_lt.1 fun hlt => ?_⟩
    rw [if_pos hlt] at e
    cases e
  obtain ⟨c, hc, hle⟩ := hc
  rw [rehash_grow (Nat.not_le.1 ht) hc hle] at e
  have hframe := relinkAll_frame e
  refine .inr ⟨c, Nat.not_le.1 ht, hc, hle, hframe.entries, hframe.keys, hframe.cap, ?_⟩
  rw [hframe.buckets]
  exact List.length_replicate

theorem linked_withBuckets (h : m.size ≤ P.nullVirtualAddr) {c e : Nat} (he : 3 ≤ e ∧ e ≤ 50)
    (hc : c = 2 ^ e) : Linked P 0 (m.withBuckets P c) := by
  refine ⟨⟨e, he.1, he.2, ?_⟩, Nat.zero_le _, h, fun _ => [], ?_⟩
  · rw [← hc]
    exact List.length_replicate
  · refine ⟨fun b => ?_, fun _ v hv => by simp at hv, fun v k hk => ?_, fun _ => List.nodup_nil,
      fun v w k l hk => ?_⟩
    · show (List.replicate c P.nullVirtualAddr)[b]?.bind P.decode = none
      rw [List.getElem?_replicate]
      split <;> simp
    · exact absurd (key_eq_some.1 hk).1 (Nat.not_lt_zero v)
    · exact absurd (key_eq_some.1 hk).1 (Nat.not_lt_zero v)

/-- **rehash** keeps the map in order, and only refuses what is beyond the largest bucket count. -/
theorem rehash_ok (h : Inv P m) (ht : t ≤ 2 ^ 63) :
    (∃ m', m.rehash P t = .ok m' ∧ Inv P m') ∨
    (m.capacity < t ∧ (∃ c, ceil2 t = .ok c ∧ maxCapacity < max minCapacity c) ∧
      m.rehash P t = .error (.lengthError "bad unordered_node_map capacity")) := by
  by_cases hle : t ≤ m.capacity
  · refine .inl ⟨m, ?_, h⟩
    unfold rehash
    rw [if_pos hle]
    rfl
  obtain ⟨x, -, hc, -⟩ := ceil2_ok ht
  by_cases hmax : max minCapacity (2 ^ x) ≤ maxCapacity
  · obtain ⟨e, h3, h50, he⟩ := buckets_ceil2 hc hmax
    obtain ⟨m', hrun, h'⟩ := relinkAll_ok (linked_withBuckets h.small ⟨h3, h50⟩ he)
      (m := m.withBuckets P (max minCapacity (2 ^ x))) h.distinct
    refine .inl ⟨m', (rehash_grow (Nat.not_le.1 hle) hc hmax).trans hrun, ?_⟩
    have hsize := (relinkAll_frame hrun).size
    rw [Inv, hsize]
    exact h'
  · refine .inr ⟨Nat.not_le.1 hle, ⟨_, hc, Nat.not_le.1 hmax⟩, ?_⟩
    unfold rehash
    rw [if_neg hle, hc]
    simp only [ok_bind, if_pos (Nat.not_le.1 hmax)]
    rfl

theorem rehash_inv_of_lt (hd : Distinct m) (hs : m.size ≤ P.nullVirtualAddr) (ht : m.capacity < t)
    (e : m.rehash P t = .ok m') : Inv P m' := by
  rcases rehash_eq_ok e with ⟨hle, -⟩ | ⟨c, -, hc, hle, -⟩
  · exact absurd ht (Nat.not_lt.2 hle)
  · obtain ⟨e', h3, h50, he⟩ := buckets_ceil2 hc hle
    obtain ⟨m1, hrun, h1⟩ := relinkAll_ok (linked_withBuckets hs ⟨h3, h50⟩ he)
      (m := m.withBuckets P (max minCapacity c)) hd
    obtain rfl := Except.ok.inj (((rehash_grow ht hc hle).trans hrun).symm.trans e)
    rw [Inv, (relinkAll_frame hrun).size]
    exact h1

theorem rehash_inv (h : Inv P m) (e : m.rehash P t = .ok m') : Inv P m' := by
  by_cases ht : m.capacity < t
  · exact rehash_inv_of_lt h.distinct h.small ht e
  · rcases rehash_eq_ok e with ⟨-, rfl⟩ | ⟨c, hlt, -⟩
    · exact h
    · exact absurd hlt ht

theorem Buckets.congr (h : Buckets m) (e : m'.bucketVec.length = m.bucketVec.length) : Buckets m' := by
  rw [Buckets, e]
  exact h

theorem Rehashed.buckets_of_ceil2 {c : Nat} (hc : ceil2 t = .ok c)
    (hle : max minCapacity c ≤ maxCapacity) (h : Rehashed P (max minCapacity c) m m') :
    Buckets m' := by
  obtain ⟨e, h3, h50, he⟩ := buckets_ceil2 hc hle
  exact ⟨e, h3, h50, h.buckets.trans he⟩

theorem rehash_buckets (h : Buckets m) (e : m.rehash P t = .ok m') : Buckets m' := by
  rcases rehash_eq_ok e with ⟨-, rfl⟩ | ⟨c, -, hc, hle, hr⟩
  · exact h
  · exact hr.buckets_of_ceil2 hc hle

/-! ## Constructor and clear -/

theorem Inv.of_empty (hb : Buckets m) (hitems : m.virtualStorageVec.items = [])
    (hnull : ∀ a ∈ m.bucketVec, a = P.nullVirtualAddr) : Inv P m := by
  have hsize : m.size = 0 := by rw [size, StdVector.size, hitems]; rfl
  have hkey : ∀ v k, (m.viewTo P m.size).key v ≠ some k := fun v k hk => by
    rw [hsize] at hk
    exact absurd (key_eq_some.1 hk).1 (Nat.not_lt_zero v)
  refine ⟨hb, Nat.le_refl _, hsize ▸ Nat.zero_le _, fun _ => [], fun b => ?_,
    fun _ v hv => by simp at hv, fun v k hk => (hkey v k hk).elim, fun _ => List.nodup_nil,
    fun v w k l hk => (hkey v k hk).elim⟩
  show m.bucketVec[b]?.bind P.decode = none
  cases e : m.bucketVec[b]? with
  | none => rfl
  | some a =>
    rw [hnull a (List.mem_of_getElem? e)]
    exact Params.decode_null

theorem make_eq_ok (e : make P keys bucketCount = .ok m) :
    ∃ c, ceil2 bucketCount = .ok c ∧ max minCapacity c ≤ maxCapacity ∧ m.keys = keys ∧
      m.virtualStorageVec = ⟨[], P.rightCapacityToSize (max minCapacity c)⟩ ∧
      m.bucketVec = List.replicate (max minCapacity c) P.nullVirtualAddr := by
  obtain ⟨c, hc, e⟩ := bind_eq_ok e
  obtain ⟨cap, hcap, e⟩ := bind_eq_ok e
  obtain rfl := Except.ok.inj e
  unfold minSizeClamp at hcap
  split at hcap
  · cases hcap
  next hle =>
  obtain rfl := Except.ok.inj hcap
  have hle' : max minCapacity c ≤ maxCapacity := max_le (by decide) (Nat.not_lt.1 hle)
  rw [max_comm c]
  refine ⟨c, hc, hle', rfl, ?_, rfl⟩
  simp [StdVector.reserve, StdVector.empty]

theorem make_inv (e : make P keys bucketCount = .ok m) :
    Inv P m := by
  obtain ⟨c, hc, hle, -, hvec, hbuckets⟩ := make_eq_ok e
  apply Inv.of_empty
  · obtain ⟨x, h3, h50, hx⟩ := buckets_ceil2 hc hle
    refine ⟨x, h3, h50, ?_⟩
    rw [hbuckets, List.length_replicate, hx]
  · rw [hvec]
  · rw [hbuckets]
    exact fun a ha => (List.mem_replicate.1 ha).2

theorem clear_inv (hb : Buckets m) : Inv P (m.clear P) := by
  apply Inv.of_empty
  · obtain ⟨e, h3, h50, he⟩ := hb
    refine ⟨e, h3, h50, ?_⟩
    rw [← he]
    exact List.length_map _
  · rfl
  · intro a ha
    obtain ⟨_, -, rfl⟩ := List.mem_map.1 ha
    rfl

/-! ## Lookup -/

def slot (m : UnorderedNodeMap K V) (key : K) : Nat :=
  m.entries.findIdx fun entry => m.keys.pred entry.1 key

theorem slot_le (m : UnorderedNodeMap K V) (key : K) : m.slot key ≤ m.size := by
  rw [size_eq]
  exact List.findIdx_le_length

theorem entry_of_slot (h : m.slot key ≠ m.size) :
    ∃ k x, m.entries[m.slot key]? = some (k, x) ∧ m.keys.pred k key = true := by
  have hlt : m.slot key < m.entries.length := by
    rw [← size_eq]
    exact Nat.lt_of_le_of_ne (slot_le m key) h
  have hpred : m.keys.pred m.entries[m.slot key].1 key = true :=
    List.findIdx_getElem (w := hlt)
  exact ⟨_, _, List.getElem?_eq_getElem hlt, hpred⟩

theorem slot_eq (hd : Distinct m) {p : Nat} {x : V} (h : m.entries[p]? = some (k, x))
    (hp : m.keys.pred k key = true) : m.slot key = p := by
  obtain ⟨hlt, he⟩ := List.getElem?_eq_some_iff.1 h
  refine (List.findIdx_eq hlt).2 ⟨by rwa [he], fun j hj => ?_⟩
  by_contra hne
  have hjlt := hj.trans hlt
  have hj' : m.keys.pred m.entries[j].1 key = true := by simpa using hne
  exact hj.ne (hd j p _ k _ x (List.getElem?_eq_getElem hjlt) h
    (m.keys.trans hj' (m.keys.symm hp)))

theorem slot_cases (m : UnorderedNodeMap K V) (key : K) :
    (m.slot key = m.size ∧ ∀ entry ∈ m.entries, m.keys.pred entry.1 key = false) ∨
    (m.slot key < m.size ∧
      ∃ k x, m.entries[m.slot key]? = some (k, x) ∧ m.keys.pred k key = true) := by
  by_cases h : m.slot key = m.size
  · refine .inl ⟨h, ?_⟩
    rw [size_eq] at h
    exact List.findIdx_eq_length.1 h
  · exact .inr ⟨Nat.lt_of_le_of_ne (slot_le m key) h, entry_of_slot h⟩

theorem reference_slot (h : Inv P m) (key : K) :
    ∃ r, m.internalFindBucketReference P key = .ok r ∧
      m.load r = .ok (if m.slot key = m.size then P.nullVirtualAddr else m.slot key) := by
  obtain ⟨chain, hc⟩ := h.chained
  rcases reference_ok h hc key with ⟨v, k, pre, post, hk, hp, -, hfind, -, hload⟩ |
    ⟨hno, hfind, -, hload⟩
  · obtain ⟨hv, x, hx⟩ := key_eq_some.1 hk
    refine ⟨_, hfind, ?_⟩
    rw [slot_eq h.distinct hx hp, if_neg hv.ne, hload]
  · refine ⟨_, hfind, ?_⟩
    rw [if_pos, hload]
    rcases slot_cases m key with ⟨hslot, -⟩ | ⟨hlt, k, x, hx, hp⟩
    · exact hslot
    · exact Bool.noConfusion ((hno _ k (key_eq_some.2 ⟨hlt, x, hx⟩)).symm.trans hp)

theorem slot_ne_null (h : Inv P m) (hslot : m.slot key ≠ m.size) :
    m.slot key ≠ P.nullVirtualAddr := by
  have hle := slot_le m key
  have hsmall := h.small
  omega

theorem find_ok (h : Inv P m) (key : K) : m.find P key = .ok (m.slot key) := by
  obtain ⟨r, hfind, hload⟩ := reference_slot h key
  rw [find, hfind, ok_bind, hload, ok_bind]
  by_cases hslot : m.slot key = m.size
  · rw [if_pos hslot, if_pos rfl, hslot]
    rfl
  · rw [if_neg hslot, if_neg (slot_ne_null h hslot)]
    rfl

/-! ## Insertion -/

@[simp] theorem entries_emplaceBack (m : UnorderedNodeMap K V) (node : Node K V) :
    (m.emplaceBack node).entries = m.entries ++ [(node.first, node.second)] := by
  simp [entries, emplaceBack, StdVector.emplaceBack]

theorem view_emplaceBack (hn : n ≤ m.size) (node : Node K V) :
    (m.emplaceBack node).viewTo P n = m.viewTo P n := by
  refine Mem.ext_of (fun b => rfl) fun v => ?_
  by_cases hv : v < n
  · have hlt : v < m.virtualStorageVec.items.length := hv.trans_le hn
    simp [viewTo, hv, emplaceBack, StdVector.emplaceBack, List.getElem?_append_left hlt]
  · simp [viewTo, hv]

theorem load_store_emplaceBack (hr : m.Valid m.size r) (a : Nat) (node : Node K V) :
    ((m.store r a).emplaceBack node).load r = .ok a := by
  cases r with
  | bucket b =>
    have hb : b < m.bucketVec.length := hr
    simp [load, store, emplaceBack, hb]
  | next v =>
    have hv : v < m.virtualStorageVec.items.length := hr
    have hlt : v < (m.store (.next v) a).virtualStorageVec.items.length := by
      simpa [store, StdVector.modify] using hv
    have hitem : ((m.store (.next v) a).emplaceBack node).virtualStorageVec.items[v]? =
        some { m.virtualStorageVec.items[v] with nxtAddr := a } := by
      simp only [emplaceBack, StdVector.emplaceBack]
      rw [List.getElem?_append_left hlt]
      simp [store, StdVector.modify, hv]
    simp only [load, get_of_some hitem, ok_bind]
    rfl

/-- **insert** of a present key, behind the growth. -/
theorem internalInsertGrown_present (h : Inv P m) (hslot : m.slot value.first ≠ m.size) :
    m.internalInsertGrown P value = .ok (m, m.slot value.first, false) := by
  obtain ⟨r, hfind, hload⟩ := reference_slot h value.first
  rw [internalInsertGrown, hfind, ok_bind, hload, ok_bind, if_neg hslot,
    if_neg (slot_ne_null h hslot)]
  rfl

structure Appended (P : Params) (m m' : UnorderedNodeMap K V) (e : K × V) : Prop where
  entries : m'.entries = m.entries ++ [e]
  keys : m'.keys = m.keys
  buckets : m'.bucketVec.length = m.bucketVec.length
  cap : ¬ m.virtualStorageVec.full → m'.virtualStorageVec.cap = m.virtualStorageVec.cap
  inv : m.size < P.nullVirtualAddr → Inv P m'

/-- **insert** of an absent key, behind the growth: it is appended. A full vector moves, and a link
in the old block then dangles. -/
theorem internalInsertGrown_absent (h : Inv P m) (hslot : m.slot value.first = m.size)
    (hnull : value.nxtAddr = P.nullVirtualAddr) :
    ∃ m', Appended P m m' (value.first, value.second) ∧
      (m.internalInsertGrown P value = .ok (m', P.toVirtualAddr m.size, true) ∨
      (m.virtualStorageVec.full ∧ m.internalInsertGrown P value = .error .undefined)) := by
  obtain ⟨chain, hc⟩ := h.chained
  rcases reference_ok h hc value.first with ⟨v, k, -, -, hk, hp, -⟩ | ⟨hno, hfind, hvalid, hload⟩
  · obtain ⟨hv, x, hx⟩ := key_eq_some.1 hk
    rw [slot_eq h.distinct hx hp] at hslot
    exact absurd hslot hv.ne
  generalize hr : refAfter (.bucket (m.home value.first)) (chain (m.home value.first)) = r at *
  have hframe := Frame.store m r (P.toVirtualAddr m.size)
  refine ⟨(m.store r (P.toVirtualAddr m.size)).emplaceBack value, ⟨?_, ?_, ?_, ?_, ?_⟩, ?_⟩
  · rw [entries_emplaceBack, entries_store]
  · exact keys_store m r _
  · exact bucketVec_store_length m r _
  · intro hfull
    have hsame : ¬ (m.store r (P.toVirtualAddr m.size)).virtualStorageVec.full := by
      have hsize : (m.store r (P.toVirtualAddr m.size)).virtualStorageVec.size =
          m.virtualStorageVec.size := size_store m r _
      rwa [StdVector.full, hsize, cap_store]
    rw [emplaceBack, StdVector.emplaceBack, if_neg hsame, cap_store]
  · intro hlt
    have hsize : ((m.store r (P.toVirtualAddr m.size)).emplaceBack value).size = m.size + 1 := by
      rw [size_eq, entries_emplaceBack, entries_store, List.length_append, ← size_eq]
      rfl
    have hview : ((m.store r (P.toVirtualAddr m.size)).emplaceBack value).viewTo P m.size =
        (m.viewTo P m.size).write (refAfter (.bucket (m.home value.first))
          (chain (m.home value.first))) (some m.size) := by
      rw [view_emplaceBack (size_store m r _).ge, view_store (Nat.le_refl _) hvalid,
        Params.decode_toVirtualAddr hlt, hr]
    have hnode : ((m.store r (P.toVirtualAddr m.size)).emplaceBack
        value).virtualStorageVec.items[m.size]? = some value := by
      have hlen : (m.store r (P.toVirtualAddr m.size)).virtualStorageVec.items.length = m.size :=
        size_store m r _
      have hlast := List.getElem?_concat_length
        (l := (m.store r (P.toVirtualAddr m.size)).virtualStorageVec.items) (a := value)
      rwa [hlen] at hlast
    rw [Inv, hsize]
    refine ⟨?_, hsize.ge, hsize ▸ hlt, chained_succ hc hno ?_ ?_ hview hnode rfl hnull⟩
    · have hlen := bucketVec_store_length m r (P.toVirtualAddr m.size)
      rw [Buckets]
      exact hlen ▸ h.buckets
    · exact hframe.home
    · exact hframe.keys
  · cases r with
    | bucket b =>
      refine .inl ?_
      simp only [internalInsertGrown, hfind, ok_bind, hload, if_true, reload,
        load_store_emplaceBack hvalid]
      rfl
    | next v =>
      by_cases hfull : m.virtualStorageVec.full
      · refine .inr ⟨hfull, ?_⟩
        simp only [internalInsertGrown, hfind, ok_bind, hload, if_true, reload, if_pos hfull]
        rfl
      · refine .inl ?_
        simp only [internalInsertGrown, hfind, ok_bind, hload, if_true, reload, if_neg hfull,
          load_store_emplaceBack hvalid]
        rfl

/-! ## Erasure -/

def backErase {E : Type} (es : List E) (p : Nat) : List E :=
  match es.getLast? with
  | none => []
  | some e => (es.set p e).dropLast

structure Erased (P : Params) (m m' : UnorderedNodeMap K V) (p : Nat) : Prop where
  entries : m'.entries = backErase m.entries p
  keys : m'.keys = m.keys
  buckets : m'.bucketVec.length = m.bucketVec.length
  cap : m'.virtualStorageVec.cap = m.virtualStorageVec.cap
  inv : Inv P m'

@[simp] theorem entries_popBack (m : UnorderedNodeMap K V) :
    m.popBack.entries = m.entries.dropLast := by
  simp [entries, popBack, StdVector.popBack, List.map_dropLast]

theorem entries_setSlot (m : UnorderedNodeMap K V) (p : Nat) (node : Node K V) :
    (m.setSlot p node).entries = m.entries.set p (node.first, node.second) := by
  refine List.ext_getElem? fun i => ?_
  simp only [entries, setSlot, StdVector.modify, List.getElem?_map, List.getElem?_modify,
    List.getElem?_set, List.length_map]
  by_cases hi : p = i
  · subst hi
    cases e : m.virtualStorageVec.items[p]? with
    | none => simp [List.getElem?_eq_none_iff.1 e]
    | some _ => simp [(List.getElem?_eq_some_iff.1 e).1]
  · simp [hi]

theorem view_setSlot (hv : v < n) (hn : n ≤ m.size) (node : Node K V) :
    (m.setSlot v node).viewTo P n = (m.viewTo P n).setCell v (some (cellOf P node)) := by
  refine Mem.ext_of (fun b => rfl) fun w => ?_
  obtain ⟨old, hold⟩ := node_of_lt (hv.trans_le hn)
  by_cases hw : w = v
  · subst hw
    simp [viewTo, setSlot, StdVector.modify, hv, hold]
  · simp [viewTo, setSlot, StdVector.modify, Mem.cell_setCell_of_ne _ hw, Ne.symm hw]

theorem view_popBack {last : Nat} (hlast : m.size = last + 1) :
    m.popBack.viewTo P last = (m.viewTo P m.size).setCell last none := by
  have hlen : m.virtualStorageVec.items.length = last + 1 := hlast
  refine Mem.ext_of (fun b => rfl) fun w => ?_
  by_cases hw : w = last
  · subst hw
    simp [viewTo]
  · rw [Mem.cell_setCell_of_ne _ hw]
    by_cases hlt : w < last
    · have hlt' : w < m.size := by omega
      have hlen' : w < m.virtualStorageVec.items.length - 1 := by omega
      simp only [viewTo, popBack, StdVector.popBack, List.getElem?_dropLast, if_pos hlt, if_pos hlt',
        if_pos hlen']
    · have hge : ¬ w < m.size := by omega
      simp only [viewTo, if_neg hlt, if_neg hge]

theorem Valid.store {r' : Ref} (hr' : m.Valid n r') (r : Ref) (a : Nat) :
    (m.store r a).Valid n r' := by
  cases r' with
  | bucket b =>
    show b < (m.store r a).bucketVec.length
    rw [bucketVec_store_length]
    exact hr'
  | next v => exact hr'

theorem hasRef_of_valid (hn : n ≤ m.size) (hr : m.Valid n r) :
    (m.viewTo P n).HasRef r := by
  cases r with
  | bucket b => trivial
  | next v =>
    have hv : v < n := hr
    obtain ⟨node, hnode⟩ := node_of_lt (hv.trans_le hn)
    show (m.viewTo P n).cell v ≠ none
    rw [cell_of_some hv hnode]
    exact Option.some_ne_none _

theorem inv_popBack {last : Nat} (hb : Buckets m) (hsmall : m.size ≤ P.nullVirtualAddr)
    (hlast : m.size = last + 1)
    (hc : ∃ chain, Chained m.home m.keys.pred ((m.viewTo P m.size).setCell last none) chain) :
    Inv P m.popBack := by
  have hsize : m.popBack.size = last := by
    rw [size_eq, entries_popBack, List.length_dropLast, ← size_eq, hlast]
    rfl
  rw [Inv, hsize]
  refine ⟨hb, hsize.ge, by omega, ?_⟩
  rw [view_popBack hlast]
  exact hc

theorem relinkBack_ok (h : Inv P m)
    (hc : Chained m.home m.keys.pred (m.viewTo P m.size) chain) {b c p last : Nat}
    {pre post pre' post' : List Nat} (hlast : m.size = last + 1) (hp : p < last)
    (ei : chain b = pre ++ p :: post) (ej : chain c = pre' ++ last :: post')
    (hvi : m.Valid m.size (refAfter (.bucket b) pre))
    (hvj : m.Valid m.size (refAfter (.bucket c) pre'))
    (hnode : m.virtualStorageVec.items[p]? = some node) :
    ∃ m' back, m.entries[last]? = some back ∧
      m.relinkBack (refAfter (.bucket b) pre) (refAfter (.bucket c) pre') p = .ok m' ∧
      m'.entries = m.entries.set p back ∧ m'.keys = m.keys ∧
      m'.bucketVec.length = m.bucketVec.length ∧
      m'.virtualStorageVec.cap = m.virtualStorageVec.cap ∧ Inv P m'.popBack := by
  have hplt : p < m.size := by omega
  have hsmall := h.small
  generalize hr : (if refAfter (.bucket c) pre' = .next p then refAfter (.bucket b) pre
    else refAfter (.bucket c) pre') = r
  have hvr : m.Valid m.size r := by
    rw [← hr]
    split
    · exact hvi
    · exact hvj
  -- the map after the two stores
  have hf1 := Frame.store m (refAfter (.bucket b) pre) node.nxtAddr
  have hv1 : (m.store (refAfter (.bucket b) pre) node.nxtAddr).Valid m.size r := hvr.store _ _
  have hview1 := view_store (P := P) (Nat.le_refl m.size) hvi node.nxtAddr
  generalize hm1 : m.store (refAfter (.bucket b) pre) node.nxtAddr = m1 at hf1 hv1 hview1
  have hf2 := hf1.trans (Frame.store m1 r p)
  have hv2 : (m1.store r p).Valid m.size r := hv1.store _ _
  have hview2 := view_store (P := P) hf1.size.ge hv1 p
  generalize hm2 : m1.store r p = m2 at hf2 hv2 hview2
  have hread : (m.viewTo P m.size).read (.next p) = P.decode node.nxtAddr := by
    simp [Mem.read, cell_of_some hplt hnode, cellOf]
  have hdec : P.decode p = some p := if_neg (by omega)
  rw [hview1, ← hread, hdec] at hview2
  -- the place that led to the last node now leads to the freed slot
  have hload : m2.load r = .ok p := by
    obtain ⟨addr, hload, hdec⟩ := load_ok (P := P) hf2.size.ge hv2
    have hself : (m2.viewTo P m.size).read r = some p := by
      rw [hview2, hread, ← hview1]
      exact Mem.read_write_self _ (hasRef_of_valid hf1.size.ge hv1)
    rw [hload, (Params.decode_eq_some (hdec.trans hself)).1]
  have hlt2 : last < m2.size := by
    rw [hf2.size]
    omega
  obtain ⟨back, hback⟩ := node_of_lt hlt2
  have hgetLast : m2.virtualStorageVec.back = .ok back := by
    have hlen : m2.virtualStorageVec.items.length - 1 = last := by
      have : m2.virtualStorageVec.items.length = m.size := hf2.size
      omega
    rw [StdVector.back, List.getLast?_eq_getElem?, hlen, hback]
  have hentry : m.entries[last]? = some (back.first, back.second) := by
    rw [← hf2.entries, entries_getElem?, hback]
    rfl
  refine ⟨m2.setSlot p back, _, hentry, ?_, ?_, hf2.keys, hf2.buckets, hf2.cap, ?_⟩
  · simp only [relinkBack, hr, get_of_some hnode, ok_bind, hm1, hm2, hgetLast, hload]
    rfl
  · rw [entries_setSlot, hf2.entries]
  · have hsize : (m2.setSlot p back).size = last + 1 := by
      rw [size_eq, entries_setSlot, List.length_set, hf2.entries, ← size_eq, hlast]
    have hcell : (m2.viewTo P m.size).cell last = some (cellOf P back) :=
      cell_of_some (by omega) hback
    apply inv_popBack _ _ hsize
    · have hhome : (m2.setSlot p back).home = m.home := hf2.home
      have hkeys : (m2.setSlot p back).keys = m.keys := hf2.keys
      rw [hhome, hkeys, hsize, ← hlast, view_setSlot hplt hf2.size.ge, ← hcell]
      exact hc.erase (Nat.ne_of_gt hp) ei ej hr.symm hview2
    · have hlen : (m2.setSlot p back).bucketVec.length = m.bucketVec.length := hf2.buckets
      rw [Buckets, hlen]
      exact h.buckets
    · omega

theorem internalEraseKey_absent (h : Inv P m) (hslot : m.slot key = m.size) :
    m.internalEraseKey P key = .ok (m, false) := by
  obtain ⟨r, hfind, hload⟩ := reference_slot h key
  simp only [internalEraseKey, hfind, hload, ok_bind, if_pos hslot, if_true]
  rfl

theorem node_reference (h : Inv P m) (hc : Chained m.home m.keys.pred (m.viewTo P m.size) chain) {x : V}
    {p : Nat} (hentry : m.entries[p]? = some (k, x)) (hp : m.keys.pred k key = true) :
    ∃ pre post, chain (m.home key) = pre ++ p :: post ∧
      m.internalFindBucketReference P key = .ok (refAfter (.bucket (m.home key)) pre) ∧
      m.Valid m.size (refAfter (.bucket (m.home key)) pre) ∧
      m.load (refAfter (.bucket (m.home key)) pre) = .ok p := by
  have hlt : p < m.size := by
    rw [size_eq]
    exact (List.getElem?_eq_some_iff.1 hentry).1
  rcases reference_ok h hc key with ⟨v, l, pre, post, hl, hp', e, hfind, hvalid, hload⟩ | ⟨hno, -⟩
  · obtain ⟨-, y, hy⟩ := key_eq_some.1 hl
    obtain rfl : v = p := (slot_eq h.distinct hy hp').symm.trans (slot_eq h.distinct hentry hp)
    exact ⟨pre, post, e, hfind, hvalid, hload⟩
  · exact Bool.noConfusion ((hno p k (key_eq_some.2 ⟨hlt, x, hentry⟩)).symm.trans hp)

/-- **erase** of a present key: the last entry moves into its slot. -/
theorem internalEraseKey_ok (h : Inv P m) (hslot : m.slot key ≠ m.size) :
    ∃ m', m.internalEraseKey P key = .ok (m', true) ∧ Erased P m m' (m.slot key) := by
  obtain ⟨chain, hc⟩ := h.chained
  obtain ⟨k, x, hentry, hpred⟩ := entry_of_slot hslot
  have hlt : m.slot key < m.size := Nat.lt_of_le_of_ne (slot_le m key) hslot
  have hnull := slot_ne_null h hslot
  generalize m.slot key = p at *
  obtain ⟨last, hlast⟩ : ∃ last, m.size = last + 1 := ⟨m.size - 1, by omega⟩
  obtain ⟨pre, post, ei, hfindi, hvi, hloadi⟩ := node_reference h hc hentry hpred
  obtain ⟨node, hnode⟩ := node_of_lt hlt
  obtain ⟨back, hback⟩ := node_of_lt (show last < m.size by omega)
  have hgetLast : m.virtualStorageVec.items.getLast? = some back := by
    have hlen : m.virtualStorageVec.items.length = last + 1 := hlast
    rw [List.getLast?_eq_getElem?, hlen]
    exact hback
  have hgetBack : m.virtualStorageVec.back = .ok back := by rw [StdVector.back, hgetLast]
  have hentryBack : m.entries[last]? = some (back.first, back.second) := by
    rw [entries_getElem?, hback]
    rfl
  have hlist : backErase m.entries p = (m.entries.set p (back.first, back.second)).dropLast := by
    have : m.entries.getLast? = some (back.first, back.second) := by
      rw [entries, List.getLast?_map, hgetLast]
      rfl
    simp only [backErase, this]
  obtain ⟨pre', post', ej, hfindj, hvj, -⟩ :=
    node_reference h hc hentryBack (m.keys.refl back.first)
  by_cases hp : p = last
  · -- the last node itself is erased
    subst hp
    obtain rfl : node = back := Option.some.inj (hnode.symm.trans hback)
    have hsame : refAfter (.bucket (m.home node.first)) pre' = refAfter (.bucket (m.home key)) pre := by
      obtain ⟨hb, hpre⟩ := hc.split_unique ej ei
      rw [hb, hpre]
    have hframe := Frame.store m (refAfter (.bucket (m.home key)) pre) node.nxtAddr
    have hsize := hframe.size.trans hlast
    refine ⟨(m.store (refAfter (.bucket (m.home key)) pre) node.nxtAddr).popBack, ?_, ?_,
      hframe.keys, hframe.buckets, hframe.cap, inv_popBack ?_ ?_ hsize ?_⟩
    · rw [internalEraseKey, hfindi, ok_bind, hloadi, ok_bind, if_neg hnull, hgetBack, ok_bind, hfindj,
        ok_bind, if_pos hsame, get_of_some hnode, ok_bind]
      rfl
    · have hset : m.entries.set p (node.first, node.second) = m.entries := by
        obtain ⟨hp, e⟩ := List.getElem?_eq_some_iff.1 hentryBack
        rw [← e, List.set_getElem_self]
      rw [hlist, hset, entries_popBack, entries_store]
    · rw [Buckets, hframe.buckets]
      exact h.buckets
    · rw [hframe.size]
      exact h.small
    · have hread : (m.viewTo P m.size).read (.next p) = P.decode node.nxtAddr := by
        simp [Mem.read, cell_of_some hlt hnode, cellOf]
      rw [hframe.home, hframe.keys, hframe.size, view_store (Nat.le_refl _) hvi, ← hread]
      exact ⟨_, hc.unlink ei⟩
  · have hdiff : refAfter (.bucket (m.home back.first)) pre' ≠
        refAfter (.bucket (m.home key)) pre := by
      intro e
      have h1 := (ej ▸ hc.links (m.home back.first)).read_refAfter.1
      have h2 := (ei ▸ hc.links (m.home key)).read_refAfter.1
      rw [e, h2] at h1
      exact hp (Option.some.inj h1)
    obtain ⟨m', back', hentry', e', hentries, hkeys, hbuckets, hcap, hinv⟩ :=
      relinkBack_ok h hc hlast (by omega) ei ej hvi hvj hnode
    obtain rfl := Option.some.inj (hentry'.symm.trans hentryBack)
    refine ⟨m'.popBack, ?_, ?_, hkeys, hbuckets, hcap, hinv⟩
    · rw [internalEraseKey, hfindi, ok_bind, hloadi, ok_bind, if_neg hnull, hgetBack, ok_bind, hfindj,
        ok_bind, if_neg hdiff, e', ok_bind]
      rfl
    · rw [entries_popBack, hentries, hlist]

/-! ## Assignment -/

theorem view_assign (m : UnorderedNodeMap K V) (pos : Nat) (mapped : V) :
    (m.assign pos mapped).viewTo P n = m.viewTo P n := by
  refine Mem.ext_of (fun b => rfl) fun v => ?_
  simp only [viewTo, assign, StdVector.modify, List.getElem?_modify]
  cases m.virtualStorageVec.items[v]? with
  | none => rfl
  | some node => by_cases hv : pos = v <;> simp [hv, cellOf]

@[simp] theorem size_assign (m : UnorderedNodeMap K V) (pos : Nat) (mapped : V) :
    (m.assign pos mapped).size = m.size := by
  simp [size, StdVector.size, assign, StdVector.modify]

theorem assign_inv (h : Inv P m) (pos : Nat) (mapped : V) : Inv P (m.assign pos mapped) := by
  obtain ⟨hb, -, hs, chain, hc⟩ := h
  rw [Inv, size_assign]
  refine ⟨hb, (size_assign m pos mapped).ge, (size_assign m pos mapped).symm ▸ hs, chain, ?_⟩
  rw [view_assign]
  exact hc

/-! ## Calls that return -/

theorem findFrom_load {fuel : Nat} {r' : Ref} (e : m.findFrom P key fuel r = .ok r') :
    ∃ a, m.load r = .ok a := by
  cases fuel with
  | zero => cases e
  | succ fuel =>
    obtain ⟨a, ha, -⟩ := bind_eq_ok e
    exact ⟨a, ha⟩

theorem reference_buckets (e : m.internalFindBucketReference P key = .ok r) :
    m.bucketVec ≠ [] := by
  obtain ⟨a, ha⟩ := findFrom_load e
  rintro hnil
  simp [load, hnil] at ha

theorem internalInsertGrown_shape {pos : Nat} {fresh : Bool}
    (e : m.internalInsertGrown P value = .ok (m', pos, fresh)) :
    m.bucketVec ≠ [] ∧ m'.bucketVec.length = m.bucketVec.length ∧ m.size ≤ m'.size ∧
      m.virtualStorageVec.cap ≤ m'.virtualStorageVec.cap := by
  obtain ⟨r, hr, e⟩ := bind_eq_ok e
  obtain ⟨addr, -, e⟩ := bind_eq_ok e
  refine ⟨reference_buckets hr, ?_⟩
  by_cases hnull : addr = P.nullVirtualAddr
  · rw [if_pos hnull] at e
    obtain ⟨pos', -, e⟩ := bind_eq_ok e
    obtain ⟨rfl, -⟩ := Prod.ext_iff.1 (Except.ok.inj e)
    refine ⟨bucketVec_store_length m r _, ?_, ?_⟩
    · rw [size_eq, size_eq, entries_emplaceBack, entries_store, List.length_append]
      exact Nat.le_add_right _ _
    · show m.virtualStorageVec.cap ≤ (StdVector.emplaceBack _ _).cap
      simp only [StdVector.emplaceBack, cap_store]
      split <;> omega
  · rw [if_neg hnull] at e
    obtain ⟨rfl, -⟩ := Prod.ext_iff.1 (Except.ok.inj e)
    exact ⟨rfl, Nat.le_refl _, Nat.le_refl _⟩

theorem internalEraseKey_shape {erased : Bool} (e : m.internalEraseKey P key = .ok (m', erased)) :
    m.bucketVec ≠ [] ∧ m'.bucketVec.length = m.bucketVec.length ∧
      m'.virtualStorageVec.cap = m.virtualStorageVec.cap := by
  obtain ⟨r, hr, e⟩ := bind_eq_ok e
  obtain ⟨addr, -, e⟩ := bind_eq_ok e
  refine ⟨reference_buckets hr, ?_⟩
  by_cases hnull : addr = P.nullVirtualAddr
  · rw [if_pos hnull] at e
    obtain ⟨rfl, -⟩ := Prod.ext_iff.1 (Except.ok.inj e)
    exact ⟨rfl, rfl⟩
  · rw [if_neg hnull] at e
    obtain ⟨back, -, e⟩ := bind_eq_ok e
    obtain ⟨r', -, e⟩ := bind_eq_ok e
    by_cases hsame : r' = r
    · rw [if_pos hsame] at e
      obtain ⟨node, -, e⟩ := bind_eq_ok e
      obtain ⟨rfl, -⟩ := Prod.ext_iff.1 (Except.ok.inj e)
      exact ⟨bucketVec_store_length m r _, cap_store m r _⟩
    · rw [if_neg hsame] at e
      obtain ⟨m1, e1, e⟩ := bind_eq_ok e
      obtain ⟨rfl, -⟩ := Prod.ext_iff.1 (Except.ok.inj e)
      obtain ⟨node, -, e1⟩ := bind_eq_ok e1
      obtain ⟨last, -, e1⟩ := bind_eq_ok e1
      obtain ⟨a, -, e1⟩ := bind_eq_ok e1
      obtain rfl := Except.ok.inj e1
      have hframe := (Frame.store m r node.nxtAddr).trans (Frame.store _
        (if r' = .next addr then r else r') addr)
      exact ⟨hframe.buckets, hframe.cap⟩

/-! ## Element capacity -/

def room (P : Params) (m : UnorderedNodeMap K V) : Nat := P.rightCapacityToSize m.bucketVec.length

theorem room_mul_eight (h : Buckets m) :
    8 * m.room P = m.bucketVec.length * P.loadFactor.eighths := by
  obtain ⟨e, h3, h50, he⟩ := h
  rw [room, he, P.rightCapacityToSize_pow h3 h50, ← Nat.mul_assoc]
  congr 1
  rw [show (8 : Nat) = 2 ^ 3 from rfl, ← Nat.pow_add]
  congr 1
  omega

theorem sizeT_shiftLeft {x : Nat} (hx : m.bucketVec.length = 2 ^ x) (h50 : x ≤ 50) :
    sizeT (m.bucketVec.length <<< 1) = 2 ^ (x + 1) := by
  rw [hx, Nat.shiftLeft_eq, ← Nat.pow_add]
  exact sizeT_of_lt (Nat.pow_lt_pow_right (by decide) (by omega))

theorem rehash_double (hb : Buckets m) (e : m.rehash P (sizeT (m.bucketVec.length <<< 1)) = .ok m') :
    Rehashed P (2 * m.bucketVec.length) m m' := by
  obtain ⟨x, h3, h50, hx⟩ := hb
  have h8 : 8 ≤ 2 ^ x := Nat.pow_le_pow_right (n := 2) (by decide) h3
  rw [sizeT_shiftLeft hx h50] at e
  rcases rehash_eq_ok e with ⟨hle', -⟩ | ⟨c, -, hc, -, hr⟩
  · rw [capacity, hx, Nat.pow_succ] at hle'
    omega
  · have hceil : ceil2 (2 ^ (x + 1)) = .ok (2 ^ (x + 1)) := ceil2_two_pow (by omega)
    obtain rfl := Except.ok.inj (hc.symm.trans hceil)
    have hmax : max minCapacity (2 ^ (x + 1)) = 2 * m.bucketVec.length := by
      rw [hx, Nat.pow_succ, Nat.mul_comm]
      exact max_eq_right (show 8 ≤ 2 * 2 ^ x by omega)
    rwa [hmax] at hr

/-! ## Vectors that grow together -/

/-- The vector of nodes has the capacity that belongs to the bucket count, as long as no copy was
made. -/
structure Tight (P : Params) (m : UnorderedNodeMap K V) : Prop where
  inv : Inv P m
  cap : m.virtualStorageVec.cap = m.room P
  size_le : m.size ≤ m.room P

theorem room_pos (h : Buckets m) : 0 < m.room P := by
  obtain ⟨e, h3, h50, he⟩ := h
  rw [room, he, P.rightCapacityToSize_pow h3 h50]
  exact Nat.mul_pos (Nat.two_pow_pos _) P.loadFactor.pos

theorem room_double (h : Buckets m) (h' : Buckets m') (e : m'.bucketVec.length = 2 * m.bucketVec.length) :
    m'.room P = 2 * m.room P := by
  have h1 := room_mul_eight (P := P) h
  have h2 := room_mul_eight (P := P) h'
  rw [e, Nat.mul_assoc, ← h1] at h2
  omega

/-- Below the largest bucket count there is room for fewer than `max_size` elements. -/
theorem room_le_maxSize (h : Buckets m) : m.room P ≤ P.maxSize ∧
    (m.room P = P.maxSize → m.bucketVec.length = maxCapacity) := by
  obtain ⟨e, h3, h50, he⟩ := h
  have hpos := P.loadFactor.pos
  rw [room, Params.maxSize, maxCapacity, he, P.rightCapacityToSize_pow h3 h50,
    P.rightCapacityToSize_pow (by decide) (Nat.le_refl 50)]
  refine ⟨Nat.mul_le_mul_right _ (Nat.pow_le_pow_right (by decide) (by omega)), fun heq => ?_⟩
  have hpow := Nat.eq_of_mul_eq_mul_right hpos heq
  have hexp : e - 3 = 50 - 3 := Nat.pow_right_injective (Nat.le_refl 2) hpow
  obtain rfl : e = 50 := by omega
  rfl

theorem make_tight (e : make P keys bucketCount = .ok m) :
    Tight P m := by
  have hinv := make_inv e
  obtain ⟨c, -, -, -, hvec, hbuckets⟩ := make_eq_ok e
  refine ⟨hinv, ?_, ?_⟩
  · rw [room, hvec, hbuckets, List.length_replicate]
  · rw [size, StdVector.size, hvec]
    exact Nat.zero_le _

theorem Tight.rehash (h : Tight P m) (e : m.rehash P t = .ok m') :
    Tight P m' ∧ m'.entries = m.entries ∧ m'.keys = m.keys := by
  have hinv := rehash_inv h.inv e
  have hb := h.inv.buckets
  have hb' := hinv.buckets
  rcases rehash_eq_ok e with ⟨-, rfl⟩ | ⟨c, ht, hc, hle, hr⟩
  · exact ⟨h, rfl, rfl⟩
  · -- the new bucket count is not less
    have hgrow : m.room P ≤ m'.room P := by
      have h1 := room_mul_eight (P := P) hb
      have h2 := room_mul_eight (P := P) hb'
      have hlen : m.bucketVec.length ≤ m'.bucketVec.length := by
        rw [hr.buckets]
        have := ceil2_le hc
        rw [capacity] at ht
        omega
      have := Nat.mul_le_mul_right P.loadFactor.eighths hlen
      omega
    have hroom : P.rightCapacityToSize (max minCapacity c) = m'.room P := by rw [room, hr.buckets]
    refine ⟨⟨hinv, ?_, ?_⟩, hr.entries, hr.keys⟩
    · rw [hr.cap, h.cap, hroom]
      exact max_eq_right hgrow
    · rw [size_eq, hr.entries, ← size_eq]
      exact h.size_le.trans hgrow

/-- The growth of an insertion: it is refused at `max_size`, and else there is room. -/
theorem Tight.grow (h : Tight P m) :
    (m.size = P.maxSize ∧ ∀ value, m.internalInsert P value =
      .error (.lengthError "bad unordered_node_map capacity")) ∨
    (m.size < P.maxSize ∧ ∃ m1, Tight P m1 ∧ m1.entries = m.entries ∧ m1.keys = m.keys ∧
      ¬ m1.virtualStorageVec.full ∧
      ∀ value, m.internalInsert P value = m1.internalInsertGrown P value) := by
  have hb := h.inv.buckets
  obtain ⟨hroom, hmax⟩ := room_le_maxSize (P := P) hb
  by_cases hfull : m.virtualStorageVec.full
  · have hsize : m.size = m.room P := hfull.trans h.cap
    obtain ⟨x, h3, h50, hx⟩ := id hb
    have hdouble := sizeT_shiftLeft hx h50
    have h63 : sizeT (m.bucketVec.length <<< 1) ≤ 2 ^ 63 := by
      rw [hdouble]
      exact Nat.pow_le_pow_right (by decide) (by omega)
    have hceil : ceil2 (2 ^ (x + 1)) = .ok (2 ^ (x + 1)) := ceil2_two_pow (by omega)
    rcases rehash_ok h.inv h63 with ⟨m1, e1, h1⟩ | ⟨-, ⟨c, hc, hlt⟩, e1⟩
    · refine .inr ⟨?_, m1, (h.rehash e1).1, (h.rehash e1).2.1, (h.rehash e1).2.2, ?_, ?_⟩
      · refine Nat.lt_of_le_of_ne (hsize.le.trans hroom) fun heq => ?_
        -- beyond the largest bucket count a rehash is refused
        have hlen := hmax (hsize.symm.trans heq)
        have hr := rehash_double hb e1
        obtain ⟨e', -, h50', he'⟩ := h1.buckets
        have hle : 2 ^ e' ≤ 2 ^ 50 := Nat.pow_le_pow_right (by decide) h50'
        have h50eq : maxCapacity = 2 ^ 50 := rfl
        rw [← he', hr.buckets, hlen, h50eq] at hle
        omega
      · intro hfull1
        have hsize1 : m1.size = m1.room P := hfull1.trans (h.rehash e1).1.cap
        have hr := rehash_double hb e1
        have hd := room_double (P := P) hb h1.buckets hr.buckets
        have hpos := room_pos (P := P) hb
        have hsame : m1.size = m.size := by rw [size_eq, size_eq, hr.entries]
        omega
      · intro value
        rw [internalInsert, if_pos hfull, e1]
        rfl
    · refine .inl ⟨?_, fun value => ?_⟩
      · rw [hdouble] at hc
        obtain rfl := Except.ok.inj (hc.symm.trans hceil)
        have hx50 : x = 50 := by
          by_contra hne
          have hle : 2 ^ (x + 1) ≤ 2 ^ 50 := Nat.pow_le_pow_right (by decide) (by omega)
          have h8 : minCapacity ≤ 2 ^ 50 := by decide
          exact absurd (max_le h8 hle) (Nat.not_le.2 hlt)
        rw [hsize, room, hx, hx50]
        rfl
      · rw [internalInsert, if_pos hfull, e1]
        rfl
  · refine .inr ⟨?_, m, h, rfl, rfl, hfull, fun value => ?_⟩
    · have hne : m.size ≠ m.room P := fun e => hfull (e.trans h.cap.symm)
      have hle := h.size_le
      omega
    · rw [internalInsert, if_neg hfull]

theorem Appended.tight (h : Tight P m) (hfull : ¬ m.virtualStorageVec.full) {e : K × V}
    (ha : Appended P m m' e) (hlt : m.size < P.nullVirtualAddr) : Tight P m' := by
  have hroom : m'.room P = m.room P := by rw [room, room, ha.buckets]
  refine ⟨ha.inv hlt, ?_, ?_⟩
  · rw [ha.cap hfull, h.cap, hroom]
  · have hne : m.size ≠ m.room P := fun e => hfull (e.trans h.cap.symm)
    have hle := h.size_le
    rw [size_eq, ha.entries, List.length_append, ← size_eq, hroom]
    show m.size + 1 ≤ m.room P
    omega

end UnorderedNodeMap

/-! ## The default arguments -/

open UnorderedNodeMap

/-- `size_t` addresses, and seven elements for eight buckets. -/
def defaultParams : Params := ⟨64, ⟨7, Nat.succ_pos 6, Nat.le_succ 7⟩⟩

def idKeys : Keys Nat := Keys.ofHash id

theorem make_default : ∃ m : UnorderedNodeMap Nat Nat, make defaultParams idKeys 8 = .ok m ∧
    m.virtualStorageVec.items = [] :=
  ⟨_, rfl, rfl⟩

end UnorderedMapVariants
