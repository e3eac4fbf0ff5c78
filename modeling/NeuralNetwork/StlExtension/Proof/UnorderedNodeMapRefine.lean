import NeuralNetwork.StlExtension.Proof.UnorderedNodeMap
import Mathlib.Data.List.Nodup
import Mathlib.Data.List.Induction

/-!
# The dense hash map refines a finite map

`RefMap` is a finite map with keys up to equivalence. A `Request` is a call as a caller sees it, with
iterators read through; `Request.run` makes it on the map, `Request.spec` on the reference.
`requests_refine`: from a constructed map on, every run of requests gets the same replies from both.
-/

namespace UnorderedMapVariants

open Cpp Stdx HashChain Loop UnorderedNodeMap

variable {K V : Type}

/-! ## The reference -/

/-- The element with a key, and how many there are. -/
structure RefMap (K V : Type) where
  look : K → Option (K × V)
  count : Nat

namespace RefMap

variable (keys : Keys K) (ref : RefMap K V)

def empty : RefMap K V := ⟨fun _ => none, 0⟩

/-- Set the element for all keys equivalent to its own. -/
def put (e : K × V) (key : K) : Option (K × V) :=
  if keys.pred e.1 key then some e else ref.look key

def add (e : K × V) : RefMap K V := ⟨ref.put keys e, ref.count + 1⟩

def replace (e : K × V) : RefMap K V := ⟨ref.put keys e, ref.count⟩

def remove (k : K) : RefMap K V :=
  ⟨fun key => if keys.pred k key then none else ref.look key, ref.count - 1⟩

end RefMap

/-! ## Requests -/

/-- A call; `eraseFound` is `erase(find(key))`, `insert` stands for `try_emplace` and `emplace`. -/
inductive Request (K V : Type) where
  | insert (key : K) (mapped : V)
  | insertOrAssign (key : K) (mapped : V)
  | index (key : K)
  | eraseKey (key : K)
  | eraseFound (key : K)
  | find (key : K)
  | contains (key : K)
  | at? (key : K)
  | size
  | clear
  | reserve (newSz : Nat)
  | rehash (tentativeNewCap : Nat)

/-- What the caller sees: the element that an iterator leads to, `none` at the end. -/
inductive Reply (K V : Type) where
  | inserted (element : Option (K × V)) (fresh : Bool)
  | element (element : Option (K × V))
  | mapped (value : Option V)
  | flag (b : Bool)
  | count (n : Nat)
  | done
  | threw (what : String)
deriving DecidableEq

def caught {S : Type} (s : S) : Except Fault (S × Reply K V) → Except Fault (S × Reply K V)
  | .error (.lengthError what) => .ok (s, .threw what)
  | r => r

def deref (m : UnorderedNodeMap K V) (pos : Nat) : Option (K × V) := m.entries[pos]?

def Request.run [Inhabited V] (P : Params) (m : UnorderedNodeMap K V) (r : Request K V) :
    Except Fault (UnorderedNodeMap K V × Reply K V) :=
  caught m <| match r with
    | .insert key mapped => do
      let (m, pos, fresh) ← m.tryEmplace P key mapped
      return (m, .inserted (deref m pos) fresh)
    | .insertOrAssign key mapped => do
      let (m, pos, fresh) ← m.insertOrAssign P key mapped
      return (m, .inserted (deref m pos) fresh)
    | .index key => do
      let (m, value) ← m.index P key
      return (m, .mapped (some value))
    | .eraseKey key => do
      let (m, erased) ← m.internalEraseKey P key
      return (m, .flag erased)
    | .eraseFound key => do
      let (m, _) ← m.internalEraseIter P (← m.find P key)
      return (m, .done)
    | .find key => do return (m, .element (deref m (← m.find P key)))
    | .contains key => do return (m, .flag (← m.contains P key))
    | .at? key => do return (m, .mapped (← m.at? P key))
    | .size => .ok (m, .count m.size)
    | .clear => .ok (m.clear P, .done)
    | .reserve newSz => do return (← m.reserve P newSz, .done)
    | .rehash tentativeNewCap => do return (← m.rehash P tentativeNewCap, .done)

def Request.spec [Inhabited V] (P : Params) (keys : Keys K) (ref : RefMap K V) :
    Request K V → RefMap K V × Reply K V
  | .insert key mapped =>
    if ref.count = P.maxSize then (ref, .threw "bad unordered_node_map capacity")
    else match ref.look key with
      | some e => (ref, .inserted (some e) false)
      | none => (ref.add keys (key, mapped), .inserted (some (key, mapped)) true)
  | .insertOrAssign key mapped =>
    if ref.count = P.maxSize then (ref, .threw "bad unordered_node_map capacity")
    else match ref.look key with
      | some e => (ref.replace keys (e.1, mapped), .inserted (some (e.1, mapped)) false)
      | none => (ref.add keys (key, mapped), .inserted (some (key, mapped)) true)
  | .index key =>
    if ref.count = P.maxSize then (ref, .threw "bad unordered_node_map capacity")
    else match ref.look key with
      | some e => (ref, .mapped (some e.2))
      | none => (ref.add keys (key, default), .mapped (some default))
  | .eraseKey key =>
    match ref.look key with
    | some _ => (ref.remove keys key, .flag true)
    | none => (ref, .flag false)
  | .eraseFound key =>
    match ref.look key with
    | some _ => (ref.remove keys key, .done)
    | none => (ref, .done)
  | .find key => (ref, .element (ref.look key))
  | .contains key => (ref, .flag (ref.look key).isSome)
  | .at? key => (ref, .mapped ((ref.look key).map Prod.snd))
  | .size => (ref, .count ref.count)
  | .clear => (.empty, .done)
  | .reserve newSz =>
    if newSz ≤ P.maxSize then (ref, .done) else (ref, .threw "bad unordered_node_map size")
  | .rehash tentativeNewCap =>
    if tentativeNewCap ≤ maxCapacity then (ref, .done)
    else (ref, .threw "bad unordered_node_map capacity")

def Request.Shiftable : Request K V → Prop
  | .rehash tentativeNewCap => tentativeNewCap ≤ 2 ^ 63
  | _ => True

def runRequests [Inhabited V] (P : Params) (m : UnorderedNodeMap K V) (rs : List (Request K V)) :
    Except Fault (UnorderedNodeMap K V × List (Reply K V)) :=
  rs.foldlM (fun s r => do
    let (m, reply) ← r.run P s.1
    return (m, s.2 ++ [reply])) (m, [])

def specRequests [Inhabited V] (P : Params) (keys : Keys K) (ref : RefMap K V)
    (rs : List (Request K V)) : RefMap K V × List (Reply K V) :=
  rs.foldl (fun s r => ((r.spec P keys s.1).1, s.2 ++ [(r.spec P keys s.1).2])) (ref, [])

/-! ## The map as a finite map -/

namespace UnorderedNodeMap

variable {P : Params} {m m' : UnorderedNodeMap K V}

theorem nodup_entries (hd : Distinct m) : m.entries.Nodup := by
  rw [List.nodup_iff_getElem?_ne_getElem?]
  intro i j hij hj e
  obtain ⟨⟨k, x⟩, hk⟩ : ∃ entry, m.entries[j]? = some entry := ⟨_, List.getElem?_eq_getElem hj⟩
  exact hij.ne (hd i j k k x x (e.trans hk) hk (m.keys.refl k))

def look (m : UnorderedNodeMap K V) (key : K) : Option (K × V) := m.entries[m.slot key]?

def abs (m : UnorderedNodeMap K V) : RefMap K V := ⟨m.look, m.size⟩

variable {e : K × V} {pos : Nat} {p : Nat} {key : K}

theorem look_of_mem (hd : Distinct m) (he : e ∈ m.entries) (hp : m.keys.pred e.1 key = true) :
    m.look key = some e := by
  obtain ⟨p, hp'⟩ := List.getElem?_of_mem he
  rw [look, slot_eq hd hp' hp, hp']

theorem look_eq_none (h : ∀ e ∈ m.entries, m.keys.pred e.1 key = false) :
    m.look key = none := by
  rw [look, List.getElem?_eq_none_iff, slot, List.findIdx_eq_length.2 h]

theorem look_cases (m : UnorderedNodeMap K V) (key : K) :
    (m.slot key = m.size ∧ m.look key = none ∧ ∀ e ∈ m.entries, m.keys.pred e.1 key = false) ∨
    (m.slot key < m.size ∧ ∃ e ∈ m.entries, m.entries[m.slot key]? = some e ∧
      m.look key = some e ∧ m.keys.pred e.1 key = true) := by
  rcases slot_cases m key with ⟨hslot, hno⟩ | ⟨hlt, k, x, hentry, hp⟩
  · exact .inl ⟨hslot, look_eq_none hno, hno⟩
  · exact .inr ⟨hlt, (k, x), List.mem_of_getElem? hentry, hentry, hentry, hp⟩

theorem abs_congr (he : m'.entries = m.entries) (hk : m'.keys = m.keys) : m'.abs = m.abs := by
  have hlook : m'.look = m.look := by
    funext key
    simp only [look, slot, he, hk]
  rw [abs, abs, hlook, size_eq, size_eq, he]

theorem abs_append (hd : Distinct m') (he : m'.entries = m.entries ++ [e])
    (hk : m'.keys = m.keys) : m'.abs = m.abs.add m.keys e := by
  have hlook : m'.look = m.abs.put m.keys e := by
    funext key
    rw [RefMap.put]
    by_cases hp : m.keys.pred e.1 key = true
    · rw [if_pos hp]
      apply look_of_mem hd
      · rw [he]
        exact List.mem_append_right _ (List.mem_singleton_self e)
      · rwa [hk]
    · rw [if_neg hp]
      rcases look_cases m key with ⟨-, hl, hno⟩ | ⟨-, e', he', -, hl, hp'⟩
      · rw [show m.abs.look key = none from hl]
        apply look_eq_none
        intro x hx
        rw [he, List.mem_append, List.mem_singleton] at hx
        rw [hk]
        rcases hx with hx | rfl
        · exact hno x hx
        · exact Bool.eq_false_iff.2 hp
      · rw [show m.abs.look key = some e' from hl]
        apply look_of_mem hd
        · rw [he]
          exact List.mem_append_left _ he'
        · rwa [hk]
  have hsize : m'.size = m.size + 1 := by
    rw [size_eq, he, List.length_append, ← size_eq]
    rfl
  rw [abs, hlook, hsize]
  rfl

theorem cons_backErase_perm {E : Type} {es : List E} {e : E} (h : es[p]? = some e) :
    (e :: backErase es p).Perm es := by
  obtain ⟨hp, rfl⟩ := List.getElem?_eq_some_iff.1 h
  rcases List.eq_nil_or_concat' es with rfl | ⟨xs, b, rfl⟩
  · exact absurd hp (Nat.not_lt_zero p)
  have hlast : (xs ++ [b]).getLast? = some b := List.getLast?_concat
  by_cases hlt : p < xs.length
  · have herase : backErase (xs ++ [b]) p = xs.set p b := by
      simp only [backErase, hlast, List.set_append_left _ _ hlt, List.dropLast_concat]
    rw [herase, List.getElem_append_left hlt]
    have h1 : (xs.set p b).Perm (b :: xs.eraseIdx p) := List.set_perm_cons_eraseIdx hlt b
    have h2 : (xs[p] :: xs.eraseIdx p).Perm xs := List.getElem_cons_eraseIdx_perm hlt
    have h3 : (xs[p] :: xs.set p b).Perm (b :: xs) :=
      ((h1.cons _).trans (List.Perm.swap _ _ _)).trans (h2.cons _)
    exact h3.trans (List.perm_append_singleton b xs).symm
  · have heq : p = xs.length := by
      rw [List.length_append, List.length_singleton] at hp
      omega
    subst heq
    have herase : backErase (xs ++ [b]) xs.length = xs := by
      simp [backErase, List.set_append_right _ _ (Nat.le_refl xs.length)]
    rw [herase, List.getElem_concat_length rfl]
    exact (List.perm_append_singleton b xs).symm

theorem abs_erase (hd : Distinct m) (hd' : Distinct m') (hp : m.entries[p]? = some e)
    (hpred : m.keys.pred e.1 key = true) (he : m'.entries = backErase m.entries p)
    (hk : m'.keys = m.keys) :
    m'.abs = m.abs.remove m.keys key := by
  have hperm : (e :: m'.entries).Perm m.entries := he ▸ cons_backErase_perm hp
  have hlook : m'.look = (m.abs.remove m.keys key).look := by
    funext key'
    show _ = if m.keys.pred key key' then none else m.look key'
    by_cases hk' : m.keys.pred key key' = true
    · rw [if_pos hk']
      apply look_eq_none
      -- another entry with the key would be the one that was taken out
      intro x hx
      by_contra hx'
      rw [Bool.not_eq_false, hk] at hx'
      have hsame : m.look key' = some x := look_of_mem hd (hperm.mem_iff.1 (.tail _ hx)) hx'
      have hself : m.look key' = some e :=
        look_of_mem hd (List.mem_of_getElem? hp) (m.keys.trans hpred hk')
      obtain rfl := Option.some.inj (hsame.symm.trans hself)
      exact (List.nodup_cons.1 (hperm.nodup_iff.2 (nodup_entries hd))).1 hx
    · rw [if_neg hk']
      rcases look_cases m key' with ⟨-, hl, hno⟩ | ⟨-, e', he', -, hl, hp'⟩
      · rw [hl]
        apply look_eq_none
        intro x hx
        rw [hk]
        exact hno x (hperm.mem_iff.1 (.tail _ hx))
      · rw [hl]
        apply look_of_mem hd'
        · rcases List.mem_cons.1 (hperm.mem_iff.2 he') with rfl | hmem
          · exact absurd (m.keys.trans (m.keys.symm hpred) hp') hk'
          · exact hmem
        · rwa [hk]
  have hsize : m'.size = m.size - 1 := by
    have := hperm.length_eq
    rw [List.length_cons, ← size_eq, ← size_eq] at this
    omega
  rw [abs, hlook, hsize]
  rfl

theorem entries_assign (h : m.entries[pos]? = some e) (mapped : V) :
    (m.assign pos mapped).entries = m.entries.set pos (e.1, mapped) := by
  have hlt : pos < m.entries.length := (List.getElem?_eq_some_iff.1 h).1
  refine List.ext_getElem? fun i => ?_
  rw [entries_getElem?] at h
  simp only [entries_getElem?, assign, StdVector.modify, List.getElem?_modify, List.getElem?_set,
    if_pos hlt]
  by_cases hi : pos = i
  · subst hi
    obtain ⟨node, hnode, rfl⟩ := Option.map_eq_some_iff.1 h
    simp [hnode]
  · simp [hi]

theorem slot_assign (m : UnorderedNodeMap K V) (pos : Nat) (mapped : V) (key : K) :
    (m.assign pos mapped).slot key = m.slot key := by
  have hmap : (m.assign pos mapped).entries.map Prod.fst = m.entries.map Prod.fst := by
    refine List.ext_getElem? fun i => ?_
    simp only [List.getElem?_map, entries_getElem?, assign, StdVector.modify, List.getElem?_modify]
    cases m.virtualStorageVec.items[i]? with
    | none => rfl
    | some node => by_cases hi : pos = i <;> simp [hi]
  have hidx : ∀ m₁ : UnorderedNodeMap K V,
      m₁.slot key = (m₁.entries.map Prod.fst).findIdx (m₁.keys.pred · key) := fun m₁ => by
    rw [List.findIdx_map]
    rfl
  rw [hidx, hidx, hmap]
  rfl

theorem abs_assign (hd : Distinct m) (h : m.entries[pos]? = some e) (mapped : V) :
    (m.assign pos mapped).abs = m.abs.replace m.keys (e.1, mapped) := by
  have hlt : pos < m.entries.length := (List.getElem?_eq_some_iff.1 h).1
  have hlook : (m.assign pos mapped).look = m.abs.put m.keys (e.1, mapped) := by
    funext key
    rw [look, slot_assign, entries_assign h, RefMap.put]
    by_cases hp : m.keys.pred e.1 key = true
    · rw [if_pos hp, slot_eq hd h hp, List.getElem?_set_self hlt]
    · have hne : pos ≠ m.slot key := by
        rintro rfl
        have hslot : m.slot key ≠ m.size := by
          rw [size_eq]
          exact hlt.ne
        obtain ⟨k, x, hentry, hp'⟩ := entry_of_slot hslot
        obtain rfl := Option.some.inj (h.symm.trans hentry)
        exact hp hp'
      rw [if_neg hp, List.getElem?_set_ne hne]
      rfl
  rw [abs, hlook, size_assign]
  rfl

/-! ## Calls on maps whose vectors grow together -/

def Roomy (P : Params) : Prop := P.maxSize ≤ P.nullVirtualAddr

theorem roomy_sizeT (lf : LoadFactor) : Roomy ⟨64, lf⟩ :=
  (Params.maxSize_le _).trans (show 2 ^ 50 ≤ 2 ^ 64 - 1 by decide)

structure Inserted (P : Params) (m m' : UnorderedNodeMap K V) (e : K × V) (pos : Nat) (fresh : Bool) :
    Prop where
  tight : Tight P m'
  keys : m'.keys = m.keys
  present : ∀ e₀, m.look e.1 = some e₀ → fresh = false ∧ m'.entries = m.entries ∧
    m'.entries[pos]? = some e₀
  absent : m.look e.1 = none → fresh = true ∧ m'.entries = m.entries ++ [e] ∧
    m'.entries[pos]? = some e

/-- **insert**: refused at `max_size`, else an absent key is appended. -/
theorem Tight.internalInsert (h : Tight P m) (hP : Roomy P) (key : K) (mapped : V) :
    (m.size = P.maxSize ∧ m.internalInsert P ⟨key, mapped, P.nullVirtualAddr⟩ =
      .error (.lengthError "bad unordered_node_map capacity")) ∨
    (m.size ≠ P.maxSize ∧ ∃ m' pos fresh, m.internalInsert P ⟨key, mapped, P.nullVirtualAddr⟩ =
      .ok (m', pos, fresh) ∧ Inserted P m m' (key, mapped) pos fresh) := by
  rcases h.grow with ⟨hfull, e⟩ | ⟨hlt, m1, h1, hentries, hkeys, hroom, e⟩
  · exact .inl ⟨hfull, e _⟩
  refine .inr ⟨hlt.ne, ?_⟩
  have hsize : m1.size = m.size := by rw [size_eq, size_eq, hentries]
  have hlook : ∀ k, m1.look k = m.look k := fun k => congrFun (congrArg RefMap.look
    (abs_congr hentries hkeys)) k
  rw [e]
  rcases look_cases m1 key with ⟨hslot, hno, -⟩ | ⟨hslot, e₀, -, hentry, hyes, -⟩
  · -- an absent key
    have hnull : m1.size < P.nullVirtualAddr := (hsize ▸ hlt).trans_le hP
    have hslot' : m1.slot (Node.mk key mapped P.nullVirtualAddr).first = m1.size := hslot
    obtain ⟨m', ha, e' | ⟨hf, -⟩⟩ := internalInsertGrown_absent h1.inv hslot' rfl
    · refine ⟨m', _, _, e', ha.tight h1 hroom hnull, ha.keys.trans hkeys, fun e₀ he₀ => ?_, fun _ => ?_⟩
      · rw [← hlook, hno] at he₀
        cases he₀
      · refine ⟨rfl, ha.entries.trans (by rw [hentries]), ?_⟩
        rw [Params.toVirtualAddr_of_lt hnull, ha.entries, size_eq]
        exact List.getElem?_concat_length
    · exact absurd hf hroom
  · -- a present key
    have hslot' : m1.slot (Node.mk key mapped P.nullVirtualAddr).first ≠ m1.size := hslot.ne
    have e' := internalInsertGrown_present h1.inv hslot'
    refine ⟨m1, _, _, e', h1, hkeys, fun e₁ he₁ => ⟨rfl, hentries, ?_⟩, fun hnone => ?_⟩
    · rw [← hlook, hyes] at he₁
      rw [hentry, he₁]
    · rw [← hlook, hyes] at hnone
      cases hnone

theorem Erased.tight (h : Tight P m) (he : Erased P m m' p) : Tight P m' := by
  have hroom : m'.room P = m.room P := by rw [room, room, he.buckets]
  refine ⟨he.inv, ?_, ?_⟩
  · rw [he.cap, h.cap, hroom]
  · have hle : m'.size ≤ m.size := by
      rw [size_eq, size_eq, he.entries, backErase]
      split
      · exact Nat.zero_le _
      · simp
    rw [hroom]
    exact hle.trans h.size_le

/-- **erase** takes out the element with the key, if there is one. -/
theorem Tight.internalEraseKey (h : Tight P m) (key : K) :
    (m.look key = none ∧ m.internalEraseKey P key = .ok (m, false)) ∨
    ((∃ e, m.look key = some e) ∧ ∃ m', m.internalEraseKey P key = .ok (m', true) ∧ Tight P m' ∧
      m'.keys = m.keys ∧ ∀ key', m.keys.pred key key' = true →
        m'.abs = m.abs.remove m.keys key') := by
  rcases look_cases m key with ⟨hslot, hno, -⟩ | ⟨hslot, e, -, hentry, hyes, hpred⟩
  · exact .inl ⟨hno, internalEraseKey_absent h.inv hslot⟩
  · obtain ⟨m', run, he⟩ := internalEraseKey_ok h.inv hslot.ne
    have ht := he.tight h
    refine .inr ⟨⟨e, hyes⟩, m', run, ht, he.keys, fun key' hkey' => ?_⟩
    exact abs_erase h.inv.distinct ht.inv.distinct hentry (m.keys.trans hpred hkey') he.entries
      he.keys

theorem Tight.clear (h : Tight P m) : Tight P (m.clear P) := by
  have hinv := clear_inv (P := P) h.inv.buckets
  have hroom : (m.clear P).room P = m.room P := by
    have hlen : (m.clear P).bucketVec.length = m.bucketVec.length := List.length_map _
    rw [room, room, hlen]
  refine ⟨hinv, ?_, Nat.zero_le _⟩
  rw [hroom]
  exact h.cap

theorem abs_clear (m : UnorderedNodeMap K V) : (m.clear P).abs = RefMap.empty := rfl

theorem ceil2_le_maxCapacity {t c : Nat} (ht : t ≤ maxCapacity) (hc : ceil2 t = .ok c) :
    max minCapacity c ≤ maxCapacity := by
  refine max_le (by decide) ?_
  have hpow : maxCapacity = 2 ^ 50 := rfl
  rw [hpow] at ht ⊢
  exact ceil2_le_two_pow hc ht

/-- **rehash**: refused beyond the largest bucket count. -/
theorem Tight.rehash_cases (h : Tight P m) {t : Nat} (ht : t ≤ 2 ^ 63) :
    (t ≤ maxCapacity ∧ ∃ m', m.rehash P t = .ok m' ∧ Tight P m' ∧ m'.keys = m.keys ∧
      m'.abs = m.abs) ∨
    (¬ t ≤ maxCapacity ∧
      m.rehash P t = .error (.lengthError "bad unordered_node_map capacity")) := by
  rcases rehash_ok h.inv ht with ⟨m', e, -⟩ | ⟨-, ⟨c, hc, hlt⟩, e⟩
  · refine .inl ⟨?_, m', e, (h.rehash e).1, (h.rehash e).2.2,
      abs_congr (h.rehash e).2.1 (h.rehash e).2.2⟩
    obtain ⟨x, -, h50, hx⟩ := (h.rehash e).1.inv.buckets
    have hle : m'.bucketVec.length ≤ maxCapacity := by
      rw [hx]
      exact Nat.pow_le_pow_right (by decide) h50
    rcases rehash_eq_ok e with ⟨hcap, rfl⟩ | ⟨c, -, hc, -, hr⟩
    · exact hcap.trans hle
    · have hceil := ceil2_le hc
      rw [hr.buckets] at hle
      exact (hceil.trans (le_max_right minCapacity c)).trans hle
  · refine .inr ⟨fun hle => ?_, e⟩
    exact absurd (ceil2_le_maxCapacity hle hc) (Nat.not_le.2 hlt)

theorem ceilSizeToCapacity_le (P : Params) {sz : Nat} (h0 : 0 < sz) (hsz : sz ≤ P.maxSize) :
    P.ceilSizeToCapacity sz ≤ maxCapacity := by
  have hnum := P.loadFactor.num_pos
  have hmax : P.maxSize = 2 ^ 47 * P.loadFactor.eighths := by
    rw [Params.maxSize, maxCapacity, P.rightCapacityToSize_pow (by decide) (Nat.le_refl 50)]
  have hratio : P.loadFactor.eighths * P.loadFactor.den = 8 * P.loadFactor.num := by
    calc P.loadFactor.eighths * P.loadFactor.den
        = P.loadFactor.num * Nat.gcd P.loadFactor.eighths 8 * P.loadFactor.den := by
          rw [P.loadFactor.num_mul_gcd]
      _ = P.loadFactor.den * Nat.gcd P.loadFactor.eighths 8 * P.loadFactor.num := by ring
      _ = 8 * P.loadFactor.num := by rw [P.loadFactor.den_mul_gcd]
  have hmul : sz * P.loadFactor.den ≤ 2 ^ 50 * P.loadFactor.num := by
    have := Nat.mul_le_mul_right P.loadFactor.den (hsz.trans hmax.le)
    rw [Nat.mul_assoc, hratio] at this
    omega
  rw [P.ceilSizeToCapacity_eq h0 (hsz.trans P.maxSize_le), maxCapacity]
  have hpos := Nat.mul_pos h0 P.loadFactor.den_pos
  refine (Nat.div_lt_iff_lt_mul hnum).2 ?_
  omega

/-- **reserve**: refused beyond `max_size`. -/
theorem Tight.reserve_cases (h : Tight P m) (sz : Nat) :
    (sz ≤ P.maxSize ∧ ∃ m', m.reserve P sz = .ok m' ∧ Tight P m' ∧ m'.keys = m.keys ∧
      m'.abs = m.abs) ∨
    (¬ sz ≤ P.maxSize ∧
      m.reserve P sz = .error (.lengthError "bad unordered_node_map size")) := by
  have hsize := h.size_le.trans (room_le_maxSize h.inv.buckets).1
  by_cases hsmall : sz ≤ m.size
  · refine .inl ⟨hsmall.trans hsize, m, ?_, h, rfl, rfl⟩
    unfold reserve
    rw [if_pos hsmall]
    rfl
  by_cases hbig : sz > P.maxSize
  · refine .inr ⟨Nat.not_le.2 hbig, ?_⟩
    unfold reserve
    rw [if_neg hsmall, if_pos hbig]
    rfl
  have hle := ceilSizeToCapacity_le P (by omega) (Nat.not_lt.1 hbig)
  rcases h.rehash_cases (hle.trans (by decide)) with ⟨-, m', e, h'⟩ | ⟨hlt, -⟩
  · refine .inl ⟨Nat.not_lt.1 hbig, m', ?_, h'⟩
    unfold reserve
    rw [if_neg hsmall, if_neg hbig]
    exact e
  · exact absurd hle hlt

theorem get_of_entry (h : m.entries[pos]? = some e) :
    ∃ node, m.virtualStorageVec.get pos = .ok node ∧ node.first = e.1 ∧ node.second = e.2 := by
  rw [entries_getElem?] at h
  obtain ⟨node, hnode, rfl⟩ := Option.map_eq_some_iff.1 h
  exact ⟨node, get_of_some hnode, rfl, rfl⟩

theorem Tight.assign (h : Tight P m) (pos : Nat) (mapped : V) : Tight P (m.assign pos mapped) :=
  ⟨assign_inv h.inv pos mapped, h.cap, (size_assign m pos mapped).trans_le h.size_le⟩

end UnorderedNodeMap

/-! ## One request -/

variable {P : Params} {m m' : UnorderedNodeMap K V}

/-- **A request does to the map what it does to the finite map, and gets the same reply.** -/
theorem Request.run_ok [Inhabited V] (h : Tight P m) (hP : Roomy P) {r : Request K V}
    (hr : r.Shiftable) : ∃ m', r.run P m = .ok (m', (r.spec P m.keys m.abs).2) ∧ Tight P m' ∧
      m'.keys = m.keys ∧ m'.abs = (r.spec P m.keys m.abs).1 := by
  have hfind := find_ok h.inv
  have hcount : m.abs.count = m.size := rfl
  have habs : ∀ key, m.abs.look key = m.look key := fun _ => rfl
  cases r with
  | insert key mapped =>
    simp only [Request.run, tryEmplace, Request.spec, hcount, habs]
    rcases h.internalInsert hP key mapped with ⟨hfull, e⟩ | ⟨hfull, m', pos, fresh, e, hi⟩
    · rw [if_pos hfull, e]
      exact ⟨m, rfl, h, rfl, rfl⟩
    · rw [if_neg hfull, e]
      cases hlook : m.look key with
      | none =>
        obtain ⟨rfl, hentries, hpos⟩ := hi.absent hlook
        refine ⟨m', ?_, hi.tight, hi.keys, abs_append hi.tight.inv.distinct hentries hi.keys⟩
        rw [ok_bind, deref, hpos]
        rfl
      | some e₀ =>
        obtain ⟨rfl, hentries, hpos⟩ := hi.present e₀ hlook
        refine ⟨m', ?_, hi.tight, hi.keys, abs_congr hentries hi.keys⟩
        rw [ok_bind, deref, hpos]
        rfl
  | insertOrAssign key mapped =>
    simp only [Request.run, UnorderedNodeMap.insertOrAssign, Request.spec, hcount, habs]
    rcases h.internalInsert hP key mapped with ⟨hfull, e⟩ | ⟨hfull, m', pos, fresh, e, hi⟩
    · rw [if_pos hfull, e]
      exact ⟨m, rfl, h, rfl, rfl⟩
    · rw [if_neg hfull, e]
      cases hlook : m.look key with
      | none =>
        obtain ⟨rfl, hentries, hpos⟩ := hi.absent hlook
        refine ⟨m', ?_, hi.tight, hi.keys, abs_append hi.tight.inv.distinct hentries hi.keys⟩
        show caught m (.ok (m', .inserted (deref m' pos) true)) = _
        rw [deref, hpos]
        rfl
      | some e₀ =>
        obtain ⟨rfl, hentries, hpos⟩ := hi.present e₀ hlook
        refine ⟨m'.assign pos mapped, ?_, hi.tight.assign pos mapped, hi.keys, ?_⟩
        · have hpos' : (m'.assign pos mapped).entries[pos]? = some (e₀.1, mapped) := by
            rw [entries_assign hpos, List.getElem?_set_self (List.getElem?_eq_some_iff.1 hpos).1]
          show caught m (.ok (m'.assign pos mapped,
            .inserted (deref (m'.assign pos mapped) pos) false)) = _
          rw [deref, hpos']
          rfl
        · rw [abs_assign hi.tight.inv.distinct hpos, abs_congr hentries hi.keys, hi.keys]
  | index key =>
    simp only [Request.run, UnorderedNodeMap.index, tryEmplace, Request.spec, hcount, habs]
    rcases h.internalInsert hP key default with ⟨hfull, e⟩ | ⟨hfull, m', pos, fresh, e, hi⟩
    · rw [if_pos hfull, e]
      exact ⟨m, rfl, h, rfl, rfl⟩
    · rw [if_neg hfull, e]
      cases hlook : m.look key with
      | none =>
        obtain ⟨-, hentries, hpos⟩ := hi.absent hlook
        obtain ⟨node, hnode, -, hsecond⟩ := get_of_entry hpos
        refine ⟨m', ?_, hi.tight, hi.keys, abs_append hi.tight.inv.distinct hentries hi.keys⟩
        simp only [ok_bind, hnode]
        exact congrArg (fun value => Except.ok (m', Reply.mapped (some value))) hsecond
      | some e₀ =>
        obtain ⟨-, hentries, hpos⟩ := hi.present e₀ hlook
        obtain ⟨node, hnode, -, hsecond⟩ := get_of_entry hpos
        refine ⟨m', ?_, hi.tight, hi.keys, abs_congr hentries hi.keys⟩
        simp only [ok_bind, hnode]
        exact congrArg (fun value => Except.ok (m', Reply.mapped (some value))) hsecond
  | eraseKey key =>
    simp only [Request.run, Request.spec, habs]
    rcases h.internalEraseKey key with ⟨hno, e⟩ | ⟨⟨e₀, hyes⟩, m', e, ht, hk, herase⟩
    · rw [hno, e]
      exact ⟨m, rfl, h, rfl, rfl⟩
    · rw [hyes, e]
      exact ⟨m', rfl, ht, hk, herase key (m.keys.refl key)⟩
  | eraseFound key =>
    simp only [Request.run, Request.spec, habs, hfind, ok_bind, internalEraseIter]
    rcases look_cases m key with ⟨hslot, hno, -⟩ | ⟨hslot, e₀, -, hentry, hyes, hpred⟩
    · rw [hno, if_pos hslot]
      exact ⟨m, rfl, h, rfl, rfl⟩
    · obtain ⟨node, hnode, hfirst, -⟩ := get_of_entry hentry
      rw [← hfirst] at hpred
      rw [hyes, if_neg hslot.ne, hnode, ok_bind]
      rcases h.internalEraseKey node.first with ⟨hno, -⟩ | ⟨-, m', e, ht, hk, herase⟩
      · have hsame : m.look node.first = some e₀ := by
          have hself : m.keys.pred e₀.1 node.first = true := hfirst ▸ m.keys.refl _
          rw [look, slot_eq h.inv.distinct hentry hself, hentry]
        cases hno.symm.trans hsame
      · rw [e]
        exact ⟨m', rfl, ht, hk, herase key hpred⟩
  | find key =>
    refine ⟨m, ?_, h, rfl, rfl⟩
    rw [Request.run, hfind]
    rfl
  | contains key =>
    refine ⟨m, ?_, h, rfl, rfl⟩
    simp only [Request.run, UnorderedNodeMap.contains, hfind, ok_bind, Request.spec, habs]
    rcases look_cases m key with ⟨hslot, hno, -⟩ | ⟨hslot, e₀, -, -, hyes, -⟩
    · rw [hno, hslot]
      simp [caught, pure, Except.pure]
    · rw [hyes]
      simp [caught, pure, Except.pure, hslot.ne]
  | at? key =>
    refine ⟨m, ?_, h, rfl, rfl⟩
    simp only [Request.run, UnorderedNodeMap.at?, hfind, ok_bind, Request.spec, habs]
    rcases look_cases m key with ⟨hslot, hno, -⟩ | ⟨hslot, e₀, -, hentry, hyes, -⟩
    · rw [hno, if_pos hslot]
      rfl
    · obtain ⟨node, hnode, -, hsecond⟩ := get_of_entry hentry
      rw [hyes, if_neg hslot.ne, hnode]
      exact congrArg (fun value => Except.ok (m, Reply.mapped (some value))) hsecond
  | size => exact ⟨m, rfl, h, rfl, rfl⟩
  | clear => exact ⟨m.clear P, rfl, h.clear, rfl, abs_clear m⟩
  | reserve newSz =>
    simp only [Request.run, Request.spec]
    rcases h.reserve_cases newSz with ⟨hle, m', e, ht, hk, hsame⟩ | ⟨hle, e⟩
    · rw [if_pos hle, e]
      exact ⟨m', rfl, ht, hk, hsame⟩
    · rw [if_neg hle, e]
      exact ⟨m, rfl, h, rfl, rfl⟩
  | rehash t =>
    simp only [Request.run, Request.spec]
    rcases h.rehash_cases hr with ⟨hle, m', e, ht, hk, hsame⟩ | ⟨hle, e⟩
    · rw [if_pos hle, e]
      exact ⟨m', rfl, ht, hk, hsame⟩
    · rw [if_neg hle, e]
      exact ⟨m, rfl, h, rfl, rfl⟩

/-! ## Runs -/

theorem runRequests_ok [Inhabited V] {m0 : UnorderedNodeMap K V} (h0 : Tight P m0) (hP : Roomy P)
    {rs : List (Request K V)} (hrs : ∀ r ∈ rs, r.Shiftable) :
    ∃ m, runRequests P m0 rs = .ok (m, (specRequests P m0.keys m0.abs rs).2) ∧ Tight P m ∧
      m.keys = m0.keys ∧ m.abs = (specRequests P m0.keys m0.abs rs).1 := by
  induction rs using List.reverseRecOn with
  | nil => exact ⟨m0, rfl, h0, rfl, rfl⟩
  | append_singleton rs r ih =>
    obtain ⟨m1, e1, h1, hk1, habs1⟩ := ih fun r' hr' => hrs r' (List.mem_append_left _ hr')
    obtain ⟨m2, e2, h2, hk2, habs2⟩ := r.run_ok h1 hP (hrs r (List.mem_append_right _ (.head _)))
    rw [hk1, habs1] at e2 habs2
    unfold specRequests at e1 e2 habs2 ⊢
    rw [List.foldl_append]
    refine ⟨m2, ?_, h2, hk2.trans hk1, habs2⟩
    unfold runRequests at e1 ⊢
    rw [List.foldlM_append, e1, ok_bind]
    simp only [List.foldlM_cons, List.foldlM_nil, e2, ok_bind]
    rfl

/-- Every entry lies on one chain, and every chain runs through its entries once and ends in null. -/
structure ChainsExact (P : Params) (m : UnorderedNodeMap K V) : Prop where
  chains : ∃ chain, Chained m.home m.keys.pred (m.viewTo P m.size) chain ∧
    ∀ p k x, m.entries[p]? = some (k, x) → ∀ b, p ∈ chain b ↔ b = m.home k

theorem ChainsExact.of_inv (h : Inv P m) : ChainsExact P m := by
  obtain ⟨chain, hc⟩ := h.chained
  refine ⟨chain, hc, fun p k x hp b => ?_⟩
  have hlt : p < m.size := by
    rw [size_eq]
    exact (List.getElem?_eq_some_iff.1 hp).1
  have hmem := hc.cover p k (key_eq_some.2 ⟨hlt, x, hp⟩)
  exact ⟨fun hb => hc.chain_unique hb hmem, fun hb => hb ▸ hmem⟩

def sizeTParams (lf : LoadFactor) : Params := ⟨64, lf⟩

theorem make_cases (keys : Keys K) {bucketCount : Nat} (hn : bucketCount ≤ 2 ^ 63) :
    (maxCapacity < bucketCount ∧ (make P keys bucketCount : Except Fault (UnorderedNodeMap K V)) =
      .error (.lengthError "bad size clamp")) ∨
    ∃ m : UnorderedNodeMap K V, make P keys bucketCount = .ok m ∧ m.keys = keys ∧
      m.entries = [] := by
  obtain ⟨e, -, hc, hle⟩ := ceil2_ok hn
  by_cases hmax : 2 ^ e > maxCapacity
  · refine .inl ⟨Nat.not_le.1 fun hle' => ?_, ?_⟩
    · exact absurd ((le_max_right _ _).trans (ceil2_le_maxCapacity hle' hc)) (Nat.not_le.2 hmax)
    · rw [make, hc, ok_bind, minSizeClamp, if_pos hmax]
      rfl
  · obtain ⟨m, hmake⟩ : ∃ m : UnorderedNodeMap K V, make P keys bucketCount = .ok m := by
      rw [make, hc, ok_bind, minSizeClamp, if_neg hmax]
      exact ⟨_, rfl⟩
    obtain ⟨c, -, -, hkeys, hvec, -⟩ := make_eq_ok hmake
    refine .inr ⟨m, hmake, hkeys, ?_⟩
    rw [entries, hvec]
    rfl

theorem abs_empty (h : m.entries = []) : m.abs = RefMap.empty := by
  have hlook : m.look = fun _ => none := by
    funext key
    apply look_eq_none
    simp [h]
  rw [UnorderedNodeMap.abs, hlook, size_eq, h]
  rfl

/-- **The map refines a finite map**: the constructor refuses or makes an empty map, and every run of
requests whose bucket counts can be rounded up gets the replies of the finite map, with every entry on
one chain in the end. -/
theorem requests_refine [Inhabited V] (lf : LoadFactor) (keys : Keys K) {bucketCount : Nat}
    (hn : bucketCount ≤ 2 ^ 63) {rs : List (Request K V)} (hrs : ∀ r ∈ rs, r.Shiftable) :
    (maxCapacity < bucketCount ∧
      (make (sizeTParams lf) keys bucketCount : Except Fault (UnorderedNodeMap K V)) =
        .error (.lengthError "bad size clamp")) ∨
    ∃ m0 m : UnorderedNodeMap K V, make (sizeTParams lf) keys bucketCount = .ok m0 ∧
      runRequests (sizeTParams lf) m0 rs =
        .ok (m, (specRequests (sizeTParams lf) keys .empty rs).2) ∧
      m.abs = (specRequests (sizeTParams lf) keys .empty rs).1 ∧ ChainsExact (sizeTParams lf) m := by
  rcases make_cases (P := sizeTParams lf) (V := V) keys hn with h | ⟨m0, hmake, hkeys, hentries⟩
  · exact .inl h
  · obtain ⟨m, e, ht, -, habs⟩ := runRequests_ok (make_tight hmake) (roomy_sizeT lf) hrs
    rw [hkeys, abs_empty hentries] at e habs
    exact .inr ⟨m0, m, hmake, e, habs, .of_inv ht.inv⟩

/-- Two keys are inserted, one is found and erased. -/
theorem requests_refine_sample : ∃ m0 m : UnorderedNodeMap Nat Nat,
    make defaultParams idKeys 8 = .ok m0 ∧
    runRequests defaultParams m0 [.insert 1 10, .insert 9 90, .find 9, .eraseKey 1, .size] =
      .ok (m, [.inserted (some (1, 10)) true, .inserted (some (9, 90)) true, .element (some (9, 90)),
        .flag true, .count 1]) := by
  have hrs : ∀ r ∈ ([.insert 1 10, .insert 9 90, .find 9, .eraseKey 1, .size] :
      List (Request Nat Nat)), r.Shiftable := by simp [Request.Shiftable]
  have hn : 8 ≤ 2 ^ 63 := by decide
  rcases requests_refine defaultParams.loadFactor idKeys hn hrs with ⟨hlt, -⟩ | ⟨m0, m, hmake, e, -⟩
  · exact absurd hlt (by decide)
  · exact ⟨m0, m, hmake, e⟩

/-- A bucket count above `2 ^ 63` shifts by 64. -/
theorem requests_refine_fails : ¬ ∀ (m0 : UnorderedNodeMap Nat Nat) (rs : List (Request Nat Nat)),
    make defaultParams idKeys 8 = .ok m0 → ∃ r, runRequests defaultParams m0 rs = .ok r := by
  intro hall
  obtain ⟨m0, hmake, -⟩ := make_default
  obtain ⟨r, hr⟩ := hall m0 [.rehash (2 ^ 63 + 1)] hmake
  have hceil : ceil2 (2 ^ 63 + 1) = .error .undefined := by decide +kernel
  have hcap : m0.capacity = 8 := by
    obtain ⟨c, hc, -, -, -, hbuckets⟩ := make_eq_ok hmake
    obtain rfl : 8 = c := Except.ok.inj hc
    rw [UnorderedNodeMap.capacity, hbuckets]
    exact List.length_replicate
  have hrehash : m0.rehash defaultParams (2 ^ 63 + 1) = .error .undefined := by
    unfold UnorderedNodeMap.rehash
    rw [hcap, if_neg (by decide), hceil]
    rfl
  obtain ⟨s, e, -⟩ := bind_eq_ok hr
  unfold Request.run at e
  simp only [hrehash] at e
  cases e

end UnorderedMapVariants
