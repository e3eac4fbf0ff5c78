import NeuralNetwork.StlExtension.Proof.CyclicUnorderedNodeMap
import NeuralNetwork.Lib.Run
import Mathlib.Data.List.Induction

/-!
# The evicting set over its whole history

`SetOp.run` is a call on a `cyclic_unordered_node_set`, `SetOp.spec` the same call on the sequence of
its live keys. `run_refines`: from a constructed set on, every run of calls answers as the sequence
does, and in the end membership, size and the chains are those of the sequence.
`duplicate_ignored_iff`: an insert of a present key is ignored as long as the set is not full.
-/

namespace CyclicUnordered

open Cpp Loop Stdx HashChain CyclicUnorderedNodeMap

variable {K : Type}

inductive SetOp (K : Type) where
  | insert (key : K)
  | eraseKey (key : K)
  | eraseIter (pos : Nat)
  | find (key : K)
  | clear
deriving Repr

inductive SetAnswer where
  | inserted (pos : Nat) (fresh : Bool)
  | erasedKey (erased : Bool)
  | position (pos : Nat)
  | cleared
deriving DecidableEq, Repr

def SetOp.run (keys : Keys K) (m : CyclicUnorderedNodeSet K) :
    SetOp K → Except Fault (CyclicUnorderedNodeSet K × SetAnswer)
  | .insert key => do
    let (m, pos, fresh) ← m.tryEmplace keys key ()
    return (m, .inserted pos fresh)
  | .eraseKey key => do
    let (m, erased) ← m.internalEraseKey keys key
    return (m, .erasedKey erased)
  | .eraseIter pos => do
    let (m, pos) ← m.internalEraseIter keys pos
    return (m, .position pos)
  | .find key => do
    let pos ← m.find keys key
    return (m, .position pos)
  | .clear => .ok (m.clear, .cleared)

/-! ## The sequence of the live keys -/

/-- The front moves into the slot that is erased, and the front slot goes. -/
def eraseSlot : List K → Nat → List K
  | [], _ => []
  | k :: ks, p => ((k :: ks).set p k).tail

def slotOf (keys : Keys K) (ks : List K) (key : K) : Nat := ks.findIdx (keys.pred · key)

def SetOp.spec (keys : Keys K) (cap : Nat) (ks : List K) : SetOp K → List K × SetAnswer
  | .insert key => (evict cap ks ++ [key], .inserted (evict cap ks).length true)
  | .eraseKey key =>
    if slotOf keys ks key = ks.length then (ks, .erasedKey false)
    else (eraseSlot ks (slotOf keys ks key), .erasedKey true)
  | .eraseIter pos =>
    if pos = ks.length then (ks, .position pos) else (eraseSlot ks pos, .position pos)
  | .find key => (ks, .position (slotOf keys ks key))
  | .clear => ([], .cleared)

/-- Only absent keys are inserted, only iterators of the set are erased. -/
def SetOp.Allowed (keys : Keys K) (ks : List K) : SetOp K → Prop
  | .insert key => ∀ k ∈ ks, keys.pred k key = false
  | .eraseIter pos => pos ≤ ks.length
  | _ => True

instance (keys : Keys K) (ks : List K) (op : SetOp K) : Decidable (op.Allowed keys ks) :=
  match op with
  | .insert key => inferInstanceAs (Decidable (∀ k ∈ ks, keys.pred k key = false))
  | .eraseIter pos => inferInstanceAs (Decidable (pos ≤ ks.length))
  | .eraseKey _ => inferInstanceAs (Decidable True)
  | .find _ => inferInstanceAs (Decidable True)
  | .clear => inferInstanceAs (Decidable True)

inductive SpecRun (keys : Keys K) (cap : Nat) : List (SetOp K) → List K → List SetAnswer → Prop
  | nil : SpecRun keys cap [] [] []
  | snoc {ops : List (SetOp K)} {ks : List K} {answers : List SetAnswer} {op : SetOp K} :
      SpecRun keys cap ops ks answers → op.Allowed keys ks →
      SpecRun keys cap (ops ++ [op]) (op.spec keys cap ks).1
        (answers ++ [(op.spec keys cap ks).2])

def runOps (keys : Keys K) (m : CyclicUnorderedNodeSet K) (ops : List (SetOp K)) :
    Except Fault (CyclicUnorderedNodeSet K × List SetAnswer) :=
  ops.foldlM (fun s op => do
    let (m, answer) ← op.run keys s.1
    return (m, s.2 ++ [answer])) (m, [])

/-! ## One call -/

def liveKeys (m : CyclicUnorderedNodeSet K) : List K := m.entries.map Prod.fst

variable {keys : Keys K} {m : CyclicUnorderedNodeSet K}

theorem length_liveKeys (m : CyclicUnorderedNodeSet K) : (liveKeys m).length = m.size := by
  rw [liveKeys, List.length_map, size_eq]

theorem liveKeys_getElem? {p : Nat} {k : K} (h : (liveKeys m)[p]? = some k) :
    m.entries[p]? = some (k, ()) := by
  rw [liveKeys, List.getElem?_map, Option.map_eq_some_iff] at h
  obtain ⟨⟨k', u⟩, he, rfl⟩ := h
  exact he

theorem holds_eq_false (ks : List (K × Unit)) (key : K) :
    holds keys.pred ks key = false ↔ ∀ k ∈ ks.map Prod.fst, keys.pred k key = false := by
  simp [holds]

theorem map_slotErase (es : List (K × Unit)) (p : Nat) :
    (slotErase es p).map Prod.fst = eraseSlot (es.map Prod.fst) p := by
  cases es with
  | nil => rfl
  | cons e es => simp [slotErase, eraseSlot, List.map_tail, List.map_set]

theorem slotOf_eq (h : Inv keys m) {p : Nat} {k key : K} (hp : (liveKeys m)[p]? = some k)
    (hk : keys.pred k key = true) : slotOf keys (liveKeys m) key = p := by
  have hlt := (List.getElem?_eq_some_iff.1 hp).1
  refine (List.findIdx_eq hlt).2 ⟨?_, fun j hj => ?_⟩
  · rwa [(List.getElem?_eq_some_iff.1 hp).2]
  · by_contra hne
    have hj' : keys.pred (liveKeys m)[j] key = true := by simpa using hne
    have hej := liveKeys_getElem? (List.getElem?_eq_getElem (hj.trans hlt))
    exact hj.ne (h.entries_distinct hej (liveKeys_getElem? hp) (keys.trans hj' (keys.symm hk)))

theorem slotOf_cases (h : Inv keys m) (key : K) :
    (holds keys.pred m.entries key = false ∧
      slotOf keys (liveKeys m) key = (liveKeys m).length) ∨
    ∃ p k, m.entries[p]? = some (k, ()) ∧ keys.pred k key = true ∧
      p < (liveKeys m).length ∧ slotOf keys (liveKeys m) key = p := by
  cases hh : holds keys.pred m.entries key with
  | false =>
    refine .inl ⟨rfl, List.findIdx_eq_length.2 fun k hk => ?_⟩
    exact (holds_eq_false m.entries key).1 hh k hk
  | true =>
    obtain ⟨⟨k, u⟩, hmem, hp⟩ := List.any_eq_true.1 hh
    obtain ⟨p, hentry⟩ := List.getElem?_of_mem hmem
    have hlive : (liveKeys m)[p]? = some k := by
      rw [liveKeys, List.getElem?_map, hentry]
      rfl
    exact .inr ⟨p, k, hentry, hp, (List.getElem?_eq_some_iff.1 hlive).1, slotOf_eq h hlive hp⟩

/-- **A call does to the container what it does to the sequence.** -/
theorem run_ok (h : Inv keys m) {op : SetOp K} (hop : op.Allowed keys (liveKeys m)) :
    ∃ m', op.run keys m = .ok (m', (op.spec keys m.storageCap (liveKeys m)).2) ∧ Inv keys m' ∧
      liveKeys m' = (op.spec keys m.storageCap (liveKeys m)).1 ∧ m'.storageCap = m.storageCap := by
  cases op with
  | insert key =>
    obtain ⟨m', pos, e, hi, hentries, hcap, hanswer⟩ :=
      internalInsert_ok h (⟨key, (), nullVirtualAddr⟩ : Node K Unit) rfl
    have habsent : holds keys.pred (evict m.storageCap m.entries) key = false := by
      rw [holds_eq_false, map_evict]
      exact fun k hk => hop k (mem_of_mem_evict hk)
    rw [fifoInsert, habsent, if_neg Bool.false_ne_true] at hentries
    rw [habsent] at e hanswer
    obtain ⟨-, hlast⟩ := hanswer.2 rfl
    have hlen : pos = (evict m.storageCap (liveKeys m)).length := by
      rw [hentries, List.length_append] at hlast
      rw [liveKeys, ← map_evict, List.length_map]
      exact Nat.add_right_cancel hlast
    refine ⟨m', ?_, hi, ?_, hcap⟩
    · rw [SetOp.run, tryEmplace, e, ok_bind, hlen]
      rfl
    · rw [liveKeys, hentries, List.map_append, map_evict]
      rfl
  | eraseKey key =>
    rcases slotOf_cases h key with ⟨habsent, hslot⟩ | ⟨p, k, hentry, hp, hlt, hslot⟩
    · refine ⟨m, ?_, h, ?_, rfl⟩
      · rw [SetOp.run, internalEraseKey_absent h habsent, ok_bind, SetOp.spec, if_pos hslot]
        rfl
      · rw [SetOp.spec, if_pos hslot]
    · obtain ⟨m', e, hi, hentries, hcap⟩ := internalEraseKey_ok h hentry hp
      have hne : slotOf keys (liveKeys m) key ≠ (liveKeys m).length := hslot ▸ hlt.ne
      refine ⟨m', ?_, hi, ?_, hcap⟩
      · rw [SetOp.run, e, ok_bind, SetOp.spec, if_neg hne]
        rfl
      · rw [SetOp.spec, if_neg hne, hslot, liveKeys, hentries, map_slotErase]
        rfl
  | eraseIter pos =>
    by_cases hend : pos = (liveKeys m).length
    · refine ⟨m, ?_, h, ?_, rfl⟩
      · have hsz : pos = m.size := hend.trans (length_liveKeys m)
        rw [SetOp.run, internalEraseIter, if_pos hsz, SetOp.spec, if_pos hend, hsz]
        rfl
      · rw [SetOp.spec, if_pos hend]
    · have hlt : pos < (liveKeys m).length := Nat.lt_of_le_of_ne hop hend
      obtain ⟨m', e, hi, hentries, hcap⟩ :=
        internalEraseIter_ok h (liveKeys_getElem? (List.getElem?_eq_getElem hlt))
      refine ⟨m', ?_, hi, ?_, hcap⟩
      · rw [SetOp.run, e, ok_bind, SetOp.spec, if_neg hend]
        rfl
      · rw [SetOp.spec, if_neg hend, liveKeys, hentries, map_slotErase]
        rfl
  | find key =>
    refine ⟨m, ?_, h, rfl, rfl⟩
    rcases slotOf_cases h key with ⟨habsent, hslot⟩ | ⟨p, k, hentry, hp, -, hslot⟩
    · rw [SetOp.run, find_absent h habsent, ok_bind, SetOp.spec, hslot, liveKeys, List.length_map]
      rfl
    · rw [SetOp.run, find_ok h hentry hp, ok_bind, SetOp.spec, hslot]
      rfl
  | clear =>
    obtain ⟨hi, hentries, hcap⟩ := clear_ok h
    exact ⟨m.clear, rfl, hi, by rw [liveKeys, hentries]; rfl, hcap⟩

/-! ## Runs -/

variable {answers : List SetAnswer} {m0 : CyclicUnorderedNodeSet K} {ops : List (SetOp K)} {key : K}

theorem runOps_ok (h0 : Inv keys m0) (hempty : m0.entries = []) {ks : List K}
    (hrun : SpecRun keys m0.storageCap ops ks answers) :
    ∃ m, runOps keys m0 ops = .ok (m, answers) ∧ Inv keys m ∧ liveKeys m = ks ∧
      m.storageCap = m0.storageCap := by
  induction hrun with
  | nil => exact ⟨m0, rfl, h0, by rw [liveKeys, hempty]; rfl, rfl⟩
  | @snoc ops ks answers op _ hop ih =>
    obtain ⟨m, e, hi, rfl, hcap⟩ := ih
    obtain ⟨m', e', hi', hks, hcap'⟩ := run_ok hi hop
    rw [hcap] at e' hks
    refine ⟨m', ?_, hi', hks, hcap'.trans hcap⟩
    unfold runOps at e ⊢
    rw [List.foldlM_append, e, ok_bind]
    simp only [List.foldlM_cons, List.foldlM_nil, e', ok_bind]
    rfl

/-- What the container is, given its live keys: membership, size, and one chain without a repeat for
each key, on which its slot lies. -/
structure Represents (keys : Keys K) (m : CyclicUnorderedNodeSet K) (ks : List K) : Prop where
  size : m.size = ks.length
  bounded : ks.length ≤ m.storageCap
  contains : ∀ key, m.contains keys key = .ok (ks.any (keys.pred · key))
  chains : ∃ chain, Chained (m.home keys) keys.pred m.view chain ∧
    ∀ p k, ks[p]? = some k → m.toVirtualAddr p ∈ chain (m.home keys k)

theorem represents (h : Inv keys m) : Represents keys m (liveKeys m) where
  size := (length_liveKeys m).symm
  bounded := by
    rw [length_liveKeys]
    exact h.size_le
  contains key := by
    rw [contains_ok h, holds, liveKeys, List.any_map]
    rfl
  chains := by
    obtain ⟨chain, hc⟩ := h.chained
    refine ⟨chain, hc, fun p k hp => hc.cover _ k ?_⟩
    exact (key_toVirtualAddr h.toShape (liveKeys_getElem? hp)).2

/-- **A set that evicts in the order of its slots.** -/
theorem run_refines {lf : LoadFactor} {bucketCount : Nat} {m0 : CyclicUnorderedNodeSet K}
    (hmake : make lf bucketCount = .ok m0) {ops : List (SetOp K)} {ks : List K}
    {answers : List SetAnswer} (hrun : SpecRun keys m0.storageCap ops ks answers) :
    ∃ m, runOps keys m0 ops = .ok (m, answers) ∧ Represents keys m ks := by
  obtain ⟨h0, hempty, -⟩ : Inv keys m0 ∧ m0.entries = [] ∧ _ := make_ok hmake
  obtain ⟨m, e, hi, rfl, -⟩ := runOps_ok h0 hempty hrun
  exact ⟨m, e, represents hi⟩

def leastSet : CyclicUnorderedNodeSet Nat :=
  ⟨⟨[], 4⟩, List.replicate 8 nullVirtualAddr, 0⟩

def idKeys : Keys Nat := Keys.ofHash id

/-- The fifth key evicts the first one; erasing the third moves the front into its slot. -/
theorem run_refines_least :
    ∃ m, runOps idKeys leastSet [.insert 1, .insert 2, .insert 3, .insert 4, .insert 5, .eraseKey 4,
        .find 2] =
      .ok (m, [.inserted 0 true, .inserted 1 true, .inserted 2 true, .inserted 3 true,
        .inserted 3 true, .erasedKey true, .position 1]) ∧ Represents idKeys m [3, 2, 5] := by
  have h0 : SpecRun idKeys leastSet.storageCap [] [] [] := .nil
  have h1 := h0.snoc (show (SetOp.insert 1).Allowed idKeys _ from by decide)
  have h2 := h1.snoc (show (SetOp.insert 2).Allowed idKeys _ from by decide)
  have h3 := h2.snoc (show (SetOp.insert 3).Allowed idKeys _ from by decide)
  have h4 := h3.snoc (show (SetOp.insert 4).Allowed idKeys _ from by decide)
  have h5 := h4.snoc (show (SetOp.insert 5).Allowed idKeys _ from by decide)
  have h6 := h5.snoc (show (SetOp.eraseKey 4).Allowed idKeys _ from by decide)
  have h7 := h6.snoc (show (SetOp.find 2).Allowed idKeys _ from by decide)
  exact run_refines (show make .half 8 = .ok leastSet from rfl) h7

/-! ## Duplicate inserts -/

def SetOp.Step (keys : Keys K) (m : CyclicUnorderedNodeSet K) (op : SetOp K)
    (m' : CyclicUnorderedNodeSet K) : Prop :=
  ∃ answer, op.run keys m = .ok (m', answer)

/-- The sets that calls reach from a constructed one, with inserts of any keys. -/
def Reachable (keys : Keys K) (m : CyclicUnorderedNodeSet K) : Prop :=
  ∃ hist, Run.Reach (fun m => ∃ lf bucketCount, make lf bucketCount = .ok m) (SetOp.Step keys) m hist

/-- The insertion returns the element that is there, and the set keeps what it holds. -/
def DuplicateIgnored (keys : Keys K) (m : CyclicUnorderedNodeSet K) (key : K) : Prop :=
  ∃ m' pos, m.tryEmplace keys key () = .ok (m', pos, false) ∧
    (∃ k, (liveKeys m')[pos]? = some k ∧ keys.pred k key = true) ∧
    (liveKeys m').Perm (liveKeys m)

theorem SetOp.Step.inv (h : Inv keys m) {op : SetOp K} {m' : CyclicUnorderedNodeSet K}
    (hs : op.Step keys m m') : Inv keys m' := by
  obtain ⟨answer, e⟩ := hs
  -- a call that the sequence allows
  have hallowed : op.Allowed keys (liveKeys m) → Inv keys m' := by
    intro hop
    obtain ⟨m1, e1, hi, -⟩ := run_ok h hop
    obtain rfl : m1 = m' := congrArg Prod.fst (Except.ok.inj (e1.symm.trans e))
    exact hi
  cases op with
  | insert key =>
    obtain ⟨m1, pos, e1, hi, -⟩ := internalInsert_ok h (⟨key, (), nullVirtualAddr⟩ : Node K Unit) rfl
    rw [SetOp.run, tryEmplace, e1, ok_bind] at e
    obtain rfl : m1 = m' := congrArg Prod.fst (Except.ok.inj e)
    exact hi
  | eraseIter pos =>
    by_cases hpos : pos ≤ (liveKeys m).length
    · exact hallowed hpos
    · -- behind the end there is no node
      rw [length_liveKeys] at hpos
      have hnone : m.virtualStorageVec.items[pos]? = none :=
        List.getElem?_eq_none (Nat.le_of_not_le hpos)
      have hget : m.virtualStorageVec.get pos = .error .outOfBounds := by
        rw [Pow2CyclicQueue.get, hnone]
      rw [SetOp.run, internalEraseIter, if_neg fun e => hpos e.le, hget] at e
      cases e
  | eraseKey key => exact hallowed trivial
  | find key => exact hallowed trivial
  | clear => exact hallowed trivial

theorem Reachable.inv (h : Reachable keys m) : Inv keys m := by
  obtain ⟨hist, hr⟩ := h
  apply hr.inv (fun m _ => Inv keys m)
  · rintro s ⟨lf, bucketCount, hmake⟩
    exact (make_ok hmake).1
  · intro s hist op s' hi hs
    exact hs.inv hi

theorem holds_of_mem (hkey : ∃ k ∈ liveKeys m, keys.pred k key = true) :
    holds keys.pred m.entries key = true := by
  obtain ⟨k, hk, hp⟩ := hkey
  rw [← Bool.not_eq_false, holds_eq_false]
  intro hno
  exact Bool.noConfusion ((hno k hk).symm.trans hp)

theorem duplicateIgnored_of_room (h : Inv keys m) (hkey : ∃ k ∈ liveKeys m, keys.pred k key = true)
    (hroom : m.size ≠ m.storageCap) :
    DuplicateIgnored keys m key := by
  obtain ⟨m', pos, e, -, hentries, -, hanswer⟩ :=
    internalInsert_ok h (⟨key, (), nullVirtualAddr⟩ : Node K Unit) rfl
  have hevict : evict m.storageCap m.entries = m.entries :=
    if_neg fun hlen => hroom ((size_eq m).trans hlen)
  rw [fifoInsert, hevict, if_pos (holds_of_mem hkey)] at hentries
  rw [hevict, holds_of_mem hkey] at e hanswer
  obtain ⟨⟨k, u, hpos, hpred⟩, -⟩ := hanswer
  refine ⟨m', pos, e, ⟨k, ?_, hpred⟩, ?_⟩
  · rw [liveKeys, List.getElem?_map, hpos]
    rfl
  · rw [liveKeys, hentries]
    rfl

theorem not_duplicateIgnored_of_full (h : Inv keys m) (hfull : m.size = m.storageCap) :
    ¬ DuplicateIgnored keys m key := by
  rintro ⟨m1, pos1, e1, -, hperm⟩
  obtain ⟨m', pos, e, -, hentries, -⟩ :=
    internalInsert_ok h (⟨key, (), nullVirtualAddr⟩ : Node K Unit) rfl
  obtain ⟨rfl, -, hfresh⟩ : m' = m1 ∧ pos = pos1 ∧
      (!holds keys.pred (evict m.storageCap m.entries) key) = false := by
    simpa using e.symm.trans e1
  -- the key is not the front, so the front is lost
  have hrest : holds keys.pred (evict m.storageCap m.entries) key = true := by simpa using hfresh
  rw [fifoInsert, if_pos hrest, evict, if_pos ((size_eq m).symm.trans hfull)] at hentries
  have hlen := hperm.length_eq
  rw [liveKeys, liveKeys, List.length_map, List.length_map, hentries, List.length_tail,
    ← size_eq, hfull] at hlen
  have hpos := h.cap_pos
  omega

/-- **An insert of a present key does nothing exactly if the set is not full.** -/
theorem duplicate_ignored_iff (hr : Reachable keys m) {key : K}
    (hkey : ∃ k ∈ liveKeys m, keys.pred k key = true) :
    DuplicateIgnored keys m key ↔ m.size ≠ m.storageCap := by
  constructor
  · intro hd hfull
    exact not_duplicateIgnored_of_full hr.inv hfull hd
  · exact duplicateIgnored_of_room hr.inv hkey

theorem Reachable.of_runOps {lf : LoadFactor} {bucketCount : Nat} (hmake : make lf bucketCount = .ok m0)
    (e : runOps keys m0 ops = .ok (m, answers)) : Reachable keys m := by
  induction ops using List.reverseRecOn generalizing m answers with
  | nil =>
    obtain rfl : m0 = m := congrArg Prod.fst (Except.ok.inj e)
    exact ⟨[], .init ⟨lf, bucketCount, hmake⟩⟩
  | append_singleton ops op ih =>
    unfold runOps at e ih
    rw [List.foldlM_append] at e
    obtain ⟨⟨m1, answers1⟩, e1, e⟩ := bind_eq_ok e
    obtain ⟨hist, hr⟩ := ih e1
    rw [List.foldlM_cons] at e
    obtain ⟨s, e2, e⟩ := bind_eq_ok e
    obtain ⟨⟨m2, answer⟩, e3, e2⟩ := bind_eq_ok e2
    obtain rfl := Except.ok.inj e2
    obtain rfl : m2 = m := congrArg Prod.fst (Except.ok.inj e)
    exact ⟨hist ++ [op], .step hr ⟨answer, e3⟩⟩

theorem leastSet_fill : SpecRun idKeys leastSet.storageCap
    [.insert 1, .insert 2, .insert 3] [1, 2, 3]
    [.inserted 0 true, .inserted 1 true, .inserted 2 true] := by
  have h0 : SpecRun idKeys leastSet.storageCap [] [] [] := .nil
  have h1 := h0.snoc (show (SetOp.insert 1).Allowed idKeys _ from by decide)
  have h2 := h1.snoc (show (SetOp.insert 2).Allowed idKeys _ from by decide)
  exact h2.snoc (show (SetOp.insert 3).Allowed idKeys _ from by decide)

theorem reachable_of_specRun {ops : List (SetOp Nat)} {ks : List Nat}
    (hrun : SpecRun idKeys leastSet.storageCap ops ks answers) :
    ∃ m, Reachable idKeys m ∧ liveKeys m = ks ∧ m.storageCap = 4 := by
  have hmake : make .half 8 = .ok leastSet := rfl
  obtain ⟨h0, hempty, -⟩ : Inv idKeys leastSet ∧ leastSet.entries = [] ∧ _ := make_ok hmake
  obtain ⟨m, e, -, hks, hcap⟩ := runOps_ok h0 hempty hrun
  exact ⟨m, .of_runOps hmake e, hks, hcap⟩

theorem duplicate_ignored_sample : ∃ m, Reachable idKeys m ∧ liveKeys m = [1, 2, 3] ∧
    DuplicateIgnored idKeys m 2 := by
  obtain ⟨m, hr, hks, hcap⟩ := reachable_of_specRun leastSet_fill
  have hne : m.size ≠ m.storageCap := by
    rw [← length_liveKeys, hks, hcap]
    decide
  exact ⟨m, hr, hks, (duplicate_ignored_iff hr ⟨2, by rw [hks]; decide, by decide⟩).2 hne⟩

/-- The fourth key fills the set; a second `2` then drops the `1`. -/
theorem duplicate_ignored_fails : ¬ ∀ m : CyclicUnorderedNodeSet Nat, Reachable idKeys m →
    ∀ key, (∃ k ∈ liveKeys m, idKeys.pred k key = true) → DuplicateIgnored idKeys m key := by
  intro hall
  have h4 := leastSet_fill.snoc (show (SetOp.insert 4).Allowed idKeys _ from by decide)
  obtain ⟨m, hr, hks, hcap⟩ := reachable_of_specRun h4
  replace hks : liveKeys m = [1, 2, 3, 4] := hks
  have hfull : m.size = m.storageCap := by
    rw [← length_liveKeys, hks, hcap]
    rfl
  exact not_duplicateIgnored_of_full hr.inv hfull
    (hall m hr 2 ⟨2, by rw [hks]; decide, by decide⟩)

end CyclicUnordered
