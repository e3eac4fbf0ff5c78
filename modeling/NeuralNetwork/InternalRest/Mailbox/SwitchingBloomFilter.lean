import NeuralNetwork.Lib.Loop
import NeuralNetwork.StlExtension.Stdx
import Mathlib.Data.List.Infix

/-!
# The switching Bloom filter

`bloom_filter` and `temporal_switching_bloom_filter` of `internal_rest/network_kernel_mailbox_impl1.h`, over
any hash function. The random numbers of a constructor are an argument.

* `insert_ok`: a key that was inserted stays until the filter is cleared.
* `Inv.insert`: the two sides hold the keys that were inserted since the older one was cleared.
* **`keys_remembered`**: the last keys are never reported as missing.
-/

namespace Mailbox

open Cpp Loop Stdx

variable {Key : Type} (hash : Key → BitVec 32 → Nat)

/-! ## bloom_filter -/

structure BloomFilter where
  bloomTable : List Bool
  murmurHashSecretVec : List (BitVec 32)
  sz : Nat
deriving DecidableEq

namespace BloomFilter

def make (bloomTableTentativeCap rehashSz : Nat) (randGen : Nat → BitVec 32) : Except Fault BloomFilter := do
  if rehashSz = 0 then
    throw (.invalidArgument "bad bloom_filter constructor's arguments")
  let upcap ← ceil2 bloomTableTentativeCap
  return ⟨List.replicate upcap false, (List.range rehashSz).map randGen, 0⟩

variable (f : BloomFilter)

def toIdx (key : Nat) : Nat := key &&& subT f.bloomTable.length 1

def internalNumericalKeySearch (key : Nat) : Except Fault Bool :=
  match f.bloomTable[f.toIdx key]? with
  | some bit => .ok bit
  | none => .error .outOfBounds

def internalNumericalKeyInsert (key : Nat) : Except Fault BloomFilter :=
  if f.toIdx key < f.bloomTable.length then
    .ok { f with bloomTable := f.bloomTable.set (f.toIdx key) true }
  else .error .outOfBounds

def searchLoop (key : Key) : List (BitVec 32) → Except Fault Bool
  | [] => .ok false
  | secret :: secrets => do
    if ← f.internalNumericalKeySearch (hash key secret) then searchLoop key secrets
    else return true

def notContains (key : Key) : Except Fault Bool := f.searchLoop hash key f.murmurHashSecretVec

def insert (key : Key) : Except Fault BloomFilter := do
  let f ← f.murmurHashSecretVec.foldlM
    (fun f secret => f.internalNumericalKeyInsert (hash key secret)) f
  return { f with sz := f.sz + 1 }

def clear : BloomFilter := { f with bloomTable := f.bloomTable.map fun _ => false, sz := 0 }

def capacity : Nat := f.bloomTable.length

end BloomFilter

/-! ## temporal_switching_bloom_filter -/

inductive Side where
  | left
  | right
deriving DecidableEq

def Side.other : Side → Side
  | .left => .right
  | .right => .left

/-- What is done to the filters. -/
inductive BloomEvent (Key : Type) where
  | insert (key : Key)
  | clear (side : Side)

structure TemporalSwitchingBloomFilter (Key : Type) where
  leftBloomFilter : BloomFilter
  rightBloomFilter : BloomFilter
  sideCapacity : Nat
  sideSz : Nat
  side : Side
  /-- What was done so far, the last first. -/
  log : List (BloomEvent Key)

namespace TemporalSwitchingBloomFilter

def make (cap rehashSz reliabilityDecay : Nat) (leftGen rightGen : Nat → BitVec 32) :
    Except Fault (TemporalSwitchingBloomFilter Key) := do
  let left ← BloomFilter.make (max 1 cap) rehashSz leftGen
  let right ← BloomFilter.make (max 1 cap) rehashSz rightGen
  if 64 ≤ reliabilityDecay then
    throw .undefined
  return ⟨left, right, max 1 (left.capacity >>> reliabilityDecay), 0, .left, []⟩

variable (f : TemporalSwitchingBloomFilter Key)

def notContains (key : Key) : Except Fault Bool := do
  if ← f.leftBloomFilter.notContains hash key then f.rightBloomFilter.notContains hash key
  else return false

def switchSide : TemporalSwitchingBloomFilter Key :=
  match f.side with
  | .left => { f with
      rightBloomFilter := f.rightBloomFilter.clear, sideSz := 0, side := .right
      log := .clear .right :: f.log }
  | .right => { f with
      leftBloomFilter := f.leftBloomFilter.clear, sideSz := 0, side := .left
      log := .clear .left :: f.log }

/-- `insert`, once the side has room. -/
def insertSide (key : Key) : Except Fault (TemporalSwitchingBloomFilter Key) := do
  let f ← (match f.side with
    | .left => do
      let left ← f.leftBloomFilter.insert hash key
      return { f with leftBloomFilter := left }
    | .right => do
      let right ← f.rightBloomFilter.insert hash key
      return { f with rightBloomFilter := right })
  return { f with sideSz := f.sideSz + 1, log := .insert key :: f.log }

def insert (key : Key) : Except Fault (TemporalSwitchingBloomFilter Key) :=
  if f.sideSz = f.sideCapacity then f.switchSide.insertSide hash key else f.insertSide hash key

/-- The filter after a sequence of calls of `insert`. -/
def insertAll : List Key → TemporalSwitchingBloomFilter Key → Except Fault (TemporalSwitchingBloomFilter Key)
  | [], f => .ok f
  | key :: keys, f => do insertAll keys (← f.insert hash key)

end TemporalSwitchingBloomFilter

/-! ## What a filter holds -/

namespace BloomFilter

variable {hash} {f f' : BloomFilter} {key k : Key}

/-- The size of the table is a power of two. -/
def Sized (f : BloomFilter) : Prop := ∃ e < 64, f.bloomTable.length = 2 ^ e

/-- All bits of the key are set. -/
def Holds (hash : Key → BitVec 32 → Nat) (f : BloomFilter) (key : Key) : Prop :=
  ∀ secret ∈ f.murmurHashSecretVec, f.bloomTable[f.toIdx (hash key secret)]? = some true

theorem Sized.toIdx_lt (h : f.Sized) (key : Nat) : f.toIdx key < f.bloomTable.length := by
  obtain ⟨e, he, hlen⟩ := h
  rw [toIdx, hlen, and_mask he]
  exact Nat.mod_lt _ (Nat.two_pow_pos e)

variable (hash) in
theorem searchLoop_ok (hs : f.Sized) (key : Key) (secrets : List (BitVec 32)) :
    ∃ b, f.searchLoop hash key secrets = .ok b ∧
      (b = false ↔ ∀ secret ∈ secrets, f.bloomTable[f.toIdx (hash key secret)]? = some true) := by
  induction secrets with
  | nil => exact ⟨false, rfl, by simp⟩
  | cons secret secrets ih =>
    obtain ⟨bit, hbit⟩ : ∃ bit, f.bloomTable[f.toIdx (hash key secret)]? = some bit :=
      ⟨_, List.getElem?_eq_getElem (hs.toIdx_lt _)⟩
    unfold searchLoop
    rw [internalNumericalKeySearch, hbit]
    simp only [ok_bind, List.forall_mem_cons, hbit]
    cases bit with
    | true =>
      obtain ⟨b, e, hb⟩ := ih
      exact ⟨b, e, by simp [hb]⟩
    | false => exact ⟨true, rfl, by simp⟩

variable (hash) in
theorem notContains_ok (hs : f.Sized) (key : Key) :
    ∃ b, f.notContains hash key = .ok b ∧ (b = false ↔ f.Holds hash key) :=
  searchLoop_ok hash hs key f.murmurHashSecretVec

/-- A filter of the same shape that holds at least as much. -/
structure Above (f f' : BloomFilter) : Prop where
  length : f'.bloomTable.length = f.bloomTable.length
  secrets : f'.murmurHashSecretVec = f.murmurHashSecretVec
  bits : ∀ i : Nat, f.bloomTable[i]? = some true → f'.bloomTable[i]? = some true

theorem Above.refl (f : BloomFilter) : Above f f := ⟨rfl, rfl, fun _ h => h⟩

theorem Above.trans {g : BloomFilter} (h : Above f f') (h' : Above f' g) : Above f g :=
  ⟨h'.length.trans h.length, h'.secrets.trans h.secrets, fun i hi => h'.bits i (h.bits i hi)⟩

theorem Above.sized (h : Above f f') (hs : f.Sized) : f'.Sized := by
  obtain ⟨e, he, hlen⟩ := hs
  exact ⟨e, he, h.length.trans hlen⟩

theorem Above.toIdx (h : Above f f') (key : Nat) : f'.toIdx key = f.toIdx key := by
  rw [BloomFilter.toIdx, BloomFilter.toIdx, h.length]

theorem Above.holds (h : Above f f') (hk : f.Holds hash k) : f'.Holds hash k := by
  intro secret hm
  rw [h.secrets] at hm
  rw [h.toIdx]
  exact h.bits _ (hk secret hm)

theorem keyInsert_ok (hs : f.Sized) (key : Nat) :
    ∃ f', f.internalNumericalKeyInsert key = .ok f' ∧ Above f f' ∧
      f'.bloomTable[f.toIdx key]? = some true := by
  have hlt := hs.toIdx_lt key
  refine ⟨_, if_pos hlt, ⟨List.length_set .., rfl, fun i hi => ?_⟩, List.getElem?_set_self hlt⟩
  by_cases he : f.toIdx key = i
  · subst he
    exact List.getElem?_set_self hlt
  · rw [List.getElem?_set_ne he]
    exact hi

variable (hash) in
theorem insertLoop_ok (hs : f.Sized) (key : Key) (secrets : List (BitVec 32)) :
    ∃ f', secrets.foldlM (fun f secret => internalNumericalKeyInsert f (hash key secret)) f = .ok f' ∧
      Above f f' ∧ ∀ secret ∈ secrets, f'.bloomTable[f.toIdx (hash key secret)]? = some true := by
  induction secrets generalizing f with
  | nil => exact ⟨f, rfl, .refl f, fun _ hm => nomatch hm⟩
  | cons secret secrets ih =>
    obtain ⟨f1, e1, h1, hset⟩ := keyInsert_ok hs (hash key secret)
    obtain ⟨f2, e2, h2, hrest⟩ := ih (h1.sized hs)
    refine ⟨f2, ?_, h1.trans h2, fun secret' hm => ?_⟩
    · rw [List.foldlM_cons, e1]
      exact e2
    · rcases List.mem_cons.1 hm with rfl | hm
      · exact h2.bits _ hset
      · rw [← h1.toIdx]
        exact hrest secret' hm

variable (hash) in
theorem insert_ok (hs : f.Sized) (key : Key) :
    ∃ f', f.insert hash key = .ok f' ∧ Above f f' ∧ f'.Holds hash key := by
  obtain ⟨f1, e, h, hset⟩ := insertLoop_ok hash hs key f.murmurHashSecretVec
  refine ⟨{ f1 with sz := f1.sz + 1 }, ?_, ⟨h.length, h.secrets, h.bits⟩, fun secret hm => ?_⟩
  · rw [insert, e]
    rfl
  · rw [show ({ f1 with sz := f1.sz + 1 } : BloomFilter).murmurHashSecretVec =
      f.murmurHashSecretVec from h.secrets] at hm
    exact (h.toIdx _).symm ▸ hset secret hm

theorem Sized.clear (hs : f.Sized) : f.clear.Sized := by
  obtain ⟨e, he, hlen⟩ := hs
  exact ⟨e, he, (List.length_map _).trans hlen⟩

end BloomFilter

/-! ## What was inserted -/

namespace BloomEvent

/-- The keys that were inserted, the last first. -/
def inserted : List (BloomEvent Key) → List Key
  | [] => []
  | .insert key :: log => key :: inserted log
  | .clear _ :: log => inserted log

/-- The keys that were inserted since a side was last cleared. -/
def sinceCleared (side : Side) : List (BloomEvent Key) → List Key
  | [] => []
  | .insert key :: log => key :: sinceCleared side log
  | .clear side' :: log => if side' = side then [] else sinceCleared side log

theorem sinceCleared_prefix (side : Side) (log : List (BloomEvent Key)) :
    sinceCleared side log <+: inserted log := by
  induction log with
  | nil => exact List.prefix_rfl
  | cons e log ih =>
    cases e with
    | insert key => exact List.cons_prefix_cons.2 ⟨rfl, ih⟩
    | clear side' =>
      unfold sinceCleared inserted
      by_cases hs : side' = side
      · rw [if_pos hs]
        exact List.nil_prefix
      · rw [if_neg hs]
        exact ih

end BloomEvent

open BloomEvent

namespace TemporalSwitchingBloomFilter

open BloomFilter

variable {hash} {f g : TemporalSwitchingBloomFilter Key} {key k : Key}

def filterOf (f : TemporalSwitchingBloomFilter Key) : Side → BloomFilter
  | .left => f.leftBloomFilter
  | .right => f.rightBloomFilter

/-- The keys of the current side are in its filter, and those of the older one are in one of the two. -/
structure Inv (hash : Key → BitVec 32 → Nat) (f : TemporalSwitchingBloomFilter Key) : Prop where
  sized : ∀ side, (f.filterOf side).Sized
  pos : 1 ≤ f.sideCapacity
  sideSz : f.sideSz = (sinceCleared f.side f.log).length
  full : f.sideSz ≤ f.sideCapacity
  current : ∀ k ∈ sinceCleared f.side f.log, (f.filterOf f.side).Holds hash k
  older : ∀ k ∈ sinceCleared f.side.other f.log, ∃ side, (f.filterOf side).Holds hash k
  window : sinceCleared f.side.other f.log = inserted f.log ∨
    f.sideCapacity + f.sideSz ≤ (sinceCleared f.side.other f.log).length

theorem Inv.make {cap rehashSz reliabilityDecay : Nat} {leftGen rightGen : Nat → BitVec 32}
    (e : make cap rehashSz reliabilityDecay leftGen rightGen = .ok f) : Inv hash f ∧ f.log = [] := by
  have hfilter {randGen : Nat → BitVec 32} {b : BloomFilter}
      (e : BloomFilter.make (max 1 cap) rehashSz randGen = .ok b) : b.Sized := by
    unfold BloomFilter.make at e
    split at e
    · cases e
    · obtain ⟨upcap, hcap, e⟩ := bind_eq_ok e
      obtain rfl := Except.ok.inj e
      obtain ⟨n, hlt, hn⟩ := ceil2_pow hcap
      exact ⟨n, hlt, by rw [List.length_replicate, hn]⟩
  obtain ⟨left, hleft, e⟩ := bind_eq_ok e
  obtain ⟨right, hright, e⟩ := bind_eq_ok e
  split at e
  · cases e
  · obtain rfl := Except.ok.inj e
    refine ⟨⟨fun side => ?_, Nat.le_max_left 1 _, rfl, Nat.zero_le _, (fun _ hk => nomatch hk),
      (fun _ hk => nomatch hk), .inl rfl⟩, rfl⟩
    cases side with
    | left => exact hfilter hleft
    | right => exact hfilter hright

/-- A full side is left, and the other one is cleared for the next keys. -/
theorem Inv.switchSide (h : Inv hash f) (hfull : f.sideSz = f.sideCapacity) :
    Inv hash f.switchSide ∧ f.switchSide.sideSz = 0 ∧ f.switchSide.sideCapacity = f.sideCapacity ∧
      inserted f.switchSide.log = inserted f.log := by
  obtain ⟨left, right, cap, sz, side, log⟩ := f
  have hcurrent := h.current
  have hsz : sz = (sinceCleared side log).length := h.sideSz
  cases side with
  | left =>
    refine ⟨⟨fun side => ?_, h.pos, rfl, Nat.zero_le _, fun k hk => ?_, fun k hk => ⟨.left, hcurrent k hk⟩,
      .inr ?_⟩, rfl, rfl, rfl⟩
    · cases side with
      | left => exact h.sized .left
      | right => exact (h.sized .right).clear
    · nomatch hk
    · exact (hfull.symm.trans hsz).le
  | right =>
    refine ⟨⟨fun side => ?_, h.pos, rfl, Nat.zero_le _, fun k hk => ?_, fun k hk => ⟨.right, hcurrent k hk⟩,
      .inr ?_⟩, rfl, rfl, rfl⟩
    · cases side with
      | left => exact (h.sized .left).clear
      | right => exact h.sized .right
    · nomatch hk
    · exact (hfull.symm.trans hsz).le

theorem Inv.insertSide (h : Inv hash f) (hroom : f.sideSz < f.sideCapacity) (key : Key) :
    ∃ g, f.insertSide hash key = .ok g ∧ Inv hash g ∧ g.sideCapacity = f.sideCapacity ∧
      inserted g.log = key :: inserted f.log := by
  -- the other filter is as it was, and the filter of the side holds at least as much
  have hput (g : TemporalSwitchingBloomFilter Key) (hside : g.side = f.side)
      (hcap : g.sideCapacity = f.sideCapacity) (hsz : g.sideSz = f.sideSz + 1)
      (hlog : g.log = .insert key :: f.log) (habove : ∀ side, Above (f.filterOf side) (g.filterOf side))
      (hkey : (g.filterOf f.side).Holds hash key) : Inv hash g := by
    have hfull := h.sideSz
    refine ⟨fun side => (habove side).sized (h.sized side), hcap ▸ h.pos, ?_, by omega, fun k hk => ?_,
      fun k hk => ?_, ?_⟩
    · rw [hsz, hside, hlog, sinceCleared, List.length_cons, ← hfull]
    · rw [hside, hlog] at hk
      rw [hside]
      rcases List.mem_cons.1 hk with rfl | hk
      · exact hkey
      · exact (habove _).holds (h.current k hk)
    · rw [hside, hlog] at hk
      rcases List.mem_cons.1 hk with rfl | hk
      · exact ⟨f.side, hkey⟩
      · obtain ⟨side, hold⟩ := h.older k hk
        exact ⟨side, (habove side).holds hold⟩
    · rw [hside, hlog, hcap, hsz]
      rcases h.window with hw | hw
      · exact .inl (congrArg (key :: ·) hw)
      · right
        rw [sinceCleared, List.length_cons]
        omega
  unfold TemporalSwitchingBloomFilter.insertSide
  obtain ⟨left, right, cap, sz, side, log⟩ := f
  cases side with
  | left =>
    obtain ⟨left', e, habove, hholds⟩ := insert_ok hash (h.sized .left) key
    refine ⟨⟨left', right, cap, sz + 1, .left, .insert key :: log⟩, ?_,
      hput _ rfl rfl rfl rfl (fun side => ?_) hholds, rfl, rfl⟩
    · rw [show left.insert hash key = .ok left' from e]
      rfl
    · cases side with
      | left => exact habove
      | right => exact .refl right
  | right =>
    obtain ⟨right', e, habove, hholds⟩ := insert_ok hash (h.sized .right) key
    refine ⟨⟨left, right', cap, sz + 1, .right, .insert key :: log⟩, ?_,
      hput _ rfl rfl rfl rfl (fun side => ?_) hholds, rfl, rfl⟩
    · rw [show right.insert hash key = .ok right' from e]
      rfl
    · cases side with
      | left => exact .refl left
      | right => exact habove

theorem Inv.insert (h : Inv hash f) (key : Key) :
    ∃ g, f.insert hash key = .ok g ∧ Inv hash g ∧ g.sideCapacity = f.sideCapacity ∧
      inserted g.log = key :: inserted f.log := by
  unfold TemporalSwitchingBloomFilter.insert
  by_cases hfull : f.sideSz = f.sideCapacity
  · rw [if_pos hfull]
    obtain ⟨hs, hzero, hcap, hlog⟩ := h.switchSide hfull
    have hroom : f.switchSide.sideSz < f.switchSide.sideCapacity := by
      rw [hzero]
      exact hs.pos
    obtain ⟨g, e, hg, hcap', hlog'⟩ := hs.insertSide hroom key
    exact ⟨g, e, hg, hcap'.trans hcap, by rw [hlog', hlog]⟩
  · rw [if_neg hfull]
    exact h.insertSide (by have := h.full; omega) key

theorem Inv.insertAll (h : Inv hash f) (keys : List Key) :
    ∃ g, TemporalSwitchingBloomFilter.insertAll hash keys f = .ok g ∧ Inv hash g ∧
      g.sideCapacity = f.sideCapacity ∧ inserted g.log = keys.reverse ++ inserted f.log := by
  induction keys generalizing f with
  | nil => exact ⟨f, rfl, h, rfl, rfl⟩
  | cons key keys ih =>
    obtain ⟨f1, e1, h1, hcap1, hlog1⟩ := h.insert key
    obtain ⟨g, e, hg, hcap, hlog⟩ := ih h1
    refine ⟨g, ?_, hg, hcap.trans hcap1, ?_⟩
    · rw [TemporalSwitchingBloomFilter.insertAll, e1]
      exact e
    · rw [hlog, hlog1, List.reverse_cons, List.append_assoc]
      rfl

theorem Inv.notContains_ok (h : Inv hash f) (key : Key) :
    ∃ b, f.notContains hash key = .ok b ∧ ∀ side, (f.filterOf side).Holds hash key → b = false := by
  obtain ⟨b1, e1, h1⟩ := BloomFilter.notContains_ok hash (h.sized .left) key
  obtain ⟨b2, e2, h2⟩ := BloomFilter.notContains_ok hash (h.sized .right) key
  unfold TemporalSwitchingBloomFilter.notContains
  rw [show f.leftBloomFilter.notContains hash key = .ok b1 from e1, ok_bind]
  cases b1 with
  | false => exact ⟨false, rfl, fun _ _ => rfl⟩
  | true =>
    refine ⟨b2, e2, fun side hside => ?_⟩
    cases side with
    | left => exact absurd (h1.2 hside) (by decide)
    | right => exact h2.2 hside

/-- The last keys, up to the capacity of a side, were inserted since the older side was last cleared. -/
theorem Inv.recent (h : Inv hash f) (hk : k ∈ (inserted f.log).take f.sideCapacity) :
    k ∈ sinceCleared f.side.other f.log := by
  have hpre := sinceCleared_prefix f.side.other f.log
  rcases h.window with hw | hw
  · rw [hw]
    exact List.mem_of_mem_take hk
  · rw [List.prefix_iff_eq_take.1 hpre]
    exact (List.take_prefix_take_left (by omega)).subset hk

/-- **Recent keys are remembered**: after any insertions, none of the last `sideCapacity` keys is reported as
missing, and what is reported was not inserted since the older side was last cleared. -/
theorem keys_remembered {cap rehashSz reliabilityDecay : Nat} {leftGen rightGen : Nat → BitVec 32}
    (hmake : make cap rehashSz reliabilityDecay leftGen rightGen = .ok f) (keys : List Key) :
    ∃ g, insertAll hash keys f = .ok g ∧ g.sideCapacity = f.sideCapacity ∧
      (∀ k ∈ keys.reverse.take f.sideCapacity, g.notContains hash k = .ok false) ∧
      ∀ k, g.notContains hash k = .ok true → k ∉ sinceCleared g.side.other g.log := by
  obtain ⟨h, hempty⟩ : Inv hash f ∧ f.log = [] := Inv.make hmake
  obtain ⟨g, e, hg, hcap, hlog⟩ := h.insertAll keys
  rw [hempty, show inserted ([] : List (BloomEvent Key)) = [] from rfl, List.append_nil] at hlog
  have hheld : ∀ k ∈ sinceCleared g.side.other g.log, g.notContains hash k = .ok false := by
    intro k hk
    obtain ⟨b, e, hb⟩ := hg.notContains_ok k
    obtain ⟨side, hside⟩ := hg.older k hk
    rw [e, hb side hside]
  refine ⟨g, e, hcap, fun k hk => hheld k ?_, fun k hk hmem => ?_⟩
  · rw [← hlog, ← hcap] at hk
    exact hg.recent hk
  · rw [hheld k hmem] at hk
    cases hk

theorem keys_remembered_sample : ∃ f g : TemporalSwitchingBloomFilter Nat,
    make 4 2 1 (fun i => BitVec.ofNat 32 i) (fun _ => 7) = .ok f ∧
      insertAll (fun k secret => k + secret.toNat) [1, 2, 3] f = .ok g ∧
      g.notContains (fun k secret => k + secret.toNat) 2 = .ok false := by
  have hmake : make 4 2 1 (fun i => BitVec.ofNat 32 i) (fun _ => 7) = .ok
      (⟨⟨[false, false, false, false], [0, 1], 0⟩, ⟨[false, false, false, false], [7, 7], 0⟩, 2, 0, .left,
        []⟩ : TemporalSwitchingBloomFilter Nat) := rfl
  obtain ⟨g, e, -, hrecent, -⟩ := keys_remembered hmake [1, 2, 3]
  exact ⟨_, g, hmake, e, hrecent 2 (by decide)⟩

end TemporalSwitchingBloomFilter

end Mailbox
