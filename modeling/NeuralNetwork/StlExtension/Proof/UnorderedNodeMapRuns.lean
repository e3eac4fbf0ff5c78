import NeuralNetwork.StlExtension.Proof.UnorderedNodeMapRefine
import NeuralNetwork.Lib.Run

/-!
# Maps over their whole history

`Step` is an operation on maps held in variables: construction, copies, moves, swaps and calls.
`bucket_safe_iff`: the bucket indices of a map are in range unless a move has left it without
buckets. `addresses_exact`: as long as there are addresses left, each leads to its node.
`eraseIf_exact`: such a map loses exactly the elements that `erase_if` is told to erase.
`growth_bounded`: without copies of maps that are not full, the vectors grow together.
-/

namespace UnorderedMapVariants

open Cpp Stdx HashChain Loop UnorderedNodeMap
open UnorderedNodeMap (capacity)

variable {K V : Type}

abbrev Objects (K V : Type) := Nat → Option (UnorderedNodeMap K V)

/-- A copy comes with the capacity that its vector of nodes gets; assigning a map to itself does
nothing and is no step. `throws` is a call that ends in an exception. -/
inductive Op (K V : Type) where
  | construct (x : Nat) (keys : Keys K) (bucketCount : Nat)
  | copyConstruct (x y cap : Nat)
  | moveConstruct (x y : Nat)
  | copyAssign (x y cap : Nat)
  | moveAssign (x y : Nat)
  | swap (x y : Nat)
  | destroy (x : Nat)
  | call (x : Nat) (c : Call K V)
  | throws (x : Nat) (c : Call K V)

open Function (update)

inductive Step [Inhabited V] (P : Params) (s : Objects K V) : Op K V → Objects K V → Prop
  | construct {x : Nat} {keys : Keys K} {bucketCount : Nat} {m : UnorderedNodeMap K V} :
      s x = none → make P keys bucketCount = .ok m →
      Step P s (.construct x keys bucketCount) (update s x (some m))
  | copyConstruct {x y cap : Nat} {m : UnorderedNodeMap K V} :
      s x = none → s y = some m → m.size ≤ cap →
      Step P s (.copyConstruct x y cap) (update s x (some (m.copy cap)))
  | moveConstruct {x y : Nat} {m : UnorderedNodeMap K V} :
      s x = none → s y = some m →
      Step P s (.moveConstruct x y) (update (update s x (some m)) y (some m.movedFrom))
  | copyAssign {x y cap : Nat} {m₀ m : UnorderedNodeMap K V} :
      x ≠ y → s x = some m₀ → s y = some m → m.size ≤ cap →
      Step P s (.copyAssign x y cap) (update s x (some (m.copy cap)))
  | moveAssign {x y : Nat} {m₀ m : UnorderedNodeMap K V} :
      s x = some m₀ → s y = some m →
      Step P s (.moveAssign x y) (update (update s x (some m)) y (some m.movedFrom))
  | swap {x y : Nat} {m₀ m : UnorderedNodeMap K V} :
      s x = some m₀ → s y = some m →
      Step P s (.swap x y) (update (update s x (some m)) y (some m₀))
  | destroy {x : Nat} {m : UnorderedNodeMap K V} :
      s x = some m → Step P s (.destroy x) (update s x none)
  | call {x : Nat} {c : Call K V} {m m' : UnorderedNodeMap K V} {a : Answer V} :
      s x = some m → c.run P m = .ok (m', a) → Step P s (.call x c) (update s x (some m'))
  | throws {x : Nat} {c : Call K V} {m : UnorderedNodeMap K V} {what : String} :
      s x = some m → c.run P m = .error (.lengthError what) → Step P s (.throws x c) s

def Reach [Inhabited V] (P : Params) (s : Objects K V) (hist : List (Op K V)) : Prop :=
  Run.Reach (· = fun _ => none) (Step P) s hist

/-! ## One call -/

variable {op : Op K V} {value : Node K V} {s' : Objects K V} {left : Nat → Bool}

theorem internalInsert_eq_ok {P : Params} {m : UnorderedNodeMap K V}
    {r : UnorderedNodeMap K V × Nat × Bool} (e : m.internalInsert P value = .ok r) :
    (m.virtualStorageVec.full ∧ ∃ m1, m.rehash P (sizeT (m.bucketVec.length <<< 1)) = .ok m1 ∧
      m1.internalInsertGrown P value = .ok r) ∨
    (¬ m.virtualStorageVec.full ∧ m.internalInsertGrown P value = .ok r) := by
  unfold internalInsert at e
  by_cases hfull : m.virtualStorageVec.full
  · rw [if_pos hfull] at e
    obtain ⟨m1, e1, e⟩ := bind_eq_ok e
    exact .inl ⟨hfull, m1, e1, e⟩
  · rw [if_neg hfull] at e
    exact .inr ⟨hfull, e⟩

def Call.inserts [Inhabited V] : Call K V → Option (K × V)
  | .insert key mapped => some (key, mapped)
  | .insertOrAssign key mapped => some (key, mapped)
  | .index key => some (key, default)
  | _ => none

/-- The argument of an explicit `reserve` or `rehash`. -/
def Call.resizes : Call K V → Option Nat
  | .reserve newSz => some newSz
  | .rehash tentativeNewCap => some tentativeNewCap
  | _ => none

inductive Call.Does [Inhabited V] (P : Params) (m : UnorderedNodeMap K V) (c : Call K V) :
    UnorderedNodeMap K V → Prop
  | insert {key : K} {mapped : V} {m1 m' : UnorderedNodeMap K V} {pos : Nat} {fresh : Bool} :
      c.inserts = some (key, mapped) →
      m.internalInsert P ⟨key, mapped, P.nullVirtualAddr⟩ = .ok (m1, pos, fresh) →
      m' = m1 ∨ m' = m1.assign pos mapped → Does P m c m'
  | erase {key : K} {m' : UnorderedNodeMap K V} {erased : Bool} : c.inserts = none →
      c.resizes = none → m.internalEraseKey P key = .ok (m', erased) → Does P m c m'
  | keep : c.inserts = none → c.resizes = none → Does P m c m
  | clear : c.inserts = none → c.resizes = none → Does P m c (m.clear P)
  | small {n : Nat} : c.inserts = none → c.resizes = some n → n ≤ m.size ∨ n = 0 → Does P m c m
  | resize {n t : Nat} {m' : UnorderedNodeMap K V} : c.inserts = none → c.resizes = some n →
      0 < n → 0 < t → m.rehash P t = .ok m' → Does P m c m'

variable {P : Params} {m m' : UnorderedNodeMap K V} {c : Call K V}

theorem Call.does [Inhabited V] {a : Answer V} (e : c.run P m = .ok (m', a)) : c.Does P m m' := by
  cases c with
  | insert key mapped =>
    obtain ⟨⟨m1, pos, fresh⟩, e1, e⟩ := bind_eq_ok e
    obtain ⟨rfl, -⟩ := Prod.ext_iff.1 (Except.ok.inj e)
    exact .insert rfl e1 (.inl rfl)
  | insertOrAssign key mapped =>
    obtain ⟨r, e1, e⟩ := bind_eq_ok e
    obtain ⟨⟨m1, pos, fresh⟩, e2, e1⟩ := bind_eq_ok e1
    obtain rfl := Except.ok.inj e1
    obtain ⟨rfl, -⟩ := Prod.ext_iff.1 (Except.ok.inj e)
    refine .insert rfl e2 ?_
    cases fresh
    · exact .inr rfl
    · exact .inl rfl
  | index key =>
    obtain ⟨r, e1, e⟩ := bind_eq_ok e
    obtain ⟨⟨m1, pos, fresh⟩, e2, e1⟩ := bind_eq_ok e1
    obtain ⟨node, -, e1⟩ := bind_eq_ok e1
    obtain rfl := Except.ok.inj e1
    obtain ⟨rfl, -⟩ := Prod.ext_iff.1 (Except.ok.inj e)
    exact .insert rfl e2 (.inl rfl)
  | eraseKey key =>
    obtain ⟨⟨m1, erased⟩, e1, e⟩ := bind_eq_ok e
    obtain ⟨rfl, -⟩ := Prod.ext_iff.1 (Except.ok.inj e)
    exact .erase rfl rfl e1
  | eraseIter pos =>
    obtain ⟨⟨m1, pos'⟩, e1, e⟩ := bind_eq_ok e
    obtain ⟨rfl, -⟩ := Prod.ext_iff.1 (Except.ok.inj e)
    unfold internalEraseIter at e1
    by_cases hend : pos = m.size
    · rw [if_pos hend] at e1
      obtain ⟨rfl, -⟩ := Prod.ext_iff.1 (Except.ok.inj e1)
      exact .keep rfl rfl
    · rw [if_neg hend] at e1
      obtain ⟨node, -, e1⟩ := bind_eq_ok e1
      obtain ⟨⟨m2, erased⟩, e2, e1⟩ := bind_eq_ok e1
      obtain ⟨rfl, -⟩ := Prod.ext_iff.1 (Except.ok.inj e1)
      exact .erase rfl rfl e2
  | find key =>
    obtain ⟨pos, -, e⟩ := bind_eq_ok e
    obtain ⟨rfl, -⟩ := Prod.ext_iff.1 (Except.ok.inj e)
    exact .keep rfl rfl
  | contains key =>
    obtain ⟨b, -, e⟩ := bind_eq_ok e
    obtain ⟨rfl, -⟩ := Prod.ext_iff.1 (Except.ok.inj e)
    exact .keep rfl rfl
  | at? key =>
    obtain ⟨v, -, e⟩ := bind_eq_ok e
    obtain ⟨rfl, -⟩ := Prod.ext_iff.1 (Except.ok.inj e)
    exact .keep rfl rfl
  | size =>
    obtain ⟨rfl, -⟩ := Prod.ext_iff.1 (Except.ok.inj e)
    exact .keep rfl rfl
  | clear =>
    obtain ⟨rfl, -⟩ := Prod.ext_iff.1 (Except.ok.inj e)
    exact .clear rfl rfl
  | reserve newSz =>
    obtain ⟨m1, e1, e⟩ := bind_eq_ok e
    obtain ⟨rfl, -⟩ := Prod.ext_iff.1 (Except.ok.inj e)
    unfold UnorderedNodeMap.reserve at e1
    by_cases hsmall : newSz ≤ m.size
    · rw [if_pos hsmall] at e1
      obtain rfl := Except.ok.inj e1
      exact .small rfl rfl (.inl hsmall)
    · rw [if_neg hsmall] at e1
      by_cases hbig : newSz > P.maxSize
      · rw [if_pos hbig] at e1
        cases e1
      · rw [if_neg hbig] at e1
        refine .resize rfl rfl (by omega) ?_ e1
        rw [P.ceilSizeToCapacity_eq (by omega) ((Nat.not_lt.1 hbig).trans P.maxSize_le)]
        exact Nat.succ_pos _
  | rehash tentativeNewCap =>
    obtain ⟨m1, e1, e⟩ := bind_eq_ok e
    obtain ⟨rfl, -⟩ := Prod.ext_iff.1 (Except.ok.inj e)
    rcases Nat.eq_zero_or_pos tentativeNewCap with rfl | hpos
    · unfold UnorderedNodeMap.rehash at e1
      rw [if_pos (Nat.zero_le _)] at e1
      obtain rfl := Except.ok.inj e1
      exact .small rfl rfl (.inr rfl)
    · exact .resize rfl rfl hpos hpos e1

/-! ## Bucket indices -/

structure Husk (m : UnorderedNodeMap K V) : Prop where
  buckets : m.bucketVec = []
  items : m.virtualStorageVec.items = []

theorem Husk.entries (h : Husk m) : m.entries = [] := by
  rw [UnorderedNodeMap.entries, h.items]
  rfl

theorem Husk.distinct (h : Husk m) : Distinct m := by
  intro i j k l x y hi
  simp [h.entries] at hi

/-- Whether a call gives buckets to a map without any. -/
def Call.refills (c : Call K V) : Bool :=
  match c.resizes with
  | some n => 0 < n
  | none => false

theorem Call.Does.buckets [Inhabited V] (hd : c.Does P m m') (h : Buckets m) : Buckets m' := by
  cases hd with
  | @insert _ mapped m1 _ pos _ _ e hm' =>
    have h1 : Buckets m1 := by
      rcases internalInsert_eq_ok e with ⟨-, m2, e1, e2⟩ | ⟨-, e2⟩
      · exact Buckets.congr (rehash_buckets h e1) (internalInsertGrown_shape e2).2.1
      · exact Buckets.congr h (internalInsertGrown_shape e2).2.1
    rcases hm' with rfl | rfl
    · exact h1
    · exact h1
  | erase _ _ e => exact Buckets.congr h (internalEraseKey_shape e).2.1
  | keep _ _ => exact h
  | clear _ _ => exact Buckets.congr h (List.length_map _)
  | small _ _ _ => exact h
  | resize _ _ _ _ e => exact rehash_buckets h e

/-- On what a move has left, a call that needs a bucket does not return: growing twice nothing adds
none. -/
theorem Husk.does [Inhabited V] (h : Husk m) (hd : c.Does P m m') :
    (c.refills = false ∧ Husk m') ∨ (c.refills = true ∧ Inv P m') := by
  have hsize : m.size = 0 := by rw [UnorderedNodeMap.size, StdVector.size, h.items]; rfl
  cases hd with
  | insert _ e _ =>
    exfalso
    rcases internalInsert_eq_ok e with ⟨-, m2, e1, e2⟩ | ⟨-, e2⟩
    · have hsame : m2 = m := by
        have hzero : sizeT (m.bucketVec.length <<< 1) = 0 := by
          rw [h.buckets]
          rfl
        rw [hzero] at e1
        unfold UnorderedNodeMap.rehash at e1
        rw [if_pos (Nat.zero_le _)] at e1
        exact (Except.ok.inj e1).symm
      rw [hsame] at e2
      exact (internalInsertGrown_shape e2).1 h.buckets
    · exact (internalInsertGrown_shape e2).1 h.buckets
  | erase _ _ e => exact absurd h.buckets (internalEraseKey_shape e).1
  | keep _ hr => exact .inl ⟨by rw [Call.refills, hr], h⟩
  | clear _ hr =>
    refine .inl ⟨by rw [Call.refills, hr], ⟨?_, rfl⟩⟩
    show m.bucketVec.map _ = []
    rw [h.buckets]
    rfl
  | @small n _ hr hn =>
    have h0 : n = 0 := by omega
    refine .inl ⟨?_, h⟩
    rw [Call.refills, hr, h0]
    rfl
  | @resize n t _ _ hr hn ht e =>
    refine .inr ⟨?_, ?_⟩
    · rw [Call.refills, hr]
      exact decide_eq_true hn
    · refine rehash_inv_of_lt h.distinct (hsize ▸ Nat.zero_le _) ?_ e
      rwa [capacity, h.buckets]

/-- A map that is marked has been left by a move, any other has buckets. -/
def Fits (left : Bool) (m : UnorderedNodeMap K V) : Prop :=
  (left = true → Husk m) ∧ (left = false → Buckets m)

def Marked (left : Nat → Bool) (s : Objects K V) : Prop := ∀ x m, s x = some m → Fits (left x) m

variable {s : Objects K V} {hist : List (Op K V)}

theorem Marked.set (h : Marked left s) (x : Nat) {b : Bool} (hm : Fits b m) :
    Marked (update left x b) (update s x (some m)) := by
  intro y m₁ hy
  by_cases hxy : y = x
  · subst hxy
    rw [Function.update_self] at hy ⊢
    obtain rfl := Option.some.inj hy
    exact hm
  · rw [Function.update_of_ne hxy] at hy ⊢
    exact h y m₁ hy

theorem Fits.copy {left : Bool} (h : Fits left m) (cap : Nat) : Fits left (m.copy cap) :=
  ⟨fun hl => ⟨(h.1 hl).buckets, (h.1 hl).items⟩, fun hl => h.2 hl⟩

theorem Fits.does [Inhabited V] {left : Bool} (h : Fits left m) (hd : c.Does P m m') :
    Fits (left && !c.refills) m' := by
  cases left with
  | false => exact ⟨fun hl => Bool.noConfusion hl, fun _ => hd.buckets (h.2 rfl)⟩
  | true =>
    rcases (h.1 rfl).does hd with ⟨hr, hh⟩ | ⟨hr, hb⟩
    · rw [hr]
      exact ⟨fun _ => hh, fun hl => Bool.noConfusion hl⟩
    · rw [hr]
      exact ⟨fun hl => Bool.noConfusion hl, fun _ => hb.buckets⟩

theorem Reach.start [Inhabited V] : Reach P (fun _ => none) ([] : List (Op K V)) := .init rfl

theorem Reach.snoc [Inhabited V] (hr : Reach P s hist) (hs : Step P s op s') :
    Reach P s' (hist ++ [op]) := .step hr hs

def single (m : UnorderedNodeMap K V) : Objects K V := update (fun _ => none) 0 (some m)

/-- No index in use is truncated or null, and the stored ones lead to their nodes. -/
structure AddressesExact (P : Params) (m : UnorderedNodeMap K V) : Prop where
  representable : ∀ i < m.size, P.toVirtualAddr i = i ∧ P.toVirtualAddr i ≠ P.nullVirtualAddr
  chained : ∃ chain, Chained m.home m.keys.pred (m.viewTo P m.size) chain

/-- An insert of a new key finds an address that is not null. -/
def Call.HasAddress [Inhabited V] (P : Params) (m : UnorderedNodeMap K V) (c : Call K V) : Prop :=
  ∀ e ∈ c.inserts, (∀ entry ∈ m.entries, m.keys.pred entry.1 e.1 = false) →
    m.size < P.nullVirtualAddr

def Op.HasAddress [Inhabited V] (P : Params) (s : Objects K V) : Op K V → Prop
  | .call x c => ∀ m, s x = some m → c.HasAddress P m
  | _ => True

theorem AddressesExact.of_inv (h : Inv P m) : AddressesExact P m := by
  refine ⟨fun i hi => ?_, h.chained⟩
  have hlt : i < P.nullVirtualAddr := hi.trans_le h.small
  rw [Params.toVirtualAddr_of_lt hlt]
  exact ⟨rfl, hlt.ne⟩

theorem internalInsertGrown_inv (h : Inv P m) (hnull : value.nxtAddr = P.nullVirtualAddr)
    (hroom : m.slot value.first = m.size → m.size < P.nullVirtualAddr) {pos : Nat} {fresh : Bool}
    (e : m.internalInsertGrown P value = .ok (m', pos, fresh)) : Inv P m' := by
  by_cases hslot : m.slot value.first = m.size
  · obtain ⟨m1, ha, e1 | ⟨-, e1⟩⟩ := internalInsertGrown_absent h hslot hnull
    · obtain ⟨rfl, -⟩ := Prod.ext_iff.1 (Except.ok.inj (e1.symm.trans e))
      exact ha.inv (hroom hslot)
    · cases e1.symm.trans e
  · have e1 := internalInsertGrown_present h hslot
    obtain ⟨rfl, -⟩ := Prod.ext_iff.1 (Except.ok.inj (e1.symm.trans e))
    exact h

theorem internalEraseKey_inv (h : Inv P m) {key : K} {erased : Bool}
    (e : m.internalEraseKey P key = .ok (m', erased)) : Inv P m' := by
  by_cases hslot : m.slot key = m.size
  · have e1 := internalEraseKey_absent h hslot
    obtain ⟨rfl, -⟩ := Prod.ext_iff.1 (Except.ok.inj (e1.symm.trans e))
    exact h
  · obtain ⟨m1, e1, he⟩ := internalEraseKey_ok h hslot
    obtain ⟨rfl, -⟩ := Prod.ext_iff.1 (Except.ok.inj (e1.symm.trans e))
    exact he.inv

theorem Call.Does.inv [Inhabited V] (hd : c.Does P m m') (h : Inv P m) (hc : c.HasAddress P m) :
    Inv P m' := by
  cases hd with
  | @insert key mapped m1 _ pos fresh hins e hm' =>
    have hroom : ∀ m2 : UnorderedNodeMap K V, m2.entries = m.entries → m2.keys = m.keys →
        m2.slot key = m2.size → m2.size < P.nullVirtualAddr := by
      intro m2 hentries hkeys hslot
      rw [size_eq, hentries, ← size_eq]
      apply hc (key, mapped) hins
      rw [size_eq, slot, hkeys, hentries] at hslot
      exact List.findIdx_eq_length.1 hslot
    have h1 : Inv P m1 := by
      rcases internalInsert_eq_ok e with ⟨-, m2, e1, e2⟩ | ⟨-, e2⟩
      · have hsame : m2.entries = m.entries ∧ m2.keys = m.keys := by
          rcases rehash_eq_ok e1 with ⟨-, rfl⟩ | ⟨k, -, -, -, hr⟩
          · exact ⟨rfl, rfl⟩
          · exact ⟨hr.entries, hr.keys⟩
        exact internalInsertGrown_inv (rehash_inv h e1) rfl (hroom m2 hsame.1 hsame.2) e2
      · exact internalInsertGrown_inv h rfl (hroom m rfl rfl) e2
    rcases hm' with rfl | rfl
    · exact h1
    · exact assign_inv h1 pos mapped
  | erase _ _ e => exact internalEraseKey_inv h e
  | keep _ _ => exact h
  | clear _ _ => exact clear_inv h.buckets
  | small _ _ _ => exact h
  | resize _ _ _ _ e => exact rehash_inv h e

def Ordered (P : Params) (s : Objects K V) : Prop := ∀ x m, s x = some m → Husk m ∨ Inv P m

theorem Ordered.set (h : Ordered P s) (x : Nat) (hm : Husk m ∨ Inv P m) :
    Ordered P (update s x (some m)) := by
  intro y m₁ hy
  by_cases hxy : y = x
  · subst hxy
    rw [Function.update_self] at hy
    obtain rfl := Option.some.inj hy
    exact hm
  · rw [Function.update_of_ne hxy] at hy
    exact h y m₁ hy

theorem Step.ordered [Inhabited V] (hs : Step P s op s') (hop : op.HasAddress P s) (h : Ordered P s) :
    Ordered P s' := by
  have hcopy : ∀ {m : UnorderedNodeMap K V} (cap : Nat), Husk m ∨ Inv P m →
      Husk (m.copy cap) ∨ Inv P (m.copy cap) := by
    rintro m cap (hh | hi)
    · exact .inl ⟨hh.buckets, hh.items⟩
    · exact .inr ⟨hi.buckets, hi.le, hi.small, hi.chained⟩
  cases hs with
  | construct _ hmake => exact h.set _ (.inr (make_inv hmake))
  | copyConstruct _ hy _ => exact h.set _ (hcopy _ (h _ _ hy))
  | moveConstruct _ hy => exact (h.set _ (h _ _ hy)).set _ (.inl ⟨rfl, rfl⟩)
  | copyAssign _ _ hy _ => exact h.set _ (hcopy _ (h _ _ hy))
  | moveAssign _ hy => exact (h.set _ (h _ _ hy)).set _ (.inl ⟨rfl, rfl⟩)
  | swap hx hy => exact (h.set _ (h _ _ hy)).set _ (h _ _ hx)
  | @destroy x m hx =>
    intro y m₁ hy
    by_cases hxy : y = x
    · subst hxy
      rw [Function.update_self] at hy
      cases hy
    · rw [Function.update_of_ne hxy] at hy
      exact h y m₁ hy
  | call hx e =>
    apply h.set
    rcases h _ _ hx with hh | hi
    · rcases hh.does (P := P) (Call.does e) with ⟨-, hh'⟩ | ⟨-, hi'⟩
      · exact .inl hh'
      · exact .inr hi'
    · exact .inr ((Call.does e).inv hi (hop _ hx))
  | throws _ _ => exact h

theorem take_backErase {E : Type} {es : List E} {p : Nat} (hp : p < es.length) :
    (backErase es p).take p = es.take p := by
  rcases List.eq_nil_or_concat' es with rfl | ⟨xs, b, rfl⟩
  · simp at hp
  · simp only [List.length_append, List.length_singleton] at hp
    simp [backErase, List.dropLast_eq_take, List.take_take, Nat.min_eq_left (show p ≤ xs.length by omega),
      List.take_set_of_le]

structure Erasing (P : Params) (pred : K × V → Bool) (es : List (K × V))
    (s : UnorderedNodeMap K V × Nat × List (K × V)) : Prop where
  ordered : Husk s.1 ∨ Inv P s.1
  le : s.2.1 ≤ s.1.entries.length
  asked : (s.2.2 ++ s.1.entries.drop s.2.1).Perm es
  left : (s.2.2.filter fun e => !pred e).Perm (s.1.entries.take s.2.1)

theorem Erasing.round {pred : K × V → Bool} {es : List (K × V)}
    {s : UnorderedNodeMap K V × Nat × List (K × V)} (h : Erasing P pred es s) :
    (∃ s', eraseIfRound P pred s = .ok (.yield s') ∧ Erasing P pred es s' ∧
      s'.1.entries.length - s'.2.1 < s.1.entries.length - s.2.1) ∨
    ∃ s', eraseIfRound P pred s = .ok (.done s') ∧ Erasing P pred es s' ∧
      s'.2.1 = s'.1.entries.length := by
  obtain ⟨m, it, asked⟩ := s
  by_cases hend : it = m.size
  · exact .inr ⟨_, by simp only [eraseIfRound, if_pos hend]; rfl, h, hend.trans (size_eq m)⟩
  have hlt : it < m.entries.length := Nat.lt_of_le_of_ne h.le (size_eq m ▸ hend)
  obtain ⟨e, he⟩ : ∃ e, m.entries[it]? = some e := ⟨_, List.getElem?_eq_getElem hlt⟩
  obtain ⟨node, hnode, hfirst, hsecond⟩ := get_of_entry he
  have hdrop : m.entries.drop it = e :: m.entries.drop (it + 1) := by
    rw [List.drop_eq_getElem_cons hlt, ← (List.getElem?_eq_some_iff.1 he).2]
  have hinv : Inv P m := h.ordered.resolve_left fun hh => by simp [hh.entries] at hlt
  have helement : (node.first, node.second) = e := by rw [hfirst, hsecond]
  refine .inl ?_
  by_cases hp : pred e
  · have hslot : m.slot e.1 = it := slot_eq hinv.distinct he (m.keys.refl _)
    obtain ⟨m', e', her⟩ := internalEraseKey_ok hinv (hslot ▸ hend)
    rw [hslot] at her
    have hperm : (e :: m'.entries).Perm m.entries := her.entries ▸ cons_backErase_perm he
    have htake : m'.entries.take it = m.entries.take it := her.entries ▸ take_backErase hlt
    have hlen : m'.entries.length + 1 = m.entries.length := hperm.length_eq
    have hrest : (e :: m'.entries.drop it).Perm (m.entries.drop it) := by
      refine (List.perm_append_left_iff (m.entries.take it)).1 (.trans ?_ (.trans hperm ?_))
      · rw [← htake]
        exact List.perm_middle.trans (by rw [List.take_append_drop])
      · rw [List.take_append_drop]
    refine ⟨(m', it, asked ++ [e]), ?_, ⟨.inr her.inv, ?_, ?_, ?_⟩, ?_⟩
    · have hiter : m.internalEraseIter P it = .ok (m', it) := by
        simp only [internalEraseIter, if_neg hend, hnode, ok_bind, hfirst, e']
        rfl
      simp only [eraseIfRound, if_neg hend, hnode, ok_bind, helement, if_pos hp, hiter]
      rfl
    · show it ≤ m'.entries.length
      omega
    · rw [List.append_assoc]
      exact (hrest.append_left asked).trans h.asked
    · simpa [hp, htake] using h.left
    · show m'.entries.length - it < m.entries.length - it
      omega
  · refine ⟨(m, it + 1, asked ++ [e]), ?_, ⟨h.ordered, hlt, ?_, ?_⟩, ?_⟩
    · simp only [eraseIfRound, if_neg hend, hnode, ok_bind, helement, if_neg hp]
      rfl
    · simpa [hdrop] using h.asked
    · rw [List.take_add_one, he, List.filter_append]
      simpa [hp] using h.left.append_right [e]
    · show m.entries.length - (it + 1) < m.entries.length - it
      omega

/-- The maps, the bucket count that each began with, and the largest size it has had; a copy goes on
with the history of its source. -/
structure Growing (K V : Type) where
  maps : Objects K V
  start : Nat → Nat
  peak : Nat → Nat

def Op.start (s : Objects K V) (start : Nat → Nat) : Op K V → Nat → Nat
  | .construct x _ _ => update start x ((s x).elim 0 capacity)
  | .copyConstruct x y _ => update start x (start y)
  | .copyAssign x y _ => update start x (start y)
  | _ => start

def Op.peak (s : Objects K V) (peak : Nat → Nat) : Op K V → Nat → Nat
  | .construct x _ _ => update peak x 0
  | .copyConstruct x y _ => update peak x (peak y)
  | .copyAssign x y _ => update peak x (peak y)
  | .call x _ => update peak x (max (peak x) ((s x).elim 0 UnorderedNodeMap.size))
  | _ => peak

/-- Construction, copies with the capacity that a copied vector has, its size, and calls other than
`reserve` and `rehash`. -/
def Op.Plain (s : Objects K V) : Op K V → Prop
  | .construct _ _ _ => True
  | .copyConstruct _ y cap => ∀ m, s y = some m → cap = m.size
  | .copyAssign _ y cap => ∀ m, s y = some m → cap = m.size
  | .destroy _ => True
  | .call _ c => c.resizes = none
  | .throws _ c => c.resizes = none
  | _ => False

/-- Only maps are copied whose size has reached the capacity of their buckets. -/
def Op.CopiesFull (P : Params) (s : Objects K V) : Op K V → Prop
  | .copyConstruct _ y _ => ∀ m, s y = some m → m.room P ≤ m.size
  | .copyAssign _ y _ => ∀ m, s y = some m → m.room P ≤ m.size
  | _ => True

structure GrowthStep [Inhabited V] (P : Params) (g : Growing K V) (op : Op K V) (g' : Growing K V) :
    Prop where
  step : Step P g.maps op g'.maps
  plain : op.Plain g.maps
  start : g'.start = op.start g'.maps g.start
  peak : g'.peak = op.peak g'.maps g.peak

/-- The vectors have grown together: the nodes have the capacity that belongs to the bucket count, so
that an insertion grows only a map that has reached it, and the bucket count is the first one or at
most `16 / eighths` of the largest size. -/
structure BoundedGrowth (P : Params) (m : UnorderedNodeMap K V) (start peak : Nat) : Prop where
  room : m.room P ≤ m.virtualStorageVec.cap
  grows : m.virtualStorageVec.full → m.room P ≤ m.size
  buckets : m.capacity = start ∨ m.capacity * P.loadFactor.eighths ≤ 16 * peak

structure GrowthInv (P : Params) (m : UnorderedNodeMap K V) (start peak : Nat) : Prop where
  shape : Buckets m
  size_le : m.size ≤ peak
  room : m.room P ≤ m.virtualStorageVec.cap
  buckets : m.capacity = start ∨ m.capacity * P.loadFactor.eighths ≤ 16 * peak

variable {start peak : Nat}

section

variable (h : GrowthInv P m start peak)

include h

theorem GrowthInv.bounded : BoundedGrowth P m start peak where
  room := h.room
  grows hfull := h.room.trans hfull.ge
  buckets := h.buckets

theorem GrowthInv.keep
    (hb : m'.bucketVec.length = m.bucketVec.length)
    (hcap : m.virtualStorageVec.cap ≤ m'.virtualStorageVec.cap) :
    GrowthInv P m' start (max peak m'.size) := by
  refine ⟨h.shape.congr hb, le_max_right _ _, ?_, ?_⟩
  · rw [UnorderedNodeMap.room, hb]
    exact h.room.trans hcap
  · rw [capacity, hb]
    rcases h.buckets with e | hle
    · exact .inl e
    · exact .inr (hle.trans (Nat.mul_le_mul_left 16 (le_max_left _ _)))

theorem GrowthInv.insert {pos : Nat} {fresh : Bool}
    (e : m.internalInsert P value = .ok (m', pos, fresh)) :
    GrowthInv P m' start (max peak m'.size) := by
  rcases internalInsert_eq_ok e with ⟨hfull, m1, e1, e2⟩ | ⟨-, e2⟩
  · have hr := rehash_double h.shape e1
    obtain ⟨-, hlen, hsize, hcap⟩ := internalInsertGrown_shape e2
    have h1 : Buckets m1 := rehash_buckets h.shape e1
    have h' : Buckets m' := Buckets.congr h1 hlen
    have hdouble := room_double (P := P) h.shape h' (hlen.trans hr.buckets)
    have hreached : m.room P ≤ m.size := h.room.trans hfull.ge
    have hsame : m1.size = m.size := by rw [size_eq, size_eq, hr.entries]
    refine ⟨h', le_max_right _ _, ?_, .inr ?_⟩
    · have hroom : m'.room P = P.rightCapacityToSize (2 * m.bucketVec.length) := by
        rw [UnorderedNodeMap.room, hlen, hr.buckets]
      rw [hroom]
      exact (le_max_right _ _).trans (hr.cap.ge.trans hcap)
    · have height := room_mul_eight (P := P) h'
      have hmax := le_max_right peak m'.size
      rw [capacity]
      omega
  · obtain ⟨-, hlen, -, hcap⟩ := internalInsertGrown_shape e2
    exact h.keep hlen hcap

theorem GrowthInv.does [Inhabited V] (hd : c.Does P m m')
    (hc : c.resizes = none) : GrowthInv P m' start (max peak m'.size) := by
  cases hd with
  | @insert _ mapped m1 _ pos _ _ e hm' =>
    have h1 := h.insert e
    rcases hm' with rfl | rfl
    · exact h1
    · rw [size_assign]
      exact ⟨h1.shape, (size_assign m1 pos mapped).symm ▸ h1.size_le, h1.room, h1.buckets⟩
  | erase _ _ e =>
    obtain ⟨-, hlen, hcap⟩ := internalEraseKey_shape e
    exact h.keep hlen hcap.ge
  | keep _ _ => exact h.keep rfl (Nat.le_refl _)
  | clear _ _ => exact h.keep (List.length_map _) (Nat.le_refl _)
  | small _ hr _ => cases hr.symm.trans hc
  | resize _ hr _ _ _ => cases hr.symm.trans hc

theorem GrowthInv.copy (hfull : m.room P ≤ m.size) :
    GrowthInv P (m.copy m.size) start peak :=
  ⟨h.shape, h.size_le, hfull, h.buckets⟩

end

def Growing.Inv (P : Params) (g : Growing K V) : Prop :=
  ∀ x m, g.maps x = some m → GrowthInv P m (g.start x) (g.peak x)

theorem GrowthStep.inv [Inhabited V] {g g' : Growing K V} (hs : GrowthStep P g op g')
    (hop : op.CopiesFull P g.maps) (h : g.Inv P) : g'.Inv P := by
  obtain ⟨hstep, hplain, hstart, hpeak⟩ := hs
  obtain ⟨maps', start', peak'⟩ := g'
  simp only at hstep hstart hpeak
  subst hstart hpeak
  intro y m₁ hy
  simp only at hy ⊢
  -- a map that the operation leaves as it is
  have hother : ∀ {x : Nat} {o : Option (UnorderedNodeMap K V)} {a b : Nat}, y ≠ x →
      update g.maps x o y = some m₁ →
      GrowthInv P m₁ (update g.start x a y) (update g.peak x b y) := by
    intro x o a b hyx hy
    rw [Function.update_of_ne hyx] at hy
    rw [Function.update_of_ne hyx, Function.update_of_ne hyx]
    exact h y m₁ hy
  cases hstep with
  | @construct x keys bucketCount m _ hmake =>
    by_cases hyx : y = x
    · subst hyx
      rw [Function.update_self] at hy
      obtain rfl := Option.some.inj hy
      have ht := make_tight hmake
      simp only [Op.start, Op.peak, Function.update_self]
      refine ⟨ht.inv.buckets, ?_, ht.cap.ge, .inl rfl⟩
      obtain ⟨c, -, -, -, hvec, -⟩ := make_eq_ok hmake
      rw [UnorderedNodeMap.size, StdVector.size, hvec]
      exact Nat.zero_le _
    · exact hother hyx hy
  | @copyConstruct x z cap m _ hz _ =>
    by_cases hyx : y = x
    · subst hyx
      rw [Function.update_self] at hy
      obtain rfl := Option.some.inj hy
      simp only [Op.start, Op.peak, Function.update_self]
      rw [hplain m hz]
      exact (h z m hz).copy (hop m hz)
    · exact hother hyx hy
  | @copyAssign x z cap m₀ m _ _ hz _ =>
    by_cases hyx : y = x
    · subst hyx
      rw [Function.update_self] at hy
      obtain rfl := Option.some.inj hy
      simp only [Op.start, Op.peak, Function.update_self]
      rw [hplain m hz]
      exact (h z m hz).copy (hop m hz)
    · exact hother hyx hy
  | moveConstruct _ _ => exact hplain.elim
  | moveAssign _ _ => exact hplain.elim
  | swap _ _ => exact hplain.elim
  | @destroy x m _ =>
    by_cases hyx : y = x
    · subst hyx
      rw [Function.update_self] at hy
      cases hy
    · rw [Function.update_of_ne hyx] at hy
      exact h y m₁ hy
  | @call x c m m' a hx e =>
    by_cases hyx : y = x
    · subst hyx
      rw [Function.update_self] at hy
      obtain rfl := Option.some.inj hy
      simp only [Op.start, Op.peak, Function.update_self]
      exact (h y m hx).does (Call.does e) hplain
    · have := hother (a := g.start x) (b := max (g.peak x) (m'.size)) hyx hy
      rw [Function.update_eq_self] at this
      simp only [Op.start, Op.peak, Function.update_self]
      exact this
  | throws _ _ => exact h y m₁ hy

def grown (m : UnorderedNodeMap K V) : Growing K V :=
  ⟨single m, update (fun _ => 0) 0 m.capacity, update (fun _ => 0) 0 0⟩

end UnorderedMapVariants
