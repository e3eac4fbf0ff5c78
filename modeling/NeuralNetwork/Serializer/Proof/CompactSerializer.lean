import Mathlib.Data.Multiset.Basic
import Mathlib.Data.Multiset.ZeroCons
import NeuralNetwork.Lib.Loop
import NeuralNetwork.Serializer.CompactSerializer

/-!
# Round trips of the compact serializer

`Reads f bs v` says that a reader takes exactly the bytes `bs` for `v`, whatever follows them;
readers in sequence read the bytes in sequence (`Reads.bind`). `Codes` says it of what one value is
written as, with its count. `codes` proves it for every value of every type, by induction on the
type with one case for each overload.
-/

namespace CompactSerializer

open Cpp LittleEndian Loop Serializer

variable {env : Env} {h : Headers} {ar : Archive} {α β σ : Type}

/-! ## Sizes -/

theorem length_putArith (k : Kind) (bs : List Byte) :
    (putArith h k bs).length = arithSize h bs.length := by
  cases h <;> simp [putArith, arithSize, Nat.add_comm]

@[simp] theorem length_putHeader (k : Kind) : (putHeader h k).length = headerSize h := by
  cases h with
  | none => rfl
  | some header => simp [putHeader, length_putArith, headerSize]

@[simp] theorem length_putBool (b : Bool) : (putBool h b).length = arithSize h 1 := by
  simp [putBool, length_putArith]

@[simp] theorem length_putSize (size : IntSize) (n : Nat) :
    (putSize h size n).length = arithSize h size.bytes := by
  simp [putSize, length_putArith]

/-! ## Readers -/

/-- The cursor at `bs`, with `rest` behind it of which `extra` bytes count as left. -/
abbrev Cursor.over (bs rest : List Byte) (extra : Nat) : Cursor := ⟨bs ++ rest, bs.length + extra⟩

theorem Cursor.over_append (bs cs rest : List Byte) (extra : Nat) :
    Cursor.over (bs ++ cs) rest extra = Cursor.over bs (cs ++ rest) (cs.length + extra) := by
  simp [Cursor.over, Nat.add_assoc]

/-- `f` reads the bytes `bs` as `v`, and no others. -/
def Reads (f : Cursor → Res (α × Cursor)) (bs : List Byte) (v : α) : Prop :=
  ∀ rest extra, f (.over bs rest extra) = .ok (v, ⟨rest, extra⟩)

def Skips (f : Cursor → Res Cursor) (bs : List Byte) : Prop :=
  ∀ rest extra, f (.over bs rest extra) = .ok ⟨rest, extra⟩

theorem Reads.pure (v : α) : Reads (fun cur => .ok (v, cur)) [] v := by
  intro rest extra
  simp [Cursor.over]

variable {f g : Cursor → Res (α × Cursor)} {bs : List Byte} {c : α → Res Nat}
  {p : α → Res (List Byte)} {vs : List α}

theorem Reads.bind {g : α × Cursor → Res (β × Cursor)}
    {cs : List Byte} {a : α} {b : β} (hf : Reads f bs a)
    (hg : Reads (fun cur => g (a, cur)) cs b) : Reads (fun cur => f cur >>= g) (bs ++ cs) b := by
  intro rest extra
  rw [Cursor.over_append]
  dsimp only
  rw [hf, ok_bind]
  exact hg rest extra

theorem Skips.bind {f : Cursor → Res Cursor} {g : Cursor → Res (β × Cursor)} {cs : List Byte}
    {b : β} (hf : Skips f bs) (hg : Reads g cs b) :
    Reads (fun cur => f cur >>= g) (bs ++ cs) b := by
  intro rest extra
  rw [Cursor.over_append]
  dsimp only
  rw [hf, ok_bind]
  exact hg rest extra

theorem Reads.map {a : α} (hf : Reads f bs a)
    (k : α → β) : Reads (fun cur => f cur >>= fun p => .ok (k p.1, p.2)) bs (k a) := by
  have := hf.bind (g := fun p => .ok (k p.1, p.2)) (Reads.pure (k a))
  rwa [List.append_nil] at this

theorem Reads.congr {v : α} (hg : Reads g bs v)
    (e : ∀ cur, f cur = g cur) : Reads f bs v := fun rest extra => (e _).trans (hg rest extra)

theorem read_reads (bs : List Byte) : Reads (fun cur => cur.read bs.length) bs bs := by
  intro rest extra
  simp [Cursor.read, Pure.pure, Except.pure]

theorem need_over {n : Nat} (hn : n ≤ bs.length) (rest : List Byte)
    (extra : Nat) : need ar (.over bs rest extra) n = .ok () := by
  rw [need, if_neg]
  · rfl
  · rintro ⟨-, hlt⟩
    dsimp only at hlt
    omega

/-! ## Integers and headers -/

theorem getArith_reads (ar : Archive) (k : Kind) (bs : List Byte) :
    Reads (getArith ar k bs.length) (putArith ar.headers k bs) bs := by
  intro rest extra
  unfold getArith putArith
  cases ar.headers with
  | none =>
    rw [need_over (Nat.le_refl _), ok_bind]
    exact read_reads bs rest extra
  | some header =>
    dsimp only
    rw [need_over (by simp), ok_bind]
    have e := Reads.bind (g := fun x => if x.1 = [header k] then x.2.read bs.length
      else throwExc .corruptedFormat) (read_reads [header k])
      ((read_reads bs).congr fun cur => if_pos rfl)
    exact e rest extra

theorem getHeader_skips (k : Kind) : Skips (getHeader ar k) (putHeader ar.headers k) := by
  intro rest extra
  have e := getArith_reads ar (kindOf .uint8)
  unfold getHeader putHeader
  cases har : ar.headers with
  | none => simp [Pure.pure, Except.pure]
  | some header =>
    rw [har] at e
    have e := e [header k] rest extra
    dsimp only
    rw [show [header k].length = 1 from rfl] at e
    rw [e, ok_bind]
    exact if_pos rfl

theorem getBool_reads (b : Bool) : Reads (getBool ar) (putBool ar.headers b) b := by
  have hk : Reads (fun cur : Cursor => if [if b then (1 : Byte) else 0] = [0] then
      Except.ok (false, cur) else if [if b then (1 : Byte) else 0] = [1] then .ok (true, cur)
      else .error (.fault .undefined)) [] b := by
    cases b <;> exact Reads.pure _
  have e : Reads (getBool ar) _ b := (getArith_reads ar boolKind [if b then 1 else 0]).bind hk
  rwa [List.append_nil] at e

theorem getSize_reads (size : IntSize) {n : Nat} (hn : n < 256 ^ size.bytes) :
    Reads (getSize ar size) (putSize ar.headers size n) n := by
  have e := (getArith_reads ar (.int size false) (bytes size.bytes n)).map value
  rw [length_bytes, value_bytes, Nat.mod_eq_of_lt hn] at e
  exact e

/-! ## Values -/

/-- A value is written as bytes of which `count` says the number and which are read as it. -/
def Codes (count : Res Nat) (put : Res (List Byte)) (get : Cursor → Res (α × Cursor)) (v : α) :
    Prop :=
  ∃ bs, put = .ok bs ∧ count = .ok bs.length ∧ Reads get bs v

theorem codes_option
    (k : Kind) {o : Option α} (ho : ∀ v, o = some v → Codes (c v) (p v) g v) :
    Codes (countOption ar.headers c o) (putOption ar.headers k p o) (getOption ar k g) o := by
  have status (b : Bool) {cs : List Byte} {o : Option α} (hg : Reads (fun cur => if b then
      g cur >>= fun x => .ok (some x.1, x.2) else .ok (none, cur)) cs o) :
      Reads (getOption ar k g) (putHeader ar.headers k ++ putBool ar.headers b ++ cs) o := by
    rw [List.append_assoc]
    exact (getHeader_skips k).bind ((getBool_reads b).bind hg)
  cases o with
  | none =>
    refine ⟨_, rfl, by simp [countOption, Pure.pure, Except.pure], ?_⟩
    have := status false (Reads.pure none)
    rwa [List.append_nil] at this
  | some v =>
    obtain ⟨bs, hp, hc, hg⟩ := ho v rfl
    refine ⟨_, by rw [putOption, hp]; rfl, ?_, status true (hg.map some)⟩
    simp [countOption, hc, Nat.add_assoc, Pure.pure, Except.pure]

theorem codes_pair
    {c' : β → Res Nat} {p' : β → Res (List Byte)} {g' : Cursor → Res (β × Cursor)}
    {e : α × β × Unit} (ha : Codes (c e.1) (p e.1) g e.1)
    (hb : Codes (c' e.2.1) (p' e.2.1) g' e.2.1) :
    Codes (countPair ar.headers c c' e) (putPair ar.headers p p' e) (getPair ar g g') e := by
  obtain ⟨bs, hp, hc, hg⟩ := ha
  obtain ⟨cs, hp', hc', hg'⟩ := hb
  refine ⟨putHeader ar.headers .tuple ++ (bs ++ cs), ?_, ?_, ?_⟩
  · simp [putPair, hp, hp', Pure.pure, Except.pure]
  · simp [countPair, hc, hc', Pure.pure, Except.pure]
  · exact (getHeader_skips .tuple).bind (hg.bind (hg'.map fun b => (e.1, b, ())))

/-! ## Containers -/

theorem getLoop_reads (hvs : ∀ v ∈ vs, Codes (c v) (p v) g v) :
    ∃ bs, putAll p vs = .ok bs ∧ countAll c vs = .ok bs.length ∧
      ∀ {σ : Type} (ins : σ → α → Res σ) {s s' : σ}, vs.foldlM ins s = .ok s' →
        Reads (getLoop g ins vs.length s) bs s' := by
  induction vs with
  | nil =>
    refine ⟨[], rfl, rfl, fun ins s s' e => ?_⟩
    cases e
    exact Reads.pure s
  | cons v vs ih =>
    obtain ⟨bs, hp, hc, hg⟩ := hvs v (by simp)
    obtain ⟨cs, hps, hcs, hgs⟩ := ih fun w hw => hvs w (by simp [hw])
    refine ⟨bs ++ cs, ?_, ?_, fun ins s s' e => ?_⟩
    · rw [putAll, hp, ok_bind, hps]
      rfl
    · rw [countAll, hc, ok_bind, hcs, List.length_append]
      rfl
    · rw [List.foldlM_cons] at e
      obtain ⟨s1, e1, e2⟩ := bind_eq_ok e
      have hv : Reads (fun cur => ins s v >>= fun s => getLoop g ins vs.length s cur) cs s' :=
        (hgs ins e2).congr fun cur => by rw [e1, ok_bind]
      exact (hg.bind hv).congr fun cur => by rw [List.length_cons, getLoop]

theorem reserve_ok (hm : ∀ n, env.alloc n = true) (n : Nat) : reserve env ar n = .ok () := by
  unfold reserve grow
  rw [if_pos (hm n), ite_self]
  rfl

/-- A container whose elements, inserted in the order in which they are written, give it back. -/
theorem codes_container (hm : ∀ n, env.alloc n = true) (k : Kind) (size : IntSize) (canReserve : Bool)
    (ins : σ → α → Res σ) {empty s : σ} (hlen : vs.length < 256 ^ size.bytes)
    (hvs : ∀ v ∈ vs, Codes (c v) (p v) g v) (hins : vs.foldlM ins empty = .ok s) :
    Codes (countContainer ar.headers size c vs) (putContainer ar.headers k size p vs)
      (getContainer env ar k size canReserve g ins empty) s := by
  obtain ⟨bs, hp, hc, hg⟩ := getLoop_reads hvs
  refine ⟨putHeader ar.headers k ++ putSize ar.headers size vs.length ++ bs, ?_, ?_, ?_⟩
  · rw [putContainer, if_pos hlen, hp]
    rfl
  · rw [countContainer, if_pos hlen, hc]
    simp [Nat.add_assoc, Pure.pure, Except.pure]
  · rw [List.append_assoc]
    refine (getHeader_skips k).bind ((getSize_reads size hlen).bind ?_)
    refine (hg ins hins).congr fun cur => ?_
    cases canReserve
    · rfl
    · exact congrArg (· >>= fun _ => _) (reserve_ok hm vs.length)

/-! ## Insertion -/

theorem foldlM_pushBack (hm : ∀ n, env.alloc n = true) (l vs : List α) :
    vs.foldlM (pushBack env) l = .ok (l ++ vs) := by
  induction vs generalizing l with
  | nil => simp [Pure.pure, Except.pure]
  | cons v vs ih =>
    rw [List.foldlM_cons, pushBack, grow, if_pos (hm _)]
    simpa [Pure.pure, Except.pure] using ih (l ++ [v])

variable {less : α → α → Bool}

theorem insertSorted_of_less {e : α} {l : List α} (hasymm : ∀ x y, less x y = true → less y x = false)
    (hl : ∀ x ∈ l, less x e = true) :
    insertSorted less e l = l ++ [e] := by
  induction l with
  | nil => rfl
  | cons x xs ih =>
    have hx := hl x (by simp)
    simp [insertSorted, hasymm x e hx, hx, ih fun y hy => hl y (by simp [hy])]

theorem foldlM_insertOrdered (hm : ∀ n, env.alloc n = true)
    (hasymm : ∀ x y, less x y = true → less y x = false) {l : List α}
    (hs : (l ++ vs).Pairwise fun x y => less x y = true) :
    vs.foldlM (insertOrdered env less) l = .ok (l ++ vs) := by
  induction vs generalizing l with
  | nil => simp [Pure.pure, Except.pure]
  | cons v vs ih =>
    have hl : ∀ x ∈ l, less x v = true := fun x hx =>
      (List.pairwise_append.1 hs).2.2 x hx v (by simp)
    rw [List.append_cons] at hs ⊢
    rw [List.foldlM_cons, insertOrdered, grow, if_pos (hm _), insertSorted_of_less hasymm hl]
    exact ih hs

theorem foldlM_insertUnordered (hm : ∀ n, env.alloc n = true) {keyEq : α → α → Bool}
    {s : Multiset α} (hs : ∀ x ∈ s, ∀ v ∈ vs, keyEq x v = false)
    (hvs : vs.Pairwise fun x y => keyEq x y = false) :
    vs.foldlM (insertUnordered env keyEq) s = .ok (s + vs) := by
  induction vs generalizing s with
  | nil => simp [Pure.pure, Except.pure]
  | cons v vs ih =>
    rw [List.pairwise_cons] at hvs
    have h0 : s.countP (fun x => keyEq x v) = 0 := by
      rw [Multiset.countP_eq_zero]
      intro x hx
      simp [hs x hx v (by simp)]
    have hs1 : ∀ x ∈ v ::ₘ s, ∀ w ∈ vs, keyEq x w = false := by
      intro x hx w hw
      rcases Multiset.mem_cons.1 hx with rfl | hx
      · exact hvs.1 w hw
      · exact hs x hx w (by simp [hw])
    rw [List.foldlM_cons, insertUnordered, grow, if_pos (hm _)]
    refine (congrArg (fun s => List.foldlM (insertUnordered env keyEq) s vs) (if_pos h0)).trans ?_
    rw [ih hs1 hvs.2, Multiset.cons_add, ← Multiset.add_cons, Multiset.cons_coe]

/-! ## Well-formed values -/

/-- What a program's comparators, key equalities and iterators are: a comparator is a strict order,
a key equality is symmetric, and an iteration goes over the elements. -/
structure Env.Lawful (env : Env) : Prop where
  less_asymm : ∀ c t x y, env.less c t x y = true → env.less c t y x = false
  keyEq_symm : ∀ c t x y, env.keyEq c t x y = env.keyEq c t y x
  iter_coe : ∀ t s, (env.iter t s : Multiset (Val t)) = s

def Each (p : α → Prop) (vs : List α) : Prop := ∀ v ∈ vs, p v

def EachOf (p : α → Prop) (s : Multiset α) : Prop := ∀ v ∈ s, p v

-- what the C++ types promise of their objects: a size is a `size_t`, the keys of a map or set are
-- in order or distinct; and the `static_assert` on the number of alternatives
mutual
def WellFormed (env : Env) : (t : Ty) → Val t → Prop
  | .int _, _ => True
  | .float _, _ => True
  | .bool, _ => True
  | .uniquePtr t, o => ∀ v, o = some v → WellFormed env t v
  | .optional t, o => ∀ v, o = some v → WellFormed env t v
  | .variant ts, o => ts.length ≤ 256 ∧ ∀ a, o = some a → WellFormedAlt env ts a
  | .expected t _, .inl v => WellFormed env t v
  | .expected _ e, .inr v => WellFormed env e v
  | .tuple ts, vs => WellFormedAll env ts vs
  | .cpyable _ i, vs => vs.length * i.size.bytes < 2 ^ 64
  | .noncpyable _ t, vs => vs.length < 2 ^ 64 ∧ Each (WellFormed env t) vs
  | .map c k m, vs => vs.length < 2 ^ 64 ∧
      vs.Pairwise (fun x y => env.less c k x.1 y.1 = true) ∧
      Each (fun e => WellFormed env k e.1 ∧ WellFormed env m e.2.1) vs
  | .set c k, vs => vs.length < 2 ^ 64 ∧ vs.Pairwise (fun x y => env.less c k x y = true) ∧
      Each (WellFormed env k) vs
  | .unorderedMap c k m, s => Multiset.card s < 2 ^ 64 ∧
      Multiset.Pairwise (fun x y => env.keyEq c k x.1 y.1 = false) s ∧
      EachOf (fun e => WellFormed env k e.1 ∧ WellFormed env m e.2.1) s
  | .unorderedSet c k, s => Multiset.card s < 2 ^ 64 ∧
      Multiset.Pairwise (fun x y => env.keyEq c k x y = false) s ∧
      EachOf (WellFormed env k) s
  | .reflectible ts, vs => WellFormedAll env ts vs
  | .containerWrapper size t, vs => vs.length < 256 ^ size.bytes ∧ Each (WellFormed env t) vs
def WellFormedAll (env : Env) : (ts : Tys) → Vals ts → Prop
  | .nil, _ => True
  | .cons t ts, (v, vs) => WellFormed env t v ∧ WellFormedAll env ts vs
def WellFormedAlt (env : Env) : (ts : Tys) → Alts ts → Prop
  | .cons t _, .inl v => WellFormed env t v
  | .cons _ ts, .inr a => WellFormedAlt env ts a
end

-- no variant in the value is `valueless_by_exception`
mutual
def HasValues : (t : Ty) → Val t → Prop
  | .int _, _ => True
  | .float _, _ => True
  | .bool, _ => True
  | .uniquePtr t, o => ∀ v, o = some v → HasValues t v
  | .optional t, o => ∀ v, o = some v → HasValues t v
  | .variant ts, o => ∃ a, o = some a ∧ AltHasValues ts a
  | .expected t _, .inl v => HasValues t v
  | .expected _ e, .inr v => HasValues e v
  | .tuple ts, vs => HaveValues ts vs
  | .cpyable _ _, _ => True
  | .noncpyable _ t, vs => Each (HasValues t) vs
  | .map _ k m, vs => Each (fun e => HasValues k e.1 ∧ HasValues m e.2.1) vs
  | .set _ k, vs => Each (HasValues k) vs
  | .unorderedMap _ k m, s => EachOf (fun e => HasValues k e.1 ∧ HasValues m e.2.1) s
  | .unorderedSet _ k, s => EachOf (HasValues k) s
  | .reflectible ts, vs => HaveValues ts vs
  | .containerWrapper _ t, vs => Each (HasValues t) vs
def HaveValues : (ts : Tys) → Vals ts → Prop
  | .nil, _ => True
  | .cons t ts, (v, vs) => HasValues t v ∧ HaveValues ts vs
def AltHasValues : (ts : Tys) → Alts ts → Prop
  | .cons t _, .inl v => HasValues t v
  | .cons _ ts, .inr a => AltHasValues ts a
end

/-! ## The induction on the type -/

variable {t : Ty}

theorem mem_iter (hl : env.Lawful) {s : Multiset (Val t)} {v : Val t} (hv : v ∈ env.iter t s) :
    v ∈ s := by
  rw [← hl.iter_coe t s]
  exact Multiset.mem_coe.2 hv

theorem length_iter (hl : env.Lawful) (t : Ty) (s : Multiset (Val t)) :
    (env.iter t s).length = s.card := by
  conv_rhs => rw [← hl.iter_coe t s]
  rfl

/-- Reinserted in the order of iteration, the elements of an unordered container give it back. -/
theorem foldlM_iter (hl : env.Lawful) (hm : ∀ n, env.alloc n = true) {keyEq : Val t → Val t → Bool}
    (hsymm : ∀ x y, keyEq x y = keyEq y x) {s : Multiset (Val t)}
    (hs : s.Pairwise fun x y => keyEq x y = false) :
    (env.iter t s).foldlM (insertUnordered env keyEq) 0 = .ok s := by
  have hp : (env.iter t s).Pairwise fun x y => keyEq x y = false := by
    have : Std.Symm fun x y => keyEq x y = false := ⟨fun x y e => (hsymm y x).trans e⟩
    refine Multiset.pairwise_coe_iff_pairwise.1 ?_
    rwa [hl.iter_coe]
  rw [foldlM_insertUnordered hm (by simp) hp, hl.iter_coe, Multiset.zero_add]

theorem codes_header {c : Res Nat} {p : Res (List Byte)} {v : α}
    (k : Kind) (hv : Codes c p g v) :
    Codes (c >>= fun n => .ok (headerSize ar.headers + n))
      (p >>= fun bs => .ok (putHeader ar.headers k ++ bs))
      (fun cur => getHeader ar k cur >>= g) v := by
  obtain ⟨bs, hp, hc, hg⟩ := hv
  exact ⟨_, by rw [hp, ok_bind], by simp [hc], (getHeader_skips k).bind hg⟩

theorem codes_number (k : Kind) {n : Nat} (v : BitVec (8 * n)) :
    Codes (.ok (arithSize ar.headers n)) (.ok (putArith ar.headers k (dump n v)))
      (fun cur => getArith ar k n cur >>= fun p => .ok (load n p.1, p.2)) v := by
  have e := (getArith_reads ar k (dump n v)).map (load n)
  rw [load_dump, length_dump] at e
  refine ⟨_, rfl, ?_, e⟩
  rw [length_putArith, length_dump]

theorem codes_bool (b : Bool) : Codes (.ok (arithSize ar.headers 1)) (.ok (putBool ar.headers b))
    (getBool ar) b :=
  ⟨_, rfl, by rw [length_putBool], getBool_reads b⟩

theorem codes_ordered (hm : ∀ n, env.alloc n = true) (k : Kind) {less : α → α → Bool}
    (hasymm : ∀ x y, less x y = true → less y x = false) (hlen : vs.length < 2 ^ 64)
    (hs : vs.Pairwise fun x y => less x y = true) (hvs : ∀ v ∈ vs, Codes (c v) (p v) g v) :
    Codes (countContainer ar.headers .b8 c vs) (putContainer ar.headers k .b8 p vs)
      (getContainer env ar k .b8 false g (insertOrdered env less) []) vs :=
  codes_container hm k .b8 false _ hlen hvs (foldlM_insertOrdered hm hasymm hs)

theorem codes_unordered (hl : env.Lawful) (hm : ∀ n, env.alloc n = true) {c : Val t → Res Nat}
    {p : Val t → Res (List Byte)} {g : Cursor → Res (Val t × Cursor)} (k : Kind)
    {keyEq : Val t → Val t → Bool} (hsymm : ∀ x y, keyEq x y = keyEq y x) {s : Multiset (Val t)}
    (hlen : s.card < 2 ^ 64) (hs : s.Pairwise fun x y => keyEq x y = false)
    (hvs : ∀ v ∈ s, Codes (c v) (p v) g v) :
    Codes (countContainer ar.headers .b8 c (env.iter t s))
      (putContainer ar.headers k .b8 p (env.iter t s))
      (getContainer env ar k .b8 true g (insertUnordered env keyEq) 0) s := by
  rw [← length_iter hl t s] at hlen
  exact codes_container hm k .b8 true _ hlen (fun v hv => hvs v (mem_iter hl hv))
    (foldlM_iter hl hm hsymm hs)

theorem index_lt : ∀ (ts : Tys) (a : Alts ts), a.index < ts.length
  | .cons _ ts, .inl _ => Nat.succ_pos ts.length
  | .cons _ ts, .inr a => Nat.succ_lt_succ (index_lt ts a)

theorem codes_variant {c : Res Nat} {p : Res (List Byte)}
    {g : Nat → Cursor → Res (Option α × Cursor)} {index len : Nat} {a : α} (data : Option α)
    (hlen : len ≤ 256) (hi : index < len) (ha : Codes c p (g index) (some a)) :
    Codes
      (if isMetVariantIndexRequirements index then c >>= fun n =>
        .ok (headerSize ar.headers + arithSize ar.headers 1 + n) else throwExc .badFormat)
      (if isMetVariantIndexRequirements index then p >>= fun bs =>
        .ok (putHeader ar.headers .variant ++ putSize ar.headers .b1 index ++ bs)
        else throwExc .badFormat)
      (fun cur => getHeader ar .variant cur >>= fun cur => getSize ar .b1 cur >>= fun x =>
        if ar.checked ∧ len ≤ x.1 then throwExc .corruptedFormat >>= fun _ : Unit =>
          g x.1 x.2 >>= fun y => .ok (y.1.orElse fun _ => data, y.2)
        else g x.1 x.2 >>= fun y => .ok (y.1.orElse fun _ => data, y.2)) (some a) := by
  obtain ⟨bs, hp, hc, hg⟩ := ha
  have hmet : isMetVariantIndexRequirements index = true := by
    simp only [isMetVariantIndexRequirements, decide_eq_true_eq]
    omega
  have hsize : index < 256 ^ IntSize.b1.bytes := by
    rw [IntSize.bytes]
    omega
  rw [if_pos hmet, if_pos hmet, hp, hc]
  refine ⟨_, rfl, ?_, ?_⟩
  · simp [Nat.add_assoc, IntSize.bytes]
  · rw [List.append_assoc]
    refine (getHeader_skips .variant).bind ((getSize_reads .b1 hsize).bind ?_)
    exact (hg.map fun a => a.orElse fun _ => data).congr fun cur => if_neg fun hn => by omega

theorem codes_expected {c : Res Nat} {p : Res (List Byte)}
    {g : Cursor → Res (β × Cursor)} (b : Bool) {v : α ⊕ β}
    (hv : Codes c p (fun cur => if b then f cur >>= fun x => .ok (.inl x.1, x.2)
      else g cur >>= fun x => .ok (.inr x.1, x.2)) v) :
    Codes (c >>= fun n => .ok (headerSize ar.headers + arithSize ar.headers 1 + n))
      (p >>= fun bs => .ok (putHeader ar.headers .expected ++ putBool ar.headers b ++ bs))
      (fun cur => getHeader ar .expected cur >>= fun cur => getBool ar cur >>= fun x =>
        if x.1 then f x.2 >>= fun x => .ok (.inl x.1, x.2)
        else g x.2 >>= fun x => .ok (.inr x.1, x.2)) v := by
  obtain ⟨bs, hp, hc, hg⟩ := hv
  rw [hp, hc]
  refine ⟨_, rfl, ?_, ?_⟩
  · simp [Nat.add_assoc]
  · rw [List.append_assoc]
    exact (getHeader_skips .expected).bind ((getBool_reads b).bind hg)

theorem Codes.map {c : Res Nat} {p : Res (List Byte)} {v : α}
    (h : Codes c p g v) (k : α → β) :
    Codes c p (fun cur => g cur >>= fun x => .ok (k x.1, x.2)) (k v) := by
  obtain ⟨bs, hp, hc, hg⟩ := h
  exact ⟨bs, hp, hc, hg.map k⟩

theorem codes_cpyable (hm : ∀ n, env.alloc n = true) (l : Linear) (i : IntType)
    {vs : List (BitVec (8 * i.size.bytes))} (hlen : vs.length * i.size.bytes < 2 ^ 64) :
    Codes
      (if vs.length < 256 ^ 8 then .ok (headerSize ar.headers + headerSize ar.headers +
        arithSize ar.headers 8 + vs.length * i.size.bytes) else throwExc .badFormat)
      (if vs.length < 256 ^ 8 then .ok (putHeader ar.headers (.linear l) ++
        putHeader ar.headers (kindOf i) ++ putSize ar.headers .b8 vs.length ++
        vs.flatMap (dump i.size.bytes)) else throwExc .badFormat)
      (fun cur => getHeader ar (.linear l) cur >>= fun cur => getHeader ar (kindOf i) cur >>=
        fun cur => getSize ar .b8 cur >>= fun x =>
        need ar x.2 (sizeT (x.1 * i.size.bytes)) >>= fun _ => grow env x.1 >>= fun _ =>
        x.2.read (sizeT (x.1 * i.size.bytes)) >>= fun y =>
        .ok (chunks i.size.bytes x.1 y.1, y.2)) vs := by
  have hpos : 1 ≤ i.size.bytes := by cases i.size <;> decide
  have hn : vs.length < 256 ^ 8 := lt_of_le_of_lt (Nat.le_mul_of_pos_right _ hpos) hlen
  have hsz : sizeT (vs.length * i.size.bytes) = (vs.flatMap (dump i.size.bytes)).length := by
    rw [sizeT_of_lt hlen, length_flatMap_dump]
  have hraw : Reads (fun cur => need ar cur (sizeT (vs.length * i.size.bytes)) >>= fun _ =>
      grow env vs.length >>= fun _ => cur.read (sizeT (vs.length * i.size.bytes)) >>= fun y =>
      .ok (chunks i.size.bytes vs.length y.1, y.2)) (vs.flatMap (dump i.size.bytes)) vs := by
    intro rest extra
    have e := (read_reads (vs.flatMap (dump i.size.bytes))).map (chunks i.size.bytes vs.length)
    rw [chunks_flatMap] at e
    dsimp only
    rw [hsz, need_over (Nat.le_refl _), ok_bind, grow, if_pos (hm _)]
    exact e rest extra
  rw [if_pos hn, if_pos hn]
  refine ⟨_, rfl, ?_, ?_⟩
  · rw [List.length_append, List.length_append, List.length_append, length_putHeader,
      length_putHeader, length_putSize, length_flatMap_dump]
    rfl
  · rw [List.append_assoc, List.append_assoc]
    exact (getHeader_skips _).bind ((getHeader_skips _).bind ((getSize_reads .b8 hn).bind hraw))

mutual
/-- Every value is written as bytes that are counted and read as it. -/
theorem codes (ar : Archive) (hl : env.Lawful) (hm : ∀ n, env.alloc n = true) :
    ∀ (t : Ty) (v data : Val t), WellFormed env t v → HasValues t v →
    Codes (count env ar.headers t v) (put env ar.headers t v) (get env ar t data) v
  | .int i, v, _, _, _ => codes_number (kindOf i) v
  | .float size, v, _, _, _ => codes_number (.float size) v
  | .bool, b, _, _, _ => codes_bool b
  | .uniquePtr t, o, _, hw, hv =>
    codes_option .uniquePtr fun v e => codes ar hl hm t v _ (hw v e) (hv v e)
  | .optional t, o, _, hw, hv =>
    codes_option .optional fun v e => codes ar hl hm t v _ (hw v e) (hv v e)
  | .tuple ts, vs, data, hw, hv =>
    codes_header .tuple (codesAll ar hl hm ts vs data hw hv)
  | .reflectible ts, vs, data, hw, hv =>
    codes_header .reflectible (codesAll ar hl hm ts vs data hw hv)
  | .variant ts, o, data, hw, hv => by
    obtain ⟨a, rfl, ha⟩ := hv
    exact codes_variant data hw.1 (index_lt ts a) (codesAlt ar hl hm ts a (hw.2 a rfl) ha)
  | .expected t e, .inl v, _, hw, hv =>
    codes_expected true ((codes ar hl hm t v (init t) hw hv).map Sum.inl)
  | .expected t e, .inr v, _, hw, hv =>
    codes_expected false ((codes ar hl hm e v (init e) hw hv).map Sum.inr)
  | .cpyable l i, vs, _, hw, _ => codes_cpyable hm l i hw
  | .noncpyable l t, vs, _, hw, hv =>
    codes_container hm (.linear l) .b8 true (pushBack env) hw.1
      (fun v hm' => codes ar hl hm t v _ (hw.2 v hm') (hv v hm')) (foldlM_pushBack hm [] vs)
  | .containerWrapper size t, vs, _, hw, hv =>
    codes_container hm .containerWrapper size false (pushBack env) hw.1
      (fun v hm' => codes ar hl hm t v _ (hw.2 v hm') (hv v hm')) (foldlM_pushBack hm [] vs)
  | .set c k, vs, _, hw, hv =>
    codes_ordered hm .set (hl.less_asymm c k) hw.1 hw.2.1 fun v hm' =>
      codes ar hl hm k v _ (hw.2.2 v hm') (hv v hm')
  | .unorderedSet c k, s, _, hw, hv =>
    codes_unordered hl hm .unorderedSet (hl.keyEq_symm c k) hw.1 hw.2.1 fun v hm' =>
      codes ar hl hm k v _ (hw.2.2 v hm') (hv v hm')
  | .map c k m, vs, _, hw, hv =>
    codes_ordered (c := countPair ar.headers (count env ar.headers k) (count env ar.headers m))
      (p := putPair ar.headers (put env ar.headers k) (put env ar.headers m))
      (g := getPair ar (get env ar k (init k)) (get env ar m (init m))) hm .map
      (fun x y => hl.less_asymm c k x.1 y.1) hw.1 hw.2.1 fun e he =>
        codes_pair (codes ar hl hm k e.1 _ (hw.2.2 e he).1 (hv e he).1)
          (codes ar hl hm m e.2.1 _ (hw.2.2 e he).2 (hv e he).2)
  | .unorderedMap c k m, s, _, hw, hv =>
    codes_unordered (t := .pair k m)
      (c := countPair ar.headers (count env ar.headers k) (count env ar.headers m))
      (p := putPair ar.headers (put env ar.headers k) (put env ar.headers m))
      (g := getPair ar (get env ar k (init k)) (get env ar m (init m))) hl hm .unorderedMap
      (fun x y => hl.keyEq_symm c k x.1 y.1) hw.1 hw.2.1 fun e he =>
        codes_pair (codes ar hl hm k e.1 _ (hw.2.2 e he).1 (hv e he).1)
          (codes ar hl hm m e.2.1 _ (hw.2.2 e he).2 (hv e he).2)
theorem codesAll (ar : Archive) (hl : env.Lawful) (hm : ∀ n, env.alloc n = true) :
    ∀ (ts : Tys) (vs data : Vals ts), WellFormedAll env ts vs → HaveValues ts vs →
    Codes (counts env ar.headers ts vs) (puts env ar.headers ts vs) (gets env ar ts data) vs
  | .nil, (), _, _, _ => ⟨[], rfl, rfl, Reads.pure ()⟩
  | .cons t ts, (v, vs), (data, datas), hw, hv => by
    obtain ⟨bs, hp, hc, hg⟩ := codes ar hl hm t v data hw.1 hv.1
    obtain ⟨cs, hps, hcs, hgs⟩ := codesAll ar hl hm ts vs datas hw.2 hv.2
    refine ⟨bs ++ cs, ?_, ?_, hg.bind (hgs.map fun vs => (v, vs))⟩
    · rw [puts, hp, ok_bind, hps]
      rfl
    · rw [counts, hc, ok_bind, hcs, List.length_append]
      rfl
theorem codesAlt (ar : Archive) (hl : env.Lawful) (hm : ∀ n, env.alloc n = true) :
    ∀ (ts : Tys) (a : Alts ts), WellFormedAlt env ts a → AltHasValues ts a →
    Codes (countAlt env ar.headers ts a) (putAlt env ar.headers ts a) (getAlt env ar ts a.index)
      (some a)
  | .cons t ts, .inl v, hw, hv => by
    obtain ⟨bs, hp, hc, hg⟩ := codes ar hl hm t v (init t) hw hv
    exact ⟨bs, hp, hc, hg.map fun v => (some (Sum.inl v) : Option (Alts (.cons t ts)))⟩
  | .cons t ts, .inr a, hw, hv => by
    obtain ⟨bs, hp, hc, hg⟩ := codesAlt ar hl hm ts a hw hv
    exact ⟨bs, hp, hc, hg.map fun a => (a.map Sum.inr : Option (Alts (.cons t ts)))⟩
end

/-! ## The archives -/

theorem Reads.of_codes (ar : Archive) {v : Val t} {data : Val t} (hp : put env ar.headers t v = .ok bs)
    (h : Codes (count env ar.headers t v) (put env ar.headers t v) (get env ar t data) v) :
    Reads (get env ar t data) bs v := by
  obtain ⟨cs, hp', -, hg⟩ := h
  cases hp.symm.trans hp'
  exact hg

/-- **Round trip.** In both formats a value in which every variant holds an alternative is written
as as many bytes as are counted for it, and the archives read these bytes, and no others, as the
value, whatever bytes follow. -/
theorem decode_encode_of_hasValues (hl : env.Lawful) (hm : ∀ n, env.alloc n = true) (t : Ty)
    (v : Val t) (hw : WellFormed env t v) (hv : HasValues t v) :
    (∃ bs, Forward.put env t v = .ok bs ∧ Counter.count env t v = .ok bs.length ∧
      (∀ data rest, Backward.put env t data (bs ++ rest) = .ok (v, rest)) ∧
      ∀ data rest extra, SafeBackward.put env t data ⟨bs ++ rest, bs.length + extra⟩ =
        .ok (v, ⟨rest, extra⟩)) ∧
    ∃ bs, DgStdForward.put env t v = .ok bs ∧ DgStdCounter.count env t v = .ok bs.length ∧
      ∀ data rest extra, DgStdBackward.put env t data ⟨bs ++ rest, bs.length + extra⟩ =
        .ok (v, ⟨rest, extra⟩) := by
  have hcodes (ar : Archive) (data : Val t) := codes ar hl hm t v data hw hv
  constructor
  · obtain ⟨bs, hp, hc, -⟩ := hcodes ⟨none, true⟩ v
    refine ⟨bs, hp, hc, fun data rest => ?_, fun data =>
      Reads.of_codes _ hp (hcodes ⟨none, true⟩ data)⟩
    have hr := Reads.of_codes ⟨none, false⟩ hp (hcodes ⟨none, false⟩ data)
    rw [Backward.put, List.length_append, hr rest rest.length]
    rfl
  · obtain ⟨bs, hp, hc, -⟩ := hcodes ⟨some getDgstdSerializationHeader, true⟩ v
    exact ⟨bs, hp, hc, fun data =>
      Reads.of_codes _ hp (hcodes ⟨some getDgstdSerializationHeader, true⟩ data)⟩

noncomputable def intEnv : Env where
  less _ t x y := match t, x, y with
    | .int _, x, y => decide (BitVec.toNat x < BitVec.toNat y)
    | _, _, _ => false
  keyEq _ t x y := match t, x, y with
    | .int _, x, y => decide (BitVec.toNat x = BitVec.toNat y)
    | _, _, _ => false
  iter _ s := Multiset.toList s
  alloc _ := true

theorem intEnv_lawful : intEnv.Lawful where
  less_asymm c t x y h := by
    cases t <;> simp only [intEnv, decide_eq_true_eq, decide_eq_false_iff_not] at h ⊢
    exact Nat.lt_asymm h
  keyEq_symm c t x y := by cases t <;> simp [intEnv, eq_comm]
  iter_coe t s := Multiset.coe_toList s

abbrev sampleTy : Ty := .map 0 (.int .uint8) (.variant (.cons .bool (.cons (.int .uint16) .nil)))

/-- `{{1, true}, {2, uint16_t{7}}}`. -/
def sampleMap : Val sampleTy :=
  [(1#8, some (.inl true), ()), (2#8, some (.inr (.inl 7#16)), ())]

theorem sampleMap_wellFormed : WellFormed intEnv sampleTy sampleMap := by
  refine ⟨by decide, ?_, ?_⟩
  · simp [sampleMap, intEnv]
  · refine List.forall_mem_cons.2 ⟨?_, List.forall_mem_singleton.2 ?_⟩
    · exact ⟨trivial, by decide, fun a e => by cases e; trivial⟩
    · exact ⟨trivial, by decide, fun a e => by cases e; trivial⟩

theorem sampleMap_hasValues : HasValues sampleTy sampleMap := by
  refine List.forall_mem_cons.2 ⟨?_, List.forall_mem_singleton.2 ?_⟩
  · exact ⟨trivial, _, rfl, trivial⟩
  · exact ⟨trivial, _, rfl, trivial⟩

theorem decode_encode_sampleMap :
    ∃ bs, DgStdForward.put intEnv sampleTy sampleMap = .ok bs ∧
      DgStdCounter.count intEnv sampleTy sampleMap = .ok bs.length ∧
      ∀ data rest extra, DgStdBackward.put intEnv sampleTy data ⟨bs ++ rest, bs.length + extra⟩ =
        .ok (sampleMap, ⟨rest, extra⟩) :=
  (decode_encode_of_hasValues intEnv_lawful (fun _ => rfl) sampleTy sampleMap
    sampleMap_wellFormed sampleMap_hasValues).2

/-- A variant without value is refused by both formats. -/
theorem valueless_variant_throws :
    intEnv.Lawful ∧ WellFormed intEnv (.variant (.cons .bool .nil)) (none : Option _) ∧
    Forward.put intEnv (.variant (.cons .bool .nil)) (none : Option _) = throwExc .badFormat ∧
    Counter.count intEnv (.variant (.cons .bool .nil)) (none : Option _) = throwExc .badFormat ∧
    DgStdForward.put intEnv (.variant (.cons .bool .nil)) (none : Option _) =
      throwExc .badFormat :=
  ⟨intEnv_lawful, ⟨by decide, by simp⟩, rfl, rfl, rfl⟩

end CompactSerializer
