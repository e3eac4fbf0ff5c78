import NeuralNetwork.Lib.LinearProbing
import NeuralNetwork.Serializer.DgBuf
import NeuralNetwork.Serializer.Proof.TrivialSerializer

/-!
# Round trip of the flat buffers

`Stores n f g v`: `f` writes the value `v` as `n` bytes behind a stream, and `g` reads it from every
buffer that has these bytes at the same offset. `serializeLoop_ok` says it of the elements of a
container, `flatten_ok` that a hash table is a permutation of the entries, each `Placed`, and `stores`
of every value, by induction on the type.
-/

namespace DgBuf

open Cpp LittleEndian Loop Serializer LinearProbing TrivialSerializer CompactSerializer
open CompactSerializer (Res grow pushBack insertOrdered insertUnordered HasValues HaveValues WellFormed
  WellFormedAll)
open TrivialSerializer (size sizes isSerializable areSerializable)

variable {env : Env} {α β γ δ σ : Type}

/-! ## Views have a fixed width -/

/-- What the views of the elements of a container need of their type. -/
structure FixedWidth (t : Ty) : Prop where
  serializable : isSerializable t = true
  size_pos : 0 < size t
  hasValues : ∀ w, HasValues t w

theorem fixedWidth_int (i : IntType) : FixedWidth (.int i) := by
  refine ⟨rfl, ?_, fun _ => trivial⟩
  rw [size_int]
  cases i.size <;> decide

theorem fixedWidth_float (s : IntSize) : FixedWidth (.float s) := by
  refine ⟨rfl, ?_, fun _ => trivial⟩
  rw [size_float]
  cases s <;> decide

theorem fixedWidth_bool : FixedWidth .bool := ⟨rfl, by decide, fun _ => trivial⟩

variable {t : Ty} {buf : List Byte} {es : List α} {ins : σ → α → Res σ} {n : α → Nat}
  {f : α → Stream → Res (Val t × Stream)} {g : List Byte → Val t → Res α}

theorem FixedWidth.optional (h : FixedWidth t) : FixedWidth (.optional t) := by
  refine ⟨h.serializable, ?_, fun w v _ => h.hasValues v⟩
  rw [size_optional]
  omega

theorem FixedWidth.pair {u : Ty} (ht : FixedWidth t) (hu : FixedWidth u) : FixedWidth (.pair t u) := by
  refine ⟨?_, ?_, fun w => ⟨ht.hasValues w.1, hu.hasValues w.2.1, trivial⟩⟩
  · simp [isSerializable, areSerializable, ht.serializable, hu.serializable]
  · have := ht.size_pos
    rw [size_tuple, sizes_cons]
    omega

theorem fixedWidth_vectorView : FixedWidth vectorView := ⟨rfl, by decide, fun _ => ⟨trivial, trivial, trivial⟩⟩

theorem fixedWidth_strView : FixedWidth strView :=
  ⟨rfl, by decide, fun w => ⟨fixedWidth_vectorView.hasValues w.1, trivial⟩⟩

theorem fixedWidth_sizedView : FixedWidth sizedView :=
  ⟨rfl, by decide, fun w => ⟨fixedWidth_vectorView.hasValues w.1, trivial, trivial⟩⟩

mutual
theorem fixedWidth_convert : ∀ t, isConvertible t = true → FixedWidth (convert t)
  | .int i, _ => fixedWidth_int i
  | .float s, _ => fixedWidth_float s
  | .bool, _ => fixedWidth_bool
  | .optional t, ht => (fixedWidth_convert t ht).optional
  | .tuple ts, ht => by
    simp only [isConvertible, Bool.and_eq_true, decide_eq_true_eq] at ht
    obtain ⟨hs, hpos, hv⟩ := fixedWidth_converts ts ht.2
    exact ⟨hs, hpos ht.1, hv⟩
  | .cpyable .vector _, _ => fixedWidth_vectorView
  | .cpyable .basicString _, _ => fixedWidth_strView
  | .noncpyable .vector _, _ => fixedWidth_vectorView
  | .map _ _ _, _ => fixedWidth_sizedView
  | .set _ _, _ => fixedWidth_sizedView
  | .unorderedMap _ _ _, _ => fixedWidth_sizedView
  | .unorderedSet _ _, _ => fixedWidth_sizedView
theorem fixedWidth_converts : ∀ ts, areConvertible ts = true → areSerializable (converts ts) = true ∧
    (0 < ts.length → 0 < sizes (converts ts)) ∧ ∀ ws, HaveValues (converts ts) ws
  | .nil, _ => ⟨rfl, fun h => absurd h (Nat.lt_irrefl 0), fun _ => trivial⟩
  | .cons t ts, ht => by
    simp only [areConvertible, Bool.and_eq_true] at ht
    have h := fixedWidth_convert t ht.1
    obtain ⟨hs, -, hv⟩ := fixedWidth_converts ts ht.2
    refine ⟨?_, fun _ => ?_, fun ws => ⟨h.hasValues ws.1, hv ws.2⟩⟩
    · simp [converts, areSerializable, h.serializable, hs]
    · have := h.size_pos
      rw [converts, sizes_cons]
      omega
end

/-! ## Reading and writing at an offset -/

theorem writeAt_ok (ht : FixedWidth t) (w : Val t) {pre old : List Byte} {offset : Nat}
    (hpre : pre.length = offset) (hold : old.length = size t) (post : List Byte) :
    ∃ bs, writeAt t w (pre ++ (old ++ post)) offset = .ok (pre ++ (bs ++ post)) ∧
      bs.length = size t ∧ ∀ P Q, readAt t (P ++ (bs ++ Q)) P.length = .ok w := by
  obtain ⟨bs, hput, hbs, hget⟩ := encodes t w ht.serializable (ht.hasValues w)
    (old ++ post) (by rw [List.length_append]; omega)
  rw [List.drop_left' hold] at hput
  refine ⟨bs, ?_, hbs, fun P Q => ?_⟩
  · rw [writeAt, List.drop_left' hpre, List.take_left' hpre, serializeInto, hput]
    rfl
  · rw [readAt, List.drop_left' rfl, deserializeInto, hget]
    rfl

/-- The elements `es` are read side by side from the offset `base` on. -/
def Elems (t : Ty) (g : Val t → Res α) (buf : List Byte) (base : Nat) (es : List α) : Prop :=
  ∀ j e, es[j]? = some e → ∃ w, readAt t buf (base + size t * j) = .ok w ∧ g w = .ok e

variable {kvs : List α} {base : Nat} {rs v : σ} {table : List (Option α)} {s : Stream}
  {keyEq : α → α → Bool} {e : Nat}

theorem Elems.nil {g : Val t → Res α} : Elems t g buf base [] := by
  intro j e he
  cases he

theorem Elems.cons {g : Val t → Res α} {e : α} {w : Val t} (hw : readAt t buf base = .ok w)
    (hg : g w = .ok e) (hes : Elems t g buf (base + size t) es) : Elems t g buf base (e :: es) := by
  intro j x hx
  cases j with
  | zero =>
    obtain rfl := Option.some.inj hx
    exact ⟨w, hw, hg⟩
  | succ j =>
    have hnext := hes j x hx
    rwa [Nat.add_assoc, Nat.add_comm (size t), ← Nat.mul_succ] at hnext

theorem Elems.tail {g : Val t → Res α} {e : α} (h : Elems t g buf base (e :: es)) :
    Elems t g buf (base + size t) es := by
  intro j x hx
  have hnext := h (j + 1) x hx
  rwa [Nat.mul_succ, Nat.add_comm (size t * j), ← Nat.add_assoc] at hnext

theorem transform_ok (ht : FixedWidth t) {g : Val t → Res α} {rs rs' : σ} (hes : Elems t g buf base es)
    (hins : es.foldlM ins rs = .ok rs') :
    transform t buf g ins (base + es.length * size t) es.length base rs = .ok rs' := by
  induction es generalizing base rs with
  | nil => exact hins
  | cons e es ih =>
    obtain ⟨w, hread, hg⟩ := hes 0 e rfl
    rw [Nat.mul_zero, Nat.add_zero] at hread
    rw [List.foldlM_cons] at hins
    obtain ⟨rs1, h1, h2⟩ := bind_eq_ok hins
    have hpos := ht.size_pos
    have hlast : base + (e :: es).length * size t = base + size t + es.length * size t := by
      rw [List.length_cons, Nat.add_one_mul]
      omega
    have hne : base ≠ base + (e :: es).length * size t := by
      rw [hlast]
      omega
    rw [List.length_cons] at hlast hne ⊢
    rw [transform, if_neg hne, hread, ok_bind, hg, ok_bind, h1, ok_bind, hlast]
    exact ih hes.tail h2

/-! ## Storing -/

/-- `f` writes `v` as `n` bytes behind a stream, and `g` reads it from every buffer that has them at
the same offset. -/
def Stores (n : Nat) (f : Stream → Res (β × Stream)) (g : List Byte → β → Res α) (v : α) : Prop :=
  ∀ s : Stream, s.length + n ≤ 2 ^ 62 → ∃ view app, f s = .ok (view, s ++ app) ∧ app.length = n ∧
    ∀ pre post, pre.length = s.length → g (pre ++ (app ++ post)) view = .ok v

theorem stores_self (v : α) : Stores 0 (fun s => .ok (v, s)) (fun _ w => .ok w) v := by
  intro s _
  refine ⟨v, [], ?_, rfl, fun _ _ _ => rfl⟩
  rw [List.append_nil]

theorem Stores.bind {n m : Nat} {f : Stream → Res (β × Stream)} {g : List Byte → β → Res α} {v : α}
    {f' : Stream → Res (δ × Stream)} {g' : List Byte → δ → Res γ} {u : γ} (hv : Stores n f g v)
    (hu : Stores m f' g' u) : Stores (n + m)
      (fun s => f s >>= fun x => f' x.2 >>= fun y => .ok ((x.1, y.1), y.2))
      (fun buf w => g buf w.1 >>= fun x => g' buf w.2 >>= fun y => .ok (x, y)) (v, u) := by
  intro s hs
  obtain ⟨view, app, e, happ, hg⟩ := hv s (by omega)
  obtain ⟨view', app', e', happ', hg'⟩ := hu (s ++ app) (by rw [List.length_append]; omega)
  refine ⟨(view, view'), app ++ app', ?_, by rw [List.length_append]; omega, fun pre post hpre => ?_⟩
  · dsimp only
    rw [e, ok_bind, e', ok_bind, List.append_assoc]
  · dsimp only
    have hpre' : (pre ++ app).length = (s ++ app).length := by
      rw [List.length_append, List.length_append, hpre]
    have hg' := hg' (pre ++ app) post hpre'
    rw [List.append_assoc] at hg'
    rw [List.append_assoc, hg pre (app' ++ post) hpre, ok_bind, hg', ok_bind]

def optionSize (n : α → Nat) : Option α → Nat
  | none => 0
  | some v => n v

def pairSize (n : α → Nat) (m : β → Nat) (kv : α × β × Unit) : Nat := n kv.1 + m kv.2.1

theorem stores_option {f : α → Stream → Res (β × Stream)} {g : List Byte → β → Res α}
    {o : Option α} (h : ∀ v, o = some v → Stores (n v) (f v) g v) :
    Stores (optionSize n o) (serializeOption f o) (fun buf => deserializeOption (g buf)) o := by
  cases o with
  | none =>
    intro s _
    refine ⟨none, [], ?_, rfl, fun _ _ _ => rfl⟩
    rw [List.append_nil]
    rfl
  | some v =>
    intro s hs
    obtain ⟨view, app, e, happ, hg⟩ := h v rfl s hs
    refine ⟨some view, app, ?_, happ, fun pre post hpre => ?_⟩
    · rw [serializeOption, e]
      rfl
    · dsimp only
      rw [deserializeOption, hg pre post hpre]
      rfl

theorem stores_pair {f : α → Stream → Res (γ × Stream)} {g : List Byte → γ → Res α}
    {n' : β → Nat} {f' : β → Stream → Res (δ × Stream)} {g' : List Byte → δ → Res β}
    {kv : α × β × Unit} (hk : Stores (n kv.1) (f kv.1) g kv.1)
    (hm : Stores (n' kv.2.1) (f' kv.2.1) g' kv.2.1) :
    Stores (pairSize n n' kv) (serializePair f f' kv)
      (fun buf => deserializePair (g buf) (g' buf)) kv := by
  intro s hs
  obtain ⟨view, app, e, happ, hg⟩ := hk.bind hm s hs
  obtain ⟨x, ex, e⟩ := bind_eq_ok e
  obtain ⟨y, ey, e⟩ := bind_eq_ok e
  obtain ⟨rfl, eapp⟩ := Prod.ext_iff.1 (Except.ok.inj e)
  dsimp only at eapp
  refine ⟨(x.1, y.1, ()), app, ?_, happ, fun pre post hpre => ?_⟩
  · unfold serializePair
    rw [ex, ok_bind]
    dsimp only
    rw [ey, ← eapp]
    rfl
  · have hread := hg pre post hpre
    dsimp only at hread ⊢
    obtain ⟨a, ea, hread⟩ := bind_eq_ok hread
    obtain ⟨b, eb, hread⟩ := bind_eq_ok hread
    obtain ⟨rfl, rfl⟩ := Prod.ext_iff.1 (Except.ok.inj hread)
    rw [deserializePair, ea, ok_bind, eb]
    rfl

/-! ## Containers -/

/-- **The elements of a container** are written into the room `todo`, and what they need behind the
stream; the elements so far have left `front` and `apps`. -/
theorem serializeLoop_ok (ht : FixedWidth t)
    (hes : ∀ e ∈ es, Stores (n e) (f e) g e) {offset i : Nat} {front todo apps : List Byte}
    (hfront : front.length = offset + size t * i) (htodo : todo.length = size t * es.length)
    (hroom : (front ++ (todo ++ apps)).length + (es.map n).sum ≤ 2 ^ 62) :
    ∃ bss app, serializeLoop t f offset i es (front ++ (todo ++ apps)) =
        .ok (front ++ (bss ++ (apps ++ app))) ∧
      bss.length = todo.length ∧ app.length = (es.map n).sum ∧
      ∀ P Q R buf, P.length = front.length → Q.length = apps.length →
        buf = P ++ (bss ++ (Q ++ (app ++ R))) → Elems t (g buf) buf P.length es := by
  induction es generalizing i front todo apps with
  | nil =>
    refine ⟨todo, [], ?_, rfl, rfl, fun _ _ _ _ _ _ _ => Elems.nil⟩
    rw [List.append_nil]
    rfl
  | cons e es ih =>
    rw [List.length_cons, Nat.mul_succ] at htodo
    rw [List.map_cons, List.sum_cons] at hroom
    obtain ⟨old, todo, rfl, hold⟩ : ∃ old rest, todo = old ++ rest ∧ old.length = size t :=
      ⟨todo.take (size t), todo.drop (size t), (List.take_append_drop _ _).symm, by
        rw [List.length_take]
        omega⟩
    obtain ⟨view, app, hf, happ, hg⟩ := hes e (by simp) (front ++ (old ++ todo ++ apps)) (by omega)
    have hstream : front ++ (old ++ todo ++ apps) ++ app = front ++ (old ++ (todo ++ (apps ++ app))) := by
      simp only [List.append_assoc]
    rw [hstream] at hf
    obtain ⟨bs, hwrite, hbs, hread⟩ := writeAt_ok ht view hfront hold (todo ++ (apps ++ app))
    have hnext : front ++ (bs ++ (todo ++ (apps ++ app))) = (front ++ bs) ++ (todo ++ (apps ++ app)) :=
      (List.append_assoc _ _ _).symm
    rw [hnext] at hwrite
    simp only [List.length_append] at hroom htodo
    have hnextfront : (front ++ bs).length = offset + size t * (i + 1) := by
      rw [List.length_append, Nat.mul_succ]
      omega
    have hnextroom : ((front ++ bs) ++ (todo ++ (apps ++ app))).length + (es.map n).sum ≤ 2 ^ 62 := by
      simp only [List.length_append]
      omega
    have hnexttodo : todo.length = size t * es.length := by omega
    obtain ⟨bss, app', hloop, hbss, happ', hrest⟩ :=
      ih (fun x hx => hes x (by simp [hx])) hnextfront hnexttodo hnextroom
    refine ⟨bs ++ bss, app ++ app', ?_, ?_, ?_, fun P Q R buf hP hQ hbuf => ?_⟩
    · rw [serializeLoop, hf, ok_bind]
      dsimp only
      rw [hwrite, ok_bind, hloop]
      simp only [List.append_assoc]
    · simp only [List.length_append]
      omega
    · rw [List.length_append, List.map_cons, List.sum_cons]
      omega
    · have hhead : buf = P ++ (bs ++ (bss ++ (Q ++ (app ++ (app' ++ R))))) := by
        rw [hbuf]
        simp only [List.append_assoc]
      have happended : buf = (P ++ (bs ++ (bss ++ Q))) ++ (app ++ (app' ++ R)) := by
        rw [hbuf]
        simp only [List.append_assoc]
      have htail : buf = (P ++ bs) ++ (bss ++ ((Q ++ app) ++ (app' ++ R))) := by
        rw [hbuf]
        simp only [List.append_assoc]
      have hlen : (P ++ bs).length = (front ++ bs).length := by
        rw [List.length_append, List.length_append, hP]
      have helems := hrest (P ++ bs) (Q ++ app) R buf hlen (by
        rw [List.length_append, List.length_append, hQ]) htail
      rw [List.length_append, hbs] at helems
      refine Elems.cons (w := view) ?_ ?_ helems
      · rw [hhead]
        exact hread P _
      · rw [happended]
        apply hg
        simp only [List.length_append]
        omega

theorem allocate_ok (hm : ∀ n, env.alloc n = true) {n : Nat} (hn : n ≤ maxSize) : allocate env n = .ok () := by
  rw [allocate, if_pos hn, grow, if_pos (hm n)]
  rfl

theorem resizeStreamable_ok (hm : ∀ n, env.alloc n = true) {n : Nat} (hn : s.length + n ≤ 2 ^ 62) :
    resizeStreamable env s (sizeT (s.length + n)) = .ok (s ++ List.replicate n 0) := by
  have hmax : maxSize = 2 ^ 63 - 1 := rfl
  rw [sizeT_of_lt (by omega)]
  have hrest : allocate env (s.length + n) = .ok () := allocate_ok hm (by omega)
  have hs : s.take (s.length + n) = s := List.take_of_length_le (by omega)
  have hreplicate : s.length + n - s.length = n := by omega
  unfold resizeStreamable
  rw [hs, hreplicate]
  by_cases hlt : s.length < s.length + n
  · have hfits : s.length ≤ 2 ^ 63 := by omega
    obtain ⟨e, he, hceil, hle⟩ := Stdx.ceil2_ok hfits
    have hcap : (2 : Nat) ^ e ≤ 2 ^ 62 := Stdx.ceil2_le_two_pow hceil (by omega)
    have hreserve : allocate env (2 ^ e) = .ok () := allocate_ok hm (by omega)
    simp only [if_pos hlt, hceil, Except.mapError, ok_bind, hreserve, hrest]
    rfl
  · simp only [if_neg hlt, hrest]
    rfl

theorem toNat_ofNat_of_le {n : Nat} (h : n ≤ 2 ^ 62) : (BitVec.ofNat 64 n).toNat = n := by
  rw [BitVec.toNat_ofNat, Nat.mod_eq_of_lt (by omega)]

/-- The bytes of a container of which the elements are stored behind it. -/
def elemsSize (t : Ty) (n : α → Nat) (es : List α) : Nat := size t * es.length + (es.map n).sum

/-- **A vector** is the place and the number of its elements. -/
theorem serializeVector_ok (hm : ∀ n, env.alloc n = true) (ht : FixedWidth t)
    (hes : ∀ e ∈ es, Stores (n e) (f e) g e) (hs : s.length + elemsSize t n es ≤ 2 ^ 62) :
    ∃ view app, serializeVector env t f es s = .ok (view, s ++ app) ∧ app.length = elemsSize t n es ∧
      BitVec.toNat view.1 = s.length ∧ BitVec.toNat view.2.1 = es.length ∧
      ∀ pre post, pre.length = s.length →
        Elems t (g (pre ++ (app ++ post))) (pre ++ (app ++ post)) s.length es := by
  have hpos := ht.size_pos
  have hmul : es.length ≤ size t * es.length := Nat.le_mul_of_pos_left _ hpos
  unfold elemsSize at hs ⊢
  have hfront : s.length = s.length + size t * 0 := by rw [Nat.mul_zero, Nat.add_zero]
  have htodo : (List.replicate (size t * es.length) (0 : Byte)).length = size t * es.length :=
    List.length_replicate
  have hroom : (s ++ (List.replicate (size t * es.length) 0 ++ [])).length + (es.map n).sum ≤ 2 ^ 62 := by
    rw [List.append_nil, List.length_append, List.length_replicate]
    omega
  obtain ⟨bss, app, hloop, hbss, happ, helems⟩ := serializeLoop_ok ht hes hfront htodo hroom
  rw [List.append_nil, List.nil_append] at hloop
  rw [List.length_replicate] at hbss
  have hresize := resizeStreamable_ok hm (s := s) (n := size t * es.length) (by omega)
  refine ⟨(BitVec.ofNat _ s.length, BitVec.ofNat _ es.length, ()), bss ++ app, ?_, ?_,
    toNat_ofNat_of_le (by omega), toNat_ofNat_of_le (by omega), fun pre post hpre => ?_⟩
  · unfold serializeVector
    rw [sizeT_of_lt (n := size t * es.length) (by omega)]
    dsimp only
    rw [hresize, ok_bind, hloop]
    rfl
  · rw [List.length_append, hbss, happ]
  · have h := helems pre [] post (pre ++ (bss ++ app ++ post)) hpre rfl (by
      simp only [List.append_assoc, List.nil_append])
    rwa [hpre] at h

theorem transformView_ok (ht : FixedWidth t) {g : Val t → Res α} {view : Val vectorView}
    (hes : Elems t g buf (BitVec.toNat view.1) es) (hlen : BitVec.toNat view.2.1 = es.length)
    (hins : es.foldlM ins rs = .ok v) : transformView t buf g ins rs view = .ok v := by
  unfold transformView
  rw [hlen]
  exact transform_ok ht hes hins

theorem stores_vector (hm : ∀ n, env.alloc n = true) (ht : FixedWidth t)
    (hes : ∀ e ∈ es, Stores (n e) (f e) g e) (hins : es.foldlM ins rs = .ok v) :
    Stores (elemsSize t n es) (serializeVector env t f es)
      (fun buf view => transformView t buf (g buf) ins rs view) v := by
  intro s hs
  obtain ⟨view, app, e, happ, hdata, hsz, helems⟩ := serializeVector_ok hm ht hes hs
  refine ⟨view, app, e, happ, fun pre post hpre => ?_⟩
  refine transformView_ok ht ?_ hsz hins
  rw [hdata]
  exact helems pre post hpre

theorem stores_sized (hm : ∀ n, env.alloc n = true) (ht : FixedWidth t)
    (hes : ∀ e ∈ es, Stores (n e) (f e) g e) (hins : es.foldlM ins rs = .ok v) (sz : Nat) :
    Stores (elemsSize t n es) (serializeSized env t f es sz)
      (fun buf view => transformView t buf (g buf) ins rs view.1) v := by
  intro s hs
  obtain ⟨view, app, e, happ, hread⟩ := stores_vector hm ht hes hins s hs
  refine ⟨(view, BitVec.ofNat _ sz, ()), app, ?_, happ, hread⟩
  rw [serializeSized, e]
  rfl

theorem readAt_dump (i : IntType) (v : BitVec (8 * i.size.bytes)) (P Q : List Byte) :
    readAt (.int i) (P ++ (dump i.size.bytes v ++ Q)) P.length = .ok v := by
  have hread := readBytes_append (length_dump v) Q
  have hword : (readBytes i.size.bytes (dump i.size.bytes v ++ Q) >>= fun x =>
      .ok (load i.size.bytes x.1, x.2)) = Except.ok (v, Q) := by
    rw [hread, ok_bind, load_dump]
  have hput : TrivialSerializer.Backward.put (.int i) (init (.int i)) (dump i.size.bytes v ++ Q) =
      .ok (v, Q) := hword
  rw [readAt, List.drop_left' rfl, deserializeInto, hput]
  rfl

theorem elems_flatMap_dump (i : IntType) (vs : List (BitVec (8 * i.size.bytes))) (P Q : List Byte) :
    Elems (.int i) (fun e => .ok e) (P ++ (vs.flatMap (dump i.size.bytes) ++ Q)) P.length vs := by
  induction vs generalizing P with
  | nil => exact Elems.nil
  | cons v vs ih =>
    have h := ih (P ++ dump i.size.bytes v)
    rw [List.length_append, length_dump, List.append_assoc] at h
    rw [List.flatMap_cons, List.append_assoc]
    exact Elems.cons (w := v) (readAt_dump i v P _) rfl h

theorem stores_string (hm : ∀ n, env.alloc n = true) (vs : List (BitVec (8 * IntType.char.size.bytes)))
    {ins : σ → BitVec (8 * IntType.char.size.bytes) → Res σ} (hins : vs.foldlM ins rs = .ok v) :
    Stores vs.length (serializeString env (vs.flatMap (dump IntType.char.size.bytes)))
      (fun buf view => transformView (.int .char) buf (fun e => .ok e) ins rs view.1) v := by
  have hlen : (vs.flatMap (dump IntType.char.size.bytes)).length = vs.length := by
    rw [length_flatMap_dump]
    exact Nat.mul_one _
  intro s hs
  have hresize := resizeStreamable_ok hm hs
  refine ⟨((BitVec.ofNat _ s.length, BitVec.ofNat _ vs.length, ()), ()),
    vs.flatMap (dump IntType.char.size.bytes), ?_, hlen, fun pre post hpre => ?_⟩
  · unfold serializeString
    dsimp only
    rw [hlen, hresize, ok_bind, copyAt, if_pos (by simp [hlen]), List.take_left' rfl,
      List.drop_of_length_le (by simp [hlen]), List.append_nil]
    rfl
  · refine transformView_ok (fixedWidth_int .char) ?_ (toNat_ofNat_of_le (by omega)) hins
    have hdata : BitVec.toNat (BitVec.ofNat 64 s.length) = s.length := toNat_ofNat_of_le (by omega)
    have helems := elems_flatMap_dump .char vs pre post
    rw [hpre, ← hdata] at helems
    exact helems

/-! ## Hash tables -/

theorem le_toDouble (n : Nat) : n ≤ 2 * toDouble n := by
  by_cases hn : n = 0
  · subst hn
    exact Nat.zero_le _
  have hunit : 2 ^ (Nat.log2 n - 52) ≤ n :=
    (Nat.pow_le_pow_right (by decide) (Nat.sub_le _ _)).trans (Nat.log2_self_le hn)
  have hpos : 0 < 2 ^ (Nat.log2 n - 52) := Nat.two_pow_pos _
  unfold toDouble
  dsimp only
  generalize 2 ^ (Nat.log2 n - 52) = unit at hunit hpos
  have hmod := Nat.mod_lt n hpos
  have hsplit := Nat.div_add_mod n unit
  split
  · rw [Nat.mul_succ]
    omega
  · omega

def bucketCount (n : Nat) : Nat :=
  if 2 * toDouble n < 2 then 1 else 2 ^ (Stdx.ulog2 (2 * toDouble n - 1) + 1)

theorem capacity_ok {n : Nat} (h : bucketCount n ≤ 2 ^ 62) :
    capacity n = .ok (bucketCount n) ∧ n ≤ bucketCount n ∧ ∃ e < 64, bucketCount n = 2 ^ e := by
  have hle := le_toDouble n
  unfold bucketCount at h ⊢
  unfold capacity Stdx.ceil2
  by_cases h2 : 2 * toDouble n < 2
  · rw [if_pos h2, if_pos (by omega), if_pos h2]
    exact ⟨rfl, by omega, 0, by decide, rfl⟩
  · rw [if_neg h2] at h ⊢
    have hexp := (Nat.pow_le_pow_iff_right (by decide : 1 < 2)).1 h
    have hlog := Nat.lt_log2_self (n := 2 * toDouble n - 1)
    simp only [Stdx.ulog2] at h hexp ⊢
    rw [if_pos (by omega), if_neg h2, Stdx.shiftOne, if_pos (by omega)]
    exact ⟨rfl, by omega, _, by omega, rfl⟩

theorem bitwiseAndKeyToIdx_eq (he : e < 64) (x : Nat) :
    bitwiseAndKeyToIdx (sizeT x) (2 ^ e) = x % 2 ^ e := by
  rw [bitwiseAndKeyToIdx, Stdx.and_mask he, sizeT, Nat.mod_mod_of_dvd x (pow_dvd_pow 2 (by omega))]

theorem placeLoop_ok (he : e < 64) (hlen : table.length = 2 ^ e) {h n i d : Nat} (kv : α) (hn : d < n)
    (hr : Run table h (i + d)) (hempty : probed table h (i + d) = some none) :
    placeLoop h kv n i table = .ok (table.set ((h + (i + d)) % table.length) (some kv)) := by
  induction n generalizing i d with
  | zero => exact absurd hn (Nat.not_lt_zero d)
  | succ n ih =>
    have hslot : bitwiseAndKeyToIdx (sizeT (h + i)) table.length = (h + i) % table.length := by
      rw [hlen, bitwiseAndKeyToIdx_eq he]
    rw [placeLoop, hslot]
    cases d with
    | zero =>
      rw [Nat.add_zero] at hempty ⊢
      unfold probed at hempty
      simp only [hempty]
      rfl
    | succ d =>
      obtain ⟨x, hx⟩ := hr i (by omega)
      unfold probed at hx
      simp only [hx]
      have hsum : i + (d + 1) = i + 1 + d := by omega
      rw [hsum] at hr hempty ⊢
      exact ih (Nat.lt_of_succ_lt_succ hn) hr hempty

theorem foldlM_placeLoop (he : e < 64) {hash : α → Nat} (hp : Placed hash table)
    (hlen : table.length = 2 ^ e) (hroom : table.reduceOption.length + kvs.length ≤ 2 ^ e) :
    ∃ table', kvs.foldlM (fun buckets kv => placeLoop (hash kv) kv (2 ^ e) 0 buckets) table =
        .ok table' ∧
      Placed hash table' ∧ table'.length = 2 ^ e ∧
      table'.reduceOption.Perm (table.reduceOption ++ kvs) := by
  induction kvs generalizing table with
  | nil => exact ⟨table, rfl, hp, hlen, by rw [List.append_nil]⟩
  | cons kv kvs ih =>
    rw [List.length_cons] at hroom
    obtain ⟨i, hi, hempty, hrun⟩ := exists_empty (hash kv)
      (show table.reduceOption.length < table.length by omega)
    rw [← Nat.zero_add i] at hempty hrun
    have hplace := placeLoop_ok he hlen kv (by omega) hrun hempty
    rw [Nat.zero_add] at hempty hrun hplace
    have hperm := reduceOption_set hempty kv
    have hcount := hperm.length_eq
    rw [List.length_cons] at hcount
    obtain ⟨table', e', hp', hlen', hperm'⟩ := ih (hp.set hi hrun) (by rw [List.length_set, hlen]) (by omega)
    refine ⟨table', ?_, hp', hlen', hperm'.trans ?_⟩
    · rw [hlen] at hplace
      rw [List.foldlM_cons, hplace, ok_bind, ← hlen]
      rw [← hlen] at e'
      exact e'
    · have hmiddle : (table.reduceOption ++ kv :: kvs).Perm (kv :: (table.reduceOption ++ kvs)) :=
        List.perm_middle
      exact (hperm.append_right kvs).trans hmiddle.symm

/-- **The table of an unordered container** holds its entries, each placed. -/
theorem flatten_ok (hm : ∀ n, env.alloc n = true) (hash : α → Nat)
    (hcap : bucketCount kvs.length ≤ 2 ^ 62) :
    ∃ table, flatten env hash kvs = .ok table ∧ Placed hash table ∧
      table.length = bucketCount kvs.length ∧ (∃ e < 64, table.length = 2 ^ e) ∧
      table.reduceOption.Perm kvs := by
  obtain ⟨hok, hle, e, he, hpow⟩ := capacity_ok hcap
  have hmax : maxSize = 2 ^ 63 - 1 := rfl
  have halloc : allocate env (bucketCount kvs.length) = .ok () := allocate_ok hm (by omega)
  have hempty : Placed hash (List.replicate (2 ^ e) none) := placed_replicate (2 ^ e)
  have hroom : (List.replicate (2 ^ e) (none : Option α)).reduceOption.length + kvs.length ≤ 2 ^ e := by
    rw [List.reduceOption_replicate_none]
    simp only [List.length_nil]
    omega
  obtain ⟨table, hfold, hp, hlen, hperm⟩ := foldlM_placeLoop he hempty List.length_replicate hroom
  rw [List.reduceOption_replicate_none, List.nil_append] at hperm
  refine ⟨table, ?_, hp, by rw [hlen, hpow], ⟨e, he, hlen⟩, hperm⟩
  unfold flatten
  rw [hok]
  rw [hpow] at halloc ⊢
  simp only [Except.mapError, ok_bind, halloc]
  exact hfold

theorem sum_optionSize (n : α → Nat) (table : List (Option α)) :
    (table.map (optionSize n)).sum = (table.reduceOption.map n).sum := by
  induction table with
  | nil => rfl
  | cons o table ih =>
    cases o with
    | none =>
      rw [List.map_cons, List.sum_cons, ih, List.reduceOption_cons_of_none]
      exact Nat.zero_add _
    | some v =>
      rw [List.map_cons, List.sum_cons, ih, List.reduceOption_cons_of_some, List.map_cons, List.sum_cons]
      rfl

theorem foldlM_insertBucket (ins : σ → α → Res σ) (table : List (Option α)) (rs : σ) :
    table.foldlM (insertBucket ins) rs = table.reduceOption.foldlM ins rs := by
  induction table generalizing rs with
  | nil => rfl
  | cons o table ih =>
    cases o with
    | none =>
      rw [List.foldlM_cons, List.reduceOption_cons_of_none]
      exact ih rs
    | some v =>
      rw [List.foldlM_cons, List.reduceOption_cons_of_some, List.foldlM_cons]
      exact congrArg _ (funext ih)

theorem foldlM_insertUnordered_coe (hm : ∀ n, env.alloc n = true) (hsymm : ∀ x y, keyEq x y = keyEq y x)
    {s : Multiset α} (hes : (es : Multiset α) = s) (hs : s.Pairwise fun x y => keyEq x y = false) :
    es.foldlM (insertUnordered env.toEnv keyEq) 0 = .ok s := by
  subst hes
  have hpair : es.Pairwise fun x y => keyEq x y = false := by
    have : Std.Symm fun x y => keyEq x y = false := ⟨fun x y e => (hsymm y x).trans e⟩
    exact Multiset.pairwise_coe_iff_pairwise.1 hs
  rw [foldlM_insertUnordered hm (by simp) hpair, Multiset.zero_add]

def tableSize (t : Ty) (n : α → Nat) (kvs : List α) : Nat :=
  size (.optional t) * bucketCount kvs.length + (kvs.map n).sum

theorem bucketCount_le_tableSize (ht : FixedWidth t) (n : α → Nat) (kvs : List α) :
    bucketCount kvs.length ≤ tableSize t n kvs :=
  (Nat.le_mul_of_pos_left _ ht.optional.size_pos).trans (Nat.le_add_right _ _)

theorem serializeTable_ok (hm : ∀ n, env.alloc n = true) (ht : FixedWidth t) (hash : α → Nat)
    (hkvs : ∀ e ∈ kvs, Stores (n e) (f e) g e) {sz : Nat} (hsz : kvs.length = sz)
    (hs : s.length + tableSize t n kvs ≤ 2 ^ 62) :
    ∃ table view app, flatten env hash kvs = .ok table ∧
      serializeSized env (.optional t) (serializeOption f) table sz s = .ok (view, s ++ app) ∧
      Placed hash table ∧ table.reduceOption.Perm kvs ∧ table.length = bucketCount kvs.length ∧
      (∃ e < 64, table.length = 2 ^ e) ∧ app.length = tableSize t n kvs ∧ BitVec.toNat view.1.1 = s.length ∧
      BitVec.toNat view.1.2.1 = table.length ∧ BitVec.toNat view.2.1 = sz ∧
      ∀ pre post, pre.length = s.length →
        Elems (.optional t) (deserializeOption (g (pre ++ (app ++ post)))) (pre ++ (app ++ post))
          s.length table := by
  have hle := bucketCount_le_tableSize ht n kvs
  have hcap : bucketCount kvs.length ≤ 2 ^ 62 := by omega
  obtain ⟨table, hflat, hp, hlen, hpow, hperm⟩ := flatten_ok hm hash hcap
  have hentries := table.reduceOption_length_le
  rw [hperm.length_eq] at hentries
  have hsum : elemsSize (.optional t) (optionSize n) table = tableSize t n kvs := by
    rw [elemsSize, tableSize, hlen, sum_optionSize, (hperm.map n).sum_nat]
  have htable : ∀ o ∈ table, Stores (optionSize n o) (serializeOption f o)
      (fun buf => deserializeOption (g buf)) o := by
    intro o ho
    refine stores_option fun v hv => hkvs v (hperm.mem_iff.1 ?_)
    rw [hv] at ho
    exact List.reduceOption_mem_iff.2 ho
  obtain ⟨view, app, e, happ, hdata, hview, helems⟩ :=
    serializeVector_ok hm ht.optional htable (s := s) (by rwa [hsum])
  refine ⟨table, (view, BitVec.ofNat _ sz, ()), app, hflat, ?_, hp, hperm, hlen, hpow, by rw [happ, hsum],
    hdata, hview, toNat_ofNat_of_le (by omega), helems⟩
  unfold serializeSized
  rw [e]
  rfl

theorem stores_table (hm : ∀ n, env.alloc n = true) (ht : FixedWidth t) (hash : α → Nat)
    (hsymm : ∀ x y, keyEq x y = keyEq y x) {s : Multiset α} (hkvs : (kvs : Multiset α) = s)
    (hs : s.Pairwise fun x y => keyEq x y = false) (hes : ∀ e ∈ s, Stores (n e) (f e) g e) :
    Stores (tableSize t n kvs) (fun st => flatten env hash kvs >>= fun flattened =>
        serializeSized env (.optional t) (serializeOption f) flattened (Multiset.card s) st)
      (fun buf view => transformView (.optional t) buf (deserializeOption (g buf))
        (insertBucket (insertUnordered env.toEnv keyEq)) 0 view.1) s := by
  intro st hst
  have hmem : ∀ e ∈ kvs, Stores (n e) (f e) g e := by
    intro e he
    exact hes e (hkvs ▸ Multiset.mem_coe.2 he)
  have hcard : kvs.length = Multiset.card s := congrArg Multiset.card hkvs
  obtain ⟨table, view, app, hflat, e, -, hperm, -, -, happ, hdata, hsz, -, helems⟩ :=
    serializeTable_ok hm ht hash hmem hcard hst
  refine ⟨view, app, ?_, happ, fun pre post hpre => ?_⟩
  · dsimp only
    rw [hflat, ok_bind]
    exact e
  have helems' := helems pre post hpre
  rw [← hdata] at helems'
  apply transformView_ok ht.optional helems' hsz
  rw [foldlM_insertBucket]
  exact foldlM_insertUnordered_coe hm hsymm ((Multiset.coe_eq_coe.2 hperm).trans hkvs) hs

theorem stores_ordered (hm : ∀ n, env.alloc n = true) (ht : FixedWidth t) {less : α → α → Bool}
    (hasymm : ∀ x y, less x y = true → less y x = false) {vs : List α}
    (hs : vs.Pairwise fun x y => less x y = true) (hes : ∀ e ∈ vs, Stores (n e) (f e) g e) :
    Stores (elemsSize t n vs) (fun st => flattenOrdered env vs >>= fun flattened =>
        serializeSized env t f flattened vs.length st)
      (fun buf view => transformView t buf (g buf) (insertOrdered env.toEnv less) [] view.1) vs := by
  intro st hst
  have hmul : vs.length ≤ size t * vs.length := Nat.le_mul_of_pos_left _ ht.size_pos
  have hmax : maxSize = 2 ^ 63 - 1 := rfl
  have hlen : vs.length ≤ maxSize := by
    unfold elemsSize at hst
    omega
  have hflat : flattenOrdered env vs = .ok vs := by
    rw [flattenOrdered, allocate_ok hm hlen]
    rfl
  have hins : vs.foldlM (insertOrdered env.toEnv less) [] = .ok vs :=
    foldlM_insertOrdered hm hasymm (l := []) hs
  rw [hflat]
  exact stores_sized hm ht hes hins vs.length st hst

/-! ## The induction on the type -/

-- the bytes that are written behind a stream
mutual
def bufferSize (env : Env) : (t : Ty) → Val t → Nat
  | .optional t, o => optionSize (bufferSize env t) o
  | .tuple ts, vs => bufferSizes env ts vs
  | .cpyable .vector i, vs => elemsSize (.int i) (fun _ => 0) vs
  | .cpyable .basicString _, vs => vs.length
  | .noncpyable .vector t, vs => elemsSize (convert t) (bufferSize env t) vs
  | .map _ k m, vs =>
    elemsSize (.pair (convert k) (convert m)) (pairSize (bufferSize env k) (bufferSize env m)) vs
  | .set _ k, vs => elemsSize (convert k) (bufferSize env k) vs
  | .unorderedMap _ k m, vs =>
    tableSize (.pair (convert k) (convert m)) (pairSize (bufferSize env k) (bufferSize env m))
      (env.iter (.pair k m) vs)
  | .unorderedSet _ k, vs => tableSize (convert k) (bufferSize env k) (env.iter k vs)
  | _, _ => 0
def bufferSizes (env : Env) : (ts : Tys) → Vals ts → Nat
  | .nil, _ => 0
  | .cons t ts, (v, vs) => bufferSize env t v + bufferSizes env ts vs
end

mutual
theorem stores (hl : env.toEnv.Lawful) (hm : ∀ n, env.alloc n = true) : ∀ (t : Ty) (v : Val t),
    isConvertible t = true → WellFormed env.toEnv t v →
    Stores (bufferSize env t v) (serialize env t v) (fun buf => deserialize env buf t) v
  | .int _, v, _, _ => stores_self v
  | .float _, v, _, _ => stores_self v
  | .bool, v, _, _ => stores_self v
  | .optional t, o, ht, hw => stores_option fun v e => stores hl hm t v ht (hw v e)
  | .tuple ts, vs, ht, hw => by
    simp only [isConvertible, Bool.and_eq_true] at ht
    exact storesAll hl hm ts vs ht.2 hw
  | .cpyable .vector i, vs, _, _ =>
    stores_vector hm (fixedWidth_int i) (fun e _ => stores_self e)
      (foldlM_pushBack hm [] vs)
  | .cpyable .basicString i, vs, ht, _ => by
    obtain rfl : i = .char := of_decide_eq_true ht
    exact stores_string hm vs (foldlM_pushBack hm [] vs)
  | .noncpyable .vector t, vs, ht, hw =>
    stores_vector hm (fixedWidth_convert t ht) (fun v hv => stores hl hm t v ht (hw.2 v hv))
      (foldlM_pushBack hm [] vs)
  | .map c k m, vs, ht, hw => by
    simp only [isConvertible, Bool.and_eq_true] at ht
    exact stores_ordered hm ((fixedWidth_convert k ht.1).pair (fixedWidth_convert m ht.2))
      (fun x y => hl.less_asymm c k x.1 y.1) hw.2.1 fun e he =>
        stores_pair (stores hl hm k e.1 ht.1 (hw.2.2 e he).1)
          (stores hl hm m e.2.1 ht.2 (hw.2.2 e he).2)
  | .set c k, vs, ht, hw =>
    stores_ordered hm (fixedWidth_convert k ht) (hl.less_asymm c k) hw.2.1 fun e he =>
      stores hl hm k e ht (hw.2.2 e he)
  | .unorderedMap h k m, s, ht, hw => by
    simp only [isConvertible, Bool.and_eq_true] at ht
    exact stores_table hm ((fixedWidth_convert k ht.1).pair (fixedWidth_convert m ht.2))
      (fun kv => env.hasher h k kv.1) (fun x y => hl.keyEq_symm h k x.1 y.1)
      (hl.iter_coe (.pair k m) s) hw.2.1 fun e he =>
        stores_pair (stores hl hm k e.1 ht.1 (hw.2.2 e he).1)
          (stores hl hm m e.2.1 ht.2 (hw.2.2 e he).2)
  | .unorderedSet h k, s, ht, hw =>
    stores_table hm (fixedWidth_convert k ht) (env.hasher h k) (hl.keyEq_symm h k) (hl.iter_coe k s)
      hw.2.1 fun e he => stores hl hm k e ht (hw.2.2 e he)
theorem storesAll (hl : env.toEnv.Lawful) (hm : ∀ n, env.alloc n = true) : ∀ (ts : Tys) (vs : Vals ts),
    areConvertible ts = true → WellFormedAll env.toEnv ts vs →
    Stores (bufferSizes env ts vs) (serializes env ts vs) (fun buf => deserializes env buf ts) vs
  | .nil, (), _, _ => stores_self ()
  | .cons t ts, (v, vs), ht, hw => by
    simp only [areConvertible, Bool.and_eq_true] at ht
    exact (stores hl hm t v ht.1 hw.1).bind (storesAll hl hm ts vs ht.2 hw.2)
end

/-! ## Round trip -/

/-- **Round trip.** While the stream keeps below `2 ^ 62` characters a value is written behind it, in
`bufferSize` bytes, and the view that is returned gives the value back from the stream and from every
buffer that has these bytes at the same offset. -/
theorem flat_roundTrip (hl : env.toEnv.Lawful) (hm : ∀ n, env.alloc n = true) (t : Ty) (v : Val t)
    (ht : isConvertible t = true) (hw : WellFormed env.toEnv t v) (streamable : Stream)
    (hroom : streamable.length + bufferSize env t v ≤ 2 ^ 62) :
    ∃ view app, serialize env t v streamable = .ok (view, streamable ++ app) ∧
      app.length = bufferSize env t v ∧ deserialize env (streamable ++ app) t view = .ok v ∧
      ∀ pre post, pre.length = streamable.length →
        deserialize env (pre ++ (app ++ post)) t view = .ok v := by
  obtain ⟨view, app, e, happ, hread⟩ := stores hl hm t v ht hw streamable hroom
  refine ⟨view, app, e, happ, ?_, hread⟩
  have h := hread streamable [] rfl
  rwa [List.append_nil] at h

noncomputable def intEnv : Env where
  toEnv := CompactSerializer.intEnv
  hasher _ _ _ := 0
  stringHash _ := 0

abbrev sampleTy : Ty := .map 0 (.int .uint8) (.optional (.cpyable .basicString .char))

/-- `{{1, "ab"}, {2, std::nullopt}}`. -/
def sampleMap : Val sampleTy := [(1#8, some [97#8, 98#8], ()), (2#8, none, ())]

theorem sampleMap_wellFormed : WellFormed intEnv.toEnv sampleTy sampleMap := by
  refine ⟨by decide, ?_, ?_⟩
  · simp [sampleMap, intEnv, CompactSerializer.intEnv]
  · refine List.forall_mem_cons.2 ⟨⟨trivial, fun v e => ?_⟩,
      List.forall_mem_singleton.2 ⟨trivial, fun v e => ?_⟩⟩
    · obtain rfl := Option.some.inj e
      exact (by decide : 2 * 1 < 2 ^ 64)
    · exact absurd e.symm (Option.some_ne_none v)

theorem flat_roundTrip_sample :
    ∃ view app, serialize intEnv sampleTy sampleMap [7] = .ok (view, [7] ++ app) ∧
      app.length = bufferSize intEnv sampleTy sampleMap ∧
      deserialize intEnv ([7] ++ app) sampleTy view = .ok sampleMap ∧
      ∀ pre post, pre.length = 1 →
        deserialize intEnv (pre ++ (app ++ post)) sampleTy view = .ok sampleMap :=
  flat_roundTrip intEnv_lawful (fun _ => rfl) sampleTy sampleMap (by decide +kernel)
    sampleMap_wellFormed [7] (by decide +kernel)

/-- There is no overload for a reflectible struct. -/
theorem flat_roundTrip_fails :
    ¬ ∀ (env : Env), env.toEnv.Lawful → (∀ n, env.alloc n = true) → ∀ (t : Ty) (v : Val t),
      WellFormed env.toEnv t v → ∃ view app, serialize env t v [] = .ok (view, app) ∧
        deserialize env app t view = .ok v := by
  intro hall
  obtain ⟨view, app, e, -⟩ := hall intEnv intEnv_lawful (fun _ => rfl)
    (.reflectible (.cons .bool .nil)) (true, ()) ⟨trivial, trivial⟩
  cases e

end DgBuf
