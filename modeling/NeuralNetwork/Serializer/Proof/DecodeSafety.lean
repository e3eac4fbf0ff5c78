import NeuralNetwork.Serializer.Proof.Duration

/-!
# Decoding untrusted bytes

`scan` goes through a buffer as the checked archives do, without values: it comes to the end of the
value, to a check that refuses it, or to a `Hazard`: a byte read as a `bool` that is neither zero nor
one, or a number of integers whose size in bytes wraps to one that is there. `mirrors`: by induction on
the type, the archives end where `scan` does. `decode_safe_iff`: they return or throw
`corrupted_format` exactly on the buffers in which `scan` meets no hazard.
-/

namespace CompactSerializer

open Cpp LittleEndian Loop Serializer

variable {env : Env} {h : Headers} {α β γ δ σ : Type}

/-! ## The scan -/

inductive Halt where
  | corrupted
  | hazard
deriving DecidableEq

/-- A scan of some bytes, which gives what it has read and the bytes behind it. -/
abbrev Scanned := Except Halt

def scanRead (n : Nat) (mem : List Byte) : Scanned (List Byte × List Byte) :=
  if n ≤ mem.length then .ok (mem.take n, mem.drop n) else .error .corrupted

def scanArith (h : Headers) (k : Kind) (n : Nat) (mem : List Byte) : Scanned (List Byte × List Byte) :=
  match h with
  | none => scanRead n mem
  | some header => do
    let (bs, rest) ← scanRead 1 mem
    if bs = [header k] then scanRead n rest else .error .corrupted

def scanHeader (h : Headers) (k : Kind) (mem : List Byte) : Scanned (List Byte) :=
  match h with
  | none => .ok mem
  | some header => do
    let (bs, rest) ← scanArith h (kindOf .uint8) 1 mem
    if bs = [header k] then .ok rest else .error .corrupted

def scanBool (h : Headers) (mem : List Byte) : Scanned (Bool × List Byte) := do
  let (bs, rest) ← scanArith h boolKind 1 mem
  if bs = [0] then .ok (false, rest)
  else if bs = [1] then .ok (true, rest)
  else .error .hazard

def scanSize (h : Headers) (size : IntSize) (mem : List Byte) : Scanned (Nat × List Byte) := do
  let (bs, rest) ← scanArith h (.int size false) size.bytes mem
  .ok (value bs, rest)

def scanWords (n sz : Nat) (mem : List Byte) : Scanned (Unit × List Byte) :=
  if mem.length < sizeT (sz * n) then .error .corrupted
  else if 2 ^ 64 ≤ sz * n then .error .hazard
  else .ok ((), mem.drop (sz * n))

def scanLoop (f : List Byte → Scanned (Unit × List Byte)) : Nat → List Byte → Scanned (Unit × List Byte)
  | 0, mem => .ok ((), mem)
  | n + 1, mem => do
    let (_, mem) ← f mem
    scanLoop f n mem

def scanContainer (h : Headers) (k : Kind) (size : IntSize) (f : List Byte → Scanned (Unit × List Byte))
    (mem : List Byte) : Scanned (Unit × List Byte) := do
  let mem ← scanHeader h k mem
  let (sz, mem) ← scanSize h size mem
  scanLoop f sz mem

def scanOption (h : Headers) (k : Kind) (f : List Byte → Scanned (Unit × List Byte)) (mem : List Byte) :
    Scanned (Unit × List Byte) := do
  let mem ← scanHeader h k mem
  let (status, mem) ← scanBool h mem
  if status then f mem else .ok ((), mem)

def scanPair (h : Headers) (f g : List Byte → Scanned (Unit × List Byte)) (mem : List Byte) :
    Scanned (Unit × List Byte) := do
  let mem ← scanHeader h .tuple mem
  let (_, mem) ← f mem
  g mem

def scanNumber (h : Headers) (k : Kind) (n : Nat) (mem : List Byte) : Scanned (Unit × List Byte) := do
  let (_, mem) ← scanArith h k n mem
  .ok ((), mem)

mutual
def scan (h : Headers) : Ty → List Byte → Scanned (Unit × List Byte)
  | .int i, mem => scanNumber h (kindOf i) i.size.bytes mem
  | .float size, mem => scanNumber h (.float size) size.bytes mem
  | .bool, mem => do
    let (_, mem) ← scanBool h mem
    .ok ((), mem)
  | .uniquePtr t, mem => scanOption h .uniquePtr (scan h t) mem
  | .optional t, mem => scanOption h .optional (scan h t) mem
  | .variant ts, mem => do
    let mem ← scanHeader h .variant mem
    let (index, mem) ← scanSize h .b1 mem
    if ts.length ≤ index then .error .corrupted else scanAlt h ts index mem
  | .expected t e, mem => do
    let mem ← scanHeader h .expected mem
    let (status, mem) ← scanBool h mem
    if status then scan h t mem else scan h e mem
  | .tuple ts, mem => do
    let mem ← scanHeader h .tuple mem
    scans h ts mem
  | .cpyable l i, mem => do
    let mem ← scanHeader h (.linear l) mem
    let mem ← scanHeader h (kindOf i) mem
    let (sz, mem) ← scanSize h .b8 mem
    scanWords i.size.bytes sz mem
  | .noncpyable l t, mem => scanContainer h (.linear l) .b8 (scan h t) mem
  | .map _ k m, mem => scanContainer h .map .b8 (scanPair h (scan h k) (scan h m)) mem
  | .set _ k, mem => scanContainer h .set .b8 (scan h k) mem
  | .unorderedMap _ k m, mem =>
    scanContainer h .unorderedMap .b8 (scanPair h (scan h k) (scan h m)) mem
  | .unorderedSet _ k, mem => scanContainer h .unorderedSet .b8 (scan h k) mem
  | .reflectible ts, mem => do
    let mem ← scanHeader h .reflectible mem
    scans h ts mem
  | .containerWrapper size t, mem => scanContainer h .containerWrapper size (scan h t) mem
def scans (h : Headers) : Tys → List Byte → Scanned (Unit × List Byte)
  | .nil, mem => .ok ((), mem)
  | .cons t ts, mem => do
    let (_, mem) ← scan h t mem
    scans h ts mem
def scanAlt (h : Headers) : Tys → Nat → List Byte → Scanned (Unit × List Byte)
  | .nil, _, mem => .ok ((), mem)
  | .cons t _, 0, mem => scan h t mem
  | .cons _ ts, n + 1, mem => scanAlt h ts n mem
end

/-! ## Ending alike -/

/-- The archive that has read the bytes `mem` ends as the scan of them: with a value related by `R`
and at least `m` bytes further, with `corrupted_format`, or otherwise at a hazard. -/
inductive Mirrors (R : α → β → Prop) (m : Nat) (mem : List Byte) :
    Res (α × Cursor) → Scanned (β × List Byte) → Prop
  | value {a : α} {b : β} {rest : List Byte} (hR : R a b) (hsuffix : rest <:+ mem)
      (hlen : rest.length + m ≤ mem.length) : Mirrors R m mem (.ok (a, ⟨rest, rest.length⟩)) (.ok (b, rest))
  | corrupted : Mirrors R m mem (throwExc .corruptedFormat) (.error .corrupted)
  | hazard {e : Stop} (he : e ≠ .thrown .corruptedFormat) : Mirrors R m mem (.error e) (.error .hazard)

abbrev Any : α → Unit → Prop := fun _ _ => True

variable {R : α → β → Prop} {m n : Nat} {mem : List Byte} {x : Res (α × Cursor)}
  {y : Scanned (β × List Byte)}

theorem Mirrors.extend {rest : List Byte} (hx : Mirrors R m rest x y) (hsuffix : rest <:+ mem)
    (hlen : rest.length + n ≤ mem.length) : Mirrors R (n + m) mem x y := by
  cases hx with
  | value hR hsuffix' hlen' => exact .value hR (hsuffix'.trans hsuffix) (by omega)
  | corrupted => exact .corrupted
  | hazard he => exact .hazard he

theorem Mirrors.bind {R' : γ → δ → Prop} {k : Nat} {f : α × Cursor → Res (γ × Cursor)}
    {g : β × List Byte → Scanned (δ × List Byte)} (hx : Mirrors R m mem x y)
    (hf : ∀ a b rest, R a b → rest.length + m ≤ mem.length →
      Mirrors R' k rest (f (a, ⟨rest, rest.length⟩)) (g (b, rest))) :
    Mirrors R' (m + k) mem (x >>= f) (y >>= g) := by
  cases hx with
  | value hR hsuffix hlen =>
    rw [ok_bind, ok_bind]
    exact (hf _ _ _ hR hlen).extend hsuffix hlen
  | corrupted => exact .corrupted
  | hazard he => exact .hazard he

theorem Mirrors.mono {m' : Nat} (hx : Mirrors R m mem x y) (hm : m' ≤ m) : Mirrors R m' mem x y := by
  cases hx with
  | value hR hsuffix hlen => exact .value hR hsuffix (by omega)
  | corrupted => exact .corrupted
  | hazard he => exact .hazard he

theorem Mirrors.forget (hx : Mirrors R m mem x y) :
    Mirrors Any m mem x (y >>= fun p => .ok ((), p.2)) := by
  cases hx with
  | value _ hsuffix hlen => exact .value trivial hsuffix hlen
  | corrupted => exact .corrupted
  | hazard he => exact .hazard he

theorem Mirrors.mapAny
    {y : Scanned (Unit × List Byte)} (hx : Mirrors Any m mem x y) (k : α → γ) :
    Mirrors Any m mem (x >>= fun p => .ok (k p.1, p.2)) y := by
  cases hx with
  | value _ hsuffix hlen => exact .value trivial hsuffix hlen
  | corrupted => exact .corrupted
  | hazard he => exact .hazard he

/-! ## Numbers and headers -/

abbrev Cursor.at (mem : List Byte) : Cursor := ⟨mem, mem.length⟩

theorem need_ok (hn : n ≤ mem.length) : need ⟨h, true⟩ (.at mem) n = .ok () :=
  if_neg fun hlt => absurd hlt.2 (Nat.not_lt.2 hn)

theorem need_throws (hn : mem.length < n) :
    need ⟨h, true⟩ (.at mem) n = throwExc .corruptedFormat := if_pos ⟨rfl, hn⟩

theorem read_ok (hn : n ≤ mem.length) :
    (Cursor.at mem).read n = .ok (mem.take n, .at (mem.drop n)) := by
  rw [Cursor.read, if_pos hn]
  exact congrArg (fun left => Except.ok (mem.take n, Cursor.mk (mem.drop n) left)) List.length_drop.symm

theorem mirrors_read (hn : n ≤ mem.length) :
    Mirrors Eq n mem ((Cursor.at mem).read n) (scanRead n mem) := by
  rw [read_ok hn, scanRead, if_pos hn]
  refine .value rfl (List.drop_suffix n mem) ?_
  rw [List.length_drop]
  omega

theorem mirrors_arith (h : Headers) (k : Kind) (n : Nat) (mem : List Byte) :
    Mirrors Eq n mem (getArith ⟨h, true⟩ k n (.at mem)) (scanArith h k n mem) := by
  unfold getArith scanArith
  cases h with
  | none =>
    by_cases hn : n ≤ mem.length
    · rw [need_ok hn, ok_bind]
      exact mirrors_read hn
    · rw [need_throws (by omega), scanRead, if_neg hn]
      exact .corrupted
  | some header =>
    dsimp only
    by_cases hn : n + 1 ≤ mem.length
    · have h1 : 1 ≤ mem.length := by omega
      have hrest : (mem.drop 1).length = mem.length - 1 := List.length_drop
      rw [need_ok hn, ok_bind, read_ok h1, scanRead, if_pos h1, ok_bind, ok_bind]
      by_cases hbs : mem.take 1 = [header k]
      · rw [if_pos hbs, if_pos hbs]
        exact ((mirrors_read (by omega)).extend (n := 1) (List.drop_suffix 1 mem) (by omega)).mono (by omega)
      · rw [if_neg hbs, if_neg hbs]
        exact .corrupted
    · rw [need_throws (by omega)]
      -- the scan comes to the end later
      have hshort : (scanRead 1 mem >>= fun x => if x.1 = [header k] then scanRead n x.2
          else .error .corrupted) = .error .corrupted := by
        unfold scanRead
        by_cases h1 : 1 ≤ mem.length
        · have hrest : ¬ n ≤ (mem.drop 1).length := by
            rw [List.length_drop]
            omega
          rw [if_pos h1, ok_bind]
          rw [if_neg hrest, ite_self]
        · rw [if_neg h1]
          rfl
      exact (congrArg (Mirrors Eq n mem _) hshort).mpr .corrupted

variable {g' : List Byte → Scanned (Unit × List Byte)} {g : List Byte → Scanned (β × List Byte)}
  {f' : Cursor → Res (β × Cursor)} {f : Cursor → Res (α × Cursor)} {ins : σ → α → Res σ}
  {count : σ → Nat} {buf : List Byte}

theorem mirrors_check (k : Kind) (expected : Byte)
    (hf : ∀ rest, rest.length ≤ mem.length → Mirrors R m rest (f (.at rest)) (g rest)) :
    Mirrors R m mem
      ((getArith ⟨h, true⟩ k 1 (.at mem) >>= fun x =>
        if x.1 = [expected] then .ok x.2 else throwExc .corruptedFormat) >>= f)
      ((scanArith h k 1 mem >>= fun x => if x.1 = [expected] then .ok x.2 else .error .corrupted) >>= g) := by
  have hnumber := mirrors_arith h k 1 mem
  generalize getArith _ _ _ _ = x at hnumber ⊢
  generalize scanArith _ _ _ _ = y at hnumber ⊢
  cases hnumber with
  | @value bs _ rest hR hsuffix hlen =>
    subst hR
    rw [ok_bind, ok_bind]
    by_cases hbs : bs = [expected]
    · rw [if_pos hbs, if_pos hbs]
      exact ((hf rest (by omega)).extend (n := 0) hsuffix (by omega)).mono (by omega)
    · rw [if_neg hbs, if_neg hbs]
      exact .corrupted
  | corrupted => exact .corrupted
  | hazard he => exact .hazard he

theorem mirrors_header (k : Kind)
    (hf : ∀ rest, rest.length ≤ mem.length → Mirrors R m rest (f (.at rest)) (g rest)) :
    Mirrors R m mem (getHeader ⟨h, true⟩ k (.at mem) >>= f) (scanHeader h k mem >>= g) := by
  cases h with
  | none => exact hf mem (Nat.le_refl _)
  | some header => exact mirrors_check (kindOf .uint8) (header k) hf

theorem mirrors_bool (mem : List Byte) : Mirrors Eq 1 mem (getBool ⟨h, true⟩ (.at mem)) (scanBool h mem) := by
  refine (mirrors_arith h boolKind 1 mem).bind (k := 0) ?_
  rintro bs _ rest rfl -
  dsimp only
  by_cases h0 : bs = [0]
  · rw [if_pos h0, if_pos h0]
    exact .value rfl List.suffix_rfl (Nat.le_refl _)
  · rw [if_neg h0, if_neg h0]
    by_cases h1 : bs = [1]
    · rw [if_pos h1, if_pos h1]
      exact .value rfl List.suffix_rfl (Nat.le_refl _)
    · rw [if_neg h1, if_neg h1]
      exact .hazard (by simp)

theorem mirrors_size (size : IntSize) (mem : List Byte) :
    Mirrors Eq size.bytes mem (getSize ⟨h, true⟩ size (.at mem)) (scanSize h size mem) := by
  refine (mirrors_arith h (.int size false) size.bytes mem).bind (k := 0) ?_
  rintro bs _ rest rfl -
  exact .value rfl List.suffix_rfl (Nat.le_refl _)

theorem mirrors_number (k : Kind) (mem : List Byte) (f : List Byte → α) :
    Mirrors Any n mem (getArith ⟨h, true⟩ k n (.at mem) >>= fun p => .ok (f p.1, p.2))
      (scanNumber h k n mem) := (mirrors_arith h k n mem).forget.mapAny f

/-! ## Values -/

/-- The values of a type that takes at least `m` bytes, out of at most `N`. -/
abbrev MirrorsUpTo (N m : Nat) (f : Cursor → Res (α × Cursor))
    (g : List Byte → Scanned (Unit × List Byte)) : Prop :=
  ∀ mem, mem.length ≤ N → Mirrors Any m mem (f (.at mem)) (g mem)

variable {N : Nat} {f : Cursor → Res (α × Cursor)} {g : List Byte → Scanned (Unit × List Byte)}

theorem mirrors_option (k : Kind) (hf : MirrorsUpTo N m f g) :
    MirrorsUpTo N 1 (getOption ⟨h, true⟩ k f) (scanOption h k g) := by
  intro mem hmem
  refine mirrors_header k fun rest hrest => ?_
  refine (mirrors_bool rest).bind (k := 0) ?_
  rintro status _ rest' rfl hlen
  cases status with
  | false => exact .value trivial List.suffix_rfl (Nat.le_refl _)
  | true => exact ((hf rest' (by omega)).mapAny some).mono (Nat.zero_le _)

theorem mirrors_pair {m' : Nat} (hf : MirrorsUpTo N m f g) (hf' : MirrorsUpTo N m' f' g') :
    MirrorsUpTo N (m + m') (getPair ⟨h, true⟩ f f') (scanPair h g g') := by
  intro mem hmem
  refine mirrors_header .tuple fun rest hrest => ?_
  refine (hf rest (by omega)).bind fun a _ rest' _ hlen => ?_
  exact (hf' rest' (by omega)).mapAny fun b => (a, b, ())

theorem mirrors_loop (hf : MirrorsUpTo N 1 f g)
    (hins : ∀ s e, count s + 1 ≤ N → ∃ s', ins s e = .ok s' ∧ count s' ≤ count s + 1) (n : Nat) (s : σ)
    (mem : List Byte) (hcount : count s + mem.length ≤ N) :
    Mirrors Any 0 mem (getLoop f ins n s (.at mem)) (scanLoop g n mem) := by
  induction n generalizing s mem with
  | zero => exact .value trivial List.suffix_rfl (Nat.le_refl _)
  | succ n ih =>
    refine Mirrors.mono ((hf mem (by omega)).bind (k := 0) fun e _ rest _ hlen => ?_) (Nat.zero_le _)
    obtain ⟨s', hs', hle⟩ := hins s e (by omega)
    dsimp only
    rw [hs', ok_bind]
    exact ih s' rest (by omega)

theorem mirrors_container (k : Kind) (size : IntSize) (canReserve : Bool) {empty : σ}
    (hf : MirrorsUpTo N 1 f g) (hempty : count empty = 0)
    (hins : ∀ s e, count s + 1 ≤ N → ∃ s', ins s e = .ok s' ∧ count s' ≤ count s + 1) :
    MirrorsUpTo N 1 (getContainer env ⟨h, true⟩ k size canReserve f ins empty)
      (scanContainer h k size g) := by
  intro mem hmem
  have hpos : 1 ≤ size.bytes := by cases size <;> decide
  refine mirrors_header k fun rest hrest => ?_
  refine Mirrors.mono ((mirrors_size size rest).bind (k := 0) ?_) hpos
  rintro sz _ rest' rfl hlen
  cases canReserve <;> exact mirrors_loop hf hins sz empty rest' (by omega)

theorem pushBack_ok (hm : ∀ n ≤ N, env.alloc n = true) (l : List α) (e : α) (hl : l.length + 1 ≤ N) :
    ∃ l', pushBack env l e = .ok l' ∧ l'.length ≤ l.length + 1 := by
  refine ⟨l ++ [e], ?_, by rw [List.length_append, List.length_singleton]⟩
  rw [pushBack, grow, if_pos (hm _ hl)]
  rfl

theorem length_insertSorted (less : α → α → Bool) (e : α) (l : List α) :
    (insertSorted less e l).length ≤ l.length + 1 := by
  induction l with
  | nil => exact Nat.le_refl _
  | cons x xs ih =>
    unfold insertSorted
    split
    · exact Nat.le_refl _
    · split
      · exact Nat.succ_le_succ ih
      · exact Nat.le_succ _

theorem insertOrdered_ok (hm : ∀ n ≤ N, env.alloc n = true) (less : α → α → Bool) (l : List α) (e : α)
    (hl : l.length + 1 ≤ N) :
    ∃ l', insertOrdered env less l e = .ok l' ∧ l'.length ≤ l.length + 1 := by
  refine ⟨insertSorted less e l, ?_, length_insertSorted less e l⟩
  rw [insertOrdered, grow, if_pos (hm _ hl)]
  rfl

theorem insertUnordered_ok (hm : ∀ n ≤ N, env.alloc n = true) (keyEq : α → α → Bool) (s : Multiset α) (e : α)
    (hs : Multiset.card s + 1 ≤ N) :
    ∃ s', insertUnordered env keyEq s e = .ok s' ∧ Multiset.card s' ≤ Multiset.card s + 1 := by
  refine ⟨if s.countP (fun x => keyEq x e) = 0 then e ::ₘ s else s, ?_, ?_⟩
  · rw [insertUnordered, grow, if_pos (hm _ hs)]
    rfl
  · split
    · rw [Multiset.card_cons]
    · exact Nat.le_succ _

/-- Integers as their raw bytes, of which a number that wraps is refused by the allocator. -/
theorem mirrors_words (hm : ∀ n ≤ N, env.alloc n = true) (hbig : ∀ n, 2 ^ 60 ≤ n → env.alloc n = false)
    (hn : 1 ≤ n ∧ n ≤ 16) (sz : Nat) (hmem : mem.length ≤ N) :
    Mirrors Any 0 mem (need ⟨h, true⟩ (.at mem) (sizeT (sz * n)) >>= fun _ => grow env sz >>= fun _ =>
      (Cursor.at mem).read (sizeT (sz * n)) >>= fun x => .ok (chunks n sz x.1, x.2))
      (scanWords n sz mem) := by
  unfold scanWords
  by_cases hshort : mem.length < sizeT (sz * n)
  · rw [if_pos hshort, need_throws hshort]
    exact .corrupted
  rw [if_neg hshort, need_ok (by omega), ok_bind]
  have hle : sz * n ≤ sz * 16 := Nat.mul_le_mul_left sz hn.2
  have hge : sz * 1 ≤ sz * n := Nat.mul_le_mul_left sz hn.1
  by_cases hwrap : 2 ^ 64 ≤ sz * n
  · rw [if_pos hwrap, grow, if_neg (by rw [hbig sz (by omega)]; exact Bool.false_ne_true)]
    exact .hazard (by simp)
  · rw [sizeT_of_lt (by omega)] at hshort ⊢
    rw [if_neg hwrap, grow, if_pos (hm sz (by omega)), read_ok (by omega)]
    refine .value trivial (List.drop_suffix _ mem) ?_
    rw [List.length_drop]
    omega

theorem mirrors_variant {s : Nat → List Byte → Scanned (Unit × List Byte)} {len : Nat}
    {get : Nat → Cursor → Res (Option α × Cursor)} (data : Option α)
    (halt : ∀ i < len, MirrorsUpTo N 0 (get i) (s i)) :
    MirrorsUpTo N 1 (fun cur => getHeader ⟨h, true⟩ .variant cur >>= fun cur =>
        getSize ⟨h, true⟩ .b1 cur >>= fun x => if (⟨h, true⟩ : Archive).checked ∧ len ≤ x.1 then
          throwExc .corruptedFormat >>= fun _ : Unit =>
            get x.1 x.2 >>= fun y => .ok (y.1.orElse fun _ => data, y.2)
        else get x.1 x.2 >>= fun y => .ok (y.1.orElse fun _ => data, y.2))
      (fun mem => scanHeader h .variant mem >>= fun mem => scanSize h .b1 mem >>= fun x =>
        if len ≤ x.1 then .error .corrupted else s x.1 x.2) := by
  intro mem hmem
  refine mirrors_header .variant fun rest hrest => ?_
  refine (mirrors_size .b1 rest).bind (k := 0) ?_
  rintro index _ rest' rfl hlen
  by_cases hindex : len ≤ index
  · rw [if_pos ⟨rfl, hindex⟩, if_pos hindex]
    exact .corrupted
  · rw [if_neg fun hn => hindex hn.2, if_neg hindex]
    exact (halt index (by omega) rest' (by omega)).mapAny fun a => a.orElse fun _ => data

theorem mirrors_expected (hf : MirrorsUpTo N 1 f g) (hf' : MirrorsUpTo N 1 f' g') :
    MirrorsUpTo N 1 (fun cur => getHeader ⟨h, true⟩ .expected cur >>= fun cur =>
        getBool ⟨h, true⟩ cur >>= fun x => if x.1 then f x.2 >>= fun x => .ok (Sum.inl x.1, x.2)
        else f' x.2 >>= fun x => .ok (Sum.inr x.1, x.2))
      (fun mem => scanHeader h .expected mem >>= fun mem => scanBool h mem >>= fun x =>
        if x.1 then g x.2 else g' x.2) := by
  intro mem hmem
  refine mirrors_header .expected fun rest hrest => ?_
  refine (mirrors_bool rest).bind (k := 0) ?_
  rintro status _ rest' rfl hlen
  cases status with
  | false => exact ((hf' rest' (by omega)).mapAny Sum.inr).mono (Nat.zero_le _)
  | true => exact ((hf rest' (by omega)).mapAny Sum.inl).mono (Nat.zero_le _)

/-! ## The induction on the type -/

-- the types of which the values can be counted, so that they can be written at all: a tuple and a
-- reflectible struct have a field, a variant no more alternatives than a `uint8_t` counts
mutual
def isSupported : Ty → Bool
  | .int _ => true
  | .float _ => true
  | .bool => true
  | .uniquePtr t => isSupported t
  | .optional t => isSupported t
  | .variant ts => 0 < ts.length && ts.length ≤ 256 && areSupported ts
  | .expected t e => isSupported t && isSupported e
  | .tuple ts => 0 < ts.length && areSupported ts
  | .cpyable _ _ => true
  | .noncpyable _ t => isSupported t
  | .map _ k m => isSupported k && isSupported m
  | .set _ k => isSupported k
  | .unorderedMap _ k m => isSupported k && isSupported m
  | .unorderedSet _ k => isSupported k
  | .reflectible ts => 0 < ts.length && areSupported ts
  | .containerWrapper _ t => isSupported t
def areSupported : Tys → Bool
  | .nil => true
  | .cons t ts => isSupported t && areSupported ts
end

theorem bytes_pos (size : IntSize) : 1 ≤ size.bytes ∧ size.bytes ≤ 16 := by
  cases size <;> decide

theorem mirrors_fields (k : Kind) {fs : Cursor → Res (σ × Cursor)} {gs : List Byte → Scanned (Unit × List Byte)}
    (hf : MirrorsUpTo N 1 fs gs) : MirrorsUpTo N 1 (fun cur => getHeader ⟨h, true⟩ k cur >>= fs)
      (fun mem => scanHeader h k mem >>= gs) := by
  intro mem hmem
  exact mirrors_header k fun rest hrest => hf rest (by omega)

mutual
theorem mirrors (h : Headers) (hm : ∀ n ≤ N, env.alloc n = true)
    (hbig : ∀ n, 2 ^ 60 ≤ n → env.alloc n = false) : ∀ (t : Ty) (data : Val t), isSupported t = true →
    MirrorsUpTo N 1 (get env ⟨h, true⟩ t data) (scan h t)
  | .int i, _, _ => fun mem _ => (mirrors_number (kindOf i) mem (load i.size.bytes)).mono (bytes_pos i.size).1
  | .float s, _, _ => fun mem _ => (mirrors_number (.float s) mem (load s.bytes)).mono (bytes_pos s).1
  | .bool, _, _ => fun mem _ => (mirrors_bool mem).forget
  | .uniquePtr t, _, ht => mirrors_option .uniquePtr (mirrors h hm hbig t (init t) ht)
  | .optional t, _, ht => mirrors_option .optional (mirrors h hm hbig t (init t) ht)
  | .tuple ts, data, ht => by
    simp only [isSupported, Bool.and_eq_true, decide_eq_true_eq] at ht
    exact mirrors_fields .tuple fun mem hmem => (mirrorsAll h hm hbig ts data ht.2 mem hmem).mono ht.1
  | .reflectible ts, data, ht => by
    simp only [isSupported, Bool.and_eq_true, decide_eq_true_eq] at ht
    exact mirrors_fields .reflectible fun mem hmem => (mirrorsAll h hm hbig ts data ht.2 mem hmem).mono ht.1
  | .variant ts, data, ht => by
    simp only [isSupported, Bool.and_eq_true, decide_eq_true_eq] at ht
    exact mirrors_variant data fun i hi => mirrorsAlt h hm hbig ts i ht.2 hi
  | .expected t e, _, ht => by
    simp only [isSupported, Bool.and_eq_true] at ht
    exact mirrors_expected (mirrors h hm hbig t (init t) ht.1) (mirrors h hm hbig e (init e) ht.2)
  | .cpyable l i, _, _ => fun mem hmem => by
    refine mirrors_header (.linear l) fun rest hrest => mirrors_header (kindOf i) fun rest' hrest' => ?_
    refine Mirrors.mono ((mirrors_size .b8 rest').bind (k := 0) ?_) (by decide)
    rintro sz _ rest'' rfl hlen
    exact mirrors_words hm hbig (bytes_pos i.size) sz (by omega)
  | .noncpyable l t, _, ht =>
    mirrors_container (.linear l) .b8 true (mirrors h hm hbig t (init t) ht) List.length_nil (pushBack_ok hm)
  | .containerWrapper size t, _, ht =>
    mirrors_container .containerWrapper size false (mirrors h hm hbig t (init t) ht) List.length_nil
      (pushBack_ok hm)
  | .set c k, _, ht =>
    mirrors_container .set .b8 false (mirrors h hm hbig k (init k) ht) List.length_nil
      (insertOrdered_ok hm (env.less c k))
  | .unorderedSet c k, _, ht =>
    mirrors_container .unorderedSet .b8 true (mirrors h hm hbig k (init k) ht) Multiset.card_zero
      (insertUnordered_ok hm (env.keyEq c k))
  | .map c k m, _, ht => by
    simp only [isSupported, Bool.and_eq_true] at ht
    have hpair := mirrors_pair (h := h) (mirrors h hm hbig k (init k) ht.1) (mirrors h hm hbig m (init m) ht.2)
    exact mirrors_container .map .b8 false (fun mem hmem => (hpair mem hmem).mono (by decide))
      List.length_nil (insertOrdered_ok hm fun x y : Val k × Val m × Unit => env.less c k x.1 y.1)
  | .unorderedMap c k m, _, ht => by
    simp only [isSupported, Bool.and_eq_true] at ht
    have hpair := mirrors_pair (h := h) (mirrors h hm hbig k (init k) ht.1) (mirrors h hm hbig m (init m) ht.2)
    exact mirrors_container .unorderedMap .b8 true (fun mem hmem => (hpair mem hmem).mono (by decide))
      Multiset.card_zero (insertUnordered_ok hm fun x y : Val k × Val m × Unit => env.keyEq c k x.1 y.1)
theorem mirrorsAll (h : Headers) (hm : ∀ n ≤ N, env.alloc n = true)
    (hbig : ∀ n, 2 ^ 60 ≤ n → env.alloc n = false) : ∀ (ts : Tys) (data : Vals ts),
    areSupported ts = true → MirrorsUpTo N ts.length (gets env ⟨h, true⟩ ts data) (scans h ts)
  | .nil, _, _ => fun _ _ => .value trivial List.suffix_rfl (Nat.le_refl _)
  | .cons t ts, (data, datas), ht => by
    simp only [areSupported, Bool.and_eq_true] at ht
    intro mem hmem
    have hfirst := mirrors h hm hbig t data ht.1 mem hmem
    refine Mirrors.mono (hfirst.bind (k := ts.length) fun v _ rest _ hlen => ?_) (by
      rw [Tys.length]
      omega)
    exact (mirrorsAll h hm hbig ts datas ht.2 rest (by omega)).mapAny fun vs => (v, vs)
theorem mirrorsAlt (h : Headers) (hm : ∀ n ≤ N, env.alloc n = true)
    (hbig : ∀ n, 2 ^ 60 ≤ n → env.alloc n = false) : ∀ (ts : Tys) (i : Nat), areSupported ts = true →
    i < ts.length → MirrorsUpTo N 0 (getAlt env ⟨h, true⟩ ts i) (scanAlt h ts i)
  | .nil, _, _, hi => absurd hi (Nat.not_lt_zero _)
  | .cons t ts, 0, ht, _ => fun mem hmem => by
    simp only [areSupported, Bool.and_eq_true] at ht
    exact ((mirrors h hm hbig t (init t) ht.1 mem hmem).mapAny fun v =>
      (some (Sum.inl v) : Option (Alts (.cons t ts)))).mono (Nat.zero_le _)
  | .cons t ts, i + 1, ht, hi => fun mem hmem => by
    simp only [areSupported, Bool.and_eq_true] at ht
    exact (mirrorsAlt h hm hbig ts i ht.2 (Nat.lt_of_succ_lt_succ hi) mem hmem).mapAny fun a =>
      (a.map Sum.inr : Option (Alts (.cons t ts)))
end

/-! ## Durations -/

/-- A number that no duration of the type has is a hazard. -/
def scanDuration (D : DurationType) (h : Headers) (mem : List Byte) : Scanned (Unit × List Byte) := do
  let mem ← (if h.isSome then do
      let (bs, mem) ← scanArith h (kindOf .uint8) 1 mem
      if bs = [durationHeader] then .ok mem else .error .corrupted
    else .ok mem)
  let (bs, mem) ← scanArith h tickKind 8 mem
  match durationCast D .serializable (load 8 bs).toInt with
  | .ok _ => .ok ((), mem)
  | .error _ => .error .hazard

theorem mirrors_tick (D : DurationType) (mem : List Byte) :
    Mirrors Any 8 mem (getArith ⟨h, true⟩ tickKind 8 (.at mem) >>= fun x =>
        safeDurationCast D .serializable (load 8 x.1).toInt >>= fun data => .ok (data, x.2))
      (scanArith h tickKind 8 mem >>= fun x =>
        match durationCast D .serializable (load 8 x.1).toInt with
        | .ok _ => .ok ((), x.2)
        | .error _ => .error .hazard) := by
  refine (mirrors_arith h tickKind 8 mem).bind (k := 0) ?_
  rintro bs _ rest rfl -
  rw [safeDurationCast_eq]
  cases durationCast D .serializable (load 8 bs).toInt with
  | ok d => exact .value trivial List.suffix_rfl (Nat.le_refl _)
  | error e => exact .hazard (by simp)

theorem mirrors_duration (D : DurationType) (mem : List Byte) :
    Mirrors Any 8 mem (getDuration D ⟨h, true⟩ (.at mem)) (scanDuration D h mem) := by
  cases h with
  | none => exact mirrors_tick D mem
  | some header =>
    unfold getDuration scanDuration
    simp only [Option.isSome_some, if_true]
    refine mirrors_check (kindOf .uint8) durationHeader fun rest _ => ?_
    exact mirrors_tick D rest

/-! ## Safety -/

/-- The archive returns a value and the bytes behind it, all of which are left, or it throws
`corrupted_format`. -/
def Safe (buf : List Byte) (x : Res (α × Cursor)) : Prop :=
  (∃ v rest, x = .ok (v, .at rest) ∧ rest <:+ buf) ∨ x = throwExc .corruptedFormat

theorem Mirrors.safe_iff (hx : Mirrors R m buf x y) : Safe buf x ↔ y ≠ .error .hazard := by
  cases hx with
  | value _ hsuffix _ => exact ⟨fun _ => nofun, fun _ => .inl ⟨_, _, rfl, hsuffix⟩⟩
  | corrupted => exact ⟨fun _ => nofun, fun _ => .inr rfl⟩
  | hazard he =>
    refine ⟨fun hsafe => ?_, fun hne => absurd rfl hne⟩
    rcases hsafe with ⟨v, rest, e, -⟩ | e
    · cases e
    · exact absurd (Except.error.inj e) he

/-- **The checked archives are safe** exactly on the buffers in which the scan meets no hazard: with
memory for as many elements as there are bytes, and none for `2 ^ 60` elements, they return a value and
what is left of the buffer, or throw `corrupted_format`. -/
theorem decode_safe_iff (buf : List Byte) (hm : ∀ n ≤ buf.length, env.alloc n = true)
    (hbig : ∀ n, 2 ^ 60 ≤ n → env.alloc n = false) :
    (∀ (t : Ty) (data : Val t), isSupported t = true →
      (Safe buf (SafeBackward.put env t data (.at buf)) ↔ scan none t buf ≠ .error .hazard) ∧
      (Safe buf (DgStdBackward.put env t data (.at buf)) ↔
        scan (some getDgstdSerializationHeader) t buf ≠ .error .hazard)) ∧
    ∀ (D : DurationType) (h : Headers),
      Safe buf (getDuration D ⟨h, true⟩ (.at buf)) ↔ scanDuration D h buf ≠ .error .hazard := by
  refine ⟨fun t data ht => ⟨?_, ?_⟩, fun D h => (mirrors_duration D buf).safe_iff⟩
  · exact (mirrors none hm hbig t data ht buf (Nat.le_refl _)).safe_iff
  · exact (mirrors (some getDgstdSerializationHeader) hm hbig t data ht buf (Nat.le_refl _)).safe_iff

noncomputable def boundedEnv : Env where
  less _ _ _ _ := false
  keyEq _ _ _ _ := false
  iter _ s := Multiset.toList s
  alloc n := decide (n < 2 ^ 60)

theorem boundedEnv_alloc (hn : 2 ^ 60 ≤ n) : boundedEnv.alloc n = false :=
  decide_eq_false (Nat.not_lt.2 hn)

theorem boundedEnv_alloc_le (hbuf : buf.length < 2 ^ 60) (n : Nat) (hn : n ≤ buf.length) :
    boundedEnv.alloc n = true := decide_eq_true (Nat.lt_of_le_of_lt hn hbuf)

/-- An optional of which the value is cut off. -/
theorem decode_safe_iff_sample :
    Safe [1, 5] (SafeBackward.put boundedEnv (.optional (.int .uint16)) none (.at [1, 5])) := by
  obtain ⟨hall, -⟩ := decode_safe_iff [1, 5] (boundedEnv_alloc_le (by decide)) fun n => boundedEnv_alloc
  exact (hall (.optional (.int .uint16)) none rfl).1.2 (by decide)

/-- `2 ^ 63` numbers of two bytes take no bytes, and the flag 2 is no `bool`. -/
theorem decode_safe_fails :
    (¬ ∀ (env : Env) (buf : List Byte), (∀ n ≤ buf.length, env.alloc n = true) →
      (∀ n, 2 ^ 60 ≤ n → env.alloc n = false) → ∀ (t : Ty) (data : Val t), isSupported t = true →
      Safe buf (SafeBackward.put env t data (.at buf))) ∧
    SafeBackward.put boundedEnv (.cpyable .vector .uint16) [] (.at [0, 0, 0, 0, 0, 0, 0, 128]) =
      throwExc .badAlloc ∧
    SafeBackward.put boundedEnv .bool false (.at [2]) = .error (.fault .undefined) := by
  have hwrap : SafeBackward.put boundedEnv (.cpyable .vector .uint16) [] (.at [0, 0, 0, 0, 0, 0, 0, 128]) =
      throwExc .badAlloc := rfl
  refine ⟨fun hall => ?_, hwrap, rfl⟩
  have hsafe := hall boundedEnv [0, 0, 0, 0, 0, 0, 0, 128] (boundedEnv_alloc_le (by decide))
    (fun n => boundedEnv_alloc) (.cpyable .vector .uint16) [] rfl
  rw [hwrap] at hsafe
  rcases hsafe with ⟨v, rest, e, -⟩ | e <;> cases e

end CompactSerializer
