import Mathlib.Data.Multiset.Pairwise
import NeuralNetwork.Serializer.Proof.DgBuf

/-!
# Lookup in the flat hash containers

`findLoop_ok`: the loop of `find` is a search of the table that was written. `lookup_iff`: it gives the
entry of a key, if there is one, exactly if the equality of the view agrees with that of the container
and the entry is reached from the slot of the view's hash, as it is if that hash agrees with the
container's. They agree unless the keys are strings (`customHasher_eq`).
-/

namespace DgBuf

open Cpp LittleEndian Loop Serializer LinearProbing
open CompactSerializer (Res HasValues WellFormed)
open TrivialSerializer (size)

variable {env : Env} {α β : Type}

/-! ## The loop -/

variable {s : Multiset α} {h : Nat} {eq p : α → Bool} {g : β → Res α} {k : Ty}

theorem deserializeOption_none {w : Option β} (h : deserializeOption g w = .ok none) :
    w = none := by
  cases w with
  | none => rfl
  | some w =>
    obtain ⟨x, -, h⟩ := bind_eq_ok h
    cases h

theorem deserializeOption_some {w : Option β} {x : α} (h : deserializeOption g w = .ok (some x)) :
    ∃ w', w = some w' ∧ g w' = .ok x := by
  cases w with
  | none => cases h
  | some w =>
    obtain ⟨y, e, h⟩ := bind_eq_ok h
    obtain rfl := Option.some.inj (Except.ok.inj h)
    exact ⟨w, rfl, e⟩

variable {table : List (Option α)}

/-- **The loop of `find`** searches the table that the buckets hold. -/
theorem findLoop_ok {e : Nat} (he : e < 64) (hlen : table.length = 2 ^ e)
    {bucket : Nat → Res (Option β)} {keyEq : β → Res Bool} {p : α → Bool}
    (hbucket : ∀ j o, table[j]? = some o → ∃ w, bucket j = .ok w ∧ deserializeOption g w = .ok o)
    (hkeyEq : ∀ w x, g w = .ok x → keyEq w = .ok (p x)) (h n i : Nat) :
    ∃ w, findLoop bucket keyEq h table.length n i = .ok w ∧
      deserializeOption g w = .ok (probe table p h n i) := by
  induction n generalizing i with
  | zero => exact ⟨none, rfl, rfl⟩
  | succ n ih =>
    have hslot : bitwiseAndKeyToIdx (sizeT (h + i)) table.length = (h + i) % table.length := by
      rw [hlen, bitwiseAndKeyToIdx_eq he]
    have hlt : (h + i) % table.length < table.length := by
      refine Nat.mod_lt _ ?_
      rw [hlen]
      exact Nat.two_pow_pos e
    have hat : probed table h i = some (table.get ⟨_, hlt⟩) := List.getElem?_eq_getElem hlt
    obtain ⟨w, hw, hg⟩ := hbucket _ _ hat
    rw [findLoop, probe, hslot, hw, ok_bind, hat]
    cases ho : table.get ⟨_, hlt⟩ with
    | none =>
      rw [ho] at hg
      obtain rfl := deserializeOption_none hg
      exact ⟨none, rfl, rfl⟩
    | some x =>
      rw [ho] at hg
      obtain ⟨w', rfl, hx⟩ := deserializeOption_some hg
      dsimp only
      rw [hkeyEq w' x hx, ok_bind]
      by_cases hp : p x = true
      · rw [if_pos hp, if_pos hp]
        exact ⟨some w', rfl, hg⟩
      · rw [if_neg hp, if_neg hp]
        exact ih (i + 1)

theorem get_ok {t : Ty} {g : Val t → Res α} {buf : List Byte} {view : Val vectorView} {es : List α}
    (hsz : BitVec.toNat view.2.1 = es.length) (hes : Elems t g buf (BitVec.toNat view.1) es) (j : Nat)
    (o : α) (ho : es[j]? = some o) : ∃ w, get buf t view j = .ok w ∧ g w = .ok o := by
  have hlt : j < es.length := (List.getElem?_eq_some_iff.1 ho).1
  obtain ⟨w, hread, hg⟩ := hes j o ho
  refine ⟨w, ?_, hg⟩
  rw [get, if_pos (by omega), Nat.mul_comm j]
  exact hread

/-! ## Keys -/

theorem customHasher_eq (hk : ∀ i, k ≠ .cpyable .basicString i) (key : Val k) :
    customHasher env h k key = env.hasher h k key := by
  unfold customHasher
  split
  · exact absurd rfl (hk _)
  · rfl

theorem customEqualTo_eq (hk : ∀ i, k ≠ .cpyable .basicString i) (x y : Val k) :
    customEqualTo env h k x y = env.keyEq h k x y := by
  unfold customEqualTo
  split
  · exact absurd rfl (hk _)
  · rfl

theorem flatMap_dump_inj {n : Nat} (hn : 0 < n) {vs ws : List (BitVec (8 * n))}
    (h : vs.flatMap (dump n) = ws.flatMap (dump n)) : vs = ws := by
  have hlen := congrArg List.length h
  rw [length_flatMap_dump, length_flatMap_dump] at hlen
  have hcount : vs.length = ws.length := Nat.eq_of_mul_eq_mul_right hn hlen
  rw [← chunks_flatMap vs, h, hcount, chunks_flatMap]

theorem eq_of_customEqualTo {i : IntType} {x y : Val (.cpyable .basicString i)}
    (hxy : customEqualTo env h (.cpyable .basicString i) x y = true) : x = y := by
  have hbytes : x.flatMap (dump i.size.bytes) = y.flatMap (dump i.size.bytes) := eq_of_beq hxy
  exact flatMap_dump_inj (by cases i.size <;> decide) hbytes

theorem keyEq_of_customEqualTo (hrefl : ∀ x, env.keyEq h k x x = true) {x y : Val k}
    (hxy : customEqualTo env h k x y = true) : env.keyEq h k x y = true := by
  by_cases hk : ∃ i, k = .cpyable .basicString i
  · obtain ⟨i, rfl⟩ := hk
    rw [eq_of_customEqualTo hxy]
    exact hrefl y
  · rwa [customEqualTo_eq (fun i e => hk ⟨i, e⟩)] at hxy

/-- What an unordered container asks of its hasher and its key equality. -/
structure HashLawful (env : Env) (h : Nat) (k : Ty) : Prop where
  refl : ∀ x, env.keyEq h k x x = true
  trans : ∀ x y z, env.keyEq h k x y = true → env.keyEq h k y z = true → env.keyEq h k x z = true
  hash : ∀ x y, env.keyEq h k x y = true → env.hasher h k x = env.hasher h k y

/-! ## Searching a table -/

def Finds (s : Multiset α) (eq : α → Bool) (r : Option α) : Prop := ∀ e, r = some e ↔ e ∈ s ∧ eq e = true

/-- `p` agrees with `eq` on the entries, and the one that it holds of is reached. -/
def Agrees (s : Multiset α) (eq p : α → Bool) (table : List (Option α)) (h n : Nat) : Prop :=
  (∀ e ∈ s, p e = eq e) ∧ ∀ e ∈ s, eq e = true → Reaches table h n e

/-- **A search finds** the entries that `eq` holds of exactly if it agrees with it. -/
theorem finds_probe_iff (hs : (table.reduceOption : Multiset α) = s)
    (hpeq : ∀ e, p e = true → eq e = true) (huniq : ∀ x ∈ s, ∀ y ∈ s, eq x = true → eq y = true → x = y)
    (h n : Nat) :
    Finds s eq (probe table p h n 0) ↔ Agrees s eq p table h n := by
  have hmem : ∀ e, e ∈ table.reduceOption ↔ e ∈ s := by
    intro e
    rw [← hs, Multiset.mem_coe]
  constructor
  · intro hfinds
    refine ⟨fun e he => ?_, fun e he heq => (reaches_of_probe ((hfinds e).2 ⟨he, heq⟩)).2⟩
    cases heq : eq e with
    | true => exact (reaches_of_probe ((hfinds e).2 ⟨he, heq⟩)).1
    | false =>
      cases hp : p e with
      | false => rfl
      | true => rw [hpeq e hp] at heq; cases heq
  · rintro ⟨hagree, hreach⟩ e
    constructor
    · intro hprobe
      obtain ⟨hp, hr⟩ := reaches_of_probe hprobe
      exact ⟨(hmem e).1 hr.mem, hpeq e hp⟩
    · rintro ⟨he, heq⟩
      have hp : p e = true := (hagree e he).trans heq
      refine (hreach e he heq).probe_eq hp fun x hx hpx => ?_
      exact huniq x ((hmem x).1 hx) e he (hpeq x hpx) heq

theorem agrees_of_hash {home : α → Nat} (hp : Placed home table)
    (hs : (table.reduceOption : Multiset α) = s) {h n : Nat}
    (hhash : ∀ e ∈ s, eq e = true → h % table.length = home e % table.length) (hn : Multiset.card s ≤ n)
    (heq : ∀ e ∈ s, p e = eq e) : Agrees s eq p table h n := by
  refine ⟨heq, fun e he h => hp.reaches ?_ (hhash e he h) ?_⟩
  · rw [← Multiset.mem_coe, hs]
    exact he
  · rw [← hs, Multiset.coe_card] at hn
    exact hn

theorem exists_finds_iff {ser : Res (Val sizedView × Stream)} {view : Val sizedView} {buf : Stream}
    {flat : Res (List (Option α))} {find : List Byte → Val sizedView → Res (Option α)}
    (bound : List (Option α) → Nat) (hser : ser = .ok (view, buf)) (hflat : flat = .ok table)
    (hfind : find buf view = .ok (probe table p h (bound table) 0))
    (hs : (table.reduceOption : Multiset α) = s) (hpeq : ∀ e, p e = true → eq e = true)
    (huniq : ∀ x ∈ s, ∀ y ∈ s, eq x = true → eq y = true → x = y) :
    (∃ view buf r, ser = .ok (view, buf) ∧ find buf view = .ok r ∧ Finds s eq r) ↔
      ∃ table, flat = .ok table ∧ Agrees s eq p table h (bound table) := by
  have hiff := finds_probe_iff hs hpeq huniq h (bound table)
  constructor
  · rintro ⟨view', buf', r, hser', hfind', hr⟩
    obtain ⟨rfl, rfl⟩ := Prod.ext_iff.1 (Except.ok.inj (hser.symm.trans hser'))
    obtain rfl := Except.ok.inj (hfind.symm.trans hfind')
    exact ⟨table, hflat, hiff.1 hr⟩
  · rintro ⟨table', hflat', hagrees⟩
    obtain rfl := Except.ok.inj (hflat.symm.trans hflat')
    exact ⟨view, buf, _, hser, hfind, hiff.2 hagrees⟩

theorem eq_of_keyEq (hl : env.toEnv.Lawful) (hh : HashLawful env h k) (fst : α → Val k)
    (hs : s.Pairwise fun x y => env.keyEq h k (fst x) (fst y) = false) (key : Val k) :
    ∀ x ∈ s, ∀ y ∈ s, env.keyEq h k key (fst x) = true →
      env.keyEq h k key (fst y) = true → x = y := by
  intro x hx y hy hkx hky
  by_contra hne
  have hsymm : Std.Symm fun x y => env.keyEq h k (fst x) (fst y) = false :=
    ⟨fun x y e => (hl.keyEq_symm h k _ _).trans e⟩
  have hfalse := Multiset.Pairwise.forall hs hx hy hne
  rw [hl.keyEq_symm] at hkx
  rw [hh.trans _ _ _ hkx hky] at hfalse
  cases hfalse

/-! ## The views -/

section Views

variable {h : Nat} {k m : Ty}

variable {s : Multiset (Val k × Val m × Unit)} {view : Val sizedView} {streamable : Stream}
  {buf : List Byte}

theorem findMap_ok {e : Nat} (he : e < 64) {table : List (Option (Val k × Val m × Unit))}
    (hlen : table.length = 2 ^ e) (hsz : BitVec.toNat view.1.2.1 = table.length)
    (hes : Elems (.optional (.pair (convert k) (convert m)))
      (deserializeOption (deserializePair (deserialize env buf k) (deserialize env buf m))) buf
      (BitVec.toNat view.1.1) table) (key : Val k) :
    findMap env buf h k m view key = .ok (probe table (fun kv => customEqualTo env h k key kv.1)
      (customHasher env h k key) table.length 0) := by
  have hkeyEq : ∀ (w : Val (.pair (convert k) (convert m))) (x : Val k × Val m × Unit),
      deserializePair (deserialize env buf k) (deserialize env buf m) w = .ok x →
      (deserialize env buf k w.1 >>= fun first => Except.ok (customEqualTo env h k key first)) =
        .ok (customEqualTo env h k key x.1) := by
    intro w x hx
    obtain ⟨a, ha, hx⟩ := bind_eq_ok hx
    obtain ⟨b, -, hx⟩ := bind_eq_ok hx
    obtain rfl := Except.ok.inj hx
    rw [ha, ok_bind]
  obtain ⟨w, hloop, hg⟩ := findLoop_ok he hlen (get_ok hsz hes) hkeyEq (customHasher env h k key)
    table.length 0
  unfold findMap
  rw [hsz]
  exact (congrArg (· >>= _) hloop).trans hg

theorem findSet_ok {e : Nat} (he : e < 64) {table : List (Option (Val k))} (hlen : table.length = 2 ^ e)
    {sz : Nat} (hsz : BitVec.toNat view.1.2.1 = table.length) (hcard : BitVec.toNat view.2.1 = sz)
    (hes : Elems (.optional (convert k)) (deserializeOption (deserialize env buf k)) buf
      (BitVec.toNat view.1.1) table) (key : Val k) :
    findSet env buf h k view key =
      .ok (probe table (customEqualTo env h k key) (customHasher env h k key) sz 0) := by
  have hkeyEq : ∀ (w : Val (convert k)) (x : Val k), deserialize env buf k w = .ok x →
      (deserialize env buf k w >>= fun e => Except.ok (customEqualTo env h k key e)) =
        .ok (customEqualTo env h k key x) := by
    intro w x hx
    rw [hx, ok_bind]
  obtain ⟨w, hloop, hg⟩ := findLoop_ok he hlen (get_ok hsz hes) hkeyEq (customHasher env h k key) sz 0
  unfold findSet
  rw [hsz, hcard]
  exact (congrArg (· >>= _) hloop).trans hg

/-- The entry of `key`, if it has one, is found in the view of an unordered map. -/
def MapFinds (env : Env) (h : Nat) (k m : Ty) (s : Multiset (Val k × Val m × Unit)) (key : Val k)
    (streamable : Stream) : Prop :=
  ∃ view buf r, serialize env (.unorderedMap h k m) s streamable = .ok (view, buf) ∧
    findMap env buf h k m view key = .ok r ∧ Finds s (fun kv => env.keyEq h k key kv.1) r

/-- The element equal to `key`, if there is one, is found in the view of an unordered set. -/
def SetFinds (env : Env) (h : Nat) (k : Ty) (s : Multiset (Val k)) (key : Val k)
    (streamable : Stream) : Prop :=
  ∃ view buf r, serialize env (.unorderedSet h k) s streamable = .ok (view, buf) ∧
    findSet env buf h k view key = .ok r ∧ Finds s (env.keyEq h k key) r

/-- The view compares `key` with the entries as the map does, and reaches the one of `key` from the
slot of its own hash. -/
def MapAgrees (env : Env) (h : Nat) (k m : Ty) (s : Multiset (Val k × Val m × Unit)) (key : Val k) : Prop :=
  ∃ table, flatten env (fun kv => env.hasher h k kv.1) (env.iter (.pair k m) s) = .ok table ∧
    Agrees s (fun kv => env.keyEq h k key kv.1) (fun kv => customEqualTo env h k key kv.1) table
      (customHasher env h k key) table.length

/-- The same of a set, of which only as many slots are probed as there are elements. -/
def SetAgrees (env : Env) (h : Nat) (k : Ty) (s : Multiset (Val k)) (key : Val k) : Prop :=
  ∃ table, flatten env (env.hasher h k) (env.iter k s) = .ok table ∧
    Agrees s (env.keyEq h k key) (customEqualTo env h k key) table (customHasher env h k key)
      (Multiset.card s)

theorem mapFinds_iff (hl : env.toEnv.Lawful) (hm : ∀ n, env.alloc n = true) (hh : HashLawful env h k)
    (hk : isConvertible k = true) (hmapped : isConvertible m = true)
    (hw : WellFormed env.toEnv (.unorderedMap h k m) s) (key : Val k)
    (hroom : streamable.length + bufferSize env (.unorderedMap h k m) s ≤ 2 ^ 62) :
    MapFinds env h k m s key streamable ↔ MapAgrees env h k m s key := by
  obtain ⟨kvs, hkvs⟩ : ∃ kvs : List (Val k × Val m × Unit), kvs = env.iter (.pair k m) s := ⟨_, rfl⟩
  have hcoe : (kvs : Multiset (Val k × Val m × Unit)) = s := hkvs ▸ hl.iter_coe (.pair k m) s
  have hstores : ∀ e ∈ kvs, Stores (pairSize (bufferSize env k) (bufferSize env m) e)
      (serializePair (serialize env k) (serialize env m) e)
      (fun buf => deserializePair (deserialize env buf k) (deserialize env buf m)) e := by
    intro e he
    have hwe := hw.2.2 e (hcoe ▸ Multiset.mem_coe.2 he)
    exact stores_pair (stores hl hm k e.1 hk hwe.1) (stores hl hm m e.2.1 hmapped hwe.2)
  have hsize : bufferSize env (.unorderedMap h k m) s = tableSize (.pair (convert k) (convert m))
      (pairSize (bufferSize env k) (bufferSize env m)) kvs := by
    rw [hkvs]
    rfl
  rw [hsize] at hroom
  obtain ⟨table, view, app, hflat, hser, -, hperm, -, ⟨e, he, hpow⟩, -, hdata, hview, -, helems⟩ :=
    serializeTable_ok hm ((fixedWidth_convert k hk).pair (fixedWidth_convert m hmapped))
      (fun kv => env.hasher h k kv.1) hstores (congrArg Multiset.card hcoe) hroom
  have hread := helems streamable [] rfl
  rw [List.append_nil, ← hdata] at hread
  have hfind := findMap_ok (h := h) he hpow hview hread key
  have hser' : serialize env (.unorderedMap h k m) s streamable = .ok (view, streamable ++ app) := by
    have hbind := hflat
    rw [hkvs] at hbind
    exact (congrArg (· >>= _) hbind).trans hser
  rw [hkvs] at hflat hperm hcoe
  exact exists_finds_iff List.length hser' hflat hfind ((Multiset.coe_eq_coe.2 hperm).trans hcoe)
    (fun kv => keyEq_of_customEqualTo hh.refl)
    (eq_of_keyEq hl hh (fun kv : Val k × Val m × Unit => kv.1) hw.2.1 key)

theorem setFinds_iff (hl : env.toEnv.Lawful) (hm : ∀ n, env.alloc n = true) (hh : HashLawful env h k)
    (hk : isConvertible k = true) {s : Multiset (Val k)}
    (hw : WellFormed env.toEnv (.unorderedSet h k) s) (key : Val k)
    (hroom : streamable.length + bufferSize env (.unorderedSet h k) s ≤ 2 ^ 62) :
    SetFinds env h k s key streamable ↔ SetAgrees env h k s key := by
  have hcoe : (env.iter k s : Multiset (Val k)) = s := hl.iter_coe k s
  have hstores : ∀ e ∈ env.iter k s, Stores (bufferSize env k e) (serialize env k e)
      (fun buf => deserialize env buf k) e := fun e he =>
    stores hl hm k e hk (hw.2.2 e (hcoe ▸ Multiset.mem_coe.2 he))
  obtain ⟨table, view, app, hflat, hser, -, hperm, -, ⟨e, he, hpow⟩, -, hdata, hview, hcard, helems⟩ :=
    serializeTable_ok hm (fixedWidth_convert k hk) (env.hasher h k) hstores
      (congrArg Multiset.card hcoe) hroom
  have hread := helems streamable [] rfl
  rw [List.append_nil, ← hdata] at hread
  have hfind := findSet_ok (h := h) he hpow hview hcard hread key
  have hser' : serialize env (.unorderedSet h k) s streamable = .ok (view, streamable ++ app) :=
    (congrArg (· >>= _) hflat).trans hser
  exact exists_finds_iff (fun _ => Multiset.card s) hser' hflat hfind
    ((Multiset.coe_eq_coe.2 hperm).trans hcoe) (fun e => keyEq_of_customEqualTo hh.refl)
    (eq_of_keyEq hl hh id hw.2.1 key)

theorem mapAgrees_of_hash (hl : env.toEnv.Lawful) (hm : ∀ n, env.alloc n = true)
    (hh : HashLawful env h k) (hcap : bucketCount (Multiset.card s) ≤ 2 ^ 62) {key : Val k}
    (hhash : customHasher env h k key % bucketCount (Multiset.card s) =
      env.hasher h k key % bucketCount (Multiset.card s))
    (heq : ∀ kv ∈ s, customEqualTo env h k key kv.1 = env.keyEq h k key kv.1) :
    MapAgrees env h k m s key := by
  have hcoe : (env.iter (.pair k m) s : Multiset (Val (.pair k m))) = s := hl.iter_coe (.pair k m) s
  have hcard : (env.iter (.pair k m) s).length = Multiset.card s := congrArg Multiset.card hcoe
  rw [← hcard] at hcap hhash
  obtain ⟨table, hflat, hp, hlen, -, hperm⟩ := flatten_ok hm (fun kv => env.hasher h k kv.1) hcap
  have hs := (Multiset.coe_eq_coe.2 hperm).trans hcoe
  refine ⟨table, hflat, agrees_of_hash hp hs ?_ ?_ heq⟩
  · intro e _ hkey
    rw [hlen, hhash, hh.hash key e.1 hkey]
  · rw [← hs, Multiset.coe_card]
    exact table.reduceOption_length_le

theorem setAgrees_of_hash (hl : env.toEnv.Lawful) (hm : ∀ n, env.alloc n = true) (hh : HashLawful env h k)
    {s : Multiset (Val k)} (hcap : bucketCount (Multiset.card s) ≤ 2 ^ 62) {key : Val k}
    (hhash : customHasher env h k key % bucketCount (Multiset.card s) =
      env.hasher h k key % bucketCount (Multiset.card s))
    (heq : ∀ e ∈ s, customEqualTo env h k key e = env.keyEq h k key e) : SetAgrees env h k s key := by
  have hcoe : (env.iter k s : Multiset (Val k)) = s := hl.iter_coe k s
  have hcard : (env.iter k s).length = Multiset.card s := congrArg Multiset.card hcoe
  rw [← hcard] at hcap hhash
  obtain ⟨table, hflat, hp, hlen, -, hperm⟩ := flatten_ok hm (env.hasher h k) hcap
  refine ⟨table, hflat, agrees_of_hash hp ((Multiset.coe_eq_coe.2 hperm).trans hcoe) ?_ (Nat.le_refl _) heq⟩
  intro e _ hkey
  rw [hlen, hhash, hh.hash key e hkey]

end Views

/-- The hash of the view is the container's, up to whole rounds of the table of `n` entries. -/
def HashAgrees (env : Env) (h : Nat) (k : Ty) (key : Val k) (n : Nat) : Prop :=
  customHasher env h k key % bucketCount n = env.hasher h k key % bucketCount n

/-- **A key is looked up in a hash view as in its container** exactly if the view compares it with the
entries as the container does and reaches the one that is equal; this is so if the two hashes agree,
and keys that are no strings are hashed and compared alike. -/
theorem lookup_iff (hl : env.toEnv.Lawful) (hm : ∀ n, env.alloc n = true) {h : Nat} {k : Ty}
    (hh : HashLawful env h k) (hk : isConvertible k = true) :
    (∀ (m : Ty) (s : Multiset (Val k × Val m × Unit)) (key : Val k) (streamable : Stream),
      isConvertible m = true → WellFormed env.toEnv (.unorderedMap h k m) s →
      streamable.length + bufferSize env (.unorderedMap h k m) s ≤ 2 ^ 62 →
      (MapFinds env h k m s key streamable ↔ MapAgrees env h k m s key) ∧
      (HashAgrees env h k key (Multiset.card s) →
        (∀ kv ∈ s, customEqualTo env h k key kv.1 = env.keyEq h k key kv.1) →
        MapAgrees env h k m s key)) ∧
    (∀ (s : Multiset (Val k)) (key : Val k) (streamable : Stream),
      WellFormed env.toEnv (.unorderedSet h k) s →
      streamable.length + bufferSize env (.unorderedSet h k) s ≤ 2 ^ 62 →
      (SetFinds env h k s key streamable ↔ SetAgrees env h k s key) ∧
      (HashAgrees env h k key (Multiset.card s) →
        (∀ e ∈ s, customEqualTo env h k key e = env.keyEq h k key e) → SetAgrees env h k s key)) ∧
    ((∀ i, k ≠ .cpyable .basicString i) → ∀ key,
      (∀ n, HashAgrees env h k key n) ∧ ∀ x, customEqualTo env h k key x = env.keyEq h k key x) := by
  refine ⟨fun m s key streamable hmapped hw hroom => ?_, fun s key streamable hw hroom => ?_,
    fun hstring key => ⟨fun n => ?_, customEqualTo_eq hstring key⟩⟩
  · have hcap : bucketCount (Multiset.card s) ≤ 2 ^ 62 := by
      have hcard := CompactSerializer.length_iter hl (.pair k m) s
      have hle := bucketCount_le_tableSize ((fixedWidth_convert k hk).pair (fixedWidth_convert m hmapped))
        (pairSize (bufferSize env k) (bufferSize env m)) (env.iter (.pair k m) s)
      exact hcard ▸ hle.trans ((Nat.le_add_left _ _).trans hroom)
    exact ⟨mapFinds_iff hl hm hh hk hmapped hw key hroom, mapAgrees_of_hash hl hm hh hcap⟩
  · have hcap : bucketCount (Multiset.card s) ≤ 2 ^ 62 := by
      have hle := bucketCount_le_tableSize (fixedWidth_convert k hk) (bufferSize env k) (env.iter k s)
      rw [CompactSerializer.length_iter hl] at hle
      exact hle.trans ((Nat.le_add_left _ _).trans hroom)
    exact ⟨setFinds_iff hl hm hh hk hw key hroom, setAgrees_of_hash hl hm hh hcap⟩
  · rw [HashAgrees, customHasher_eq hstring]

noncomputable def stringEnv (shift : Nat) : Env where
  less _ _ _ _ := false
  keyEq _ t x y := match t, x, y with
    | .cpyable .basicString i, x, y => x.flatMap (dump i.size.bytes) == y.flatMap (dump i.size.bytes)
    | _, _, _ => false
  iter _ s := Multiset.toList s
  alloc _ := true
  hasher _ t x := match t, x with
    | .cpyable .basicString i, x => (x.flatMap (dump i.size.bytes)).length + shift
    | _, _ => 0
  stringHash bs := bs.length

theorem stringEnv_lawful (shift : Nat) : (stringEnv shift).toEnv.Lawful where
  less_asymm _ _ _ _ h := by cases h
  keyEq_symm c t x y := by
    cases t with
    | cpyable l i =>
      cases l with
      | vector => rfl
      | basicString => exact Bool.beq_comm
    | _ => rfl
  iter_coe _ s := Multiset.coe_toList s

theorem stringEnv_hashLawful (shift : Nat) : HashLawful (stringEnv shift) 0 (.cpyable .basicString .char) where
  refl _ := beq_self_eq_true _
  trans x y z hxy hyz := by
    have h := (eq_of_beq hxy).trans (eq_of_beq hyz)
    exact beq_iff_eq.2 h
  hash x y hxy := by
    have h := eq_of_beq hxy
    exact congrArg (fun bs => List.length bs + shift) h

/-- `"a"`. -/
def sampleKey : Val (.cpyable .basicString .char) := [97#8]

theorem sampleSet_wellFormed (shift : Nat) :
    WellFormed (stringEnv shift).toEnv (.unorderedSet 0 (.cpyable .basicString .char))
      ({sampleKey} : Multiset (Val (.cpyable .basicString .char))) := by
  refine ⟨by decide, ⟨[sampleKey], rfl, List.pairwise_singleton _ _⟩, fun e he => ?_⟩
  obtain rfl := Multiset.mem_singleton.1 he
  exact (by decide : 1 * 1 < 2 ^ 64)

theorem sampleSet_room (shift : Nat) :
    ([] : Stream).length + bufferSize (stringEnv shift) (.unorderedSet 0 (.cpyable .basicString .char))
      ({sampleKey} : Multiset (Val (.cpyable .basicString .char))) ≤ 2 ^ 62 := by
  have hiter : (stringEnv shift).iter (.cpyable .basicString .char)
      ({sampleKey} : Multiset (Val (.cpyable .basicString .char))) = [sampleKey] := Multiset.toList_singleton _
  have hsize : bufferSize (stringEnv shift) (.unorderedSet 0 (.cpyable .basicString .char))
      ({sampleKey} : Multiset (Val (.cpyable .basicString .char))) =
      tableSize strView List.length ((stringEnv shift).iter (.cpyable .basicString .char)
        ({sampleKey} : Multiset (Val (.cpyable .basicString .char)))) := rfl
  rw [hsize, hiter]
  decide +kernel

/-- With the hasher of the view, `"a"` is found. -/
theorem lookup_iff_sample :
    SetFinds (stringEnv 0) 0 (.cpyable .basicString .char) {sampleKey} sampleKey [] := by
  obtain ⟨-, hset, -⟩ := lookup_iff (stringEnv_lawful 0) (fun _ => rfl) (stringEnv_hashLawful 0) rfl
  obtain ⟨hiff, hagrees⟩ := hset {sampleKey} sampleKey [] (sampleSet_wellFormed 0) (sampleSet_room 0)
  exact hiff.2 (hagrees rfl fun e _ => rfl)

/-- With another one it is not: `"a"` is put into the slot 0 of 2, and looked for from the empty slot 1. -/
theorem lookup_fails :
    ¬ ∀ (env : Env) (h : Nat) (k : Ty), env.toEnv.Lawful → (∀ n, env.alloc n = true) →
      HashLawful env h k → isConvertible k = true → ∀ (s : Multiset (Val k)) (key : Val k),
      WellFormed env.toEnv (.unorderedSet h k) s → SetFinds env h k s key [] := by
  intro hall
  have hfinds := hall (stringEnv 1) 0 (.cpyable .basicString .char) (stringEnv_lawful 1) (fun _ => rfl)
    (stringEnv_hashLawful 1) rfl {sampleKey} sampleKey (sampleSet_wellFormed 1)
  obtain ⟨table, hflat, -, hreach⟩ := (setFinds_iff (stringEnv_lawful 1) (fun _ => rfl)
    (stringEnv_hashLawful 1) rfl (sampleSet_wellFormed 1) sampleKey (sampleSet_room 1)).1 hfinds
  have hiter : (stringEnv 1).iter (.cpyable .basicString .char)
      ({sampleKey} : Multiset (Val (.cpyable .basicString .char))) = [sampleKey] := Multiset.toList_singleton _
  have htable : flatten (stringEnv 1) ((stringEnv 1).hasher 0 (.cpyable .basicString .char)) [sampleKey] =
      .ok [some sampleKey, none] := by rfl
  rw [hiter] at hflat
  obtain rfl := Except.ok.inj (htable.symm.trans hflat)
  obtain ⟨d, hd, hat, -⟩ := hreach sampleKey (Multiset.mem_singleton_self _) (beq_self_eq_true _)
  rw [Multiset.card_singleton] at hd
  obtain rfl : d = 0 := by omega
  cases hat

end DgBuf
