import NeuralNetwork.Serializer.TrivialSerializer
import NeuralNetwork.Serializer.Proof.CompactSerializer

/-!
# The trivial serializer has a fixed width

`count_eq`: the size does not depend on the value. `encodes`, `decodes`: by induction on the type, what
one `put` writes and reads. `fixed_width`: values in which every variant holds an alternative are
written as `size` bytes and read back, and every `size` bytes in which the flags are flags are read as
such a value.
-/

namespace TrivialSerializer

open Cpp Loop LittleEndian Serializer
open CompactSerializer (HasValues HaveValues AltHasValues index_lt)

variable {α : Type}

/-! ## The size -/

mutual
theorem count_eq : ∀ (t : Ty) (v w : Val t), count t v = count t w
  | .tuple ts, vs, ws => counts_eq ts vs ws
  | .reflectible ts, vs, ws => counts_eq ts vs ws
  | .int _, _, _ | .float _, _, _ | .bool, _, _ | .optional _, _, _ | .variant _, _, _
  | .uniquePtr _, _, _ | .expected _ _, _, _ | .cpyable _ _, _, _ | .noncpyable _ _, _, _
  | .map _ _ _, _, _ | .set _ _, _, _ | .unorderedMap _ _ _, _, _ | .unorderedSet _ _, _, _
  | .containerWrapper _ _, _, _ => rfl
theorem counts_eq : ∀ (ts : Tys) (vs ws : Vals ts), counts ts vs = counts ts ws
  | .nil, _, _ => rfl
  | .cons t ts, (v, vs), (w, ws) => by rw [counts, counts, count_eq t v w, counts_eq ts vs ws]
end

theorem count_eq_size (t : Ty) (v : Val t) : count t v = size t := count_eq t v (init t)

def sizes (ts : Tys) : Nat := counts ts (inits ts)

@[simp] theorem sizes_cons (t : Ty) (ts : Tys) : sizes (.cons t ts) = size t + sizes ts := rfl

@[simp] theorem size_int (i : IntType) : size (.int i) = i.size.bytes := rfl

@[simp] theorem size_float (s : IntSize) : size (.float s) = s.bytes := rfl

@[simp] theorem size_optional (t : Ty) : size (.optional t) = 1 + size t := rfl

@[simp] theorem size_tuple (ts : Tys) : size (.tuple ts) = sizes ts := rfl

@[simp] theorem maxMany_cons (t : Ty) (ts : Tys) : maxMany (.cons t ts) = max (size t) (maxMany ts) := rfl

/-! ## Bytes -/

variable {mem : List Byte} {n : Nat}

theorem writeBytes_ok {bs : List Byte} (h : bs.length ≤ mem.length) :
    writeBytes bs mem = .ok (bs, mem.drop bs.length) := if_pos h

theorem readBytes_append {bs : List Byte} (h : bs.length = n) (rest : List Byte) :
    readBytes n (bs ++ rest) = .ok (bs, rest) := by
  unfold readBytes
  rw [if_pos (by rw [List.length_append]; omega), List.take_left' h, List.drop_left' h]

theorem readBytes_ok (h : n ≤ mem.length) :
    readBytes n mem = .ok (mem.take n, mem.drop n) := if_pos h

theorem advance_ok (bs : List Byte) (hn : n ≤ mem.length) (hbs : bs.length ≤ n) :
    ∃ pad, advance n bs mem = .ok (bs ++ pad, mem.drop n) ∧ (bs ++ pad).length = n := by
  refine ⟨_, if_pos hn, ?_⟩
  rw [List.length_append, List.length_drop, List.length_take]
  omega

theorem getBool_append (b : Bool) (rest : List Byte) : getBool ([boolByte b] ++ rest) = .ok (b, rest) := by
  have hread : readBytes 1 ([boolByte b] ++ rest) = .ok ([boolByte b], rest) :=
    readBytes_append (n := 1) (by rfl) rest
  rw [getBool, hread]
  cases b <;> rfl

/-! ## The archives over any field -/

/-- `Forward::put` of an optional, with its room for a value of `n` bytes. -/
def putOptional (put : α → List Byte → Except Fault Written) (n : Nat) (o : Option α)
    (mem : List Byte) : Except Fault Written := do
  let (status, tmp) ← writeBytes [boolByte o.isSome] mem
  let bs ← match o with
    | none => pure []
    | some v => do
      let (bs, _) ← put v tmp
      pure bs
  advance (1 + n) (status ++ bs) mem

def getOptional (get : List Byte → Except Fault (α × List Byte)) (n : Nat) (mem : List Byte) :
    Except Fault (Option α × List Byte) := do
  let (status, tmp) ← getBool mem
  let v ← if status then do
      let (v, _) ← get tmp
      pure (some v)
    else pure none
  let (_, rest) ← readBytes (1 + n) mem
  pure (v, rest)

/-- `Forward::put` of a variant that holds the alternative `index`. -/
def putVariant (put : List Byte → Except Fault Written) (index n : Nat) (mem : List Byte) :
    Except Fault Written := do
  let (index, tmp) ← writeBytes [BitVec.ofNat 8 index] mem
  let (bs, _) ← put tmp
  advance (1 + n) (index ++ bs) mem

def getVariant (get : Nat → List Byte → Except Fault (Option α)) (len n : Nat) (data : Option α)
    (mem : List Byte) : Except Fault (Option α × List Byte) := do
  let (bs, tmp) ← readBytes 1 mem
  let a ← get (min (value bs) (len - 1)) tmp
  let (_, rest) ← readBytes (1 + n) mem
  pure (a.orElse fun _ => data, rest)

theorem Forward.put_none (t : Ty) (mem : List Byte) :
    Forward.put (.optional t) none mem = putOptional (Forward.put t) (size t) none mem := by
  rw [Forward.put, putOptional]
  simp only [pure_bind, List.append_nil]
  rfl

theorem Forward.put_some (t : Ty) (v : Val t) (mem : List Byte) :
    Forward.put (.optional t) (some v) mem = putOptional (Forward.put t) (size t) (some v) mem := by
  rw [Forward.put, putOptional]
  simp only [pure_bind]
  rfl

/-! ## Encoding -/

/-- `put` writes `n` bytes, and `get` reads these bytes, and no others, as `v`. -/
def Encodes (put : List Byte → Except Fault Written) (n : Nat)
    (get : α → List Byte → Except Fault (α × List Byte)) (v : α) : Prop :=
  ∀ buf, n ≤ buf.length → ∃ bs, put buf = .ok (bs, buf.drop n) ∧ bs.length = n ∧
    ∀ data rest, get data (bs ++ rest) = .ok (v, rest)

theorem encodes_word (v : BitVec (8 * n)) :
    Encodes (writeBytes (dump n v)) n
      (fun _ mem => readBytes n mem >>= fun x => pure (load n x.1, x.2)) v := by
  intro buf hbuf
  refine ⟨dump n v, ?_, length_dump v, fun data rest => ?_⟩
  · rw [writeBytes_ok (by rwa [length_dump]), length_dump]
  · have hread := readBytes_append (length_dump v) rest
    simp only [hread, ok_bind, load_dump]
    rfl

theorem encodes_bool (b : Bool) : Encodes (Forward.put .bool b) 1 (Backward.put .bool) b := by
  intro buf hbuf
  exact ⟨[boolByte b], writeBytes_ok hbuf, rfl, fun _ rest => getBool_append b rest⟩

variable {get : α → List Byte → Except Fault (α × List Byte)}

theorem Encodes.congr {put put' : List Byte → Except Fault Written} {v : α} (h : Encodes put n get v)
    (hput : ∀ mem, put' mem = put mem) : Encodes put' n get v := by
  intro buf hbuf
  rw [hput]
  exact h buf hbuf

theorem encodes_optional {put : α → List Byte → Except Fault Written} {o : Option α} (dflt : α)
    (h : ∀ v, o = some v → Encodes (put v) n get v) :
    Encodes (putOptional put n o) (1 + n) (fun _ => getOptional (get dflt) n) o := by
  intro buf hbuf
  have hstatus : writeBytes [boolByte o.isSome] buf = .ok ([boolByte o.isSome], buf.drop 1) :=
    writeBytes_ok (by simp; omega)
  unfold putOptional
  rw [hstatus, ok_bind]
  cases o with
  | none =>
    obtain ⟨pad, e, hlen⟩ := advance_ok ([boolByte false] ++ []) hbuf (by simp)
    refine ⟨_, e, hlen, fun data rest => ?_⟩
    unfold getOptional
    dsimp only
    rw [List.append_nil] at hlen ⊢
    rw [List.append_assoc, getBool_append, ok_bind]
    simp only [Bool.false_eq_true, if_false, pure_bind]
    rw [← List.append_assoc, readBytes_append hlen]
    rfl
  | some v =>
    obtain ⟨bs, hput, hbs, hget⟩ := h v rfl (buf.drop 1) (by rw [List.length_drop]; omega)
    obtain ⟨pad, e, hlen⟩ := advance_ok ([boolByte true] ++ bs) hbuf (by simp; omega)
    simp only [hput, ok_bind, pure_bind]
    refine ⟨_, e, hlen, fun data rest => ?_⟩
    unfold getOptional
    rw [List.append_assoc, List.append_assoc, getBool_append, ok_bind]
    simp only [if_true, hget, ok_bind, pure_bind]
    rw [← List.append_assoc, ← List.append_assoc, readBytes_append hlen]
    rfl

theorem encodes_variant {put : List Byte → Except Fault Written} {index len : Nat}
    {get : Nat → List Byte → Except Fault (Option α)} {a : α} (hlen : len ≤ 256) (hindex : index < len)
    (h : ∀ buf, n ≤ buf.length → ∃ bs rest, put buf = .ok (bs, rest) ∧ bs.length ≤ n ∧
      ∀ mem, get index (bs ++ mem) = .ok (some a)) :
    Encodes (putVariant put index n) (1 + n) (getVariant get len n) (some a) := by
  intro buf hbuf
  have hstatus : writeBytes [BitVec.ofNat 8 index] buf = .ok ([BitVec.ofNat 8 index], buf.drop 1) :=
    writeBytes_ok (by simp; omega)
  obtain ⟨bs, rest, hput, hbs, hget⟩ := h (buf.drop 1) (by rw [List.length_drop]; omega)
  obtain ⟨pad, e, hpad⟩ := advance_ok ([BitVec.ofNat 8 index] ++ bs) hbuf (by simp; omega)
  unfold putVariant
  simp only [hstatus, hput, ok_bind]
  refine ⟨_, e, hpad, fun data rest => ?_⟩
  have hvalue : min (value [BitVec.ofNat 8 index]) (len - 1) = index := by
    rw [value, value, BitVec.toNat_ofNat]
    omega
  have hone : [BitVec.ofNat 8 index].length = 1 := rfl
  have hread := readBytes_append hone (bs ++ (pad ++ rest))
  rw [getVariant, List.append_assoc, List.append_assoc, hread, ok_bind]
  simp only [hvalue, hget, ok_bind]
  rw [← List.append_assoc, ← List.append_assoc, readBytes_append hpad]
  rfl

mutual
theorem encodes : ∀ (t : Ty) (v : Val t), isSerializable t = true → HasValues t v →
    Encodes (Forward.put t v) (size t) (Backward.put t) v
  | .int _, v, _, _ => encodes_word v
  | .float _, v, _, _ => encodes_word v
  | .bool, b, _, _ => encodes_bool b
  | .optional t, none, ht, hv =>
    (encodes_optional (init t) fun v e => encodes t v ht (hv v e)).congr (Forward.put_none t)
  | .optional t, some w, ht, hv =>
    (encodes_optional (init t) fun v e => encodes t v ht (hv v e)).congr (Forward.put_some t w)
  | .tuple ts, vs, ht, hv => encodesAll ts vs ht hv
  | .reflectible ts, vs, ht, hv => encodesAll ts vs ht hv
  | .variant ts, _, ht, hv => by
    obtain ⟨a, rfl, ha⟩ := hv
    simp only [isSerializable, Bool.and_eq_true, decide_eq_true_eq] at ht
    exact encodes_variant ht.1.2 (index_lt ts a) (encodesAlt ts a ht.2 ha)
theorem encodesAll : ∀ (ts : Tys) (vs : Vals ts), areSerializable ts = true → HaveValues ts vs →
    Encodes (Forward.puts ts vs) (sizes ts) (Backward.puts ts) vs
  | .nil, (), _, _ => fun _ _ => ⟨[], rfl, rfl, fun _ _ => rfl⟩
  | .cons t ts, (v, vs), ht, hv => by
    simp only [areSerializable, Bool.and_eq_true] at ht
    intro buf hbuf
    rw [sizes_cons] at hbuf
    obtain ⟨bs, hput, hbs, hget⟩ := encodes t v ht.1 hv.1 buf (by omega)
    obtain ⟨cs, hputs, hcs, hgets⟩ := encodesAll ts vs ht.2 hv.2 (buf.drop (size t)) (by
      rw [List.length_drop]
      omega)
    refine ⟨bs ++ cs, ?_, ?_, fun data rest => ?_⟩
    · rw [Forward.puts, hput, ok_bind]
      dsimp only
      rw [hputs, ok_bind, List.drop_drop, sizes_cons]
      rfl
    · rw [List.length_append, hbs, hcs, sizes_cons]
    · obtain ⟨d, ds⟩ := data
      rw [Backward.puts, List.append_assoc, hget, ok_bind]
      dsimp only
      rw [hgets, ok_bind]
      rfl
theorem encodesAlt : ∀ (ts : Tys) (a : Alts ts), areSerializable ts = true → AltHasValues ts a →
    ∀ buf, maxMany ts ≤ buf.length → ∃ bs rest, Forward.putAlt ts a buf = .ok (bs, rest) ∧
      bs.length ≤ maxMany ts ∧ ∀ mem, Backward.putAlt ts a.index (bs ++ mem) = .ok (some a)
  | .cons t ts, .inl v, ht, hv => by
    simp only [areSerializable, Bool.and_eq_true] at ht
    intro buf hbuf
    rw [maxMany_cons] at hbuf ⊢
    obtain ⟨bs, hput, hbs, hget⟩ := encodes t v ht.1 hv buf (by omega)
    refine ⟨bs, _, hput, by omega, fun mem => ?_⟩
    rw [Alts.index, Backward.putAlt, hget, ok_bind]
    rfl
  | .cons t ts, .inr a, ht, hv => by
    simp only [areSerializable, Bool.and_eq_true] at ht
    intro buf hbuf
    rw [maxMany_cons] at hbuf ⊢
    obtain ⟨bs, rest, hput, hbs, hget⟩ := encodesAlt ts a ht.2 hv buf (by omega)
    refine ⟨bs, rest, hput, by omega, fun mem => ?_⟩
    rw [Alts.index, Backward.putAlt, hget, ok_bind]
    rfl
end

/-! ## Decoding -/

-- every byte that is read as a `bool` or as the status of an optional is zero or one
mutual
def flagsOk : Ty → List Byte → Bool
  | .bool, mem => mem.take 1 = [0] || mem.take 1 = [1]
  | .optional t, mem => mem.take 1 = [0] || (mem.take 1 = [1] && flagsOk t (mem.drop 1))
  | .tuple ts, mem => flagsAllOk ts mem
  | .reflectible ts, mem => flagsAllOk ts mem
  | .variant ts, mem => flagsAltOk ts (min (value (mem.take 1)) (ts.length - 1)) (mem.drop 1)
  | _, _ => true
def flagsAllOk : Tys → List Byte → Bool
  | .nil, _ => true
  | .cons t ts, mem => flagsOk t mem && flagsAllOk ts (mem.drop (size t))
def flagsAltOk : Tys → Nat → List Byte → Bool
  | .nil, _, _ => true
  | .cons t _, 0, mem => flagsOk t mem
  | .cons _ ts, n + 1, mem => flagsAltOk ts n mem
end

def Decodes (get : List Byte → Except Fault (α × List Byte)) (n : Nat) (p : α → Prop)
    (mem : List Byte) : Prop :=
  ∃ v, get mem = .ok (v, mem.drop n) ∧ p v

theorem getBool_ok {b : Bool} (h : mem.take 1 = [boolByte b]) :
    getBool mem = .ok (b, mem.drop 1) := by
  have hcons : mem = [boolByte b] ++ mem.drop 1 := by rw [← h, List.take_append_drop]
  rw [hcons, getBool_append]
  rfl

theorem decodes_word (hmem : n ≤ mem.length) :
    Decodes (fun mem => readBytes n mem >>= fun x => pure (load n x.1, x.2)) n (fun _ => True) mem := by
  refine ⟨load n (mem.take n), ?_, trivial⟩
  simp only [readBytes_ok hmem]
  rfl

theorem decodes_bool (hflags : flagsOk .bool mem = true) : Decodes getBool 1 (fun _ => True) mem := by
  simp only [flagsOk, Bool.or_eq_true, decide_eq_true_eq] at hflags
  rcases hflags with h | h
  · exact ⟨false, getBool_ok h, trivial⟩
  · exact ⟨true, getBool_ok h, trivial⟩

theorem decodes_optional {get : List Byte → Except Fault (α × List Byte)} {p : α → Prop}
    (hmem : 1 + n ≤ mem.length)
    (h : mem.take 1 = [0] ∨ mem.take 1 = [1] ∧ Decodes get n p (mem.drop 1)) :
    Decodes (getOptional get n) (1 + n) (fun o => ∀ v, o = some v → p v) mem := by
  have hread := readBytes_ok hmem
  unfold Decodes getOptional
  rcases h with h | ⟨h, v, e, hv⟩
  · refine ⟨none, ?_, nofun⟩
    rw [getBool_ok (b := false) h, ok_bind]
    simp only [Bool.false_eq_true, if_false, pure_bind, hread]
    rfl
  · refine ⟨some v, ?_, fun w hw => Option.some.inj hw ▸ hv⟩
    rw [getBool_ok (b := true) h, ok_bind]
    simp only [if_true, e, ok_bind, pure_bind, hread]
    rfl

theorem decodes_variant {get : Nat → List Byte → Except Fault (Option α)} {len : Nat} {p : α → Prop}
    {data : Option α} (hlen : 0 < len) (hmem : 1 + n ≤ mem.length)
    (h : ∀ i < len, i = min (value (mem.take 1)) (len - 1) →
      ∃ a, get i (mem.drop 1) = .ok (some a) ∧ p a) :
    Decodes (getVariant get len n data) (1 + n) (fun o => ∃ a, o = some a ∧ p a) mem := by
  obtain ⟨a, e, ha⟩ := h (min (value (mem.take 1)) (len - 1)) (by omega) rfl
  refine ⟨some a, ?_, a, rfl, ha⟩
  unfold getVariant
  rw [readBytes_ok (by omega), ok_bind]
  dsimp only
  rw [e, ok_bind, readBytes_ok hmem]
  rfl

mutual
theorem decodes : ∀ (t : Ty) (data : Val t) (mem : List Byte), isSerializable t = true →
    size t ≤ mem.length → flagsOk t mem = true →
    Decodes (Backward.put t data) (size t) (HasValues t) mem
  | .int _, _, _, _, hmem, _ => decodes_word hmem
  | .float _, _, _, _, hmem, _ => decodes_word hmem
  | .bool, _, _, _, _, hflags => decodes_bool hflags
  | .optional t, _, mem, ht, hmem, hflags => by
    have hmem' : 1 + size t ≤ mem.length := hmem
    simp only [flagsOk, Bool.or_eq_true, Bool.and_eq_true, decide_eq_true_eq] at hflags
    refine decodes_optional hmem (hflags.imp_right fun h => ⟨h.1, ?_⟩)
    exact decodes t (init t) (mem.drop 1) ht (by rw [List.length_drop]; omega) h.2
  | .tuple ts, data, mem, ht, hmem, hflags => decodesAll ts data mem ht hmem hflags
  | .reflectible ts, data, mem, ht, hmem, hflags => decodesAll ts data mem ht hmem hflags
  | .variant ts, data, mem, ht, hmem, hflags => by
    have hmem' : 1 + maxMany ts ≤ mem.length := hmem
    simp only [isSerializable, Bool.and_eq_true, decide_eq_true_eq] at ht
    refine decodes_variant ht.1.1 hmem fun i hi e => ?_
    exact decodesAlt ts i (mem.drop 1) ht.2 hi (by rw [List.length_drop]; omega) (e ▸ hflags)
theorem decodesAll : ∀ (ts : Tys) (data : Vals ts) (mem : List Byte), areSerializable ts = true →
    sizes ts ≤ mem.length → flagsAllOk ts mem = true →
    Decodes (Backward.puts ts data) (sizes ts) (HaveValues ts) mem
  | .nil, _, _, _, _, _ => ⟨(), rfl, trivial⟩
  | .cons t ts, (d, ds), mem, ht, hmem, hflags => by
    simp only [areSerializable, Bool.and_eq_true] at ht
    simp only [flagsAllOk, Bool.and_eq_true] at hflags
    rw [sizes_cons] at hmem
    obtain ⟨v, e, hv⟩ := decodes t d mem ht.1 (by omega) hflags.1
    obtain ⟨vs, es, hvs⟩ := decodesAll ts ds (mem.drop (size t)) ht.2 (by rw [List.length_drop]; omega)
      hflags.2
    refine ⟨(v, vs), ?_, hv, hvs⟩
    rw [Backward.puts, e, ok_bind]
    dsimp only
    rw [es, ok_bind, List.drop_drop, sizes_cons]
    rfl
theorem decodesAlt : ∀ (ts : Tys) (n : Nat) (mem : List Byte), areSerializable ts = true →
    n < ts.length → maxMany ts ≤ mem.length → flagsAltOk ts n mem = true →
    ∃ a, Backward.putAlt ts n mem = .ok (some a) ∧ AltHasValues ts a
  | .nil, _, _, _, hn, _, _ => absurd hn (Nat.not_lt_zero _)
  | .cons t ts, 0, mem, ht, _, hmem, hflags => by
    simp only [areSerializable, Bool.and_eq_true] at ht
    rw [maxMany_cons] at hmem
    obtain ⟨v, e, hv⟩ := decodes t (init t) mem ht.1 (by omega) hflags
    refine ⟨.inl v, ?_, hv⟩
    rw [Backward.putAlt, e]
    rfl
  | .cons t ts, n + 1, mem, ht, hn, hmem, hflags => by
    simp only [areSerializable, Bool.and_eq_true] at ht
    rw [maxMany_cons] at hmem
    obtain ⟨a, e, ha⟩ := decodesAlt ts n mem ht.2 (Nat.lt_of_succ_lt_succ hn) (by omega) hflags
    refine ⟨.inr a, ?_, ha⟩
    rw [Backward.putAlt, e]
    rfl
end

/-! ## The fixed width -/

/-- **A type has one width**: of every value in which each variant holds an alternative `size` bytes
are written, which are read back as it, and every buffer of `size` bytes is read to its end as such a
value, if the bytes read as a `bool` or as the status of an optional are zero or one. -/
theorem fixed_width (t : Ty) (ht : isSerializable t = true) :
    (∀ v, count t v = size t) ∧
    (∀ v, HasValues t v → ∀ buf, size t ≤ buf.length →
      ∃ bs, Forward.put t v buf = .ok (bs, buf.drop (size t)) ∧ bs.length = size t ∧
        ∀ data rest, Backward.put t data (bs ++ rest) = .ok (v, rest)) ∧
    ∀ data buf, buf.length = size t → flagsOk t buf = true →
      ∃ v, Backward.put t data buf = .ok (v, []) ∧ HasValues t v := by
  refine ⟨count_eq_size t, fun v hv => encodes t v ht hv, fun data buf hbuf hflags => ?_⟩
  obtain ⟨v, e, hv⟩ := decodes t data buf ht hbuf.ge hflags
  rw [← hbuf, List.drop_length] at e
  exact ⟨v, e, hv⟩

abbrev widthTy : Ty :=
  .tuple (.cons (.optional (.int .uint8)) (.cons (.variant (.cons .bool (.cons (.int .uint16) .nil))) .nil))

/-- The index 9 is clamped to that of the number. -/
theorem fixed_width_sample :
    ∃ v, Backward.put widthTy (init widthTy) [1, 7, 9, 2, 3] = .ok (v, []) ∧ HasValues widthTy v := by
  obtain ⟨-, -, hdecode⟩ := fixed_width widthTy (by decide +kernel)
  exact hdecode (init widthTy) [1, 7, 9, 2, 3] (by decide +kernel) (by decide +kernel)

/-- A variant that a throwing assignment left without a value ends the program, and a byte other than
zero and one is no `bool`. -/
theorem fixed_width_fails :
    (¬ ∀ (t : Ty), isSerializable t = true → ∀ (v : Val t) (buf : List Byte), size t ≤ buf.length →
      ∃ bs, Forward.put t v buf = .ok (bs, buf.drop (size t))) ∧
    ¬ ∀ (t : Ty), isSerializable t = true → ∀ (data : Val t) (buf : List Byte), buf.length = size t →
      ∃ v, Backward.put t data buf = .ok (v, []) := by
  constructor
  · intro hall
    obtain ⟨bs, e⟩ := hall (.variant (.cons .bool .nil)) (by decide +kernel) none [0, 0] (by decide +kernel)
    cases e
  · intro hall
    obtain ⟨v, e⟩ := hall .bool rfl false [2] rfl
    cases e

end TrivialSerializer
