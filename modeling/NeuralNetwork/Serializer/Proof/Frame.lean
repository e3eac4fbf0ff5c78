import NeuralNetwork.Serializer.Proof.CompactSerializer

/-!
# Round trips of the frames

A frame is the bytes of an object with their hash behind them, in the `DgStd` format also the
version. `integrityDeserialize_serialize` and `dgstdDeserialize_serialize` say that the object comes
back from the stream that it is written into. Behind their sizes the integrity frames can be written
one after the other and read one by one, and one that is cut off is refused (`frames_roundTrip`).
-/

namespace CompactSerializer

open Cpp LittleEndian Loop Serializer

variable {env : Env} (header : Kind → Byte) {t : Ty} {v : Val t} {secret : BitVec 32}

/-! ## The hash -/

theorem hash_ok {buf : List Byte} {sz : Nat} (secret : BitVec 32) (h : sz ≤ buf.length) :
    ∃ hashed, hash buf sz secret = .ok hashed := by
  obtain ⟨hashed, e⟩ := MurmurHash.murmurHashBase_ok secret h
  exact ⟨hashed, by rw [hash, e]; rfl⟩

theorem hash_append (buf rest : List Byte) :
    hash (buf ++ rest) buf.length secret = hash buf buf.length secret := by
  rw [hash, hash, MurmurHash.murmurHashBase_append]

@[simp] theorem length_putHash (hashed : MurmurHash.HashType) :
    (putHash hashed).length = hashSize := by
  rw [putHash, List.length_append, length_dump, length_dump]
  rfl

theorem getHash_reads (hashed : MurmurHash.HashType) : Reads getHash (putHash hashed) hashed := by
  have h1 := read_reads (dump 8 hashed.1)
  have h2 := (read_reads (dump 8 hashed.2)).map fun bs =>
    ((load 8 (dump 8 hashed.1), load 8 bs) : MurmurHash.HashType)
  rw [length_dump] at h1 h2
  have h : Reads getHash (putHash hashed) (load 8 (dump 8 hashed.1), load 8 (dump 8 hashed.2)) :=
    h1.bind h2
  rwa [load_dump, load_dump] at h

/-! ## The frames -/

theorem read_content (content rest : List Byte) (n : Nat) :
    (Cursor.mk (content ++ rest) (content.length + n)).read content.length =
      .ok (content, ⟨rest, n⟩) := read_reads content rest n

/-- **Round trip of the integrity frame**, with any bytes behind it. -/
theorem integrityDeserializeInto_serializeInto (hl : env.Lawful) (hm : ∀ n, env.alloc n = true)
    (hw : WellFormed env t v) (hv : HasValues t v) (secret : BitVec 32) :
    ∃ bs, integritySize env t v = .ok bs.length ∧
      integritySerializeInto env t v secret = .ok bs ∧
      ∀ data rest, integrityDeserializeInto env t data (bs ++ rest) bs.length secret = .ok v := by
  have hcodes (data : Val t) := codes ⟨none, true⟩ hl hm t v data hw hv
  obtain ⟨content, hp, hc, -⟩ := hcodes v
  obtain ⟨hashed, hhash⟩ := hash_ok secret (Nat.le_refl content.length)
  refine ⟨content ++ putHash hashed, ?_, ?_, fun data rest => ?_⟩
  · rw [integritySize, hc, ok_bind, List.length_append, length_putHash]
    rfl
  · rw [integritySerializeInto, hp, ok_bind, hhash]
    rfl
  · have hget : get env ⟨none, true⟩ t data ⟨content ++ (putHash hashed ++ rest), content.length⟩ =
        .ok (v, ⟨putHash hashed ++ rest, 0⟩) :=
      Reads.of_codes _ hp (hcodes data) (putHash hashed ++ rest) 0
    have hlen : (content ++ putHash hashed).length = content.length + hashSize := by simp
    have hread := getHash_reads hashed rest 0
    rw [Cursor.over, length_putHash] at hread
    unfold integrityDeserializeInto
    rw [hlen, if_neg (by omega), List.append_assoc, Nat.add_sub_cancel]
    dsimp only
    rw [hash_append, hhash, ok_bind, read_content, ok_bind]
    rw [show hashSize = hashSize + 0 from rfl, hread, ok_bind, hget]
    simp [Pure.pure, Except.pure]

/-- **Round trip of the `DgStd` frame**, with any bytes behind it. -/
theorem dgstdDeserializeInto_serializeInto (hl : env.Lawful) (hm : ∀ n, env.alloc n = true)
    (hw : WellFormed env t v) (hv : HasValues t v) (secret : BitVec 32) :
    ∃ bs, dgstdSize env header t v = .ok bs.length ∧
      dgstdSerializeInto env header t v secret = .ok bs ∧
      ∀ data rest, dgstdDeserializeInto env header t data (bs ++ rest) bs.length secret = .ok v := by
  have hcodes (data : Val t) := codes ⟨some header, true⟩ hl hm t v data hw hv
  obtain ⟨content, hp, hc, -⟩ := hcodes v
  obtain ⟨hashed, hhash⟩ := hash_ok secret (Nat.le_refl content.length)
  have hlen : (content ++ putHash hashed ++ [serializationVersionControl]).length =
      content.length + (hashSize + versionControlSize) := by
    simp [versionControlSize]
  refine ⟨content ++ putHash hashed ++ [serializationVersionControl], ?_, ?_, fun data rest => ?_⟩
  · rw [dgstdSize, hc, ok_bind, hlen]
    rfl
  · rw [dgstdSerializeInto, hp, ok_bind, hhash]
    rfl
  · have hget : get env ⟨some header, true⟩ t data
        ⟨content ++ (putHash hashed ++ ([serializationVersionControl] ++ rest)), content.length⟩ =
        .ok (v, ⟨putHash hashed ++ ([serializationVersionControl] ++ rest), 0⟩) :=
      Reads.of_codes _ hp (hcodes data) _ 0
    have hread := getHash_reads hashed ([serializationVersionControl] ++ rest) versionControlSize
    rw [Cursor.over, length_putHash] at hread
    have hver := read_reads [serializationVersionControl] rest 0
    unfold dgstdDeserializeInto
    rw [hlen, if_neg (by omega), List.append_assoc, List.append_assoc, Nat.add_sub_cancel]
    dsimp only
    rw [hash_append, hhash, ok_bind, read_content, ok_bind]
    rw [hread, ok_bind]
    rw [show (Cursor.mk ([serializationVersionControl] ++ rest) versionControlSize).read
      versionControlSize = .ok ([serializationVersionControl], ⟨rest, 0⟩) from hver, ok_bind, hget]
    simp [Pure.pure, Except.pure]

/-! ## The streams -/

theorem toStream_ok (hm : ∀ n, env.alloc n = true) (bs : List Byte) :
    toStream env (.ok bs.length) (.ok bs) = .ok bs := by
  rw [toStream, ok_bind, grow, if_pos (hm _)]
  change writeInto (List.replicate bs.length 0) bs = .ok bs
  rw [writeInto, if_pos (by simp)]
  simp [Pure.pure, Except.pure]

theorem bytes_of_toStream {size : Res Nat} {bytes : Res (List Byte)} {bs : List Byte}
    (h : toStream env size bytes = .ok bs) : ∃ cs, bytes = .ok cs := by
  obtain ⟨_, -, h⟩ := bind_eq_ok h
  obtain ⟨_, -, h⟩ := bind_eq_ok h
  obtain ⟨cs, hcs, -⟩ := bind_eq_ok h
  exact ⟨cs, hcs⟩

theorem integrityDeserialize_serialize (hl : env.Lawful) (hm : ∀ n, env.alloc n = true)
    (hw : WellFormed env t v) (hv : HasValues t v) (secret : BitVec 32) :
    ∃ bs, integritySerialize env t v secret = .ok bs ∧
      integrityDeserialize env t bs secret = .ok v := by
  obtain ⟨bs, hsize, hput, hget⟩ := integrityDeserializeInto_serializeInto hl hm hw hv secret
  refine ⟨bs, ?_, ?_⟩
  · rw [integritySerialize, hsize, hput, toStream_ok hm]
  · have h := hget (init t) []
    rwa [List.append_nil] at h

theorem dgstdDeserialize_serialize (hl : env.Lawful) (hm : ∀ n, env.alloc n = true)
    (hw : WellFormed env t v) (hv : HasValues t v) (secret : BitVec 32) :
    ∃ bs, dgstdSerialize env header t v secret = .ok bs ∧
      dgstdDeserialize env header t bs secret = .ok v := by
  obtain ⟨bs, hsize, hput, hget⟩ := dgstdDeserializeInto_serializeInto header hl hm hw hv secret
  refine ⟨bs, ?_, ?_⟩
  · rw [dgstdSerialize, hsize, hput, toStream_ok hm]
  · have h := hget (init t) []
    rwa [List.append_nil] at h

/-! ## Frames behind their sizes -/

section
variable {α β : Type} {h : Headers}

variable {f : α → Res (List Byte)} {p : α → Prop} {bs : List Byte}

section

variable (hf : ∀ v cs, f v = .ok cs → p v)

include hf

theorem each_of_putAll {vs : List α} (he : putAll f vs = .ok bs) :
    ∀ v ∈ vs, p v := by
  induction vs generalizing bs with
  | nil => exact fun v hv => absurd hv List.not_mem_nil
  | cons v vs ih =>
    obtain ⟨cs, hv, he⟩ := bind_eq_ok he
    obtain ⟨ds, hvs, -⟩ := bind_eq_ok he
    intro w hw
    rcases List.mem_cons.1 hw with rfl | hw
    · exact hf w cs hv
    · exact ih hvs w hw

theorem each_of_putContainer {k : Kind} {size : IntSize} {vs : List α}
    (he : putContainer h k size f vs = .ok bs) : ∀ v ∈ vs, p v := by
  unfold putContainer at he
  split at he
  · obtain ⟨cs, hcs, -⟩ := bind_eq_ok he
    exact each_of_putAll hf hcs
  · cases he

theorem each_of_putOption {k : Kind} {o : Option α}
    (he : putOption h k f o = .ok bs) :
    ∀ v, o = some v → p v := by
  rintro v rfl
  obtain ⟨cs, hcs, -⟩ := bind_eq_ok he
  exact hf v cs hcs

theorem each_of_putPair {g : β → Res (List Byte)} {q : β → Prop}
    (hg : ∀ v cs, g v = .ok cs → q v) (e : α × β × Unit) (bs : List Byte)
    (he : putPair h f g e = .ok bs) : p e.1 ∧ q e.2.1 := by
  obtain ⟨cs, hcs, he⟩ := bind_eq_ok he
  obtain ⟨ds, hds, -⟩ := bind_eq_ok he
  exact ⟨hf _ _ hcs, hg _ _ hds⟩

end

theorem mem_iter_of_mem (hl : env.Lawful) {t : Ty} {s : Multiset (Val t)} {v : Val t} (hv : v ∈ s) :
    v ∈ env.iter t s := by
  rw [← hl.iter_coe t s] at hv
  exact Multiset.mem_coe.1 hv

mutual
theorem hasValues_of_put (hl : env.Lawful) :
    ∀ (t : Ty) (v : Val t) (bs : List Byte), put env h t v = .ok bs → HasValues t v
  | .int _, _, _, _ => trivial
  | .float _, _, _, _ => trivial
  | .bool, _, _, _ => trivial
  | .uniquePtr t, _, _, he => each_of_putOption (hasValues_of_put hl t) he
  | .optional t, _, _, he => each_of_putOption (hasValues_of_put hl t) he
  | .variant _, none, _, he => by cases he
  | .variant ts, some a, bs, he => by
    simp only [put] at he
    split at he
    · obtain ⟨cs, hcs, -⟩ := bind_eq_ok he
      exact ⟨a, rfl, hasValues_of_putAlt hl ts a cs hcs⟩
    · cases he
  | .expected t _, .inl v, _, he => by
    obtain ⟨cs, hcs, -⟩ := bind_eq_ok he
    exact hasValues_of_put hl t v cs hcs
  | .expected _ e, .inr v, _, he => by
    obtain ⟨cs, hcs, -⟩ := bind_eq_ok he
    exact hasValues_of_put hl e v cs hcs
  | .tuple ts, vs, _, he => by
    obtain ⟨cs, hcs, -⟩ := bind_eq_ok he
    exact haveValues_of_puts hl ts vs cs hcs
  | .reflectible ts, vs, _, he => by
    obtain ⟨cs, hcs, -⟩ := bind_eq_ok he
    exact haveValues_of_puts hl ts vs cs hcs
  | .cpyable _ _, _, _, _ => trivial
  | .noncpyable _ t, _, _, he => each_of_putContainer (hasValues_of_put hl t) he
  | .containerWrapper _ t, _, _, he => each_of_putContainer (hasValues_of_put hl t) he
  | .set _ k, _, _, he => each_of_putContainer (hasValues_of_put hl k) he
  | .map _ k m, _, _, he =>
    each_of_putContainer (each_of_putPair (hasValues_of_put hl k) (hasValues_of_put hl m)) he
  | .unorderedSet _ k, _, _, he => fun v hv =>
    each_of_putContainer (hasValues_of_put hl k) he v (mem_iter_of_mem hl hv)
  | .unorderedMap _ k m, _, _, he => fun v hv =>
    each_of_putContainer (each_of_putPair (hasValues_of_put hl k) (hasValues_of_put hl m)) he v
      (mem_iter_of_mem (t := .pair k m) hl hv)
theorem haveValues_of_puts (hl : env.Lawful) :
    ∀ (ts : Tys) (vs : Vals ts) (bs : List Byte), puts env h ts vs = .ok bs → HaveValues ts vs
  | .nil, _, _, _ => trivial
  | .cons t ts, (v, vs), _, he => by
    obtain ⟨cs, hcs, he⟩ := bind_eq_ok he
    obtain ⟨ds, hds, -⟩ := bind_eq_ok he
    exact ⟨hasValues_of_put hl t v cs hcs, haveValues_of_puts hl ts vs ds hds⟩
theorem hasValues_of_putAlt (hl : env.Lawful) :
    ∀ (ts : Tys) (a : Alts ts) (bs : List Byte), putAlt env h ts a = .ok bs → AltHasValues ts a
  | .cons t _, .inl v, bs, he => hasValues_of_put hl t v bs he
  | .cons _ ts, .inr a, bs, he => hasValues_of_putAlt hl ts a bs he
end

end

/-- Calls of `capintegrity_serialize_into`, one after the other: the frames that they write. -/
def writeFrames (env : Env) (secret : BitVec 32) (objs : List (Sigma Val)) : Res (List (List Byte)) :=
  objs.mapM fun obj => capintegritySerializeInto env obj.1 obj.2 secret

/-- As many calls of `capintegrity_deserialize_into`, each from the pointer that the one before it
returned and over the bytes that are left: what each has read, and the pointer that it returned. -/
def readFrames (env : Env) (secret : BitVec 32) :
    List (Sigma Val) → List Byte → Nat → Res (List (Sigma Val × List Byte))
  | [], _, _ => pure []
  | obj :: objs, buf, sz => do
    let (v, next) ← capintegrityDeserializeInto env obj.1 obj.2 buf sz secret
    let rs ← readFrames env secret objs next (sz - (buf.length - next.length))
    pure ((⟨obj.1, v⟩, next) :: rs)

def frameEnds (rest : List Byte) : List (List Byte) → List (List Byte)
  | [] => []
  | _ :: frames => (frames.flatten ++ rest) :: frameEnds rest frames

theorem getSize_cap {n : Nat} (hn : n < 2 ^ 64) (rest : List Byte) (sz : Nat) (hsz : capSize ≤ sz) :
    getSize ⟨none, false⟩ .b8 ⟨putSize none .b8 n ++ rest, sz⟩ = .ok (n, ⟨rest, sz - capSize⟩) := by
  have hlen : (putSize none .b8 n).length = capSize := length_putSize .b8 n
  have hsize : Reads (getSize ⟨none, false⟩ .b8) (putSize none .b8 n) n := getSize_reads .b8 hn
  have hread := hsize rest (sz - capSize)
  rw [Cursor.over] at hread
  rw [← hread, hlen, Nat.add_sub_cancel' hsz]

variable {bs : List Byte}

theorem capintegritySerializeInto_inv (he : capintegritySerializeInto env t v secret = .ok bs) :
    ∃ frame, integritySerializeInto env t v secret = .ok frame ∧
      bs = putSize none .b8 frame.length ++ frame ∧ bs.length = capSize + frame.length := by
  obtain ⟨frame, hframe, he⟩ := bind_eq_ok he
  obtain rfl := Except.ok.inj he
  refine ⟨frame, hframe, rfl, ?_⟩
  rw [List.length_append, length_putSize]
  rfl

/-- **Round trip of a frame behind its size**: whatever follows it, the object comes back, and the
pointer is behind the frame. -/
theorem capintegrityDeserializeInto_serializeInto (hl : env.Lawful) (hm : ∀ n, env.alloc n = true)
    (hw : WellFormed env t v) (he : capintegritySerializeInto env t v secret = .ok bs)
    (hlen : bs.length < 2 ^ 64) (data : Val t) (rest : List Byte) (extra : Nat) :
    capintegrityDeserializeInto env t data (bs ++ rest) (bs.length + extra) secret = .ok (v, rest) := by
  obtain ⟨frame, hframe, rfl, hsz⟩ := capintegritySerializeInto_inv he
  obtain ⟨content, hput, -⟩ := bind_eq_ok hframe
  obtain ⟨frame', -, hframe', hget⟩ := integrityDeserializeInto_serializeInto hl hm hw
    (hasValues_of_put hl t v content hput) secret
  obtain rfl := Except.ok.inj (hframe.symm.trans hframe')
  unfold capintegrityDeserializeInto
  rw [hsz, if_neg (by omega), List.append_assoc, getSize_cap (by omega) _ _ (by omega)]
  rw [ok_bind]
  dsimp only
  rw [if_neg (by omega), hget data rest]
  simp [Pure.pure, Except.pure]

/-- **A frame that is cut off is refused**, without a look behind the cut. -/
theorem capintegrityDeserializeInto_take (he : capintegritySerializeInto env t v secret = .ok bs)
    (hlen : bs.length < 2 ^ 64) {n : Nat} (hn : n < bs.length) (data : Val t) (rest : List Byte) :
    capintegrityDeserializeInto env t data (bs.take n ++ rest) n secret =
      throwExc .corruptedFormat := by
  obtain ⟨frame, -, rfl, hsz⟩ := capintegritySerializeInto_inv he
  have hcap : (putSize none .b8 frame.length).length = capSize := length_putSize .b8 _
  unfold capintegrityDeserializeInto
  by_cases hlt : n < capSize
  · rw [if_pos hlt]
    rfl
  · rw [if_neg hlt, List.take_append, List.take_of_length_le (by omega), List.append_assoc,
      getSize_cap (by omega) _ _ (by omega)]
    rw [ok_bind]
    dsimp only
    rw [if_pos (by omega)]
    rfl

theorem readFrames_ok (hl : env.Lawful) (hm : ∀ n, env.alloc n = true) {objs dst : List (Sigma Val)}
    {frames : List (List Byte)} (hw : ∀ obj ∈ objs, WellFormed env obj.1 obj.2)
    (he : writeFrames env secret objs = .ok frames) (hlen : frames.flatten.length < 2 ^ 64)
    (hdst : dst.map Sigma.fst = objs.map Sigma.fst) (rest : List Byte) (extra : Nat) :
    readFrames env secret dst (frames.flatten ++ rest) (frames.flatten.length + extra) =
      .ok (objs.zip (frameEnds rest frames)) := by
  induction objs generalizing dst frames with
  | nil =>
    obtain rfl := List.map_eq_nil_iff.1 hdst
    rfl
  | cons obj objs ih =>
    cases dst with
    | nil => cases hdst
    | cons d dst =>
      obtain ⟨t, v⟩ := obj
      obtain ⟨t', data⟩ := d
      obtain ⟨rfl, htypes⟩ := List.cons.inj hdst
      rw [writeFrames, List.mapM_cons] at he
      obtain ⟨bs, hbs, he⟩ := bind_eq_ok he
      obtain ⟨fs, hfs, he⟩ := bind_eq_ok he
      obtain rfl := Except.ok.inj he
      rw [List.flatten_cons, List.length_append] at hlen
      have hfirst := capintegrityDeserializeInto_serializeInto hl hm
        (hw _ (List.mem_cons_self ..)) hbs (by omega) data (fs.flatten ++ rest)
        (fs.flatten.length + extra)
      have hleft : bs.length + (fs.flatten.length + extra) -
          ((bs ++ (fs.flatten ++ rest)).length - (fs.flatten ++ rest).length) =
          fs.flatten.length + extra := by
        rw [List.length_append]
        omega
      rw [List.flatten_cons, List.append_assoc, List.length_append, Nat.add_assoc, readFrames, hfirst,
        ok_bind]
      dsimp only
      rw [hleft, ih (fun o ho => hw o (List.mem_cons_of_mem _ ho)) hfs (by omega) htypes]
      rfl

/-- **The frames delimit themselves**: as many reads as there were writes return the objects in
order, each with the place behind its frame, into whatever objects they are read and whatever
follows; and a frame of which less than all bytes are given is refused. -/
theorem frames_roundTrip (hl : env.Lawful) (hm : ∀ n, env.alloc n = true) {objs : List (Sigma Val)}
    {frames : List (List Byte)} (hw : ∀ obj ∈ objs, WellFormed env obj.1 obj.2)
    (he : writeFrames env secret objs = .ok frames) (hlen : frames.flatten.length < 2 ^ 64) :
    frames.length = objs.length ∧
    (∀ dst : List (Sigma Val), dst.map Sigma.fst = objs.map Sigma.fst → ∀ rest extra,
      readFrames env secret dst (frames.flatten ++ rest) (frames.flatten.length + extra) =
        .ok (objs.zip (frameEnds rest frames))) ∧
    ∀ (i : Nat) (obj : Sigma Val) (bs : List Byte), objs[i]? = some obj → frames[i]? = some bs →
      ∀ n < bs.length, ∀ data rest,
      capintegrityDeserializeInto env obj.1 data (bs.take n ++ rest) n secret =
        throwExc .corruptedFormat := by
  have hall := forall₂_of_mapM he
  refine ⟨hall.length_eq.symm, fun dst hdst rest extra => readFrames_ok hl hm hw he hlen hdst rest extra,
    fun i obj bs hobj hbs n hn data rest => ?_⟩
  have hwritten : capintegritySerializeInto env obj.1 obj.2 secret = .ok bs := by
    obtain ⟨hi, rfl⟩ := List.getElem?_eq_some_iff.1 hobj
    obtain ⟨hj, rfl⟩ := List.getElem?_eq_some_iff.1 hbs
    exact (List.forall₂_iff_get.1 hall).2 i hi hj
  have hle : bs.length ≤ frames.flatten.length := by
    apply List.Sublist.length_le
    apply List.sublist_flatten_of_mem
    exact List.mem_of_getElem? hbs
  exact capintegrityDeserializeInto_take hwritten (by omega) hn data rest

/-- `true` and the string `ab`. -/
def sampleObjects : List (Sigma Val) :=
  [⟨.bool, true⟩, ⟨.cpyable .basicString .char, ([97#8, 98#8] : List Byte)⟩]

theorem writeFrames_sample : ∃ frames, writeFrames intEnv 0 sampleObjects = .ok frames ∧
    frames.flatten.length = 59 := by
  have hrun : (writeFrames intEnv 0 sampleObjects).map (fun frames => frames.flatten.length) = .ok 59 := by
    decide +kernel
  cases e : writeFrames intEnv 0 sampleObjects with
  | error err =>
    rw [e] at hrun
    cases hrun
  | ok frames =>
    rw [e] at hrun
    exact ⟨frames, rfl, Except.ok.inj hrun⟩

theorem frames_roundTrip_sample : ∃ frames, writeFrames intEnv 0 sampleObjects = .ok frames ∧
    readFrames intEnv 0 [⟨.bool, false⟩, ⟨.cpyable .basicString .char, ([] : List Byte)⟩]
      (frames.flatten ++ []) (frames.flatten.length + 0) =
        .ok (sampleObjects.zip (frameEnds [] frames)) := by
  obtain ⟨frames, he, hlen⟩ := writeFrames_sample
  have hw : ∀ obj ∈ sampleObjects, WellFormed intEnv obj.1 obj.2 := by
    intro obj hobj
    rcases List.mem_cons.1 hobj with rfl | hobj
    · exact trivial
    · obtain rfl := List.mem_singleton.1 hobj
      exact (by decide : 2 * 1 < 2 ^ 64)
  have hall := frames_roundTrip intEnv_lawful (fun _ => rfl) hw he (by rw [hlen]; decide)
  exact ⟨frames, he, hall.2.1 _ rfl [] 0⟩

end CompactSerializer
