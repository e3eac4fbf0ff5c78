import NeuralNetwork.InternalRest.SslSymmetricEncoder
import NeuralNetwork.Serializer.Proof.Frame

/-!
# Messages of the symmetric encoder

A byte dictionary is a permutation of the bytes whatever the generator draws (`getByteDict_reverse`),
and the dictionaries of a message are functions of the secret, the salt and the offset that the
message carries. So an encoder decodes what another one of the same secret has encoded, wherever
both are in their histories (`decode_encode`).
-/

namespace UdSymEncoder

open Cpp LittleEndian Loop Serializer

variable {G : Type} {p : Base G}

/-! ## Byte dictionaries -/

def Injective (dict : Dict) : Prop := Function.Injective (entry dict)

theorem iota_injective : Injective iota := by
  have hget (k : Fin dictionarySz) : entry iota k = BitVec.ofFin k := by
    unfold entry iota
    rw [Vector.getElem_ofFn]
  intro i j h
  rw [hget, hget] at h
  exact congrArg BitVec.toFin h

theorem entry_swap (dict : Dict) {i j : Nat} (hi : i < dictionarySz) (hj : j < dictionarySz)
    (k : Fin dictionarySz) : entry (dict.swap i j hi hj) k =
      entry dict (Equiv.swap ⟨i, hi⟩ ⟨j, hj⟩ k) := by
  unfold entry
  rw [Vector.getElem_swap, Equiv.swap_apply_def]
  by_cases h1 : k.val = i
  · rw [if_pos h1, if_pos (Fin.ext h1)]
  · rw [if_neg h1, if_neg fun e => h1 (congrArg Fin.val e)]
    by_cases h2 : k.val = j
    · rw [if_pos h2, if_pos (Fin.ext h2)]
    · rw [if_neg h2, if_neg fun e => h2 (congrArg Fin.val e)]

theorem Injective.swap {dict : Dict} (h : Injective dict) {i j : Nat} (hi : i < dictionarySz)
    (hj : j < dictionarySz) : Injective (dict.swap i j hi hj) := by
  intro k l e
  rw [entry_swap, entry_swap] at e
  exact (Equiv.swap _ _).injective (h e)

variable {bs : List Byte} {s s' : Dict × XrangeMt19937 G} {h : Headers} {env : Env}
  {wordDict : Dict}

theorem shuffle_injective {i : Fin iterationSz} (h : Injective s.1) (hs : shuffle p s i = .ok s') :
    Injective s'.1 := by
  obtain ⟨⟨x, randomizer⟩, -, hs⟩ := bind_eq_ok hs
  obtain rfl := Except.ok.inj hs
  exact Injective.swap h (Nat.lt_trans i.isLt (by decide)) (Nat.mod_lt _ (by decide))

theorem foldlM_shuffle {is : List (Fin iterationSz)} (h : Injective s.1)
    (hs : is.foldlM (shuffle p) s = .ok s') : Injective s'.1 := by
  induction is generalizing s with
  | nil =>
    obtain rfl := Except.ok.inj hs
    exact h
  | cons i is ih =>
    rw [List.foldlM_cons] at hs
    obtain ⟨s₁, h₁, hs⟩ := bind_eq_ok hs
    exact ih (shuffle_injective h h₁) hs

/-- The reverse dictionary has every index at the byte that the dictionary has there. -/
theorem foldl_set {fwdDict : Dict} (h : Injective fwdDict) (is : List (Fin dictionarySz)) (rs : Dict)
    {j : Fin dictionarySz}
    (hj : j ∈ is ∨ entry rs (entry fwdDict j).toFin = BitVec.ofFin j) :
    entry (is.foldl (fun rs i => rs.set (entry fwdDict i).toNat (BitVec.ofFin i)
      (entry fwdDict i).isLt) rs) (entry fwdDict j).toFin = BitVec.ofFin j := by
  induction is generalizing rs with
  | nil => exact hj.resolve_left List.not_mem_nil
  | cons i is ih =>
    rw [List.foldl_cons]
    apply ih
    by_cases hij : i = j
    · subst hij
      right
      exact Vector.getElem_set_self _
    · refine hj.imp (fun hj => (List.mem_cons.1 hj).resolve_left (Ne.symm hij)) fun hj => ?_
      have hne : (entry fwdDict i).toNat ≠ (entry fwdDict j).toNat := fun e =>
        hij (h (BitVec.eq_of_toNat_eq e))
      rw [← hj]
      exact Vector.getElem_set_ne _ _ hne

theorem byteDecode_byteEncode {fwdDict : Dict} (h : Injective fwdDict) (c : Byte) :
    byteEncode (byteEncode c fwdDict) (reverseDict fwdDict) = c :=
  foldl_set h _ _ (j := c.toFin) (.inl (List.mem_finRange _))

/-- Both sides draw the same numbers, for a dictionary and for its reverse. -/
theorem getByteDict_reverse {randomizer randomizer' : XrangeMt19937 G}
    (h : getByteDict p randomizer = .ok (wordDict, randomizer')) :
    Injective wordDict ∧
      getReverseByteDict p randomizer = .ok (reverseDict wordDict, randomizer') := by
  refine ⟨foldlM_shuffle (s := (iota, randomizer)) iota_injective h, ?_⟩
  rw [getReverseByteDict, h]
  rfl

/-! ## Mt19937Encoder -/

/-- The loop of `decode` undoes that of `encode`, dictionary by dictionary. -/
theorem translate_reverse {dictionaryRenewSz : Nat} {arg encoded : Bytes} {renewI : Nat}
    {randomizer : XrangeMt19937 G} (hdict : Injective wordDict)
    (h : translate (getByteDict p) dictionaryRenewSz arg wordDict renewI randomizer = .ok encoded) :
    translate (getReverseByteDict p) dictionaryRenewSz encoded (reverseDict wordDict) renewI
      randomizer = .ok arg := by
  induction arg generalizing encoded wordDict renewI randomizer with
  | nil =>
    obtain rfl := Except.ok.inj h
    rfl
  | cons c cs ih =>
    rw [translate] at h
    split at h
    · next hrenew =>
      obtain ⟨⟨wordDict, randomizer⟩, hd, h⟩ := bind_eq_ok h
      obtain ⟨rest, hrest, h⟩ := bind_eq_ok h
      obtain rfl := Except.ok.inj h
      obtain ⟨hdict, hrev⟩ := getByteDict_reverse hd
      rw [translate, if_pos hrenew, hrev, ok_bind]
      dsimp only
      rw [ih hdict hrest, ok_bind, byteDecode_byteEncode hdict]
      rfl
    · next hrenew =>
      obtain ⟨rest, hrest, h⟩ := bind_eq_ok h
      obtain rfl := Except.ok.inj h
      rw [translate, if_neg hrenew, ih hdict hrest, ok_bind, byteDecode_byteEncode hdict]
      rfl

namespace Mt19937Encoder

/-- The two encoders have the secret and the period of their dictionaries in common. -/
structure Same (e₁ e₂ : Mt19937Encoder G) : Prop where
  secret : e₁.secret = e₂.secret
  dictionaryRenewSz : e₁.dictionaryRenewSz = e₂.dictionaryRenewSz

variable {e e₁ e₂ e₃ : Mt19937Encoder G}

theorem Same.symm (h : e₁.Same e₂) : e₂.Same e₁ := ⟨h.1.symm, h.2.symm⟩

theorem Same.trans (h : e₁.Same e₂) (h' : e₂.Same e₃) : e₁.Same e₃ :=
  ⟨h.1.trans h'.1, h.2.trans h'.2⟩

theorem projectSubsecretBuffer_same (h : e₁.Same e₂) (buffer : Bytes) (offset : U64) :
    e₁.projectSubsecretBuffer p buffer offset = e₂.projectSubsecretBuffer p buffer offset := by
  induction buffer generalizing offset with
  | nil => rfl
  | cons c cs ih =>
    have hc : e₁.projectSubsecretChar p c offset = e₂.projectSubsecretChar p c offset := by
      cases e₁
      cases e₂
      obtain ⟨rfl, -⟩ := h
      rfl
    rw [projectSubsecretBuffer, projectSubsecretBuffer, hc, ih]

theorem code_reverse (h : e₁.Same e₂) {randomSpace arg encoded : Bytes} {offset : U64}
    (he : e₁.code p (getByteDict p) randomSpace offset arg = .ok encoded) :
    e₂.code p (getReverseByteDict p) randomSpace offset encoded = .ok arg := by
  obtain ⟨randomizer, hmake, he⟩ := bind_eq_ok he
  obtain ⟨⟨wordDict, randomizer'⟩, hd, he⟩ := bind_eq_ok he
  obtain ⟨hdict, hrev⟩ := getByteDict_reverse hd
  rw [code, ← projectSubsecretBuffer_same h, hmake, ok_bind, hrev, ok_bind, ← h.dictionaryRenewSz]
  exact translate_reverse hdict he

theorem encode_same (e : Mt19937Encoder G) (arg : Bytes) : e.Same (e.encode p arg).2 := by
  unfold encode
  dsimp only
  split <;> exact ⟨rfl, rfl⟩

theorem make_same {secret : Bytes} {saltSz₁ saltSz₂ renewSz : Nat} {seed₁ seed₂ : U64}
    (h₁ : make p secret saltSz₁ renewSz seed₁ = .ok e₁)
    (h₂ : make p secret saltSz₂ renewSz seed₂ = .ok e₂) : e₁.Same e₂ := by
  unfold make at h₁ h₂
  generalize (if secret.isEmpty = true then defaultSecret else secret) = used at h₁ h₂
  by_cases h : Stdx.isPow2 used.length
  · rw [dif_pos h] at h₁ h₂
    obtain rfl := Except.ok.inj h₁
    obtain rfl := Except.ok.inj h₂
    exact ⟨rfl, rfl⟩
  · rw [dif_neg h] at h₁
    cases h₁

end Mt19937Encoder

/-! ## The messages on the wire -/

open CompactSerializer in
theorem wellFormed_string {s : Bytes} (hp : put env h stringTy s = .ok bs) :
    WellFormed env stringTy s := by
  simp only [put] at hp
  split at hp
  · next hlt =>
    change List.length s * 1 < 2 ^ 64
    rw [Nat.mul_one]
    exact hlt
  · cases hp

open CompactSerializer in
theorem MurMurMessage.wellFormed {msg : MurMurMessage}
    (hp : put env h MurMurMessage.type msg.dgReflect = .ok bs) :
    WellFormed env MurMurMessage.type msg.dgReflect := by
  obtain ⟨_, hp, -⟩ := bind_eq_ok hp
  obtain ⟨_, -, hp⟩ := bind_eq_ok hp
  obtain ⟨_, hp, -⟩ := bind_eq_ok hp
  obtain ⟨_, hp, -⟩ := bind_eq_ok hp
  exact ⟨trivial, wellFormed_string hp, trivial⟩

open CompactSerializer in
theorem Mt19937Message.wellFormed {msg : Mt19937Message}
    (hp : put env h Mt19937Message.type msg.dgReflect = .ok bs) :
    WellFormed env Mt19937Message.type msg.dgReflect := by
  obtain ⟨_, hp, -⟩ := bind_eq_ok hp
  obtain ⟨_, hsalt, hp⟩ := bind_eq_ok hp
  obtain ⟨_, hp, -⟩ := bind_eq_ok hp
  obtain ⟨_, hencoded, -⟩ := bind_eq_ok hp
  exact ⟨wellFormed_string hsalt, wellFormed_string hencoded, trivial, trivial⟩

section Wire

variable (hl : p.env.Lawful) (hm : ∀ n, p.env.alloc n = true)
include hl hm

open CompactSerializer in
theorem MurMurEncoder.decode_encode {e : MurMurEncoder} {arg bs : Bytes}
    (h : e.encode p arg = .ok bs) : e.decode p bs = .ok arg := by
  have hs := mapError_eq_ok h
  obtain ⟨_, hput⟩ := bytes_of_toStream hs
  obtain ⟨_, hput, -⟩ := bind_eq_ok hput
  obtain ⟨cs, hcs, hget⟩ := dgstdDeserialize_serialize getNetworkDgstdSerializationHeader
    hl hm (MurMurMessage.wellFormed hput) ⟨trivial, trivial, trivial⟩ murmurSerializationSecret
  obtain rfl := Except.ok.inj (hs.symm.trans hcs)
  rw [decode, hget]
  exact if_neg fun hne => hne rfl

open CompactSerializer in
theorem Mt19937Encoder.deserialize_serialize {msg : Mt19937Message} {bs : Bytes}
    (h : serialize p msg = .ok bs) : deserialize p bs = .ok msg := by
  have hs := mapError_eq_ok h
  obtain ⟨_, hput⟩ := bytes_of_toStream hs
  obtain ⟨_, hput, -⟩ := bind_eq_ok hput
  obtain ⟨cs, hcs, hget⟩ := integrityDeserialize_serialize hl hm (Mt19937Message.wellFormed hput)
    ⟨trivial, trivial, trivial, trivial⟩ mt19937SerializationSecret
  obtain rfl := Except.ok.inj (hs.symm.trans hcs)
  rw [deserialize, hget]
  rfl

namespace Mt19937Encoder

variable {e e₁ e₂ : Mt19937Encoder G}

/-- What one encoder encodes, another one of its secret and period decodes. -/
theorem decode_encode (h : e₁.Same e₂) {arg bs : Bytes} (he : (e₁.encode p arg).1 = .ok bs) :
    e₂.decode p bs = .ok arg := by
  unfold encode at he
  dsimp only at he
  split at he
  · cases he
  · next encoded hcode =>
    have hsame : Same { e₁ with
        saltRandgen := (randomizeRandomBuffer p e₁.saltRandgen e₁.saltSzPerToken).2 } e₂ :=
      ⟨h.secret, h.dictionaryRenewSz⟩
    rw [decode, deserialize_serialize hl hm he, ok_bind]
    exact code_reverse hsame hcode

end Mt19937Encoder

end Wire

/-! ## DoubleEncoder -/

namespace DoubleEncoder

/-- The two encoders have all in common that a message depends on. -/
structure Same (e₁ e₂ : DoubleEncoder G) : Prop where
  first : e₁.firstEncoder = e₂.firstEncoder
  second : e₁.secondEncoder.Same e₂.secondEncoder

variable {e e₁ e₂ e₃ : DoubleEncoder G}

theorem Same.symm (h : e₁.Same e₂) : e₂.Same e₁ := ⟨h.1.symm, h.2.symm⟩

theorem Same.trans (h : e₁.Same e₂) (h' : e₂.Same e₃) : e₁.Same e₃ :=
  ⟨h.1.trans h'.1, h.2.trans h'.2⟩

theorem call_same (e : DoubleEncoder G) (c : Call) : e.Same (e.call p c) := by
  cases c with
  | decode msg => exact ⟨rfl, rfl, rfl⟩
  | encode msg =>
    rw [call, encode]
    split
    · exact ⟨rfl, rfl, rfl⟩
    · exact ⟨rfl, e.secondEncoder.encode_same _⟩

theorem after_same (e : DoubleEncoder G) (history : List Call) : e.Same (e.after p history) := by
  induction history generalizing e with
  | nil => exact ⟨rfl, rfl, rfl⟩
  | cons c history ih => exact (e.call_same c).trans (ih (e.call p c))

theorem make_same {secret : Bytes} {saltSz₁ saltSz₂ renewSz : Nat} {seed₁ seed₂ : U64}
    (h₁ : make p secret saltSz₁ renewSz seed₁ = .ok e₁)
    (h₂ : make p secret saltSz₂ renewSz seed₂ = .ok e₂) : e₁.Same e₂ := by
  obtain ⟨second₁, hmake₁, h₁⟩ := bind_eq_ok h₁
  obtain ⟨second₂, hmake₂, h₂⟩ := bind_eq_ok h₂
  obtain rfl := Except.ok.inj h₁
  obtain rfl := Except.ok.inj h₂
  exact ⟨rfl, Mt19937Encoder.make_same hmake₁ hmake₂⟩

theorem decode_of_same (hl : p.env.Lawful) (hm : ∀ n, p.env.alloc n = true) (h : e₁.Same e₂)
    {msg bs : Bytes} (he : (e₁.encode p msg).1 = .ok bs) : e₂.decode p bs = .ok msg := by
  unfold encode at he
  split at he
  · cases he
  · next first hfirst =>
    rw [decode, Mt19937Encoder.decode_encode hl hm h.second he, ok_bind, ← h.first]
    exact MurMurEncoder.decode_encode hl hm hfirst

/-- **Messages do not depend on histories.** Two encoders of one secret and one period of the
dictionaries, whatever they have encoded and decoded before: what the first encodes, the second
decodes to the plaintext. -/
theorem decode_encode_after (hl : p.env.Lawful) (hm : ∀ n, p.env.alloc n = true) (secret : Bytes)
    (saltSz₁ saltSz₂ dictionaryRenewSz : Nat) (seed₁ seed₂ : U64)
    (h₁ : make p secret saltSz₁ dictionaryRenewSz seed₁ = .ok e₁)
    (h₂ : make p secret saltSz₂ dictionaryRenewSz seed₂ = .ok e₂)
    (history₁ history₂ : List Call) (msg encoded : Bytes)
    (he : ((e₁.after p history₁).encode p msg).1 = .ok encoded) :
    (e₂.after p history₂).decode p encoded = .ok msg :=
  decode_of_same hl hm
    (((after_same e₁ history₁).symm.trans (make_same h₁ h₂)).trans (after_same e₂ history₂)) he

/-- A congruential generator, and hashes that run over the characters. -/
noncomputable def sampleBase : Base U64 where
  mt19937 seed := seed
  draw g := (g >>> 33, g * 6364136223846793005 + 1)
  murmurHash s seed := s.foldl (fun h c => h * 31 + c.setWidth 64) (seed.setWidth 64)
  murmurHash2 c d := c.setWidth 64 * 31 + d.setWidth 64
  env := CompactSerializer.intEnv

noncomputable def sampleEncoder (saltSz : Nat) (seed : U64) : DoubleEncoder U64 :=
  ⟨⟨sampleBase.murmurHash [1, 2] 0xFF⟩, ⟨[1, 2], seed, saltSz, 0, 2, by decide⟩⟩

theorem decode_encode_sample : ∃ encoded,
    (((sampleEncoder 1 5).after sampleBase [.encode [7], .decode []]).encode sampleBase
      [72, 105, 33]).1 = .ok encoded ∧
    ((sampleEncoder 9 6).after sampleBase [.encode [8, 8, 8]]).decode sampleBase encoded =
      .ok [72, 105, 33] := by
  have hok : (((sampleEncoder 1 5).after sampleBase [.encode [7], .decode []]).encode sampleBase
      [72, 105, 33]).1.isOk = true := by decide +kernel
  cases he : (((sampleEncoder 1 5).after sampleBase [.encode [7], .decode []]).encode sampleBase
    [72, 105, 33]).1 with
  | error s =>
    rw [he] at hok
    cases hok
  | ok encoded =>
    exact ⟨encoded, rfl, decode_encode_after CompactSerializer.intEnv_lawful (fun _ => rfl) [1, 2]
      1 9 2 5 6 rfl rfl _ _ _ _ he⟩

end DoubleEncoder

end UdSymEncoder
