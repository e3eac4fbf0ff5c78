import NeuralNetwork.Lib.Loop
import NeuralNetwork.Serializer.CompactSerializer
import NeuralNetwork.StlExtension.Stdx

/-!
# The symmetric encoder

`MurMurEncoder`, `Mt19937Encoder` and `DoubleEncoder` of
`internal_rest/network_ssl_symmetric_encoder.h`. The generator and the hash are parameters; a
`std::string` is the list of its bytes.
-/

namespace UdSymEncoder

open Cpp LittleEndian Serializer

abbrev Bytes := List Byte

abbrev U64 := BitVec 64

inductive Stop where
  | serializer (s : CompactSerializer.Stop)
  | corruptedFormat
  | fault (f : Fault)
deriving DecidableEq, Repr

abbrev Res := Except Stop

/-- What the encoders are built on: `mt19937`, of which `draw` is the call operator, the two
overloads of `murmur_hash`, for a size and for two characters, and what the serializer takes. -/
structure Base (G : Type) where
  mt19937 : U64 → G
  draw : G → U64 × G
  murmurHash : Bytes → BitVec 32 → U64
  murmurHash2 : Byte → Byte → U64
  env : CompactSerializer.Env

variable {G : Type} (p : Base G)

/-! ## Messages -/

structure MurMurMessage where
  validationKey : U64
  encoded : Bytes
deriving DecidableEq, Repr

structure Mt19937Message where
  randomSpace : Bytes
  encoded : Bytes
  secretOffset : U64
deriving DecidableEq, Repr

abbrev stringTy : Ty := .cpyable .basicString .char

def MurMurMessage.type : Ty := .reflectible (.cons (.int .uint64) (.cons stringTy .nil))

def MurMurMessage.dgReflect (msg : MurMurMessage) : Val MurMurMessage.type :=
  (msg.validationKey, msg.encoded, ())

def MurMurMessage.ofReflected (v : Val MurMurMessage.type) : MurMurMessage :=
  let v : U64 × Bytes × Unit := v
  ⟨v.1, v.2.1⟩

def Mt19937Message.type : Ty :=
  .reflectible (.cons stringTy (.cons stringTy (.cons (.int .uint64) .nil)))

def Mt19937Message.dgReflect (msg : Mt19937Message) : Val Mt19937Message.type :=
  (msg.randomSpace, msg.encoded, msg.secretOffset, ())

def Mt19937Message.ofReflected (v : Val Mt19937Message.type) : Mt19937Message :=
  let v : Bytes × Bytes × U64 × Unit := v
  ⟨v.1, v.2.1, v.2.2.1⟩

/-! ## MurMurEncoder -/

structure MurMurEncoder where
  secret : U64

namespace MurMurEncoder

def murmurSerializationSecret : BitVec 32 := 1042927439

/-- The secret goes to a `uint32_t` seed. -/
def validationKey (e : MurMurEncoder) (msg : Bytes) : U64 :=
  p.murmurHash msg (e.secret.setWidth 32)

def encode (e : MurMurEncoder) (arg : Bytes) : Res Bytes :=
  (CompactSerializer.dgstdSerialize p.env CompactSerializer.getNetworkDgstdSerializationHeader
    MurMurMessage.type (MurMurMessage.dgReflect ⟨e.validationKey p arg, arg⟩)
    murmurSerializationSecret).mapError .serializer

def decode (e : MurMurEncoder) (arg : Bytes) : Res Bytes := do
  let v ← (CompactSerializer.dgstdDeserialize p.env
    CompactSerializer.getNetworkDgstdSerializationHeader MurMurMessage.type arg
    murmurSerializationSecret).mapError .serializer
  let msg := MurMurMessage.ofReflected v
  if e.validationKey p msg.encoded ≠ msg.validationKey then .error .corruptedFormat
  else pure msg.encoded

end MurMurEncoder

/-! ## xrange_mt19937 -/

structure XrangeMt19937 (G : Type) where
  base : List G
  offset : Nat

namespace XrangeMt19937

/-- The eight bytes of the seed from `8 * i` on, with zeros for those that it does not have. -/
def subSeed (seed : Bytes) (i : Nat) : U64 :=
  let first := i * 8
  let last := min ((i + 1) * 8) seed.length
  load 8 ((seed.drop first).take (last - first))

def make (seed : Bytes) : Res (XrangeMt19937 G) :=
  if seed.length = 0 then pure ⟨[p.mt19937 0], 0⟩
  else do
    let vecSz := seed.length / 8 + if seed.length % 8 ≠ 0 then 1 else 0
    let ceil2Sz ← (Stdx.ceil2 vecSz).mapError .fault
    pure ⟨(List.range ceil2Sz).map fun j => p.mt19937 (subSeed seed (j % vecSz)), 0⟩

def next (r : XrangeMt19937 G) : Res (U64 × XrangeMt19937 G) :=
  let i := r.offset &&& (r.base.length - 1)
  match r.base[i]? with
  | none => .error (.fault .outOfBounds)
  | some g =>
    let (x, g) := p.draw g
    pure (x, ⟨r.base.set i g, sizeT (r.offset + 1)⟩)

end XrangeMt19937

/-! ## The byte dictionaries -/

def dictionarySz : Nat := 2 ^ 8

def iterationSz : Nat := 2 ^ 7

/-- A `dg_sock::vector<uint8_t>` of `DICTIONARY_SZ` entries. -/
abbrev Dict := Vector Byte dictionarySz

def entry (dict : Dict) (i : Fin dictionarySz) : Byte := dict[i.val]

def iota : Dict := Vector.ofFn fun i => BitVec.ofFin i

/-- One step of the shuffle. -/
def shuffle (s : Dict × XrangeMt19937 G) (i : Fin iterationSz) : Res (Dict × XrangeMt19937 G) := do
  let lhsIdx := i.val
  let (x, randomizer) ← s.2.next p
  let rhsIdx := x.toNat % dictionarySz
  pure (s.1.swap lhsIdx rhsIdx (Nat.lt_trans i.isLt (by decide)) (Nat.mod_lt _ (by decide)),
    randomizer)

def getByteDict (randomizer : XrangeMt19937 G) : Res (Dict × XrangeMt19937 G) :=
  (List.finRange iterationSz).foldlM (shuffle p) (iota, randomizer)

def reverseDict (fwdDict : Dict) : Dict :=
  (List.finRange dictionarySz).foldl
    (fun rs i => rs.set (entry fwdDict i).toNat (BitVec.ofFin i) (entry fwdDict i).isLt)
    (Vector.replicate dictionarySz 0)

def getReverseByteDict (randomizer : XrangeMt19937 G) : Res (Dict × XrangeMt19937 G) := do
  let (fwdDict, randomizer) ← getByteDict p randomizer
  pure (reverseDict fwdDict, randomizer)

/-- `byte_encode`, and `byte_decode` with the reverse dictionary. -/
def byteEncode (key : Byte) (dict : Dict) : Byte := entry dict key.toFin

/-! ## Mt19937Encoder -/

/-- The loops of `encode` and `decode`, which differ in the dictionary that they ask for: `wordDict`
is renewed when it has served `dictionaryRenewSz` bytes. -/
def translate (getDict : XrangeMt19937 G → Res (Dict × XrangeMt19937 G)) (dictionaryRenewSz : Nat) :
    Bytes → Dict → Nat → XrangeMt19937 G → Res Bytes
  | [], _, _, _ => pure []
  | c :: cs, wordDict, renewI, randomizer =>
    if renewI = dictionaryRenewSz then do
      let (wordDict, randomizer) ← getDict randomizer
      let rest ← translate getDict dictionaryRenewSz cs wordDict 1 randomizer
      pure (byteEncode c wordDict :: rest)
    else do
      let rest ← translate getDict dictionaryRenewSz cs wordDict (renewI + 1) randomizer
      pure (byteEncode c wordDict :: rest)

structure Mt19937Encoder (G : Type) where
  secret : Bytes
  saltRandgen : G
  saltSzPerToken : Nat
  secretOffset : U64
  dictionaryRenewSz : Nat
  secret_isPow2 : Stdx.isPow2 secret.length

def defaultSecret : Bytes := "mersenne_twister".toList.map fun c => BitVec.ofNat 8 c.toNat

/-- `randomize_random_buffer`, of which the last draw is for the bytes past the last full word. -/
def randomWords : Nat → G → Bytes × G
  | 0, g => ([], g)
  | n + 1, g =>
    let (x, g) := p.draw g
    let (bs, g) := randomWords n g
    (dump 8 x ++ bs, g)

def randomizeRandomBuffer (g : G) (sz : Nat) : Bytes × G :=
  let revSz := sz / 8
  let remSz := sz - revSz * 8
  let (rs, g) := randomWords p revSz g
  let (x, g) := p.draw g
  (rs ++ (dump 8 x).take remSz, g)

namespace Mt19937Encoder

def mt19937SerializationSecret : BitVec 32 := 1422722760

def make (secret : Bytes) (saltSzPerToken dictionaryRenewSz : Nat) (randomizationSeed : U64) :
    Res (Mt19937Encoder G) :=
  let secret := if secret.isEmpty then defaultSecret else secret
  if h : Stdx.isPow2 secret.length then
    pure ⟨secret, p.mt19937 randomizationSeed, saltSzPerToken, 0, max dictionaryRenewSz 1, h⟩
  else
    .error (.fault (.invalidArgument "bad secret, secret size is not of base 2"))

theorem and_lt {n : Nat} (h : Stdx.isPow2 n) (i : Nat) : i &&& (n - 1) < n :=
  Nat.lt_of_le_of_lt Nat.and_le_right (Nat.sub_lt (Nat.pos_of_ne_zero h.1) Nat.one_pos)

variable (e : Mt19937Encoder G)

def projectSubsecretChar (c : Byte) (localSecretOffset : U64) : Byte :=
  (p.murmurHash2
    (e.secret.get ⟨localSecretOffset.toNat &&& (e.secret.length - 1), and_lt e.secret_isPow2 _⟩)
    c).setWidth 8

def projectSubsecretBuffer : Bytes → U64 → Bytes
  | [], _ => []
  | c :: cs, localSecretOffset =>
    e.projectSubsecretChar p c localSecretOffset ::
      projectSubsecretBuffer cs (localSecretOffset + 1)

/-- The bytes of a message through the dictionaries of its salt and offset. -/
def code (getDict : XrangeMt19937 G → Res (Dict × XrangeMt19937 G)) (randomSpace : Bytes)
    (localSecretOffset : U64) (arg : Bytes) : Res Bytes := do
  let randomizer ← XrangeMt19937.make p (e.projectSubsecretBuffer p randomSpace localSecretOffset)
  let (wordDict, randomizer) ← getDict randomizer
  translate getDict e.dictionaryRenewSz arg wordDict 0 randomizer

def serialize (msg : Mt19937Message) : Res Bytes :=
  (CompactSerializer.integritySerialize p.env Mt19937Message.type msg.dgReflect
    mt19937SerializationSecret).mapError .serializer

def deserialize (bstream : Bytes) : Res Mt19937Message := do
  let v ← (CompactSerializer.integrityDeserialize p.env Mt19937Message.type bstream
    mt19937SerializationSecret).mapError .serializer
  pure (.ofReflected v)

/-- What `encode` returns or throws, and the encoder after it. -/
def encode (arg : Bytes) : Res Bytes × Mt19937Encoder G :=
  let (randomSpace, saltRandgen) := randomizeRandomBuffer p e.saltRandgen e.saltSzPerToken
  let e := { e with saltRandgen := saltRandgen }
  match e.code p (getByteDict p) randomSpace e.secretOffset arg with
  | .error s => (.error s, e)
  | .ok encoded =>
    (serialize p ⟨randomSpace, encoded, e.secretOffset⟩,
      { e with secretOffset := e.secretOffset + BitVec.ofNat 64 arg.length })

def decode (arg : Bytes) : Res Bytes := do
  let msg ← deserialize p arg
  e.code p (getReverseByteDict p) msg.randomSpace msg.secretOffset msg.encoded

end Mt19937Encoder

/-! ## DoubleEncoder -/

structure DoubleEncoder (G : Type) where
  firstEncoder : MurMurEncoder
  secondEncoder : Mt19937Encoder G

namespace DoubleEncoder

def make (secret : Bytes) (saltSzPerToken dictionaryRenewSz : Nat) (randomizationSeed : U64) :
    Res (DoubleEncoder G) := do
  let second ← Mt19937Encoder.make p secret saltSzPerToken dictionaryRenewSz randomizationSeed
  pure ⟨⟨p.murmurHash secret 0xFF⟩, second⟩

variable (e : DoubleEncoder G)

def encode (msg : Bytes) : Res Bytes × DoubleEncoder G :=
  match e.firstEncoder.encode p msg with
  | .error s => (.error s, e)
  | .ok first =>
    let (encoded, second) := e.secondEncoder.encode p first
    (encoded, { e with secondEncoder := second })

def decode (msg : Bytes) : Res Bytes := do
  let second ← e.secondEncoder.decode p msg
  e.firstEncoder.decode p second

inductive Call where
  | encode (msg : Bytes)
  | decode (msg : Bytes)

def call : Call → DoubleEncoder G
  | .encode msg => (e.encode p msg).2
  | .decode _ => e

def after (history : List Call) : DoubleEncoder G := history.foldl (call p) e

end DoubleEncoder

end UdSymEncoder
