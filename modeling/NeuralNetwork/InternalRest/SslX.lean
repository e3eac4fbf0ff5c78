import NeuralNetwork.InternalRest.SslSymmetricEncoder
import NeuralNetwork.Serializer.HuffmanEncoder

/-!
# The secured mailbox

`StreamMessageEncoder` and `SecuredMailbox::recv` of
`internal_rest/network_kernel_mailbox_impl1_ssl_x.h`. The base mailbox is what it delivers; the
cipher and the compact serializer under the encoder are functions that may throw, and those of the
repository in `symmetricEncoder`.
-/

namespace SslX

open Cpp Loop

abbrev Bytes := List Byte

structure SSLMessage where
  secret : Bytes
  content : Bytes

structure StreamMessage where
  secret : Bytes
  pad : Bytes
  content : Bytes

/-- `SecuredMessageEncoderInterface`, with exceptions `ε`. -/
structure SecuredMessageEncoderInterface (ε : Type) where
  encode : Bytes → Except ε SSLMessage
  decode : SSLMessage → Except ε Bytes

structure StreamMessageEncoderInterface (ε : Type) where
  encode : Bytes → Except ε Bytes
  decode : Bytes → Except ε Bytes

structure StreamMessageEncoder (ε : Type) where
  securedMsgGen : SecuredMessageEncoderInterface ε
  getPadMessage : Except ε Bytes
  dgstdSerialize : StreamMessage → Except ε Bytes
  dgstdDeserialize : Bytes → Except ε StreamMessage

variable {ε : Type}

namespace StreamMessageEncoder

def encode (e : StreamMessageEncoder ε) (msg : Bytes) : Except ε Bytes := do
  let sslMsg ← e.securedMsgGen.encode msg
  let pad ← e.getPadMessage
  e.dgstdSerialize ⟨sslMsg.secret, pad, sslMsg.content⟩

def decode (e : StreamMessageEncoder ε) (msg : Bytes) : Except ε Bytes := do
  let streamMsg ← e.dgstdDeserialize msg
  e.securedMsgGen.decode ⟨streamMsg.secret, streamMsg.content⟩

def toInterface (e : StreamMessageEncoder ε) : StreamMessageEncoderInterface ε :=
  ⟨e.encode, e.decode⟩

end StreamMessageEncoder

/-- `output_container_arr` and `recv_sz`. -/
structure Received where
  outputContainerArr : List Bytes
  recvSz : Nat
deriving DecidableEq

namespace SecuredMailbox

/-- `base->recv`: the batch `delivered`, written to the front of the array. -/
def baseRecv (delivered outputContainerArr : List Bytes) : Received :=
  ⟨delivered ++ outputContainerArr.drop delivered.length, delivered.length⟩

/-- One round of the loop, on the array and `first_idx`. -/
def decodeRound (encoder : StreamMessageEncoderInterface ε) (i : Nat) (s : List Bytes × Nat) :
    Except Fault (List Bytes × Nat) :=
  match s.1[i]? with
  | none => .error .outOfBounds
  | some msg =>
    match encoder.decode msg with
    | .ok plain => .ok (s.1.set s.2 plain, s.2 + 1)
    | .error _ => .ok s

def recv (encoder : StreamMessageEncoderInterface ε) (delivered outputContainerArr : List Bytes) :
    Except Fault Received := do
  let r := baseRecv delivered outputContainerArr
  let (arr, _) ← forLoop (decodeRound encoder) r.recvSz (r.outputContainerArr, 0)
  .ok { r with outputContainerArr := arr }

end SecuredMailbox

/-! ## The encoder of the repository -/

section Symmetric

open LittleEndian Serializer
open CompactSerializer (dgstdDeserialize dgstdSerialize getNetworkDgstdSerializationHeader)
open UdSymEncoder (Base Mt19937Encoder Res U64 stringTy)

structure Mt19937Message where
  content : Bytes
  saltSz : U64

def Mt19937Message.type : Ty := .reflectible (.cons stringTy (.cons (.int .uint64) .nil))

def Mt19937Message.dgReflect (msg : Mt19937Message) : Val Mt19937Message.type :=
  (msg.content, msg.saltSz, ())

def Mt19937Message.ofReflected (v : Val Mt19937Message.type) : Mt19937Message :=
  let v : Bytes × U64 × Unit := v
  ⟨v.1, v.2.1⟩

def StreamMessage.type : Ty :=
  .reflectible (.cons stringTy (.cons stringTy (.cons stringTy .nil)))

def StreamMessage.dgReflect (msg : StreamMessage) : Val StreamMessage.type :=
  (msg.secret, msg.pad, msg.content, ())

def StreamMessage.ofReflected (v : Val StreamMessage.type) : StreamMessage :=
  let v : Bytes × Bytes × Bytes × Unit := v
  ⟨v.1, v.2.1, v.2.2.1⟩

/-- `get_secret` of a `ClockBasedSecretGenerator`, which hashes `word i` in its round `i`. -/
def getSecret (word : Nat → U64) (secretSz : Nat) : Bytes :=
  let revSz := secretSz / 8
  let remSz := secretSz - revSz * 8
  (List.range revSz).flatMap (fun i => dump 8 (word i)) ++ (dump 8 (word revSz)).take remSz

def padSz : Nat := 2 ^ 10

def dictionaryRenewSz : Nat := 2 ^ 4

/-- What a call draws: the words of its secret and of its pad, and the seed of its salt. -/
structure Draws where
  secretWord : Nat → U64
  padWord : Nat → U64
  randomizationSeed : U64

variable {G : Type} (p : Base G) (std : HuffmanEncoder.Heap) (d : Draws)

def serialize (t : Ty) (v : Val t) : Res Bytes :=
  (dgstdSerialize p.env getNetworkDgstdSerializationHeader t v 0).mapError .serializer

def deserialize (t : Ty) (bstream : Bytes) : Res (Val t) :=
  (dgstdDeserialize p.env getNetworkDgstdSerializationHeader t bstream 0).mapError .serializer

namespace SymmetricSecuredMessageEncoder

def encode (msg : Bytes) : Res SSLMessage := do
  let secret := getSecret d.secretWord msg.length
  let highEntropyMsg ← (HuffmanEncoder.encode std p.env msg).mapError .serializer
  let encoder ← Mt19937Encoder.make p secret msg.length dictionaryRenewSz d.randomizationSeed
  let content ← (encoder.encode p highEntropyMsg).1
  let newContent ← serialize p Mt19937Message.type
    (Mt19937Message.dgReflect ⟨content, BitVec.ofNat 64 msg.length⟩)
  pure ⟨secret, newContent⟩

def decode (msg : SSLMessage) : Res Bytes := do
  let v ← deserialize p Mt19937Message.type msg.content
  let mtMsg := Mt19937Message.ofReflected v
  let encoder ← Mt19937Encoder.make p msg.secret mtMsg.saltSz.toNat dictionaryRenewSz
    d.randomizationSeed
  let highEntropyMsg ← encoder.decode p mtMsg.content
  (HuffmanEncoder.decode p.env highEntropyMsg).mapError .serializer

end SymmetricSecuredMessageEncoder

/-- A `StreamMessageEncoder` over a `SymmetricSecuredMessageEncoder`. -/
def symmetricEncoder : StreamMessageEncoder UdSymEncoder.Stop where
  securedMsgGen := ⟨SymmetricSecuredMessageEncoder.encode p std d,
    SymmetricSecuredMessageEncoder.decode p d⟩
  getPadMessage := .ok (getSecret d.padWord padSz)
  dgstdSerialize msg := serialize p StreamMessage.type msg.dgReflect
  dgstdDeserialize bstream :=
    (deserialize p StreamMessage.type bstream).map StreamMessage.ofReflected

end Symmetric

end SslX
