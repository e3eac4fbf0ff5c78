import NeuralNetwork.InternalRest.SslX
import NeuralNetwork.InternalRest.Proof.SslSymmetricEncoder
import NeuralNetwork.Serializer.Proof.HuffmanEncoder

/-!
# What the secured mailbox hands out

After `i` rounds of `recv` the array starts with the plaintexts of the first `i` messages, followed
by what was delivered there (`Compacted`). `recv_sz` keeps the number of delivered messages, so
`recv` is right exactly for the batches in which every message decodes (`recv_intended_iff`), as
all do that were encoded by the encoder of the repository (`recv_sent`).
-/

namespace SslX.SecuredMailbox

open Cpp Loop

variable {ε : Type} (encoder : StreamMessageEncoderInterface ε)

def plaintext (msg : Bytes) : Option Bytes :=
  match encoder.decode msg with
  | .ok plain => some plain
  | .error _ => none

def plaintexts (delivered : List Bytes) : List Bytes := delivered.filterMap (plaintext encoder)

theorem length_plaintexts_le (delivered : List Bytes) :
    (plaintexts encoder delivered).length ≤ delivered.length :=
  List.length_filterMap_le _ _

theorem length_plaintexts_eq_iff (delivered : List Bytes) :
    (plaintexts encoder delivered).length = delivered.length ↔
      ∀ msg ∈ delivered, plaintext encoder msg ≠ none := by
  rw [plaintexts, List.filterMap_length_eq_length]
  simp [Option.isSome_iff_ne_none]

/-! ## The loop -/

structure Compacted (delivered outputContainerArr : List Bytes) (i : Nat) (s : List Bytes × Nat) :
    Prop where
  first : s.2 = (plaintexts encoder (delivered.take i)).length
  arr : s.1 = plaintexts encoder (delivered.take i) ++
    (delivered ++ outputContainerArr.drop delivered.length).drop s.2

theorem Compacted.step {delivered outputContainerArr : List Bytes} {i : Nat} {s : List Bytes × Nat}
    (h : Compacted encoder delivered outputContainerArr i s) (hi : i < delivered.length) :
    ∃ s', decodeRound encoder i s = .ok s' ∧
      Compacted encoder delivered outputContainerArr (i + 1) s' := by
  obtain ⟨arr, first⟩ := s
  obtain ⟨hfirst, harr⟩ := h
  simp only at hfirst harr
  have hle : first ≤ i := by
    have := length_plaintexts_le encoder (delivered.take i)
    rw [List.length_take] at this
    omega
  have hget : arr[i]? = some delivered[i] := by
    rw [harr, List.getElem?_append_right (by omega), List.getElem?_drop, ← hfirst]
    rw [show first + (i - first) = i by omega, List.getElem?_append_left hi]
    exact List.getElem?_eq_getElem hi
  have htake : plaintexts encoder (delivered.take (i + 1)) =
      plaintexts encoder (delivered.take i) ++ plaintexts encoder [delivered[i]] := by
    rw [List.take_succ_eq_append_getElem hi, plaintexts, List.filterMap_append]
    rfl
  cases hdec : encoder.decode delivered[i] with
  | error e =>
    have hnone : plaintexts encoder [delivered[i]] = [] := by simp [plaintexts, plaintext, hdec]
    rw [hnone, List.append_nil] at htake
    exact ⟨(arr, first), by simp [decodeRound, hget, hdec], by rw [htake]; exact hfirst,
      by rw [htake]; exact harr⟩
  | ok plain =>
    have hone : plaintexts encoder [delivered[i]] = [plain] := by
      simp [plaintexts, plaintext, hdec]
    rw [hone] at htake
    refine ⟨_, by simp [decodeRound, hget, hdec]; rfl, by simp [htake, hfirst], ?_⟩
    have hlt : first < (delivered ++ outputContainerArr.drop delivered.length).length := by
      simp only [List.length_append]; omega
    rw [htake, harr, List.set_append_right _ _ (by omega), ← hfirst, Nat.sub_self,
      List.drop_eq_getElem_cons hlt, List.set_cons_zero]
    simp

/-- The plaintexts come first, then what was delivered behind them; `recv_sz` is what the base
mailbox said. -/
theorem recv_ok (delivered outputContainerArr : List Bytes) :
    recv encoder delivered outputContainerArr =
      .ok ⟨plaintexts encoder delivered ++ (delivered ++ outputContainerArr.drop
        delivered.length).drop (plaintexts encoder delivered).length, delivered.length⟩ := by
  have h0 : Compacted encoder delivered outputContainerArr 0
      ((baseRecv delivered outputContainerArr).outputContainerArr, 0) := ⟨rfl, rfl⟩
  obtain ⟨⟨arr, first⟩, e, hfirst, harr⟩ := forLoop_ok
    (Compacted encoder delivered outputContainerArr) h0 (fun i hi s h => h.step encoder hi)
  rw [List.take_length] at hfirst harr
  simp only at hfirst harr
  unfold recv
  simp only [baseRecv] at e ⊢
  rw [e, ok_bind, harr, hfirst]

/-! ## The claim of the mailbox -/

def Intended (delivered : List Bytes) (r : Received) : Prop :=
  r.recvSz = (plaintexts encoder delivered).length ∧
    r.outputContainerArr.take r.recvSz = plaintexts encoder delivered

/-- **`recv` hands out exactly the plaintexts iff every delivered message decodes.** -/
theorem recv_intended_iff (delivered outputContainerArr : List Bytes) :
    ∃ r, recv encoder delivered outputContainerArr = .ok r ∧
      (Intended encoder delivered r ↔ ∀ msg ∈ delivered, ∃ plain, encoder.decode msg = .ok plain) := by
  refine ⟨_, recv_ok encoder delivered outputContainerArr, ?_⟩
  have hdecodes : (∀ msg ∈ delivered, ∃ plain, encoder.decode msg = .ok plain) ↔
      ∀ msg ∈ delivered, plaintext encoder msg ≠ none := by
    refine forall₂_congr fun msg _ => ?_
    cases h : encoder.decode msg <;> simp [plaintext, h]
  rw [hdecodes, ← length_plaintexts_eq_iff]
  constructor
  · exact fun h => h.1.symm
  · intro h
    exact ⟨h.symm, by simp [← h]⟩

def refusing : StreamMessageEncoder Unit where
  securedMsgGen := ⟨fun _ => .error (), fun _ => .error ()⟩
  getPadMessage := .ok []
  dgstdSerialize := fun msg => .ok msg.content
  dgstdDeserialize := fun _ => .error ()

/-- One message that does not decode: the output still counts it, and shows the ciphertext. -/
theorem recv_ciphertext :
    recv refusing.toInterface [[7]] [[]] = .ok ⟨[[7]], 1⟩ ∧
      ¬ Intended refusing.toInterface [[7]] ⟨[[7]], 1⟩ := by
  refine ⟨by decide, fun h => ?_⟩
  exact absurd h.1 (by decide)

end SslX.SecuredMailbox

/-! ## From end to end -/

namespace SslX

open Loop Serializer CompactSerializer
open UdSymEncoder (Base U64 Mt19937Encoder wellFormed_string)
open SecuredMailbox (plaintext plaintexts recv recv_ok)

variable {G : Type} {p : Base G} {std : HuffmanEncoder.Heap} {d : Draws} {msg : Bytes}

theorem length_getSecret (word : Nat → U64) (secretSz : Nat) :
    (getSecret word secretSz).length = secretSz := by
  rw [getSecret, List.length_append, List.length_flatMap]
  simp only [LittleEndian.length_dump, List.length_take, List.map_const', List.sum_replicate,
    List.length_range, Nat.nsmul_eq_mul]
  omega

/-- An encoder is made of a secret of `2 ^ k` bytes, or of none. -/
theorem make_iff (secret : Bytes) (saltSz renewSz : Nat) (seed : U64) :
    (∃ e, Mt19937Encoder.make p secret saltSz renewSz seed = .ok e) ↔
      secret.length = 0 ∨ Stdx.isPow2 secret.length := by
  have hsecret : secret.length = 0 ∨ Stdx.isPow2 secret.length ↔
      Stdx.isPow2 (if secret.isEmpty then UdSymEncoder.defaultSecret else secret).length := by
    cases secret with
    | nil => exact iff_of_true (.inl rfl) (by decide)
    | cons c cs => exact or_iff_right (Nat.succ_ne_zero _)
  rw [hsecret]
  unfold Mt19937Encoder.make
  dsimp only
  constructor
  · rintro ⟨e, h⟩
    by_contra hpow
    rw [dif_neg hpow] at h
    cases h
  · exact fun hpow => ⟨_, dif_pos hpow⟩

section

variable (hl : p.env.Lawful) (hm : ∀ n, p.env.alloc n = true)
include hl hm

theorem deserialize_serialize {t : Ty} {v : Val t} {bs : Bytes} (hv : HasValues t v)
    (hw : ∀ cs, put p.env (some getNetworkDgstdSerializationHeader) t v = .ok cs →
      WellFormed p.env t v) (h : serialize p t v = .ok bs) : deserialize p t bs = .ok v := by
  have hs := mapError_eq_ok h
  obtain ⟨_, hput⟩ := bytes_of_toStream hs
  obtain ⟨_, hput, -⟩ := bind_eq_ok hput
  obtain ⟨cs, hcs, hget⟩ :=
    dgstdDeserialize_serialize getNetworkDgstdSerializationHeader hl hm (hw _ hput) hv 0
  obtain rfl := Except.ok.inj (hs.symm.trans hcs)
  rw [deserialize, hget]
  rfl

theorem SymmetricSecuredMessageEncoder.decode_encode (receiver : Draws) {sslMsg : SSLMessage}
    (hsz : (msg.length * 6 + 32) * 8 < 2 ^ 64) (h : encode p std d msg = .ok sslMsg) :
    decode p receiver sslMsg = .ok msg ∧ (msg.length = 0 ∨ Stdx.isPow2 msg.length) := by
  obtain ⟨text, htext, h⟩ := bind_eq_ok h
  obtain ⟨encoder, hmake, h⟩ := bind_eq_ok h
  obtain ⟨content, hcontent, h⟩ := bind_eq_ok h
  obtain ⟨newContent, hnew, h⟩ := bind_eq_ok h
  obtain rfl := Except.ok.inj h
  have hread := deserialize_serialize hl hm (v := Mt19937Message.dgReflect ⟨content, _⟩)
    ⟨trivial, trivial, trivial⟩ (fun cs hp => by
      obtain ⟨_, hp, -⟩ := bind_eq_ok hp
      obtain ⟨_, hp, -⟩ := bind_eq_ok hp
      exact ⟨wellFormed_string hp, trivial, trivial⟩) hnew
  have hpow := (make_iff ..).1 ⟨encoder, hmake⟩
  obtain ⟨encoder', hmake'⟩ := (make_iff (p := p) _ (BitVec.ofNat 64 msg.length).toNat
    dictionaryRenewSz receiver.randomizationSeed).2 hpow
  refine ⟨?_, length_getSecret d.secretWord msg.length ▸ hpow⟩
  rw [decode, hread, ok_bind]
  change (Mt19937Encoder.make p (getSecret d.secretWord msg.length)
    (BitVec.ofNat 64 msg.length).toNat dictionaryRenewSz receiver.randomizationSeed >>= _) = _
  rw [hmake', ok_bind]
  change (encoder'.decode p content >>= _) = _
  rw [Mt19937Encoder.decode_encode hl hm (Mt19937Encoder.make_same hmake hmake') hcontent, ok_bind,
    HuffmanEncoder.decode_of_encode hl hm hsz (mapError_eq_ok htext)]
  rfl

theorem symmetricEncoder_decode (receiver : Draws) {wire : Bytes} (hsz : (msg.length * 6 + 32) * 8 < 2 ^ 64)
    (h : (symmetricEncoder p std d).encode msg = .ok wire) :
    (symmetricEncoder p std receiver).decode wire = .ok msg ∧
      (msg.length = 0 ∨ Stdx.isPow2 msg.length) := by
  obtain ⟨sslMsg, hssl, h⟩ := bind_eq_ok h
  refine (SymmetricSecuredMessageEncoder.decode_encode hl hm receiver hsz hssl).imp_left fun hdec => ?_
  have hread := deserialize_serialize hl hm
    (v := StreamMessage.dgReflect ⟨sslMsg.secret, getSecret d.padWord padSz, sslMsg.content⟩)
    ⟨trivial, trivial, trivial, trivial⟩ (fun cs hp => by
      obtain ⟨_, hp, -⟩ := bind_eq_ok hp
      obtain ⟨_, hsecret, hp⟩ := bind_eq_ok hp
      obtain ⟨_, hp, -⟩ := bind_eq_ok hp
      obtain ⟨_, hpad, hp⟩ := bind_eq_ok hp
      obtain ⟨_, hp, -⟩ := bind_eq_ok hp
      obtain ⟨_, hcontent, -⟩ := bind_eq_ok hp
      exact ⟨wellFormed_string hsecret, wellFormed_string hpad, wellFormed_string hcontent,
        trivial⟩) h
  change ((deserialize p StreamMessage.type wire).map StreamMessage.ofReflected >>= _) = _
  rw [hread]
  exact hdec

/-- **From end to end.** Of whatever encoded messages a base mailbox delivers, in any order and however
often, `recv` hands out the plaintexts, whatever the two sides draw. Only messages of `2 ^ k` bytes, or
of none, are encoded. -/
theorem recv_sent (receiver : Draws) {delivered : List (Bytes × Bytes)}
    (hsent : ∀ m ∈ delivered, (m.1.length * 6 + 32) * 8 < 2 ^ 64 ∧
      ∃ d, (symmetricEncoder p std d).encode m.1 = .ok m.2) (outputContainerArr : List Bytes) :
    (∃ r, recv (symmetricEncoder p std receiver).toInterface (delivered.map Prod.snd)
        outputContainerArr = .ok r ∧ r.recvSz = delivered.length ∧
        r.outputContainerArr.take r.recvSz = delivered.map Prod.fst) ∧
      ∀ m ∈ delivered, m.1.length = 0 ∨ Stdx.isPow2 m.1.length := by
  have hdec (m) (hmem : m ∈ delivered) :
      (symmetricEncoder p std receiver).toInterface.decode m.2 = .ok m.1 ∧
        (m.1.length = 0 ∨ Stdx.isPow2 m.1.length) := by
    obtain ⟨hsz, d, henc⟩ := hsent m hmem
    exact symmetricEncoder_decode hl hm receiver hsz henc
  have hall : plaintexts (symmetricEncoder p std receiver).toInterface (delivered.map Prod.snd) =
      delivered.map Prod.fst := by
    rw [plaintexts, List.filterMap_map, ← List.filterMap_eq_map]
    refine List.filterMap_congr fun m hmem => ?_
    rw [Function.comp_apply, plaintext, (hdec m hmem).1]
    rfl
  refine ⟨⟨_, recv_ok .., List.length_map _, ?_⟩, fun m hmem => (hdec m hmem).2⟩
  rw [hall]
  exact List.take_left' ((List.length_map _).trans (List.length_map _).symm)

end

def sampleDraws : Draws := ⟨fun i => BitVec.ofNat 64 i, fun _ => 0, 5⟩

noncomputable def sampleEncoder : Draws → StreamMessageEncoder UdSymEncoder.Stop :=
  symmetricEncoder UdSymEncoder.DoubleEncoder.sampleBase (StdHeap.sorted _)

theorem recv_sent_sample : ∃ wire, (sampleEncoder sampleDraws).encode [7] = .ok wire ∧
    ∃ r, recv (sampleEncoder sampleDraws).toInterface [wire, wire] [] = .ok r ∧
      r.outputContainerArr.take r.recvSz = [[7], [7]] := by
  have hok : ((sampleEncoder sampleDraws).encode [7]).isOk = true := by decide +kernel
  cases he : (sampleEncoder sampleDraws).encode [7] with
  | error s =>
    rw [he] at hok
    cases hok
  | ok wire =>
    have hsent (m) (hm : m ∈ [([7], wire), ([7], wire)]) : (List.length m.1 * 6 + 32) * 8 < 2 ^ 64 ∧
        ∃ d, (sampleEncoder d).encode m.1 = .ok m.2 := by
      obtain rfl : m = ([7], wire) := by simpa using hm
      exact ⟨show (1 * 6 + 32) * 8 < 2 ^ 64 by decide, sampleDraws, he⟩
    obtain ⟨⟨r, hr, -, harr⟩, -⟩ := recv_sent intEnv_lawful (fun _ => rfl) sampleDraws hsent []
    exact ⟨wire, rfl, r, hr, harr⟩

end SslX
