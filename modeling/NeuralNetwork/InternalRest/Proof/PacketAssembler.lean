import NeuralNetwork.StlExtension.Proof.CyclicUnorderedNodeMap
import NeuralNetwork.InternalRest.FlashStream.PacketAssembler

/-!
# The state of the packet assembler

`Outcome` says, on the multiset of stored packets, everything a segment can do; `assembleOne_ok`
proves it of the code. Stored packets stay well counted (`PacketOk`), and a segment that is refused
changes nothing but the eviction of the oldest slot: `assembler_invariant`.
-/

namespace FlashStream

open Cpp Loop Stdx HashChain CyclicUnordered Keys CyclicUnorderedNodeMap
open PacketAssembler (assembleLoop)
open CyclicUnorderedNodeMap (find_ok get_of_some make_ok size_eq)

namespace PacketAssembler

abbrev Entry := GlobalIdentifier × AssembledPacket

def stored (a : PacketAssembler) : List Entry := a.packetMap.entries

def cap (a : PacketAssembler) : Nat := a.packetMap.storageCap

/-! ## What a segment can do -/

def put (pkt : AssembledPacket) (segment : PacketSegment) : AssembledPacket :=
  { pkt with
    data := pkt.data.set segment.segmentIdx.toNat (some segment.buf)
    collectedSegmentSz := sizeT (pkt.collectedSegmentSz + 1) }

def waiting (segment : PacketSegment) : AssembledPacket :=
  makeEmptyAssembledPacket segment.segmentSz.toNat segment.mmIntegrityValue
    segment.hasMmIntegrityValue

abbrev Complete (pkt : AssembledPacket) : Prop := pkt.collectedSegmentSz = pkt.totalSegmentSz

def Absent (es : List Entry) (id : GlobalIdentifier) : Prop := ∀ pkt, (id, pkt) ∉ es

/-- What a segment does to the stored packets `es`, whose order is of no concern but for the front
that a full map loses. -/
inductive Outcome (cap maxSz : Nat) (es : List Entry) (segment : PacketSegment) :
    List Entry → Except Exception AssembledPacket → Prop where
  | empty (h : segment.segmentSz = 0) : Outcome cap maxSz es segment es (.ok (waiting segment))
  | badSize (h : segment.segmentSz ≠ 0) (habsent : Absent es segment.id)
      (hsz : maxSz < segment.segmentSz.toNat) :
      Outcome cap maxSz es segment es (.error .socketStreamBadSegmentSize)
  | outOfRangeNew (es' : List Entry) (h : segment.segmentSz ≠ 0) (habsent : Absent es segment.id)
      (hsz : segment.segmentSz.toNat ≤ maxSz)
      (hidx : segment.segmentSz.toNat ≤ segment.segmentIdx.toNat)
      (hperm : es'.Perm (evict cap es)) :
      Outcome cap maxSz es segment es' (.error .indexOutOfRange)
  | startDone (es' : List Entry) (h : segment.segmentSz ≠ 0) (habsent : Absent es segment.id)
      (hsz : segment.segmentSz.toNat ≤ maxSz)
      (hidx : segment.segmentIdx.toNat < segment.segmentSz.toNat)
      (hdone : Complete (put (waiting segment) segment)) (hperm : es'.Perm (evict cap es)) :
      Outcome cap maxSz es segment es' (.ok (put (waiting segment) segment))
  | start (es' : List Entry) (h : segment.segmentSz ≠ 0) (habsent : Absent es segment.id)
      (hsz : segment.segmentSz.toNat ≤ maxSz)
      (hidx : segment.segmentIdx.toNat < segment.segmentSz.toNat)
      (hdone : ¬ Complete (put (waiting segment) segment))
      (hperm : es'.Perm ((segment.id, put (waiting segment) segment) :: evict cap es)) :
      Outcome cap maxSz es segment es' (.error .socketStreamSegmentFilling)
  | outOfRange (pkt : AssembledPacket) (h : segment.segmentSz ≠ 0) (hmem : (segment.id, pkt) ∈ es)
      (hidx : pkt.data[segment.segmentIdx.toNat]? = none) :
      Outcome cap maxSz es segment es (.error .indexOutOfRange)
  | duplicate (pkt : AssembledPacket) (buf : List Byte) (h : segment.segmentSz ≠ 0)
      (hmem : (segment.id, pkt) ∈ es)
      (hidx : pkt.data[segment.segmentIdx.toNat]? = some (some buf)) :
      Outcome cap maxSz es segment es (.error .socketStreamDuplicatedSegment)
  | finish (pkt : AssembledPacket) (es' : List Entry) (h : segment.segmentSz ≠ 0)
      (hmem : (segment.id, pkt) ∈ es)
      (hidx : pkt.data[segment.segmentIdx.toNat]? = some none)
      (hdone : Complete (put pkt segment)) (hperm : ((segment.id, pkt) :: es').Perm es) :
      Outcome cap maxSz es segment es' (.ok (put pkt segment))
  | fill (pkt : AssembledPacket) (es' rest : List Entry) (h : segment.segmentSz ≠ 0)
      (hmem : (segment.id, pkt) ∈ es)
      (hidx : pkt.data[segment.segmentIdx.toNat]? = some none)
      (hdone : ¬ Complete (put pkt segment)) (hperm : ((segment.id, pkt) :: rest).Perm es)
      (hperm' : es'.Perm ((segment.id, put pkt segment) :: rest)) :
      Outcome cap maxSz es segment es' (.error .socketStreamSegmentFilling)

/-! ## The code does it -/

variable {hasher : GlobalIdentifier → Nat} {debugMode : Bool} {a : PacketAssembler}

def Ordered (hasher : GlobalIdentifier → Nat) (a : PacketAssembler) : Prop :=
  a.packetMap.Inv (ofHash hasher)

variable {id : GlobalIdentifier} {pkt : AssembledPacket} {segments : List PacketSegment}
  {results : List (Except Exception AssembledPacket)}

variable {segment : PacketSegment} {es : List Entry} {keys : Keys GlobalIdentifier} {maxSz : Nat}
  {a' : PacketAssembler} {p : Nat}

theorem absent_iff :
    holds (ofHash hasher).pred es id = false ↔ Absent es id := by
  unfold holds Absent
  rw [← Bool.not_eq_true, List.any_eq_true]
  simp only [ofHash_pred, not_exists, not_and]
  constructor
  · intro h pkt hmem
    exact h _ hmem rfl
  · rintro h ⟨id', pkt⟩ hmem rfl
    exact h pkt hmem

theorem Absent.evict (h : Absent es id) (cap : Nat) :
    Absent (evict cap es) id := fun pkt hmem => by
  refine h pkt ?_
  unfold CyclicUnordered.evict at hmem
  split at hmem
  · exact List.mem_of_mem_tail hmem
  · exact hmem

theorem put_cases (pkt : AssembledPacket) (segment : PacketSegment) :
    internalPacketSegmentPut pkt segment =
      match pkt.data[segment.segmentIdx.toNat]? with
      | none => .error .indexOutOfRange
      | some (some _) => .error .socketStreamDuplicatedSegment
      | some none => .ok (put pkt segment) := rfl

theorem erase_ok (h : a.Ordered hasher) {e : Entry} (hentry : a.stored[p]? = some e) :
    ∃ a', a.erase (ofHash hasher) p = .ok a' ∧ a'.Ordered hasher ∧ a'.cap = a.cap ∧
      a'.maxSegmentSzPerStream = a.maxSegmentSzPerStream ∧ a'.consumeSzPerLoad = a.consumeSzPerLoad ∧
      (e :: a'.stored).Perm a.stored := by
  obtain ⟨m', e', h', hentries, hcap⟩ := internalEraseIter_ok h hentry
  refine ⟨{ a with packetMap := m' }, ?_, h', hcap, rfl, rfl, ?_⟩
  · rw [erase, e', ok_bind]
    rfl
  · show (e :: m'.entries).Perm a.packetMap.entries
    rw [hentries]
    exact cons_slotErase_perm hentry

structure PutAt (a : PacketAssembler) (id : GlobalIdentifier) (pkt : AssembledPacket)
    (isNew : Bool) (segment : PacketSegment) (a' : PacketAssembler)
    (r : Except Exception AssembledPacket) : Prop where
  failed : ∀ err, internalPacketSegmentPut pkt segment = .error err →
    r = .error err ∧ if isNew then ((id, pkt) :: a'.stored).Perm a.stored else a' = a
  done : ∀ pkt', internalPacketSegmentPut pkt segment = .ok pkt' → Complete pkt' →
    r = .ok pkt' ∧ ((id, pkt) :: a'.stored).Perm a.stored
  filling : ∀ pkt', internalPacketSegmentPut pkt segment = .ok pkt' → ¬ Complete pkt' →
    r = .error .socketStreamSegmentFilling ∧ ∃ rest, ((id, pkt) :: rest).Perm a.stored ∧
      a'.stored.Perm ((id, pkt') :: rest)

/-- The parameters of the assembler and the room of its map do not change. -/
structure SameLimits (a a' : PacketAssembler) : Prop where
  cap : a'.cap = a.cap
  maxSegmentSzPerStream : a'.maxSegmentSzPerStream = a.maxSegmentSzPerStream
  maxConsumeSize : a'.maxConsumeSize = a.maxConsumeSize

theorem SameLimits.refl (a : PacketAssembler) : SameLimits a a := ⟨rfl, rfl, rfl⟩

theorem SameLimits.trans {a1 a2 a3 : PacketAssembler} (h : SameLimits a1 a2)
    (h' : SameLimits a2 a3) : SameLimits a1 a3 :=
  ⟨h'.cap.trans h.cap, h'.maxSegmentSzPerStream.trans h.maxSegmentSzPerStream,
    h'.maxConsumeSize.trans h.maxConsumeSize⟩

theorem putSegment_ok (h : a.Ordered hasher) (hentry : a.stored[p]? = some (id, pkt)) (isNew : Bool)
    (segment : PacketSegment) :
    ∃ a' r, a.putSegment (ofHash hasher) p isNew segment = .ok (a', r) ∧ a'.Ordered hasher ∧
      SameLimits a a' ∧ PutAt a id pkt isNew segment a' r := by
  obtain ⟨hlt, hget⟩ := List.getElem?_eq_some_iff.1 hentry
  obtain ⟨node, hnode, hsecond⟩ : ∃ node, a.packetMap.virtualStorageVec.get p = .ok node ∧
      node.second = pkt := by
    have he := hentry
    rw [stored, CyclicUnorderedNodeMap.entries_getElem?] at he
    cases hitem : a.packetMap.virtualStorageVec.items[p]? with
    | none => simp [hitem] at he
    | some node =>
      simp only [hitem, Option.map_some, Option.some.injEq, Prod.mk.injEq] at he
      exact ⟨node, get_of_some hitem, he.2⟩
  have hout : ((id, pkt) :: a.stored.eraseIdx p).Perm a.stored := by
    rw [← hget]
    exact List.getElem_cons_eraseIdx_perm hlt
  cases hput : internalPacketSegmentPut pkt segment with
  | error err =>
    obtain ⟨a1, e1, h1, hsame, hperm⟩ : ∃ a1, (if isNew then a.erase (ofHash hasher) p
        else .ok a) = .ok a1 ∧ a1.Ordered hasher ∧ SameLimits a a1 ∧
          if isNew then ((id, pkt) :: a1.stored).Perm a.stored else a1 = a := by
      cases isNew with
      | true =>
        obtain ⟨a1, e1, h1, hcap, hmax, hload, hperm⟩ := erase_ok h hentry
        exact ⟨a1, e1, h1, ⟨hcap, hmax, hload⟩, hperm⟩
      | false => exact ⟨a, rfl, h, .refl a, rfl⟩
    refine ⟨a1, .error err, ?_, h1, hsame, ⟨?_, ?_, ?_⟩⟩
    · unfold putSegment
      rw [hnode, ok_bind, hsecond, hput]
      simp only [e1, ok_bind]
      rfl
    · intro err' e
      rw [hput] at e
      cases e
      exact ⟨rfl, hperm⟩
    · intro pkt' e
      rw [hput] at e
      cases e
    · intro pkt' e
      rw [hput] at e
      cases e
  | ok pkt' =>
    obtain ⟨hm, hentries, hcap⟩ := assign_ok h hentry pkt'
    have hset : ((a.stored.set p (id, pkt'))).Perm ((id, pkt') :: a.stored.eraseIdx p) :=
      List.set_perm_cons_eraseIdx hlt _
    generalize ha2 : (⟨a.packetMap.assign p pkt', a.maxSegmentSzPerStream, a.consumeSzPerLoad⟩ :
      PacketAssembler) = a2
    have h2 : a2.Ordered hasher := ha2 ▸ hm
    have hstored2 : a2.stored = a.stored.set p (id, pkt') := ha2 ▸ hentries
    have hsame2 : SameLimits a a2 := ha2 ▸ ⟨hcap, rfl, rfl⟩
    by_cases hdone : Complete pkt'
    · have hentry2 : a2.stored[p]? = some (id, pkt') := by
        rw [hstored2, List.getElem?_set_self hlt]
      obtain ⟨a1, e1, h1, hcap1, hmax1, hload1, hperm1⟩ := erase_ok h2 hentry2
      rw [hstored2] at hperm1
      have hrest := (hperm1.trans hset).cons_inv
      refine ⟨a1, .ok pkt', ?_, h1, hsame2.trans ⟨hcap1, hmax1, hload1⟩, ⟨?_, ?_, ?_⟩⟩
      · unfold putSegment
        rw [hnode, ok_bind, hsecond, hput]
        simp only [ha2]
        rw [if_pos hdone, e1, ok_bind]
        rfl
      · intro err e
        rw [hput] at e
        cases e
      · intro pkt'' e _
        rw [hput] at e
        cases e
        exact ⟨rfl, (hrest.cons _).trans hout⟩
      · intro pkt'' e hno
        rw [hput] at e
        cases e
        exact absurd hdone hno
    · refine ⟨a2, .error .socketStreamSegmentFilling, ?_, h2, hsame2, ⟨?_, ?_, ?_⟩⟩
      · unfold putSegment
        rw [hnode, ok_bind, hsecond, hput]
        simp only [ha2]
        rw [if_neg hdone]
        rfl
      · intro err e
        rw [hput] at e
        cases e
      · intro pkt'' e hno
        rw [hput] at e
        cases e
        exact absurd hno hdone
      · intro pkt'' e _
        rw [hput] at e
        cases e
        refine ⟨rfl, _, hout, ?_⟩
        rw [hstored2]
        exact hset

theorem mem_stored_of_holds (h : holds (ofHash hasher).pred es id = true) :
    ∃ (p : Nat) (pkt : AssembledPacket), es[p]? = some (id, pkt) := by
  obtain ⟨⟨id', pkt⟩, hmem, he⟩ := List.any_eq_true.1 h
  obtain rfl := (ofHash_pred hasher id' id).1 he
  obtain ⟨p, hp⟩ := List.getElem?_of_mem hmem
  exact ⟨p, pkt, hp⟩

theorem waiting_slot (segment : PacketSegment) (i : Nat) :
    (waiting segment).data[i]? = if i < segment.segmentSz.toNat then some none else none := by
  simp [waiting, makeEmptyAssembledPacket, List.getElem?_replicate]

theorem assembleOne_absent (h : a.Ordered hasher) (hsz : segment.segmentSz ≠ 0)
    (habsent : Absent a.stored segment.id) :
    ∃ a' r, a.assembleOne (ofHash hasher) segment = .ok (a', r) ∧ a'.Ordered hasher ∧
      SameLimits a a' ∧ Outcome a.cap a.maxSegmentSzPerStream a.stored segment a'.stored r := by
  have hno : holds (ofHash hasher).pred a.stored segment.id = false := absent_iff.2 habsent
  have hfind := find_absent h hno
  rw [← size_eq] at hfind
  by_cases hmax : segment.segmentSz.toNat > a.maxSegmentSzPerStream
  · refine ⟨a, .error .socketStreamBadSegmentSize, ?_, h, .refl a, .badSize hsz habsent hmax⟩
    rw [assembleOne, if_neg hsz, hfind, ok_bind, if_pos rfl, if_pos hmax]
    rfl
  · have hmax' := Nat.le_of_not_lt hmax
    obtain ⟨m1, pos, e1, h1, hentries, hcap, -, hpos⟩ :=
      internalInsert_ok h ⟨segment.id, waiting segment, nullVirtualAddr⟩ rfl
    have hno' : holds (ofHash hasher).pred (evict a.packetMap.storageCap a.packetMap.entries)
        segment.id = false := absent_iff.2 (habsent.evict _)
    simp only [hno', Bool.not_false] at e1 hpos
    have hentries : m1.entries = evict a.cap a.stored ++ [(segment.id, waiting segment)] := by
      rw [hentries, fifoInsert, if_neg (by rw [hno']; exact Bool.false_ne_true)]
      rfl
    obtain ⟨a', r, e2, h2, hsame, hput⟩ :=
      putSegment_ok (a := ⟨m1, a.maxSegmentSzPerStream, a.consumeSzPerLoad⟩) h1 (hpos trivial).1 true
        segment
    have hstored : (⟨m1, a.maxSegmentSzPerStream, a.consumeSzPerLoad⟩ : PacketAssembler).stored.Perm
        ((segment.id, waiting segment) :: evict a.cap a.stored) := by
      show m1.entries.Perm _
      rw [hentries]
      exact List.perm_append_singleton _ _
    refine ⟨a', r, ?_, h2, ⟨hsame.cap.trans hcap, hsame.maxSegmentSzPerStream,
      hsame.maxConsumeSize⟩, ?_⟩
    · have e1' : a.packetMap.tryEmplace (ofHash hasher) segment.id
          (makeEmptyAssembledPacket segment.segmentSz.toNat segment.mmIntegrityValue
            segment.hasMmIntegrityValue) = .ok (m1, pos, true) := e1
      rw [assembleOne, if_neg hsz, hfind, ok_bind, if_pos rfl, if_neg hmax]
      simp only [e1', ok_bind]
      exact e2
    · by_cases hidx : segment.segmentIdx.toNat < segment.segmentSz.toNat
      · have hslot : internalPacketSegmentPut (waiting segment) segment =
            .ok (put (waiting segment) segment) := by
          rw [put_cases, waiting_slot, if_pos hidx]
        by_cases hdone : Complete (put (waiting segment) segment)
        · obtain ⟨rfl, hperm⟩ := hput.done _ hslot hdone
          exact .startDone _ hsz habsent hmax' hidx hdone (hperm.trans hstored).cons_inv
        · obtain ⟨rfl, rest, hrest, hperm⟩ := hput.filling _ hslot hdone
          exact .start _ hsz habsent hmax' hidx hdone
            (hperm.trans ((hrest.trans hstored).cons_inv.cons _))
      · have hslot : internalPacketSegmentPut (waiting segment) segment =
            .error .indexOutOfRange := by
          rw [put_cases, waiting_slot, if_neg hidx]
        obtain ⟨rfl, hperm⟩ := hput.failed _ hslot
        exact .outOfRangeNew _ hsz habsent hmax' (Nat.le_of_not_lt hidx)
          (hperm.trans hstored).cons_inv

theorem assembleOne_present (h : a.Ordered hasher) (hsz : segment.segmentSz ≠ 0)
    (hentry : a.stored[p]? = some (segment.id, pkt)) :
    ∃ a' r, a.assembleOne (ofHash hasher) segment = .ok (a', r) ∧ a'.Ordered hasher ∧
      SameLimits a a' ∧ Outcome a.cap a.maxSegmentSzPerStream a.stored segment a'.stored r := by
  have hmem := List.mem_of_getElem? hentry
  have hfind := find_ok h hentry ((ofHash hasher).refl segment.id)
  have hne : p ≠ a.packetMap.size := by
    rw [size_eq]
    exact Nat.ne_of_lt (List.getElem?_eq_some_iff.1 hentry).1
  obtain ⟨a', r, e, h', hsame, hput⟩ := putSegment_ok h hentry false segment
  refine ⟨a', r, ?_, h', hsame, ?_⟩
  · rw [assembleOne, if_neg hsz, hfind, ok_bind, if_neg hne, e]
  · cases hslot : pkt.data[segment.segmentIdx.toNat]? with
    | none =>
      obtain ⟨rfl, rfl⟩ := hput.failed .indexOutOfRange (by rw [put_cases, hslot])
      exact .outOfRange pkt hsz hmem hslot
    | some slot =>
      cases slot with
      | some buf =>
        obtain ⟨rfl, rfl⟩ := hput.failed .socketStreamDuplicatedSegment (by rw [put_cases, hslot])
        exact .duplicate pkt buf hsz hmem hslot
      | none =>
        have hok : internalPacketSegmentPut pkt segment = .ok (put pkt segment) := by
          rw [put_cases, hslot]
        by_cases hdone : Complete (put pkt segment)
        · obtain ⟨rfl, hperm⟩ := hput.done _ hok hdone
          exact .finish pkt _ hsz hmem hslot hdone hperm
        · obtain ⟨rfl, rest, hrest, hperm⟩ := hput.filling _ hok hdone
          exact .fill pkt _ rest hsz hmem hslot hdone hrest hperm

/-- **Every segment goes through**, with one of the outcomes. -/
theorem assembleOne_ok (h : a.Ordered hasher) (segment : PacketSegment) :
    ∃ a' r, a.assembleOne (ofHash hasher) segment = .ok (a', r) ∧ a'.Ordered hasher ∧
      SameLimits a a' ∧ Outcome a.cap a.maxSegmentSzPerStream a.stored segment a'.stored r := by
  by_cases hsz : segment.segmentSz = 0
  · refine ⟨a, .ok (waiting segment), ?_, h, .refl a, .empty hsz⟩
    rw [assembleOne, if_pos hsz, waiting, hsz]
    rfl
  · cases hh : holds (ofHash hasher).pred a.stored segment.id with
    | false => exact assembleOne_absent h hsz (absent_iff.1 hh)
    | true =>
      obtain ⟨p, pkt, hentry⟩ := mem_stored_of_holds hh
      exact assembleOne_present h hsz hentry

theorem destroyOne_ok (h : a.Ordered hasher) (id : GlobalIdentifier) :
    ∃ a', a.destroyOne (ofHash hasher) id = .ok a' ∧ a'.Ordered hasher ∧ SameLimits a a' ∧
      ∀ e ∈ a'.stored, e ∈ a.stored := by
  cases hh : holds (ofHash hasher).pred a.stored id with
  | false =>
    have hfind := find_absent h hh
    rw [← size_eq] at hfind
    refine ⟨a, ?_, h, .refl a, fun e he => he⟩
    rw [destroyOne, hfind, ok_bind, if_pos rfl]
    rfl
  | true =>
    obtain ⟨p, pkt, hentry⟩ := mem_stored_of_holds hh
    have hfind := find_ok h hentry ((ofHash hasher).refl id)
    have hne : p ≠ a.packetMap.size := by
      rw [size_eq]
      exact Nat.ne_of_lt (List.getElem?_eq_some_iff.1 hentry).1
    obtain ⟨a', e', h', hcap, hmax, hload, hperm⟩ := erase_ok h hentry
    refine ⟨a', ?_, h', ⟨hcap, hmax, hload⟩, fun e he => hperm.mem_iff.1 (by simp [he])⟩
    rw [destroyOne, hfind, ok_bind, if_neg hne, e']

/-! ## The invariant -/

def filled (data : List (Option (List Byte))) : Nat := data.countP Option.isSome

/-- A stored packet: its counters agree with its slots, and a slot is missing. -/
structure PacketOk (maxSz : Nat) (pkt : AssembledPacket) : Prop where
  total : pkt.totalSegmentSz = pkt.data.length
  le_max : pkt.data.length ≤ maxSz
  collected : pkt.collectedSegmentSz = filled pkt.data
  collected_lt : pkt.collectedSegmentSz < pkt.totalSegmentSz
  small : pkt.data.length < 2 ^ 64

theorem filled_set {data : List (Option (List Byte))} {i : Nat} (h : data[i]? = some none)
    (buf : List Byte) : filled (data.set i (some buf)) = filled data + 1 := by
  obtain ⟨hi, hnone⟩ := List.getElem?_eq_some_iff.1 h
  unfold filled
  rw [List.countP_set hi, hnone]
  rfl

theorem PacketOk.waiting (h : segment.segmentSz ≠ 0) (hmax : segment.segmentSz.toNat ≤ maxSz) :
    PacketOk maxSz (PacketAssembler.waiting segment) := by
  have hpos : 0 < segment.segmentSz.toNat :=
    Nat.pos_of_ne_zero fun e => h (BitVec.eq_of_toNat_eq (by simpa using e))
  refine ⟨?_, ?_, ?_, hpos, ?_⟩
  · simp [PacketAssembler.waiting, makeEmptyAssembledPacket]
  · simpa [PacketAssembler.waiting, makeEmptyAssembledPacket] using hmax
  · simp [PacketAssembler.waiting, makeEmptyAssembledPacket, filled, List.countP_replicate]
  · simpa [PacketAssembler.waiting, makeEmptyAssembledPacket] using segment.segmentSz.isLt

theorem PacketOk.put_collected (h : PacketOk maxSz pkt) (segment : PacketSegment) :
    (PacketAssembler.put pkt segment).collectedSegmentSz = pkt.collectedSegmentSz + 1 := by
  have h1 := h.collected_lt
  have h2 := h.total
  have h3 := h.small
  exact sizeT_of_lt (by omega)

theorem PacketOk.put (h : PacketOk maxSz pkt) (hidx : pkt.data[segment.segmentIdx.toNat]? = some none)
    (hdone : ¬ Complete (PacketAssembler.put pkt segment)) :
    PacketOk maxSz (PacketAssembler.put pkt segment) := by
  have hcollected := h.put_collected segment
  have hlen : (PacketAssembler.put pkt segment).data.length = pkt.data.length := List.length_set
  refine ⟨h.total.trans hlen.symm, hlen ▸ h.le_max, ?_, ?_, hlen ▸ h.small⟩
  · rw [hcollected, h.collected]
    exact (filled_set hidx _).symm
  · have hlt := h.collected_lt
    have htotal : (PacketAssembler.put pkt segment).totalSegmentSz = pkt.totalSegmentSz := rfl
    have hne : (PacketAssembler.put pkt segment).collectedSegmentSz ≠ pkt.totalSegmentSz := hdone
    omega

/-- Every stored packet is well counted, and no two entries share an identifier. -/
structure Sound (maxSz : Nat) (es : List Entry) : Prop where
  packets : ∀ e ∈ es, PacketOk maxSz e.2
  nodup : (es.map Prod.fst).Nodup

/-- Nothing has changed but, in a full map, the loss of the front. -/
def Unchanged (cap : Nat) (es es' : List Entry) : Prop :=
  es'.Perm es ∨ es.length = cap ∧ es'.Perm es.tail

theorem Unchanged.of_evict {cap : Nat} {es es' : List Entry} (h : es'.Perm (evict cap es)) :
    Unchanged cap es es' := by
  unfold evict at h
  split at h
  · next hfull => exact .inr ⟨hfull, h⟩
  · exact .inl h

theorem mem_of_mem_evict {cap : Nat} {e : Entry} (h : e ∈ evict cap es) :
    e ∈ es := by
  unfold evict at h
  split at h
  · exact List.mem_of_mem_tail h
  · exact h

section Outcome

variable {cap maxSz : Nat} {es es' : List Entry} {segment : PacketSegment}
  {r : Except Exception AssembledPacket}

/-- **One segment** keeps every stored packet well counted. -/
theorem Outcome.packets (h : Outcome cap maxSz es segment es' r)
    (hes : ∀ e ∈ es, PacketOk maxSz e.2) : ∀ e ∈ es', PacketOk maxSz e.2 := by
  have hevict : ∀ e ∈ evict cap es, PacketOk maxSz e.2 := fun e he => hes e (mem_of_mem_evict he)
  cases h with
  | empty => exact hes
  | badSize => exact hes
  | outOfRangeNew _ _ _ _ _ hperm => exact fun e he => hevict e (hperm.mem_iff.1 he)
  | startDone _ _ _ _ _ _ hperm => exact fun e he => hevict e (hperm.mem_iff.1 he)
  | start _ hsz _ hmax hidx hdone hperm =>
    intro e he
    rcases List.mem_cons.1 (hperm.mem_iff.1 he) with rfl | he
    · exact (PacketOk.waiting hsz hmax).put (by rw [waiting_slot, if_pos hidx]) hdone
    · exact hevict e he
  | outOfRange => exact hes
  | duplicate => exact hes
  | finish pkt _ _ _ _ _ hperm => exact fun e he => hes e (hperm.mem_iff.1 (by simp [he]))
  | fill pkt _ rest _ hmem hidx hdone hperm hperm' =>
    intro e he
    rcases List.mem_cons.1 (hperm'.mem_iff.1 he) with rfl | he
    · exact (hes _ hmem).put hidx hdone
    · exact hes e (hperm.mem_iff.1 (by simp [he]))

/-- **A refused segment** changes nothing but an eviction. -/
theorem Outcome.refused (h : Outcome cap maxSz es segment es' r) {err : Exception}
    (hr : r = .error err) (hne : err ≠ .socketStreamSegmentFilling) : Unchanged cap es es' := by
  cases h with
  | empty => cases hr
  | badSize => exact .inl (.refl _)
  | outOfRangeNew _ _ _ _ _ hperm => exact .of_evict hperm
  | startDone => cases hr
  | start =>
    cases hr
    exact absurd rfl hne
  | outOfRange => exact .inl (.refl _)
  | duplicate => exact .inl (.refl _)
  | finish => cases hr
  | fill =>
    cases hr
    exact absurd rfl hne

end Outcome

theorem Ordered.nodup (h : a.Ordered hasher) : (a.stored.map Prod.fst).Nodup := by
  refine List.pairwise_iff_getElem.2 fun i j hi hj hij => ?_
  rw [List.length_map] at hi hj
  rw [List.getElem_map, List.getElem_map]
  intro e
  have hne := CyclicUnorderedNodeMap.Inv.entries_distinct h
    (i := i) (j := j) (List.getElem?_eq_getElem hi) (List.getElem?_eq_getElem hj)
    ((ofHash_pred hasher _ _).2 e)
  omega

structure Inv (hasher : GlobalIdentifier → Nat) (a : PacketAssembler) : Prop where
  ordered : a.Ordered hasher
  packets : ∀ e ∈ a.stored, PacketOk a.maxSegmentSzPerStream e.2

theorem Inv.sound (h : Inv hasher a) : Sound a.maxSegmentSzPerStream a.stored :=
  ⟨h.packets, h.ordered.nodup⟩

theorem Inv.assembleOne (h : Inv hasher a) (segment : PacketSegment) :
    ∃ a' r, a.assembleOne (ofHash hasher) segment = .ok (a', r) ∧ Inv hasher a' ∧
      SameLimits a a' ∧ Outcome a.cap a.maxSegmentSzPerStream a.stored segment a'.stored r := by
  obtain ⟨a', r, e, h', hsame, hout⟩ := assembleOne_ok h.ordered segment
  refine ⟨a', r, e, ⟨h', ?_⟩, hsame, hout⟩
  rw [hsame.maxSegmentSzPerStream]
  exact hout.packets h.packets

theorem Inv.destroyOne (h : Inv hasher a) (id : GlobalIdentifier) :
    ∃ a', a.destroyOne (ofHash hasher) id = .ok a' ∧ Inv hasher a' ∧ SameLimits a a' := by
  obtain ⟨a', e, h', hsame, hsub⟩ := destroyOne_ok h.ordered id
  refine ⟨a', e, ⟨h', fun x hx => ?_⟩, hsame⟩
  rw [hsame.maxSegmentSzPerStream]
  exact h.packets x (hsub x hx)

/-! ## Runs -/

theorem Inv.assembleLoop (h : Inv hasher a) (segments : List PacketSegment) :
    ∃ a' results, a.assembleLoop (ofHash hasher) segments = .ok (a', results) ∧
      Inv hasher a' ∧ SameLimits a a' ∧ results.length = segments.length := by
  induction segments generalizing a with
  | nil => exact ⟨a, [], rfl, h, .refl a, rfl⟩
  | cons segment segments ih =>
    obtain ⟨a1, r, e1, h1, hsame1, -⟩ := h.assembleOne segment
    obtain ⟨a2, results, e2, h2, hsame2, hlen⟩ := ih h1
    refine ⟨a2, r :: results, ?_, h2, hsame1.trans hsame2, by simp [hlen]⟩
    rw [assembleLoop, e1, ok_bind]
    simp only [e2, ok_bind]
    rfl

theorem assembleLoop_append {a1 : PacketAssembler}
    (e : a.assembleLoop keys segments = .ok (a1, results)) (segment : PacketSegment) :
    a.assembleLoop keys (segments ++ [segment]) =
      (a1.assembleOne keys segment).bind fun x => .ok (x.1, results ++ [x.2]) := by
  induction segments generalizing a results with
  | nil =>
    cases e
    show (assembleOne keys a1 segment >>= _) = _
    cases assembleOne keys a1 segment <;> rfl
  | cons s segments ih =>
    rw [assembleLoop] at e
    obtain ⟨⟨a2, r⟩, e2, e⟩ := bind_eq_ok e
    obtain ⟨⟨a3, rs⟩, e3, e⟩ := bind_eq_ok e
    cases e
    rw [List.cons_append, assembleLoop, e2, ok_bind]
    simp only [ih e3]
    cases assembleOne keys a1 segment <;> rfl

theorem Inv.destroy (h : Inv hasher a) (ids : List GlobalIdentifier) :
    ∃ a', ids.foldlM (PacketAssembler.destroyOne (ofHash hasher)) a = .ok a' ∧
      Inv hasher a' ∧ SameLimits a a' := by
  induction ids generalizing a with
  | nil => exact ⟨a, rfl, h, .refl a⟩
  | cons id ids ih =>
    obtain ⟨a1, e1, h1, hsame1⟩ := h.destroyOne id
    obtain ⟨a2, e2, h2, hsame2⟩ := ih h1
    exact ⟨a2, by rw [List.foldlM_cons, e1, ok_bind, e2], h2, hsame1.trans hsame2⟩

def Call.size : Call → Nat
  | .assemble segments => segments.length
  | .destroy ids => ids.length

theorem Inv.run (h : Inv hasher a) {calls : List Call}
    (hcalls : debugMode = true → ∀ call ∈ calls, call.size ≤ a.maxConsumeSize) :
    ∃ a', a.run (ofHash hasher) debugMode calls = .ok a' ∧ Inv hasher a' ∧
      SameLimits a a' := by
  induction calls generalizing a with
  | nil => exact ⟨a, rfl, h, .refl a⟩
  | cons call calls ih =>
    have hcheck := checkConsumeSize_ok fun hd => hcalls hd call (by simp)
    cases call with
    | assemble segments =>
      obtain ⟨a1, results, e1, h1, hsame1, -⟩ := h.assembleLoop segments
      obtain ⟨a2, e2, h2, hsame2⟩ := ih h1 fun hd call hc =>
        hsame1.maxConsumeSize ▸ hcalls hd call (by simp [hc])
      refine ⟨a2, ?_, h2, hsame1.trans hsame2⟩
      rw [PacketAssembler.run, assemble, show segments.length = (Call.assemble segments).size from rfl,
        hcheck, ok_bind, e1, ok_bind]
      exact e2
    | destroy ids =>
      obtain ⟨a1, e1, h1, hsame1⟩ := h.destroy ids
      obtain ⟨a2, e2, h2, hsame2⟩ := ih h1 fun hd call hc =>
        hsame1.maxConsumeSize ▸ hcalls hd call (by simp [hc])
      refine ⟨a2, ?_, h2, hsame1.trans hsame2⟩
      rw [PacketAssembler.run, PacketAssembler.destroy,
        show ids.length = (Call.destroy ids).size from rfl, hcheck, ok_bind, e1, ok_bind]
      exact e2

theorem assembleLoop_take (e : a.assembleLoop keys segments = .ok (a', results)) (i : Nat) :
    ∃ a1, a.assembleLoop keys (segments.take i) = .ok (a1, results.take i) := by
  induction segments generalizing a results i with
  | nil =>
    cases e
    exact ⟨a', by simp [assembleLoop]⟩
  | cons s segments ih =>
    cases i with
    | zero => exact ⟨a, rfl⟩
    | succ i =>
      rw [assembleLoop] at e
      obtain ⟨⟨a2, r⟩, e2, e⟩ := bind_eq_ok e
      obtain ⟨⟨a3, rs⟩, e3, e⟩ := bind_eq_ok e
      cases e
      obtain ⟨a4, e4⟩ := ih e3 i
      refine ⟨a4, ?_⟩
      rw [List.take_succ_cons, assembleLoop, e2, ok_bind]
      simp only [e4, ok_bind]
      rfl

def stateAfter (hasher : GlobalIdentifier → Nat) (a : PacketAssembler)
    (segments : List PacketSegment) : Except Fault PacketAssembler :=
  (a.assembleLoop (ofHash hasher) segments).map Prod.fst

theorem Inv.round (h : Inv hasher a) (e : a.assembleLoop (ofHash hasher) segments = .ok (a', results))
    {i : Nat} (hi : segments[i]? = some segment) :
    ∃ a1 a2 r, stateAfter hasher a (segments.take i) = .ok a1 ∧
      stateAfter hasher a (segments.take (i + 1)) = .ok a2 ∧ Inv hasher a1 ∧ Inv hasher a2 ∧
      SameLimits a a1 ∧ SameLimits a a2 ∧ results[i]? = some r ∧
      Outcome a.cap a.maxSegmentSzPerStream a1.stored segment a2.stored r := by
  obtain ⟨a1, e1⟩ := assembleLoop_take e i
  obtain ⟨a1', results1, e1', h1, hsame1, hlen⟩ := h.assembleLoop (segments.take i)
  rw [e1] at e1'
  cases e1'
  obtain ⟨a2, r, e2, h2, hsame2, hout⟩ := h1.assembleOne segment
  obtain ⟨a2', e2'⟩ := assembleLoop_take e (i + 1)
  have happ := assembleLoop_append e1 segment
  have htake : segments.take (i + 1) = segments.take i ++ [segment] := by
    rw [List.take_add_one, hi]
    rfl
  rw [← htake, e2', e2] at happ
  obtain ⟨rfl, hr⟩ := Prod.mk.inj (Except.ok.inj happ)
  have hlt := (List.getElem?_eq_some_iff.1 hi).1
  rw [hsame1.cap, hsame1.maxSegmentSzPerStream] at hout
  refine ⟨a1, a2', r, by rw [stateAfter, e1]; rfl, by rw [stateAfter, e2']; rfl, h1, h2, hsame1,
    hsame1.trans hsame2, ?_, hout⟩
  have hget : (results.take (i + 1))[i]? = some r := by
    rw [hr]
    have hlen' : (results.take i).length = i := by
      rw [hlen, List.length_take]
      omega
    rw [List.getElem?_append_right (by omega), hlen']
    simp
  rwa [List.getElem?_take_of_lt (by omega)] at hget

/-- **The assembler under hostile segments.** After every sequence of calls the stored packets are
sound; a further batch goes through and keeps them sound after each of its segments, and a segment
that is answered with an error other than `SEGMENT_FILLING` leaves all stored packets unchanged but
for the one that a full map evicts. -/
theorem assembler_invariant (hasher : GlobalIdentifier → Nat) (debugMode : Bool) (lf : LoadFactor)
    (bucketCount maxSz consumeSz : Nat)
    (packetMap : CyclicUnorderedNodeMap GlobalIdentifier AssembledPacket)
    (hmap : CyclicUnorderedNodeMap.make lf bucketCount = .ok packetMap) (calls : List Call)
    (hcalls : debugMode = true → ∀ call ∈ calls, call.size ≤ consumeSz)
    (segments : List PacketSegment) (hsegments : debugMode = true → segments.length ≤ consumeSz) :
    ∃ a a' results, run (ofHash hasher) debugMode ⟨packetMap, maxSz, consumeSz⟩ calls = .ok a ∧
      Sound maxSz a.stored ∧
      a.assemble (ofHash hasher) debugMode segments = .ok (a', results) ∧
      results.length = segments.length ∧
      ∀ i < segments.length, ∃ a1 a2, stateAfter hasher a (segments.take i) = .ok a1 ∧
        stateAfter hasher a (segments.take (i + 1)) = .ok a2 ∧
        Sound maxSz a1.stored ∧ Sound maxSz a2.stored ∧
        ∀ err, results[i]? = some (.error err) → err ≠ .socketStreamSegmentFilling →
          Unchanged packetMap.storageCap a1.stored a2.stored := by
  have hmake : packetMap.Inv (ofHash hasher) ∧ packetMap.entries = [] ∧ _ :=
    make_ok hmap
  obtain ⟨hord, hempty, -⟩ := hmake
  have h0 : Inv hasher ⟨packetMap, maxSz, consumeSz⟩ := by
    refine ⟨hord, fun e he => ?_⟩
    rw [stored, hempty] at he
    cases he
  obtain ⟨a, e, h, hsame⟩ := h0.run hcalls
  obtain ⟨a', results, e', -, -, hlen⟩ := h.assembleLoop segments
  have hmaxSz : a.maxSegmentSzPerStream = maxSz := hsame.maxSegmentSzPerStream
  have hcap : a.cap = packetMap.storageCap := hsame.cap
  have hcheck : checkConsumeSize debugMode segments.length a.maxConsumeSize = .ok () :=
    checkConsumeSize_ok fun hd => hsame.maxConsumeSize ▸ hsegments hd
  refine ⟨a, a', results, e, hmaxSz ▸ h.sound, ?_, hlen, fun i hi => ?_⟩
  · rw [assemble, hcheck, ok_bind, e']
  · obtain ⟨a1, a2, r, e1, e2, h1, h2, hsame1, hsame2, hr, hout⟩ :=
      h.round e' (List.getElem?_eq_getElem hi)
    refine ⟨a1, a2, e1, e2, ?_, ?_, fun err herr hne => ?_⟩
    · rw [← hmaxSz, ← hsame1.maxSegmentSzPerStream]
      exact h1.sound
    · rw [← hmaxSz, ← hsame2.maxSegmentSzPerStream]
      exact h2.sound
    · rw [← hcap]
      exact hout.refused (Option.some.inj (hr.symm.trans herr)) hne

/-- A segment whose index is not below its declared count. -/
def stray : PacketSegment := ⟨[1], ⟨⟨.v4 ⟨#v[10, 0, 0, 1]⟩, 80⟩, 1, 2⟩, 5, 2, 0, false⟩

theorem assembler_invariant_stray : ∃ packetMap a a' results,
    CyclicUnorderedNodeMap.make .half 8 = .ok packetMap ∧
      run (ofHash fun _ => 0) true ⟨packetMap, 4, 16⟩
        [.assemble [stray], .destroy [stray.id]] = .ok a ∧
      Sound 4 a.stored ∧
      a.assemble (ofHash fun _ => 0) true [stray, stray] = .ok (a', results) ∧
      results.length = 2 := by
  obtain ⟨a, a', results, h1, h2, h3, h4, -⟩ := assembler_invariant (fun _ => 0) true .half 8 4 16 _
    rfl [.assemble [stray], .destroy [stray.id]] (by simp [Call.size]) [stray, stray] (by simp)
  exact ⟨_, a, a', results, rfl, h1, h2, h3, h4⟩

end PacketAssembler

end FlashStream
