import Mathlib.Data.List.DropRight
import NeuralNetwork.StlExtension.Proof.CyclicUnorderedNodeMap
import NeuralNetwork.Funnel.Proof.Funnel
import NeuralNetwork.InternalRest.Mailbox.InBoundIdController

/-!
# What the inbound id controllers answer

The set of an `InBoundIdController` holds the ids that it admitted last, as many as there is room
for (`thruLoop_ok`), and it admits exactly the ids that are not there. The distributed controller
answers as if every partition got its ids one after the other (`HashDistributed..run_ok`). Together:
`duplicate_suppression`.
-/

namespace Mailbox

open Cpp FlashStream Funnel Loop HashChain CyclicUnordered Keys

/-! ## The set -/

variable {α : Type}

theorem length_rtake (n : Nat) (l : List α) : (l.rtake n).length = min n l.length := by
  rw [List.rtake_eq_reverse_take_reverse, List.length_reverse, List.length_take,
    List.length_reverse]

theorem rtake_concat {cap : Nat} (hcap : 0 < cap) (l : List α) (a : α) :
    (l ++ [a]).rtake cap = evict cap (l.rtake cap) ++ [a] := by
  obtain ⟨n, rfl⟩ := Nat.exists_eq_succ_of_ne_zero (Nat.pos_iff_ne_zero.1 hcap)
  rw [List.rtake_concat_succ, evict, length_rtake]
  congr 1
  by_cases hlen : n + 1 ≤ l.length
  · rw [if_pos (Nat.min_eq_left hlen), List.rtake, List.rtake, List.tail_drop]
    congr 1
    omega
  · rw [if_neg (by omega), List.rtake, List.rtake, Nat.sub_eq_zero_of_le (by omega),
      Nat.sub_eq_zero_of_le (by omega)]

theorem rtake_append_of_le {n : Nat} {l' : List α} (h : n ≤ l'.length) (l : List α) :
    (l ++ l').rtake n = l'.rtake n := by
  rw [List.rtake, List.rtake, List.length_append, Nat.add_sub_assoc h, ← List.drop_drop,
    List.drop_left]

namespace TemporalFiniteUnorderedSet

variable {K : Type} [DecidableEq K] {hasher : K → Nat} {s : TemporalFiniteUnorderedSet K}

def ids (s : TemporalFiniteUnorderedSet K) : List K := s.base.entries.map Prod.fst

def Ordered (hasher : K → Nat) (s : TemporalFiniteUnorderedSet K) : Prop :=
  s.base.Inv (ofHash hasher)

theorem contains_ok (h : s.Ordered hasher) (k : K) :
    s.contains (ofHash hasher) k = .ok (decide (k ∈ s.ids)) := by
  unfold contains
  rw [CyclicUnorderedNodeMap.contains_ok h]
  by_cases hk : k ∈ s.ids
  · rw [(holds_ofHash hasher _ k).2 hk, decide_eq_true hk]
  · rw [Bool.eq_false_iff.2 fun hh => hk ((holds_ofHash hasher _ k).1 hh), decide_eq_false hk]

theorem insert_ok (h : s.Ordered hasher) (k : K) :
    ∃ s', s.insert (ofHash hasher) k = .ok s' ∧ s'.Ordered hasher ∧
      s'.ids = (if k ∈ evict s.base.storageCap s.ids then evict s.base.storageCap s.ids
        else evict s.base.storageCap s.ids ++ [k]) ∧ s'.base.storageCap = s.base.storageCap := by
  obtain ⟨base, pos, e, hinv, hentries, hcap, -⟩ :=
    CyclicUnorderedNodeMap.internalInsert_ok h ⟨k, (), nullVirtualAddr⟩ rfl
  refine ⟨⟨base⟩, ?_, hinv, ?_, hcap⟩
  · simp only [insert, CyclicUnorderedNodeMap.tryEmplace, e, ok_bind]
    rfl
  · unfold ids
    rw [hentries, map_fifoInsert]

theorem mem_of_mem_insert {cap : Nat} {k x : K} {ks : List K}
    (h : x ∈ if k ∈ evict cap ks then evict cap ks else evict cap ks ++ [k]) : x ∈ ks ∨ x = k := by
  split at h
  · exact .inl (mem_of_mem_evict h)
  · rcases List.mem_append.1 h with h | h
    · exact .inl (mem_of_mem_evict h)
    · exact .inr (List.mem_singleton.1 h)

theorem make_ok {cap : Nat} (e : make cap = .ok s) : s.Ordered hasher ∧ s.ids = [] := by
  obtain ⟨m, hm, e⟩ := bind_eq_ok e
  obtain rfl := Except.ok.inj e
  obtain ⟨hinv, hentries, -⟩ := CyclicUnorderedNodeMap.make_ok hm
  refine ⟨hinv, ?_⟩
  show m.entries.map Prod.fst = []
  rw [hentries]
  rfl

end TemporalFiniteUnorderedSet

namespace InBoundIdController

variable {hasher : KindGlobalPacketIdentifier → Nat} {debugMode : Bool}
  {c : InBoundIdController}

def ids (c : InBoundIdController) : List KindGlobalPacketIdentifier :=
  c.idHashset.base.entries.map Prod.fst

def cap (c : InBoundIdController) : Nat := c.idHashset.base.storageCap

def Ordered (hasher : KindGlobalPacketIdentifier → Nat) (c : InBoundIdController) : Prop :=
  c.idHashset.base.Inv (ofHash hasher)

theorem Ordered.cap_pos (h : c.Ordered hasher) : 0 < c.cap := h.toShape.cap_pos

theorem thruRound_ok (h : c.Ordered hasher) (id : KindGlobalPacketIdentifier) :
    ∃ c', c.thruRound (ofHash hasher) id = .ok (c', .ok (id ∉ c.ids)) ∧ c'.Ordered hasher ∧
      c'.ids = (if id ∈ c.ids then c.ids else evict c.cap c.ids ++ [id]) ∧ c'.cap = c.cap ∧
      c'.maxConsumeSize = c.maxConsumeSize := by
  unfold thruRound
  rw [TemporalFiniteUnorderedSet.contains_ok h, ok_bind]
  by_cases hid : id ∈ c.ids
  · rw [decide_eq_true (show id ∈ c.idHashset.ids from hid), if_pos rfl]
    exact ⟨c, by simp [hid]; rfl, h, by rw [if_pos hid], rfl, rfl⟩
  · rw [decide_eq_false (show id ∉ c.idHashset.ids from hid), if_neg (by simp)]
    obtain ⟨s', e, hs', hids, hcap⟩ := TemporalFiniteUnorderedSet.insert_ok h id
    refine ⟨{ c with idHashset := s' }, ?_, hs', ?_, hcap, rfl⟩
    · simp only [e, ok_bind]
      simp [hid]
      rfl
    · have hsub : id ∉ evict c.cap c.ids := fun hmem => hid (mem_of_mem_evict hmem)
      rw [if_neg hid]
      exact hids.trans (if_neg hsub)

def admitted (log : List (KindGlobalPacketIdentifier × ThruResponse)) :
    List KindGlobalPacketIdentifier :=
  log.filterMap fun (id, answer) => if answer = .ok true then some id else none

theorem admitted_append (log log' : List (KindGlobalPacketIdentifier × ThruResponse)) :
    admitted (log ++ log') = admitted log ++ admitted log' :=
  List.filterMap_append

theorem admitted_singleton (id : KindGlobalPacketIdentifier) (b : Bool) :
    admitted [(id, .ok b)] = if b then [id] else [] := by
  cases b <;> rfl

/-- Every id of `log` was admitted if and only if it was not among the last `cap` ones admitted
before. -/
def Fair (cap : Nat) (log : List (KindGlobalPacketIdentifier × ThruResponse)) : Prop :=
  ∀ before id answer, before ++ [(id, answer)] <+: log →
    answer = .ok (id ∉ (admitted before).rtake cap)

variable {log : List (KindGlobalPacketIdentifier × ThruResponse)} {cap : Nat}

theorem Fair.nil (cap : Nat) : Fair cap [] := by
  intro before id answer h
  simp at h

theorem Fair.of_prefix {log' : List (KindGlobalPacketIdentifier × ThruResponse)}
    (h : Fair cap log) (hp : log' <+: log) : Fair cap log' :=
  fun before id answer hb => h before id answer (hb.trans hp)

theorem Fair.concat (h : Fair cap log) (id : KindGlobalPacketIdentifier) :
    Fair cap (log ++ [(id, .ok (id ∉ (admitted log).rtake cap))]) := by
  intro before id' answer hb
  rcases List.prefix_concat_iff.1 hb with e | hb
  · obtain ⟨rfl, e⟩ := List.append_inj' e rfl
    cases e
    rfl
  · exact h before id' answer hb

theorem Fair.nodup (hcap : 0 < cap) (h : Fair cap log) : ((admitted log).rtake cap).Nodup := by
  induction log using List.reverseRecOn with
  | nil => simp [admitted]
  | append_singleton log x ih =>
    obtain ⟨id, answer⟩ := x
    have hlog := ih (h.of_prefix (List.prefix_append _ _))
    obtain rfl := h log id answer (List.prefix_refl _)
    rw [admitted_append, admitted_singleton]
    by_cases hid : id ∈ (admitted log).rtake cap
    · simpa [hid] using hlog
    · have hsub : (evict cap ((admitted log).rtake cap)).Sublist ((admitted log).rtake cap) := by
        unfold evict
        split
        · exact List.tail_sublist _
        · exact List.Sublist.refl _
      rw [if_pos (by simpa using hid), rtake_concat hcap]
      refine List.nodup_append.2 ⟨hlog.sublist hsub, by simp, ?_⟩
      intro k hk l hl he
      obtain rfl := List.mem_singleton.1 hl
      exact hid (he ▸ hsub.subset hk)

/-- **Between two admissions of an id, `cap` others are admitted.** -/
theorem Fair.between (hcap : 0 < cap) (h : Fair cap log)
    {l₁ l₂ l₃ : List (KindGlobalPacketIdentifier × ThruResponse)} {id : KindGlobalPacketIdentifier}
    (e : log = l₁ ++ (id, .ok true) :: (l₂ ++ (id, .ok true) :: l₃)) :
    ∃ others : List KindGlobalPacketIdentifier, others.Sublist (admitted l₂) ∧ others.Nodup ∧
      id ∉ others ∧ others.length = cap := by
  have hp : l₁ ++ (id, .ok true) :: l₂ ++ [(id, .ok true)] <+: log := ⟨l₃, by simp [e]⟩
  have hadm : admitted (l₁ ++ (id, .ok true) :: l₂) = admitted l₁ ++ [id] ++ admitted l₂ := by
    rw [List.append_cons, admitted_append, admitted_append]
    rfl
  have hnot : id ∉ (admitted l₁ ++ [id] ++ admitted l₂).rtake cap := by
    have := h _ id _ hp
    rw [hadm] at this
    simpa using this
  have hle : cap ≤ (admitted l₂).length := by
    by_contra hlt
    refine hnot ?_
    rw [List.append_assoc, List.rtake, List.drop_append_of_le_length]
    · simp
    · simp only [List.length_append, List.length_singleton]
      omega
  rw [rtake_append_of_le hle] at hnot
  have hp' : l₁ ++ (id, .ok true) :: l₂ <+: log := (List.prefix_append _ _).trans hp
  have hnodup := (h.of_prefix hp').nodup hcap
  rw [hadm, rtake_append_of_le hle] at hnodup
  refine ⟨(admitted l₂).rtake cap, List.drop_sublist _ _, hnodup, hnot, ?_⟩
  rw [length_rtake, Nat.min_eq_left hle]

/-- Every id of `log` was admitted when it came first, and never again. -/
def FirstOnly (log : List (KindGlobalPacketIdentifier × ThruResponse)) : Prop :=
  ∀ before id answer, before ++ [(id, answer)] <+: log →
    answer = .ok (id ∉ before.map Prod.fst)

/-- Nothing is evicted while only ids of `ids` come, which the set can hold. -/
theorem Fair.admitted_of_few (h : Fair cap log) {ids : List KindGlobalPacketIdentifier}
    (hids : log.map Prod.fst ⊆ ids) (hfew : ids.length ≤ cap) :
    (admitted log).rtake cap = admitted log ∧ (admitted log).Nodup ∧
      ∀ id, id ∈ admitted log ↔ id ∈ log.map Prod.fst := by
  refine and_iff_right_of_imp (fun hlog => ?_) |>.2 ?_
  · have hle := (hlog.1.subperm fun k hk => hids ((hlog.2 k).1 hk)).length_le
    rw [List.rtake, Nat.sub_eq_zero_of_le (hle.trans hfew), List.drop_zero]
  induction log using List.reverseRecOn with
  | nil => simp [admitted]
  | append_singleton log x ih =>
    obtain ⟨id, answer⟩ := x
    rw [List.map_append] at hids
    obtain ⟨hnodup, hmem⟩ := ih (h.of_prefix (List.prefix_append _ _))
      fun k hk => hids (List.mem_append_left _ hk)
    have hle := (hnodup.subperm fun k hk => hids (List.mem_append_left _ ((hmem k).1 hk))).length_le
    obtain rfl := h log id answer (List.prefix_refl _)
    rw [List.rtake, Nat.sub_eq_zero_of_le (hle.trans hfew), List.drop_zero, admitted_append,
      admitted_singleton, List.map_append]
    by_cases hid : id ∈ admitted log
    · rw [if_neg (by simpa using hid), List.append_nil]
      refine ⟨hnodup, fun k => ?_⟩
      rw [hmem k, List.mem_append, List.map_singleton, List.mem_singleton]
      exact (or_iff_left_of_imp fun hk => hk ▸ (hmem id).1 hid).symm
    · rw [if_pos (by simpa using hid)]
      refine ⟨List.nodup_append.2 ⟨hnodup, by simp, ?_⟩, fun k => ?_⟩
      · rintro k hk l hl rfl
        exact hid (List.mem_singleton.1 hl ▸ hk)
      · rw [List.mem_append, List.mem_append, hmem k, List.map_singleton]

theorem Fair.firstOnly (h : Fair cap log) {ids : List KindGlobalPacketIdentifier}
    (hids : log.map Prod.fst ⊆ ids) (hfew : ids.length ≤ cap) : FirstOnly log := by
  intro before id answer hb
  have hp := (List.prefix_append before [(id, answer)]).trans hb
  obtain ⟨hall, -, hmem⟩ := (h.of_prefix hp).admitted_of_few
    (fun k hk => hids ((hp.map Prod.fst).subset hk)) hfew
  rw [h before id answer hb, hall]
  simp only [hmem]

/-- It is so if it is so of the ids of each part, as the parts tell the ids apart. -/
theorem FirstOnly.of_parts (part : KindGlobalPacketIdentifier → Nat)
    (h : ∀ x ∈ log, FirstOnly (log.filter fun y => part y.1 = part x.1)) : FirstOnly log := by
  intro before id answer hb
  have hx : (id, answer) ∈ log := hb.subset (List.mem_append_right _ List.mem_cons_self)
  have hp := hb.filter fun y => decide (part y.1 = part id)
  rw [List.filter_append, List.filter_cons_of_pos (by simp), List.filter_nil] at hp
  rw [h _ hx _ id answer hp, Except.ok.injEq, decide_eq_decide, not_iff_not]
  simp

/-! ## The controller -/

structure Holds (hasher : KindGlobalPacketIdentifier → Nat) (c : InBoundIdController)
    (log : List (KindGlobalPacketIdentifier × ThruResponse)) : Prop where
  ordered : c.Ordered hasher
  ids : c.ids = (admitted log).rtake c.cap
  fair : Fair c.cap log

structure SameLimits (c c' : InBoundIdController) : Prop where
  cap : c'.cap = c.cap
  maxConsumeSize : c'.maxConsumeSize = c.maxConsumeSize

theorem Holds.thruRound (h : c.Holds hasher log) (id : KindGlobalPacketIdentifier) :
    ∃ c' answer, c.thruRound (ofHash hasher) id = .ok (c', answer) ∧
      c'.Holds hasher (log ++ [(id, answer)]) ∧ SameLimits c c' := by
  obtain ⟨c', e, hord, hids, hcap, hmax⟩ := thruRound_ok h.ordered id
  rw [h.ids] at e
  refine ⟨c', _, e, ⟨hord, ?_, hcap ▸ h.fair.concat id⟩, hcap, hmax⟩
  rw [hids, hcap, admitted_append]
  by_cases hid : id ∈ c.ids
  · rw [if_pos hid, h.ids]
    rw [h.ids] at hid
    rw [admitted_singleton, if_neg (by simpa using hid), List.append_nil]
  · rw [if_neg hid, h.ids]
    rw [h.ids] at hid
    rw [← rtake_concat h.ordered.cap_pos, admitted_singleton, if_pos (by simpa using hid)]

theorem Holds.thruLoop (l : List KindGlobalPacketIdentifier) :
    ∀ {c : InBoundIdController} {log : List (KindGlobalPacketIdentifier × ThruResponse)},
      c.Holds hasher log →
      ∃ c' answers, c.thruLoop (ofHash hasher) l = .ok (c', answers) ∧
        answers.length = l.length ∧ c'.Holds hasher (log ++ l.zip answers) ∧ SameLimits c c' := by
  induction l with
  | nil =>
    intro c log h
    exact ⟨c, [], rfl, rfl, by simpa using h, rfl, rfl⟩
  | cons id l ih =>
    intro c log h
    obtain ⟨c1, answer, e1, h1, hs1⟩ := h.thruRound id
    obtain ⟨c2, answers, e2, hlen, h2, hs2⟩ := ih h1
    refine ⟨c2, answer :: answers, ?_, by simp [hlen], by simpa using h2,
      hs2.cap.trans hs1.cap, hs2.maxConsumeSize.trans hs1.maxConsumeSize⟩
    rw [InBoundIdController.thruLoop, e1, ok_bind]
    dsimp only
    rw [e2, ok_bind]
    rfl

theorem thruLoop_append (keys : Keys KindGlobalPacketIdentifier)
    {l l' : List KindGlobalPacketIdentifier} {c1 c2 : InBoundIdController}
    {answers answers' : List ThruResponse} :
    ∀ {c : InBoundIdController}, c.thruLoop keys l = .ok (c1, answers) →
      c1.thruLoop keys l' = .ok (c2, answers') →
      c.thruLoop keys (l ++ l') = .ok (c2, answers ++ answers') := by
  induction l generalizing answers with
  | nil =>
    intro c h h'
    cases h
    exact h'
  | cons id l ih =>
    intro c h h'
    obtain ⟨⟨c3, a⟩, e3, h⟩ := bind_eq_ok h
    obtain ⟨⟨c4, as⟩, e4, h⟩ := bind_eq_ok h
    cases h
    have := ih e4 h'
    rw [List.cons_append, InBoundIdController.thruLoop, e3, ok_bind]
    dsimp only
    rw [this, ok_bind]
    rfl

theorem Holds.run {batches : List (List KindGlobalPacketIdentifier)} :
    ∀ {c : InBoundIdController}
      {log : List (KindGlobalPacketIdentifier × ThruResponse)}, c.Holds hasher log →
      (debugMode = true → ∀ batch ∈ batches, batch.length ≤ c.maxConsumeSize) →
      ∃ c' answers, c.run (ofHash hasher) debugMode batches = .ok (c', answers) ∧
        answers.map List.length = batches.map List.length ∧
        c.thruLoop (ofHash hasher) batches.flatten = .ok (c', answers.flatten) := by
  induction batches with
  | nil =>
    intro c log h hsz
    exact ⟨c, [], rfl, rfl, rfl⟩
  | cons batch batches ih =>
    intro c log h hsz
    obtain ⟨c1, answers, e1, hlen, h1, hs1⟩ := h.thruLoop batch
    obtain ⟨c2, rest, e2, hlens, e2'⟩ := ih h1 fun hd b hb =>
      hs1.maxConsumeSize ▸ hsz hd b (List.mem_cons_of_mem _ hb)
    refine ⟨c2, answers :: rest, ?_, by simp [hlen, hlens], thruLoop_append _ e1 e2'⟩
    have hcheck := checkConsumeSize_ok fun hd => hsz hd batch List.mem_cons_self
    rw [InBoundIdController.run, thru, hcheck, ok_bind, e1, ok_bind]
    dsimp only
    rw [e2, ok_bind]
    rfl

end InBoundIdController

/-- A new controller holds nothing, and has room for the ids it was asked to hold. -/
theorem getInboundIdController_ok (hasher : KindGlobalPacketIdentifier → Nat) {idhashsetCap : Nat}
    {c : InBoundIdController} (h : getInboundIdController idhashsetCap = .ok c) :
    c.Holds hasher [] ∧ idhashsetCap ≤ c.cap ∧ 1 ≤ c.maxConsumeSize := by
  unfold getInboundIdController at h
  split at h
  · rename_i hcap
    obtain ⟨s, hs, h⟩ := bind_eq_ok h
    obtain rfl := Except.ok.inj h
    obtain ⟨m, hm, hs⟩ := bind_eq_ok hs
    obtain rfl := Except.ok.inj hs
    obtain ⟨hinv, hentries, c, hceil, -, hstorage⟩ := CyclicUnorderedNodeMap.make_ok hm
    refine ⟨⟨hinv, ?_, InBoundIdController.Fair.nil _⟩, ?_, Nat.le_max_right _ _⟩
    · show m.entries.map Prod.fst = _
      rw [hentries]
      simp [InBoundIdController.admitted]
    · have hsz : TemporalFiniteUnorderedSet.sizeToCapacity idhashsetCap = idhashsetCap * 2 :=
        sizeT_of_lt (by omega)
      rw [hsz] at hceil
      have hsmall : idhashsetCap * 2 ≤ 2 ^ 63 := by omega
      obtain ⟨e, -, hceil', hle⟩ := Stdx.ceil2_ok hsmall
      rw [hceil] at hceil'
      obtain rfl := Except.ok.inj hceil'
      show idhashsetCap ≤ m.storageCap
      rw [hstorage]
      show idhashsetCap ≤ max (2 ^ e) minCapacity / 2
      omega
  · cases h

/-! ## The distributed controller -/

namespace HashDistributedInBoundIdController

variable {hasher : KindGlobalPacketIdentifier → Nat} {debugMode : Bool}

def answersOf (op : List ThruResponse) (args : List InternalResolutorArgument) :
    List ThruResponse :=
  args.map fun arg => op.getD arg.badOp (.ok true)

theorem answersOf_append (op : List ThruResponse) (args args' : List InternalResolutorArgument) :
    answersOf op (args ++ args') = answersOf op args ++ answersOf op args' :=
  List.map_append

variable {op op' : List ThruResponse} {ids ids' : List KindGlobalPacketIdentifier}

theorem answersOf_congr {args : List InternalResolutorArgument}
    (h : ∀ arg ∈ args, op'.getD arg.badOp (.ok true) = op.getD arg.badOp (.ok true)) :
    answersOf op' args = answersOf op args :=
  List.map_congr_left h

theorem writeBack_cons (op : List ThruResponse) (arg : InternalResolutorArgument)
    (args : List InternalResolutorArgument) (response : ThruResponse)
    (responses : List ThruResponse) (hlt : arg.badOp < op.length)
    (htrue : op.getD arg.badOp (.ok true) = .ok true) :
    ∃ op', writeBack op (arg :: args) (response :: responses) = writeBack op' args responses ∧
      op'.length = op.length ∧ op'.getD arg.badOp (.ok true) = response ∧
      ∀ pos, pos ≠ arg.badOp → op'.getD pos (.ok true) = op.getD pos (.ok true) := by
  have hset : (op.set arg.badOp response).length = op.length ∧
      (op.set arg.badOp response).getD arg.badOp (.ok true) = response ∧ ∀ pos, pos ≠ arg.badOp →
        (op.set arg.badOp response).getD pos (.ok true) = op.getD pos (.ok true) := by
    refine ⟨List.length_set, ?_, fun pos hne => ?_⟩
    · simp [List.getD_eq_getElem?_getD, hlt]
    · simp [List.getD_eq_getElem?_getD, List.getElem?_set_ne hne.symm]
  cases response with
  | error e => exact ⟨op.set arg.badOp (.error e), rfl, hset⟩
  | ok b =>
    cases b with
    | false => exact ⟨op.set arg.badOp (.ok false), rfl, hset⟩
    | true => exact ⟨op, rfl, rfl, htrue, fun _ _ => rfl⟩

theorem writeBack_ok (args : List InternalResolutorArgument) :
    ∀ (op responses : List ThruResponse), responses.length = args.length →
      (args.map fun arg => arg.badOp).Nodup → (∀ arg ∈ args, arg.badOp < op.length) →
      (∀ arg ∈ args, op.getD arg.badOp (.ok true) = .ok true) →
      answersOf (writeBack op args responses) args = responses ∧
        (writeBack op args responses).length = op.length ∧
        ∀ pos, pos ∉ args.map (fun arg => arg.badOp) →
          (writeBack op args responses).getD pos (.ok true) = op.getD pos (.ok true) := by
  induction args with
  | nil =>
    intro op responses hlen _ _ _
    obtain rfl := List.length_eq_zero_iff.1 hlen
    exact ⟨rfl, rfl, fun _ _ => rfl⟩
  | cons arg args ih =>
    intro op responses hlen hnodup hlt htrue
    cases responses with
    | nil => simp at hlen
    | cons response responses =>
      rw [List.map_cons, List.nodup_cons] at hnodup
      obtain ⟨op1, e, hlen1, harg, hother⟩ := writeBack_cons op arg args response responses
        (hlt arg List.mem_cons_self) (htrue arg List.mem_cons_self)
      have hne : ∀ a ∈ args, a.badOp ≠ arg.badOp := fun a ha he =>
        hnodup.1 (he ▸ List.mem_map_of_mem ha)
      obtain ⟨hans, hlen2, hkeep⟩ := ih op1 responses (by simpa using hlen)
        hnodup.2 (fun a ha => hlen1 ▸ hlt a (List.mem_cons_of_mem _ ha))
        (fun a ha => by rw [hother _ (hne a ha)]; exact htrue a (List.mem_cons_of_mem _ ha))
      rw [e]
      refine ⟨?_, hlen2.trans hlen1, fun pos hpos => ?_⟩
      · rw [answersOf, List.map_cons, hkeep _ hnodup.1, harg]
        exact congrArg (response :: ·) hans
      · rw [List.map_cons, List.mem_cons, not_or] at hpos
        rw [hkeep pos hpos.2, hother pos hpos.1]

def positions (groups : List (Group Nat InternalResolutorArgument)) : List Nat :=
  (pairs groups).map fun pair => pair.2.badOp

/-- While a batch is distributed: the groups of `done` were pushed. -/
structure Pushed (hasher : KindGlobalPacketIdentifier → Nat) (dstVec : List InBoundIdController)
    (sz : Nat) (done : List (Group Nat InternalResolutorArgument)) (s : Distributing) : Prop where
  size : s.op.length = sz
  length : s.dstVec.length = dstVec.length
  part : ∀ (p : Nat) c, dstVec[p]? = some c → ∃ c' log, s.dstVec[p]? = some c' ∧
    c.thruLoop (ofHash hasher) ((flatOf p done).map fun arg => arg.pktId) =
      .ok (c', answersOf s.op (flatOf p done)) ∧
    c'.Holds hasher log ∧ InBoundIdController.SameLimits c c'
  fresh : ∀ pos, pos ∉ positions done → s.op.getD pos (.ok true) = .ok true

variable {dstVec : List InBoundIdController} {sz : Nat}
  {done : List (Group Nat InternalResolutorArgument)} {s : Distributing}

theorem mem_positions_of_mem_flatOf {p : Nat} {arg : InternalResolutorArgument}
    (h : arg ∈ flatOf p done) : arg.badOp ∈ positions done := by
  obtain ⟨pair, hpair, he⟩ := List.mem_filterMap.1 h
  split at he
  · cases he
    exact List.mem_map_of_mem hpair
  · cases he

theorem Pushed.push (debugMode : Bool) (h : Pushed hasher dstVec sz done s)
    {group : Group Nat InternalResolutorArgument} (hkey : group.1 < dstVec.length)
    (hroom : ∀ c ∈ dstVec, group.2.length ≤ c.maxConsumeSize)
    (hnodup : (positions (done ++ [group])).Nodup)
    (hlt : ∀ arg ∈ group.2, arg.badOp < sz) :
    ∃ s', push (ofHash hasher) debugMode s group = .ok s' ∧
      Pushed hasher dstVec sz (done ++ [group]) s' := by
  have hpos : positions (done ++ [group]) =
      positions done ++ group.2.map fun arg => arg.badOp := by
    simp [positions]
  rw [hpos, List.nodup_append] at hnodup
  obtain ⟨-, hgroup, hdisj⟩ := hnodup
  obtain ⟨c0, hc0⟩ : ∃ c, dstVec[group.1]? = some c := ⟨_, List.getElem?_eq_getElem hkey⟩
  obtain ⟨c1, log, hc1, e1, h1, hs1⟩ := h.part group.1 c0 hc0
  obtain ⟨c2, responses, e2, hlen, h2, hs2⟩ := h1.thruLoop (group.2.map fun arg => arg.pktId)
  have hcheck : checkConsumeSize debugMode (group.2.map fun arg => arg.pktId).length
      c1.maxConsumeSize = .ok () := by
    refine checkConsumeSize_ok fun _ => ?_
    rw [List.length_map, hs1.maxConsumeSize]
    exact hroom c0 (List.mem_of_getElem? hc0)
  have hnew : ∀ arg ∈ group.2, arg.badOp ∉ positions done := fun arg harg hmem =>
    hdisj _ hmem _ (List.mem_map_of_mem harg) rfl
  obtain ⟨hans, hsize, hkeep⟩ := writeBack_ok group.2 s.op responses
    (by simpa using hlen) hgroup (fun arg harg => h.size ▸ hlt arg harg)
    (fun arg harg => h.fresh _ (hnew arg harg))
  have hold : ∀ p, answersOf (writeBack s.op group.2 responses) (flatOf p done) =
      answersOf s.op (flatOf p done) := by
    refine fun p => answersOf_congr fun arg harg => hkeep _ fun hmem => ?_
    obtain ⟨a, ha, he⟩ := List.mem_map.1 hmem
    exact hnew a ha (he ▸ mem_positions_of_mem_flatOf harg)
  refine ⟨⟨s.dstVec.set group.1 c2, writeBack s.op group.2 responses⟩, ?_, ?_, ?_, ?_, ?_⟩
  · rw [HashDistributedInBoundIdController.push, hc1]
    dsimp only
    rw [InBoundIdController.thru, hcheck, ok_bind, e2, ok_bind]
  · exact hsize.trans h.size
  · exact List.length_set.trans h.length
  · intro p c hc
    by_cases hp : group.1 = p
    · subst hp
      rw [hc0] at hc
      cases hc
      refine ⟨c2, _, ?_, ?_, h2, hs2.cap.trans hs1.cap,
        hs2.maxConsumeSize.trans hs1.maxConsumeSize⟩
      · exact List.getElem?_set_self (h.length ▸ hkey)
      · have := InBoundIdController.thruLoop_append _ e1 e2
        simp only [flatOf_append, flatOf_cons, flatOf_nil, if_true, List.append_nil,
          List.map_append]
        rw [this, answersOf_append, hold, hans]
    · obtain ⟨c', log', hc', e', h', hs'⟩ := h.part p c hc
      refine ⟨c', log', ?_, ?_, h', hs'⟩
      · exact (List.getElem?_set_ne hp).trans hc'
      · simp only [flatOf_append, flatOf_cons, flatOf_nil, if_neg hp, List.append_nil]
        rw [e', hold]
  · intro pos hmem
    rw [hpos, List.mem_append, not_or] at hmem
    rw [hkeep pos hmem.2, h.fresh pos hmem.1]

theorem Pushed.pushAll (debugMode : Bool) (groups : List (Group Nat InternalResolutorArgument)) :
    ∀ {done : List (Group Nat InternalResolutorArgument)} {s : Distributing},
      Pushed hasher dstVec sz done s →
      (∀ group ∈ groups, group.1 < dstVec.length ∧
        (∀ c ∈ dstVec, group.2.length ≤ c.maxConsumeSize) ∧ ∀ arg ∈ group.2, arg.badOp < sz) →
      (positions (done ++ groups)).Nodup →
      ∃ s', pushAll (ofHash hasher) debugMode s groups = .ok s' ∧
        Pushed hasher dstVec sz (done ++ groups) s' := by
  induction groups with
  | nil =>
    intro done s h _ _
    exact ⟨s, rfl, by rw [List.append_nil]; exact h⟩
  | cons group groups ih =>
    intro done s h hgroups hnodup
    rw [List.append_cons] at hnodup ⊢
    obtain ⟨hkey, hroom, hlt⟩ := hgroups group List.mem_cons_self
    have hnodup1 : (positions (done ++ [group])).Nodup := by
      simp only [positions, pairs_append, List.map_append] at hnodup ⊢
      exact (List.nodup_append.1 hnodup).1
    obtain ⟨s1, e1, h1⟩ := h.push debugMode hkey hroom hnodup1 hlt
    obtain ⟨s2, e2, h2⟩ := ih h1 (fun g hg => hgroups g (List.mem_cons_of_mem _ hg)) hnodup
    exact ⟨s2, by rw [HashDistributedInBoundIdController.pushAll, e1, ok_bind, e2], h2⟩

/-! ### Whole batches -/

variable {hashReflectible : KindGlobalPacketIdentifier → Nat} {layout : EventLayout} {head : Nat}
  {c : HashDistributedInBoundIdController}

/-- A controller whose partitions take what the aggregation gives them. -/
structure Ready (hasher : KindGlobalPacketIdentifier → Nat)
    (c : HashDistributedInBoundIdController) : Prop where
  holds : ∀ controller ∈ c.inboundIdControllerVec, ∃ log, controller.Holds hasher log
  room : ∀ controller ∈ c.inboundIdControllerVec,
    max c.keyvalueAggregationCap 1 ≤ controller.maxConsumeSize
  cap_le : c.keyvalueAggregationCap ≤ maxDeliverableCap
  pow : ∃ e, e < 64 ∧ c.inboundIdControllerVec.length = 2 ^ e

def partAnswers (part : KindGlobalPacketIdentifier → Nat) (p : Nat)
    (ids : List KindGlobalPacketIdentifier) (op : List ThruResponse) : List ThruResponse :=
  ((ids.zip op).filter fun pair => part pair.1 = p).map Prod.snd

theorem partitionedIdx_lt (hpow : ∃ e, e < 64 ∧ c.inboundIdControllerVec.length = 2 ^ e)
    (id : KindGlobalPacketIdentifier) :
    partitionedIdx hashReflectible c.inboundIdControllerVec.length id <
      c.inboundIdControllerVec.length := by
  obtain ⟨e, he, hlen⟩ := hpow
  rw [partitionedIdx, hlen, subT_of_le Nat.one_le_two_pow (Nat.pow_lt_pow_right (by decide) he),
    Nat.and_two_pow_sub_one_eq_mod]
  exact Nat.mod_lt _ (Nat.two_pow_pos e)

theorem eventsOf_resolutorArgs (hashReflectible : KindGlobalPacketIdentifier → Nat) (n p : Nat)
    (ids : List KindGlobalPacketIdentifier) :
    ∀ (k : Nat) (op : List ThruResponse), op.length = k + ids.length →
      ((eventsOf p ((ids.zipIdx k).map fun (id, i) =>
          (partitionedIdx hashReflectible n id, (⟨id, i⟩ : InternalResolutorArgument)))).map
        fun arg => arg.pktId) = ids.filter (fun id => partitionedIdx hashReflectible n id = p) ∧
      answersOf op (eventsOf p ((ids.zipIdx k).map fun (id, i) =>
          (partitionedIdx hashReflectible n id, (⟨id, i⟩ : InternalResolutorArgument)))) =
        partAnswers (partitionedIdx hashReflectible n) p ids (op.drop k) := by
  induction ids with
  | nil => intro k op _; exact ⟨rfl, rfl⟩
  | cons id ids ih =>
    intro k op hlen
    rw [List.length_cons] at hlen
    obtain ⟨h1, h2⟩ := ih (k + 1) op (by omega)
    have hdrop : op.drop k = op.getD k (.ok true) :: op.drop (k + 1) := by
      rw [List.drop_eq_getElem_cons (by omega), List.getD_eq_getElem?_getD,
        List.getElem?_eq_getElem (by omega), Option.getD_some]
    simp only [eventsOf, List.zipIdx_cons, List.map_cons, List.filterMap_cons] at h1 h2 ⊢
    rw [hdrop]
    by_cases hp : partitionedIdx hashReflectible n id = p
    · simp only [hp, if_true, List.map_cons, List.filter_cons, decide_true, partAnswers,
        List.zip_cons_cons, answersOf] at h1 h2 ⊢
      exact ⟨by rw [h1], by rw [h2]⟩
    · simp only [hp, if_false, List.filter_cons, decide_false, partAnswers, List.zip_cons_cons,
        Bool.false_eq_true] at h1 h2 ⊢
      exact ⟨h1, h2⟩

theorem nodup_positions {ids : List KindGlobalPacketIdentifier} {n : Nat}
    {groups : List (Group Nat InternalResolutorArgument)}
    (h : (pairs groups).Perm (resolutorArgs hashReflectible n ids)) :
    (positions groups).Nodup ∧ ∀ pos ∈ positions groups, pos < ids.length := by
  have hp : (positions groups).Perm (List.range' 0 ids.length) := by
    have e : (resolutorArgs hashReflectible n ids).map (fun pair => pair.2.badOp) =
        List.range' 0 ids.length := by
      rw [resolutorArgs, List.map_map, ← List.zipIdx_map_snd 0 ids]
      rfl
    exact e ▸ h.map _
  refine ⟨hp.nodup_iff.2 List.nodup_range', fun pos hpos => ?_⟩
  have := List.mem_range'_1.1 (hp.mem_iff.1 hpos)
  omega

/-- The sets of the partitions answer the ids of a batch, each its own, in order. -/
structure Partitioned (hasher : KindGlobalPacketIdentifier → Nat)
    (part : KindGlobalPacketIdentifier → Nat) (c c' : HashDistributedInBoundIdController)
    (ids : List KindGlobalPacketIdentifier) (op : List ThruResponse) : Prop where
  length : c'.inboundIdControllerVec.length = c.inboundIdControllerVec.length
  size : op.length = ids.length
  sequential : ∀ (p : Nat) controller, c.inboundIdControllerVec[p]? = some controller →
    ∃ controller', c'.inboundIdControllerVec[p]? = some controller' ∧
      controller.thruLoop (ofHash hasher) (ids.filter fun id => part id = p) =
        .ok (controller', partAnswers part p ids op)

theorem Pushed.mem (h : Pushed hasher dstVec sz done s) {controller : InBoundIdController}
    (hm : controller ∈ s.dstVec) : ∃ c ∈ dstVec, ∃ log, controller.Holds hasher log ∧
      InBoundIdController.SameLimits c controller := by
  obtain ⟨p, hp, rfl⟩ := List.mem_iff_getElem.1 hm
  have hc := List.getElem?_eq_getElem (h.length ▸ hp)
  obtain ⟨c', log, hc', -, hlog, hs⟩ := h.part p _ hc
  rw [List.getElem?_eq_getElem hp] at hc'
  obtain rfl := Option.some.inj hc'
  exact ⟨_, List.mem_of_getElem? hc, log, hlog, hs⟩

theorem Ready.thru (h : Ready hasher c) (ids : List KindGlobalPacketIdentifier) :
    ∃ c' op, c.thru (ofHash hasher) debugMode hashReflectible layout head ids = .ok (c', op) ∧
      Ready hasher c' ∧ Partitioned hasher
        (partitionedIdx hashReflectible c.inboundIdControllerVec.length) c c' ids op := by
  obtain ⟨groups, e1, hperm, hflat, hbound⟩ := kvScope_ok layout head
    ((Nat.min_le_left c.keyvalueAggregationCap ids.length).trans h.cap_le)
    (resolutorArgs hashReflectible c.inboundIdControllerVec.length ids)
  obtain ⟨hnodup, hlt⟩ := nodup_positions hperm
  have h0 : Pushed hasher c.inboundIdControllerVec ids.length []
      ⟨c.inboundIdControllerVec, List.replicate ids.length (.ok true)⟩ := by
    refine ⟨List.length_replicate, rfl, fun p controller hc => ?_, fun pos _ => ?_⟩
    · obtain ⟨log, hlog⟩ := h.holds controller (List.mem_of_getElem? hc)
      exact ⟨controller, log, hc, rfl, hlog, rfl, rfl⟩
    · rw [List.getD_eq_getElem?_getD, List.getElem?_replicate]
      split <;> rfl
  obtain ⟨s, e2, hs⟩ := h0.pushAll debugMode groups (fun group hg => by
    have hmem : ∀ arg ∈ group.2, (group.1, arg) ∈ pairs groups := fun arg harg =>
      List.mem_flatMap.2 ⟨group, hg, List.mem_map_of_mem harg⟩
    refine ⟨?_, fun controller hc => ?_, fun arg harg => hlt _ (List.mem_map_of_mem (hmem arg harg))⟩
    · obtain ⟨pair, hpair, he⟩ := List.mem_map.1 (kvScope_keys e1 group hg)
      obtain ⟨x, -, rfl⟩ := List.mem_map.1 hpair
      rw [← he]
      exact partitionedIdx_lt h.pow x.1
    · have := (hbound group hg).2
      have := h.room controller hc
      omega) hnodup
  rw [List.nil_append] at hs
  refine ⟨{ c with inboundIdControllerVec := s.dstVec }, s.op, ?_, ⟨?_, ?_, h.cap_le, ?_⟩,
    hs.length, hs.size, ?_⟩
  · rw [HashDistributedInBoundIdController.thru, e1, ok_bind, e2, ok_bind]
    rfl
  · intro controller hm
    obtain ⟨c0, -, log, hlog, -⟩ := hs.mem hm
    exact ⟨log, hlog⟩
  · intro controller hm
    obtain ⟨c0, hc0, -, -, hlim⟩ := hs.mem hm
    rw [hlim.maxConsumeSize]
    exact h.room c0 hc0
  · obtain ⟨e, he, hlen⟩ := h.pow
    exact ⟨e, he, hs.length.trans hlen⟩
  · intro p controller hc
    obtain ⟨controller', log, hc', e, -, -⟩ := hs.part p controller hc
    refine ⟨controller', hc', ?_⟩
    obtain ⟨h1, h2⟩ := eventsOf_resolutorArgs hashReflectible c.inboundIdControllerVec.length p ids
      0 s.op (by rw [hs.size, Nat.zero_add])
    rw [hflat] at e
    rw [← h1]
    rw [List.drop_zero] at h2
    rw [← h2]
    exact e

theorem partAnswers_append (part : KindGlobalPacketIdentifier → Nat) (p : Nat)
    (h : op.length = ids.length) :
    partAnswers part p (ids ++ ids') (op ++ op') =
      partAnswers part p ids op ++ partAnswers part p ids' op' := by
  rw [partAnswers, List.zip_append h.symm, List.filter_append, List.map_append]
  rfl

theorem Partitioned.trans {part : KindGlobalPacketIdentifier → Nat}
    {c c1 c2 : HashDistributedInBoundIdController} (h : Partitioned hasher part c c1 ids op)
    (h' : Partitioned hasher part c1 c2 ids' op') :
    Partitioned hasher part c c2 (ids ++ ids') (op ++ op') where
  length := h'.length.trans h.length
  size := by rw [List.length_append, List.length_append, h.size, h'.size]
  sequential p controller hc := by
    obtain ⟨controller1, hc1, e1⟩ := h.sequential p controller hc
    obtain ⟨controller2, hc2, e2⟩ := h'.sequential p controller1 hc1
    refine ⟨controller2, hc2, ?_⟩
    rw [List.filter_append, partAnswers_append part p h.size]
    exact InBoundIdController.thruLoop_append _ e1 e2

theorem Ready.run {batches : List (List KindGlobalPacketIdentifier)} :
    ∀ {c : HashDistributedInBoundIdController}, Ready hasher c →
      ∃ c' answers, c.run (ofHash hasher) debugMode hashReflectible layout head batches =
          .ok (c', answers) ∧ answers.map List.length = batches.map List.length ∧
        Partitioned hasher (partitionedIdx hashReflectible c.inboundIdControllerVec.length) c c'
          batches.flatten answers.flatten := by
  induction batches with
  | nil =>
    intro c h
    exact ⟨c, [], rfl, rfl, rfl, rfl, fun p controller hc => ⟨controller, hc, rfl⟩⟩
  | cons batch batches ih =>
    intro c h
    obtain ⟨c1, op, e1, h1, hp1⟩ := h.thru batch
    obtain ⟨c2, rest, e2, hlen, hp2⟩ := ih h1
    refine ⟨c2, op :: rest, ?_, by rw [List.map_cons, List.map_cons, hlen, hp1.size], ?_⟩
    · rw [HashDistributedInBoundIdController.run, e1, ok_bind]
      dsimp only
      rw [e2, ok_bind]
      rfl
    · rw [hp1.length] at hp2
      exact hp1.trans hp2

/-- If each partition is new and can hold those of `few` that it is for. -/
theorem Partitioned.firstOnly {part : KindGlobalPacketIdentifier → Nat}
    {c c' : HashDistributedInBoundIdController} {few : List KindGlobalPacketIdentifier}
    (h : Partitioned hasher part c c' ids op) (hids : ids ⊆ few)
    (hpart : ∀ id ∈ ids, ∃ controller, c.inboundIdControllerVec[part id]? = some controller ∧
      controller.Holds hasher [] ∧ (few.filter fun x => part x = part id).length ≤ controller.cap) :
    InBoundIdController.FirstOnly (ids.zip op) := by
  refine .of_parts part fun x hx => ?_
  obtain ⟨controller, hc, h0, hfew⟩ := hpart x.1 (List.of_mem_zip hx).1
  obtain ⟨c1, -, e1⟩ := h.sequential _ controller hc
  obtain ⟨c2, answers, e2, -, h2, hs⟩ := h0.thruLoop (ids.filter fun id => part id = part x.1)
  rw [e1] at e2
  obtain ⟨rfl, rfl⟩ := Prod.mk.inj (Except.ok.inj e2)
  have hfst : ((ids.zip op).filter fun y => part y.1 = part x.1).map Prod.fst =
      ids.filter fun id => part id = part x.1 := by
    conv_rhs => rw [← List.map_fst_zip h.size.ge, List.filter_map]
    rfl
  have hfair := h2.fair
  rw [hs.cap, List.nil_append, partAnswers, ← List.zip_of_prod hfst rfl] at hfair
  refine hfair.firstOnly (fun k hk => ?_) hfew
  rw [hfst] at hk
  exact List.mem_filter.2 ((List.mem_filter.1 hk).imp_left fun hm => hids hm)

end HashDistributedInBoundIdController

theorem foldl_min_le (l : List InBoundIdController) (sz : Nat) :
    l.foldl (fun sz c => min sz c.maxConsumeSize) sz ≤ sz ∧
      ∀ c ∈ l, l.foldl (fun sz c => min sz c.maxConsumeSize) sz ≤ c.maxConsumeSize := by
  induction l generalizing sz with
  | nil => simp
  | cons c l ih =>
    obtain ⟨h1, h2⟩ := ih (min sz c.maxConsumeSize)
    refine ⟨h1.trans (Nat.min_le_left _ _), fun c' hc' => ?_⟩
    rcases List.mem_cons.1 hc' with rfl | hc'
    · exact h1.trans (Nat.min_le_right _ _)
    · exact h2 c' hc'

theorem getRandomhashDistributed_ok (hasher : KindGlobalPacketIdentifier → Nat)
    {baseVec : List InBoundIdController} {keyvalueAggregationCap : Nat}
    {c : HashDistributedInBoundIdController}
    (hbase : ∀ controller ∈ baseVec, ∃ idhashsetCap,
      getInboundIdController idhashsetCap = .ok controller)
    (h : getRandomhashDistributedInboundIdController baseVec keyvalueAggregationCap = .ok c) :
    c.Ready hasher ∧ c.inboundIdControllerVec = baseVec := by
  unfold getRandomhashDistributedInboundIdController at h
  split at h
  · cases h
  rename_i hlen
  split at h
  · cases h
  rename_i hpow
  split at h
  · cases h
  rename_i hcap
  cases h
  have hfold := foldl_min_le baseVec (2 ^ 64 - 1)
  refine ⟨⟨fun controller hc => ?_, fun controller hc => ?_, ?_, ?_⟩, rfl⟩
  · obtain ⟨cap, hmake⟩ := hbase controller hc
    exact ⟨[], (getInboundIdController_ok hasher hmake).1⟩
  · obtain ⟨cap, hmake⟩ := hbase controller hc
    have h1 := (getInboundIdController_ok hasher hmake).2.2
    have h2 := hfold.2 controller hc
    show max (min _ _) 1 ≤ _
    omega
  · show min _ _ ≤ 2 ^ 30
    omega
  · have hpow : isPow2 baseVec.length = true := by simpa using hpow
    obtain ⟨e, he⟩ := Nat.ne_zero_and_sub_one_eq_zero_iff_isPowerOfTwo.1 (of_decide_eq_true hpow)
    refine ⟨e, ?_, he⟩
    have hle : 2 ^ e ≤ 2 ^ 20 := by omega
    have := (Nat.pow_le_pow_iff_right (by decide : 1 < 2)).1 hle
    omega

/-! ## Both controllers -/

/-- **Duplicate suppression.** The set of a new `InBoundIdController` holds the ids admitted last, an id is
admitted if and only if it is not in the set, and between two admissions of an id at least `idhashsetCap`
others are admitted. The answers of a new distributed controller are those of its partitions, each fed its
ids one after the other. -/
theorem duplicate_suppression (hasher hashReflectible : KindGlobalPacketIdentifier → Nat)
    (debugMode : Bool) (layout : EventLayout) (head : Nat) :
    (∀ idhashsetCap c, getInboundIdController idhashsetCap = .ok c →
      ∀ batches : List (List KindGlobalPacketIdentifier),
        (debugMode = true → ∀ batch ∈ batches, batch.length ≤ c.maxConsumeSize) →
        ∃ c' answers, c.run (ofHash hasher) debugMode batches = .ok (c', answers) ∧
          answers.map List.length = batches.map List.length ∧ c'.cap = c.cap ∧
          c'.ids = (InBoundIdController.admitted
            (batches.flatten.zip answers.flatten)).rtake c.cap ∧
          (∀ id, ∃ c'', c'.thruRound (ofHash hasher) id = .ok (c'', .ok (id ∉ c'.ids))) ∧
          InBoundIdController.Fair c.cap (batches.flatten.zip answers.flatten) ∧
          ∀ l₁ l₂ l₃ id, batches.flatten.zip answers.flatten =
              l₁ ++ (id, .ok true) :: (l₂ ++ (id, .ok true) :: l₃) →
            ∃ others : List KindGlobalPacketIdentifier,
              others.Sublist (InBoundIdController.admitted l₂) ∧ others.Nodup ∧ id ∉ others ∧
              idhashsetCap ≤ others.length) ∧
    ∀ baseVec keyvalueAggregationCap c,
      (∀ controller ∈ baseVec, ∃ idhashsetCap,
        getInboundIdController idhashsetCap = .ok controller) →
      getRandomhashDistributedInboundIdController baseVec keyvalueAggregationCap = .ok c →
      ∀ batches, ∃ c' answers,
        c.run (ofHash hasher) debugMode hashReflectible layout head batches =
          .ok (c', answers) ∧ answers.map List.length = batches.map List.length ∧
        HashDistributedInBoundIdController.Partitioned hasher
          (HashDistributedInBoundIdController.partitionedIdx hashReflectible baseVec.length) c c'
          batches.flatten answers.flatten := by
  constructor
  · intro idhashsetCap c hmake batches hsz
    obtain ⟨h0, hcap, -⟩ := getInboundIdController_ok hasher hmake
    obtain ⟨c', answers, e, hlen, hloop⟩ := h0.run hsz
    obtain ⟨c1, answers1, e1, -, h1, hs⟩ := h0.thruLoop batches.flatten
    rw [hloop] at e1
    obtain ⟨rfl, rfl⟩ := Prod.mk.inj (Except.ok.inj e1)
    have hfair := h1.fair
    have hids := h1.ids
    rw [hs.cap, List.nil_append] at hids
    rw [hs.cap, List.nil_append] at hfair
    refine ⟨c', answers, e, hlen, hs.cap, hids, fun id => ?_, hfair, fun l₁ l₂ l₃ id he => ?_⟩
    · obtain ⟨c'', e'', -⟩ := InBoundIdController.thruRound_ok h1.ordered id
      exact ⟨c'', e''⟩
    · obtain ⟨others, hsub, hnodup, hnot, hlen'⟩ := hfair.between h0.ordered.cap_pos he
      exact ⟨others, hsub, hnodup, hnot, hlen' ▸ hcap⟩
  · intro baseVec keyvalueAggregationCap c hbase hmake batches
    obtain ⟨h0, rfl⟩ := getRandomhashDistributed_ok hasher hbase hmake
    exact h0.run

def firstId : KindGlobalPacketIdentifier := ⟨⟨0, Vector.replicate 20 0⟩, .request⟩

/-- A request that arrives twice, at a single controller and at a distributed one. -/
theorem duplicate_suppression_twice : ∃ c, getInboundIdController 4 = .ok c ∧
    (∃ c' answers, c.run (ofHash fun _ => 0) true [[firstId], [firstId]] = .ok (c', answers) ∧
      answers.map List.length = [1, 1]) ∧
    ∃ d, getRandomhashDistributedInboundIdController [c] 2048 = .ok d ∧
      ∃ d' answers, d.run (ofHash fun _ => 0) true (fun _ => 0) ⟨8, 8, by decide, by decide⟩ 0
        [[firstId, firstId]] = .ok (d', answers) ∧ answers.map List.length = [2] := by
  have h := duplicate_suppression (fun _ => 0) (fun _ => 0) true ⟨8, 8, by decide, by decide⟩ 0
  refine ⟨_, rfl, ?_, _, rfl, ?_⟩
  · obtain ⟨c', answers, e, hlen, -⟩ := h.1 4 _ rfl [[firstId], [firstId]] (by decide)
    exact ⟨c', answers, e, hlen⟩
  · obtain ⟨d', answers, e, hlen, -⟩ := h.2 _ 2048 _
      (fun controller hc => ⟨4, by rw [List.mem_singleton.1 hc]; rfl⟩) rfl [[firstId, firstId]]
    exact ⟨d', answers, e, hlen⟩

/-- **Exactly once.** As long as only ids of `ids` come, of which there are no more than the set can hold, in
whatever batches and order and however often, a new controller admits each of them when it comes first and
never again; and so does a distributed one, if each partition can hold those of `ids` that it is for. -/
theorem exactly_once (hasher hashReflectible : KindGlobalPacketIdentifier → Nat) (debugMode : Bool)
    (layout : EventLayout) (head : Nat) (ids : List KindGlobalPacketIdentifier)
    (batches : List (List KindGlobalPacketIdentifier)) (hids : batches.flatten ⊆ ids) :
    (∀ idhashsetCap c, getInboundIdController idhashsetCap = .ok c → ids.length ≤ idhashsetCap →
      (debugMode = true → ∀ batch ∈ batches, batch.length ≤ c.maxConsumeSize) →
      ∃ c' answers, c.run (ofHash hasher) debugMode batches = .ok (c', answers) ∧
        answers.map List.length = batches.map List.length ∧
        InBoundIdController.FirstOnly (batches.flatten.zip answers.flatten)) ∧
    ∀ baseVec keyvalueAggregationCap c,
      (∀ (p : Nat) controller, baseVec[p]? = some controller → ∃ idhashsetCap,
        getInboundIdController idhashsetCap = .ok controller ∧
        (ids.filter fun id => HashDistributedInBoundIdController.partitionedIdx hashReflectible
          baseVec.length id = p).length ≤ idhashsetCap) →
      getRandomhashDistributedInboundIdController baseVec keyvalueAggregationCap = .ok c →
      ∃ c' answers,
        c.run (ofHash hasher) debugMode hashReflectible layout head batches = .ok (c', answers) ∧
        answers.map List.length = batches.map List.length ∧
        InBoundIdController.FirstOnly (batches.flatten.zip answers.flatten) := by
  constructor
  · intro idhashsetCap c hmake hfew hsz
    obtain ⟨h0, hcap, -⟩ := getInboundIdController_ok hasher hmake
    obtain ⟨c', answers, e, hlen, hloop⟩ := h0.run hsz
    obtain ⟨c1, answers1, e1, hlen1, h1, hs⟩ := h0.thruLoop batches.flatten
    rw [hloop] at e1
    obtain ⟨rfl, rfl⟩ := Prod.mk.inj (Except.ok.inj e1)
    have hfair := h1.fair
    rw [hs.cap, List.nil_append] at hfair
    exact ⟨c', answers, e, hlen, hfair.firstOnly
      (by rwa [List.map_fst_zip hlen1.ge]) (hfew.trans hcap)⟩
  · intro baseVec keyvalueAggregationCap c hbase hmake
    obtain ⟨h0, rfl⟩ := getRandomhashDistributed_ok hasher (fun controller hc => by
      obtain ⟨p, hp⟩ := List.mem_iff_getElem?.1 hc
      exact (hbase p controller hp).imp fun _ h => h.1) hmake
    refine h0.run.imp fun c' => .imp fun answers => And.imp_right fun h => ⟨h.1, ?_⟩
    refine h.2.firstOnly hids fun id _ => ?_
    have hlt : HashDistributedInBoundIdController.partitionedIdx hashReflectible _ id < _ :=
      HashDistributedInBoundIdController.partitionedIdx_lt h0.pow id
    have hc := List.getElem?_eq_getElem hlt
    obtain ⟨cap, hmake, hfew⟩ := hbase _ _ hc
    obtain ⟨h1, hcap, -⟩ := getInboundIdController_ok hasher hmake
    exact ⟨_, hc, h1, hfew.trans hcap⟩

/-- A request that arrives twice, at a controller for four ids and at the same one as the only partition. -/
theorem exactly_once_twice : ∃ c, getInboundIdController 4 = .ok c ∧
    (∃ c' answers, c.run (ofHash fun _ => 0) true [[firstId], [firstId]] = .ok (c', answers) ∧
      InBoundIdController.FirstOnly ([firstId, firstId].zip answers.flatten)) ∧
    ∃ d, getRandomhashDistributedInboundIdController [c] 2048 = .ok d ∧
      ∃ d' answers, d.run (ofHash fun _ => 0) true (fun _ => 0) ⟨8, 8, by decide, by decide⟩ 0
        [[firstId], [firstId]] = .ok (d', answers) ∧
        InBoundIdController.FirstOnly ([firstId, firstId].zip answers.flatten) := by
  have h := exactly_once (fun _ => 0) (fun _ => 0) true ⟨8, 8, by decide, by decide⟩ 0 [firstId]
    [[firstId], [firstId]] (by simp)
  refine ⟨_, rfl, ?_, _, rfl, ?_⟩
  · obtain ⟨c', answers, e, -, hfirst⟩ := h.1 4 _ rfl (show 1 ≤ 4 by decide) (by decide)
    exact ⟨c', answers, e, hfirst⟩
  · obtain ⟨d', answers, e, -, hfirst⟩ := h.2 [_] 2048 _ (fun p controller hc => ⟨4, by
      obtain ⟨-, rfl⟩ := List.getElem?_eq_some_iff.1 hc
      exact ⟨by simp; rfl, (List.length_filter_le _ _).trans (show 1 ≤ 4 by decide)⟩⟩) rfl
    exact ⟨d', answers, e, hfirst⟩

end Mailbox
