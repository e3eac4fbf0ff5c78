import NeuralNetwork.InternalRest.Proof.ExpiryOrder

/-!
# What temporal_ordered_item_map holds

`entries` are the items with their times. The operations go through in a map with `Inv`, which they keep, do
to `entries` what they say, and leave a sorted heap sorted. In a sorted map the root tells whether an item
has expired (`hasExpiredItem_ok`).
-/

namespace ExpiryQueue

open Cpp Loop Mailbox DaryHeap
open TemporalOrderedItemMap2 (preorder)

namespace TemporalOrderedItemMap

variable {K T : Type} (debug : Bool) {m m' m'' : TemporalOrderedItemMap K T} {i p : Nat} [Inhabited T]

/-! ## The map -/

variable [DecidableEq K] {getId : T → K}

/-- The index names the nodes in use, by the ids of their items. -/
structure Inv (getId : T → K) (m : TemporalOrderedItemMap K T) : Prop extends HeapOk m where
  index : (m.idHeapMap.map Prod.snd).Perm m.live
  keys : ∀ entry ∈ m.idHeapMap, getId (m.nodes entry.2).item = entry.1
  keys_nodup : (m.idHeapMap.map Prod.fst).Nodup

def ids (m : TemporalOrderedItemMap K T) : List K := m.idHeapMap.map Prod.fst

omit [Inhabited T] [DecidableEq K] in
theorem Inv.entries_ids (h : Inv getId m) : m.entries.map (fun x => getId x.1) = m.ids := by
  unfold entries ids
  rw [List.map_map]
  exact List.map_congr_left fun entry hentry => h.keys entry hentry

omit [Inhabited T] [DecidableEq K] in
theorem Inv.length_entries (h : Inv getId m) : m.entries.length = m.size := by
  have := h.index.length_eq
  rw [live, List.length_map, List.length_take, Nat.min_eq_left h.size_le] at this
  rw [entries, List.length_map, this]
  rfl

omit [Inhabited T] [DecidableEq K] in
theorem Inv.index_nodup (h : Inv getId m) : (m.idHeapMap.map Prod.snd).Nodup :=
  h.index.nodup_iff.2 h.live_nodup

variable {itemId : K}

omit [Inhabited T] in
theorem find_eq_none : m.find itemId = none ↔ itemId ∉ m.ids := by
  unfold find ids
  rw [List.lookup_eq_none_iff]
  constructor
  · intro h hmem
    obtain ⟨entry, hentry, he⟩ := List.mem_map.1 hmem
    have := h entry hentry
    simp [he] at this
  · intro h entry hentry
    have hne : itemId ≠ entry.1 := fun he => h (he ▸ List.mem_map_of_mem hentry)
    simpa using hne

omit [Inhabited T] in
theorem Inv.find_split (h : Inv getId m) (e : m.find itemId = some p) :
    ∃ before after, m.idHeapMap = before ++ (itemId, p) :: after ∧
      (m.eraseId itemId).idHeapMap = before ++ after := by
  obtain ⟨before, after, hmap, -⟩ := List.lookup_eq_some_iff.1 e
  have hnodup := h.keys_nodup
  rw [hmap, List.map_append, List.map_cons, List.nodup_middle, List.nodup_cons,
    List.mem_append] at hnodup
  have hkeep : ∀ l : List (K × Nat), itemId ∉ l.map Prod.fst →
      l.filter (fun entry => entry.1 ≠ itemId) = l := by
    intro l hl
    refine List.filter_eq_self.2 fun entry hentry => ?_
    have hne : entry.1 ≠ itemId := fun he => hl (he ▸ List.mem_map_of_mem hentry)
    simpa using hne
  refine ⟨before, after, hmap, ?_⟩
  unfold eraseId
  rw [hmap]
  simp only [List.filter_append, List.filter_cons]
  rw [hkeep before fun hb => hnodup.1 (.inl hb), hkeep after fun ha => hnodup.1 (.inr ha)]
  simp

omit [Inhabited T] in
theorem Inv.eraseId_heapOk (h : Inv getId m) (itemId : K) : HeapOk (m.eraseId itemId) :=
  ⟨h.nodup, h.size_le, h.bound, h.heapIdx⟩

omit [Inhabited T] in
theorem Inv.drop (h : Inv getId m) (e : m.find itemId = some p) (hd : Drops (m.eraseId itemId) m' p) :
    Inv getId m' ∧ m'.entries = m.entries.filter (fun x => getId x.1 ≠ itemId) ∧
      m.entries.Perm (((m.nodes p).item, (m.nodes p).schedTime) :: m'.entries) := by
  obtain ⟨before, after, hmap, herase⟩ := h.find_split e
  have hids : m'.idHeapMap = before ++ after := hd.ids.trans herase
  have hnode : ∀ entry ∈ before ++ after, entry.2 ≠ p := by
    have hnodup := h.index_nodup
    rw [hmap, List.map_append, List.map_cons, List.nodup_middle, List.nodup_cons,
      ← List.map_append] at hnodup
    rintro entry hentry rfl
    exact hnodup.1 (List.mem_map.2 ⟨entry, hentry, rfl⟩)
  have hsame : ∀ entry ∈ before ++ after,
      ((m'.nodes entry.2).item, (m'.nodes entry.2).schedTime) =
        ((m.nodes entry.2).item, (m.nodes entry.2).schedTime) := by
    intro entry hentry
    obtain ⟨h1, h2⟩ := hd.old entry.2 (hnode entry hentry)
    rw [h1, h2]
    rfl
  have hentries : m'.entries = (before ++ after).map fun entry =>
      ((m.nodes entry.2).item, (m.nodes entry.2).schedTime) := by
    rw [entries, hids]
    exact List.map_congr_left hsame
  have hsub : ∀ entry ∈ before ++ after, entry ∈ m.idHeapMap := by
    intro entry hentry
    rw [hmap]
    rcases List.mem_append.1 hentry with hb | ha
    · exact List.mem_append_left _ hb
    · exact List.mem_append_right _ (List.mem_cons_of_mem _ ha)
  refine ⟨⟨hd.ok, ?_, ?_, ?_⟩, ?_, ?_⟩
  · have hperm := h.index.trans hd.live
    rw [hmap, List.map_append, List.map_cons] at hperm
    rw [hids, List.map_append]
    exact (List.perm_middle.symm.trans hperm).cons_inv
  · intro entry hentry
    rw [hids] at hentry
    rw [(hd.old entry.2 (hnode entry hentry)).1]
    exact h.keys entry (hsub entry hentry)
  · have hnodup := h.keys_nodup
    rw [hmap, List.map_append, List.map_cons, List.nodup_middle, List.nodup_cons] at hnodup
    rw [hids, List.map_append]
    exact hnodup.2
  · have hfilter : (m.eraseId itemId).idHeapMap.map (fun entry =>
        ((m.nodes entry.2).item, (m.nodes entry.2).schedTime)) =
        m.entries.filter fun x => getId x.1 ≠ itemId := by
      unfold eraseId entries
      rw [List.filter_map]
      congr 1
      refine List.filter_congr fun entry hentry => ?_
      simp [h.keys entry hentry]
    rw [hentries, ← herase, hfilter]
  · rw [hentries, entries, hmap, List.map_append, List.map_cons, List.map_append]
    exact List.perm_middle

/-! ### The operations -/

omit [DecidableEq K] in
theorem make_inv {cap : Nat} (hcap : cap < 2 ^ 64) :
    Inv getId (make cap : TemporalOrderedItemMap K T) where
  nodup := List.nodup_range
  size_le := Nat.zero_le _
  bound := by simpa [make] using hcap
  heapIdx _ _ hi _ := absurd hi (Nat.not_lt_zero _)
  index := List.Perm.refl _
  keys _ hentry := by cases hentry
  keys_nodup := List.nodup_nil

omit [Inhabited T] in
theorem add_ok (h : Inv getId m) (item : T) (time : Int) :
    (getId item ∈ m.ids ∧ m.add debug getId item time = .ok (m, .duplicatedEntry)) ∨
    (getId item ∉ m.ids ∧ m.size = m.capacity ∧
      m.add debug getId item time = .ok (m, .resourceExhaustion)) ∨
    (getId item ∉ m.ids ∧ m.size ≠ m.capacity ∧ ∃ m',
      m.add debug getId item time = .ok (m', .success) ∧ Inv getId m' ∧
      m'.entries = m.entries ++ [(item, time)] ∧ m'.capacity = m.capacity ∧
      (m.Sorted → m'.Sorted)) := by
  unfold add
  cases hfind : m.find (getId item) with
  | some p =>
    refine .inl ⟨?_, rfl⟩
    by_contra hnot
    rw [find_eq_none.2 hnot] at hfind
    cases hfind
  | none =>
    have hnew := find_eq_none.1 hfind
    by_cases hfull : m.size = m.capacity
    · refine .inr (.inl ⟨hnew, hfull, ?_⟩)
      unfold addHeapNode
      rw [if_pos (show m.temporalHeapSz = m.temporalHeap.length from hfull)]
      rfl
    refine .inr (.inr ⟨hnew, hfull, ?_⟩)
    obtain ⟨m1, p, e1, h1⟩ := addHeapNode_ok debug h.toHeapOk hfull item time
    have hdead : p ∉ m.live := by
      have := h1.live.nodup_iff.1 h1.ok.live_nodup
      exact fun hp => List.disjoint_of_nodup_append this hp (List.mem_singleton.2 rfl)
    have hold : ∀ entry ∈ m.idHeapMap, entry.2 ≠ p := fun entry hentry he =>
      hdead (h.index.mem_iff.1 (he ▸ List.mem_map_of_mem hentry))
    refine ⟨{ m1 with idHeapMap := m1.idHeapMap ++ [(getId (m1.nodes p).item, p)] }, ?_,
      ⟨⟨h1.ok.nodup, h1.ok.size_le, h1.ok.bound, h1.ok.heapIdx⟩, ?_, ?_, ?_⟩, ?_, h1.cap, h1.sorted⟩
    · rw [e1]
      rfl
    · rw [h1.ids, List.map_append]
      exact (h.index.append_right [p]).trans h1.live.symm
    · intro entry hentry
      replace hentry : entry ∈ m1.idHeapMap ++ [(getId (m1.nodes p).item, p)] := hentry
      rw [h1.ids] at hentry
      rcases List.mem_append.1 hentry with hentry | hentry
      · rw [(h1.old entry.2 (hold entry hentry)).1]
        exact h.keys entry hentry
      · obtain rfl := List.mem_singleton.1 hentry
        rfl
    · rw [h1.ids, h1.new.1, List.map_append]
      refine List.nodup_append.2 ⟨h.keys_nodup, List.nodup_singleton _, fun a ha b hb he => ?_⟩
      rw [List.map_singleton, List.mem_singleton] at hb
      rw [he, hb] at ha
      exact hnew ha
    · show (m1.idHeapMap ++ [(_, p)]).map _ = _
      rw [h1.ids, List.map_append]
      congr 1
      · refine List.map_congr_left fun entry hentry => ?_
        obtain ⟨h2, h3⟩ := h1.old entry.2 (hold entry hentry)
        rw [h2, h3]
      · show [((m1.nodes p).item, (m1.nodes p).schedTime)] = _
        rw [h1.new.1, h1.new.2]

omit [Inhabited T] in
theorem Inv.find_live (h : Inv getId m) (e : m.find itemId = some p) : p ∈ m.live := by
  obtain ⟨before, after, hmap, -⟩ := h.find_split e
  rw [← h.index.mem_iff, hmap]
  simp

omit [Inhabited T] [DecidableEq K] in
theorem HeapOk.live_place (h : HeapOk m) (hp : p ∈ m.live) :
    (m.nodes p).heapIdx < m.temporalHeapSz ∧ m.temporalHeap[(m.nodes p).heapIdx]? = some p := by
  obtain ⟨idx, hidx⟩ := List.mem_iff_getElem?.1 hp
  have hlt : idx < m.temporalHeapSz := by
    have := (List.getElem?_eq_some_iff.1 hidx).1
    rw [live, List.length_take] at this
    omega
  rw [live, List.getElem?_take_of_lt hlt] at hidx
  rw [h.heapIdx idx p hlt hidx]
  exact ⟨hlt, hidx⟩

def retimed (m : TemporalOrderedItemMap K T) (p : Nat) (time : Int) : TemporalOrderedItemMap K T :=
  m.setNode p { m.nodes p with schedTime := time }

omit [Inhabited T] [DecidableEq K] in
theorem HeapOk.retimed (h : HeapOk m) (p : Nat) (time : Int) : HeapOk (m.retimed p time) := by
  refine ⟨h.nodup, h.size_le, h.bound, fun k r hk hr => ?_⟩
  show (Function.update m.nodes p _ r).heapIdx = k
  by_cases hrp : r = p
  · subst hrp
    rw [Function.update_self]
    exact h.heapIdx k r hk hr
  · rw [Function.update_of_ne hrp]
    exact h.heapIdx k r hk hr

omit [Inhabited T] in
theorem update_ok (h : Inv getId m) (itemId : K) (time : Int) :
    (itemId ∉ m.ids ∧ m.update debug itemId time = .ok (m, .invalidDictionaryKey)) ∨
    (itemId ∈ m.ids ∧ ∃ m', m.update debug itemId time = .ok (m', .success) ∧ Inv getId m' ∧
      m'.entries = m.entries.map (fun x => if getId x.1 = itemId then (x.1, time) else x) ∧
      m'.capacity = m.capacity ∧ (m.Sorted → m'.Sorted)) := by
  unfold update
  cases hfind : m.find itemId with
  | none => exact .inl ⟨find_eq_none.1 hfind, rfl⟩
  | some p =>
    have hmem : itemId ∈ m.ids := by
      by_contra hnot
      rw [find_eq_none.2 hnot] at hfind
      cases hfind
    obtain ⟨before, after, hmap, -⟩ := h.find_split hfind
    have hplace := h.live_place (h.find_live hfind)
    obtain ⟨m1, e1, h1, hs1⟩ := correctHeapNodeAt_ok debug (h.retimed p time) hplace.1
    have hitem : ∀ q, (m1.nodes q).item = (m.nodes q).item := by
      intro q
      rw [h1.item]
      show (Function.update m.nodes p _ q).item = _
      by_cases hqp : q = p
      · rw [hqp, Function.update_self]
      · rw [Function.update_of_ne hqp]
    have htime : ∀ q, (m1.nodes q).schedTime = if q = p then time else (m.nodes q).schedTime := by
      intro q
      rw [h1.time]
      show (Function.update m.nodes p _ q).schedTime = _
      by_cases hqp : q = p
      · rw [hqp, Function.update_self, if_pos rfl]
      · rw [Function.update_of_ne hqp, if_neg hqp]
    have hids : m1.idHeapMap = m.idHeapMap := h1.ids
    refine .inr ⟨hmem, m1, ?_, ⟨h1.ok, ?_, ?_, ?_⟩, ?_, h1.cap, fun hs => hs1 ?_⟩
    · have hidx : ((m.retimed p time).nodes p).heapIdx = (m.nodes p).heapIdx := by
        simp [TemporalOrderedItemMap.retimed, setNode]
      show ((m.retimed p time).correctHeapNodeAt debug ((m.retimed p time).nodes p).heapIdx >>= _) = _
      rw [hidx, e1]
      rfl
    · rw [hids]
      exact h.index.trans h1.live.symm
    · rw [hids]
      intro entry hentry
      rw [hitem]
      exact h.keys entry hentry
    · rw [hids]
      exact h.keys_nodup
    · unfold entries
      rw [hids, List.map_map]
      refine List.map_congr_left fun entry hentry => ?_
      -- only the node of the id has another time
      have hkey : entry.2 = p ↔ entry.1 = itemId := by
        have hpair : (itemId, p) ∈ m.idHeapMap := by
          rw [hmap]
          simp
        constructor
        · intro he
          rw [← h.keys entry hentry, he]
          exact h.keys _ hpair
        · intro he
          have := List.inj_on_of_nodup_map h.keys_nodup hentry hpair he
          rw [this]
      rw [Function.comp_apply, hitem, htime, h.keys entry hentry]
      by_cases he : entry.1 = itemId
      · rw [if_pos (hkey.2 he), if_pos he]
      · rw [if_neg fun hp => he (hkey.1 hp), if_neg he]
    · refine (sorted_iff.1 hs).change preorder fun i hi => keyAt_congr Iff.rfl rfl fun q hq => ?_
      simp [TemporalOrderedItemMap.retimed, setNode, h.ne_of_ne hq hplace.2 hi]

theorem erase_ok (h : Inv getId m) (itemId : K) :
    ∃ m', m.erase debug itemId = .ok m' ∧ Inv getId m' ∧
      m'.entries = m.entries.filter (fun x => getId x.1 ≠ itemId) ∧
      m'.capacity = m.capacity ∧ (m.Sorted → m'.Sorted) := by
  unfold erase
  cases hfind : m.find itemId with
  | none =>
    refine ⟨m, rfl, h, ?_, rfl, id⟩
    refine (List.filter_eq_self.2 fun x hx => ?_).symm
    have hne : getId x.1 ≠ itemId := by
      rintro rfl
      refine find_eq_none.1 hfind ?_
      rw [← h.entries_ids]
      exact List.mem_map_of_mem hx
    simpa using hne
  | some p =>
    obtain ⟨hlt, hidx⟩ := h.live_place (h.find_live hfind)
    obtain ⟨m1, e1, h1, hs1⟩ := eraseHeapNodeAt_ok debug (h.eraseId_heapOk itemId) hlt hidx
    obtain ⟨hinv, hentries, -⟩ := h.drop hfind h1
    exact ⟨m1, e1, hinv, hentries, h1.cap, hs1⟩

theorem getExpiredItem_ok (h : Inv getId m) (timeBar : Int) :
    ∃ m' r, m.getExpiredItem debug getId timeBar = .ok (m', r) ∧ Inv getId m' ∧
      m'.capacity = m.capacity ∧ (m.Sorted → m'.Sorted) ∧
      ((r = none ∧ m' = m) ∨ ∃ item time, r = some item ∧ time < timeBar ∧
        m.entries.Perm ((item, time) :: m'.entries)) := by
  unfold getExpiredItem
  by_cases h0 : m.temporalHeapSz = 0
  · rw [if_pos h0]
    exact ⟨m, none, rfl, h, rfl, id, .inl ⟨rfl, rfl⟩⟩
  rw [if_neg h0]
  have hpos : 0 < m.temporalHeapSz := Nat.pos_of_ne_zero h0
  obtain ⟨p, hp, hslot⟩ := h.slot hpos
  rw [hslot, ok_bind]
  by_cases hbar : (m.nodes p).schedTime ≥ timeBar
  · rw [if_pos hbar]
    exact ⟨m, none, rfl, h, rfl, id, .inl ⟨rfl, rfl⟩⟩
  rw [if_neg hbar]
  have hfind : m.find (getId (m.nodes p).item) = some p := by
    have hlive : p ∈ m.live := by
      refine List.mem_iff_getElem?.2 ⟨0, ?_⟩
      rw [live, List.getElem?_take_of_lt hpos, hp]
    obtain ⟨entry, hentry, rfl⟩ := List.mem_map.1 (h.index.mem_iff.2 hlive)
    rw [h.keys entry hentry]
    obtain ⟨before, after, hmap⟩ := List.append_of_mem hentry
    refine List.lookup_eq_some_iff.2 ⟨before, after, hmap, fun x hx => ?_⟩
    have hnodup := h.keys_nodup
    rw [hmap, List.map_append, List.map_cons, List.nodup_middle, List.nodup_cons,
      ← List.map_append] at hnodup
    have hne : entry.1 ≠ x.1 := fun he =>
      hnodup.1 (he ▸ List.mem_map_of_mem (List.mem_append_left _ hx))
    simpa using hne
  obtain ⟨m1, e1, h1, hs1⟩ := eraseHeapNodeAt_ok debug (h.eraseId_heapOk (getId (m.nodes p).item)) hpos hp
  rw [← popHeapNode_eq] at e1
  obtain ⟨hinv, -, hperm⟩ := h.drop hfind h1
  refine ⟨m1, some (m.nodes p).item, ?_, hinv, h1.cap, hs1,
    .inr ⟨_, _, rfl, Int.not_le.1 hbar, hperm⟩⟩
  dsimp only
  rw [e1]
  rfl

omit [Inhabited T] [DecidableEq K] in
theorem mem_entries_time (h : Inv getId m) {time : Int} :
    (∃ item, (item, time) ∈ m.entries) ↔ ∃ i, i < m.temporalHeapSz ∧ m.timeAt i = time := by
  have hlive : ∀ p, p ∈ m.live ↔ ∃ i, i < m.temporalHeapSz ∧ m.temporalHeap[i]? = some p := by
    intro p
    constructor
    · intro hp
      obtain ⟨hlt, hi⟩ := h.live_place hp
      exact ⟨_, hlt, hi⟩
    · rintro ⟨i, hi, hp⟩
      refine List.mem_iff_getElem?.2 ⟨i, ?_⟩
      rw [live, List.getElem?_take_of_lt hi, hp]
  constructor
  · rintro ⟨item, hmem⟩
    obtain ⟨entry, hentry, he⟩ := List.mem_map.1 hmem
    obtain ⟨i, hi, hp⟩ := (hlive entry.2).1 (h.index.mem_iff.1 (List.mem_map_of_mem hentry))
    refine ⟨i, hi, ?_⟩
    rw [timeAt_eq hp]
    exact congrArg Prod.snd he
  · rintro ⟨i, hi, rfl⟩
    obtain ⟨p, hp, -⟩ := h.slot hi
    obtain ⟨entry, hentry, rfl⟩ := List.mem_map.1 (h.index.mem_iff.2 ((hlive p).2 ⟨i, hi, hp⟩))
    refine ⟨(m.nodes entry.2).item, List.mem_map.2 ⟨entry, hentry, ?_⟩⟩
    rw [timeAt_eq hp]

omit [Inhabited T] [DecidableEq K] in
/-- **has_expired_item** says whether an item has expired. -/
theorem hasExpiredItem_ok (h : Inv getId m) (hs : m.Sorted) (timeBar : Int) :
    ∃ b, m.hasExpiredItem timeBar = .ok b ∧ (b = true ↔ ∃ x ∈ m.entries, x.2 < timeBar) := by
  have hiff : (∃ x ∈ m.entries, x.2 < timeBar) ↔ ∃ i, i < m.temporalHeapSz ∧ m.timeAt i < timeBar := by
    constructor
    · rintro ⟨x, hx, hlt⟩
      obtain ⟨i, hi, ht⟩ := (mem_entries_time h).1 ⟨x.1, hx⟩
      exact ⟨i, hi, ht ▸ hlt⟩
    · rintro ⟨i, hi, hlt⟩
      obtain ⟨item, hmem⟩ := (mem_entries_time h).2 ⟨i, hi, rfl⟩
      exact ⟨_, hmem, hlt⟩
  unfold hasExpiredItem
  by_cases h0 : m.temporalHeapSz = 0
  · rw [if_pos h0]
    refine ⟨false, rfl, ?_⟩
    rw [hiff, h0]
    simp
  · have hpos := Nat.pos_of_ne_zero h0
    obtain ⟨p, hp, hslot⟩ := h.slot hpos
    rw [if_neg h0, hslot, ok_bind, ← timeAt_eq hp]
    refine ⟨_, rfl, ?_⟩
    rw [hiff, decide_eq_true_iff]
    exact ⟨fun hlt => ⟨0, hpos, hlt⟩, fun ⟨i, hi, hlt⟩ => (hs.root_le hi).trans_lt hlt⟩

omit [DecidableEq K] in
theorem make_sorted (cap : Nat) : Sorted (make cap : TemporalOrderedItemMap K T) :=
  fun i _ hi => absurd hi (Nat.not_lt_zero i)

end TemporalOrderedItemMap

end ExpiryQueue
