import NeuralNetwork.StlExtension.Proof.CyclicUnorderedNodeMap
import NeuralNetwork.InternalRest.FlashStream.BlackListGate

/-!
# What the blacklist gate answers

The set of the gate holds the sequence `held` of its blacklisting history (`run_ok`): an insertion
into a full set drops the oldest, a present identifier is not renewed. `thru` answers `SUCCESS`
exactly for the identifiers in it, so the intended answers (`Intended`) are given exactly where
`thru_intended_iff` says.
-/

namespace FlashStream

open Cpp Loop Stdx HashChain CyclicUnordered

/-! ## The history -/

section History

variable {K : Type} [DecidableEq K]

def fifoAdd (cap : Nat) (held : List K) (key : K) : List K :=
  if key ∈ evict cap held then evict cap held else evict cap held ++ [key]

/-- What a set bounded by `cap` holds after a history of insertions. -/
def held (cap : Nat) (history : List K) : List K := history.foldl (fifoAdd cap) []

def lastInsertions (n : Nat) (history : List K) : List K := history.drop (history.length - n)

theorem mem_fifoAdd {cap : Nat} {held : List K} {key k : K} (h : k ∈ fifoAdd cap held key) :
    k ∈ held ∨ k = key := by
  unfold fifoAdd at h
  split at h
  · exact .inl (mem_of_mem_evict h)
  · rcases List.mem_append.1 h with h | h
    · exact .inl (mem_of_mem_evict h)
    · exact .inr (List.mem_singleton.1 h)

theorem mem_foldl_fifoAdd {cap : Nat} {history start : List K} {k : K}
    (h : k ∈ history.foldl (fifoAdd cap) start) : k ∈ start ∨ k ∈ history := by
  induction history generalizing start with
  | nil => exact .inl h
  | cons key history ih =>
    rcases ih h with h | h
    · rcases mem_fifoAdd h with h | rfl
      · exact .inl h
      · exact .inr (by simp)
    · exact .inr (by simp [h])

theorem mem_of_mem_held {cap : Nat} {history : List K} {k : K} (h : k ∈ held cap history) :
    k ∈ history :=
  (mem_foldl_fifoAdd h).resolve_left (by simp)

end History

namespace HighPrecisionTemporalBlackListGate

def history : List Call → List GlobalIdentifier
  | [] => []
  | .thru _ :: calls => history calls
  | .blacklist ids :: calls => ids ++ history calls

def Consumable (debugMode : Bool) (maxConsumeSize : Nat) (calls : List Call) : Prop :=
  debugMode = true → ∀ ids, .blacklist ids ∈ calls → ids.length ≤ maxConsumeSize

def Intended (tentativeCap : Nat) (history : List GlobalIdentifier) (id : GlobalIdentifier)
    (answer : Exception) : Prop :=
  (id ∉ history → answer = .success) ∧
  (id ∈ lastInsertions tentativeCap history → answer = .socketStreamBlacklisted)

variable {hasher : GlobalIdentifier → Nat} {debugMode : Bool}
  {gate : HighPrecisionTemporalBlackListGate}

def ids (gate : HighPrecisionTemporalBlackListGate) : List GlobalIdentifier :=
  gate.blacklistSet.setContainer.entries.map Prod.fst

def cap (gate : HighPrecisionTemporalBlackListGate) : Nat :=
  gate.blacklistSet.setContainer.storageCap

def Ordered (hasher : GlobalIdentifier → Nat) (gate : HighPrecisionTemporalBlackListGate) : Prop :=
  gate.blacklistSet.setContainer.Inv (Keys.ofHash hasher)

theorem make_ok (hasher : GlobalIdentifier → Nat) {tentativeCap sz : Nat}
    (h : make tentativeCap sz = .ok gate) :
    gate.Ordered hasher ∧ gate.ids = [] ∧ gate.maxConsumeSize = sz := by
  obtain ⟨s, hs, h⟩ := bind_eq_ok h
  obtain ⟨c, hc, hs⟩ := bind_eq_ok hs
  obtain rfl := Except.ok.inj hs
  obtain rfl := Except.ok.inj h
  obtain ⟨hinv, hentries, -⟩ := CyclicUnorderedNodeMap.make_ok hc
  exact ⟨hinv, by simp [ids, hentries], rfl⟩

theorem blacklistLoop_ok (h : gate.Ordered hasher) (l : List GlobalIdentifier) :
    ∃ gate', gate.blacklistLoop (Keys.ofHash hasher) l =
        .ok (gate', List.replicate l.length .success) ∧ gate'.Ordered hasher ∧
      gate'.ids = l.foldl (fifoAdd gate.cap) gate.ids ∧ gate'.cap = gate.cap ∧
      gate'.maxConsumeSize = gate.maxConsumeSize := by
  induction l generalizing gate with
  | nil => exact ⟨gate, rfl, h, rfl, rfl, rfl⟩
  | cons id l ih =>
    obtain ⟨c, pos, e, hc, hentries, hcap, -⟩ :=
      CyclicUnorderedNodeMap.internalInsert_ok h ⟨id, (), nullVirtualAddr⟩ rfl
    have hc : Ordered hasher { gate with blacklistSet := ⟨c⟩ } := hc
    obtain ⟨gate', e', h', hids, hcap', hmax⟩ := ih hc
    refine ⟨gate', ?_, h', ?_, hcap'.trans hcap, hmax⟩
    · simp only [blacklistLoop, TemporalFiniteUnorderedSet.insert,
        CyclicUnorderedNodeMap.tryEmplace, e, ok_bind]
      have : (pure ⟨c⟩ : Except Fault (TemporalFiniteUnorderedSet GlobalIdentifier)) = .ok ⟨c⟩ := rfl
      rw [this, ok_bind, e', ok_bind]
      rfl
    · have h1 : ({ gate with blacklistSet := ⟨c⟩ } : HighPrecisionTemporalBlackListGate).ids =
          fifoAdd gate.cap gate.ids id := by
        unfold ids
        rw [hentries, map_fifoInsert]
        rfl
      rw [hids, List.foldl_cons, h1]
      show l.foldl (fifoAdd c.storageCap) _ = _
      rw [hcap]
      rfl

theorem thruOne_ok (h : gate.Ordered hasher) (id : GlobalIdentifier) :
    gate.thruOne (Keys.ofHash hasher) id =
      .ok (if id ∈ gate.ids then .success else .socketStreamBlacklisted) := by
  unfold thruOne TemporalFiniteUnorderedSet.notContains
  rw [CyclicUnorderedNodeMap.contains_ok h, ok_bind]
  by_cases hid : id ∈ gate.ids
  · rw [(holds_ofHash hasher _ id).2 hid, if_pos hid]
    rfl
  · rw [Bool.eq_false_iff.2 fun hh => hid ((holds_ofHash hasher _ id).1 hh), if_neg hid]
    rfl

theorem thru_ok (h : gate.Ordered hasher) (l : List GlobalIdentifier) :
    gate.thru (Keys.ofHash hasher) l =
      .ok (l.map fun id => if id ∈ gate.ids then .success else .socketStreamBlacklisted) := by
  unfold thru
  induction l with
  | nil => rfl
  | cons id l ih =>
    rw [List.mapM_cons, thruOne_ok h, ok_bind, ih, ok_bind]
    rfl

theorem run_ok (h : gate.Ordered hasher) {calls : List Call}
    (hsz : Consumable debugMode gate.maxConsumeSize calls) :
    ∃ gate', gate.run (Keys.ofHash hasher) debugMode calls = .ok gate' ∧ gate'.Ordered hasher ∧
      gate'.ids = (history calls).foldl (fifoAdd gate.cap) gate.ids := by
  induction calls generalizing gate with
  | nil => exact ⟨gate, rfl, h, rfl⟩
  | cons call calls ih =>
    cases call with
    | thru l =>
      obtain ⟨gate', e, h', hids⟩ := ih h fun hd l' hl' => hsz hd l' (by simp [hl'])
      exact ⟨gate', by rw [run, thru_ok h, ok_bind, e], h', hids⟩
    | blacklist l =>
      obtain ⟨gate1, e1, h1, hids1, hcap1, hmax1⟩ := blacklistLoop_ok h l
      obtain ⟨gate', e, h', hids⟩ := ih h1 fun hd l' hl' => hmax1 ▸ hsz hd l' (by simp [hl'])
      refine ⟨gate', ?_, h', ?_⟩
      · have hcheck := checkConsumeSize_ok fun hd => hsz hd l (by simp)
        rw [run, blacklist, hcheck, ok_bind, e1, ok_bind]
        exact e
      · rw [hids, hids1, hcap1, history, List.foldl_append]

/-- **The gate rejects what it should pass.** After every sequence of calls, `thru` gives an
identifier the intended answer if and only if it was blacklisted before and, in case it is among the
last `tentativeCap` insertions, the set has lost it. -/
theorem thru_intended_iff (hasher : GlobalIdentifier → Nat) (debugMode : Bool)
    (tentativeCap sz : Nat) (gate : HighPrecisionTemporalBlackListGate)
    (hmake : make tentativeCap sz = .ok gate) (calls : List Call)
    (hsz : Consumable debugMode sz calls) (batch : List GlobalIdentifier) :
    ∃ gate' answers, gate.run (Keys.ofHash hasher) debugMode calls = .ok gate' ∧
      gate'.thru (Keys.ofHash hasher) batch = .ok answers ∧ answers.length = batch.length ∧
      ∀ (i : Nat) (id : GlobalIdentifier) (answer : Exception),
        batch[i]? = some id → answers[i]? = some answer →
        (Intended tentativeCap (history calls) id answer ↔
          id ∈ history calls ∧ (id ∈ lastInsertions tentativeCap (history calls) →
            id ∉ held gate.cap (history calls))) := by
  obtain ⟨hinv, hempty, hmax⟩ := make_ok hasher hmake
  obtain ⟨gate', e, h', hids⟩ := run_ok hinv (hmax.symm ▸ hsz)
  refine ⟨gate', _, e, thru_ok h' batch, by simp, fun i id answer hid hanswer => ?_⟩
  rw [List.getElem?_map, hid] at hanswer
  obtain rfl := Option.some.inj hanswer
  have hheld : gate'.ids = held gate.cap (history calls) := by rw [hids, hempty, held]
  rw [hheld]
  unfold Intended
  by_cases hin : id ∈ held gate.cap (history calls)
  · have hmem := mem_of_mem_held hin
    simp [hin, hmem]
  · simp [hin]

def loopback : GlobalIdentifier := ⟨⟨.v4 ⟨#v[127, 0, 0, 1]⟩, 80⟩, 1, 2⟩

theorem thru_intended_iff_loopback : ∃ gate, make 4 16 = .ok gate ∧ ∃ gate' answers,
    gate.run (Keys.ofHash fun _ => 0) true [.blacklist [loopback]] = .ok gate' ∧
      gate'.thru (Keys.ofHash fun _ => 0) [loopback] = .ok answers ∧ answers.length = 1 ∧
      ∀ (i : Nat) (id : GlobalIdentifier) (answer : Exception),
        [loopback][i]? = some id → answers[i]? = some answer →
        (Intended 4 [loopback] id answer ↔
          id ∈ [loopback] ∧ (id ∈ lastInsertions 4 [loopback] → id ∉ held gate.cap [loopback])) :=
  ⟨_, rfl, thru_intended_iff (fun _ => 0) true 4 16 _ rfl [.blacklist [loopback]]
    (by simp [Consumable]) [loopback]⟩

/-- The answers are inverted: an identifier is rejected before and passed after its blacklisting. -/
theorem thru_inverted :
    (make 4 16).bind (fun gate => gate.thru (Keys.ofHash fun _ => 0) [loopback]) =
        .ok [.socketStreamBlacklisted] ∧
      (make 4 16).bind (fun gate => (gate.blacklist (Keys.ofHash fun _ => 0) true [loopback]).bind
        fun r => r.1.thru (Keys.ofHash fun _ => 0) [loopback]) = .ok [.success] := by
  decide +kernel

end HighPrecisionTemporalBlackListGate

end FlashStream
