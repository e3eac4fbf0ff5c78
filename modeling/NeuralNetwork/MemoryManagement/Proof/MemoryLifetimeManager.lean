import NeuralNetwork.AlgorithmExtension.Proof.ShortHeap
import NeuralNetwork.MemoryManagement.MemoryLifetimeManager

/-!
# When the lifetimes expire

`Tracks m t`: the manager `m` has the lifetimes `t`, each in one bucket. `extend_lifetime` keeps it whatever
the order of the heap is (`extendLifetime_ok`), but it raises the expiry of a bucket without moving it.
`get_expired_memory_vector` looks at the front only; it returns what has expired when no bucket that has
expired stands below one that has not (`ExpiredOnTop`, `getExpired_ok`), for the heap is then in order as
far as the time read can tell.
-/

namespace MultiplatformMemory

open Cpp Loop ShortHeap DaryTree DaryHeap

namespace MemoryLifetimeManager

variable {m m' : MemoryLifetimeManager} {t : Lifetimes} {bar now : Int} {fuel : Nat}

structure Tracks (m : MemoryLifetimeManager) (t : Lifetimes) : Prop where
  nodup : m.lifetimeBucketVec.Nodup
  mapped : ∀ a ∈ m.lifetimeBucketVec, m.reverseMap (m.bucket a).immutableReference = some a
  lookup : ∀ ref a, m.reverseMap ref = some a →
    a ∈ m.lifetimeBucketVec ∧ (m.bucket a).immutableReference = ref
  fresh : ∀ a ∈ m.lifetimeBucketVec, a < m.nextAddr
  kept : ∀ ref, t ref = (m.reverseMap ref).map m.expiryOf

def expiredAt (m : MemoryLifetimeManager) (now : Int) (i : Nat) : Bool :=
  match m.lifetimeBucketVec[i]? with
  | some addr => decide (m.expiryOf addr < now)
  | none => false

def ExpiredOnTop (m : MemoryLifetimeManager) (now : Int) : Prop :=
  ∀ i, i < m.lifetimeBucketVec.length → 0 < i → m.expiredAt now i = true →
    m.expiredAt now (parent DEFAULT_OUT_DEGREE_SZ i) = true

instance : Decidable (m.ExpiredOnTop now) :=
  inferInstanceAs (Decidable (∀ i, i < _ → 0 < i → _ = true → _ = true))

/-! ## The order that the time read can tell -/

def byExpired (m : MemoryLifetimeManager) (now : Int) (a b : Nat) : Prop :=
  m.expiryOf b < now → m.expiryOf a < now

theorem byExpired_preorder (m : MemoryLifetimeManager) (now : Int) : TotalPreorder (m.byExpired now) where
  trans hab hbc hc := hab (hbc hc)
  total a b := by
    by_cases ha : m.expiryOf a < now
    · exact .inl fun _ => ha
    · exact .inr fun h => absurd h ha

theorem byExpired_decides (m : MemoryLifetimeManager) (now : Int) :
    Decides m.cmpFunc (m.byExpired now) where
  of_true {a b} hab hb := by
    have : m.expiryOf a ≤ m.expiryOf b := of_decide_eq_true hab
    omega
  of_false {a b} hab ha := by
    have : ¬ m.expiryOf a ≤ m.expiryOf b := of_decide_eq_false hab
    omega

theorem ExpiredOnTop.isHeap (h : m.ExpiredOnTop now) :
    IsHeap (m.byExpired now) DEFAULT_OUT_DEGREE_SZ m.lifetimeBucketVec := by
  refine isHeap_iff.2 fun i a b h0 ha hb hexp => ?_
  have := h i (List.getElem?_eq_some_iff.1 hb).1 h0
  unfold expiredAt at this
  rw [ha, hb] at this
  exact of_decide_eq_true (this (decide_eq_true hexp))

/-! ## Calls -/

@[simp] theorem setBucket_vec (addr : Nat) (b : LifetimeBucket) :
    (m.setBucket addr b).lifetimeBucketVec = m.lifetimeBucketVec := rfl

/-- The manager after a bucket for a new reference was put in the heap. -/
def inserted (m : MemoryLifetimeManager) (ref : Nat) (expiry : Int) (vec : List Nat) :
    MemoryLifetimeManager :=
  { m.setBucket m.nextAddr { immutableReference := ref, expiry := expiry } with
    lifetimeBucketVec := vec
    reverseMap := fun r => if r = ref then some m.nextAddr else m.reverseMap r
    nextAddr := m.nextAddr + 1 }

theorem Tracks.inserted (h : Tracks m t) {ref : Nat} (hnew : m.reverseMap ref = none) (e : Int)
    {vec : List Nat} (hvec : vec.Perm (m.lifetimeBucketVec ++ [m.nextAddr])) :
    Tracks (m.inserted ref e vec) fun r => if r = ref then some e else t r := by
  have hmem : ∀ a, a ∈ vec ↔ a ∈ m.lifetimeBucketVec ∨ a = m.nextAddr := by
    intro a
    rw [hvec.mem_iff, List.mem_append, List.mem_singleton]
  have hself : (m.inserted ref e vec).bucket m.nextAddr = { immutableReference := ref, expiry := e } :=
    if_pos rfl
  have hother : ∀ a ∈ m.lifetimeBucketVec, (m.inserted ref e vec).bucket a = m.bucket a :=
    fun a ha => if_neg (h.fresh a ha).ne
  have hne : ∀ a ∈ m.lifetimeBucketVec, (m.bucket a).immutableReference ≠ ref := by
    intro a ha hr
    have := h.mapped a ha
    rw [hr, hnew] at this
    cases this
  refine ⟨?_, fun a ha => ?_, fun r a hr => ?_, fun a ha => ?_, fun r => ?_⟩
  · refine hvec.nodup_iff.2 (List.nodup_append.2 ⟨h.nodup, List.pairwise_singleton _ _, ?_⟩)
    rintro a ha b hb rfl
    rw [List.mem_singleton] at hb
    exact absurd hb (h.fresh a ha).ne
  · show (if _ = ref then _ else _) = _
    rcases (hmem a).1 ha with ha | rfl
    · rw [hother a ha, if_neg (hne a ha), h.mapped a ha]
    · rw [hself, if_pos rfl]
  · replace hr : (if r = ref then _ else _) = _ := hr
    split at hr
    · next he =>
      cases hr
      exact ⟨(hmem _).2 (.inr rfl), by rw [hself, he]⟩
    · obtain ⟨ha, href⟩ := h.lookup r a hr
      exact ⟨(hmem a).2 (.inl ha), by rw [hother a ha, href]⟩
  · rcases (hmem a).1 ha with ha | rfl
    · exact Nat.lt_succ_of_lt (h.fresh a ha)
    · exact Nat.lt_succ_self _
  · show _ = (if r = ref then some m.nextAddr else m.reverseMap r).map fun a =>
      ((m.inserted ref e vec).bucket a).expiry
    by_cases hr : r = ref
    · rw [if_pos hr, if_pos hr, Option.map_some, hself]
    · rw [if_neg hr, if_neg hr, h.kept]
      cases hb : m.reverseMap r with
      | none => rfl
      | some b => rw [Option.map_some, Option.map_some, hother b (h.lookup r b hb).1, expiryOf]

theorem Tracks.setBucket (h : Tracks m t) {ref a : Nat} (ha : m.reverseMap ref = some a) (e : Int) :
    Tracks (m.setBucket a { m.bucket a with expiry := e }) fun r => if r = ref then some e else t r := by
  have href : ∀ b, ((m.setBucket a { m.bucket a with expiry := e }).bucket b).immutableReference =
      (m.bucket b).immutableReference := by
    intro b
    unfold MemoryLifetimeManager.setBucket
    dsimp only
    split
    · next hb => rw [hb]
    · rfl
  refine ⟨h.nodup, fun b hb => ?_, fun r b hr => ?_, h.fresh, fun r => ?_⟩
  · rw [href]
    exact h.mapped b hb
  · rw [href]
    exact h.lookup r b hr
  · unfold MemoryLifetimeManager.setBucket expiryOf
    by_cases hr : r = ref
    · rw [if_pos hr, hr, ha]
      show some e = some (LifetimeBucket.expiry (if a = a then _ else _))
      rw [if_pos rfl]
    · rw [if_neg hr, h.kept]
      cases hb : m.reverseMap r with
      | none => rfl
      | some b =>
        have hne : b ≠ a := by
          rintro rfl
          exact hr ((h.lookup r b hb).2.symm.trans (h.lookup ref b ha).2)
        show some (m.expiryOf b) = some (LifetimeBucket.expiry (if b = a then _ else _))
        rw [if_neg hne]
        rfl

theorem extendLifetime_ok (h : Tracks m t) (ref lifetime : Nat) (now : Int) :
    ∃ m', m.extendLifetime ref lifetime now = .ok m' ∧ Tracks m' (t.extend ref (now + lifetime)) := by
  unfold extendLifetime
  dsimp only
  cases hk : m.reverseMap ref with
  | some a =>
    have hext : t.extend ref (now + lifetime) = fun r => if r = ref then
        some (max (now + (lifetime : Int)) (m.expiryOf a)) else t r := by
      funext r
      unfold Lifetimes.extend
      rw [h.kept ref, hk]
      rfl
    rw [hext]
    exact ⟨_, rfl, h.setBucket hk _⟩
  | none =>
    -- the order does not matter here
    have hcmp : Decides (m.setBucket m.nextAddr
        { immutableReference := ref, expiry := now + lifetime }).cmpFunc fun _ _ => True :=
      ⟨fun _ => True.intro, fun _ => True.intro⟩
    have hany : IsHeap (fun _ _ => True) DEFAULT_OUT_DEGREE_SZ m.lifetimeBucketVec :=
      isHeap_iff.2 fun _ _ _ _ _ _ => True.intro
    obtain ⟨vec, e, hperm, -⟩ := pushHeap_ok ⟨fun _ _ => True.intro, fun _ _ => .inl True.intro⟩ hcmp hany
      m.nextAddr
    have hins := (h.inserted hk (now + lifetime) hperm).setBucket (if_pos rfl)
      (max (now + (lifetime : Int)) ((m.inserted ref (now + lifetime) vec).expiryOf m.nextAddr))
    have hself : (m.inserted ref (now + lifetime) vec).expiryOf m.nextAddr = now + lifetime := by
      unfold expiryOf inserted MemoryLifetimeManager.setBucket
      dsimp only
      rw [if_pos rfl]
    have hext : t.extend ref (now + lifetime) = fun r => if r = ref then
        some (max (now + (lifetime : Int)) ((m.inserted ref (now + lifetime) vec).expiryOf m.nextAddr))
        else if r = ref then some (now + (lifetime : Int)) else t r := by
      funext r
      unfold Lifetimes.extend
      rw [h.kept ref, hk, hself, max_self]
      by_cases hr : r = ref
      · rw [if_pos hr, if_pos hr]
        rfl
      · rw [if_neg hr, if_neg hr, if_neg hr]
    rw [hext]
    refine ⟨_, ?_, hins⟩
    rw [setBucket_vec, e]
    rfl

theorem Tracks.expired_iff (h : Tracks m t) {ref : Nat} : t.Expired bar ref ↔
    ∃ a ∈ m.lifetimeBucketVec, (m.bucket a).immutableReference = ref ∧ m.expiryOf a < bar := by
  constructor
  · rintro ⟨e, he, hlt⟩
    rw [h.kept] at he
    obtain ⟨a, ha, rfl⟩ := Option.map_eq_some_iff.1 he
    exact ⟨a, (h.lookup ref a ha).1, (h.lookup ref a ha).2, hlt⟩
  · rintro ⟨a, ha, rfl, hlt⟩
    exact ⟨m.expiryOf a, by rw [h.kept, h.mapped a ha]; rfl, hlt⟩

def taken (m : MemoryLifetimeManager) (front : Nat) (vec : List Nat) : MemoryLifetimeManager :=
  { m with
    lifetimeBucketVec := vec
    reverseMap := fun ref =>
      if ref = (m.bucket front).immutableReference then none else m.reverseMap ref }

theorem Tracks.taken (h : Tracks m t) {front : Nat} {rest vec : List Nat}
    (hvec : m.lifetimeBucketVec = front :: rest) (hperm : vec.Perm rest) :
    Tracks (m.taken front vec) fun ref =>
      if ref = (m.bucket front).immutableReference then none else t ref := by
  have hnodup := h.nodup
  rw [hvec, List.nodup_cons] at hnodup
  have hfront : front ∈ m.lifetimeBucketVec := hvec ▸ List.mem_cons_self
  have hsub : ∀ a ∈ vec, a ∈ m.lifetimeBucketVec ∧
      (m.bucket a).immutableReference ≠ (m.bucket front).immutableReference := by
    intro a ha
    have hrest := hperm.mem_iff.1 ha
    have hmem : a ∈ m.lifetimeBucketVec := hvec ▸ List.mem_cons_of_mem _ hrest
    refine ⟨hmem, fun hr => ?_⟩
    have := h.mapped a hmem
    rw [hr, h.mapped front hfront] at this
    cases this
    exact hnodup.1 hrest
  refine ⟨hperm.nodup_iff.2 hnodup.2, fun a ha => ?_, fun r a hr => ?_, fun a ha => ?_, fun r => ?_⟩
  · show (if (m.bucket a).immutableReference = _ then _ else _) = _
    rw [if_neg (hsub a ha).2]
    exact h.mapped a (hsub a ha).1
  · replace hr : (if r = _ then _ else _) = _ := hr
    split at hr
    · cases hr
    · next hne =>
      obtain ⟨ha, rfl⟩ := h.lookup r a hr
      rw [hvec] at ha
      rcases List.mem_cons.1 ha with rfl | ha
      · exact absurd rfl hne
      · exact ⟨hperm.mem_iff.2 ha, rfl⟩
  · exact h.fresh a (hsub a ha).1
  · show _ = (if r = _ then _ else _ : Option Nat).map m.expiryOf
    by_cases hr : r = (m.bucket front).immutableReference
    · rw [if_pos hr, if_pos hr]
      rfl
    · rw [if_neg hr, if_neg hr, h.kept]

/-- What is returned from the front on, when the heap is in order as far as the time read can tell. -/
theorem expire_ok (h : Tracks m t)
    (ho : IsHeap (m.byExpired bar) DEFAULT_OUT_DEGREE_SZ m.lifetimeBucketVec)
    (hfuel : m.lifetimeBucketVec.length < fuel) (result : List Nat) :
    ∃ m' out t', expire bar fuel m result = .ok (m', result ++ out) ∧ Tracks m' t' ∧
      Lifetimes.Step t (.getExpiredMemoryVector bar, out) t' := by
  induction fuel generalizing m t result with
  | zero => omega
  | succ fuel ih =>
    -- nothing has expired
    have hstop : (∀ a ∈ m.lifetimeBucketVec, ¬ m.expiryOf a < bar) →
        Lifetimes.Step t (.getExpiredMemoryVector bar, []) t := by
      intro hn
      have hnone : ∀ ref, ¬ t.Expired bar ref := by
        intro ref hexp
        obtain ⟨a, ha, -, hlt⟩ := h.expired_iff.1 hexp
        exact hn a ha hlt
      exact ⟨List.nodup_nil, fun ref => ⟨fun hm => absurd hm List.not_mem_nil,
        fun hexp => absurd hexp (hnone ref)⟩,
        fun ref => ⟨fun hexp => absurd hexp (hnone ref), fun _ => rfl⟩⟩
    unfold expire
    cases hvec : m.lifetimeBucketVec with
    | nil =>
      refine ⟨m, [], t, by rw [List.append_nil], h, hstop fun a ha => ?_⟩
      rw [hvec] at ha
      cases ha
    | cons front rest =>
      dsimp only
      rw [hvec] at ho
      by_cases hge : m.expiryOf front ≥ bar
      · rw [if_pos hge]
        refine ⟨m, [], t, by rw [List.append_nil], h, hstop fun a ha hlt => ?_⟩
        rw [hvec] at ha
        rcases List.mem_cons.1 ha with rfl | ha
        · omega
        · have := ho.root (m.byExpired_preorder bar) a ha hlt
          omega
      · rw [if_neg hge]
        obtain ⟨vec, e, hperm, ho1⟩ := popHeap_ok (by decide) (m.byExpired_preorder bar)
          (m.byExpired_decides bar) ho
        have h1 := h.taken hvec hperm
        have hlen : vec.length < fuel := by
          rw [hvec, List.length_cons] at hfuel
          rw [hperm.length_eq]
          omega
        obtain ⟨m', out, t', e', h', hnodup, hout, hkeep⟩ :=
          ih (m := m.taken front vec) h1 ho1 hlen (result ++ [(m.bucket front).immutableReference])
        have hfront : front ∈ m.lifetimeBucketVec := hvec ▸ List.mem_cons_self
        have hexp : t.Expired bar (m.bucket front).immutableReference :=
          h.expired_iff.2 ⟨front, hfront, rfl, Int.not_le.1 hge⟩
        -- the other references that have expired
        have hother : ∀ ref, Lifetimes.Expired (fun ref =>
            if ref = (m.bucket front).immutableReference then none else t ref) bar ref ↔
            ref ≠ (m.bucket front).immutableReference ∧ t.Expired bar ref := by
          intro ref
          unfold Lifetimes.Expired
          by_cases hr : ref = (m.bucket front).immutableReference
          · simp [hr]
          · simp [hr]
        refine ⟨m', (m.bucket front).immutableReference :: out, t', ?_, h', ?_, fun ref => ?_,
          fun ref => ⟨fun hx => ?_, fun hx => ?_⟩⟩
        · rw [e, ok_bind, List.getLast?_concat, List.dropLast_concat, List.append_cons]
          exact e'
        · refine List.nodup_cons.2 ⟨fun hm => ?_, hnodup⟩
          exact ((hother _).1 ((hout _).1 hm)).1 rfl
        · rw [List.mem_cons, hout, hother]
          by_cases hr : ref = (m.bucket front).immutableReference
          · simp [hr, hexp]
          · simp [hr]
        · by_cases hr : ref = (m.bucket front).immutableReference
          · exact ((hkeep ref).2 fun hx => ((hother ref).1 hx).1 hr).trans (if_pos hr)
          · exact (hkeep ref).1 ((hother ref).2 ⟨hr, hx⟩)
        · have hr : ref ≠ (m.bucket front).immutableReference := fun hr => hx (hr ▸ hexp)
          exact ((hkeep ref).2 fun hx' => hx ((hother ref).1 hx').2).trans (if_neg hr)

/-- **What has expired is returned and removed**, when it stands on top. -/
theorem getExpired_ok (h : Tracks m t) (ho : m.ExpiredOnTop bar) :
    ∃ m' out t', m.getExpiredMemoryVector bar = .ok (m', out) ∧ Tracks m' t' ∧
      Lifetimes.Step t (.getExpiredMemoryVector bar, out) t' :=
  expire_ok h ho.isHeap (Nat.lt_succ_self _) []

/-! ## Runs -/

def Ready (m : MemoryLifetimeManager) : LifetimeCall → Prop
  | .extendLifetime _ _ _ => True
  | .getExpiredMemoryVector now => m.ExpiredOnTop now

instance (m : MemoryLifetimeManager) : (call : LifetimeCall) → Decidable (m.Ready call)
  | .extendLifetime _ _ _ => .isTrue True.intro
  | .getExpiredMemoryVector now => inferInstanceAs (Decidable (m.ExpiredOnTop now))

theorem apply_ok (h : Tracks m t) {call : LifetimeCall} (hr : m.Ready call) :
    ∃ m' out t', m.apply call = .ok (m', out) ∧ Tracks m' t' ∧ Lifetimes.Step t (call, out) t' := by
  cases call with
  | extendLifetime ref lifetime now =>
    obtain ⟨m', e, h'⟩ := extendLifetime_ok h ref lifetime now
    exact ⟨m', [], _, by rw [apply, e]; rfl, h', rfl, rfl⟩
  | getExpiredMemoryVector now => exact getExpired_ok h hr

theorem empty_tracks : Tracks empty fun _ => none where
  nodup := List.nodup_nil
  mapped a ha := by cases ha
  lookup ref a ha := by cases ha
  fresh a ha := by cases ha
  kept _ := rfl

/-- **The lifetimes expire exactly** in a run in which, whenever what has expired is asked for, it stands
on top of the heap: what the calls return is what calls on the lifetimes return, and no call fails. -/
theorem expires_exactly {calls : List (LifetimeCall × List Nat)}
    (hrun : Run.Reach (· = empty)
      (fun m call m' => m.apply call.1 = .ok (m', call.2) ∧ m.Ready call.1) m calls) :
    ∃ t : Lifetimes, Run.Reach (· = fun _ => none) Lifetimes.Step t calls ∧
      (∀ ref, t ref = (m.reverseMap ref).map m.expiryOf) ∧
      ∀ call, m.Ready call → ∃ m' out, m.apply call = .ok (m', out) := by
  have hinv : ∃ t : Lifetimes, Run.Reach (· = fun _ => none) Lifetimes.Step t calls ∧ Tracks m t := by
    induction hrun with
    | init h0 =>
      subst h0
      exact ⟨_, .init rfl, empty_tracks⟩
    | step _ hstep ih =>
      obtain ⟨t, ht, h⟩ := ih
      obtain ⟨m', out, t', e, h', hs⟩ := apply_ok h hstep.2
      have := hstep.1
      rw [e] at this
      cases this
      exact ⟨t', .step ht hs, h'⟩
  obtain ⟨t, ht, h⟩ := hinv
  refine ⟨t, ht, h.kept, fun call hr => ?_⟩
  obtain ⟨m', out, -, e, -⟩ := apply_ok h hr
  exact ⟨m', out, e⟩

/-- One call, if it is ready and returns what it should. -/
def next (m : MemoryLifetimeManager) (call : LifetimeCall × List Nat) : Option MemoryLifetimeManager :=
  if m.Ready call.1 then
    match m.apply call.1 with
    | .ok (m', out) => if out = call.2 then some m' else none
    | .error _ => none
  else none

theorem next_ok {call : LifetimeCall × List Nat} (e : m.next call = some m') :
    m.apply call.1 = .ok (m', call.2) ∧ m.Ready call.1 := by
  unfold next at e
  split at e
  · next hr =>
    split at e
    · next m1 out he =>
      split at e
      · next ho =>
        cases e
        exact ⟨ho ▸ he, hr⟩
      · cases e
    · cases e
  · cases e

theorem expires_exactly_run : ∃ t : Lifetimes,
    Run.Reach (· = fun _ => none) Lifetimes.Step t
      [(.extendLifetime 1 1 0, []), (.extendLifetime 2 2 0, []), (.extendLifetime 2 3 1, []),
        (.getExpiredMemoryVector 3, [1])] ∧ t 1 = none ∧ t 2 = some 4 := by
  have hinit : Run.Reach (· = empty) (fun m (call : LifetimeCall × List Nat) m' =>
      m.apply call.1 = .ok (m', call.2) ∧ m.Ready call.1) empty [] := .init rfl
  have hrun := hinit.foldlM next_ok (show List.foldlM _ empty
    [(.extendLifetime 1 1 0, []), (.extendLifetime 2 2 0, []), (.extendLifetime 2 3 1, []),
      (.getExpiredMemoryVector 3, [1])] = some _ from rfl)
  obtain ⟨t, ht, hkept, -⟩ := expires_exactly hrun
  exact ⟨t, ht, (hkept 1).trans rfl, (hkept 2).trans rfl⟩

/-- A reference at the front whose lifetime was extended keeps back another one that has expired. -/
theorem expired_kept_back : ∃ m m' : MemoryLifetimeManager,
    Run.Reach (· = empty) (fun m (call : LifetimeCall × List Nat) m' => m.apply call.1 = .ok (m', call.2)) m
      [(.extendLifetime 1 1 0, []), (.extendLifetime 2 2 0, []), (.extendLifetime 1 10 0, [])] ∧
    m.apply (.getExpiredMemoryVector 5) = .ok (m', []) ∧ (m.reverseMap 2).map m.expiryOf = some 2 := by
  have hinit : Run.Reach (· = empty) (fun m (call : LifetimeCall × List Nat) m' =>
      m.apply call.1 = .ok (m', call.2)) empty [] := .init rfl
  have hrun := hinit.foldlM (fun e => (next_ok e).1) (show List.foldlM _ empty
    [(.extendLifetime 1 1 0, []), (.extendLifetime 2 2 0, []), (.extendLifetime 1 10 0, [])] = some _
    from rfl)
  exact ⟨_, _, hrun, rfl, rfl⟩

end MemoryLifetimeManager
end MultiplatformMemory
