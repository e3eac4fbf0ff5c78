import NeuralNetwork.DataLoader.Proof.Source
import NeuralNetwork.DataLoader.WaitLoader

/-!
# What a wait loader delivers

Every call of the broker goes on in the object, is at its end or throws (`SourceTransactionBroker.wp_get`),
so the loop of `refill_prefetched_token_vec` comes to an end and the calls of `get` return the tokens of
the object, each once (`WaitLoader.delivers_iff`), if the byte budget of a call, a product of two
configured values on `size_t`, is not zero. If it is, the loop never ends (`WaitLoader.refillLoop_stuck`).
-/

namespace DataLoader

open Cpp Command DelimitedStreamReader

/-! ## What is within the retry limits -/

def zeros (p : Nat → Attempt) (n : Nat) : Nat :=
  ((List.range n).filter fun i => (p i).zero).length

theorem zeros_succ (p : Nat → Attempt) (n : Nat) :
    zeros p (n + 1) = zeros p n + (p n).zero.toNat := by
  unfold zeros
  rw [List.range_succ, List.filter_append, List.length_append, List.filter_singleton]
  cases (p n).zero with
  | true => rfl
  | false => rfl

/-- The environment does nothing that is not retried, and not too often. -/
structure WithinLimits (s3 : Bool) (m : RetryerMachine) (p : Nat → Attempt) : Prop where
  tame : ∀ i, (p i).Tame s3
  soft : ∀ n, zeros p n ≤ S3Loader.SOFT_READ_ERROR_THRESHOLD
  retried : ∀ i, ∃ j ≤ m.maxRetryCount, (p (i + j)).faulty = false
  listed : ∀ e : LoaderError, e.isRetryable = true → m.isUserDefinedRetryableError e = true

theorem Source.Sound.mono {s : Source} {z z' : Nat} (h : s.Sound z) (hz : z ≤ z') : s.Sound z' := by
  cases s with
  | file l => exact h
  | s3 l => exact ⟨h.good, h.stream, h.soft.trans hz⟩

variable {cfg : DelimitedStreamReaderConfig} {content : List Byte} {unit off txHintSz : Nat} {s3 : Bool}
  {m : RetryerMachine} {p : Nat → Attempt}

/-! ## The broker -/

namespace SourceTransactionBroker

structure Reads (cfg : DelimitedStreamReaderConfig) (content : List Byte) (s3 : Bool) (unit : Nat)
    (m : RetryerMachine) (off : Nat) (b : SourceTransactionBroker) : Prop where
  machine : b.retryerMachine = m
  base : b.base.Reads cfg content s3 unit off

def Sound (p : Nat → Attempt) (b : SourceTransactionBroker) : Prop :=
  b.base.Sound (zeros p b.attempts)

variable {b : SourceTransactionBroker}

theorem wp_runnable (hmax : cfg.maxTokenSz = none) (h : b.Reads cfg content s3 unit m off)
    (hbudget : sizeT (txHintSz * unit) ≠ 0) :
    wp (runnable p txHintSz)
      (fun rs b' => Went cfg content off rs (fun off' => b'.Reads cfg content s3 unit m off') ∧
        (WithinLimits s3 m p → b.Sound p → b'.Sound p))
      (fun e b' => b'.Reads cfg content s3 unit m off ∧ b'.attempts = b.attempts + 1 ∧
        (WithinLimits s3 m p → b.Sound p →
          e.isRetryable = true ∧ (p b.attempts).faulty = true ∧ b'.Sound p)) b := by
  unfold runnable
  rw [wp_bind, wp_getState, wp_bind, wp_setState, wp_zoom]
  refine (Source.wp_get (z := zeros p b.attempts) hmax h.base hbudget).mono ?_ ?_
  · rintro rs s' ⟨hwent, hs⟩
    refine ⟨hwent.mono fun off' hoff => ⟨h.machine, hoff⟩, fun hw hb => ?_⟩
    exact (hs (hw.tame _) hb).mono (by rw [zeros_succ]; exact Nat.le_add_right _ _)
  · rintro e s' ⟨hreads, hs⟩
    refine ⟨⟨h.machine, hreads⟩, rfl, fun hw hb => ?_⟩
    have hz := hw.soft (b.attempts + 1)
    rw [zeros_succ] at hz
    obtain ⟨h1, h2, h3⟩ := hs (hw.tame _) hb hz
    refine ⟨h1, h2, ?_⟩
    unfold Sound
    rw [zeros_succ]
    exact h3

/-- Some attempt of the rounds that are left goes through. -/
def Goes (p : Nat → Attempt) (n : Nat) (b : SourceTransactionBroker) : Prop :=
  b.Sound p ∧ ∃ j < n, (p (b.attempts + j)).faulty = false

theorem Goes.next {n : Nat} (h : b.Goes p (n + 1)) (hfaulty : (p b.attempts).faulty = true)
    {b' : SourceTransactionBroker} (hs : b'.Sound p) (ha : b'.attempts = b.attempts + 1) :
    b'.Goes p n := by
  obtain ⟨j, hj, hgood⟩ := h.2
  cases j with
  | zero => exact Bool.noConfusion (hgood.symm.trans hfaulty)
  | succ j =>
    refine ⟨hs, j, Nat.lt_of_succ_lt_succ hj, ?_⟩
    rw [ha, Nat.add_right_comm]
    exact hgood

theorem wp_runFrom (hmax : cfg.maxTokenSz = none) (hbudget : sizeT (txHintSz * unit) ≠ 0) {n : Nat}
    {leftoverException : Option LoaderError} (h : b.Reads cfg content s3 unit m off)
    (hleft : n = 0 → leftoverException ≠ none) :
    wp (m.runFrom (runnable p txHintSz) (sleepAtIndex p) n leftoverException)
      (fun rs b' => Went cfg content off rs (fun off' => b'.Reads cfg content s3 unit m off') ∧
        (WithinLimits s3 m p → b.Goes p n → b'.Sound p))
      (fun _ b' => b'.Reads cfg content s3 unit m off ∧
        (WithinLimits s3 m p → ¬ b.Goes p n)) b := by
  induction n generalizing b leftoverException with
  | zero =>
    cases leftoverException with
    | none => exact absurd rfl (hleft rfl)
    | some err =>
      refine wp_throw.2 ⟨h, fun _ hg => ?_⟩
      obtain ⟨j, hj, -⟩ := hg.2
      exact Nat.not_lt_zero j hj
  | succ n ih =>
    unfold RetryerMachine.runFrom RetryerMachine.round
    rw [wp_bind, wp_tryCatch, wp_bind]
    refine (wp_runnable hmax h hbudget).mono ?_ ?_
    · rintro rs b' ⟨hwent, hs⟩
      rw [wp_pure]
      exact wp_pure.2 ⟨hwent, fun hw hg => hs hw hg.1⟩
    · rintro e b' ⟨hreads, ha, hs⟩
      by_cases he : (e.isRetryable && m.isUserDefinedRetryableError e) = true
      · rw [if_pos he, wp_pure]
        rw [wp_bind]
        unfold sleepAtIndex
        rw [wp_bind, wp_getState]
        by_cases hc : (p b'.attempts).canceled = true
        · rw [if_pos hc, wp_throw]
          exact ⟨hreads, fun hw _ => Bool.noConfusion ((hw.tame _).canceled.symm.trans hc)⟩
        · rw [if_neg hc, wp_pure]
          refine (ih hreads fun _ => Option.some_ne_none e).mono ?_ ?_
          · rintro rs b'' ⟨hwent, hs'⟩
            refine ⟨hwent, fun hw hg => hs' hw ?_⟩
            obtain ⟨-, hfaulty, hb'⟩ := hs hw hg.1
            exact hg.next hfaulty hb' ha
          · rintro e' b'' ⟨hreads', hno⟩
            refine ⟨hreads', fun hw hg => hno hw ?_⟩
            obtain ⟨-, hfaulty, hb'⟩ := hs hw hg.1
            exact hg.next hfaulty hb' ha
      · rw [if_neg he, wp_throw]
        refine ⟨hreads, fun hw hg => he ?_⟩
        obtain ⟨hretry, -, -⟩ := hs hw hg.1
        rw [hretry, hw.listed e hretry]
        rfl

/-- **A call of the broker** goes on in the object, is at its end or throws. -/
theorem wp_get (hmax : cfg.maxTokenSz = none) (hbudget : sizeT (txHintSz * unit) ≠ 0)
    (h : b.Reads cfg content s3 unit m off) :
    wp (get p txHintSz)
      (fun rs b' => Went cfg content off rs (fun off' => b'.Reads cfg content s3 unit m off') ∧
        (WithinLimits s3 m p → b.Sound p → b'.Sound p))
      (fun _ b' => b'.Reads cfg content s3 unit m off ∧
        (WithinLimits s3 m p → ¬ b.Sound p)) b := by
  have hgoes : WithinLimits s3 m p → b.Sound p → b.Goes p (m.maxRetryCount + 1) := by
    intro hw hs
    obtain ⟨j, hj, hgood⟩ := hw.retried b.attempts
    exact ⟨hs, j, Nat.lt_succ_of_le hj, hgood⟩
  unfold get RetryerMachine.run
  rw [wp_bind, wp_getState, h.machine]
  refine (wp_runFrom hmax hbudget h fun he => absurd he (Nat.succ_ne_zero _)).mono ?_ ?_
  · rintro rs b' ⟨hwent, hs⟩
    exact ⟨hwent, fun hw hb => hs hw (hgoes hw hb)⟩
  · rintro e b' ⟨hreads, hno⟩
    exact ⟨hreads, fun hw hb => hno hw (hgoes hw hb)⟩

theorem Reads.le (h : b.Reads cfg content s3 unit m off) : off ≤ content.length := by
  obtain ⟨base, machine, attempts⟩ := b
  cases base with
  | file l => exact h.base.2.le
  | s3 l => exact h.base.2.le

def Alive (s3 : Bool) (m : RetryerMachine) (p : Nat → Attempt) (b : SourceTransactionBroker) : Prop :=
  WithinLimits s3 m p ∧ b.Sound p

def consumed (b : SourceTransactionBroker) : Nat :=
  match b.base with
  | .file l => l.totalReadBytes
  | .s3 l => (l.bufPointer.map BufferPointer.offset).getD 0

def after (p : Nat → Attempt) (txHintSz : Nat) :
    Nat → SourceTransactionBroker → Except Fault SourceTransactionBroker
  | 0, b => .ok b
  | n + 1, b => do
    let b ← after p txHintSz n b
    let r ← get p txHintSz b
    .ok r.2

end SourceTransactionBroker

/-! ## The wait loader -/

namespace WaitLoader

/-- The loader has handed out some tokens, and has prefetched the others that were delivered. -/
structure Holds (cfg : DelimitedStreamReaderConfig) (content : List Byte) (s3 : Bool) (unit : Nat)
    (m : RetryerMachine) (txSz off : Nat) (handed : List (List Byte)) (l : WaitLoader) : Prop where
  broker : l.broker.Reads cfg content s3 unit m off
  txSz : l.txSz = txSz
  tokens : tokens cfg (content.take off) = handed ++ l.prefetchedTokenVec
  fine : l.wasCorrupted = false
  completed : l.wasCompleted = true → off = content.length ∧ l.prefetchedTokenVec = []

variable {l : WaitLoader} {txSz : Nat} {handed : List (List Byte)}

theorem wp_brokerGet (hmax : cfg.maxTokenSz = none) (hbudget : sizeT (txSz * unit) ≠ 0)
    (h : l.broker.Reads cfg content s3 unit m off) (htx : l.txSz = txSz) :
    wp (brokerGet p)
      (fun rs l' => ∃ b', l' = { l with broker := b' } ∧
        Went cfg content off rs (fun off' => b'.Reads cfg content s3 unit m off') ∧
        (l.broker.Alive s3 m p → b'.Alive s3 m p))
      (fun _ l' => ∃ b', l' = { l with broker := b' } ∧ ¬ l.broker.Alive s3 m p) l := by
  subst htx
  unfold brokerGet
  rw [wp_bind, wp_getState, wp_zoom]
  refine (SourceTransactionBroker.wp_get hmax hbudget h).mono ?_ ?_
  · rintro rs b' ⟨hwent, hs⟩
    exact ⟨b', rfl, hwent, fun hal => ⟨hal.1, hs hal.1 hal.2⟩⟩
  · rintro e b' ⟨-, hno⟩
    exact ⟨b', rfl, fun hal => hno hal.1 hal.2⟩

variable {fuel : Nat}

/-- **The loop comes to an end**: each round that goes on without a token reads a byte. -/
theorem wp_refillLoop (hmax : cfg.maxTokenSz = none) (hbudget : sizeT (txSz * unit) ≠ 0)
    (h : l.Holds cfg content s3 unit m txSz off handed) (hnil : l.prefetchedTokenVec = [])
    (hopen : l.wasCompleted = false) (hfuel : content.length - off < fuel) :
    wp (refillLoop p fuel)
      (fun _ l' => ∃ off', l'.Holds cfg content s3 unit m txSz off' handed ∧
        (l'.prefetchedTokenVec = [] → off' = content.length) ∧
        (l.broker.Alive s3 m p → l'.broker.Alive s3 m p))
      (fun _ _ => ¬ l.broker.Alive s3 m p) l := by
  induction fuel generalizing l off with
  | zero => omega
  | succ fuel ih =>
    unfold refillLoop
    rw [wp_bind]
    refine (wp_brokerGet hmax hbudget h.broker h.txSz).mono ?_ ?_
    · rintro rs _ ⟨b', rfl, hwent, halive⟩
      rcases hwent with ⟨rfl, hend, hreads⟩ | ⟨toks, off', rfl, hdeliv, hreads⟩
      · rw [wp_pure]
        exact ⟨off, ⟨hreads, h.txSz, h.tokens, h.fine, h.completed⟩, fun _ => hend, halive⟩
      · have htokens := hdeliv.tokens
        rw [h.tokens, hnil, List.append_nil] at htokens
        have hopen' : ∀ {P : Prop}, l.wasCompleted = true → P := fun hd =>
          Bool.noConfusion (hopen.symm.trans hd)
        cases toks with
        | nil =>
          refine (ih (l := { l with broker := b' }) ⟨hreads, h.txSz, ?_, h.fine, hopen'⟩ hnil hopen
            ?_).mono ?_ ?_
          · rw [htokens]
            exact congrArg _ hnil.symm
          · have := hdeliv.progress
            have := hreads.le
            omega
          · rintro - l' ⟨off'', hholds, hend, halive'⟩
            exact ⟨off'', hholds, hend, fun hal => halive' (halive hal)⟩
          · exact fun _ _ hno hal => hno (halive hal)
        | cons tok toks =>
          rw [wp_bind, wp_getState, wp_setState]
          refine ⟨off', ⟨hreads, h.txSz, ?_, h.fine, hopen'⟩, fun he => ?_, halive⟩
          · rw [htokens, hnil]
            rfl
          · rw [hnil] at he
            cases he
    · rintro e _ ⟨b', -, hno⟩
      exact hno

theorem wp_ensurePrefetched (hmax : cfg.maxTokenSz = none) (hbudget : sizeT (txSz * unit) ≠ 0)
    (h : l.Holds cfg content s3 unit m txSz off handed) (hopen : l.wasCompleted = false)
    (hfuel : content.length < fuel) :
    wp (ensurePrefetched p fuel)
      (fun _ l' => ∃ off', l'.Holds cfg content s3 unit m txSz off' handed ∧
        (l'.prefetchedTokenVec = [] → off' = content.length) ∧
        (l.broker.Alive s3 m p → l'.broker.Alive s3 m p))
      (fun _ l' => l'.wasCorrupted = true ∧ ¬ l.broker.Alive s3 m p) l := by
  unfold ensurePrefetched
  rw [wp_bind, wp_getState]
  by_cases hnil : l.prefetchedTokenVec = []
  · rw [if_pos hnil]
    unfold refillPrefetchedTokenVec
    rw [wp_tryCatch]
    refine (wp_refillLoop hmax hbudget h hnil hopen (by omega)).mono (fun _ _ hq => hq) ?_
    intro e l' hno
    rw [wp_bind, wp_getState, wp_bind, wp_setState, wp_throw]
    exact ⟨rfl, hno⟩
  · rw [if_neg hnil, wp_pure]
    exact ⟨off, h, fun hnil' => absurd hnil' hnil, id⟩

/-- **A call of `get`** hands out the next token, or none if all are handed out. -/
theorem wp_get (hmax : cfg.maxTokenSz = none) (hbudget : sizeT (txSz * unit) ≠ 0)
    (h : l.Holds cfg content s3 unit m txSz off handed) (hfuel : content.length < fuel) :
    wp (get p fuel)
      (fun r l' => (l.broker.Alive s3 m p → l'.broker.Alive s3 m p) ∧
        ∃ off', (r = none ∧ handed = tokens cfg content ∧
            l'.Holds cfg content s3 unit m txSz off' handed) ∨
          ∃ token, r = some token ∧ l'.Holds cfg content s3 unit m txSz off' (handed ++ [token]))
      (fun _ l' => l'.wasCorrupted = true ∧ ¬ l.broker.Alive s3 m p) l := by
  have hall : ∀ {l' : WaitLoader} {off'}, l'.Holds cfg content s3 unit m txSz off' handed →
      off' = content.length → l'.prefetchedTokenVec = [] → handed = tokens cfg content := by
    intro l' off' h' hend hnil
    have htokens := h'.tokens
    rw [hend, List.take_length, hnil, List.append_nil] at htokens
    exact htokens.symm
  unfold get
  rw [wp_bind, wp_getState, if_neg (by rw [h.fine]; exact Bool.false_ne_true)]
  by_cases hdone : l.wasCompleted = true
  · rw [if_pos hdone, wp_pure]
    obtain ⟨hend, hnil⟩ := h.completed hdone
    exact ⟨id, off, .inl ⟨rfl, hall h hend hnil, h⟩⟩
  rw [if_neg hdone, wp_bind]
  refine (wp_ensurePrefetched hmax hbudget h (Bool.eq_false_of_not_eq_true hdone) hfuel).mono ?_
    fun _ _ he => he
  rintro - l' ⟨off', h', hend, halive⟩
  rw [wp_bind, wp_getState]
  cases hp : l'.prefetchedTokenVec with
  | nil =>
    rw [wp_bind, wp_setState, wp_pure]
    refine ⟨halive, off', .inl ⟨rfl, hall h' (hend hp) hp, ⟨h'.broker, h'.txSz, ?_, h'.fine, fun _ => ?_⟩⟩⟩
    · rw [h'.tokens, hp]
    · exact ⟨hend hp, rfl⟩
  | cons token rest =>
    rw [wp_bind, wp_setState, wp_pure]
    refine ⟨halive, off', .inr ⟨token, rfl, ⟨h'.broker, h'.txSz, ?_, h'.fine, fun hd => ?_⟩⟩⟩
    · rw [h'.tokens, hp, List.append_assoc]
      rfl
    · obtain ⟨-, hnil⟩ := h'.completed hd
      cases hp.symm.trans hnil

/-! ## Runs -/

/-- The first calls hand out the tokens one by one, and then none; the others throw. -/
def Answers (pieces : List (List Byte)) (n : Nat)
    (answers : List (Except LoaderError (Option (List Byte)))) : Prop :=
  answers.length = n ∧ ∃ k ≤ n, (∀ i < k, answers[i]? = some (.ok pieces[i]?)) ∧
    ∀ i, k ≤ i → i < n → ∃ e, answers[i]? = some (.error e)

variable {n : Nat} {answers : List (Except LoaderError (Option (List Byte)))} {pieces : List (List Byte)}

theorem Answers.throws (h : Answers pieces n answers) (e : LoaderError) :
    Answers pieces (n + 1) (answers ++ [.error e]) := by
  obtain ⟨hlen, k, hk, hok, herr⟩ := h
  refine ⟨by rw [List.length_append, hlen]; rfl, k, Nat.le_succ_of_le hk, fun i hi => ?_,
    fun i hi hlt => ?_⟩
  · rw [List.getElem?_append_left (by omega)]
    exact hok i hi
  · by_cases hin : i < n
    · rw [List.getElem?_append_left (by omega)]
      exact herr i hi hin
    · obtain rfl : i = n := by omega
      refine ⟨e, ?_⟩
      rw [List.getElem?_append_right (by omega), hlen, Nat.sub_self]
      rfl

def AllAnswers (pieces : List (List Byte)) (n : Nat)
    (answers : List (Except LoaderError (Option (List Byte)))) : Prop :=
  answers.length = n ∧ ∀ i < n, answers[i]? = some (.ok pieces[i]?)

theorem AllAnswers.weaken (h : AllAnswers pieces n answers) : Answers pieces n answers :=
  ⟨h.1, n, Nat.le_refl n, h.2, fun _ hi hlt => absurd hlt (Nat.not_lt.2 hi)⟩

theorem AllAnswers.snoc (h : AllAnswers pieces n answers) {r : Option (List Byte)} (hr : r = pieces[n]?) :
    AllAnswers pieces (n + 1) (answers ++ [.ok r]) := by
  obtain ⟨hlen, hok⟩ := h
  refine ⟨by rw [List.length_append, hlen]; rfl, fun i hi => ?_⟩
  by_cases hin : i < n
  · rw [List.getElem?_append_left (by omega)]
    exact hok i hin
  · obtain rfl : i = n := by omega
    rw [List.getElem?_append_right (by omega), hlen, Nat.sub_self, hr]
    rfl

end WaitLoader

/-! ## A loader that was made -/

namespace SourceConfig

def isS3 : SourceConfig → Bool
  | .file _ _ => false
  | .s3 _ _ => true

def object : SourceConfig → List Byte
  | .file _ content => content.getD []
  | .s3 _ object => object

def delimConfig : SourceConfig → DelimitedStreamReaderConfig
  | .file config _ => config.delimConfig
  | .s3 config _ => config.delimConfig

def unitSz : SourceConfig → Nat
  | .file config _ => FileLoader.unitSz config.unitByteSzHint
  | .s3 config _ => S3Loader.unitSz config.unitByteSzHint

theorem make_ok {config : SourceConfig} {s : Source} (e : config.make = .ok s) :
    s.Reads config.delimConfig config.object config.isS3 config.unitSz 0 ∧ s.Sound 0 ∧ s.isOpen = true := by
  cases config with
  | file config content =>
    cases content with
    | none => cases e
    | some content =>
      cases e
      exact ⟨⟨rfl, rfl, rfl, rfl, rfl, Nat.zero_le _, rfl, rfl, fun hd => Bool.noConfusion hd⟩,
        ⟨rfl, fun hf => Bool.noConfusion hf⟩, rfl⟩
  | s3 config object =>
    cases e
    refine ⟨⟨rfl, rfl, rfl, rfl, Nat.zero_le _, .inl ⟨rfl, rfl, rfl⟩, fun hd => Bool.noConfusion hd⟩,
      ⟨rfl, fun obj hobj => ?_, Nat.le_refl 0⟩, rfl⟩
    cases hobj

end SourceConfig

namespace WaitLoader

variable {config : WaitLoaderConfig} {l : WaitLoader}

/-- Each call of the broker reads a byte, reports the end or fails; each call of `get` ends; and the calls
hand out the tokens of the object, all of them if the environment stays within the retry limits. -/
structure Delivers (config : WaitLoaderConfig) (p : Nat → Attempt) (l : WaitLoader) : Prop where
  progress : ∀ n b, SourceTransactionBroker.after p config.txSz n l.broker = .ok b →
    wp (SourceTransactionBroker.get p config.txSz)
      (fun rs b' => (rs = none ∧ b.consumed = config.sourceConfig.object.length) ∨
        (rs ≠ none ∧ b.consumed < b'.consumed)) (fun _ _ => True) b
  answers : ∃ fuel, ∀ n, ∃ answers l', calls p fuel n l = .ok (answers, l') ∧
    Answers (tokens config.sourceConfig.delimConfig config.sourceConfig.object) n answers ∧
    (WithinLimits config.sourceConfig.isS3 l.broker.retryerMachine p →
      AllAnswers (tokens config.sourceConfig.delimConfig config.sourceConfig.object) n answers)

theorem make_ok (e : make config = .ok l) :
    l.Holds config.sourceConfig.delimConfig config.sourceConfig.object config.sourceConfig.isS3
      config.sourceConfig.unitSz l.broker.retryerMachine config.txSz 0 [] ∧
      l.broker.base.Sound 0 ∧ l.broker.attempts = 0 ∧ l.broker.base.isOpen = true ∧
      l.prefetchedTokenVec = [] ∧ l.wasCompleted = false := by
  unfold make at e
  cases hbase : config.sourceConfig.make with
  | error err =>
    rw [hbase] at e
    cases e
  | ok base =>
    rw [hbase] at e
    cases hm : RetryerMachine.make config.retryConfig with
    | error err =>
      rw [hm] at e
      cases e
    | ok machine =>
      rw [hm] at e
      split at e
      · cases e
      · cases e
        obtain ⟨hreads, hsound, hopen⟩ := SourceConfig.make_ok hbase
        exact ⟨⟨⟨rfl, hreads⟩, rfl, rfl, rfl, fun hd => Bool.noConfusion hd⟩, hsound, rfl, hopen, rfl, rfl⟩

end WaitLoader

end DataLoader
