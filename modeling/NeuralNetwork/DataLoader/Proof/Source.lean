import NeuralNetwork.DataLoader.Proof.DelimitedStreamReader
import NeuralNetwork.DataLoader.Source

/-!
# What a call of a source delivers

`Reads` says how far a loader has come in its object. A call with a byte budget that is not zero goes on
by at least one byte and returns the tokens that end on the way, or is at the end, or throws and stays
where it is (`FileLoader.wp_get`, `S3Loader.wp_get`). If the environment gives no less than it is asked
for but for reads without a byte, and requests fail only for the connection (`Attempt.Tame`), then what
is thrown is retryable and the next call can go on (`Sound`).
-/

namespace DataLoader

open Cpp Command DelimitedStreamReader

/-! ## What the environment may do -/

namespace Attempt

def zero (a : Attempt) : Bool := a.granted = some 0

def faulty (a : Attempt) : Bool := a.zero || a.connect.isSome

/-- What goes wrong is retried. A file stream is not read again. -/
structure Tame (s3 : Bool) (a : Attempt) : Prop where
  granted : a.granted = none ∨ s3 = true ∧ a.granted = some 0
  connect : a.connect = none ∨ a.connect = some .networkConnection
  reconnect : a.reconnect = none
  canceled : a.canceled = false

end Attempt

/-! ## How far a source has come -/

section

variable (cfg : DelimitedStreamReaderConfig) (content : List Byte)

structure Delivered (off off' : Nat) (toks : List (List Byte)) : Prop where
  progress : off < off'
  tokens : tokens cfg (content.take off') = tokens cfg (content.take off) ++ toks

structure FileLoader.Reads (unit off : Nat) (l : FileLoader) : Prop where
  reader : l.delimStreamer = after cfg (content.take off)
  stream : l.fStream.content = content
  pos : l.fStream.pos = off
  unit : l.txUnitSz = unit
  le : off ≤ content.length
  expected : l.expectedSz = content.length
  total : l.totalReadBytes = off
  completed : l.wasCompleted = true → off = content.length

structure S3Loader.Reads (unit off : Nat) (l : S3Loader) : Prop where
  reader : l.delimStreamReader = after cfg (content.take off)
  object : l.object = content
  unit : l.txUnitSz = unit
  le : off ≤ content.length
  pointer : (l.objectOutcome = none ∧ l.bufPointer = none ∧ off = 0) ∨
    ∃ obj, l.objectOutcome = some obj ∧ obj.body.content = content ∧
      obj.contentLength = content.length ∧ l.bufPointer = some ⟨off, content.length⟩
  completed : l.wasCompleted = true → off = content.length

def Source.Reads (s3 : Bool) (unit off : Nat) : Source → Prop
  | .file l => s3 = false ∧ l.Reads cfg content unit off
  | .s3 l => s3 = true ∧ l.Reads cfg content unit off

end

structure FileLoader.Sound (l : FileLoader) : Prop where
  good : l.isBadState = false
  stream : l.fStream.failbit = true → l.fStream.pos = l.fStream.content.length

/-- The next read of the object can go on, after `z` reads without a byte. -/
structure S3Loader.Sound (z : Nat) (l : S3Loader) : Prop where
  good : l.isBadState = false
  stream : ∀ obj, l.objectOutcome = some obj → obj.body.failbit = false
  soft : l.softReadErrorSz ≤ z

def Source.Sound (z : Nat) : Source → Prop
  | .file l => l.Sound
  | .s3 l => l.Sound z

/-- What a call of `get` returned to a source that had come to `off`. -/
def Went (cfg : DelimitedStreamReaderConfig) (content : List Byte) (off : Nat)
    (rs : Option (List (List Byte))) (At : Nat → Prop) : Prop :=
  (rs = none ∧ off = content.length ∧ At off) ∨
    ∃ toks off', rs = some toks ∧ Delivered cfg content off off' toks ∧ At off'

theorem Went.mono {cfg : DelimitedStreamReaderConfig} {content : List Byte} {off : Nat}
    {rs : Option (List (List Byte))} {At At' : Nat → Prop} (h : Went cfg content off rs At)
    (hat : ∀ off, At off → At' off) : Went cfg content off rs At' := by
  rcases h with ⟨h1, h2, h3⟩ | ⟨toks, off', h1, h2, h3⟩
  · exact .inl ⟨h1, h2, hat off h3⟩
  · exact .inr ⟨toks, off', h1, h2, hat off' h3⟩

variable {cfg : DelimitedStreamReaderConfig} {content : List Byte} {unit off txHintSz z : Nat}
  {attempt : Attempt} {s3 : Bool}

theorem put_chunk (hmax : cfg.maxTokenSz = none) (content : List Byte) (off k : Nat) :
    ∃ rs, tokens cfg (content.take (off + k)) = tokens cfg (content.take off) ++ rs ∧
      (after cfg (content.take off)).put ((content.drop off).take k) =
        (after cfg (content.take (off + k)), .ok rs) := by
  obtain ⟨rs, htokens, hput, -⟩ := put_eq cfg (content.take off) ((content.drop off).take k)
  rw [← List.take_add] at htokens hput
  refine ⟨rs, htokens, hput fun n hn => ?_⟩
  cases hmax.symm.trans hn

/-! ## Streams -/

namespace IStream

variable {s : IStream} {granted : Option Nat} {buf : List Byte} {sz : Nat}

theorem extract_eq (s : IStream) (granted : Option Nat) (sz : Nat) :
    s.extract granted sz = (s.content.drop s.pos).take (s.extract granted sz).length ∧
      (s.extract granted sz).length ≤ sz := by
  unfold extract
  split
  · exact ⟨rfl, Nat.zero_le _⟩
  · cases granted with
    | none =>
      rw [List.length_take]
      refine ⟨?_, Nat.min_le_left _ _⟩
      rw [List.take_eq_take_iff]
      simp
    | some n =>
      dsimp only
      rw [List.take_take, List.length_take]
      refine ⟨?_, (Nat.min_le_left _ _).trans (Nat.min_le_right _ _)⟩
      rw [List.take_eq_take_iff]
      simp

variable {buf' : List Byte} {s' : IStream}

/-- **What a read gives** follows what was read before. -/
theorem read_spec (e : s.read granted buf = (buf', s')) :
    buf'.take s'.gcount = (s.content.drop s.pos).take s'.gcount ∧ s'.content = s.content ∧
      s'.pos = s.pos + s'.gcount ∧ s'.gcount ≤ (s.content.drop s.pos).length := by
  obtain ⟨he, -⟩ := extract_eq s granted buf.length
  cases e
  refine ⟨?_, rfl, rfl, ?_⟩
  · exact List.take_left.trans he
  · exact List.IsPrefix.length_le (he ▸ List.take_prefix _ _)

theorem read_zero (e : s.read (some 0) buf = (buf', s')) :
    s'.gcount = 0 := by
  cases e
  unfold extract
  split
  · rfl
  · dsimp only
    rw [List.take_zero]
    rfl

/-- A read that is granted gets what there is, and fails if that is not enough. -/
theorem read_granted (hf : s.failbit = false) (e : s.read none buf = (buf', s')) :
    s'.gcount = min buf.length (s.content.length - s.pos) ∧
      s'.failbit = decide (s'.gcount < buf.length) := by
  have hextract : s.extract none buf.length = (s.content.drop s.pos).take buf.length := by
    unfold extract
    rw [hf]
    rfl
  cases e
  rw [hf, Bool.false_or, hextract, List.length_take, List.length_drop]
  exact ⟨rfl, rfl⟩

theorem read_end (hs : s.failbit = true → s.pos = s.content.length) (hpos : s.pos ≤ s.content.length)
    (e : s.read none buf = (buf', s')) (hbuf : buf.length ≠ 0) :
    (s'.failbit = true → s'.pos = s'.content.length) ∧ (s'.gcount = 0 → s.pos = s.content.length) := by
  obtain ⟨-, hcontent, hpos', hlen⟩ := read_spec e
  rw [List.length_drop] at hlen
  cases hf : s.failbit with
  | true =>
    have hend := hs hf
    rw [hcontent, hpos']
    exact ⟨fun _ => by omega, fun _ => hend⟩
  | false =>
    obtain ⟨hg, hfail⟩ := read_granted hf e
    rw [hfail, decide_eq_true_iff, hcontent, hpos']
    omega

end IStream

/-! ## FileLoader -/

namespace FileLoader

variable {l : FileLoader}

theorem wp_get (hmax : cfg.maxTokenSz = none) (h : l.Reads cfg content unit off)
    (hbudget : sizeT (txHintSz * unit) ≠ 0) :
    wp (get attempt txHintSz)
      (fun rs l' => Went cfg content off rs (fun off' => l'.Reads cfg content unit off') ∧
        (attempt.Tame false → l.Sound → l'.Sound))
      (fun _ l' => l'.Reads cfg content unit off ∧ (attempt.Tame false → ¬ l.Sound)) l := by
  unfold get
  rw [wp_bind, wp_getState]
  by_cases hbad : l.isBadState = true
  · rw [if_pos hbad, wp_throw]
    exact ⟨h, fun _ hs => Bool.noConfusion (hs.good.symm.trans hbad)⟩
  rw [if_neg hbad]
  by_cases hdone : l.wasCompleted = true
  · rw [if_pos hdone, wp_pure]
    exact ⟨.inl ⟨rfl, h.completed hdone, h⟩, fun _ hs => hs⟩
  rw [if_neg hdone]
  have hmin : min (sizeT (txHintSz * l.txUnitSz)) MAX_READ_SZ ≠ 0 := by
    rw [h.unit]
    have : MAX_READ_SZ ≠ 0 := by decide
    omega
  rw [if_neg hmin]
  rcases hread : l.fStream.read attempt.granted
    (List.replicate (min (sizeT (txHintSz * l.txUnitSz)) MAX_READ_SZ) 32) with ⟨buf, fStream⟩
  dsimp only
  have hbytes := IStream.read_spec hread
  rw [h.stream, h.pos] at hbytes
  obtain ⟨hbuf, hcontent, hpos, hlen⟩ := hbytes
  have htame : attempt.Tame false → l.Sound →
      (fStream.failbit = true → fStream.pos = fStream.content.length) ∧
        (fStream.gcount = 0 → off = content.length) := by
    intro ht hs
    have hnone : attempt.granted = none := ht.granted.resolve_right fun hz => Bool.noConfusion hz.1
    rw [hnone] at hread
    have hend := IStream.read_end hs.stream (by rw [h.stream, h.pos]; exact h.le) hread
      (by rwa [List.length_replicate])
    rwa [h.stream, h.pos] at hend
  have hlen' : ((content.drop off).take fStream.gcount).length = fStream.gcount :=
    List.length_take_of_le hlen
  rw [hbuf, hlen']
  have hle : off + fStream.gcount ≤ content.length := by
    rw [List.length_drop] at hlen
    have := h.le
    omega
  by_cases hk : fStream.gcount = 0
  · have hread0 : FileLoader.Reads cfg content unit off
        { l with fStream, totalReadBytes := l.totalReadBytes + fStream.gcount } :=
      ⟨h.reader, hcontent, by rw [hpos, hk, Nat.add_zero], h.unit, h.le, h.expected,
        by rw [hk, Nat.add_zero]; exact h.total, h.completed⟩
    rw [if_pos hk]
    by_cases hsz : l.totalReadBytes + fStream.gcount ≠ l.expectedSz
    · rw [if_pos hsz, wp_bind, wp_setState, wp_throw]
      refine ⟨{ hread0 with }, fun ht hs => hsz ?_⟩
      rw [hk, Nat.add_zero, h.total, h.expected]
      exact (htame ht hs).2 hk
    · rw [if_neg hsz, wp_bind, wp_setState, wp_pure]
      rw [not_not, hk, Nat.add_zero, h.total, h.expected] at hsz
      exact ⟨.inl ⟨rfl, hsz, { hread0 with completed := fun _ => hsz }⟩,
        fun ht hs => ⟨hs.good, (htame ht hs).1⟩⟩
  · rw [if_neg hk]
    obtain ⟨rs, htokens, hput⟩ := put_chunk hmax content off fStream.gcount
    rw [h.reader, hput]
    rw [wp_bind, wp_setState, wp_pure]
    refine ⟨.inr ⟨rs, off + fStream.gcount, rfl, ⟨by omega, htokens⟩, ?_⟩,
      fun ht hs => ⟨hs.good, (htame ht hs).1⟩⟩
    refine ⟨rfl, hcontent, hpos, h.unit, hle, h.expected, ?_, fun hd => absurd hd hdone⟩
    exact congrArg (· + fStream.gcount) h.total

end FileLoader

/-! ## S3Loader -/

namespace S3Loader

variable {l : S3Loader} {Q : Unit → S3Loader → Prop} {E : LoaderError → S3Loader → Prop}
  {obj : GetObjectOutcome} {err : S3Errors}

structure Opened (cfg : DelimitedStreamReaderConfig) (content : List Byte) (unit off : Nat)
    (obj : GetObjectOutcome) (l : S3Loader) : Prop where
  reads : l.Reads cfg content unit off
  outcome : l.objectOutcome = some obj
  body : obj.body.content = content
  length : obj.contentLength = content.length
  pointer : l.bufPointer = some ⟨off, content.length⟩

variable {obj' : GetObjectOutcome} {buf : List Byte}

theorem Opened.setOutcome (h : l.Opened cfg content unit off obj) (hbody : obj'.body.content = content)
    (hlength : obj'.contentLength = content.length) :
    Opened cfg content unit off obj' { l with objectOutcome := some obj' } where
  reads := { h.reads with pointer := .inr ⟨obj', rfl, hbody, hlength, h.pointer⟩ }
  outcome := rfl
  body := hbody
  length := hlength
  pointer := h.pointer

def fresh (content : List Byte) : GetObjectOutcome := ⟨.ofContent content, content.length⟩

theorem Opened.fresh (h : l.Opened cfg content unit off obj) :
    Opened cfg content unit off (fresh content) { l with objectOutcome := some (fresh content) } :=
  h.setOutcome rfl rfl

theorem Sound.setOutcome (h : l.Sound z) (hfail : obj'.body.failbit = false) :
    Sound z { l with objectOutcome := some obj' } where
  good := h.good
  stream o ho := by
    cases ho
    exact hfail
  soft := h.soft

theorem wp_initialize_none (hobj : l.object = content)
    (hq : Q () { l with objectOutcome := some (fresh content) }) :
    wp (initializeObjectOutcome none) Q E l := by
  subst hobj
  exact hq

theorem wp_initialize_some (he : E (requestError err) l) :
    wp (initializeObjectOutcome (some err)) Q E l := he

theorem wp_getOutcome {Q : GetObjectOutcome → S3Loader → Prop} (hobj : l.objectOutcome = some obj)
    (hq : Q obj l) : wp getOutcome Q E l := by
  unfold getOutcome
  rw [wp_bind, wp_getState, hobj]
  exact hq

theorem wp_getOutcomeStreamContentLength {Q : Nat → S3Loader → Prop} (hobj : l.objectOutcome = some obj)
    (hq : Q obj.contentLength l) : wp getOutcomeStreamContentLength Q E l := by
  unfold getOutcomeStreamContentLength
  rw [wp_bind]
  exact wp_getOutcome hobj hq

theorem wp_setBody {body : IStream} (hq : Q () { l with objectOutcome := some { obj with body } }) :
    wp (setBody obj body) Q E l := hq

theorem wp_setBad {e : LoaderError} (he : E e { l with isBadState := true }) : wp (setBad e) Q E l := he

theorem wp_ensureOutcome {connect : Option S3Errors} (h : l.Reads cfg content unit off) :
    wp (ensureOutcome connect)
      (fun _ l' => (∃ obj, l'.Opened cfg content unit off obj) ∧ (l.Sound z → l'.Sound z))
      (fun e l' => l' = l ∧ ∃ err, connect = some err ∧ e = requestError err) l := by
  unfold ensureOutcome
  rw [wp_bind, wp_getState]
  rcases h.pointer with ⟨hnone, hpointer, hoff⟩ | ⟨obj, hobj, hbody, hlen, hpointer⟩
  · rw [if_pos (by rw [hnone]; rfl), wp_bind]
    cases connect with
    | some err => exact wp_initialize_some ⟨rfl, err, rfl, rfl⟩
    | none =>
      refine wp_initialize_none h.object ?_
      rw [wp_bind]
      refine wp_getOutcomeStreamContentLength rfl ?_
      rw [wp_bind, wp_getState, wp_setState]
      subst hoff
      refine ⟨⟨fresh content, { h with pointer := .inr ⟨fresh content, rfl, rfl, rfl, rfl⟩ }, rfl, rfl,
        rfl, rfl⟩, fun hs => { hs with stream := fun o ho => ?_ }⟩
      cases ho
      rfl
  · rw [if_neg (by rw [hobj]; exact Bool.false_ne_true), wp_pure]
    exact ⟨⟨obj, h, hobj, hbody, hlen, hpointer⟩, id⟩

theorem wp_readAt (h : l.Opened cfg content unit off obj) (hbuf : buf.length ≤ content.length - off) :
    wp (readAt attempt off buf)
      (fun r l' => (∃ obj', l'.Opened cfg content unit off obj') ∧
        r.1.take r.2 = (content.drop off).take r.2 ∧ r.2 ≤ content.length - off ∧
        (attempt.granted = some 0 → r.2 = 0) ∧ (l.Sound z → l'.isBadState = false ∧ l'.softReadErrorSz ≤ z ∧
          (attempt.granted = none → r.2 = buf.length ∧ l'.Sound z)))
      (fun _ l' => l'.Reads cfg content unit off ∧ ¬ l.Sound z) l := by
  unfold readAt
  rw [wp_tryCatch, wp_bind]
  unfold seekOutcomeStream
  rw [wp_bind]
  refine wp_getOutcome h.outcome ?_
  rw [wp_bind]
  refine wp_setBody ?_
  cases hf : obj.body.failbit with
  | true =>
    have hseek : obj.body.seekg off = obj.body := by
      unfold IStream.seekg
      rw [if_pos hf]
    rw [hseek, if_pos hf, wp_throw]
    have hno : ¬ l.Sound z := fun hs => Bool.noConfusion ((hs.stream obj h.outcome).symm.trans hf)
    rw [wp_bind]
    have h' : Opened cfg content unit off { obj with body := obj.body }
        { l with objectOutcome := some { obj with body := obj.body } } := h.setOutcome h.body h.length
    cases attempt.reconnect with
    | some err => exact wp_initialize_some ⟨h'.reads, hno⟩
    | none => exact wp_initialize_none h'.reads.object ⟨h'.fresh.reads, hno⟩
  | false =>
    have hseek : obj.body.seekg off = { obj.body with pos := off } := by
      unfold IStream.seekg
      rw [if_neg (by rw [hf]; exact Bool.false_ne_true)]
    rw [hseek, if_neg (by rw [show IStream.failbit _ = false from hf]; exact Bool.false_ne_true),
      wp_pure, wp_bind]
    unfold readOutcomeStream
    rw [wp_bind]
    refine wp_getOutcome rfl ?_
    rcases hread : IStream.read { obj.body with pos := off } attempt.granted buf with ⟨buf', body⟩
    obtain ⟨hbytes, hcontent, hpos, hlen⟩ := IStream.read_spec hread
    rw [h.body] at hbytes hcontent hlen
    rw [List.length_drop] at hlen
    rw [wp_bind]
    refine wp_setBody ?_
    rw [wp_pure, wp_bind]
    unfold gcountOutcomeStream
    rw [wp_bind]
    refine wp_getOutcome rfl ?_
    rw [wp_pure, wp_pure]
    refine ⟨⟨_, h.setOutcome hcontent h.length⟩, hbytes, hlen, fun hg => ?_,
      fun hs => ⟨hs.good, hs.soft, fun hg => ?_⟩⟩
    · rw [hg] at hread
      exact IStream.read_zero hread
    rw [hg] at hread
    obtain ⟨hcount, hfail⟩ := IStream.read_granted (s := { obj.body with pos := off }) hf hread
    rw [h.body] at hcount
    have hall : body.gcount = buf.length := hcount.trans (Nat.min_eq_left hbuf)
    refine ⟨hall, hs.setOutcome ?_⟩
    rw [hfail, hall]
    exact decide_eq_false (Nat.lt_irrefl _)

theorem wp_checkRead {k : Nat} (h : l.Opened cfg content unit off obj) (hk : k ≤ content.length - off) :
    wp (checkRead attempt (content.length - off) k) (fun _ l' => l' = l ∧ k ≠ 0)
      (fun e l' => l'.Reads cfg content unit off ∧ k = 0 ∧
        (l.isBadState = false → l.softReadErrorSz ≤ z → z < SOFT_READ_ERROR_THRESHOLD →
          attempt.reconnect = none → e = .softFileRead ∧ l'.Sound (z + 1))) l := by
  unfold checkRead
  rw [if_neg (Nat.not_lt.2 hk)]
  by_cases hk0 : k = 0
  · rw [if_pos hk0, wp_bind]
    unfold reviveObjectOutcomeAndThrowSizeInconsistency
    rw [wp_bind, wp_getState, h.pointer]
    rw [wp_bind]
    cases hre : attempt.reconnect with
    | some err => exact wp_initialize_some ⟨h.reads, hk0, fun _ _ _ hno => nomatch hno⟩
    | none =>
      refine wp_initialize_none h.reads.object ?_
      rw [wp_bind]
      refine wp_getOutcomeStreamContentLength rfl ?_
      rw [if_neg (not_not.2 (show (fresh content).contentLength = content.length from rfl)), wp_pure]
      have h' := h.fresh
      unfold punchOneSoftReadError
      rw [wp_bind, wp_getState]
      by_cases hsoft : l.softReadErrorSz = SOFT_READ_ERROR_THRESHOLD
      · rw [if_pos hsoft]
        refine wp_setBad ⟨{ h'.reads with }, hk0, fun _ hle hlt _ => ?_⟩
        omega
      · rw [if_neg hsoft, wp_bind, wp_setState, wp_throw]
        refine ⟨{ h'.reads with }, hk0, fun hgood hle _ _ => ?_⟩
        refine ⟨rfl, hgood, fun o ho => ?_, Nat.succ_le_succ hle⟩
        cases ho
        rfl
  · rw [if_neg hk0, wp_pure]
    exact ⟨rfl, hk0⟩

theorem wp_deliver (hmax : cfg.maxTokenSz = none) {k : Nat} (h : l.Opened cfg content unit off obj)
    (hbuf : buf.take k = (content.drop off).take k) (hk : k ≤ content.length - off) (hk0 : k ≠ 0) :
    wp (deliver ⟨off, content.length⟩ buf k)
      (fun rs l' => Went cfg content off rs (fun off' => l'.Reads cfg content unit off') ∧
        (l.Sound z → l'.Sound z)) (fun _ _ => False) l := by
  have hle := h.reads.le
  obtain ⟨rs, htokens, hput⟩ := put_chunk hmax content off k
  unfold deliver
  rw [wp_bind, wp_getState, hbuf, h.reads.reader, hput]
  rw [wp_bind, wp_setState, wp_pure]
  refine ⟨.inr ⟨rs, off + k, rfl, ⟨by omega, htokens⟩,
    ⟨rfl, h.reads.object, h.reads.unit, by omega, ?_, ?_⟩⟩, fun hs => ⟨hs.good, hs.stream, hs.soft⟩⟩
  · exact .inr ⟨obj, h.outcome, h.body, h.length, rfl⟩
  · exact fun hd => absurd (h.reads.completed hd) (by omega)

theorem wp_get (hmax : cfg.maxTokenSz = none) (h : l.Reads cfg content unit off)
    (hbudget : sizeT (txHintSz * unit) ≠ 0) :
    wp (get attempt txHintSz)
      (fun rs l' => Went cfg content off rs (fun off' => l'.Reads cfg content unit off') ∧
        (attempt.Tame true → l.Sound z → l'.Sound z))
      (fun e l' => l'.Reads cfg content unit off ∧
        (attempt.Tame true → l.Sound z → z + attempt.zero.toNat ≤ SOFT_READ_ERROR_THRESHOLD →
          e.isRetryable = true ∧ attempt.faulty = true ∧ l'.Sound (z + attempt.zero.toNat))) l := by
  unfold get
  rw [wp_bind, wp_getState]
  by_cases hbad : l.isBadState = true
  · rw [if_pos hbad, wp_throw]
    exact ⟨h, fun _ hs => Bool.noConfusion (hs.good.symm.trans hbad)⟩
  rw [if_neg hbad]
  by_cases hdone : l.wasCompleted = true
  · rw [if_pos hdone, wp_pure]
    exact ⟨.inl ⟨rfl, h.completed hdone, h⟩, fun _ hs => hs⟩
  rw [if_neg hdone]
  have hmin : min (sizeT (txHintSz * l.txUnitSz)) MAX_READ_SZ ≠ 0 := by
    rw [h.unit]
    have : MAX_READ_SZ ≠ 0 := by decide
    omega
  rw [if_neg hmin, wp_bind]
  generalize min (sizeT (txHintSz * l.txUnitSz)) MAX_READ_SZ = txByteSz at hmin
  refine (wp_ensureOutcome (z := z) h).mono ?_ ?_
  · rintro - l₁ ⟨⟨obj, h₁⟩, hs₁⟩
    rw [wp_bind, wp_getState, h₁.pointer]
    dsimp only
    by_cases hend : off = content.length
    · rw [if_pos hend, wp_bind, wp_setState, wp_pure]
      exact ⟨.inl ⟨rfl, hend, { h₁.reads with
        pointer := .inr ⟨obj, h₁.outcome, h₁.body, h₁.length, rfl⟩, completed := fun _ => hend }⟩,
        fun _ hs => { hs₁ hs with }⟩
    rw [if_neg hend, wp_bind]
    have hbuf : (List.replicate (min txByteSz (content.length - off)) (32 : Byte)).length ≤
        content.length - off := by
      rw [List.length_replicate]
      exact Nat.min_le_right _ _
    refine (wp_readAt (z := z) h₁ hbuf).mono ?_ ?_
    · rintro ⟨buf, k⟩ l₂ ⟨⟨obj₂, h₂⟩, hbytes, hk, hzero, hs₂⟩
      rw [wp_bind]
      refine (wp_checkRead (z := z) h₂ hk).mono ?_ ?_
      · rintro - _ ⟨rfl, hk0⟩
        refine (wp_deliver (z := z) hmax h₂ hbytes hk hk0).mono ?_ fun _ _ hno => hno.elim
        rintro rs l₃ ⟨hwent, hs₃⟩
        refine ⟨hwent, fun ht hs => hs₃ ?_⟩
        obtain ⟨-, -, hgranted⟩ := hs₂ (hs₁ hs)
        rcases ht.granted with hg | ⟨-, hg⟩
        · exact (hgranted hg).2
        · exact absurd (hzero hg) hk0
      · rintro e l₃ ⟨hreads, rfl, hsoft⟩
        refine ⟨hreads, fun ht hs hz => ?_⟩
        obtain ⟨hgood, hle, hgranted⟩ := hs₂ (hs₁ hs)
        rcases ht.granted with hg | ⟨-, hg⟩
        · have hnone := (hgranted hg).1
          rw [List.length_replicate] at hnone
          have := h₁.reads.le
          omega
        · have hzero : attempt.zero = true := decide_eq_true hg
          rw [hzero] at hz ⊢
          obtain ⟨rfl, hs₃⟩ := hsoft hgood hle hz ht.reconnect
          refine ⟨rfl, ?_, hs₃⟩
          unfold Attempt.faulty
          rw [hzero]
          rfl
    · rintro e l₂ ⟨hreads, hno⟩
      exact ⟨hreads, fun _ hs => absurd (hs₁ hs) hno⟩
  · rintro e _ ⟨rfl, err, herr, rfl⟩
    refine ⟨h, fun ht hs _ => ?_⟩
    have hconn : err = .networkConnection := by
      rcases ht.connect with hc | hc
      · cases hc.symm.trans herr
      · exact Option.some.inj (herr.symm.trans hc)
    subst hconn
    refine ⟨rfl, ?_, ⟨hs.good, hs.stream, hs.soft.trans (Nat.le_add_right _ _)⟩⟩
    unfold Attempt.faulty
    rw [herr]
    exact Bool.or_true _

end S3Loader

/-! ## Either -/

namespace Source

variable {s : Source} {Q : Option (List (List Byte)) → Source → Prop} {E : LoaderError → Source → Prop}

theorem wp_get_file {l : FileLoader} : wp (get attempt txHintSz) Q E (.file l) ↔
    wp (FileLoader.get attempt txHintSz) (fun rs l' => Q rs (.file l')) (fun e l' => E e (.file l')) l :=
  show wp ((FileLoader.get attempt txHintSz).zoom (fun _ => l) fun l _ => .file l) Q E (.file l) ↔ _ from
    wp_zoom

theorem wp_get_s3 {l : S3Loader} : wp (get attempt txHintSz) Q E (.s3 l) ↔
    wp (S3Loader.get attempt txHintSz) (fun rs l' => Q rs (.s3 l')) (fun e l' => E e (.s3 l')) l :=
  show wp ((S3Loader.get attempt txHintSz).zoom (fun _ => l) fun l _ => .s3 l) Q E (.s3 l) ↔ _ from
    wp_zoom

theorem wp_get (hmax : cfg.maxTokenSz = none) (h : s.Reads cfg content s3 unit off)
    (hbudget : sizeT (txHintSz * unit) ≠ 0) :
    wp (get attempt txHintSz)
      (fun rs s' => Went cfg content off rs (fun off' => s'.Reads cfg content s3 unit off') ∧
        (attempt.Tame s3 → s.Sound z → s'.Sound z))
      (fun e s' => s'.Reads cfg content s3 unit off ∧
        (attempt.Tame s3 → s.Sound z → z + attempt.zero.toNat ≤ S3Loader.SOFT_READ_ERROR_THRESHOLD →
          e.isRetryable = true ∧ attempt.faulty = true ∧ s'.Sound (z + attempt.zero.toNat))) s := by
  cases s with
  | file l =>
    obtain ⟨rfl, hl⟩ := h
    refine wp_get_file.2 ((FileLoader.wp_get hmax hl hbudget).mono ?_ ?_)
    · rintro rs l' ⟨hwent, hs⟩
      exact ⟨hwent.mono fun off' hoff => ⟨rfl, hoff⟩, hs⟩
    · rintro e l' ⟨hl', hs⟩
      exact ⟨⟨rfl, hl'⟩, fun ht hsound => absurd hsound (hs ht)⟩
  | s3 l =>
    obtain ⟨rfl, hl⟩ := h
    refine wp_get_s3.2 ((S3Loader.wp_get (z := z) hmax hl hbudget).mono ?_ ?_)
    · rintro rs l' ⟨hwent, hs⟩
      exact ⟨hwent.mono fun off' hoff => ⟨rfl, hoff⟩, hs⟩
    · rintro e l' ⟨hl', hs⟩
      exact ⟨⟨rfl, hl'⟩, hs⟩

def isOpen : Source → Bool
  | .file l => !l.isBadState && !l.wasCompleted
  | .s3 l => !l.isBadState && !l.wasCompleted

end Source

end DataLoader
