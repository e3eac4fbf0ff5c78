import NeuralNetwork.DataLoader.DelimitedStreamReader
import NeuralNetwork.Lib.Pieces

/-!
# What a delimited stream is cut into

A call of `put` returns the tokens that its chunk ends and keeps the unfinished one (`put_eq`); it throws
when that one is too long, and looks at no other. So a run returns the tokens of the stream up to the
first chunk that leaves an unfinished token too long (`run_spec`), and whether a token that is too long
is caught depends on how the stream is cut (`chunking_independent`).
-/

namespace DataLoader

open Cpp Pieces

namespace DelimitedStreamReader

variable {cfg : DelimitedStreamReaderConfig} {r : DelimitedStreamReader} {chunk stream : List Byte}
  {chunks chunks₁ chunks₂ : List (List Byte)}

def isDelim (cfg : DelimitedStreamReaderConfig) (c : Byte) : Bool := c = cfg.delimChar ∨ c = cfg.eorChar

def Fits (cfg : DelimitedStreamReaderConfig) (token : List Byte) : Prop :=
  ∀ maxTokenSz, cfg.maxTokenSz = some maxTokenSz → token.length ≤ maxTokenSz

def tokens (cfg : DelimitedStreamReaderConfig) (stream : List Byte) : List (List Byte) :=
  ended (isDelim cfg) stream

def tail (cfg : DelimitedStreamReaderConfig) (stream : List Byte) : List Byte :=
  unfinished (isDelim cfg) stream

def after (cfg : DelimitedStreamReaderConfig) (stream : List Byte) : DelimitedStreamReader :=
  { make cfg with stream := tail cfg stream }

theorem Fits.mono {t t' : List Byte} (h : Fits cfg t') (hle : t <+: t') : Fits cfg t :=
  fun n hn => hle.length_le.trans (h n hn)

theorem fits_nil : Fits cfg [] := fun _ _ => Nat.zero_le _

def Overlong (cfg : DelimitedStreamReaderConfig) (stream : List Byte) : Prop :=
  ∃ t ∈ stream.splitOnP (isDelim cfg), ¬ Fits cfg t

theorem overlong_iff : Overlong cfg stream ↔
    (∃ t ∈ tokens cfg stream, ¬ Fits cfg t) ∨ ¬ Fits cfg (tail cfg stream) := by
  unfold Overlong
  rw [splitOnP_eq]
  constructor
  · rintro ⟨t, ht, hfit⟩
    rcases List.mem_append.1 ht with ht | ht
    · exact .inl ⟨t, ht, hfit⟩
    · obtain rfl := List.mem_singleton.1 ht
      exact .inr hfit
  · rintro (⟨t, ht, hfit⟩ | hfit)
    · exact ⟨t, List.mem_append_left _ ht, hfit⟩
    · exact ⟨_, List.mem_append_right _ (List.mem_singleton.2 rfl), hfit⟩

theorem Overlong.of_tail {s : List Byte} (h : ¬ Fits cfg (tail cfg s)) (t : List Byte) :
    Overlong cfg (s ++ t) := by
  obtain ⟨q, hq, hpre⟩ := exists_piece (isDelim cfg) s t
  exact ⟨q, hq, fun hfit => h (hfit.mono hpre)⟩

/-! ## One chunk -/

structure Scanned (cfg : DelimitedStreamReaderConfig) (before chunk : List Byte) (n : Nat) (s : Scan) :
    Prop where
  first_le : s.first ≤ n
  tokens : tokens cfg (before ++ chunk.take n) = tokens cfg before ++ s.rs
  tail : tail cfg (before ++ chunk.take n) = s.reader.stream ++ (chunk.take n).drop s.first
  reader : s.reader = { make cfg with stream := s.reader.stream }

variable {before : List Byte}

theorem Scanned.next {n : Nat} {s : Scan} (h : Scanned cfg before chunk n s)
    (hn : n < chunk.length) : Scanned cfg before chunk (n + 1) (s.next chunk n) := by
  have hc : chunk[n]? = some chunk[n] := List.getElem?_eq_getElem hn
  have hlen : (chunk.take n).length = n := List.length_take_of_le hn.le
  have htake : chunk.take (n + 1) = chunk.take n ++ [chunk[n]] := by
    rw [List.take_add_one, hc]
    rfl
  obtain ⟨first, rs, reader⟩ := s
  obtain ⟨hfirst, htokens, htail, hreader⟩ := h
  dsimp only at hfirst htokens htail hreader
  unfold Scan.next
  rw [hc]
  dsimp only
  have hdelim : (chunk[n] = reader.delimChar ∨ chunk[n] = reader.eorChar) ↔
      isDelim cfg chunk[n] = true := by
    rw [hreader]
    unfold isDelim make
    rw [decide_eq_true_iff]
  by_cases hd : isDelim cfg chunk[n] = true
  · have hget : reader.getDelimitedStream ((chunk.take n).drop first) =
        (reader.stream ++ (chunk.take n).drop first, { make cfg with stream := [] }) := by
      unfold getDelimitedStream
      by_cases hs : reader.stream = []
      · rw [if_neg (not_not.2 hs), hs, List.nil_append]
        rw [hs] at hreader
        rw [hreader]
      · rw [if_pos hs, hreader]
    rw [if_pos (hdelim.2 hd), hget]
    refine ⟨Nat.le_refl _, ?_, ?_, rfl⟩
    · rw [htake, ← List.append_assoc, DelimitedStreamReader.tokens, ended_snoc hd]
      show DelimitedStreamReader.tokens cfg _ ++ [DelimitedStreamReader.tail cfg _] = _
      rw [htokens, htail, List.append_assoc]
    · rw [List.drop_eq_nil_of_le (List.length_take_le _ _), htake, ← List.append_assoc]
      exact unfinished_snoc hd
  · rw [if_neg (mt hdelim.1 hd)]
    rw [Bool.not_eq_true] at hd
    refine ⟨hfirst.trans (Nat.le_succ n), ?_, ?_, hreader⟩
    · rw [htake, ← List.append_assoc]
      exact (ended_snoc_of_not hd).trans htokens
    · rw [htake, ← List.append_assoc, List.drop_append_of_le_length (hlen.symm ▸ hfirst), ← List.append_assoc,
        ← htail]
      exact unfinished_snoc_of_not hd

theorem scan_range (before chunk : List Byte) {n : Nat} (hn : n ≤ chunk.length) :
    Scanned cfg before chunk n ((List.range n).foldl (Scan.next chunk) ⟨0, [], after cfg before⟩) := by
  induction n with
  | zero =>
    refine ⟨Nat.le_refl _, ?_, ?_, rfl⟩
    · simp
    · simp [after]
  | succ n ih =>
    rw [List.range_succ, List.foldl_append]
    exact (ih (Nat.le_of_succ_le hn)).next hn

/-- **What a chunk gives.** It ends some tokens, and leaves one unfinished. -/
theorem put_eq (cfg : DelimitedStreamReaderConfig) (before chunk : List Byte) :
    ∃ rs, tokens cfg (before ++ chunk) = tokens cfg before ++ rs ∧
      (Fits cfg (tail cfg (before ++ chunk)) →
        (after cfg before).put chunk = (after cfg (before ++ chunk), .ok rs)) ∧
      (¬ Fits cfg (tail cfg (before ++ chunk)) →
        (after cfg before).put chunk = (after cfg (before ++ chunk), .error .tokenOverflow)) := by
  have h : Scanned cfg before chunk chunk.length _ := scan_range before chunk (Nat.le_refl _)
  have hput : ∀ s, (List.range chunk.length).foldl (Scan.next chunk) ⟨0, [], after cfg before⟩ = s →
      (cfg.maxTokenSz = none →
        (after cfg before).put chunk = (after cfg (before ++ chunk), .ok s.rs)) ∧
      ∀ maxTokenSz, cfg.maxTokenSz = some maxTokenSz → (after cfg before).put chunk =
        if (tail cfg (before ++ chunk)).length > maxTokenSz
        then (after cfg (before ++ chunk), .error .tokenOverflow)
        else (after cfg (before ++ chunk), .ok s.rs) := by
    rintro s rfl
    obtain ⟨-, -, htail, hreader⟩ := h
    rw [List.take_length] at htail
    unfold put
    dsimp only
    rw [← htail, hreader]
    refine ⟨fun hmax => ?_, fun maxTokenSz hmax => ?_⟩
    · have hmax' : (make cfg).maxTokenSz = none := hmax
      split
      · next n hn => cases hmax'.symm.trans hn
      · rfl
    · have hmax' : (make cfg).maxTokenSz = some maxTokenSz := hmax
      split
      · next n hn =>
        obtain rfl := Option.some.inj (hmax'.symm.trans hn)
        rfl
      · next hn => cases hmax'.symm.trans hn
  refine ⟨_, by simpa only [List.take_length] using h.tokens, fun hfit => ?_, fun hfit => ?_⟩
  · cases hmax : cfg.maxTokenSz with
    | none => exact (hput _ rfl).1 hmax
    | some n => exact ((hput _ rfl).2 n hmax).trans (if_neg (Nat.not_lt.2 (hfit n hmax)))
  · cases hmax : cfg.maxTokenSz with
    | none => exact absurd (fun n hn => by rw [hmax] at hn; cases hn) hfit
    | some n =>
      refine ((hput _ rfl).2 n hmax).trans (if_pos (Nat.lt_of_not_le fun hle => hfit fun n' hn' => ?_))
      rw [hmax] at hn'
      cases hn'
      exact hle

/-! ## Runs -/

/-- No chunk of the run leaves an unfinished token that is too long. -/
def Passes (cfg : DelimitedStreamReaderConfig) (before : List Byte) (chunks : List (List Byte)) : Prop :=
  ∀ done, done <+: chunks → done ≠ [] → Fits cfg (tail cfg (before ++ done.flatten))

theorem passes_cons : Passes cfg before (chunk :: chunks) ↔
    Fits cfg (tail cfg (before ++ chunk)) ∧ Passes cfg (before ++ chunk) chunks := by
  constructor
  · intro h
    refine ⟨by simpa using h [chunk] ⟨chunks, rfl⟩ (by simp), fun done hd _ => ?_⟩
    have := h (chunk :: done) ((List.prefix_cons_inj chunk).2 hd) (by simp)
    rwa [List.flatten_cons, ← List.append_assoc] at this
  · rintro ⟨hfit, h⟩ done hd hne
    cases done with
    | nil => exact absurd rfl hne
    | cons c done =>
      obtain ⟨rfl, hd'⟩ := List.cons_prefix_cons.1 hd
      rw [List.flatten_cons, ← List.append_assoc]
      cases done with
      | nil => simpa using hfit
      | cons c' done => exact h _ hd' (by simp)

theorem run_passes (h : Passes cfg before chunks) :
    tokens cfg before ++ ((after cfg before).run chunks).1 = tokens cfg (before ++ chunks.flatten) ∧
      ((after cfg before).run chunks).2 = .ok (tail cfg (before ++ chunks.flatten)) := by
  induction chunks generalizing before with
  | nil => simp [run, after]
  | cons chunk chunks ih =>
    obtain ⟨hfit, hrest⟩ := passes_cons.1 h
    obtain ⟨rs, htokens, hput, -⟩ := put_eq cfg before chunk
    obtain ⟨hrun, htail⟩ := ih hrest
    unfold run
    rw [hput hfit]
    rw [List.flatten_cons, ← List.append_assoc, ← List.append_assoc, ← htokens]
    exact ⟨hrun, htail⟩

/-- A run that does not pass returns what is ended before the first chunk that leaves an unfinished token
that is too long. -/
theorem run_throws (h : ¬ Passes cfg before chunks) :
    ∃ done c, done ++ [c] <+: chunks ∧ Passes cfg before done ∧
      ¬ Fits cfg (tail cfg (before ++ (done ++ [c]).flatten)) ∧
      tokens cfg before ++ ((after cfg before).run chunks).1 = tokens cfg (before ++ done.flatten) ∧
      ((after cfg before).run chunks).2 = .error .tokenOverflow := by
  induction chunks generalizing before with
  | nil =>
    refine absurd (fun done hd hne => ?_) h
    exact absurd (List.prefix_nil.1 hd) hne
  | cons chunk chunks ih =>
    obtain ⟨rs, htokens, hput, hthrow⟩ := put_eq cfg before chunk
    by_cases hfit : Fits cfg (tail cfg (before ++ chunk))
    · obtain ⟨done, c, hpre, hpass, hlong, hrun, herr⟩ :=
        ih fun hrest => h (passes_cons.2 ⟨hfit, hrest⟩)
      refine ⟨chunk :: done, c, ?_, passes_cons.2 ⟨hfit, hpass⟩, ?_, ?_, ?_⟩
      · exact (List.prefix_cons_inj chunk).2 hpre
      · rwa [List.cons_append, List.flatten_cons, ← List.append_assoc]
      · unfold run
        rw [hput hfit]
        rw [List.flatten_cons, ← List.append_assoc, ← List.append_assoc, ← htokens]
        exact hrun
      · unfold run
        rw [hput hfit]
        exact herr
    · refine ⟨[], chunk, ⟨chunks, rfl⟩, fun done hd hne => absurd (List.prefix_nil.1 hd) hne, ?_, ?_, ?_⟩
      · simpa using hfit
      · unfold run
        rw [hthrow hfit]
        simp
      · unfold run
        rw [hthrow hfit]

theorem run_spec (cfg : DelimitedStreamReaderConfig) (chunks : List (List Byte)) :
    (Passes cfg [] chunks ∧
      (make cfg).run chunks = (tokens cfg chunks.flatten, .ok (tail cfg chunks.flatten))) ∨
    ∃ done c, done ++ [c] <+: chunks ∧ Passes cfg [] done ∧
      ¬ Fits cfg (tail cfg (done ++ [c]).flatten) ∧
      (make cfg).run chunks = (tokens cfg done.flatten, .error .tokenOverflow) := by
  by_cases h : Passes cfg [] chunks
  · obtain ⟨hrun, htail⟩ := run_passes h
    exact .inl ⟨h, Prod.ext hrun htail⟩
  · obtain ⟨done, c, hpre, hpass, hlong, hrun, herr⟩ := run_throws h
    exact .inr ⟨done, c, hpre, hpass, hlong, Prod.ext hrun herr⟩

/-- A put call that ends a token that is too long leaves an unfinished one that is, or an earlier put
call does. -/
def Caught (cfg : DelimitedStreamReaderConfig) (chunks : List (List Byte)) : Prop :=
  ∀ done, done <+: chunks → (∃ t ∈ tokens cfg done.flatten, ¬ Fits cfg t) →
    ∃ done', done' <+: done ∧ ¬ Fits cfg (tail cfg done'.flatten)

structure Correct (cfg : DelimitedStreamReaderConfig) (chunks : List (List Byte)) : Prop where
  overflow_iff : ((make cfg).run chunks).2 = .error .tokenOverflow ↔ Overlong cfg chunks.flatten
  fits : ∀ t ∈ ((make cfg).run chunks).1, Fits cfg t
  pieces : ((make cfg).run chunks).2 ≠ .error .tokenOverflow →
    (make cfg).run chunks = (tokens cfg chunks.flatten, .ok (tail cfg chunks.flatten))

theorem Passes.fits {done : List (List Byte)} (h : Passes cfg [] chunks) (hd : done <+: chunks) :
    Fits cfg (tail cfg done.flatten) := by
  cases done with
  | nil => exact fits_nil
  | cons c done => exact h _ hd (by simp)

theorem Caught.fits_of_passes {done : List (List Byte)} (hc : Caught cfg chunks) (hd : done <+: chunks)
    (h : Passes cfg [] done) : ∀ t ∈ tokens cfg done.flatten, Fits cfg t := by
  intro t ht
  by_contra hfit
  obtain ⟨done', hd', hlong⟩ := hc done hd ⟨t, ht, hfit⟩
  exact hlong (h.fits hd')

theorem Caught.correct (hc : Caught cfg chunks) : Correct cfg chunks := by
  rcases run_spec cfg chunks with ⟨hpass, hrun⟩ | ⟨done, c, hpre, hpass, hlong, hrun⟩
  · have hfits := hc.fits_of_passes List.prefix_rfl hpass
    refine ⟨?_, by rwa [hrun], fun _ => hrun⟩
    rw [hrun, overlong_iff]
    refine iff_of_false (fun h => nomatch h) ?_
    rintro (⟨t, ht, hfit⟩ | hfit)
    · exact hfit (hfits t ht)
    · exact hfit (hpass.fits List.prefix_rfl)
  · refine ⟨?_, ?_, fun h => ?_⟩
    · rw [hrun]
      obtain ⟨rest, rfl⟩ := hpre
      rw [List.flatten_append]
      exact iff_of_true rfl (.of_tail hlong _)
    · rw [hrun]
      exact hc.fits_of_passes ((List.prefix_append _ _).trans hpre) hpass
    · rw [hrun] at h
      exact absurd rfl h

theorem Correct.caught (h : Correct cfg chunks) : Caught cfg chunks := by
  rintro done ⟨rest, rfl⟩ ⟨t, ht, hlong⟩
  by_contra hno
  have hpass : Passes cfg [] done := by
    intro done' hd' _
    by_contra hfit
    exact hno ⟨done', hd', hfit⟩
  -- the token has been returned
  have hmem : t ∈ ((make cfg).run (done ++ rest)).1 := by
    rcases run_spec cfg (done ++ rest) with ⟨-, hrun⟩ | ⟨done', c, hpre, -, hlong', hrun⟩
    · rw [hrun, List.flatten_append]
      exact (ended_isPrefix _ _ _).subset ht
    · rw [hrun]
      rcases List.prefix_or_prefix_of_prefix hpre (List.prefix_append done rest) with hle | hle
      · exact absurd (hpass.fits hle) hlong'
      · obtain ⟨more, hmore⟩ := hle
        cases more using List.reverseRecOn with
        | nil =>
          rw [List.append_nil] at hmore
          rw [hmore] at hpass
          exact absurd (hpass.fits List.prefix_rfl) hlong'
        | append_singleton more c' =>
          rw [← List.append_assoc] at hmore
          obtain ⟨rfl, -⟩ := List.append_inj' hmore rfl
          rw [List.flatten_append]
          exact (ended_isPrefix _ _ _).subset ht
  exact hlong (h.fits t hmem)

theorem correct_iff : Correct cfg chunks ↔ Caught cfg chunks := ⟨Correct.caught, Caught.correct⟩

/-- Two ways of cutting a stream give the same, as the stream demands. -/
def ChunkingIndependent (cfg : DelimitedStreamReaderConfig) (chunks₁ chunks₂ : List (List Byte)) : Prop :=
  (((make cfg).run chunks₁ = (tokens cfg chunks₁.flatten, .ok (tail cfg chunks₁.flatten)) ∧
      (make cfg).run chunks₂ = (make cfg).run chunks₁) ∨
    (((make cfg).run chunks₁).2 = .error .tokenOverflow ∧
      ((make cfg).run chunks₂).2 = .error .tokenOverflow)) ∧
  (((make cfg).run chunks₁).2 = .error .tokenOverflow ↔ Overlong cfg chunks₁.flatten) ∧
  ∀ t, t ∈ ((make cfg).run chunks₁).1 ∨ t ∈ ((make cfg).run chunks₂).1 → Fits cfg t

/-- **Two ways of cutting a stream give the same, as the stream demands, if and only if both catch each
token that is too long.** -/
theorem chunking_independent (cfg : DelimitedStreamReaderConfig) {chunks₁ chunks₂ : List (List Byte)}
    (hsame : chunks₁.flatten = chunks₂.flatten) :
    ChunkingIndependent cfg chunks₁ chunks₂ ↔ Caught cfg chunks₁ ∧ Caught cfg chunks₂ := by
  rw [← correct_iff, ← correct_iff]
  constructor
  · rintro ⟨hrun, hlong, hfits⟩
    refine ⟨⟨hlong, fun t ht => hfits t (.inl ht), fun hne => ?_⟩,
      ⟨?_, fun t ht => hfits t (.inr ht), fun hne => ?_⟩⟩
    · rcases hrun with ⟨h₁, -⟩ | ⟨h₁, -⟩
      · exact h₁
      · exact absurd h₁ hne
    · rw [← hsame, ← hlong]
      rcases hrun with ⟨-, h₂⟩ | ⟨h₁, h₂⟩
      · rw [h₂]
      · exact iff_of_true h₂ h₁
    · rcases hrun with ⟨h₁, h₂⟩ | ⟨-, h₂⟩
      · rw [h₂, h₁, hsame]
      · exact absurd h₂ hne
  · rintro ⟨h₁, h₂⟩
    refine ⟨?_, h₁.overflow_iff, fun t ht => ht.elim (h₁.fits t) (h₂.fits t)⟩
    by_cases herr : ((make cfg).run chunks₁).2 = .error .tokenOverflow
    · exact .inr ⟨herr, h₂.overflow_iff.2 (hsame ▸ h₁.overflow_iff.1 herr)⟩
    · have herr₂ : ((make cfg).run chunks₂).2 ≠ .error .tokenOverflow := by
        intro h
        exact herr (h₁.overflow_iff.2 (hsame ▸ h₂.overflow_iff.1 h))
      refine .inl ⟨h₁.pieces herr, ?_⟩
      rw [h₁.pieces herr, h₂.pieces herr₂, hsame]

/-- Tokens of one byte, ended by a comma or a zero byte. -/
def narrow : DelimitedStreamReaderConfig := ⟨44, 0, some 1⟩

theorem chunking_independent_single :
    ChunkingIndependent narrow [[97], [44, 98]] [[97, 44], [98]] ↔
      Caught narrow [[97], [44, 98]] ∧ Caught narrow [[97, 44], [98]] :=
  chunking_independent narrow (show [[97], [44, 98]].flatten = [[97, 44], [98]].flatten from rfl)

/-- A token of two bytes that comes in one chunk is returned. -/
theorem long_token_returned :
    (make narrow).run [[97, 98, 44]] = ([[97, 98]], .ok []) ∧
      (make narrow).run [[97, 98], [44]] = ([], .error .tokenOverflow) ∧
      ¬ ChunkingIndependent narrow [[97, 98, 44]] [[97, 98], [44]] := by
  have h₁ : (make narrow).run [[97, 98, 44]] = ([[97, 98]], .ok []) := rfl
  have h₂ : (make narrow).run [[97, 98], [44]] = ([], .error .tokenOverflow) := rfl
  refine ⟨h₁, h₂, fun ⟨_, _, hfits⟩ => ?_⟩
  rw [h₁] at hfits
  have hfit := hfits [97, 98] (.inl List.mem_cons_self)
  exact absurd (hfit 1 rfl) (by decide)

end DelimitedStreamReader

end DataLoader
