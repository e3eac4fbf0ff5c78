import NeuralNetwork.Serializer.Duration
import NeuralNetwork.Serializer.Proof.CompactSerializer

/-!
# Which durations are read back

`roundTrip`: a duration whose product with the conversion factor is defined is written as its rounded
number of nanoseconds, and read back as that number, rounded again. `lossless_iff`: it is read back as
it was exactly if it is a whole number of nanoseconds and the product does not leave the common type;
no duration is refused.
-/

namespace CompactSerializer

open Cpp Loop LittleEndian Serializer Ratio
open Rep (Holds commonType int64)

/-! ## Rounding -/

/-- Rounding to multiples of `den / num` and back gives the number only if nothing was lost. -/
theorem round_trip_iff {p d num den : Nat} (hnum : 0 < num) (hco : num.Coprime den) (hp : p ≤ d * num) :
    p / den * den / num = d ↔ p = d * num ∧ den ∣ d := by
  constructor
  · intro h
    have hle : d * num ≤ p / den * den := h ▸ Nat.div_mul_le_self _ _
    have hfloor : p / den * den ≤ p := Nat.div_mul_le_self _ _
    have hpeq : p = d * num := by omega
    have hdvd : den ∣ d * num := ⟨p / den, by rw [Nat.mul_comm den]; omega⟩
    exact ⟨hpeq, hco.symm.dvd_of_dvd_mul_right hdvd⟩
  · rintro ⟨rfl, hdvd⟩
    rw [Nat.div_mul_cancel (hdvd.mul_right num), Nat.mul_div_cancel _ hnum]

variable {d t : Int}

theorem tdiv_round_trip_iff {num den : Nat} (hnum : 0 < num) (hden : 0 < den) (hco : num.Coprime den) :
    ((d * num).tdiv den * den).tdiv num = d ↔ (den : Int) ∣ d := by
  constructor
  · intro h
    have habs := congrArg Int.natAbs h
    simp only [Int.natAbs_tdiv, Int.natAbs_mul, Int.natAbs_natCast] at habs
    exact Int.natCast_dvd.2 ((round_trip_iff hnum hco (Nat.le_refl _)).1 habs).2
  · rintro ⟨q, rfl⟩
    have hden' : (den : Int) ≠ 0 := by omega
    have hnum' : (num : Int) ≠ 0 := by omega
    rw [Int.mul_assoc, Int.mul_tdiv_cancel_left _ hden', Int.mul_comm, ← Int.mul_assoc,
      Int.mul_tdiv_cancel _ hnum']

/-! ## Representations -/

namespace Rep

variable {x : Int} {r : Rep}

theorem cast_of_holds (h : r.Holds x) : r.cast x = x := by
  cases r with
  | bool =>
    simp only [Holds, min, max] at h
    simp only [cast]
    split <;> omega
  | signed w =>
    simp only [Holds, min, max] at h
    cases w <;> simp only [cast, Width.bits] at h ⊢ <;> rw [Int.bmod_def] <;> omega
  | unsigned w =>
    simp only [Holds, min, max] at h
    cases w <;> simp only [cast, Width.bits] at h ⊢ <;> omega

theorem holds_cast (r : Rep) (x : Int) : r.Holds (r.cast x) := by
  cases r with
  | bool =>
    simp only [Holds, min, max, cast]
    split <;> omega
  | signed w =>
    cases w <;> simp only [Holds, min, max, cast, Width.bits] <;> rw [Int.bmod_def] <;> omega
  | unsigned w =>
    cases w <;> simp only [Holds, min, max, cast, Width.bits] <;> omega

theorem mul_one (h : r.Holds x) : r.mul x 1 = .ok x := by
  unfold mul
  rw [Int.mul_one]
  split
  · rw [cast_of_holds h]
  · rw [if_pos h]

theorem mul_ok {x y : Int} (h : r.Holds (x * y)) : r.mul x y = .ok (x * y) := by
  unfold mul
  split
  · rw [cast_of_holds h]
  · rw [if_pos h]

theorem holds_common (r : Rep) (h : r.Holds x) : (commonType int64 r).Holds x := by
  unfold commonType
  cases r with
  | bool =>
    simp only [Holds, min, max] at h
    simp only [Holds, int64, uint64, min, max, Width.bits, reduceCtorEq, or_self, if_false]
    omega
  | signed w =>
    simp only [Holds, min, max] at h
    cases w <;> simp only [Holds, int64, uint64, min, max, Width.bits, reduceCtorEq, or_self, if_false]
      at h ⊢ <;> omega
  | unsigned w =>
    simp only [Holds, min, max] at h
    cases w <;> simp [Holds, int64, uint64, min, max, Width.bits] at h ⊢ <;> omega

end Rep

/-! ## Conversion factors -/

namespace DurationType

variable (D : DurationType)

/-- The numerator of the factor from counts to nanoseconds. -/
def cfNum : Nat := D.period.divideNum .nano

def cfDen : Nat := D.period.divideDen .nano

theorem cfNum_pos : 0 < D.cfNum := by
  refine Nat.div_pos (Nat.le_of_dvd ?_ (Nat.gcd_dvd_left _ _)) (Nat.gcd_pos_of_pos_left _ ?_)
  · exact Nat.mul_pos D.period.num_pos nano.den_pos
  · exact Nat.mul_pos D.period.num_pos nano.den_pos

theorem cfDen_pos : 0 < D.cfDen := by
  refine Nat.div_pos (Nat.le_of_dvd ?_ (Nat.gcd_dvd_right _ _)) (Nat.gcd_pos_of_pos_right _ ?_)
  · exact Nat.mul_pos D.period.den_pos nano.num_pos
  · exact Nat.mul_pos D.period.den_pos nano.num_pos

theorem cf_coprime : D.cfNum.Coprime D.cfDen := by
  refine Nat.coprime_div_gcd_div_gcd (Nat.gcd_pos_of_pos_left _ ?_)
  exact Nat.mul_pos D.period.num_pos nano.den_pos

theorem divideNum_nano : nano.divideNum D.period = D.cfDen := by
  unfold divideNum cfDen divideDen
  rw [Nat.gcd_comm, Nat.mul_comm nano.num, Nat.mul_comm nano.den]

theorem divideDen_nano : nano.divideDen D.period = D.cfNum := by
  unfold divideDen cfNum divideNum
  rw [Nat.gcd_comm, Nat.mul_comm nano.num, Nat.mul_comm nano.den]

def common : Rep := .commonType .int64 D.rep

end DurationType

/-! ## Casts -/

/-- The cast in one formula: where a factor is one, nothing is multiplied or divided. -/
theorem durationCast_eq (toDur frDur : DurationType) (x : Int)
    (hcast : toDur.rep.cast ((commonType toDur.rep frDur.rep).cast x) = toDur.rep.cast x) :
    durationCast toDur frDur x = do
      let p ← (commonType toDur.rep frDur.rep).mul ((commonType toDur.rep frDur.rep).cast x)
        (frDur.period.divideNum toDur.period)
      return toDur.rep.cast (p.tdiv (frDur.period.divideDen toDur.period)) := by
  have hone := Rep.mul_one (Rep.holds_cast (commonType toDur.rep frDur.rep) x)
  unfold durationCast
  by_cases hnum : frDur.period.divideNum toDur.period = 1
  · rw [hnum]
    simp only [Nat.cast_one, hone, ok_bind, true_and, if_true]
    by_cases hden : frDur.period.divideDen toDur.period = 1
    · rw [if_pos hden, hden, Nat.cast_one, Int.tdiv_one, hcast]
    · rw [if_neg hden]
  · simp only [hnum, false_and, if_false]
    by_cases hden : frDur.period.divideDen toDur.period = 1
    · simp only [hden, if_true, Nat.cast_one, Int.tdiv_one]
    · rw [if_neg hden]

theorem safeDurationCast_eq (toDur frDur : DurationType) (x : Int) :
    safeDurationCast toDur frDur x = (durationCast toDur frDur x).mapError .fault := by
  unfold safeDurationCast isnan
  cases durationCast toDur frDur x <;> rfl

variable (D : DurationType)

theorem encode_eq (hd : D.rep.Holds d) :
    durationCast .serializable D d = do
      let p ← D.common.mul d D.cfNum
      return int64.cast (p.tdiv D.cfDen) := by
  have hcommon : D.common.cast d = d := Rep.cast_of_holds (Rep.holds_common D.rep hd)
  have he := durationCast_eq .serializable D d (by
    change int64.cast (D.common.cast d) = _
    rw [hcommon]
    rfl)
  change _ = D.common.mul (D.common.cast d) D.cfNum >>= _ at he
  rwa [hcommon] at he

theorem common_eq : D.common = commonType D.rep .int64 := by
  unfold DurationType.common commonType
  simp only [or_comm]

/-- The common type keeps the ticks, or wraps them as the representation does. -/
theorem rep_cast_common (ht : int64.Holds t) :
    D.rep.cast (D.common.cast t) = D.rep.cast t := by
  unfold DurationType.common commonType
  split
  · next h =>
    rcases h with h | h
    · cases h
    · rw [h]
      exact Int.emod_emod t _
  · rw [Rep.cast_of_holds ht]

theorem decode_eq (ht : int64.Holds t) :
    durationCast D .serializable t = do
      let p ← D.common.mul (D.common.cast t) D.cfDen
      return D.rep.cast (p.tdiv D.cfNum) := by
  have he := durationCast_eq D .serializable t (by
    change D.rep.cast ((commonType D.rep .int64).cast t) = _
    rw [← common_eq]
    exact rep_cast_common D ht)
  change _ = (commonType D.rep .int64).mul ((commonType D.rep .int64).cast t)
    (nano.divideNum D.period) >>= fun p => .ok (D.rep.cast (p.tdiv (nano.divideDen D.period)))
    at he
  rwa [← common_eq, D.divideNum_nano, D.divideDen_nano] at he

/-! ## There and back -/

def Toward (x a : Int) : Prop := 0 ≤ x ∧ x ≤ a ∨ a ≤ x ∧ x ≤ 0

theorem Toward.trans {x y z : Int} (h : Toward x y) (h' : Toward y z) : Toward x z := by
  unfold Toward at *
  omega

theorem Rep.Holds.toward {r : Rep} {x a : Int} (ha : r.Holds a) (h : Toward x a) : r.Holds x := by
  unfold Toward at h
  cases r with
  | bool =>
    simp only [Holds, Rep.min, Rep.max] at ha ⊢
    omega
  | signed w => cases w <;> simp only [Holds, Rep.min, Rep.max, Width.bits] at ha ⊢ <;> omega
  | unsigned w => cases w <;> simp only [Holds, Rep.min, Rep.max, Width.bits] at ha ⊢ <;> omega

theorem toward_tdiv {x a : Int} {n : Nat} (hn : 0 < n) (h : Toward x (a * n)) : Toward (x.tdiv n) a := by
  have hn' : (0 : Int) < n := by omega
  have hkey : ∀ {x a : Int}, 0 ≤ x → x ≤ a * n → 0 ≤ x.tdiv n ∧ x.tdiv n ≤ a := by
    intro x a h0 hle
    rw [Int.tdiv_eq_ediv_of_nonneg h0]
    exact ⟨Int.ediv_nonneg h0 hn'.le, Int.ediv_le_of_le_mul hn' hle⟩
  rcases h with ⟨h0, hle⟩ | ⟨hle, h0⟩
  · exact .inl (hkey h0 hle)
  · have hneg : -x ≤ -a * n := by
      rw [Int.neg_mul]
      omega
    have h' := hkey (x := -x) (by omega) hneg
    rw [Int.neg_tdiv] at h'
    exact .inr ⟨by omega, by omega⟩

theorem toward_tdiv_mul (a : Int) (n : Nat) : Toward (a.tdiv n * n) a := by
  have hmod := Int.tdiv_mul_add_tmod a n
  rcases Int.le_total 0 a with h0 | h0
  · have hnonneg : 0 ≤ a.tdiv n * n := Int.mul_nonneg (Int.tdiv_nonneg h0 (by omega)) (by omega)
    have hrem : 0 ≤ a.tmod n := Int.tmod_nonneg _ h0
    exact .inl ⟨hnonneg, by omega⟩
  · have hneg : 0 ≤ (-a).tdiv n * n := Int.mul_nonneg (Int.tdiv_nonneg (by omega) (by omega)) (by omega)
    have hrem : 0 ≤ (-a).tmod n := Int.tmod_nonneg _ (by omega)
    rw [Int.neg_tdiv, Int.neg_mul] at hneg
    rw [Int.neg_tmod] at hrem
    exact .inr ⟨by omega, by omega⟩

theorem toward_tdiv_self (a : Int) (n : Nat) : Toward (a.tdiv n) a := by
  rcases Nat.eq_zero_or_pos n with rfl | hn
  · rw [Nat.cast_zero, Int.tdiv_zero]
    unfold Toward
    omega
  · refine toward_tdiv hn ?_
    have hn' : (1 : Int) ≤ n := by omega
    rcases Int.le_total 0 a with h0 | h0
    · have hle := Int.mul_le_mul_of_nonneg_left hn' h0
      exact .inl ⟨h0, by omega⟩
    · have hle := Int.mul_le_mul_of_nonpos_left h0 hn'
      exact .inr ⟨by omega, h0⟩

variable {p : Int}

theorem mul_toward {n : Nat} (hd : D.rep.Holds d) (h : D.common.mul d n = .ok p) :
    D.common.Holds p ∧ Toward p (d * n) := by
  have hcommon := Rep.holds_common D.rep hd
  unfold DurationType.common commonType at *
  split at h
  · next hu =>
    rw [if_pos hu] at hcommon ⊢
    obtain rfl := Except.ok.inj h
    refine ⟨Rep.holds_cast _ _, ?_⟩
    have h0 : 0 ≤ d * n := Int.mul_nonneg hcommon.1 (by omega)
    simp only [Toward, Rep.uint64, Rep.cast, Width.bits]
    omega
  · next hu =>
    rw [if_neg hu]
    unfold Rep.mul int64 at h
    dsimp only at h
    split at h
    · next hholds =>
      obtain rfl := Except.ok.inj h
      refine ⟨hholds, ?_⟩
      unfold Toward
      omega
    · cases h

theorem common_cast_tick (ht : D.common.Holds t) : D.common.cast (int64.cast t) = t := by
  unfold DurationType.common commonType at *
  split at ht
  · next hu =>
    rw [if_pos hu]
    simp only [Holds, Rep.uint64, int64, Rep.min, Rep.max, Rep.cast, Width.bits] at ht ⊢
    rw [Int.bmod_def]
    omega
  · next hu =>
    rw [if_neg hu, Rep.cast_of_holds (Rep.holds_cast _ _), Rep.cast_of_holds ht]

/-- **A duration of which the product is defined is rounded on both ways.** -/
theorem roundTrip (hd : D.rep.Holds d) (hp : D.common.mul d D.cfNum = .ok p) :
    ∃ t, int64.Holds t ∧ durationCast .serializable D d = .ok t ∧
      durationCast D .serializable t = .ok ((p.tdiv D.cfDen * D.cfDen).tdiv D.cfNum) := by
  obtain ⟨hpc, hpd⟩ := mul_toward D hd hp
  have ht : D.common.Holds (p.tdiv D.cfDen) := hpc.toward (toward_tdiv_self p D.cfDen)
  have hback : Toward (p.tdiv D.cfDen * D.cfDen) p := toward_tdiv_mul p D.cfDen
  have hr : Toward ((p.tdiv D.cfDen * D.cfDen).tdiv D.cfNum) d :=
    toward_tdiv D.cfNum_pos (hback.trans hpd)
  refine ⟨int64.cast (p.tdiv D.cfDen), Rep.holds_cast _ _, ?_, ?_⟩
  · rw [encode_eq D hd, hp, ok_bind]
    rfl
  · rw [decode_eq D (Rep.holds_cast _ _), common_cast_tick D ht, Rep.mul_ok (hpc.toward hback), ok_bind,
      Rep.cast_of_holds (hd.toward hr)]
    rfl

/-- A whole number of nanoseconds of which the product with the numerator of the factor does not leave
the common type. -/
def DurationType.Exact (d : Int) : Prop := D.common.Holds (d * D.cfNum) ∧ (D.cfDen : Int) ∣ d

instance (d : Int) : Decidable (D.Exact d) := inferInstanceAs (Decidable (_ ∧ _))

/-- A product that is no larger in size and comes back rounded nowhere is exact. -/
theorem exact_of_round_trip {num den : Nat} (hnum : 0 < num) (hco : num.Coprime den)
    (hpd : Toward p (d * num)) (h : (p.tdiv den * den).tdiv num = d) :
    p = d * num ∧ (den : Int) ∣ d := by
  have habs := congrArg Int.natAbs h
  simp only [Int.natAbs_tdiv, Int.natAbs_mul, Int.natAbs_natCast] at habs
  have hmul : (d * num).natAbs = d.natAbs * num := by rw [Int.natAbs_mul, Int.natAbs_natCast]
  have hle : p.natAbs ≤ d.natAbs * num := by
    unfold Toward at hpd
    omega
  obtain ⟨hpeq, hdvd⟩ := (round_trip_iff hnum hco hle).1 habs
  refine ⟨?_, Int.natCast_dvd.2 hdvd⟩
  unfold Toward at hpd
  omega

/-- Nothing is lost on the way there and back exactly if nothing is rounded and nothing wraps. -/
theorem roundTrip_eq_iff (hd : D.rep.Holds d) (hp : D.common.mul d D.cfNum = .ok p) :
    (p.tdiv D.cfDen * D.cfDen).tdiv D.cfNum = d ↔ D.Exact d := by
  obtain ⟨hpc, hpd⟩ := mul_toward D hd hp
  constructor
  · intro h
    obtain ⟨hexact, hdvd⟩ := exact_of_round_trip D.cfNum_pos D.cf_coprime hpd h
    exact ⟨hexact ▸ hpc, hdvd⟩
  · rintro ⟨hholds, hdvd⟩
    obtain rfl : d * D.cfNum = p := Except.ok.inj ((Rep.mul_ok hholds).symm.trans hp)
    exact (tdiv_round_trip_iff D.cfNum_pos D.cfDen_pos D.cf_coprime).2 hdvd

/-! ## The archives -/

theorem toInt_tick (ht : int64.Holds t) : (BitVec.ofInt 64 t).toInt = t := by
  simp only [Holds, int64, Rep.min, Rep.max, Width.bits] at ht
  exact BitVec.toInt_ofInt_eq_self (by decide) ht.1 (Int.lt_of_le_sub_one ht.2)

theorem load_dump_tick (v : BitVec 64) : (load 8 (dump 8 v)).toInt = v.toInt := by rw [load_dump]

def tickBytes (h : Headers) (t : Int) : List Byte :=
  (if h.isSome then putArith h (kindOf .uint8) [durationHeader] else []) ++
    putArith h tickKind (dump 8 (BitVec.ofInt 64 t))

theorem putDuration_eq (h : Headers) (e : durationCast .serializable D d = .ok t) :
    putDuration D h d = .ok (tickBytes h t) := by
  unfold putDuration
  rw [safeDurationCast_eq, e]
  rfl

theorem countDuration_eq (h : Headers) (e : durationCast .serializable D d = .ok t) :
    countDuration D h d = .ok (tickBytes h t).length := by
  unfold countDuration tickBytes
  rw [safeDurationCast_eq, e, List.length_append, length_putArith, length_dump]
  cases h with
  | none => rfl
  | some header =>
    simp only [Option.isSome_some, if_true, length_putArith]
    rfl

theorem getDuration_reads (ar : Archive) (ht : int64.Holds t)
    (e : durationCast D .serializable t = .ok d) :
    Reads (getDuration D ar) (tickBytes ar.headers t) d := by
  have hskip : Skips (fun cur => if ar.headers.isSome then getArith ar (kindOf .uint8) 1 cur >>=
      fun x => if x.1 = [durationHeader] then pure x.2 else throwExc .corruptedFormat
    else pure cur) (if ar.headers.isSome then putArith ar.headers (kindOf .uint8) [durationHeader]
      else []) := by
    intro rest extra
    by_cases hh : ar.headers.isSome = true
    · have hread := getArith_reads ar (kindOf .uint8) [durationHeader] rest extra
      rw [List.length_singleton] at hread
      simp only [hh, if_true, hread, ok_bind]
      rfl
    · simp [hh, Cursor.over, Pure.pure, Except.pure]
  have htick : Reads (fun cur => getArith ar tickKind 8 cur >>= fun x =>
      safeDurationCast D .serializable (load 8 x.1).toInt >>= fun data => .ok (data, x.2))
      (putArith ar.headers tickKind (dump 8 (BitVec.ofInt 64 t))) d := by
    intro rest extra
    have hread := getArith_reads ar tickKind (dump 8 (BitVec.ofInt 64 t)) rest extra
    rw [length_dump] at hread
    simp only [hread, ok_bind, load_dump_tick, toInt_tick ht, safeDurationCast_eq, e]
    rfl
  exact hskip.bind htick

/-- What is wanted of a duration: refused, or counted, written and read as it is. -/
def LosslessOrRefused (h : Headers) (d : Int) : Prop :=
  putDuration D h d = throwExc .corruptedFormat ∨
    ∃ bs, countDuration D h d = .ok bs.length ∧ putDuration D h d = .ok bs ∧
      ∀ checked, Reads (getDuration D ⟨h, checked⟩) bs d

/-- **A duration is lossless or refused exactly if it is a whole number of nanoseconds and its product
with the factor does not leave the common type.** -/
theorem lossless_iff (h : Headers) (d : Int) (hd : D.rep.Holds d) :
    LosslessOrRefused D h d ↔ D.Exact d := by
  cases hp : D.common.mul d D.cfNum with
  | error f =>
    have hput : putDuration D h d = .error (.fault f) := by
      unfold putDuration
      rw [safeDurationCast_eq, encode_eq D hd, hp]
      rfl
    constructor
    · rintro (e | ⟨bs, -, e, -⟩)
      · rw [hput] at e
        cases e
      · rw [hput] at e
        cases e
    · intro hexact
      rw [Rep.mul_ok hexact.1] at hp
      cases hp
  | ok p =>
    obtain ⟨t, ht, hencode, hdecode⟩ := roundTrip D hd hp
    rw [← roundTrip_eq_iff D hd hp]
    have hput := putDuration_eq D h hencode
    constructor
    · rintro (e | ⟨bs, -, e, hreads⟩)
      · rw [hput] at e
        cases e
      · obtain rfl := Except.ok.inj (e.symm.trans hput)
        have hread := getDuration_reads D ⟨h, true⟩ ht hdecode [] 0
        exact (Prod.ext_iff.1 (Except.ok.inj (hread.symm.trans (hreads true [] 0)))).1
    · intro heq
      refine .inr ⟨tickBytes h t, countDuration_eq D h hencode, hput, fun checked => ?_⟩
      have hreads := getDuration_reads D ⟨h, checked⟩ ht hdecode
      rwa [heq] at hreads

def Ratio.one : Ratio := ⟨1, 1, Nat.one_pos, Nat.one_pos, Nat.coprime_one_left 1⟩

def Ratio.pico : Ratio :=
  ⟨1, 10 ^ 12, Nat.one_pos, Nat.pow_pos (Nat.succ_pos 9), Nat.coprime_one_left _⟩

def seconds : DurationType := ⟨.int64, .one, by decide, by decide⟩

def picoseconds : DurationType := ⟨.int64, .pico, by decide, by decide⟩

/-- A year in seconds is read back. -/
theorem lossless_iff_year : LosslessOrRefused seconds none 31536000 :=
  (lossless_iff seconds none 31536000 (by decide)).2 (by decide)

/-- Four centuries in seconds overflow, and a picosecond is written as zero nanoseconds. -/
theorem lossless_fails :
    ¬ (∀ (D : DurationType) (h : Headers) (d : Int), D.rep.Holds d → LosslessOrRefused D h d) ∧
      putDuration seconds none 12614400000 = .error (.fault .undefined) ∧
      putDuration picoseconds none 1 = .ok [0, 0, 0, 0, 0, 0, 0, 0] := by
  refine ⟨fun hall => ?_, by decide +kernel, by decide +kernel⟩
  rcases hall picoseconds none 1 (by decide) with e | ⟨bs, -, e, hreads⟩
  · have hput : putDuration picoseconds none 1 = .ok [0, 0, 0, 0, 0, 0, 0, 0] := by decide +kernel
    rw [hput] at e
    cases e
  · have hput : putDuration picoseconds none 1 = .ok [0, 0, 0, 0, 0, 0, 0, 0] := by decide +kernel
    obtain rfl := Except.ok.inj (e.symm.trans hput)
    have hread : getDuration picoseconds ⟨none, true⟩ (.over [0, 0, 0, 0, 0, 0, 0, 0] [] 0) =
        .ok (0, ⟨[], 0⟩) := by decide +kernel
    have hone : (0 : Int) = 1 :=
      (Prod.ext_iff.1 (Except.ok.inj (hread.symm.trans (hreads true [] 0)))).1
    exact absurd hone (by decide)

end CompactSerializer
