import NeuralNetwork.Serializer.CompactSerializer

/-!
# Durations in the compact serializer

The overloads of `count` and `put` of `serializer/compact_serializer.h` for a `std::chrono::duration`
whose representation is a standard integer type: its count is converted to nanoseconds in an
`int64_t`, and back. `std::chrono::duration_cast` multiplies and divides in the common type of the two
representations and `intmax_t`.
-/

namespace CompactSerializer

open Cpp LittleEndian Serializer

/-! ## Representations -/

inductive Width where
  | w8
  | w16
  | w32
  | w64
deriving DecidableEq, Repr

def Width.bits : Width → Nat
  | .w8 => 8
  | .w16 => 16
  | .w32 => 32
  | .w64 => 64

inductive Rep where
  | bool
  | signed (w : Width)
  | unsigned (w : Width)
deriving DecidableEq, Repr

namespace Rep

def min : Rep → Int
  | .bool => 0
  | .signed w => -2 ^ (w.bits - 1)
  | .unsigned _ => 0

def max : Rep → Int
  | .bool => 1
  | .signed w => 2 ^ (w.bits - 1) - 1
  | .unsigned w => 2 ^ w.bits - 1

def Holds (r : Rep) (x : Int) : Prop := r.min ≤ x ∧ x ≤ r.max

instance (r : Rep) (x : Int) : Decidable (r.Holds x) := inferInstanceAs (Decidable (_ ∧ _))

def cast : Rep → Int → Int
  | .bool, x => if x = 0 then 0 else 1
  | .signed w, x => x.bmod (2 ^ w.bits)
  | .unsigned w, x => x % (2 ^ w.bits : Nat)

/-- A product in the type, which is undefined where a signed one overflows. -/
def mul (r : Rep) (x y : Int) : Except Fault Int :=
  match r with
  | .unsigned _ => .ok (r.cast (x * y))
  | _ => if r.Holds (x * y) then .ok (x * y) else .error .undefined

def int64 : Rep := .signed .w64

def uint64 : Rep := .unsigned .w64

/-- `std::common_type_t<R, S, intmax_t>`. -/
def commonType (r s : Rep) : Rep := if r = uint64 ∨ s = uint64 then uint64 else int64

end Rep

/-! ## Ratios -/

/-- A `std::ratio` above zero, in lowest terms. -/
structure Ratio where
  num : Nat
  den : Nat
  num_pos : 0 < num
  den_pos : 0 < den
  coprime : num.Coprime den

def Ratio.nano : Ratio := ⟨1, 1000000000, by decide, by decide, by decide⟩

/-- The `num` of `std::ratio_divide`. -/
def Ratio.divideNum (r s : Ratio) : Nat := r.num * s.den / (r.num * s.den).gcd (r.den * s.num)

/-- The `den` of `std::ratio_divide`. -/
def Ratio.divideDen (r s : Ratio) : Nat := r.den * s.num / (r.num * s.den).gcd (r.den * s.num)

/-- A `std::chrono::duration` type. The quotients of its period and `std::nano` have to be ratios of
`intmax_t`, or the archives do not compile. -/
structure DurationType where
  rep : Rep
  period : Ratio
  num_lt : period.divideNum .nano < 2 ^ 63
  den_lt : period.divideDen .nano < 2 ^ 63

def DurationType.serializable : DurationType :=
  ⟨.int64, .nano, by decide, by decide⟩

/-! ## Casts -/

/-- `std::chrono::duration_cast` from `frDur` to `toDur`, of a count. -/
def durationCast (toDur frDur : DurationType) (count : Int) : Except Fault Int := do
  let num := frDur.period.divideNum toDur.period
  let den := frDur.period.divideDen toDur.period
  let cr := Rep.commonType toDur.rep frDur.rep
  if num = 1 ∧ den = 1 then
    return toDur.rep.cast count
  if num = 1 then
    return toDur.rep.cast ((cr.cast count).tdiv den)
  if den = 1 then
    return toDur.rep.cast (← cr.mul (cr.cast count) num)
  return toDur.rep.cast ((← cr.mul (cr.cast count) num).tdiv den)

/-- `std::isnan` of an integer, which is converted to a `double`. -/
def isnan (_count : Int) : Bool := false

def safeDurationCast (toDur frDur : DurationType) (dur : Int) : Res Int := do
  if isnan dur then
    throwExc .corruptedFormat
  let dst ← (durationCast toDur frDur dur).mapError .fault
  if isnan dst then
    throwExc .corruptedFormat
  return dst

/-! ## Archives -/

/-- `get_dgstd_serialization_header` of a duration. -/
def durationHeader : Byte := 232

def tickKind : Kind := .int .b8 true

variable (D : DurationType)

def countDuration (h : Headers) (data : Int) : Res Nat := do
  let _storableValue ← safeDurationCast .serializable D data
  return headerSize h + arithSize h 8

/-- `put` of `Forward` and `DgStdForward`. -/
def putDuration (h : Headers) (data : Int) : Res (List Byte) := do
  let header := if h.isSome then putArith h (kindOf .uint8) [durationHeader] else []
  let storableValue ← safeDurationCast .serializable D data
  return header ++ putArith h tickKind (dump 8 (BitVec.ofInt 64 storableValue))

/-- `put` of `Backward`, `SafeBackward` and `DgStdBackward`. -/
def getDuration (ar : Archive) (cur : Cursor) : Res (Int × Cursor) := do
  let cur ← (if ar.headers.isSome then do
      let (expectedHeader, cur) ← getArith ar (kindOf .uint8) 1 cur
      if expectedHeader = [durationHeader] then pure cur else throwExc .corruptedFormat
    else pure cur)
  let (bs, cur) ← getArith ar tickKind 8 cur
  let tick := (load 8 bs).toInt
  let data ← safeDurationCast D .serializable tick
  return (data, cur)

end CompactSerializer
