import NeuralNetwork.Lib.Cpp
import NeuralNetwork.Lib.Loop

/-!
# The Taylor projections of a column and of a batch

`multivariate_taylor_shape_project` and `batch_multivariate_taylor_shape_project` of
`taylor_matrix/host_matrix/shape_projection.h`, over floating-point operations of which nothing is known
(`FloatOps`). Both take coefficients from an offset on, which they advance. The batch has its features
row by row, one entry for each column: **`batch_eq_columns`**, its results are those of the columns.
-/

namespace ShapeProjection

open Cpp Loop

/-- The operations on `FloatType` and on `PromotedFloatType`. -/
structure FloatOps (F P : Type) where
  cast : F → P
  zero : P
  add : P → P → P
  mul : P → P → P
  fastApproxOneHalf : F → F
  promotedFastApproxOneHalf : P → P

def MAX_BASE_COEFFICIENT : Nat := 20

variable {F P : Type} (ops : FloatOps F P) (coeffArr : List F)

/-- A round of the loops over `projected_result` and `x_multiplier`. -/
def accumulate (i : Nat) (coeff : P) (s : P × P) : P × P :=
  if i = 0 then (ops.add s.1 coeff, s.2)
  else (ops.add s.1 (ops.mul coeff s.2), ops.promotedFastApproxOneHalf s.2)

/-- `projected_result` and `x_multiplier` before the loops. -/
def start (x : F) : P × P := (ops.zero, ops.cast (ops.fastApproxOneHalf x))

def coeffAt (i : Nat) : Except Fault F :=
  match coeffArr[i]? with
  | some c => .ok c
  | none => .error .outOfBounds

def baseTaylorRawShapeProject (x : F) (offset sz : Nat) : Except Fault P := do
  let s ← forLoop (fun i s => do
    let coeff ← coeffAt coeffArr (offset + i)
    .ok (accumulate ops i (ops.cast coeff) s)) sz (start ops x)
  .ok s.1

/-- Without a bound check; more coefficients are `std::unreachable`. -/
def baseTaylorShapeProject (x : F) (offset sz : Nat) : Except Fault P :=
  if sz > MAX_BASE_COEFFICIENT then .error .undefined
  else baseTaylorRawShapeProject ops coeffArr x offset sz

/-- Without a bound check. The result comes with the new `coeff_arr_offset`. -/
def baseMultivariateTaylorShapeProject (baseCoeffSz : Nat) : List F → Nat → Except Fault (P × Nat)
  | [], _ => .error .undefined
  | [x], offset => do
    let y ← baseTaylorShapeProject ops coeffArr x offset baseCoeffSz
    .ok (y, sizeT (offset + baseCoeffSz))
  | x :: x' :: xArr, offset => do
    let s ← forLoop (fun i s => do
      let (coeff, offset) ← baseMultivariateTaylorShapeProject baseCoeffSz (x' :: xArr) s.2
      .ok (accumulate ops i coeff s.1, offset)) baseCoeffSz (start ops x, offset)
    .ok (s.1.1, s.2)

/-- `check_base_multivariate_taylor_shape_project`; the array has `coeff_arr_cap` coefficients. -/
def check (xArrSz baseCoeffSz offset : Nat) : Except Fault Unit :=
  if xArrSz = 0 then .error (.invalidArgument "bad input feature size, 0")
  else if baseCoeffSz > MAX_BASE_COEFFICIENT then
    .error (.invalidArgument "bad base coefficient size, max reached")
  else if subT coeffArr.length offset < baseCoeffSz ^ xArrSz then
    .error (.invalidArgument "insufficient remaining coefficient size")
  else .ok ()

def multivariateTaylorShapeProject (xArr : List F) (baseCoeffSz offset : Nat) :
    Except Fault (P × Nat) := do
  check coeffArr xArr.length baseCoeffSz offset
  baseMultivariateTaylorShapeProject ops coeffArr baseCoeffSz xArr offset

/-! ## Batches -/

/-- The first row; an empty one is `std::unreachable`. -/
def row (batchSz : Nat) (flatXArr : List F) : Except Fault (List F) :=
  if batchSz = 0 then .error .undefined
  else if flatXArr.length < batchSz then .error .outOfBounds
  else .ok (flatXArr.take batchSz)

def baseBatchTaylorShapeProject (xArr : List F) (offset sz : Nat) : Except Fault (List P) :=
  if sz > MAX_BASE_COEFFICIENT then .error .undefined
  else xArr.mapM fun x => baseTaylorRawShapeProject ops coeffArr x offset sz

/-- `y_arr` and `x_multiplier_arr` are one list, with an entry for each column. -/
def baseBatchMultivariateTaylorShapeProject (baseCoeffSz batchSz : Nat) :
    Nat → List F → Nat → Except Fault (List P × Nat)
  | 0, _, _ => .error .undefined
  | 1, flatXArr, offset => do
    let xArr ← row batchSz flatXArr
    let yArr ← baseBatchTaylorShapeProject ops coeffArr xArr offset baseCoeffSz
    .ok (yArr, sizeT (offset + baseCoeffSz))
  | xArrSz + 2, flatXArr, offset => do
    let xArr ← row batchSz flatXArr
    let s ← forLoop (fun i s => do
      let (projectedArr, offset) ← baseBatchMultivariateTaylorShapeProject baseCoeffSz batchSz
        (xArrSz + 1) (flatXArr.drop batchSz) s.2
      .ok (List.zipWith (accumulate ops i) projectedArr s.1, offset)) baseCoeffSz
        (xArr.map (start ops), offset)
    .ok (s.1.map Prod.fst, s.2)

def batchCheck (xArrSz batchSz baseCoeffSz offset : Nat) : Except Fault Unit :=
  if xArrSz = 0 then .error (.invalidArgument "bad input feature size, 0")
  else if batchSz = 0 then .error (.invalidArgument "bad batch size, 0")
  else check coeffArr xArrSz baseCoeffSz offset

def batchMultivariateTaylorShapeProject (flatXArr : List F) (xArrSz batchSz baseCoeffSz offset : Nat) :
    Except Fault (List P × Nat) := do
  batchCheck coeffArr xArrSz batchSz baseCoeffSz offset
  baseBatchMultivariateTaylorShapeProject ops coeffArr baseCoeffSz batchSz xArrSz flatXArr offset

/-- The entries of a column, one of each row. -/
def column (batchSz j : Nat) : Nat → List F → List F
  | 0, _ => []
  | xArrSz + 1, flatXArr => flatXArr[j]?.toList ++ column batchSz j xArrSz (flatXArr.drop batchSz)

/-! ## The results agree -/

variable {ops : FloatOps F P} {coeffArr flat : List F} {base batchSz offset n j : Nat} {x : F}

theorem raw_ok (hoffset : offset + base ≤ coeffArr.length) :
    ∃ y, baseTaylorRawShapeProject ops coeffArr x offset base = .ok y := by
  have hstep : ∀ i, i < base → ∀ s : P × P, True → ∃ s', (do
      let coeff ← coeffAt coeffArr (offset + i)
      .ok (accumulate ops i (ops.cast coeff) s)) = Except.ok s' ∧ True := fun i hi s _ => by
    have hget := List.getElem?_eq_getElem (show offset + i < coeffArr.length by omega)
    unfold coeffAt
    rw [hget]
    exact ⟨_, rfl, True.intro⟩
  obtain ⟨s, e, -⟩ := forLoop_ok (s := start ops x) (fun _ _ => True) True.intro hstep
  unfold baseTaylorRawShapeProject
  rw [e]
  exact ⟨s.1, rfl⟩

/-- The two functions on the first `n` rows: the entry of a column is what the column alone gives. -/
def Agree (ops : FloatOps F P) (coeffArr : List F) (base batchSz n : Nat) (flat : List F)
    (offset : Nat) : Prop :=
  ∃ y, baseBatchMultivariateTaylorShapeProject ops coeffArr base batchSz n flat offset =
      .ok (y, offset + base ^ n) ∧ y.length = batchSz ∧
    ∀ j, j < batchSz → ∃ v, y[j]? = some v ∧
      baseMultivariateTaylorShapeProject ops coeffArr base (column batchSz j n flat) offset =
        .ok (v, offset + base ^ n)

theorem row_ok (hbatch : batchSz ≠ 0) (hflat : batchSz ≤ flat.length) :
    row batchSz flat = .ok (flat.take batchSz) := by
  rw [row, if_neg hbatch, if_neg (Nat.not_lt.2 hflat)]

theorem column_succ (h : flat[j]? = some x) :
    column batchSz j (n + 1) flat = x :: column batchSz j n (flat.drop batchSz) := by
  rw [column, h]
  rfl

theorem length_column (hj : j < batchSz) (hflat : flat.length = n * batchSz) :
    (column batchSz j n flat).length = n := by
  induction n generalizing flat with
  | zero => rfl
  | succ n ih =>
    rw [Nat.succ_mul] at hflat
    rw [column_succ (List.getElem?_eq_getElem (show j < flat.length by omega)), List.length_cons,
      ih (by rw [List.length_drop, hflat, Nat.add_sub_cancel])]

theorem agree_one (hbatch : batchSz ≠ 0) (hbase : base ≤ MAX_BASE_COEFFICIENT)
    (hcap : coeffArr.length < 2 ^ 64) (hflat : batchSz ≤ flat.length)
    (hoffset : offset + base ≤ coeffArr.length) : Agree ops coeffArr base batchSz 1 flat offset := by
  have hmax : ¬ base > MAX_BASE_COEFFICIENT := Nat.not_lt.2 hbase
  have hsize : sizeT (offset + base) = offset + base ^ 1 := by
    rw [pow_one, sizeT_of_lt (hoffset.trans_lt hcap)]
  choose f hf using fun x => @raw_ok _ _ ops _ _ _ x hoffset
  refine ⟨(flat.take batchSz).map f, ?_, ?_, fun j hj => ?_⟩
  · have hmap : (flat.take batchSz).mapM (fun x => baseTaylorRawShapeProject ops coeffArr x offset base) =
        .ok ((flat.take batchSz).map f) := by
      rw [funext hf]
      exact List.mapM_pure
    unfold baseBatchMultivariateTaylorShapeProject baseBatchTaylorShapeProject
    rw [row_ok hbatch hflat, ok_bind, if_neg hmax, hmap, hsize]
    rfl
  · rw [List.length_map, List.length_take, Nat.min_eq_left hflat]
  · have hget := List.getElem?_eq_getElem (hj.trans_le hflat)
    refine ⟨f flat[j], by rw [List.getElem?_map, List.getElem?_take_of_lt hj, hget]; rfl, ?_⟩
    rw [column_succ hget, column]
    unfold baseMultivariateTaylorShapeProject baseTaylorShapeProject
    rw [if_neg hmax, hf, hsize]
    rfl

/-- **A feature more**: after each round the entries of the columns are those of their own loops. -/
theorem agree_succ (hbatch : batchSz ≠ 0) (hflat : batchSz ≤ flat.length)
    (hfirst : ∀ j, j < batchSz → ∃ x, (flat.drop batchSz)[j]? = some x)
    (hrest : ∀ i, i < base → Agree ops coeffArr base batchSz (n + 1) (flat.drop batchSz)
      (offset + i * base ^ (n + 1))) : Agree ops coeffArr base batchSz (n + 2) flat offset := by
  have hrow := row_ok hbatch hflat
  have hlength : (flat.take batchSz).length = batchSz := by
    rw [List.length_take, Nat.min_eq_left hflat]
  let body (j i : Nat) (s : (P × P) × Nat) : Except Fault ((P × P) × Nat) := do
    let (coeff, offset) ← baseMultivariateTaylorShapeProject ops coeffArr base
      (column batchSz j (n + 1) (flat.drop batchSz)) s.2
    .ok (accumulate ops i coeff s.1, offset)
  let batchBody (i : Nat) (s : List (P × P) × Nat) : Except Fault (List (P × P) × Nat) := do
    let (projectedArr, offset) ← baseBatchMultivariateTaylorShapeProject ops coeffArr base batchSz
      (n + 1) (flat.drop batchSz) s.2
    .ok (List.zipWith (accumulate ops i) projectedArr s.1, offset)
  let inv (i : Nat) (s : List (P × P) × Nat) : Prop :=
    s.1.length = batchSz ∧ s.2 = offset + i * base ^ (n + 1) ∧
      ∀ j x, j < batchSz → flat[j]? = some x → ∃ v, s.1[j]? = some v ∧
        forLoop (body j) i (start ops x, offset) = .ok (v, s.2)
  have hinit : inv 0 ((flat.take batchSz).map (start ops), offset) := by
    refine ⟨(List.length_map _).trans hlength, ?_, fun j x hj hx => ⟨start ops x, ?_, rfl⟩⟩
    · rw [Nat.zero_mul, Nat.add_zero]
    · rw [List.getElem?_map, List.getElem?_take_of_lt hj, hx]
      rfl
  have hstep : ∀ i, i < base → ∀ s, inv i s → ∃ s', batchBody i s = .ok s' ∧ inv (i + 1) s' := by
    rintro i hi ⟨s, offset'⟩ ⟨hlen, rfl, hcols⟩
    obtain ⟨y, ey, hy, hcol⟩ := hrest i hi
    refine ⟨(List.zipWith (accumulate ops i) y s, offset + i * base ^ (n + 1) + base ^ (n + 1)), ?_, ?_,
      ?_, fun j x hj hx => ?_⟩
    · show (_ >>= _) = _
      rw [ey]
      rfl
    · rw [List.length_zipWith, hy, hlen, Nat.min_self]
    · rw [Nat.add_assoc, ← Nat.succ_mul]
    · obtain ⟨v, hv, hloop⟩ := hcols j x hj hx
      obtain ⟨w, hw, hmulti⟩ := hcol j hj
      refine ⟨accumulate ops i w v, by rw [List.getElem?_zipWith, hw, hv], ?_⟩
      show forLoop (body j) i _ >>= body j i = _
      rw [hloop, ok_bind]
      dsimp only [body]
      rw [hmulti]
      rfl
  obtain ⟨⟨ys, offset'⟩, e, hlen, hoffset, hcols⟩ := forLoop_ok inv hinit hstep
  have hpow : offset' = offset + base ^ (n + 2) := hoffset.trans (by rw [← Nat.pow_succ'])
  refine ⟨ys.map Prod.fst, ?_, (List.length_map _).trans hlen, fun j hj => ?_⟩
  · unfold baseBatchMultivariateTaylorShapeProject
    rw [hrow, ok_bind, e, hpow]
    rfl
  · have hget := List.getElem?_eq_getElem (hj.trans_le hflat)
    obtain ⟨x', hx'⟩ := hfirst j hj
    obtain ⟨v, hv, hloop⟩ := hcols j _ hj hget
    refine ⟨v.1, by rw [List.getElem?_map, hv]; rfl, ?_⟩
    dsimp only [body] at hloop
    rw [column_succ hget]
    rw [column_succ hx'] at hloop ⊢
    unfold baseMultivariateTaylorShapeProject
    rw [hloop, hpow]
    rfl

theorem agree (hbatch : batchSz ≠ 0) (hbase : base ≤ MAX_BASE_COEFFICIENT)
    (hcap : coeffArr.length < 2 ^ 64) (hflat : flat.length = (n + 1) * batchSz)
    (hoffset : offset + base ^ (n + 1) ≤ coeffArr.length) :
    Agree ops coeffArr base batchSz (n + 1) flat offset := by
  induction n generalizing flat offset with
  | zero => exact agree_one hbatch hbase hcap (by omega) (by rwa [pow_one] at hoffset)
  | succ n ih =>
    have hdrop : (flat.drop batchSz).length = (n + 1) * batchSz := by
      rw [List.length_drop, hflat, Nat.succ_mul (n + 1), Nat.add_sub_cancel]
    have hle : batchSz ≤ (n + 1) * batchSz := Nat.le_mul_of_pos_left _ (Nat.succ_pos n)
    refine agree_succ hbatch ?_ (fun j hj => ⟨_, List.getElem?_eq_getElem (by omega)⟩) fun i hi => ?_
    · rw [hflat, Nat.succ_mul]
      exact Nat.le_add_left _ _
    · refine ih hdrop ?_
      have hmul : (i + 1) * base ^ (n + 1) ≤ base * base ^ (n + 1) := Nat.mul_le_mul_right _ hi
      rw [← Nat.pow_succ', Nat.succ_mul] at hmul
      exact (Nat.add_assoc .. ▸ Nat.add_le_add_left hmul offset).trans hoffset

/-- **A batch gives what its columns give.** Where the check of the batch passes, both go through, so that
no coefficient is read at or behind the end of the array, and both advance the offset by
`base ^ features`. -/
theorem batch_eq_columns (ops : FloatOps F P) (hcap : coeffArr.length < 2 ^ 64)
    (hoffset : offset ≤ coeffArr.length) (hflat : flat.length = n * batchSz)
    (hcheck : batchCheck coeffArr n batchSz base offset = .ok ()) :
    ∃ y, batchMultivariateTaylorShapeProject ops coeffArr flat n batchSz base offset =
        .ok (y, offset + base ^ n) ∧ y.length = batchSz ∧
      ∀ j, j < batchSz → (column batchSz j n flat).length = n ∧ ∃ v, y[j]? = some v ∧
        multivariateTaylorShapeProject ops coeffArr (column batchSz j n flat) base offset =
          .ok (v, offset + base ^ n) := by
  have hcheck' := hcheck
  unfold batchCheck at hcheck'
  split at hcheck'
  · cases hcheck'
  split at hcheck'
  · cases hcheck'
  next hn hbatch =>
  have hscalar := hcheck'
  unfold check at hcheck'
  rw [if_neg hn] at hcheck'
  split at hcheck'
  · cases hcheck'
  split at hcheck'
  · cases hcheck'
  next hbase hroom =>
  rw [subT_of_le hoffset hcap] at hroom
  obtain ⟨n, rfl⟩ := Nat.exists_eq_add_one_of_ne_zero hn
  obtain ⟨y, e, hy, hcols⟩ := @agree _ _ ops _ _ _ _ _ _ hbatch (Nat.not_lt.1 hbase) hcap hflat
    (show offset + base ^ (n + 1) ≤ _ by omega)
  refine ⟨y, ?_, hy, fun j hj => ⟨length_column hj hflat, ?_⟩⟩
  · rw [batchMultivariateTaylorShapeProject, hcheck, ok_bind, e]
  · obtain ⟨v, hv, hmulti⟩ := hcols j hj
    refine ⟨v, hv, ?_⟩
    rw [multivariateTaylorShapeProject, length_column hj hflat, hscalar, ok_bind, hmulti]

theorem batch_eq_columns_two :
    ∃ y, batchMultivariateTaylorShapeProject ⟨id, 0, (· + ·), (· * ·), id, id⟩ [1, 2, 3, 4, 5]
      [2, 3, 5, 7] 2 2 2 1 = .ok (y, 1 + 2 ^ 2) ∧ y.length = 2 :=
  have ⟨y, e, hy, _⟩ := batch_eq_columns (F := Nat) (P := Nat) ⟨id, 0, (· + ·), (· * ·), id, id⟩
    (show [1, 2, 3, 4, 5].length < 2 ^ 64 by decide) (show 1 ≤ 5 by decide)
    (show [2, 3, 5, 7].length = 2 * 2 from rfl) (show batchCheck _ 2 2 2 1 = _ from rfl)
  ⟨y, e, hy⟩

end ShapeProjection
