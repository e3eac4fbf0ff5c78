import NeuralNetwork.StlExtension.Pow2CyclicQueue

/-!
# The cyclic queues as bounded deques

`Op.spec` is a call on a bounded deque, a list. `Window` reads a queue as one: the slots from `off` on
hold the elements, and the others are empty. `deque_refined`: from a constructed queue on, every run of
calls answers as the deque does and leaves its elements. In the simple queue an assignment that throws
must leave `T{}`, since a push that fails does not reset its slot.
-/

namespace CyclicQueue

open Cpp Loop Stdx Ring

variable {T S : Type}

/-! ## The deque -/

section Deque

variable [Inhabited T]

def Op.spec (cap : Nat) (xs : List T) : Op T → List T × Exception
  | .pushBack value thrown =>
    if xs.length = cap then (xs, .queueFull)
    else if thrown.isSome then (xs, .wrapped)
    else (xs ++ [value], .success)
  | .popFront => (xs.tail, .success)
  | .popBack => (xs.dropLast, .success)
  | .resize newSz throwsAt =>
    if cap < newSz then (xs, .resourceExhaustion)
    else if newSz ≤ xs.length then (xs.take newSz, .success)
    else if throwsAt.getD (newSz - xs.length) < newSz - xs.length then (xs, .wrapped)
    else (xs ++ List.replicate (newSz - xs.length) default, .success)
  | .eraseFrontRange n => (xs.drop n, .success)
  | .eraseBackRange n => (xs.take (xs.length - n), .success)
  | .clear => ([], .success)

def Op.Allowed (xs : List T) : Op T → Prop
  | .popFront | .popBack => xs ≠ []
  | .eraseFrontRange n | .eraseBackRange n => n ≤ xs.length
  | _ => True

/-- An assignment that throws leaves `T{}`, and default constructors do not throw. -/
def Op.Clean (cap : Nat) (xs : List T) : Op T → Prop
  | .pushBack _ (some x) => xs.length < cap → x = default
  | .resize _ throwsAt => throwsAt = none
  | _ => True

instance (xs : List T) (op : Op T) : Decidable (op.Allowed xs) :=
  match op with
  | .popFront | .popBack => inferInstanceAs (Decidable (xs ≠ []))
  | .eraseFrontRange n | .eraseBackRange n => inferInstanceAs (Decidable (n ≤ xs.length))
  | .pushBack _ _ | .resize _ _ | .clear => inferInstanceAs (Decidable True)

instance [DecidableEq T] (cap : Nat) (xs : List T) (op : Op T) : Decidable (op.Clean cap xs) :=
  match op with
  | .pushBack _ (some x) => inferInstanceAs (Decidable (xs.length < cap → x = default))
  | .resize _ throwsAt => inferInstanceAs (Decidable (throwsAt = none))
  | .pushBack _ none | .popFront | .popBack | .eraseFrontRange _ | .eraseBackRange _ | .clear =>
    inferInstanceAs (Decidable True)

inductive SpecRun (P : List T → Op T → Prop) (cap : Nat) : List (Op T) → List T → List Exception → Prop
  | nil : SpecRun P cap [] [] []
  | snoc {ops : List (Op T)} {xs : List T} {answers : List Exception} (op : Op T) :
      SpecRun P cap ops xs answers → P xs op →
      SpecRun P cap (ops ++ [op]) (op.spec cap xs).1 (answers ++ [(op.spec cap xs).2])

theorem SpecRun.mono {P P' : List T → Op T → Prop} {cap : Nat} (hP : ∀ xs op, P xs op → P' xs op)
    {ops : List (Op T)} {xs : List T} {answers : List Exception} (h : SpecRun P cap ops xs answers) :
    SpecRun P' cap ops xs answers := by
  induction h with
  | nil => exact .nil
  | snoc op _ hop ih => exact ih.snoc op (hP _ _ hop)

end Deque

def runOps {Q : Type} (run : Q → Op T → Except Fault (Q × Exception)) (q : Q) (ops : List (Op T)) :
    Except Fault (Q × List Exception) :=
  ops.foldlM (fun s op => do
    let (q, answer) ← run s.1 op
    return (q, s.2 ++ [answer])) (q, [])

variable {xs : List T} {answers : List Exception} {ops : List (Op T)} {cap : Nat}
  {q : NontrivialPow2CyclicQueue T} {e : Nat} {cell : Option T → S}

theorem runOps_ok [Inhabited T] {Q : Type} {run : Q → Op T → Except Fault (Q × Exception)}
    {P : Nat → List T → Op T → Prop} (Rep : Q → List T → Prop) (cap : Q → Nat)
    (hstep : ∀ q xs op, Rep q xs → P (cap q) xs op →
      ∃ q', run q op = .ok (q', (op.spec (cap q) xs).2) ∧ Rep q' (op.spec (cap q) xs).1 ∧
        cap q' = cap q) {q0 : Q} (h0 : Rep q0 []) (hrun : SpecRun (P (cap q0)) (cap q0) ops xs answers) :
    ∃ q, runOps run q0 ops = .ok (q, answers) ∧ Rep q xs ∧ cap q = cap q0 := by
  induction hrun with
  | nil => exact ⟨q0, rfl, h0, rfl⟩
  | snoc op _ hop ih =>
    obtain ⟨q, e, hrep, hcap⟩ := ih
    rw [← hcap] at hop ⊢
    obtain ⟨q', e', hrep', hcap'⟩ := hstep _ _ _ hrep hop
    refine ⟨q', ?_, hrep', hcap'⟩
    unfold runOps at e ⊢
    rw [List.foldlM_append, e, ok_bind]
    simp only [List.foldlM_cons, List.foldlM_nil, e', ok_bind]
    rfl

/-! ## The window -/

def PowerCap (cap : Nat) : Prop := ∃ e < 64, cap = 2 ^ e

theorem PowerCap.pos (h : PowerCap cap) : 0 < cap := by
  obtain ⟨e, -, rfl⟩ := h
  exact Nat.two_pow_pos e

theorem PowerCap.lt (h : PowerCap cap) : cap < 2 ^ 64 := by
  obtain ⟨e, he, rfl⟩ := h
  exact Nat.pow_lt_pow_right (by decide) he

theorem PowerCap.sizeT_mod (h : PowerCap cap) (n : Nat) : sizeT n % cap = n % cap := by
  obtain ⟨e, he, rfl⟩ := h
  exact Nat.mod_mod_of_dvd _ (Nat.pow_dvd_pow 2 he.le)

theorem PowerCap.toIndex_eq (h : PowerCap cap) (off v : Nat) :
    toIndex off cap v = (off + v) % cap := by
  have hmod := h.sizeT_mod (off + v)
  obtain ⟨e, he, rfl⟩ := h
  rw [toIndex, and_mask he, hmod]

/-- The ring `arr` holds the elements `xs` from `off` on; `cell` is a slot with or without one. -/
structure Window (cell : Option T → S) (arr : List S) (off sz cap : Nat) (xs : List T) : Prop where
  pow : PowerCap cap
  size : sz = xs.length
  bounded : xs.length ≤ cap
  holds : Holds arr off cap fun i => cell xs[i]?

namespace Window

variable {cell : Option T → S} {arr arr' : List S} {off sz cap : Nat} {xs : List T}

theorem make {e : Nat} (he : e < 64) :
    Window cell (List.replicate (2 ^ e) (cell none)) 0 0 (2 ^ e) ([] : List T) where
  pow := ⟨e, he, rfl⟩
  size := rfl
  bounded := Nat.zero_le _
  holds := (Holds.replicate (Nat.two_pow_pos e)).congr rfl fun _ _ => rfl

variable (h : Window cell arr off sz cap xs)

include h

theorem length : arr.length = cap := h.holds.length

theorem slot {i : Nat} (hi : i < cap) :
    arr[toIndex off cap i]? = some (cell xs[i]?) := by
  rw [h.pow.toIndex_eq]
  exact h.holds.slot i hi

theorem toIndex_lt (i : Nat) : toIndex off cap i < arr.length := by
  rw [h.pow.toIndex_eq, h.length]
  exact Nat.mod_lt _ h.pow.pos

theorem set_empty {v : Nat} (hv : v < cap) :
    Holds (arr.set (toIndex off cap v) (cell none)) off cap
      fun i => if v ≤ i ∧ i < v + 1 then cell none else cell xs[i]? := by
  rw [h.pow.toIndex_eq]
  refine Holds.extend (n := 0) (h.holds.congr rfl fun i _ => ?_) hv
  exact if_neg (by omega)

theorem push (hfull : xs.length ≠ cap) (x : T) :
    Window cell (arr.set (toIndex off cap sz) (cell (some x))) off (sz + 1) cap (xs ++ [x]) where
  pow := h.pow
  size := by rw [h.size, List.length_append, List.length_singleton]
  bounded := by
    rw [List.length_append, List.length_singleton]
    exact Nat.lt_of_le_of_ne h.bounded hfull
  holds := by
    rw [h.pow.toIndex_eq, h.size]
    refine (h.holds.set (Nat.lt_of_le_of_ne h.bounded hfull) _).congr rfl fun i _ => ?_
    by_cases hi : i = xs.length
    · subst hi
      rw [Function.update_self, List.getElem?_concat_length]
    · rw [Function.update_of_ne hi]
      congr 1
      rcases Nat.lt_or_gt_of_ne hi with hlt | hgt
      · exact List.getElem?_append_left hlt
      · rw [List.getElem?_eq_none hgt.le, List.getElem?_eq_none]
        rw [List.length_append, List.length_singleton]
        exact hgt

theorem front {n : Nat} (hn : n ≤ xs.length)
    (hholds : Holds arr' off cap fun i => if 0 ≤ i ∧ i < 0 + n then cell none else cell xs[i]?) :
    Window cell arr' (sizeT (off + n)) (sz - n) cap (xs.drop n) where
  pow := h.pow
  size := by rw [h.size, List.length_drop]
  bounded := by
    rw [List.length_drop]
    exact (Nat.sub_le _ _).trans h.bounded
  holds := by
    refine (hholds.rotate n).congr (h.pow.sizeT_mod _) fun i hi => ?_
    have hcap := h.bounded
    rw [List.getElem?_drop]
    by_cases hwrap : i + n < cap
    · rw [Nat.mod_eq_of_lt hwrap, if_neg (by omega), Nat.add_comm]
    · have hmod : (i + n) % cap = i + n - cap := by
        rw [Nat.mod_eq_sub_mod (Nat.not_lt.1 hwrap)]
        exact Nat.mod_eq_of_lt (by omega)
      rw [hmod, if_pos (by omega), List.getElem?_eq_none (by omega)]

theorem back {n k : Nat} (hk : n + k = xs.length)
    (hholds : Holds arr' off cap fun i => if n ≤ i ∧ i < n + k then cell none else cell xs[i]?) :
    Window cell arr' off n cap (xs.take n) where
  pow := h.pow
  size := by rw [List.length_take, Nat.min_eq_left (by omega)]
  bounded := (List.length_take_le _ _).trans (by have := h.bounded; omega)
  holds := by
    refine hholds.congr rfl fun i _ => ?_
    by_cases hi : i < n
    · rw [if_neg (by omega), List.getElem?_take_of_lt hi]
    · rw [List.getElem?_eq_none (l := xs.take n)]
      · split
        · rfl
        · rw [List.getElem?_eq_none (by omega)]
      · rw [List.length_take]
        omega

theorem sz_pos (hne : xs ≠ []) : 0 < sz := h.size ▸ List.length_pos_of_ne_nil hne

theorem tail (hne : xs ≠ []) :
    Window cell (arr.set (toIndex off cap 0) (cell none)) (sizeT (off + 1)) (sz - 1) cap xs.tail := by
  have hw := h.front (List.length_pos_of_ne_nil hne) (h.set_empty h.pow.pos)
  rwa [List.drop_one] at hw

theorem dropLast (hne : xs ≠ []) :
    Window cell (arr.set (toIndex off cap (sz - 1)) (cell none)) off (sz - 1) cap xs.dropLast := by
  have hpos := h.sz_pos hne
  have hbounded := h.bounded
  have hsize := h.size
  have hw := h.back (show sz - 1 + 1 = xs.length by omega) (h.set_empty (by omega))
  rwa [hsize, ← List.dropLast_eq_take, ← hsize] at hw

end Window

/-! ## The simple queue -/

namespace SimplePow2CyclicQueue

variable [Inhabited T] {q : SimplePow2CyclicQueue T} {xs : List T}

/-- A queue with the elements `xs`; its other slots hold `T{}`. -/
def Rep (q : SimplePow2CyclicQueue T) (xs : List T) : Prop :=
  Window (·.getD default) q.dataArr q.off q.sz q.cap xs

variable (h : q.Rep xs)

include h

theorem Rep.store_eq (i : Nat) (x : T) :
    q.store i x = .ok { q with dataArr := q.dataArr.set (toIndex q.off q.cap i) x } :=
  if_pos (h.toIndex_lt i)

theorem fillTask_ok {v n : Nat} (hv : v + n ≤ q.cap) :
    ∃ arr, q.fillTask v n = .ok { q with dataArr := arr } ∧
      Holds arr q.off q.cap fun i => if v ≤ i ∧ i < v + n then default else (xs[i]?).getD default := by
  obtain ⟨e, he, hcap⟩ := h.pow
  have hle : q.cap ≤ 2 ^ 63 := hcap ▸ Nat.pow_le_pow_right (by decide) (by omega)
  have hfirst : (q.off + v) % q.cap < q.cap := Nat.mod_lt _ h.pow.pos
  have hlen : q.dataArr.length = q.cap := h.length
  have hlast : sizeT ((q.off + v) % q.cap + n) = (q.off + v) % q.cap + n := sizeT_of_lt (by omega)
  have hwrap : subT ((q.off + v) % q.cap + n) (min q.cap ((q.off + v) % q.cap + n)) =
      (q.off + v) % q.cap + n - min q.cap ((q.off + v) % q.cap + n) := subT_of_le (by omega) (by omega)
  refine ⟨_, ?_, h.holds.fill hv default⟩
  unfold fillTask
  rw [h.pow.toIndex_eq]
  simp only [hlast, hwrap]
  have hsecond : (q.off + v) % q.cap + n - min q.cap ((q.off + v) % q.cap + n) ≤
      (fillRange q.dataArr ((q.off + v) % q.cap) (min q.cap ((q.off + v) % q.cap + n)) default).length := by
    rw [length_fillRange]
    omega
  rw [fill, if_pos ⟨by omega, by omega⟩, ok_bind, fill, if_pos ⟨Nat.zero_le _, hsecond⟩]

/-- **Erased slots are reset**, in one piece or in two, or one by one. -/
theorem defaultizeRange_ok (nothrowCopy : Bool) {v n : Nat} (hv : v + n ≤ q.cap) :
    ∃ arr, q.defaultizeRange nothrowCopy v n = .ok { q with dataArr := arr } ∧
      Holds arr q.off q.cap fun i => if v ≤ i ∧ i < v + n then default else (xs[i]?).getD default := by
  cases nothrowCopy with
  | true => exact fillTask_ok h hv
  | false =>
    have hcap := h.pow.lt
    have hloop : ∃ q', forLoop (fun i q => q.store (sizeT (v + i)) default) n q = .ok q' ∧
        ∃ arr, q' = { q with dataArr := arr } ∧ Holds arr q.off q.cap fun j =>
          if v ≤ j ∧ j < v + n then default else (xs[j]?).getD default := by
      refine forLoop_ok (fun i (q' : SimplePow2CyclicQueue T) => ∃ arr, q' = { q with dataArr := arr } ∧
        Holds arr q.off q.cap fun j => if v ≤ j ∧ j < v + i then default else (xs[j]?).getD default)
        ⟨q.dataArr, rfl, h.holds.congr rfl fun j _ => if_neg (by omega)⟩ ?_
      rintro i hi _ ⟨arr, rfl, hholds⟩
      have hlt : (q.off + (v + i)) % q.cap < arr.length := by
        rw [hholds.length]
        exact Nat.mod_lt _ h.pow.pos
      refine ⟨_, ?_, _, rfl, hholds.extend (by omega)⟩
      simp only [store, h.pow.toIndex_eq, sizeT_of_lt (show v + i < 2 ^ 64 by omega), if_pos hlt]
    obtain ⟨_, e, arr, rfl, hholds⟩ := hloop
    exact ⟨arr, e, hholds⟩

theorem resize_ok (nothrowCopy : Bool) (newSz : Nat) :
    ∃ q', q.resize nothrowCopy newSz = .ok (q', ((Op.resize newSz none).spec q.cap xs).2) ∧
      q'.Rep ((Op.resize newSz none).spec q.cap xs).1 ∧ q'.cap = q.cap := by
  have hsize : q.sz = xs.length := h.size
  unfold resize
  simp only [Op.spec, Option.getD_none, Nat.lt_irrefl, if_false]
  by_cases hcap : q.cap < newSz
  · rw [if_pos hcap, if_pos hcap]
    exact ⟨q, rfl, h, rfl⟩
  rw [if_neg hcap, if_neg hcap]
  by_cases hgrow : newSz ≥ q.sz
  · -- the slots behind the window are defaults already
    rw [if_pos hgrow]
    refine ⟨{ q with sz := newSz }, ?_, ?_, rfl⟩
    · split <;> rfl
    have hrep : ∀ k, xs.length + k ≤ q.cap → xs.length + k = newSz →
        Rep { q with sz := newSz } (xs ++ List.replicate k default) := by
      intro k hk hnew
      refine ⟨h.pow, by simp [hnew], by simpa using hk, h.holds.congr rfl fun i _ => ?_⟩
      rw [List.getElem?_append]
      split
      · rfl
      · next hi =>
        rw [List.getElem?_eq_none (l := xs) (Nat.not_lt.1 hi), List.getElem?_replicate]
        split <;> rfl
    split
    · next hle =>
      rw [List.take_of_length_le (by omega)]
      simpa using hrep 0 (by omega) (by omega)
    · exact hrep (newSz - xs.length) (by omega) (by omega)
  · rw [if_neg hgrow, if_pos (by omega)]
    have hle : newSz + (q.sz - newSz) ≤ q.cap := by
      have : xs.length ≤ q.cap := h.bounded
      omega
    obtain ⟨arr, e, hholds⟩ := defaultizeRange_ok h nothrowCopy hle
    have hback : newSz + (q.sz - newSz) = xs.length := by omega
    rw [e, ok_bind]
    exact ⟨_, rfl, h.back hback hholds, rfl⟩

theorem pushBack_ok (value : T) {thrown : Option T}
    (hclean : (Op.pushBack value thrown).Clean q.cap xs) :
    ∃ q', q.pushBack value thrown = .ok (q', ((Op.pushBack value thrown).spec q.cap xs).2) ∧
      q'.Rep ((Op.pushBack value thrown).spec q.cap xs).1 ∧ q'.cap = q.cap := by
  have hsize : q.sz = xs.length := h.size
  unfold pushBack
  simp only [Op.spec]
  by_cases hfull : xs.length = q.cap
  · rw [if_pos (hsize.trans hfull), if_pos hfull]
    exact ⟨q, rfl, h, rfl⟩
  rw [if_neg fun e => hfull (hsize.symm.trans e), if_neg hfull]
  cases thrown with
  | some x =>
    have hlt : xs.length < q.cap := Nat.lt_of_le_of_ne h.bounded hfull
    obtain rfl : x = default := hclean hlt
    -- the slot held a default, and holds one again
    have hw : Rep { q with dataArr := q.dataArr.set (toIndex q.off q.cap q.sz) default } xs := by
      refine ⟨h.pow, h.size, h.bounded, ?_⟩
      rw [h.pow.toIndex_eq, hsize]
      refine (h.holds.set hlt default).congr rfl fun i _ => ?_
      by_cases hi : i = xs.length
      · subst hi
        rw [Function.update_self, List.getElem?_eq_none (Nat.le_refl _), Option.getD_none]
      · rw [Function.update_of_ne hi]
    simp only [h.store_eq, Option.isSome_some, if_true]
    exact ⟨_, rfl, hw, rfl⟩
  | none =>
    simp only [h.store_eq, Option.isSome_none, Bool.false_eq_true, if_false]
    exact ⟨_, rfl, h.push hfull value, rfl⟩

theorem popFront_ok (hne : xs ≠ []) :
    ∃ q', q.popFront = .ok q' ∧ q'.Rep xs.tail ∧ q'.cap = q.cap := by
  rw [popFront, if_neg (h.sz_pos hne).ne', h.store_eq]
  exact ⟨_, rfl, h.tail hne, rfl⟩

theorem popBack_ok (hne : xs ≠ []) :
    ∃ q', q.popBack = .ok q' ∧ q'.Rep xs.dropLast ∧ q'.cap = q.cap := by
  rw [popBack, if_neg (h.sz_pos hne).ne', h.store_eq]
  exact ⟨_, rfl, h.dropLast hne, rfl⟩

theorem eraseFrontRange_ok (nothrowCopy : Bool) {n : Nat} (hn : n ≤ xs.length) :
    ∃ q', q.eraseFrontRange nothrowCopy n = .ok q' ∧ q'.Rep (xs.drop n) ∧ q'.cap = q.cap := by
  have hsize : q.sz = xs.length := h.size
  have hbounded : xs.length ≤ q.cap := h.bounded
  obtain ⟨arr, e, hholds⟩ := defaultizeRange_ok h nothrowCopy (show 0 + n ≤ q.cap by omega)
  rw [eraseFrontRange, if_neg (by omega), e]
  exact ⟨_, rfl, h.front hn hholds, rfl⟩

theorem shrink_ok (nothrowCopy : Bool) {n : Nat} (hn : n ≤ xs.length) :
    ∃ q', q.resize nothrowCopy n = .ok (q', .success) ∧ q'.Rep (xs.take n) ∧ q'.cap = q.cap := by
  have hbounded : xs.length ≤ q.cap := h.bounded
  have hcap : ¬ q.cap < n := by omega
  have hr := resize_ok h nothrowCopy n
  rwa [Op.spec, if_neg hcap, if_pos hn] at hr

/-- **A call does to the simple queue what it does to the deque.** -/
theorem Rep.run_ok (nothrowCopy : Bool) {op : Op T} (hop : op.Allowed xs)
    (hclean : op.Clean q.cap xs) :
    ∃ q', op.runSimple nothrowCopy q = .ok (q', (op.spec q.cap xs).2) ∧
      q'.Rep (op.spec q.cap xs).1 ∧ q'.cap = q.cap := by
  have hsize : q.sz = xs.length := h.size
  cases op with
  | pushBack value thrown => exact pushBack_ok h value hclean
  | popFront =>
    obtain ⟨q', e, hrep, hcap⟩ := popFront_ok h hop
    exact ⟨q', by rw [Op.runSimple, e]; rfl, hrep, hcap⟩
  | popBack =>
    obtain ⟨q', e, hrep, hcap⟩ := popBack_ok h hop
    exact ⟨q', by rw [Op.runSimple, e]; rfl, hrep, hcap⟩
  | resize newSz throwsAt =>
    obtain rfl : throwsAt = none := hclean
    exact resize_ok h nothrowCopy newSz
  | eraseFrontRange n =>
    obtain ⟨q', e, hrep, hcap⟩ := eraseFrontRange_ok h nothrowCopy hop
    exact ⟨q', by rw [Op.runSimple, e]; rfl, hrep, hcap⟩
  | eraseBackRange n =>
    have hn : ¬ n > q.sz := hsize ▸ Nat.not_lt.2 hop
    obtain ⟨q', e, hrep, hcap⟩ := shrink_ok h nothrowCopy (show q.sz - n ≤ xs.length by omega)
    rw [hsize] at hrep
    exact ⟨q', by rw [Op.runSimple, eraseBackRange, if_neg hn, e]; rfl, hrep, hcap⟩
  | clear =>
    obtain ⟨q', e, hrep, hcap⟩ := shrink_ok h nothrowCopy (Nat.zero_le xs.length)
    exact ⟨q', by rw [Op.runSimple, clear, e]; rfl, hrep, hcap⟩

end SimplePow2CyclicQueue

/-! ## The queue over raw storage -/

namespace NontrivialPow2CyclicQueue

variable {q : NontrivialPow2CyclicQueue T} {xs : List T}

/-- A queue with the elements `xs`; its other slots are raw storage. -/
def Rep (q : NontrivialPow2CyclicQueue T) (xs : List T) : Prop :=
  Window id q.dataArr q.off q.sz q.cap xs

variable {f : Nat → Option T} {v n : Nat}

theorem fillLoop_ok {y : Option T}
    {body : Nat → NontrivialPow2CyclicQueue T → Except Fault (NontrivialPow2CyclicQueue T)}
    (h : Holds q.dataArr q.off q.cap f) (hv : v + n ≤ q.cap)
    (hbody : ∀ i, v ≤ i → i < v + n → ∀ arr, arr[(q.off + i) % q.cap]? = some (f i) →
      body (i - v) { q with dataArr := arr } =
        .ok { q with dataArr := arr.set ((q.off + i) % q.cap) y }) :
    ∃ arr, forLoop body n q = .ok { q with dataArr := arr } ∧
      Holds arr q.off q.cap fun i => if v ≤ i ∧ i < v + n then y else f i := by
  have hloop : ∃ q', forLoop body n q = .ok q' ∧ ∃ arr, q' = { q with dataArr := arr } ∧
      Holds arr q.off q.cap fun i => if v ≤ i ∧ i < v + n then y else f i := by
    refine forLoop_ok (fun i (q' : NontrivialPow2CyclicQueue T) => ∃ arr, q' = { q with dataArr := arr } ∧
      Holds arr q.off q.cap fun j => if v ≤ j ∧ j < v + i then y else f j)
      ⟨q.dataArr, rfl, h.congr rfl fun j _ => if_neg (by omega)⟩ ?_
    rintro i hi _ ⟨arr, rfl, hholds⟩
    have hslot := hholds.slot (v + i) (by omega)
    rw [if_neg (by omega)] at hslot
    have hrun := hbody (v + i) (by omega) (by omega) arr hslot
    rw [Nat.add_sub_cancel_left] at hrun
    exact ⟨_, hrun, _, rfl, hholds.extend (by omega)⟩
  obtain ⟨_, e, arr, rfl, hholds⟩ := hloop
  exact ⟨arr, e, hholds⟩

theorem dispatchDestroy_ok (hpow : PowerCap q.cap) (h : Holds q.dataArr q.off q.cap f)
    (hv : v + n ≤ q.cap) (hlive : ∀ i, v ≤ i → i < v + n → ∃ x, f i = some x) :
    ∃ arr, q.dispatchDestroy v n = .ok { q with dataArr := arr } ∧
      Holds arr q.off q.cap fun i => if v ≤ i ∧ i < v + n then none else f i := by
  have hcap := hpow.lt
  refine fillLoop_ok h hv fun i hi hn arr hslot => ?_
  obtain ⟨x, hx⟩ := hlive i hi hn
  rw [hx] at hslot
  simp only [destroyAt, hpow.toIndex_eq, Nat.add_sub_cancel' hi, sizeT_of_lt (show i < 2 ^ 64 by omega),
    hslot]

theorem constructLoop_ok [Inhabited T] (hpow : PowerCap q.cap) (h : Holds q.dataArr q.off q.cap f)
    (hv : v + n ≤ q.cap) (hraw : ∀ i, v ≤ i → i < v + n → f i = none) :
    ∃ arr, forLoop (fun i q => q.construct (sizeT (v + i)) default) n q =
        .ok { q with dataArr := arr } ∧
      Holds arr q.off q.cap fun i => if v ≤ i ∧ i < v + n then some default else f i := by
  have hcap := hpow.lt
  refine fillLoop_ok h hv fun i hi hn arr hslot => ?_
  rw [hraw i hi hn] at hslot
  simp only [construct, hpow.toIndex_eq, Nat.add_sub_cancel' hi, sizeT_of_lt (show i < 2 ^ 64 by omega),
    hslot]

variable (h : q.Rep xs)

include h

/-- **Growth constructs every new element or none.** -/
theorem grow_ok [Inhabited T] {n : Nat} (hn : xs.length + n ≤ q.cap)
    (throwsAt : Option Nat) :
    (throwsAt.getD n < n → ∃ arr, q.dispatchDefaultInitialize q.sz n throwsAt =
        .ok ({ q with dataArr := arr }, .wrapped) ∧ Rep { q with dataArr := arr } xs) ∧
    (¬ throwsAt.getD n < n → ∃ arr, q.dispatchDefaultInitialize q.sz n throwsAt =
        .ok ({ q with dataArr := arr }, .success) ∧
      Rep { q with dataArr := arr, sz := q.sz + n } (xs ++ List.replicate n default)) := by
  have hsize : q.sz = xs.length := h.size
  have hraw : ∀ i, q.sz ≤ i → xs[i]? = none := fun i hi => List.getElem?_eq_none (by omega)
  obtain ⟨arr, e, hholds⟩ := constructLoop_ok h.pow h.holds (v := q.sz) (n := min n (throwsAt.getD n))
    (by omega) fun i hi _ => hraw i hi
  constructor
  · intro hthrow
    -- what was built is destroyed again
    obtain ⟨arr', e', hholds'⟩ := dispatchDestroy_ok (q := { q with dataArr := arr }) h.pow hholds
      (show q.sz + min n (throwsAt.getD n) ≤ q.cap by omega) fun i hi hlt =>
        ⟨default, if_pos ⟨hi, hlt⟩⟩
    refine ⟨arr', ?_, h.pow, h.size, h.bounded, hholds'.congr rfl fun i _ => ?_⟩
    · rw [dispatchDefaultInitialize]
      simp only [e, ok_bind]
      rw [if_pos (by omega), e']
      rfl
    · by_cases hi : q.sz ≤ i ∧ i < q.sz + min n (throwsAt.getD n)
      · rw [if_pos hi, id, hraw i hi.1]
      · rw [if_neg hi, if_neg hi]
  · intro hthrow
    have hmin : min n (throwsAt.getD n) = n := Nat.min_eq_left (Nat.not_lt.1 hthrow)
    rw [hmin] at e hholds
    refine ⟨arr, ?_, h.pow, ?_, ?_, hholds.congr rfl fun i _ => ?_⟩
    · rw [dispatchDefaultInitialize]
      simp only [hmin, e, ok_bind]
      rw [if_neg (Nat.lt_irrefl n)]
      rfl
    · simp [hsize]
    · simpa using hn
    · rw [List.getElem?_append]
      by_cases hi : i < xs.length
      · rw [if_pos hi, if_neg (by omega)]
      · rw [if_neg hi, List.getElem?_replicate]
        by_cases hin : i - xs.length < n
        · rw [if_pos hin, if_pos (by omega), id]
        · rw [if_neg hin, if_neg (by omega), hraw i (by omega)]

theorem resize_ok [Inhabited T] (newSz : Nat) (throwsAt : Option Nat) :
    ∃ q', q.resize newSz throwsAt = .ok (q', ((Op.resize newSz throwsAt).spec q.cap xs).2) ∧
      q'.Rep ((Op.resize newSz throwsAt).spec q.cap xs).1 ∧ q'.cap = q.cap := by
  have hsize : q.sz = xs.length := h.size
  have hbounded : xs.length ≤ q.cap := h.bounded
  unfold resize
  simp only [Op.spec]
  by_cases hcap : q.cap < newSz
  · rw [if_pos hcap, if_pos hcap]
    exact ⟨q, rfl, h, rfl⟩
  rw [if_neg hcap, if_neg hcap]
  by_cases hsame : newSz = q.sz
  · rw [if_pos hsame, if_pos (by omega), List.take_of_length_le (by omega)]
    exact ⟨q, rfl, h, rfl⟩
  rw [if_neg hsame]
  by_cases hgrow : newSz > q.sz
  · have hnew : q.sz + (newSz - xs.length) = newSz := by omega
    obtain ⟨hthrow, hdone⟩ := grow_ok h (n := newSz - xs.length) (by omega) throwsAt
    rw [if_pos hgrow, if_neg (by omega), hsize]
    rw [hsize] at hthrow hdone hnew
    split
    · next ht =>
      obtain ⟨arr, e, hrep⟩ := hthrow ht
      rw [e, ok_bind]
      exact ⟨_, rfl, hrep, rfl⟩
    · next ht =>
      obtain ⟨arr, e, hrep⟩ := hdone ht
      rw [e, ok_bind]
      rw [hnew] at hrep
      exact ⟨_, rfl, hrep, rfl⟩
  · have hback : newSz + (q.sz - newSz) = xs.length := by omega
    have hle : newSz + (q.sz - newSz) ≤ q.cap := by omega
    obtain ⟨arr, e, hholds⟩ := dispatchDestroy_ok h.pow h.holds hle fun i _ hi =>
      ⟨_, List.getElem?_eq_getElem (show i < xs.length by omega)⟩
    rw [if_neg hgrow, if_pos (by omega), e, ok_bind]
    exact ⟨_, rfl, h.back hback hholds, rfl⟩

theorem construct_eq {i : Nat} (hi : i < q.cap) (hraw : xs.length ≤ i) (x : T) :
    q.construct i x = .ok { q with dataArr := q.dataArr.set (toIndex q.off q.cap i) (some x) } := by
  have hslot : q.dataArr[toIndex q.off q.cap i]? = some none := by
    rw [h.slot hi, List.getElem?_eq_none hraw, id]
  simp only [construct, hslot]

theorem destroyAt_eq {i : Nat} (hi : i < q.sz) :
    q.destroyAt i = .ok { q with dataArr := q.dataArr.set (toIndex q.off q.cap i) none } := by
  replace hi : i < xs.length := h.size ▸ hi
  have hslot : q.dataArr[toIndex q.off q.cap i]? = some (some xs[i]) := by
    rw [h.slot (hi.trans_le h.bounded), List.getElem?_eq_getElem hi, id]
  simp only [destroyAt, hslot]

theorem pushBack_ok [Inhabited T] (value : T) (thrown : Option T) :
    ∃ q', q.pushBack value thrown.isSome = .ok (q', ((Op.pushBack value thrown).spec q.cap xs).2) ∧
      q'.Rep ((Op.pushBack value thrown).spec q.cap xs).1 ∧ q'.cap = q.cap := by
  have hsize : q.sz = xs.length := h.size
  unfold pushBack
  simp only [Op.spec]
  by_cases hfull : xs.length = q.cap
  · rw [if_pos (hsize.trans hfull), if_pos hfull]
    exact ⟨q, rfl, h, rfl⟩
  rw [if_neg fun e => hfull (hsize.symm.trans e), if_neg hfull]
  split
  · exact ⟨q, rfl, h, rfl⟩
  · have hlt : q.sz < q.cap := hsize ▸ Nat.lt_of_le_of_ne h.bounded hfull
    rw [construct_eq h hlt hsize.ge]
    exact ⟨_, rfl, h.push hfull value, rfl⟩

theorem popFront_ok (hne : xs ≠ []) :
    ∃ q', q.popFront = .ok q' ∧ q'.Rep xs.tail ∧ q'.cap = q.cap := by
  have hpos := h.sz_pos hne
  rw [popFront, if_neg hpos.ne', destroyAt_eq h hpos]
  exact ⟨_, rfl, h.tail hne, rfl⟩

theorem popBack_ok (hne : xs ≠ []) :
    ∃ q', q.popBack = .ok q' ∧ q'.Rep xs.dropLast ∧ q'.cap = q.cap := by
  have hpos := h.sz_pos hne
  rw [popBack, if_neg hpos.ne', destroyAt_eq h (Nat.sub_lt hpos Nat.one_pos)]
  exact ⟨_, rfl, h.dropLast hne, rfl⟩

theorem eraseFrontRange_ok {n : Nat} (hn : n ≤ xs.length) :
    ∃ q', q.eraseFrontRange n = .ok q' ∧ q'.Rep (xs.drop n) ∧ q'.cap = q.cap := by
  refine forLoop_ok (fun i (q' : NontrivialPow2CyclicQueue T) => q'.Rep (xs.drop i) ∧ q'.cap = q.cap)
    ⟨h, rfl⟩ ?_
  rintro i hi q' ⟨hrep, hcap⟩
  have hne : xs.drop i ≠ [] := by
    rw [← List.length_pos_iff, List.length_drop]
    omega
  obtain ⟨q'', e, hrep', hcap'⟩ := popFront_ok hrep hne
  rw [List.tail_drop] at hrep'
  exact ⟨q'', e, hrep', hcap'.trans hcap⟩

theorem eraseBackRange_ok {n : Nat} (hn : n ≤ xs.length) :
    ∃ q', q.eraseBackRange n = .ok q' ∧ q'.Rep (xs.take (xs.length - n)) ∧ q'.cap = q.cap := by
  refine forLoop_ok (fun i (q' : NontrivialPow2CyclicQueue T) =>
    q'.Rep (xs.take (xs.length - i)) ∧ q'.cap = q.cap) ?_ ?_
  · rw [Nat.sub_zero, List.take_length]
    exact ⟨h, rfl⟩
  rintro i hi q' ⟨hrep, hcap⟩
  have hlen : (xs.take (xs.length - i)).length = xs.length - i := by
    rw [List.length_take]
    omega
  have hne : xs.take (xs.length - i) ≠ [] := by
    rw [← List.length_pos_iff, hlen]
    omega
  obtain ⟨q'', e, hrep', hcap'⟩ := popBack_ok hrep hne
  rw [List.dropLast_eq_take, hlen, List.take_take, Nat.min_eq_left (Nat.sub_le _ _)] at hrep'
  exact ⟨q'', e, hrep', hcap'.trans hcap⟩

/-- **A call does to the queue over raw storage what it does to the deque.** -/
theorem Rep.run_ok [Inhabited T] {op : Op T} (hop : op.Allowed xs) :
    ∃ q', op.runNontrivial q = .ok (q', (op.spec q.cap xs).2) ∧
      q'.Rep (op.spec q.cap xs).1 ∧ q'.cap = q.cap := by
  cases op with
  | pushBack value thrown => exact pushBack_ok h value thrown
  | popFront =>
    obtain ⟨q', e, hrep, hcap⟩ := popFront_ok h hop
    exact ⟨q', by rw [Op.runNontrivial, e]; rfl, hrep, hcap⟩
  | popBack =>
    obtain ⟨q', e, hrep, hcap⟩ := popBack_ok h hop
    exact ⟨q', by rw [Op.runNontrivial, e]; rfl, hrep, hcap⟩
  | resize newSz throwsAt => exact resize_ok h newSz throwsAt
  | eraseFrontRange n =>
    obtain ⟨q', e, hrep, hcap⟩ := eraseFrontRange_ok h hop
    exact ⟨q', by rw [Op.runNontrivial, e]; rfl, hrep, hcap⟩
  | eraseBackRange n =>
    obtain ⟨q', e, hrep, hcap⟩ := eraseBackRange_ok h hop
    exact ⟨q', by rw [Op.runNontrivial, e]; rfl, hrep, hcap⟩
  | clear =>
    have hsize : q.sz = xs.length := h.size
    obtain ⟨q', e, hrep, hcap⟩ := eraseBackRange_ok h (Nat.le_refl xs.length)
    rw [Nat.sub_self, List.take_zero] at hrep
    exact ⟨q', by rw [Op.runNontrivial, clear, hsize, e]; rfl, hrep, hcap⟩

end NontrivialPow2CyclicQueue

/-! ## Runs -/

/-- What a simple queue is, given its elements: its size and capacity, each element from the front,
and `T{}` in every other slot. -/
structure SimplePow2CyclicQueue.Represents [Inhabited T] (q : SimplePow2CyclicQueue T) (cap : Nat)
    (xs : List T) : Prop where
  cap_eq : q.cap = cap
  size : q.sz = xs.length
  bounded : xs.length ≤ cap
  get : ∀ i x, xs[i]? = some x → q.get i = .ok x
  outside : ∀ p x, q.dataArr[p]? = some x → (∀ i < q.sz, toIndex q.off q.cap i ≠ p) → x = default

/-- The same of a queue over raw storage, where every other slot holds no object. -/
structure NontrivialPow2CyclicQueue.Represents (q : NontrivialPow2CyclicQueue T) (cap : Nat)
    (xs : List T) : Prop where
  cap_eq : q.cap = cap
  size : q.sz = xs.length
  bounded : xs.length ≤ cap
  get : ∀ i x, xs[i]? = some x → q.get i = .ok x
  outside : ∀ p x, q.dataArr[p]? = some x → (∀ i < q.sz, toIndex q.off q.cap i ≠ p) → x = none

theorem Window.outside {arr : List S} {off sz cap : Nat} (h : Window cell arr off sz cap xs) {p : Nat}
    {x : S} (hp : arr[p]? = some x) (hout : ∀ i < sz, toIndex off cap i ≠ p) : x = cell none := by
  have hlt : p < cap := h.length ▸ (List.getElem?_eq_some_iff.1 hp).1
  obtain ⟨i, hi, rfl⟩ : ∃ i < cap, (off + i) % cap = p := slot_surj hlt
  have hle : sz ≤ i := by
    by_contra hin
    exact hout i (Nat.not_le.1 hin) (h.pow.toIndex_eq off i)
  rw [h.holds.slot i hi, List.getElem?_eq_none (h.size ▸ hle)] at hp
  exact (Option.some.inj hp).symm

theorem Window.slot_some {arr : List S} {off sz cap : Nat} (h : Window cell arr off sz cap xs) {i : Nat}
    {x : T} (hx : xs[i]? = some x) :
    arr[toIndex off cap i]? = some (cell (some x)) := by
  have hi : i < xs.length := (List.getElem?_eq_some_iff.1 hx).1
  rw [h.slot (hi.trans_le h.bounded), hx]

theorem SimplePow2CyclicQueue.Rep.represents [Inhabited T] {q : SimplePow2CyclicQueue T} (h : q.Rep xs) :
    q.Represents q.cap xs where
  cap_eq := rfl
  size := h.size
  bounded := h.bounded
  get i x hx := by simp only [get, h.slot_some hx, Option.getD_some]
  outside p x hp hout := h.outside hp hout

theorem NontrivialPow2CyclicQueue.Rep.represents (h : q.Rep xs) : q.Represents q.cap xs where
  cap_eq := rfl
  size := h.size
  bounded := h.bounded
  get i x hx := by simp only [get, h.slot_some hx, id]
  outside p x hp hout := h.outside hp hout

theorem SimplePow2CyclicQueue.make_ok [Inhabited T] {q : SimplePow2CyclicQueue T} (h : make e = .ok q) :
    q.Rep [] := by
  obtain ⟨cap, hcap, h⟩ := bind_eq_ok h
  obtain rfl := Except.ok.inj h
  obtain ⟨he, rfl⟩ := shiftOne_eq_ok hcap
  exact Window.make he

theorem NontrivialPow2CyclicQueue.make_ok (h : make e = .ok q) : q.Rep [] := by
  obtain ⟨cap, hcap, h⟩ := bind_eq_ok h
  obtain rfl := Except.ok.inj h
  obtain ⟨he, rfl⟩ := shiftOne_eq_ok hcap
  exact Window.make he

theorem simple_refines [Inhabited T] (nothrowCopy : Bool) {q0 : SimplePow2CyclicQueue T}
    (hmake : SimplePow2CyclicQueue.make e = .ok q0)
    (hrun : SpecRun (fun xs op => op.Allowed xs ∧ op.Clean q0.cap xs) q0.cap ops xs answers) :
    ∃ q, runOps (Op.runSimple nothrowCopy) q0 ops = .ok (q, answers) ∧ q.Represents q0.cap xs := by
  obtain ⟨q, e, hrep, hcap⟩ := runOps_ok (P := fun cap xs op => op.Allowed xs ∧ op.Clean cap xs)
    SimplePow2CyclicQueue.Rep SimplePow2CyclicQueue.cap
    (fun q xs op hrep hop => hrep.run_ok nothrowCopy hop.1 hop.2)
    (SimplePow2CyclicQueue.make_ok hmake) hrun
  exact ⟨q, e, hcap ▸ hrep.represents⟩

theorem nontrivial_refines [Inhabited T] {q0 : NontrivialPow2CyclicQueue T}
    (hmake : NontrivialPow2CyclicQueue.make e = .ok q0)
    (hrun : SpecRun Op.Allowed q0.cap ops xs answers) :
    ∃ q, runOps Op.runNontrivial q0 ops = .ok (q, answers) ∧ q.Represents q0.cap xs := by
  obtain ⟨q, e, hrep, hcap⟩ := runOps_ok (P := fun _ xs op => op.Allowed xs)
    NontrivialPow2CyclicQueue.Rep NontrivialPow2CyclicQueue.cap
    (fun q xs op hrep hop => hrep.run_ok hop) (NontrivialPow2CyclicQueue.make_ok hmake) hrun
  exact ⟨q, e, hcap ▸ hrep.represents⟩

/-- **Both queues are bounded deques**, the simple one as long as no push that fails leaves a value
in its slot. -/
theorem deque_refined [Inhabited T] (nothrowCopy : Bool) (e : Nat) (ops : List (Op T)) (xs : List T)
    (answers : List Exception) :
    (∀ q0, SimplePow2CyclicQueue.make e = .ok q0 →
      SpecRun (fun xs op => op.Allowed xs ∧ op.Clean q0.cap xs) q0.cap ops xs answers →
      ∃ q, runOps (Op.runSimple nothrowCopy) q0 ops = .ok (q, answers) ∧ q.Represents q0.cap xs) ∧
    ∀ q0, NontrivialPow2CyclicQueue.make e = .ok q0 → SpecRun Op.Allowed q0.cap ops xs answers →
      ∃ q, runOps Op.runNontrivial q0 ops = .ok (q, answers) ∧ q.Represents q0.cap xs :=
  ⟨fun _ hmake hrun => simple_refines nothrowCopy hmake hrun,
    fun _ hmake hrun => nontrivial_refines hmake hrun⟩

/-- Two slots: the third element wraps, the fourth is rejected, and growth finds defaults. -/
def sampleOps : List (Op Nat) :=
  [.pushBack 1 none, .pushBack 2 none, .popFront, .pushBack 3 none, .pushBack 4 none, .resize 1 none,
    .resize 2 none]

def sampleAnswers : List Exception :=
  [.success, .success, .success, .success, .queueFull, .success, .success]

theorem sample_run :
    SpecRun (fun xs op => op.Allowed xs ∧ op.Clean 2 xs) 2 sampleOps [2, 0] sampleAnswers := by
  have h0 : SpecRun (fun (xs : List Nat) op => op.Allowed xs ∧ op.Clean 2 xs) 2 [] [] [] := .nil
  have h1 := h0.snoc (.pushBack 1 none) (by decide)
  have h2 := h1.snoc (.pushBack 2 none) (by decide)
  have h3 := h2.snoc .popFront (by decide)
  have h4 := h3.snoc (.pushBack 3 none) (by decide)
  have h5 := h4.snoc (.pushBack 4 none) (by decide)
  have h6 := h5.snoc (.resize 1 none) (by decide)
  exact h6.snoc (.resize 2 none) (by decide)

theorem deque_refined_sample :
    (∃ q, runOps (Op.runSimple true) ⟨[0, 0], 0, 0, 2⟩ sampleOps = .ok (q, sampleAnswers) ∧
      q.Represents 2 [2, 0]) ∧
    ∃ q, runOps Op.runNontrivial ⟨[none, none], 0, 0, 2⟩ sampleOps = .ok (q, sampleAnswers) ∧
      q.Represents 2 [2, 0] := by
  obtain ⟨hsimple, hnontrivial⟩ := deque_refined true 1 sampleOps [2, 0] sampleAnswers
  refine ⟨hsimple ⟨[0, 0], 0, 0, 2⟩ rfl sample_run, hnontrivial ⟨[none, none], 0, 0, 2⟩ rfl ?_⟩
  exact sample_run.mono fun _ _ h => h.1

/-- A push whose assignment throws when it has copied the first field: the growth that follows finds
the half-assigned value. -/
theorem deque_refined_fails : ¬ ∀ (q0 : SimplePow2CyclicQueue (String × String)),
    SimplePow2CyclicQueue.make 1 = .ok q0 → ∀ (ops : List (Op (String × String)))
    (xs : List (String × String)) (answers : List Exception),
    SpecRun Op.Allowed q0.cap ops xs answers →
    ∃ q, runOps (Op.runSimple false) q0 ops = .ok (q, answers) ∧ q.Represents q0.cap xs := by
  intro hall
  have h0 : SpecRun (T := String × String) Op.Allowed 2 [] [] [] := .nil
  have h1 := h0.snoc (.pushBack ("a", "b") (some ("a", ""))) trivial
  have h2 := h1.snoc (.resize 1 none) trivial
  obtain ⟨q, e, hrep⟩ := hall ⟨[("", ""), ("", "")], 0, 0, 2⟩ rfl _ _ _ h2
  have hq : (⟨[("a", ""), ("", "")], 0, 1, 2⟩ : SimplePow2CyclicQueue (String × String)) = q :=
    congrArg Prod.fst (Except.ok.inj e)
  subst hq
  have hget := hrep.get 0 ("", "") rfl
  have hfirst : ("a", "") = (("", "") : String × String) := Except.ok.inj hget
  exact absurd hfirst (by decide)

end CyclicQueue
