import NeuralNetwork.InternalRest.Proof.ContainerCalls

/-!
# Where the items and the vectors are

The ledger of a container of vectors: no item is lost or returned twice (`Balanced`), every vector is
in one place (`Named`), and the leftovers with the vectors in the hands of `pop` are at most as many
as the calls of `pop` that run at a time (`Bounded`). `Kept` puts them together.
-/

namespace ContainerCalls

open Cpp Loop HandOver ListUpdate Mailbox World

variable {C κ T : Type} [DecidableEq κ] {s : Sections C κ T} {order : List κ}
  {hub : C → Hub κ (Vec T) Nat Nat} {w w' : World C κ T}

/-! ## No item is lost -/

def PushCall.succeeded (call : PushCall κ T) : List T :=
  ((call.arr.zip call.exceptionArr).filter fun x => x.2 = .success).map Prod.fst

def PushCall.unsent (call : PushCall κ T) : List T := (call.todo.flatMap Prod.snd).map Prod.fst

/-- Every unsent item is at its own place, and not refused. -/
structure PushCall.Ordered (call : PushCall κ T) : Prop where
  size : call.exceptionArr.length = call.arr.length
  nodup : ((call.todo.flatMap Prod.snd).map Prod.snd).Nodup
  place : ∀ x ∈ call.todo.flatMap Prod.snd,
    call.arr[x.2]? = some x.1 ∧ call.exceptionArr[x.2]? = some .success

section

omit [DecidableEq κ]

theorem sum_succeeded (ψ : T → Nat) (call : PushCall κ T) :
    (call.succeeded.map ψ).sum = ((call.arr.zip call.exceptionArr).map fun x =>
      if x.2 = .success then ψ x.1 else 0).sum := by
  unfold PushCall.succeeded
  induction call.arr.zip call.exceptionArr with
  | nil => rfl
  | cons x l ih =>
    rw [List.filter_cons, List.map_cons, List.sum_cons, ← ih]
    by_cases hx : x.2 = .success
    · simp [hx]
    · simp [hx]

theorem zip_set {α β : Type} {l : List α} {m : List β} {i : Nat} {a : α} (h : l[i]? = some a)
    (b : β) : l.zip (m.set i b) = (l.zip m).set i (a, b) := by
  induction l generalizing m i with
  | nil => simp at h
  | cons x l ih =>
    cases m with
    | nil => simp
    | cons y m =>
      cases i with
      | zero =>
        obtain rfl : x = a := by simpa using h
        rfl
      | succ i =>
        simp only [List.set_cons_succ, List.zip_cons_cons, List.cons.injEq, true_and]
        exact ih (by simpa using h)

theorem zip_replicate_length {α β : Type} (l : List α) (b : β) :
    l.zip (List.replicate l.length b) = l.map (·, b) := by
  induction l with
  | nil => rfl
  | cons x l ih => simp [List.replicate_succ, ih]

theorem refuse_ok {arr : List T} {args : List (T × Nat)} :
    ∀ (exceptionArr : List ExceptionT), (args.map Prod.snd).Nodup →
      (∀ x ∈ args, arr[x.2]? = some x.1 ∧ exceptionArr[x.2]? = some .success) →
      (refuse exceptionArr args).length = exceptionArr.length ∧
        (∀ pos, pos ∉ args.map Prod.snd →
          (refuse exceptionArr args)[pos]? = exceptionArr[pos]?) ∧
        ∀ ψ : T → Nat, ((arr.zip (refuse exceptionArr args)).map fun x =>
            if x.2 = .success then ψ x.1 else 0).sum + ((args.map Prod.fst).map ψ).sum =
          ((arr.zip exceptionArr).map fun x => if x.2 = .success then ψ x.1 else 0).sum := by
  induction args with
  | nil =>
    intro exceptionArr _ _
    exact ⟨rfl, fun _ _ => rfl, fun ψ => rfl⟩
  | cons x args ih =>
    intro exceptionArr hnodup hplace
    rw [List.map_cons, List.nodup_cons] at hnodup
    obtain ⟨harr, hexc⟩ := hplace x List.mem_cons_self
    have hzip : (arr.zip exceptionArr)[x.2]? = some (x.1, .success) := by
      rw [List.getElem?_zip_eq_some]
      exact ⟨harr, hexc⟩
    obtain ⟨hlen, hkeep, hsum⟩ := ih (exceptionArr.set x.2 .resourceExhaustion)
      hnodup.2 fun y hy => by
        have hne : x.2 ≠ y.2 := fun he => hnodup.1 (he ▸ List.mem_map_of_mem hy)
        rw [List.getElem?_set_ne hne]
        exact hplace y (List.mem_cons_of_mem _ hy)
    refine ⟨hlen.trans List.length_set, fun pos hpos => ?_, fun ψ => ?_⟩
    · rw [List.map_cons, List.mem_cons, not_or] at hpos
      exact (hkeep pos hpos.2).trans (List.getElem?_set_ne (Ne.symm hpos.1))
    · have h1 := hsum ψ
      have h2 := sum_map_set (fun x : T × ExceptionT => if x.2 = .success then ψ x.1 else 0)
        (b := (x.1, .resourceExhaustion)) hzip
      rw [zip_set harr] at h1
      have hne : (ExceptionT.resourceExhaustion : ExceptionT) ≠ .success := by decide
      simp only [if_neg hne, if_true] at h2
      simp only [refuse, List.foldl_cons, List.map_cons, List.sum_cons] at h1 ⊢
      omega

def itemsWeight (ψ : T → Nat) (vec : Vec T) : Nat := (vec.items.map ψ).sum

/-- Every item whose status is `SUCCESS` is unsent, in a vector in flight, or was returned. -/
def Balanced (hub : C → Hub κ (Vec T) Nat Nat) (order : List κ) (w : World C κ T) : Prop :=
  ∀ ψ : T → Nat, (w.pushes.map fun call => (call.succeeded.map ψ).sum).sum =
    (w.pops.map fun call => (call.output.map ψ).sum).sum +
      w.inFlight hub order (itemsWeight ψ) +
      (w.pushes.map fun call => (call.unsent.map ψ).sum).sum

def Tidy (w : World C κ T) : Prop := ∀ call ∈ w.pushes, call.Ordered

theorem PushCall.Ordered.of_core {call call' : PushCall κ T} (h : call.core = call'.core)
    (ho : call.Ordered) : call'.Ordered := by
  obtain ⟨arr, exceptionArr, todo, phase⟩ := call
  obtain ⟨arr', exceptionArr', todo', phase'⟩ := call'
  simp only [PushCall.core, Prod.mk.injEq] at h
  obtain ⟨rfl, rfl, rfl⟩ := h
  exact ⟨ho.size, ho.nodup, ho.place⟩

theorem Tidy.of_core (h : Tidy w) (hc : w'.pushes.map PushCall.core = w.pushes.map PushCall.core) :
    Tidy w' := by
  intro call hcall
  have : call.core ∈ w.pushes.map PushCall.core := hc ▸ List.mem_map_of_mem hcall
  obtain ⟨call0, hcall0, he⟩ := List.mem_map.1 this
  exact (h call0 hcall0).of_core he

theorem sum_of_core (hc : w'.pushes.map PushCall.core = w.pushes.map PushCall.core)
    (f : List T × List ExceptionT × List (κ × List (T × Nat)) → Nat) :
    (w'.pushes.map fun call => f call.core).sum = (w.pushes.map fun call => f call.core).sum := by
  have := congrArg (fun l => (l.map f).sum) hc
  rw [List.map_map, List.map_map] at this
  exact this

theorem sum_of_outputs {pops pops' : List (PopCall T)}
    (hc : pops'.map PopCall.output = pops.map PopCall.output) (ψ : T → Nat) :
    (pops'.map fun call => (call.output.map ψ).sum).sum =
      (pops.map fun call => (call.output.map ψ).sum).sum := by
  have := congrArg (fun l => (l.map fun output : List T => (output.map ψ).sum).sum) hc
  rw [List.map_map, List.map_map] at this
  exact this

theorem Balanced.of_moves (h : Balanced hub order w) (hm : Moves hub order w w')
    (ho : ∀ ψ : T → Nat, (w'.pops.map fun call => (call.output.map ψ).sum).sum =
      (w.pops.map fun call => (call.output.map ψ).sum).sum) : Balanced hub order w' := by
  intro ψ
  have h1 := sum_of_core hm.core fun core =>
    ((PushCall.succeeded (κ := κ) ⟨core.1, core.2.1, core.2.2, .running⟩).map ψ).sum
  have h2 := sum_of_core hm.core fun core =>
    ((PushCall.unsent (κ := κ) ⟨core.1, core.2.1, core.2.2, .running⟩).map ψ).sum
  have h3 := h ψ
  rw [ho ψ, hm.inFlight]
  exact h1.trans (h3.trans (congrArg _ h2.symm))

end

variable {a : Action T}

theorem Tidy.step (hr : Refines s order hub) (hi : Inv hub w) (ht : Tidy w)
    (e : Step s w a w') : Tidy w' := by
  cases a with
  | push arr =>
    obtain ⟨groups, hgroups, rfl⟩ := push_cases e
    intro call hcall
    rcases List.mem_append.1 hcall with hcall | hcall
    · exact ht call hcall
    · obtain rfl := List.mem_singleton.1 hcall
      have hperm := hr.groups hgroups
      refine ⟨by simp, ?_, fun x hx => ?_⟩
      · have h1 := (hperm.map Prod.snd).nodup_iff
        rw [h1, List.zipIdx_map_snd]
        exact List.nodup_range'
      · obtain ⟨y, pos⟩ := x
        have := List.mk_mem_zipIdx_iff_getElem?.1 (hperm.mem_iff.1 hx)
        refine ⟨this, ?_⟩
        simp [(List.getElem?_eq_some_iff.1 this).1]
  | get i =>
    obtain ⟨arr, exceptionArr, key, args, todo, hcall, hw'⟩ := get_cases e
    obtain ⟨hsize, hnodup, hplace⟩ := ht _ (List.mem_of_getElem? hcall)
    simp only [List.flatMap_cons, List.map_append] at hnodup hplace
    obtain ⟨hargs, htodo, hdisj⟩ := List.nodup_append.1 hnodup
    have hplace' := fun x (hx : x ∈ todo.flatMap Prod.snd) =>
      hplace x (List.mem_append_right args hx)
    rcases hw' with ⟨vec, -, hw'⟩ | ⟨-, hw'⟩
    · rw [hw']
      exact forall_mem_set ht ⟨hsize, htodo, hplace'⟩
    · obtain ⟨hlen, hkeep, -⟩ := refuse_ok exceptionArr hargs fun x hx =>
        hplace x (List.mem_append_left _ hx)
      rw [hw']
      refine forall_mem_set ht ⟨hlen.trans hsize, htodo, fun x hx => ⟨(hplace' x hx).1, ?_⟩⟩
      rw [hkeep x.2 fun hmem' => hdisj _ hmem' _ (List.mem_map_of_mem hx) rfl]
      exact (hplace' x hx).2
  | put i => exact ht.of_core (put_moves hr hi e).1.core
  | pop cap => exact ht.of_core (pop_moves hr hi e).1.core
  | finish j =>
    obtain ⟨cap, vec, -, -, hpushes, -⟩ := finish_moves hr hi e
    exact ht.of_core (by rw [hpushes])

theorem outputOf_remainderOf (cap : Nat) (items : List T) (ψ : T → Nat) :
    ((outputOf cap items).map ψ).sum + ((remainderOf cap items).map ψ).sum =
      (items.map ψ).sum := by
  rw [Nat.add_comm, ← List.sum_append, ← List.map_append]
  unfold outputOf remainderOf
  rw [List.take_append_drop]

theorem Balanced.step (hr : Refines s order hub) (hi : Inv hub w) (ht : Tidy w)
    (h : Balanced hub order w) (e : Step s w a w') : Balanced hub order w' := by
  cases a with
  | push arr =>
    obtain ⟨groups, hgroups, rfl⟩ := push_cases e
    intro ψ
    have h1 := h ψ
    have h2 : ((PushCall.succeeded (κ := κ)
        ⟨arr, List.replicate arr.length .success, groups, .running⟩).map ψ).sum =
        (arr.map ψ).sum := by
      rw [sum_succeeded, zip_replicate_length, List.map_map]
      rfl
    have h3 : ((PushCall.unsent (κ := κ)
        ⟨arr, List.replicate arr.length .success, groups, .running⟩).map ψ).sum =
        (arr.map ψ).sum := by
      have := (((hr.groups hgroups).map Prod.fst).map ψ).sum_eq
      rw [List.zipIdx_map_fst] at this
      exact this
    simp only [World.inFlight, List.map_append, List.sum_append, List.map_singleton,
      List.sum_singleton, PushPhase.weight] at h1 ⊢
    omega
  | get i =>
    obtain ⟨arr, exceptionArr, key, args, todo, hcall, hw'⟩ := get_cases e
    obtain ⟨hsize, hnodup, hplace⟩ := ht _ (List.mem_of_getElem? hcall)
    simp only [List.flatMap_cons, List.map_append] at hnodup hplace
    obtain ⟨hargs, -, -⟩ := List.nodup_append.1 hnodup
    intro ψ
    have h1 := h ψ
    rcases hw' with ⟨vec, -, hw'⟩ | ⟨-, hw'⟩
    · have h2 := inFlight_setPush hub order hcall
        ⟨arr, exceptionArr, todo, .holding key ⟨vec.id, args.map Prod.fst⟩⟩ w'.allocator
        (itemsWeight ψ)
      have h3 := sum_map_set (fun call : PushCall κ T => (call.succeeded.map ψ).sum)
        (b := ⟨arr, exceptionArr, todo, .holding key ⟨vec.id, args.map Prod.fst⟩⟩) hcall
      have h4 := sum_map_set (fun call : PushCall κ T => (call.unsent.map ψ).sum)
        (b := ⟨arr, exceptionArr, todo, .holding key ⟨vec.id, args.map Prod.fst⟩⟩) hcall
      rw [hw']
      simp only [PushPhase.weight, itemsWeight, PushCall.succeeded, PushCall.unsent,
        List.flatMap_cons, List.map_append, List.sum_append, World.setPush] at h1 h2 h3 h4 ⊢
      omega
    · have h2 := inFlight_setPush hub order hcall
        ⟨arr, refuse exceptionArr args, todo, .running⟩ w'.allocator (itemsWeight ψ)
      obtain ⟨-, -, hsum⟩ := refuse_ok exceptionArr hargs fun x hx =>
        hplace x (List.mem_append_left _ hx)
      have h3 := sum_map_set (fun call : PushCall κ T => (call.succeeded.map ψ).sum)
        (b := ⟨arr, refuse exceptionArr args, todo, .running⟩) hcall
      have h4 := sum_map_set (fun call : PushCall κ T => (call.unsent.map ψ).sum)
        (b := ⟨arr, refuse exceptionArr args, todo, .running⟩) hcall
      have h5 := hsum ψ
      rw [hw']
      simp only [sum_succeeded, PushPhase.weight, PushCall.unsent, List.flatMap_cons,
        List.map_append, List.sum_append, World.setPush] at h1 h2 h3 h4 h5 ⊢
      omega
  | put i =>
    obtain ⟨hm, ho⟩ := put_moves hr hi e
    exact h.of_moves hm (sum_of_outputs ho)
  | pop cap =>
    obtain ⟨hm, phase, hpops, hphase⟩ := pop_moves hr hi e
    refine h.of_moves hm fun ψ => ?_
    have hout : (⟨cap, phase⟩ : PopCall T).output = [] := by
      cases phase with
      | returned output => exact absurd rfl (hphase output)
      | _ => rfl
    rw [hpops]
    simp [hout]
  | finish j =>
    obtain ⟨cap, vec, -, -, hpushes, -, hpops, hcases⟩ := finish_moves hr hi e
    intro ψ
    have h1 := h ψ
    have h2 := hpops (fun call => (call.output.map ψ).sum) fun _ _ => rfl
    have h3 := outputOf_remainderOf cap vec.items ψ
    rw [hpushes]
    rcases hcases with ⟨-, -, hw⟩ | ⟨hrem, -, hw⟩
    · have h4 := hw (itemsWeight ψ)
      simp only [itemsWeight, PopCall.output, List.map_nil, List.sum_nil] at h1 h2 h4 ⊢
      omega
    · have h4 := hw (itemsWeight ψ)
      simp only [hrem, itemsWeight, PopCall.output, List.map_nil, List.sum_nil] at h1 h2 h3 h4 ⊢
      omega

/-! ## Every vector is in one place -/

def isNamed (n : Nat) (vec : Vec T) : Nat := if vec.id = n then 1 else 0

/-- Every vector that was allocated is in flight, or in the allocator, once. -/
def Named (hub : C → Hub κ (Vec T) Nat Nat) (order : List κ) (w : World C κ T) : Prop :=
  ∀ n, w.inFlight hub order (isNamed n) + (w.allocator.queue.map (isNamed n)).sum =
    if n < w.allocator.allocatedSz then 1 else 0

omit [DecidableEq κ] in
theorem get_some {a a' : LIFOUnitAllocator T} {vec : Vec T} (e : a.get = (a', some vec)) (n : Nat) :
    (if n < a'.allocatedSz then 1 else 0) + (a.queue.map (isNamed n)).sum =
      (if n < a.allocatedSz then 1 else 0) + (a'.queue.map (isNamed n)).sum + isNamed n vec := by
  unfold LIFOUnitAllocator.get at e
  split at e
  · rename_i vec' queue hq
    cases e
    simp only [hq, List.map_cons, List.sum_cons]
    omega
  · rename_i hq
    split at e
    · cases e
    · cases e
      simp only [isNamed]
      split <;> split <;> split <;> omega

omit [DecidableEq κ] in
theorem get_none {a a' : LIFOUnitAllocator T} (e : a.get = (a', none)) : a' = a := by
  unfold LIFOUnitAllocator.get at e
  split at e
  · cases e
  · split at e
    · cases e
      rfl
    · cases e

theorem Named.step (hr : Refines s order hub) (hi : Inv hub w) (h : Named hub order w)
    (e : Step s w a w') : Named hub order w' := by
  intro n
  have h1 := h n
  cases a with
  | push arr =>
    obtain ⟨groups, -, rfl⟩ := push_cases e
    simp only [World.inFlight, List.map_append, List.sum_append, List.map_singleton,
      List.sum_singleton, PushPhase.weight] at h1 ⊢
    omega
  | get i =>
    obtain ⟨arr, exceptionArr, key, args, todo, hcall, hw'⟩ := get_cases e
    rcases hw' with ⟨vec, hget, hw'⟩ | ⟨hget, hw'⟩
    · have h2 := inFlight_setPush hub order hcall
        ⟨arr, exceptionArr, todo, .holding key ⟨vec.id, args.map Prod.fst⟩⟩ w'.allocator
        (isNamed n)
      have h3 := get_some hget n
      have h4 : isNamed n (⟨vec.id, args.map Prod.fst⟩ : Vec T) = isNamed n vec := rfl
      rw [← hw'] at h2
      simp only [PushPhase.weight] at h2
      omega
    · have h2 := inFlight_setPush hub order hcall
        ⟨arr, refuse exceptionArr args, todo, .running⟩ w'.allocator (isNamed n)
      rw [← hw'] at h2
      rw [get_none hget]
      simp only [PushPhase.weight] at h2
      omega
  | put i =>
    obtain ⟨hm, -⟩ := put_moves hr hi e
    rw [hm.inFlight, hm.allocator]
    exact h1
  | pop cap =>
    obtain ⟨hm, -⟩ := pop_moves hr hi e
    rw [hm.inFlight, hm.allocator]
    exact h1
  | finish j =>
    obtain ⟨cap, vec, -, -, -, -, -, hcases⟩ := finish_moves hr hi e
    rcases hcases with ⟨-, halloc, hw⟩ | ⟨-, halloc, hw⟩
    · have h2 := hw (isNamed n)
      have h3 : isNamed n (⟨vec.id, remainderOf cap vec.items⟩ : Vec T) = isNamed n vec := rfl
      rw [halloc]
      omega
    · have h2 := hw (isNamed n)
      have h3 : isNamed n (⟨vec.id, []⟩ : Vec T) = isNamed n vec := rfl
      rw [halloc]
      show _ + ((⟨vec.id, []⟩ :: w.allocator.queue).map (isNamed n)).sum =
        if n < w.allocator.allocatedSz then 1 else 0
      rw [List.map_cons, List.sum_cons]
      omega

/-! ## The leftovers -/

def World.activePops (w : World C κ T) : Nat :=
  (w.pops.map fun call => match call.phase with
    | .returned _ => 0
    | _ => 1).sum

omit [DecidableEq κ] in
theorem held_le_activePops (w : World C κ T) : w.held ≤ w.activePops := by
  unfold World.held activePops
  induction w.pops with
  | nil => exact Nat.le_refl _
  | cons call pops ih =>
    simp only [List.map_cons, List.sum_cons]
    refine Nat.add_le_add ?_ ih
    cases call.phase <;> simp [PopPhase.weight]

/-- The leftovers and the vectors in the hands of `pop` are at most `n`. -/
def Bounded (hub : C → Hub κ (Vec T) Nat Nat) (n : Nat) (w : World C κ T) : Prop :=
  (hub w.container).leftover.length + w.held ≤ n

omit [DecidableEq κ] in
theorem Bounded.of_leftover {n : Nat} (h : Bounded hub n w) (hn : w'.activePops ≤ n)
    (hl : (hub w'.container).leftover.length + w'.held ≤
      (hub w.container).leftover.length + w.held ∨ (hub w'.container).leftover = []) :
    Bounded hub n w' := by
  unfold Bounded at *
  rcases hl with hl | hl
  · omega
  · rw [hl, List.length_nil]
    have := held_le_activePops w'
    omega

/-- A leftover can only come from a call that took one, or that ran when there was none. -/
theorem Bounded.step (hr : Refines s order hub) (hi : Inv hub w) {n : Nat} (h : Bounded hub n w)
    (e : Step s w a w') (hn : w'.activePops ≤ n) : Bounded hub n w' := by
  cases a with
  | push arr =>
    obtain ⟨groups, -, rfl⟩ := push_cases e
    exact h
  | get i =>
    obtain ⟨arr, exceptionArr, key, args, todo, hcall, hw'⟩ := get_cases e
    rcases hw' with ⟨vec, -, hw'⟩ | ⟨-, hw'⟩
    · rw [hw']
      exact h
    · rw [hw']
      exact h
  | put i => exact h.of_leftover hn (put_moves hr hi e).1.leftover
  | pop cap => exact h.of_leftover hn (pop_moves hr hi e).1.leftover
  | finish j =>
    obtain ⟨cap, vec, -, -, -, hl, -⟩ := finish_moves hr hi e
    exact h.of_leftover hn (.inl hl)

/-! ## How many calls there are -/

def World.activePushes (w : World C κ T) : Nat :=
  (w.pushes.map fun call => match call.todo, call.phase with
    | [], .running => 0
    | _, _ => 1).sum

theorem length_le_sum {js ws : List Nat} (hnodup : js.Nodup)
    (hpos : ∀ j ∈ js, ∃ x, ws[j]? = some x ∧ 1 ≤ x) : js.length ≤ ws.sum := by
  induction js generalizing ws with
  | nil => exact Nat.zero_le _
  | cons j js ih =>
    obtain ⟨hj, hnodup⟩ := List.nodup_cons.1 hnodup
    obtain ⟨x, hx, hle⟩ := hpos j List.mem_cons_self
    have hrest : js.length ≤ (ws.set j 0).sum := ih hnodup fun i hi => by
      have hne : j ≠ i := fun he => hj (he ▸ hi)
      rw [List.getElem?_set_ne hne]
      exact hpos i (List.mem_cons_of_mem _ hi)
    have hsum := sum_map_set (fun x : Nat => x) (b := 0) hx
    simp only [List.map_id'] at hsum
    rw [List.length_cons]
    omega

omit [DecidableEq κ] in
theorem Inv.waiting_le (hi : Inv hub w) : (hub w.container).waiting.length ≤ w.activePops := by
  refine length_le_sum hi.knows.waiting_nodup fun j hj => ?_
  obtain ⟨call, hcall, hphase⟩ := (hi.knows.waiting j).1 hj
  exact ⟨1, by simp [hcall, hphase], Nat.le_refl 1⟩

omit [DecidableEq κ] in
/-- The calls that are blocked are fewer than those that run, if one holds a vector. -/
theorem Inv.blocked_lt (hi : Inv hub w) (k : κ) {i : Nat} {call : PushCall κ T} {key : κ}
    {vec : Vec T} (hcall : w.pushes[i]? = some call) (hphase : call.phase = .holding key vec) :
    ((hub w.container).lane k).blocked.length < w.activePushes := by
  have hnew : i ∉ ((hub w.container).lane k).blocked.map Prod.snd := by
    intro hmem
    obtain ⟨call', hcall', hphase'⟩ := (hi.knows.blocked k i).1 hmem
    rw [hcall] at hcall'
    cases hcall'
    rw [hphase] at hphase'
    cases hphase'
  have hle : (i :: ((hub w.container).lane k).blocked.map Prod.snd).length ≤ w.activePushes := by
    refine length_le_sum (List.nodup_cons.2 ⟨hnew, hi.knows.blocked_nodup k⟩) fun j hj => ?_
    rcases List.mem_cons.1 hj with rfl | hj
    · exact ⟨1, by simp [hcall, hphase], Nat.le_refl 1⟩
    · obtain ⟨call', hcall', hphase'⟩ := (hi.knows.blocked k j).1 hj
      exact ⟨1, by simp [hcall', hphase'], Nat.le_refl 1⟩
  rw [List.length_cons, List.length_map] at hle
  exact hle

omit [DecidableEq κ] in
theorem Step.keeps {β : Type} (f : C → β)
    (hpush : ∀ {c c' k vec i r}, s.push c k vec i = .ok (c', r) → f c' = f c)
    (hpop : ∀ {c c' j r}, s.pop c j = .ok (c', r) → f c' = f c)
    (hleft : ∀ {c c' vec r}, s.popLeftover c vec = .ok (c', r) → f c' = f c) (e : Step s w a w') :
    f w'.container = f w.container := by
  cases a with
  | push arr =>
    obtain ⟨groups, -, rfl⟩ := push_cases e
    rfl
  | get i =>
    obtain ⟨arr, exceptionArr, key, args, todo, -, ⟨vec, -, hw'⟩ | ⟨-, hw'⟩⟩ := get_cases e
    · rw [hw']
      rfl
    · rw [hw']
      rfl
  | put i =>
    obtain ⟨arr, exceptionArr, todo, key, vec, container, r, -, h, rfl⟩ := put_cases e
    cases r <;> exact hpush h
  | pop cap =>
    obtain ⟨container, r, h, rfl⟩ := pop_cases e
    cases r <;> exact hpop h
  | finish j =>
    obtain ⟨cap, vec, -, ⟨-, container, r, h, rfl⟩ | ⟨-, rfl⟩⟩ := finish_cases e
    · cases r <;> exact hleft h
    · rfl

/-! ## All of it, over a run -/

structure Kept (hub : C → Hub κ (Vec T) Nat Nat) (order : List κ) (w : World C κ T) : Prop where
  inv : Inv hub w
  tidy : Tidy w
  balanced : Balanced hub order w
  named : Named hub order w

theorem Kept.step (hr : Refines s order hub) (h : Kept hub order w)
    (e : Step s w a w') : Kept hub order w' where
  inv := h.inv.step hr e
  tidy := h.tidy.step hr h.inv e
  balanced := h.balanced.step hr h.inv h.tidy e
  named := h.named.step hr h.inv e

omit [DecidableEq κ] in
theorem Kept.start {c : C} (hleft : (hub c).leftover = []) (hwait : (hub c).waiting = [])
    (hlane : ∀ k, ((hub c).lane k).blocked = [] ∧ ((hub c).lane k).queue = []) (queueCap : Nat) :
    Kept hub order (World.start (κ := κ) c queueCap) := by
  have hempty : (hub c).contents order = [] := by
    simp [Hub.contents, hleft, fun k => (hlane k).1, fun k => (hlane k).2]
  have hflight : ∀ φ, (World.start (κ := κ) c queueCap).inFlight hub order φ = 0 := by
    intro φ
    show (hub c).weight φ order + 0 + 0 = 0
    rw [weight_eq, hempty]
    rfl
  refine ⟨⟨⟨fun hne => absurd hwait hne, fun k hne => absurd (hlane k).1 hne⟩, ?_⟩, ?_, ?_, ?_⟩
  · refine ⟨?_, fun j => ?_, fun k => ?_, fun k i => ?_⟩
    · show (hub c).waiting.Nodup
      rw [hwait]
      exact List.nodup_nil
    · simp [hwait, PopWaits, World.start]
    · show (((hub c).lane k).blocked.map Prod.snd).Nodup
      rw [(hlane k).1]
      exact List.nodup_nil
    · simp [(hlane k).1, PushWaits, World.start]
  · intro call hcall
    cases hcall
  · intro ψ
    rw [hflight]
    rfl
  · intro n
    rw [hflight]
    simp [World.start]

/-! ## In words -/

omit [DecidableEq κ]

def PushPhase.vecs : PushPhase κ T → List (Vec T)
  | .holding _ vec => [vec]
  | _ => []

def PopPhase.vecs : PopPhase T → List (Vec T)
  | .holding vec => [vec]
  | _ => []

def World.inHands (w : World C κ T) : List (Vec T) :=
  (w.pushes.flatMap fun call => call.phase.vecs) ++ w.pops.flatMap fun call => call.phase.vecs

theorem inFlight_eq (w : World C κ T) (φ : Vec T → Nat) :
    w.inFlight hub order φ =
      ((((hub w.container).contents order ++ w.inHands)).map φ).sum := by
  have h1 : ∀ pushes : List (PushCall κ T), (pushes.map fun call => call.phase.weight φ).sum =
      ((pushes.flatMap fun call => call.phase.vecs).map φ).sum := by
    intro pushes
    induction pushes with
    | nil => rfl
    | cons call pushes ih =>
      rw [List.map_cons, List.sum_cons, List.flatMap_cons, List.map_append, List.sum_append, ih]
      cases call.phase <;> simp [PushPhase.weight, PushPhase.vecs]
  have h2 : ∀ pops : List (PopCall T), (pops.map fun call => call.phase.weight φ).sum =
      ((pops.flatMap fun call => call.phase.vecs).map φ).sum := by
    intro pops
    induction pops with
    | nil => rfl
    | cons call pops ih =>
      rw [List.map_cons, List.sum_cons, List.flatMap_cons, List.map_append, List.sum_append, ih]
      cases call.phase <;> simp [PopPhase.weight, PopPhase.vecs]
  rw [World.inFlight, inHands, weight_eq, h1, h2, List.map_append, List.map_append,
    List.sum_append, List.sum_append, Nat.add_assoc]

theorem count_flatMap_eq {α β : Type} [DecidableEq β] (l : List α) (f : α → List β) (b : β) :
    (l.flatMap f).count b = (l.map fun a => ((f a).map fun x => if x = b then 1 else 0).sum).sum := by
  rw [List.count_flatMap]
  congr 1
  refine List.map_congr_left fun a _ => ?_
  rw [Function.comp, List.count_eq_countP, List.countP_eq_length_filter]
  induction f a with
  | nil => rfl
  | cons x l ih =>
    rw [List.filter_cons, List.map_cons, List.sum_cons, ← ih]
    by_cases hx : x = b
    · simp [hx, Nat.add_comm]
    · simp [hx]

/-- **Every item with `SUCCESS` is unsent, in a queue, in a caller's hands, or returned, once.** -/
theorem Kept.items (h : Kept hub order w) :
    (w.pushes.flatMap PushCall.succeeded).Perm (w.pops.flatMap PopCall.output ++
      ((hub w.container).contents order ++ w.inHands).flatMap Vec.items ++
      w.pushes.flatMap PushCall.unsent) := by
  classical
  rw [List.perm_iff_count]
  intro x
  have := h.balanced fun y => if y = x then 1 else 0
  rw [inFlight_eq] at this
  rw [List.count_append, List.count_append, count_flatMap_eq, count_flatMap_eq, count_flatMap_eq,
    count_flatMap_eq]
  exact this

/-- **Every allocated vector is in a queue, in a caller's hands, or in the allocator, once.** -/
theorem Kept.vectors (h : Kept hub order w) :
    (((hub w.container).contents order ++ w.inHands ++ w.allocator.queue).map Vec.id).Perm
      (List.range w.allocator.allocatedSz) := by
  rw [List.perm_iff_count]
  intro n
  have := h.named n
  rw [inFlight_eq, ← List.sum_append, ← List.map_append] at this
  have hcount : ∀ l : List (Vec T), (l.map Vec.id).count n = (l.map (isNamed n)).sum := by
    intro l
    induction l with
    | nil => rfl
    | cons vec l ih =>
      rw [List.map_cons, List.count_cons, ih, List.map_cons, List.sum_cons, isNamed, Nat.add_comm]
      simp
  rw [hcount, this, List.nodup_range.count]
  simp

theorem Kept.pop_waits (h : Kept hub order w) {call : PopCall T} (hcall : call ∈ w.pops)
    (hphase : call.phase = .waiting) : (hub w.container).contents order = [] := by
  obtain ⟨j, hj⟩ := List.mem_iff_getElem?.1 hcall
  have hwait := (h.inv.knows.waiting j).2 ⟨call, hj, hphase⟩
  obtain ⟨hleft, hlane⟩ := h.inv.fair.idle (List.ne_nil_of_mem hwait)
  simp [Hub.contents, hleft, fun k => (hlane k).1, fun k => (hlane k).2]

theorem Kept.push_waits (h : Kept hub order w) {call : PushCall κ T} (hcall : call ∈ w.pushes) {k : κ}
    (hphase : call.phase = .waiting k) :
    ((hub w.container).lane k).queue.length = ((hub w.container).lane k).capacity := by
  obtain ⟨i, hi⟩ := List.mem_iff_getElem?.1 hcall
  have hblocked := (h.inv.knows.blocked k i).2 ⟨call, hi, hphase⟩
  refine h.inv.fair.full k fun hnil => ?_
  rw [hnil] at hblocked
  cases hblocked

end ContainerCalls
