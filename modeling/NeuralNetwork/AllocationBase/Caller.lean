import NeuralNetwork.AllocationBase.GlobalAllocator

/-!
# The caller of an allocator

A caller asks for blocks, writes to them and gives them back, in any order (`Call`, `call`).
`Caller.call_ends`: an invariant of the allocator that is kept by its operations, and by writes to what was
handed out, is kept by every call.
-/

namespace AllocationBase.GlobalAllocator

open Cpp Loop Region
open AffinedAllocator (World)

inductive Call where
  | malloc (sz : Nat)
  | free (buf : Option Ptr)
  | write (p : Ptr) (bytes : List Byte)

/-- The allocator and the blocks that its caller has. -/
structure Caller (σ : Type) where
  world : World σ
  outstanding : List Block

namespace Caller

variable {σ : Type} (malloc : Nat → World σ → Except Fault (Option Ptr × World σ))
  (free : Option Ptr → World σ → Except Fault (World σ))

/-- One call; `none` if the caller may not make it: it gives back and writes to what it has. -/
def call (s : Caller σ) : Call → Except Fault (Option (Caller σ))
  | .malloc sz => do
    let (rs, w) ← malloc sz s.world
    .ok (some ⟨w, (rs.map fun p => ⟨p, sz⟩).toList ++ s.outstanding⟩)
  | .free none => do
    let w ← free none s.world
    .ok (some { s with world := w })
  | .free (some p) =>
    match s.outstanding.find? (·.ptr = p) with
    | none => .ok none
    | some b => do
      let w ← free (some p) s.world
      .ok (some ⟨w, s.outstanding.erase b⟩)
  | .write p bytes =>
    match s.outstanding.find? (Block.Within p bytes.length ·) with
    | none => .ok none
    | some _ => do
      let m ← s.world.2.2.store p bytes
      .ok (some { s with world := (s.world.1, s.world.2.1, m) })

def Step (s : Caller σ) (c : Call) (s' : Caller σ) : Prop := call malloc free s c = .ok (some s')

structure Keeps (Inv : World σ → List Block → Prop) : Prop where
  perm : ∀ {w live live'}, Inv w live → live.Perm live' → Inv w live'
  free_null : ∀ w, free none w = .ok w
  free : ∀ {w b live}, Inv w (b :: live) → ∃ w', free (some b.ptr) w = .ok w' ∧ Inv w' live
  write : ∀ {w b live p} (bs : List Byte), Inv w (b :: live) → Block.Within p bs.length b →
    ∃ m', w.2.2.store p bs = .ok m' ∧ Inv (w.1, w.2.1, m') (b :: live)

variable {malloc free} {Inv : World σ → List Block → Prop} {s : Caller σ}

/-- **Every call keeps the invariant** that the operations keep. -/
theorem call_ends {short : Prop} (h : Keeps free Inv) (hi : Inv s.world s.outstanding) (c : Call)
    (hmalloc : ∀ sz, c = .malloc sz → Ends short (malloc sz s.world) fun r =>
      Inv r.2 ((r.1.map fun p => (⟨p, sz⟩ : Block)).toList ++ s.outstanding)) :
    Ends short (call malloc free s c) fun r => ∀ s', r = some s' → Inv s'.world s'.outstanding := by
  cases c with
  | malloc sz =>
    refine (hmalloc sz rfl).bind fun r hr => .ok fun s' e => ?_
    obtain rfl := Option.some.inj e
    exact hr
  | free buf =>
    cases buf with
    | none =>
      refine .of_ok ⟨some s, by simp only [call, h.free_null, ok_bind], fun s' e => ?_⟩
      obtain rfl := Option.some.inj e
      exact hi
    | some p =>
      unfold call
      cases hf : s.outstanding.find? (·.ptr = p) with
      | none =>
        simp only [hf]
        exact .ok fun s' e => nomatch e
      | some b =>
        obtain rfl : b.ptr = p := by simpa using List.find?_some hf
        have hmem := List.mem_of_find?_eq_some hf
        obtain ⟨w', e, hi'⟩ := h.free (h.perm hi (List.perm_cons_erase hmem))
        refine .of_ok ⟨some ⟨w', s.outstanding.erase b⟩, by simp only [hf, e, ok_bind], fun s' e => ?_⟩
        obtain rfl := Option.some.inj e
        exact hi'
  | write p bytes =>
    unfold call
    cases hf : s.outstanding.find? (Block.Within p bytes.length ·) with
    | none =>
      simp only [hf]
      exact .ok fun s' e => nomatch e
    | some b =>
      have hw : Block.Within p bytes.length b := by simpa using List.find?_some hf
      have hperm := List.perm_cons_erase (List.mem_of_find?_eq_some hf)
      obtain ⟨m', e, hi'⟩ := h.write bytes (h.perm hi hperm) hw
      refine .of_ok ⟨some { s with world := (s.world.1, s.world.2.1, m') },
        by simp only [hf, e, ok_bind], fun s' e => ?_⟩
      obtain rfl := Option.some.inj e
      exact h.perm hi' hperm.symm

end Caller

end AllocationBase.GlobalAllocator
