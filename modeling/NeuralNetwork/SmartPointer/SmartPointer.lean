import Mathlib.Data.Finset.Card
import Mathlib.Data.Finset.Range
import NeuralNetwork.Lib.Acyclic
import NeuralNetwork.Lib.Run

/-!
# The smart pointers

`shared_ptr` and `unique_ptr` over a heap of objects that hold such pointers as members. A pointer
object is a variable or a member; destroying an object runs the destructors of its members, which
release what they own in turn (`cleanResource`). Reading or writing a pointer object whose own
destructor has run is a fault. `exec` is one construction, assignment or destruction.
-/

namespace SmartPointer

inductive Kind
  | shared
  | unique
  deriving DecidableEq, Repr

/-- A pointer object: `obj` is what it owns, `home` the object it is a member of. -/
structure Pointer where
  kind : Kind
  obj : Option Nat
  home : Option Nat
  alive : Bool
  deriving DecidableEq, Repr

/-- An object owned through `kind`: its member pointers in declaration order, and the counter of
its control block (a `unique` object has none). -/
structure Object where
  kind : Kind
  members : List Nat
  counter : Nat
  alive : Bool
  deriving DecidableEq, Repr

/-- `destroyed` logs the objects in the order their destructors start. -/
structure Heap where
  ptrs : Nat
  ptr : Nat → Pointer
  objs : Nat
  obj : Nat → Object
  destroyed : List Nat

inductive Fault
  | destroyedPointer (p : Nat)
  | outOfFuel
  deriving DecidableEq, Repr

namespace Heap

/-! ## Reads and writes -/

def read (h : Heap) (p : Nat) : Except Fault Pointer :=
  if (h.ptr p).alive then .ok (h.ptr p) else .error (.destroyedPointer p)

def setOwned (h : Heap) (p : Nat) (o : Option Nat) : Heap :=
  { h with ptr := Function.update h.ptr p { h.ptr p with obj := o } }

def write (h : Heap) (p : Nat) (o : Option Nat) : Except Fault Heap :=
  if (h.ptr p).alive then .ok (h.setOwned p o) else .error (.destroyedPointer p)

def setCounter (h : Heap) (o : Nat) (counter : Nat) : Heap :=
  { h with obj := Function.update h.obj o { h.obj o with counter := counter } }

/-- The end of the pointer object `p` itself. -/
def endLife (h : Heap) (p : Nat) : Heap :=
  { h with ptr := Function.update h.ptr p { h.ptr p with alive := false } }

def markDestroyed (h : Heap) (o : Nat) : Heap :=
  { h with
    obj := Function.update h.obj o { h.obj o with alive := false }
    destroyed := h.destroyed ++ [o] }

/-! ## Release -/

section Release
variable (clean : Heap → Nat → Except Fault Heap)

/-- `~shared_ptr`, `~unique_ptr`. -/
def destroyPointer (h : Heap) (p : Nat) : Except Fault Heap := do
  let h ← clean h p
  return h.endLife p

/-- `std::destroy_at`: the members' destructors, the last member first. -/
def destroyObject (h : Heap) (o : Nat) : Except Fault Heap :=
  (h.obj o).members.reverse.foldlM (destroyPointer clean) (h.markDestroyed o)

/-- `fetch_sub`, and `release_control_block` for the last one. -/
def release (h : Heap) (o : Nat) : Except Fault Heap :=
  let previous_count := (h.obj o).counter
  let h := h.setCounter o (previous_count - 1)
  if previous_count = 1 then destroyObject clean h o else .ok h

end Release

/-- `clean_resource`: what `p` owns is released, then `p` is set to null. -/
def cleanWith : Nat → Heap → Nat → Except Fault Heap
  | 0, _, _ => .error .outOfFuel
  | fuel + 1, h, p => do
    let this ← h.read p
    match this.obj, this.kind with
    | none, _ => return h
    | some o, .shared =>
      let h ← release (cleanWith fuel) h o
      h.write p none
    | some o, .unique =>
      let h ← destroyObject (cleanWith fuel) h o
      h.write p none

/-- Every nested release destroys one more object, so `objs + 1` levels are enough. -/
def cleanResource (h : Heap) (p : Nat) : Except Fault Heap :=
  cleanWith (h.objs + 1) h p

/-! ## Construction -/

def newVariable (h : Heap) (kind : Kind) (o : Option Nat) : Heap :=
  { h with
    ptrs := h.ptrs + 1
    ptr := Function.update h.ptr h.ptrs { kind := kind, obj := o, home := none, alive := true } }

/-- `fetch_add` on the control block of what a copy owns. -/
def addOwner (h : Heap) : Option Nat → Heap
  | none => h
  | some o => h.setCounter o ((h.obj o).counter + 1)

/-- The control block a unique object gets when a `shared_ptr` takes it over. -/
def makeControlBlock (h : Heap) : Option Nat → Heap
  | none => h
  | some o =>
    { h with obj := Function.update h.obj o { h.obj o with kind := .shared, counter := 1 } }

/-- `allocate_shared`, `allocate_unique`: a variable that owns a new object with null members. -/
def allocate (h : Heap) (kind : Kind) (members : List Kind) : Heap where
  ptrs := h.ptrs + 1 + members.length
  ptr := fun p =>
    if p < h.ptrs then h.ptr p
    else if p = h.ptrs then { kind := kind, obj := some h.objs, home := none, alive := true }
    else match members[p - (h.ptrs + 1)]? with
      | some k => { kind := k, obj := none, home := some h.objs, alive := true }
      | none => h.ptr p
  objs := h.objs + 1
  obj := Function.update h.obj h.objs
    { kind := kind
      members := List.range' (h.ptrs + 1) members.length
      counter := if kind = .shared then 1 else 0
      alive := true }
  destroyed := h.destroyed

def copyConstruct (h : Heap) (src : Nat) : Except Fault Heap := do
  let other ← h.read src
  return (h.newVariable other.kind other.obj).addOwner other.obj

def moveConstruct (h : Heap) (src : Nat) : Except Fault Heap := do
  let other ← h.read src
  let h ← h.write src none
  return h.newVariable other.kind other.obj

/-- `unique_to_shared_initialize`. -/
def uniqueToShared (h : Heap) (src : Nat) : Except Fault Heap := do
  let other ← h.read src
  let h ← h.write src none
  return (h.newVariable .shared other.obj).makeControlBlock other.obj

/-! ## Assignment -/

/-- Both assignments release the target before they read the source. -/
def copyAssign (h : Heap) (dst src : Nat) : Except Fault Heap :=
  if dst = src then .ok h else do
    let h ← h.cleanResource dst
    let other ← h.read src
    let h ← h.write dst other.obj
    return h.addOwner other.obj

def moveAssign (h : Heap) (dst src : Nat) : Except Fault Heap :=
  if dst = src then .ok h else do
    let h ← h.cleanResource dst
    let other ← h.read src
    let h ← h.write src none
    h.write dst other.obj

end Heap

/-! ## Runs -/

inductive Op
  | construct (kind : Kind)
  | allocate (kind : Kind) (members : List Kind)
  | copyConstruct (src : Nat)
  | moveConstruct (src : Nat)
  | uniqueToShared (src : Nat)
  | copyAssign (dst src : Nat)
  | moveAssign (dst src : Nat)
  | destruct (p : Nat)
  deriving Repr

def Heap.empty : Heap where
  ptrs := 0
  ptr := fun _ => { kind := .shared, obj := none, home := none, alive := false }
  objs := 0
  obj := fun _ => { kind := .shared, members := [], counter := 0, alive := false }
  destroyed := []

def Heap.exec (h : Heap) : Op → Except Fault Heap
  | .construct kind => .ok (h.newVariable kind none)
  | .allocate kind members => .ok (h.allocate kind members)
  | .copyConstruct src => h.copyConstruct src
  | .moveConstruct src => h.moveConstruct src
  | .uniqueToShared src => h.uniqueToShared src
  | .copyAssign dst src => h.copyAssign dst src
  | .moveAssign dst src => h.moveAssign dst src
  | .destruct p => Heap.destroyPointer Heap.cleanResource h p

/-- What the types and the lifetimes of the language ask of an operation: its operands are alive,
only shared pointers are copied, and only a variable is destroyed by name. -/
def Heap.Enabled (h : Heap) : Op → Prop
  | .construct _ => True
  | .allocate _ _ => True
  | .copyConstruct src => (h.ptr src).alive ∧ (h.ptr src).kind = .shared
  | .moveConstruct src => (h.ptr src).alive
  | .uniqueToShared src => (h.ptr src).alive ∧ (h.ptr src).kind = .unique
  | .copyAssign dst src => (h.ptr dst).alive ∧ (h.ptr src).alive ∧
      (h.ptr dst).kind = .shared ∧ (h.ptr src).kind = .shared
  | .moveAssign dst src => (h.ptr dst).alive ∧ (h.ptr src).alive ∧
      (h.ptr dst).kind = (h.ptr src).kind
  | .destruct p => (h.ptr p).alive ∧ (h.ptr p).home = none

instance (h : Heap) (op : Op) : Decidable (h.Enabled op) :=
  match op with
  | .construct _ => inferInstanceAs (Decidable True)
  | .allocate _ _ => inferInstanceAs (Decidable True)
  | .copyConstruct src =>
    inferInstanceAs (Decidable ((h.ptr src).alive ∧ (h.ptr src).kind = .shared))
  | .moveConstruct src => inferInstanceAs (Decidable ((h.ptr src).alive = true))
  | .uniqueToShared src =>
    inferInstanceAs (Decidable ((h.ptr src).alive ∧ (h.ptr src).kind = .unique))
  | .copyAssign dst src => inferInstanceAs (Decidable ((h.ptr dst).alive ∧ (h.ptr src).alive ∧
      (h.ptr dst).kind = .shared ∧ (h.ptr src).kind = .shared))
  | .moveAssign dst src => inferInstanceAs (Decidable ((h.ptr dst).alive ∧ (h.ptr src).alive ∧
      (h.ptr dst).kind = (h.ptr src).kind))
  | .destruct p => inferInstanceAs (Decidable ((h.ptr p).alive ∧ (h.ptr p).home = none))

/-! ## Ownership -/

/-- A member of `o` owns `o'`. -/
def Heap.Owns (h : Heap) (o o' : Nat) : Prop :=
  ∃ p < h.ptrs, (h.ptr p).alive ∧ (h.ptr p).home = some o ∧ (h.ptr p).obj = some o'

def Heap.Acyclic (h : Heap) : Prop :=
  AcyclicRel h.Owns

/-- `o` is reached from a variable through pointers other than `dst`. -/
inductive Heap.Kept (h : Heap) (dst : Nat) : Nat → Prop
  | intro {q o : Nat} : q < h.ptrs → q ≠ dst → (h.ptr q).alive → (h.ptr q).obj = some o →
      (∀ o', (h.ptr q).home = some o' → Kept h dst o') → Kept h dst o

/-- The source of an assignment is the target itself, or a pointer that stays alive without it. -/
def Heap.SourceKept (h : Heap) : Op → Prop
  | .copyAssign dst src => dst = src ∨ ∀ o, (h.ptr src).home = some o → h.Kept dst o
  | .moveAssign dst src => dst = src ∨ ∀ o, (h.ptr src).home = some o → h.Kept dst o
  | _ => True

/-- The live pointers that own `o`, but for those in `Z`. -/
def Heap.owners (h : Heap) (Z : List Nat) (o : Nat) : Finset Nat :=
  (Finset.range h.ptrs).filter fun p => (h.ptr p).alive ∧ p ∉ Z ∧ (h.ptr p).obj = some o

/-- One operation of a run that keeps every source alive without its target. -/
def Step (h : Heap) (op : Op) (h' : Heap) : Prop :=
  h.Acyclic ∧ h.Enabled op ∧ h.SourceKept op ∧ h.exec op = .ok h'

/-- The target owns what the source owned, and a source that is moved from owns nothing. -/
def Transferred (h : Heap) (op : Op) (h' : Heap) : Prop :=
  match op with
  | .copyConstruct src => (h'.ptr h.ptrs).obj = (h.ptr src).obj
  | .moveConstruct src => (h'.ptr h.ptrs).obj = (h.ptr src).obj ∧ (h'.ptr src).obj = none
  | .uniqueToShared src => (h'.ptr h.ptrs).obj = (h.ptr src).obj ∧ (h'.ptr src).obj = none
  | .copyAssign dst src => (h'.ptr dst).obj = (h.ptr src).obj
  | .moveAssign dst src => (h'.ptr dst).obj = (h.ptr src).obj ∧
      (dst ≠ src → (h'.ptr src).obj = none)
  | _ => True

end SmartPointer
