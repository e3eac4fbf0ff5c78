import NeuralNetwork.AlgorithmExtension.ShortHeap
import NeuralNetwork.Lib.Run

/-!
# MemoryLifetimeManager

The lifetimes of `src/memory_management/immutable_multiplatform_memory.h`: a heap of buckets in the order
of their expiry, and a map from a reference to its bucket. A `Call` comes with the time that it reads.
`Lifetimes` says what the manager is for: it keeps the latest expiry of each reference, and a reference
is given back when its expiry lies before the time read.
-/

namespace MultiplatformMemory

open Cpp ShortHeap

structure LifetimeBucket where
  /-- The address that the shared pointer holds. -/
  immutableReference : Nat
  expiry : Int
deriving DecidableEq, Repr

structure MemoryLifetimeManager where
  /-- The addresses of the buckets. -/
  lifetimeBucketVec : List Nat
  bucket : Nat → LifetimeBucket
  reverseMap : Nat → Option Nat
  nextAddr : Nat

namespace MemoryLifetimeManager

def empty : MemoryLifetimeManager where
  lifetimeBucketVec := []
  bucket _ := { immutableReference := 0, expiry := 0 }
  reverseMap _ := none
  nextAddr := 0

def expiryOf (m : MemoryLifetimeManager) (addr : Nat) : Int := (m.bucket addr).expiry

def cmpFunc (m : MemoryLifetimeManager) (lhs rhs : Nat) : Bool := decide (m.expiryOf lhs ≤ m.expiryOf rhs)

def setBucket (m : MemoryLifetimeManager) (addr : Nat) (bucket : LifetimeBucket) : MemoryLifetimeManager :=
  { m with bucket := fun a => if a = addr then bucket else m.bucket a }

def extendLifetime (m : MemoryLifetimeManager) (immutableReference : Nat) (lifetime : Nat) (now : Int) :
    Except Fault MemoryLifetimeManager := do
  let expiry := now + lifetime
  let (m, addr) ← match m.reverseMap immutableReference with
    | some addr => .ok (m, addr)
    | none => do
      let addr := m.nextAddr
      let m := m.setBucket addr { immutableReference := immutableReference, expiry := expiry }
      let vec ← pushHeap m.cmpFunc DEFAULT_OUT_DEGREE_SZ (m.lifetimeBucketVec ++ [addr])
      .ok ({ m with
        lifetimeBucketVec := vec
        reverseMap := fun ref => if ref = immutableReference then some addr else m.reverseMap ref
        nextAddr := addr + 1 }, addr)
  .ok (m.setBucket addr { m.bucket addr with expiry := max expiry (m.expiryOf addr) })

/-- `get_expired_memory_vector` after it read the time `bar`. -/
def expire (bar : Int) :
    Nat → MemoryLifetimeManager → List Nat → Except Fault (MemoryLifetimeManager × List Nat)
  | 0, _, _ => .error .outOfFuel
  | fuel + 1, m, result =>
    match m.lifetimeBucketVec with
    | [] => .ok (m, result)
    | front :: _ =>
      if m.expiryOf front ≥ bar then .ok (m, result)
      else do
        let referenceAddr := (m.bucket front).immutableReference
        let vec ← popHeap m.cmpFunc DEFAULT_OUT_DEGREE_SZ m.lifetimeBucketVec
        match vec.getLast? with
        | none => .error .outOfBounds
        | some looseBucket =>
          expire bar fuel
            { m with
              lifetimeBucketVec := vec.dropLast
              reverseMap := fun ref => if ref = referenceAddr then none else m.reverseMap ref }
            (result ++ [(m.bucket looseBucket).immutableReference])

def getExpiredMemoryVector (m : MemoryLifetimeManager) (bar : Int) :
    Except Fault (MemoryLifetimeManager × List Nat) :=
  expire bar (m.lifetimeBucketVec.length + 1) m []

end MemoryLifetimeManager

/-! ## Runs -/

inductive LifetimeCall where
  | extendLifetime (immutableReference : Nat) (lifetime : Nat) (now : Int)
  | getExpiredMemoryVector (now : Int)

def MemoryLifetimeManager.apply (m : MemoryLifetimeManager) :
    LifetimeCall → Except Fault (MemoryLifetimeManager × List Nat)
  | .extendLifetime ref lifetime now => (m.extendLifetime ref lifetime now).map (·, [])
  | .getExpiredMemoryVector now => m.getExpiredMemoryVector now

/-- The latest expiry of each reference that is tracked. -/
abbrev Lifetimes := Nat → Option Int

def Lifetimes.extend (t : Lifetimes) (ref : Nat) (expiry : Int) : Lifetimes :=
  fun r => if r = ref then some ((t ref).elim expiry (max expiry ·)) else t r

/-- The reference is tracked, and its expiry lies before the time `now`. -/
def Lifetimes.Expired (t : Lifetimes) (now : Int) (ref : Nat) : Prop := ∃ e, t ref = some e ∧ e < now

/-- What a call does to the lifetimes, and what it returns: each expired reference, once. -/
def Lifetimes.Step (t : Lifetimes) (call : LifetimeCall × List Nat) (t' : Lifetimes) : Prop :=
  match call with
  | (.extendLifetime ref lifetime now, result) => result = [] ∧ t' = t.extend ref (now + lifetime)
  | (.getExpiredMemoryVector now, result) =>
    result.Nodup ∧ (∀ ref, ref ∈ result ↔ t.Expired now ref) ∧
      ∀ ref, (t.Expired now ref → t' ref = none) ∧ (¬ t.Expired now ref → t' ref = t ref)

end MultiplatformMemory
