import NeuralNetwork.AllocationBase.Caller
import NeuralNetwork.AllocationBase.Proof.AffinedAllocator
import NeuralNetwork.AllocationBase.Proof.DistributedAllocator
import NeuralNetwork.Lib.Run

/-!
# Runs of the affined allocator

A caller of the affined allocator over any lawful base. Every call keeps `RunInv` (`RunInv.call`), and
**`one_place`** says what it means for the blocks obtained from the base, of which a log is kept.
-/

namespace AllocationBase.GlobalAllocator.AffinedAllocator

open Cpp Loop Region HashTable

variable {σ : Type} (base : Allocator σ) (iteration : Order (Nat × List Ptr))

def call : Caller (σ × Log) → Call → Except Fault (Option (Caller (σ × Log))) :=
  Caller.call (AffinedAllocator.malloc base.logged iteration) (AffinedAllocator.free base.logged iteration)

def Step : Caller (σ × Log) → Call → Caller (σ × Log) → Prop :=
  Caller.Step (AffinedAllocator.malloc base.logged iteration) (AffinedAllocator.free base.logged iteration)

def start (t : σ) (m : Memory) : Caller (σ × Log) := ⟨(make, (t, ⟨[], []⟩), m), []⟩

/-- Where the blocks obtained from the base are: with the caller, in the queue of a size, or about to be
freed. -/
def places (s : Caller (σ × Log)) : List Ptr :=
  (s.outstanding ++ cachedBlocks s.world.1).map (fun b => (b.outer 4).ptr) ++ s.world.1.freeVec

def log (s : Caller (σ × Log)) : Log := s.world.2.1.2

variable {base iteration} {short : Prop} {limit : Nat} {inv : σ → Memory → List Block → Prop}
  {s s' : Caller (σ × Log)} {c : Call} {hist : List Call} {t : σ} {m : Memory}

def RunInv (inv : σ → Memory → List Block → Prop) (w : World (σ × Log)) (live : List Block) : Prop :=
  AffInv (fun t m live => inv t.1 m live ∧ Balanced t.2 live) none w live []

theorem runInv_start (h : inv t m []) : RunInv inv (start t m).world (start t m).outstanding := by
  refine ⟨⟨List.nodup_nil, rfl, fun q hq => List.eq_of_mem_replicate hq, by simp [start, make]⟩, ?_,
    [], rfl, Nat.zero_le _, h, .refl _⟩
  intro b hb
  cases hb

theorem RunInv.keeps (hA : Lawful base short limit inv) (iteration : Order (Nat × List Ptr)) :
    Caller.Keeps (AffinedAllocator.free base.logged iteration) (RunInv inv) where
  perm hi hp := AffInv.perm hA.logged hi hp
  free_null _ := rfl
  free hi := by
    obtain ⟨w', e, hi', -⟩ := AffInv.free_ok hA.logged hi iteration
    exact ⟨w', e, hi'⟩
  write bs hi hw := by
    obtain ⟨m', e, hi', -⟩ := AffInv.write hA.logged hi hw
    exact ⟨m', e, hi'⟩

/-- Every call keeps the invariant, and it ends unless the memory is short or the size is too large. -/
theorem RunInv.call (hA : Lawful base short limit inv) (hlimit : 2 ^ 32 + 3 ≤ limit)
    (h : RunInv inv s.world s.outstanding) (iteration : Order (Nat × List Ptr)) (c : Call) :
    Ends (short ∨ ∃ sz, c = .malloc sz ∧ 2 ^ 32 ≤ sz) (call base iteration s c)
      fun r => ∀ s', r = some s' → RunInv inv s'.world s'.outstanding := by
  refine Caller.call_ends (RunInv.keeps hA iteration) h c fun sz hc => ?_
  have hshort : short ∨ 2 ^ 32 ≤ sz → short ∨ ∃ sz', c = .malloc sz' ∧ 2 ^ 32 ≤ sz' :=
    fun hs => hs.imp_right fun hs => ⟨sz, hc, hs⟩
  refine ((AffInv.malloc_ok hA.logged hlimit h iteration sz).weaken hshort).mono fun r hr => ?_
  rcases hr with ⟨-, rfl⟩ | ⟨b, hb, rfl, hi, -⟩
  · exact h
  · rw [hb]
    exact hi

theorem RunInv.reach (hA : Lawful base short limit inv) (hlimit : 2 ^ 32 + 3 ≤ limit) (h0 : inv t m [])
    (h : Run.Reach (· = start t m) (Step base iteration) s hist) : RunInv inv s.world s.outstanding :=
  h.inv (fun s _ => RunInv inv s.world s.outstanding) (fun _ e => e ▸ runInv_start h0)
    fun _ _ c s' hi hs => (hi.call hA hlimit iteration c).of_eq_ok hs s' rfl

/-- **Each block is in one place.** Over any lawful base, in every state that calls lead to: what was
obtained from the base is outstanding, cached, about to be freed or was returned, as often as it was
obtained, and no two of the first three are the same; no cached size has an empty queue. A call aborts only
for want of memory or for a size that has no header. -/
theorem one_place (hA : Lawful base short limit inv) (hlimit : 2 ^ 32 + 3 ≤ limit) (h0 : inv t m [])
    (h : Run.Reach (· = start t m) (Step base iteration) s hist) :
    (log s).obtained.Perm (places s ++ (log s).returned) ∧ (places s).Nodup ∧
      s.world.1.poolVec.length + s.world.1.cacheMap.length = stackCapturePoolSz ∧
      (∀ e ∈ s.world.1.cacheMap, e.2 ≠ []) ∧
      ∀ c fault, call base iteration s c = .error fault →
        fault = .abort ∧ (short ∨ ∃ sz, c = .malloc sz ∧ 2 ^ 32 ≤ sz) := by
  have hi := RunInv.reach hA hlimit h0 h
  obtain ⟨pend, hptr, -, hinv, hbal⟩ := hi.pending
  rw [List.append_nil] at hinv hbal
  have hplaces : ((pend ++ (s.outstanding ++ cachedBlocks s.world.1).map (Block.outer 4)).map
      Block.ptr).Perm (places s) := by
    rw [List.map_append, hptr, List.map_map]
    exact List.perm_append_comm
  refine ⟨hbal.trans (hplaces.append_right _), hplaces.nodup_iff.1 ?_, hi.shape.total,
    fun e he => (hi.shape.full e he).1 nofun, fun c fault e =>
      (hi.call hA hlimit iteration c).of_eq_error e⟩
  refine List.pairwise_map.2 ((hA.disjoint hinv).imp_of_mem fun hb hc hd => ?_)
  exact hd.ptr_ne (hA.inside hinv _ hb).1 (hA.inside hinv _ hc).1

def sampleEnv : Env := ⟨fun _ _ => true, fun _ _ => 0, fun _ => 0⟩

/-- Two blocks of 5 bytes, of which the second is written to and given back, and one of 9. -/
def sampleCalls : List Call :=
  [.malloc 5, .malloc 5, .write ⟨14, 7⟩ [0xff#8, 0xff#8], .free (some ⟨14, 6⟩), .malloc 9]

theorem one_place_sample : ∃ s : Caller (DistributedAllocator × Log), s.outstanding.length = 2 ∧
    (log s).obtained.length = 32 ∧ (log s).obtained.Perm (places s ++ (log s).returned) ∧
    (places s).Nodup ∧ s.world.1.poolVec.length + s.world.1.cacheMap.length = stackCapturePoolSz := by
  have hrun : (sampleCalls.foldlM (fun s c => Run.ofStep (call (DistributedAllocator.allocator sampleEnv)
      (Order.id _) s c)) (start .make ⟨[], fun _ => 0⟩)).map
        (fun s => (s.outstanding.length, (log s).obtained.length)) = some (2, 32) := by
    decide +kernel
  obtain ⟨s, hs, e⟩ := Option.map_eq_some_iff.1 hrun
  obtain ⟨h1, h2⟩ := Prod.mk.inj e
  have hinit : Run.Reach (· = start DistributedAllocator.make ⟨[], fun _ => 0⟩)
      (Step (DistributedAllocator.allocator sampleEnv) (Order.id _)) (start .make ⟨[], fun _ => 0⟩) [] :=
    .init rfl
  obtain ⟨hperm, hnodup, htotal, -⟩ := one_place (DistributedAllocator.lawful sampleEnv) (by decide)
    (DistributedAllocator.distInv_make _) (hinit.runM (fun e => e) hs)
  exact ⟨s, h1, h2, hperm, hnodup, htotal⟩

end AllocationBase.GlobalAllocator.AffinedAllocator
