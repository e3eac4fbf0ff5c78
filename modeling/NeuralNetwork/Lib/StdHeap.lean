import Mathlib.Data.List.Sort

/-!
# The heap operations of a standard library

`StdHeap key` is what is promised of `std::make_heap`, `std::pop_heap` and `std::push_heap` on a
vector whose top is an element with the least key: they permute the vector, and `popHeap` moves a
top to its back. Which of several least elements that is, is left open. `StdHeap.sorted` keeps the vector
sorted.
-/

universe u

structure StdHeap {α : Type u} (key : α → Nat) where
  IsHeap : List α → Prop
  makeHeap : List α → List α
  popHeap : List α → List α
  pushHeap : List α → List α
  makeHeap_perm : ∀ l, (makeHeap l).Perm l
  popHeap_perm : ∀ l, (popHeap l).Perm l
  pushHeap_perm : ∀ l, (pushHeap l).Perm l
  makeHeap_isHeap : ∀ l, IsHeap (makeHeap l)
  popHeap_isHeap : ∀ l, IsHeap l → IsHeap (popHeap l).dropLast
  popHeap_least : ∀ l x, IsHeap l → (popHeap l).getLast? = some x → ∀ y ∈ l, key x ≤ key y
  pushHeap_isHeap : ∀ l x, IsHeap l → IsHeap (pushHeap (l ++ [x]))

namespace StdHeap

variable {α : Type u} {key : α → Nat}

/-- The order of a sorted vector, the least key at its back. -/
def Above (key : α → Nat) (x y : α) : Prop := key y ≤ key x

instance : DecidableRel (Above key) := fun x y => inferInstanceAs (Decidable (key y ≤ key x))

instance : Std.Total (Above key) := ⟨fun x y => Nat.le_total (key y) (key x)⟩

instance : IsTrans α (Above key) := ⟨fun _ _ _ hxy hyz => Nat.le_trans hyz hxy⟩

def sorted (key : α → Nat) : StdHeap key where
  IsHeap l := l.Pairwise (Above key)
  makeHeap l := l.insertionSort (Above key)
  popHeap l := l
  pushHeap l := l.insertionSort (Above key)
  makeHeap_perm l := l.perm_insertionSort (Above key)
  popHeap_perm l := .refl l
  pushHeap_perm l := l.perm_insertionSort (Above key)
  makeHeap_isHeap l := l.pairwise_insertionSort (Above key)
  popHeap_isHeap l h := h.sublist l.dropLast_sublist
  popHeap_least l x h hx y hy := by
    obtain ⟨ys, rfl⟩ := List.getLast?_eq_some_iff.1 hx
    rcases List.mem_append.1 hy with hy | hy
    · exact (List.pairwise_append.1 h).2.2 y hy x (List.mem_singleton_self x)
    · exact le_of_eq (congrArg key (List.mem_singleton.1 hy).symm)
  pushHeap_isHeap l x _ := (l ++ [x]).pairwise_insertionSort (Above key)

end StdHeap
