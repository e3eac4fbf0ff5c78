import Mathlib.Data.Multiset.MapFold
import NeuralNetwork.Lib.Cpp

/-!
# The types that the serializers accept

`Ty` is the universe of the types for which the archives of `serializer/compact_serializer.h`,
`internal_rest/network_compact_serializer.h` and `internal_rest/network_trivial_serializer.h` have
overloads, and `Val t` the values of the type `t`. A reflectible struct is the list of the members
that its `dg_reflect` names.
-/

namespace Serializer

open Cpp

/-- `sizeof` of an arithmetic type. -/
inductive IntSize where
  | b1
  | b2
  | b4
  | b8
  | b16
deriving DecidableEq, Repr

def IntSize.bytes : IntSize → Nat
  | .b1 => 1
  | .b2 => 2
  | .b4 => 4
  | .b8 => 8
  | .b16 => 16

/-- An integer type. `listed` says that it is one of the types of
`has_unique_serializable_sameendian_representations_v`: `char` and the `int8_t` to `uint64_t`. -/
structure IntType where
  size : IntSize
  isSigned : Bool
  listed : Bool
deriving DecidableEq, Repr

def IntType.char : IntType := ⟨.b1, true, true⟩
def IntType.uint8 : IntType := ⟨.b1, false, true⟩
def IntType.uint16 : IntType := ⟨.b2, false, true⟩
def IntType.uint64 : IntType := ⟨.b8, false, true⟩

/-- `std::vector` and `std::basic_string`. -/
inductive Linear where
  | vector
  | basicString
deriving DecidableEq, Repr

-- a `cpyable` container is one of listed integers, a `noncpyable` one of anything else; `comp` and
-- `eq` name the comparator or the key equality of the container
mutual
inductive Ty where
  | int (i : IntType)
  | float (size : IntSize)
  | bool
  | uniquePtr (t : Ty)
  | optional (t : Ty)
  | variant (ts : Tys)
  | expected (value error : Ty)
  | tuple (ts : Tys)
  | cpyable (l : Linear) (i : IntType)
  | noncpyable (l : Linear) (t : Ty)
  | map (comp : Nat) (key mapped : Ty)
  | set (comp : Nat) (key : Ty)
  | unorderedMap (eq : Nat) (key mapped : Ty)
  | unorderedSet (eq : Nat) (key : Ty)
  | reflectible (ts : Tys)
  | containerWrapper (size : IntSize) (t : Ty)
inductive Tys where
  | nil
  | cons (t : Ty) (ts : Tys)
end

def Tys.length : Tys → Nat
  | .nil => 0
  | .cons _ ts => ts.length + 1

def Tys.replicate (t : Ty) : Nat → Tys
  | 0 => .nil
  | n + 1 => .cons t (.replicate t n)

abbrev Ty.pair (t u : Ty) : Ty := .tuple (.cons t (.cons u .nil))

/-- `std::array`, a tuple for the archives. -/
def Ty.array (t : Ty) (n : Nat) : Ty := .tuple (.replicate t n)

/-- The overload that a vector or a string falls to: `is_cpyable_linear_container_v` or
`is_noncpyable_linear_container_v`. -/
def Ty.linear (l : Linear) : Ty → Ty
  | .int i => if i.listed then .cpyable l i else .noncpyable l (.int i)
  | t => .noncpyable l t

/-! ## Values -/

-- a number is its bits; a variant without value is `valueless_by_exception`; an unordered container
-- is the multiset of its elements, as its order of iteration is not part of its value
mutual
def Val : Ty → Type
  | .int i => BitVec (8 * i.size.bytes)
  | .float size => BitVec (8 * size.bytes)
  | .bool => Bool
  | .uniquePtr t => Option (Val t)
  | .optional t => Option (Val t)
  | .variant ts => Option (Alts ts)
  | .expected v e => Val v ⊕ Val e
  | .tuple ts => Vals ts
  | .cpyable _ i => List (BitVec (8 * i.size.bytes))
  | .noncpyable _ t => List (Val t)
  | .map _ k m => List (Val k × Val m × Unit)
  | .set _ k => List (Val k)
  | .unorderedMap _ k m => Multiset (Val k × Val m × Unit)
  | .unorderedSet _ k => Multiset (Val k)
  | .reflectible ts => Vals ts
  | .containerWrapper _ t => List (Val t)
def Vals : Tys → Type
  | .nil => Unit
  | .cons t ts => Val t × Vals ts
def Alts : Tys → Type
  | .nil => Empty
  | .cons t ts => Val t ⊕ Alts ts
end

def Alts.index : (ts : Tys) → Alts ts → Nat
  | .cons _ _, .inl _ => 0
  | .cons _ ts, .inr a => index ts a + 1

-- what a default-initialized object holds; of a number it is overwritten before it is read
mutual
def init : (t : Ty) → Val t
  | .int _ => 0#_
  | .float _ => 0#_
  | .bool => false
  | .uniquePtr _ => none
  | .optional _ => none
  | .variant ts => initAlt ts
  | .expected v _ => .inl (init v)
  | .tuple ts => inits ts
  | .cpyable _ _ => []
  | .noncpyable _ _ => []
  | .map _ _ _ => []
  | .set _ _ => []
  | .unorderedMap _ _ _ => (0 : Multiset _)
  | .unorderedSet _ _ => (0 : Multiset _)
  | .reflectible ts => inits ts
  | .containerWrapper _ _ => []
def inits : (ts : Tys) → Vals ts
  | .nil => ()
  | .cons t ts => (init t, inits ts)
def initAlt : (ts : Tys) → Option (Alts ts)
  | .nil => none
  | .cons t _ => some (.inl (init t))
end

end Serializer
