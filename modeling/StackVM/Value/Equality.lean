import StackVM.Value.Store

/-! # Equality of values

Containers are compared by content, in any insertion order for hashes, and functions by identity.
A pair of containers that is met again while it is being compared counts as equal, so cyclic
values can be compared. The pairs under comparison are distinct, so their number is bounded by
the pairs of containers in the store.
-/
namespace StackVM

inductive ContainerPair
  | arr (a b : ArrRef)
  | hash (a b : HashRef)
  deriving DecidableEq

namespace Store

def equalScalar : Value → Value → Bool
  | .null, .null | .undef, .undef => true
  | .bool a, .bool b => a == b
  | .int a, .int b => a == b
  | .str a, .str b => a == b
  | .func f, .func g => f == g
  | .type s, .type t => s == t
  | .clib a, .clib b => a == b
  | .csym a, .csym b => a == b
  | _, _ => false

def equalFrom (st : Store) : (depth : Nat) → (path : List ContainerPair) → Value → Value → Bool
  | 0, _, a, b => equalScalar a b
  | depth + 1, path, .arr a, .arr b =>
    if a = b then true
    else if path.contains (.arr a b) then true
    else
      let left := st.arr a
      let right := st.arr b
      left.size == right.size &&
        (left.toList.zip right.toList).all fun (x, y) =>
          st.equalFrom depth (.arr a b :: path) x y
  | depth + 1, path, .hash a, .hash b =>
    if a = b then true
    else if path.contains (.hash a b) then true
    else
      let left := st.hash a
      let right := st.hash b
      left.length == right.length &&
        left.all fun (k, x) =>
          match right.get? k with
          | some y => st.equalFrom depth (.hash a b :: path) x y
          | none => false
  | _ + 1, _, a, b => equalScalar a b

/-- Equality of two values over a store. -/
def equal (st : Store) (a b : Value) : Bool :=
  st.equalFrom (st.arrays.size * st.arrays.size + st.hashes.size * st.hashes.size + 1) [] a b

end Store
end StackVM
