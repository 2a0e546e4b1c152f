import StackVM.Value.Tag

/-! # Values

Scalars and texts stand for themselves. Arrays, hashes and functions are references into a store,
so two values can share one container, and a container can hold itself.
-/
namespace StackVM

structure ArrRef where
  id : Nat
  deriving DecidableEq, Inhabited

structure HashRef where
  id : Nat
  deriving DecidableEq, Inhabited

/-- The local variables of one call, shared with the closures that capture them. -/
structure LocalsRef where
  id : Nat
  deriving DecidableEq, Inhabited

structure ClosureRef where
  id : Nat
  deriving DecidableEq, Inhabited

structure ChainRef where
  id : Nat
  deriving DecidableEq, Inhabited

structure NativeRef where
  id : Nat
  deriving DecidableEq, Inhabited

/-- A callable object: provided by the host, written in bytecode, or a chain of overloads. -/
inductive Function
  | native (ref : NativeRef)
  | closure (ref : ClosureRef)
  | chain (ref : ChainRef)
  deriving DecidableEq

inductive Value
  | null
  | bool (b : Bool)
  | int (n : Int64)
  | str (s : String)
  | arr (ref : ArrRef)
  | func (f : Function)
  | type (t : Tag)
  | hash (ref : HashRef)
  | clib (handle : UInt64)
  | csym (handle : UInt64)
  /-- The content of a slot that nothing was stored in yet. -/
  | undef
  deriving DecidableEq, Inhabited

/-- The values that can be keys of a hash. -/
inductive Key
  | null
  | bool (b : Bool)
  | int (n : Int64)
  | str (s : String)
  deriving DecidableEq

namespace Value

def tag? : Value → Option Tag
  | .null => some .null
  | .bool _ => some .bool
  | .int _ => some .int
  | .str _ => some .str
  | .arr _ => some .arr
  | .func _ => some .func
  | .type _ => some .type
  | .hash _ => some .hash
  | .clib _ => some .clib
  | .csym _ => some .csym
  | .undef => none

def typeName (v : Value) : String := StackVM.typeName v.tag?

def isUndef : Value → Bool
  | .undef => true
  | _ => false

def int? : Value → Option Int64
  | .int n => some n
  | _ => none

def str? : Value → Option String
  | .str s => some s
  | _ => none

def func? : Value → Option Function
  | .func f => some f
  | _ => none

def key? : Value → Option Key
  | .null => some .null
  | .bool b => some (.bool b)
  | .int n => some (.int n)
  | .str s => some (.str s)
  | _ => none

end Value

def Key.value : Key → Value
  | .null => .null
  | .bool b => .bool b
  | .int n => .int n
  | .str s => .str s

theorem Key.key?_value (k : Key) : k.value.key? = some k := by
  cases k <;> rfl

end StackVM
