/-! # Types of values

Twelve built-in types form a tree under `Any`; `Str` and `Arr` are also sequences. Values carry
no other types, and no value carries `Any` or `Seq` itself.
-/
namespace StackVM

inductive Tag
  | null
  | bool
  | int
  | str
  | arr
  | func
  | any
  | seq
  | type
  | hash
  | clib
  | csym
  deriving DecidableEq, Inhabited

namespace Tag

def all : List Tag :=
  [.null, .bool, .int, .str, .arr, .func, .any, .seq, .type, .hash, .clib, .csym]

def name : Tag → String
  | .null => "Null"
  | .bool => "Bool"
  | .int => "Int"
  | .str => "Str"
  | .arr => "Arr"
  | .func => "Fun"
  | .any => "Any"
  | .seq => "Seq"
  | .type => "Type"
  | .hash => "Hash"
  | .clib => "CLib"
  | .csym => "CSym"

def ofName? (name : String) : Option Tag := all.find? (·.name == name)

def parent? : Tag → Option Tag
  | .any => none
  | .str | .arr => some .seq
  | _ => some .any

/-- A type, its parent, and so on up to the root. -/
def lineage : Tag → List Tag
  | .any => [.any]
  | .str => [.str, .seq, .any]
  | .arr => [.arr, .seq, .any]
  | t => [t, .any]

theorem lineage_eq (t : Tag) :
    t.lineage = t :: (t.parent?.map lineage).getD [] := by
  cases t <;> rfl

def isSubtype (t ancestor : Tag) : Bool := t.lineage.contains ancestor

end Tag

/-- The name of a value's type. The undefined marker has none of the types. -/
def typeName : Option Tag → String
  | some t => t.name
  | none => "Undef"

end StackVM
