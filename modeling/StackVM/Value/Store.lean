import StackVM.Value.Basic

/-! # The store

All shared objects live in one store, numbered in order of creation, and none is ever removed.
Closures and natives do not change after creation; arrays, hashes, local variables and overload
chains do. A reference that the store does not hold reads as an empty object.
-/
namespace StackVM

/-- Pairs in insertion order, each key once. -/
abbrev Entries := List (Key × Value)

namespace Entries

def get? (entries : Entries) (k : Key) : Option Value := entries.lookup k

/-- A new key goes last; a known key keeps its place and takes the new value. -/
def insert : Entries → Key → Value → Entries
  | [], k, v => [(k, v)]
  | (k', v') :: rest, k, v =>
    if k' = k then (k, v) :: rest else (k', v') :: insert rest k v

def ofPairs (pairs : List (Key × Value)) : Entries :=
  pairs.foldl (fun entries (k, v) => entries.insert k v) []

end Entries

/-- A function written in bytecode with the scopes it captured, innermost first. -/
structure Closure where
  entry : Nat
  params : UInt8
  slots : UInt8
  paramTypes : List Tag
  scope : List LocalsRef
  deriving DecidableEq, Inhabited

structure Chain where
  name : String
  overloads : List Function
  deriving DecidableEq, Inhabited

/-- The natives that every machine starts with. -/
inductive Builtin
  | addInt
  | concatStr
  | concatArr
  | sub
  | mul
  | less
  | greater
  | equal
  | len
  | push
  | throw
  | call
  deriving DecidableEq, Inhabited

/-- Which code a native runs: a built-in one, or one the host knows under a number. -/
inductive NativeCode
  | builtin (b : Builtin)
  | host (key : Nat)
  deriving DecidableEq, Inhabited

structure Native where
  name : String
  code : NativeCode
  deriving DecidableEq, Inhabited

structure Store where
  arrays : Array (Array Value)
  hashes : Array Entries
  locals : Array (Array Value)
  closures : Array Closure
  chains : Array Chain
  natives : Array Native
  deriving DecidableEq, Inhabited

namespace Store

def empty : Store := ⟨#[], #[], #[], #[], #[], #[]⟩

def arr (st : Store) (r : ArrRef) : Array Value := st.arrays[r.id]?.getD #[]

def hash (st : Store) (r : HashRef) : Entries := st.hashes[r.id]?.getD []

def slots (st : Store) (r : LocalsRef) : Array Value := st.locals[r.id]?.getD #[]

def closure (st : Store) (r : ClosureRef) : Closure := st.closures[r.id]?.getD default

def chain (st : Store) (r : ChainRef) : Chain := st.chains[r.id]?.getD default

def native (st : Store) (r : NativeRef) : Native := st.natives[r.id]?.getD default

def newArr (st : Store) (items : Array Value) : Value × Store :=
  (.arr ⟨st.arrays.size⟩, { st with arrays := st.arrays.push items })

def newHash (st : Store) (entries : Entries) : Value × Store :=
  (.hash ⟨st.hashes.size⟩, { st with hashes := st.hashes.push entries })

def newLocals (st : Store) (slots : Array Value) : LocalsRef × Store :=
  (⟨st.locals.size⟩, { st with locals := st.locals.push slots })

def newClosure (st : Store) (c : Closure) : Function × Store :=
  (.closure ⟨st.closures.size⟩, { st with closures := st.closures.push c })

def newNative (st : Store) (n : Native) : Function × Store :=
  (.native ⟨st.natives.size⟩, { st with natives := st.natives.push n })

def pushItem (st : Store) (r : ArrRef) (v : Value) : Store :=
  { st with arrays := st.arrays.modify r.id (·.push v) }

def putEntry (st : Store) (r : HashRef) (k : Key) (v : Value) : Store :=
  { st with hashes := st.hashes.modify r.id (·.insert k v) }

def setItems (st : Store) (r : ArrRef) (items : Array Value) : Store :=
  { st with arrays := st.arrays.setIfInBounds r.id items }

def setEntries (st : Store) (r : HashRef) (entries : Entries) : Store :=
  { st with hashes := st.hashes.setIfInBounds r.id entries }

def setSlot (st : Store) (r : LocalsRef) (slot : Nat) (v : Value) : Store :=
  { st with locals := st.locals.modify r.id (·.setIfInBounds slot v) }

/-- The pairs of a hash that describes a failure: its kind under `type`, then the given fields. -/
def errorPairs (kind : String) (fields : List (String × Value)) : List (Key × Value) :=
  (.str "type", .str kind) :: fields.map fun (name, v) => (.str name, v)

def newError (st : Store) (kind : String) (fields : List (String × Value)) : Value × Store :=
  st.newHash (.ofPairs (errorPairs kind fields))

def notCallable (st : Store) (found : Value) : Value × Store :=
  st.newError "NotCallable" [("found", .str found.typeName)]

def invalidDefinition (st : Store) (found : Value) : Value × Store :=
  st.newError "InvalidDefinition" [("found", .str found.typeName)]

def invalidKey (st : Store) (found : Value) : Value × Store :=
  st.newError "InvalidHashKey" [("found", .str found.typeName)]

/-- The value under a text key of a hash. -/
def field? (st : Store) (v : Value) (name : String) : Option Value :=
  match v with
  | .hash r => (st.hash r).get? (.str name)
  | _ => none

/-- Null, false, zero, the undefined marker and whatever is empty count as false. -/
def isTruthy (st : Store) : Value → Bool
  | .null | .undef => false
  | .bool b => b
  | .int n => n != 0
  | .str s => !s.isEmpty
  | .arr r => !(st.arr r).isEmpty
  | .hash r => !(st.hash r).isEmpty
  | _ => true

end Store
end StackVM
