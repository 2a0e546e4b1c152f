import StackVM.Text.Quoted
import StackVM.Value.Store

/-! # Values as text

A text is written raw at the top and quoted inside a container. A container that is met again
inside itself is written as an ellipsis; a container that is merely shared is written in full
each time. The path from the top holds each container at most once, so its length is bounded by
the number of containers in the store.
-/
namespace StackVM

/-- The objects that contain other values. -/
inductive Container
  | arr (ref : ArrRef)
  | hash (ref : HashRef)
  deriving DecidableEq

namespace Store

def renderFunction (st : Store) : Function → String
  | .native r => s!"native {(st.native r).name}"
  | .closure r => s!"closure@{(st.closure r).entry}/{(st.closure r).params.toNat}"
  | .chain r => s!"multi {(st.chain r).name} ({(st.chain r).overloads.length} overloads)"

def functionName (st : Store) : Function → String
  | .native r => (st.native r).name
  | .closure r => s!"closure@{(st.closure r).entry}"
  | .chain r => (st.chain r).name

def renderScalar (st : Store) : Value → String
  | .null => "null"
  | .bool b => if b then "true" else "false"
  | .int n => toString n.toInt
  | .str s => s
  | .func f => s!"<{st.renderFunction f}>"
  | .type t => s!"<type {t.name}>"
  | .clib handle => s!"<clib 0x{Hex.ofNat handle.toNat}>"
  | .csym handle => s!"<csym 0x{Hex.ofNat handle.toNat}>"
  | .undef => "<undef>"
  | .arr _ => "[...]"
  | .hash _ => "\x7b...\x7d"

def renderItems (items : List String) : String := "[" ++ ", ".intercalate items ++ "]"

def renderPairs (pairs : List (String × String)) : String :=
  "\x7b" ++ ", ".intercalate (pairs.map fun (k, v) => k ++ ": " ++ v) ++ "\x7d"

/-- A value inside a container: texts are quoted, `outer` writes the rest. -/
def renderInner (outer : Value → String) : Value → String
  | .str s => Text.quote s
  | v => outer v

/-- Render with at most `depth` containers open below the path from the top. -/
def renderFrom (st : Store) : (depth : Nat) → (path : List Container) → Value → String
  | 0, _, v => st.renderScalar v
  | depth + 1, path, .arr r =>
    if path.contains (.arr r) then "[...]"
    else
      let inner := renderInner (st.renderFrom depth (.arr r :: path))
      renderItems ((st.arr r).toList.map inner)
  | depth + 1, path, .hash r =>
    if path.contains (.hash r) then "\x7b...\x7d"
    else
      let inner := renderInner (st.renderFrom depth (.hash r :: path))
      renderPairs ((st.hash r).map fun (k, v) => (inner k.value, inner v))
  | _ + 1, _, v => st.renderScalar v

def render (st : Store) (v : Value) : String :=
  st.renderFrom (st.arrays.size + st.hashes.size + 1) [] v

end Store
end StackVM
