import StackVM.Value.Basic

/-! # Global variables

Names have dense indices in order of creation, and no name is ever removed, so code can refer to a
global by its index. A new slot holds the undefined marker.
-/
namespace StackVM

structure Globals where
  slots : Array (String × Value)
  deriving DecidableEq, Inhabited

namespace Globals

def empty : Globals := ⟨#[]⟩

def size (g : Globals) : Nat := g.slots.size

def isEmpty (g : Globals) : Bool := g.slots.isEmpty

def check? (g : Globals) (name : String) : Option Nat := g.slots.findIdx? (·.1 == name)

/-- The index of a name, which gets a new slot if it is not present. -/
def resolve (g : Globals) (name : String) : Nat × Globals :=
  match g.check? name with
  | some index => (index, g)
  | none => (g.slots.size, ⟨g.slots.push (name, .undef)⟩)

def name? (g : Globals) (index : Nat) : Option String := (g.slots[index]?).map (·.1)

def get? (g : Globals) (index : Nat) : Option Value := (g.slots[index]?).map (·.2)

def lookup? (g : Globals) (name : String) : Option Value := (g.check? name).bind g.get?

def contains (g : Globals) (index : Nat) : Bool := index < g.slots.size

/-- Store into a slot in use; other indices are ignored. -/
def set (g : Globals) (index : Nat) (value : Value) : Globals :=
  ⟨g.slots.modify index fun (name, _) => (name, value)⟩

def define (g : Globals) (name : String) (value : Value) : Nat × Globals :=
  let (index, g) := g.resolve name
  (index, g.set index value)

def describe (g : Globals) (index : Nat) : String := (g.name? index).getD s!"#{index}"

/-- The value of a name that something was stored in. -/
def defined? (g : Globals) (name : String) : Option Value :=
  (g.lookup? name).filter fun v => !v.isUndef

end Globals
end StackVM
