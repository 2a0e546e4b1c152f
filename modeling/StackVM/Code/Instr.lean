import StackVM.Code.Opcode

/-! # Instructions

An instruction is an opcode together with an operand of the opcode's shape, so an operand block
of the wrong layout cannot be written down.
-/
namespace StackVM

structure EntryPoint where
  offset : Int16
  params : UInt8
  slots : UInt8
  deriving DecidableEq, Inhabited

structure Upvar where
  depth : UInt8
  slot : UInt8
  deriving DecidableEq, Inhabited

@[reducible] def Shape.Operand : Shape → Type
  | .bare => Unit
  | .int => Int64
  | .text => String
  | .index => UInt16
  | .slot => UInt8
  | .offset => Int16
  | .entry => EntryPoint
  | .upvar => Upvar

instance Shape.decEqOperand : (s : Shape) → DecidableEq s.Operand
  | .bare => inferInstanceAs (DecidableEq Unit)
  | .int => inferInstanceAs (DecidableEq Int64)
  | .text => inferInstanceAs (DecidableEq String)
  | .index => inferInstanceAs (DecidableEq UInt16)
  | .slot => inferInstanceAs (DecidableEq UInt8)
  | .offset => inferInstanceAs (DecidableEq Int16)
  | .entry => inferInstanceAs (DecidableEq EntryPoint)
  | .upvar => inferInstanceAs (DecidableEq Upvar)

structure Instr where
  opcode : Opcode
  operand : opcode.shape.Operand
  deriving DecidableEq

def Shape.operandSize : (s : Shape) → s.Operand → Nat
  | .bare, _ => 0
  | .int, _ => 8
  | .text, t => 1 + t.utf8ByteSize
  | .index, _ => 2
  | .slot, _ => 1
  | .offset, _ => 2
  | .entry, _ => 4
  | .upvar, _ => 2

/-- The distance that a jump, a handler or a closure carries. -/
def Shape.relative? : (s : Shape) → s.Operand → Option Int16
  | .offset, d => some d
  | .entry, e => some e.offset
  | _, _ => none

/-- The offset `distance` away from the next instruction; none if it is negative. -/
def relativeTarget? (next : Nat) (distance : Int16) : Option Nat :=
  let target := (next : Int) + distance.toInt
  if 0 ≤ target then some target.toNat else none

namespace Instr

def size (i : Instr) : Nat := 1 + i.opcode.shape.operandSize i.operand

theorem size_pos (i : Instr) : 0 < i.size := by
  simp only [size]; omega

def relative? (i : Instr) : Option Int16 := i.opcode.shape.relative? i.operand

end Instr
end StackVM
