import StackVM.Code.Program
import StackVM.Text.Quoted

/-! # Canonical assembly text

One instruction per line, every operand as a plain number or an escaped literal: distances stay
relative, and addresses absolute.
-/
namespace StackVM

def Shape.arguments : (s : Shape) → s.Operand → List String
  | .bare, _ => []
  | .int, n => [toString n.toInt]
  | .text, t => ["\"" ++ Text.escape t ++ "\""]
  | .index, n => [toString n.toNat]
  | .slot, n => [toString n.toNat]
  | .offset, d => [toString d.toInt]
  | .entry, e => [toString e.offset.toInt, toString e.params.toNat, toString e.slots.toNat]
  | .upvar, u => [toString u.depth.toNat, toString u.slot.toNat]

def Instr.text (i : Instr) : String :=
  " ".intercalate (i.opcode.mnemonic :: i.opcode.shape.arguments i.operand)

def listing (instrs : List Instr) : String :=
  instrs.foldl (fun text i => text ++ i.text ++ "\n") ""

def Program.disassemble (p : Program) : Except CodeError String :=
  p.decodeAll.map fun instrs => listing (instrs.map (·.2))

end StackVM
