import StackVM.Code.Error
import StackVM.Code.Instr

/-! # References to code positions

How a position becomes an operand: a distance from the next instruction in a branch or a closure,
and an absolute operand address in a link.
-/
namespace StackVM

inductive Branch
  | always
  | ifTrue
  | ifFalse
  | handler
  deriving DecidableEq, Inhabited

namespace Branch

def opcode : Branch → Opcode
  | .always => .jump
  | .ifTrue => .jumpTrue
  | .ifFalse => .jumpFalse
  | .handler => .tryStart

def instr (b : Branch) (distance : Int16) : Instr :=
  match b with
  | .always => ⟨.jump, distance⟩
  | .ifTrue => ⟨.jumpTrue, distance⟩
  | .ifFalse => ⟨.jumpFalse, distance⟩
  | .handler => ⟨.tryStart, distance⟩

end Branch

structure NotBranch where
  opcode : Opcode
  deriving DecidableEq

def NotBranch.message (e : NotBranch) : String :=
  s!"{e.opcode.mnemonic} does not take a relative target"

def Opcode.toBranch : Opcode → Except NotBranch Branch
  | .jump => .ok .always
  | .jumpTrue => .ok .ifTrue
  | .jumpFalse => .ok .ifFalse
  | .tryStart => .ok .handler
  | op => .error ⟨op⟩

/-- The distance from `next` to `target`, if it fits sixteen signed bits. -/
def distanceTo (next target : Nat) : Except CodeError Int16 :=
  let delta := (target : Int) - (next : Int)
  if -32768 ≤ delta ∧ delta ≤ 32767 then .ok (Int16.ofInt delta)
  else .error (.offsetOutOfRange next target)

/-- The address of the operand of the instruction at `site`, if it fits sixteen bits. The referring
operand itself stands at `source`. -/
def operandAddress (source site : Nat) : Except CodeError UInt16 :=
  if site + 1 < 65536 then .ok (UInt16.ofNat (site + 1))
  else .error (.offsetOutOfRange source (site + 1))

end StackVM
