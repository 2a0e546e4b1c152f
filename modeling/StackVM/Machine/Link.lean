import StackVM.Machine.Stack
import StackVM.Machine.Step

/-! # Linking

Before linking is declared done, code resolves global names to indices and writes them into the
operands of the instructions that use them.
-/
namespace StackVM.Exec

def resolveName (name : String) : Exec Nat := fun s =>
  let (index, globals) := s.machine.globals.resolve name
  .ok index { s with machine := { s.machine with globals := globals } }

def resolveGlobal (pos : Nat) : Exec Step := do
  match ← peek pos with
  | .str name =>
    let index ← resolveName name
    discard 1
    push pos (.int (Int64.ofNat index))
    return .next
  | found => fault pos (.typeMismatch .str found.tag?)

/-- Whether the byte in front of an address is the opcode of a global access, and the address that
of two bytes of the program. -/
def patchable (p : Program) (address : Nat) : Bool :=
  match address with
  | 0 => false
  | site + 1 =>
    ((p.byte? site).bind Opcode.ofByte?).any (·.takesGlobal) && (p.readWord? address).isSome

def indexOperand? (n : Int64) : Option UInt16 :=
  if 0 ≤ n.toInt ∧ n.toInt ≤ 65535 then some (UInt16.ofNat n.toInt.toNat) else none

def writeOperand (pos : Nat) (target index : UInt16) : Exec Step := do
  let p := (← machine).program
  if patchable p target.toNat then
    discard 1
    match p.writeWord target.toNat index with
    | .ok program =>
      modifyMachine fun m => { m with program := program }
      return .next
    | .error _ => fault pos (.invalidPatch target)
  else fault pos (.invalidPatch target)

def patch (pos : Nat) (target : UInt16) : Exec Step := do
  if (← machine).phase = .linking then
    match ← peek pos with
    | .int n =>
      match indexOperand? n with
      | some index => writeOperand pos target index
      | none => fault pos (.invalidPatch target)
    | found => fault pos (.typeMismatch .int found.tag?)
  else fault pos .patchAfterLink

def initDone : Exec Step := do
  modifyMachine fun m => if m.phase = .linking then { m with phase := .running } else m
  return .next

end StackVM.Exec
