import StackVM.Code.Opcode
import StackVM.Text.Hex

/-! # Errors of bytecode

Why bytes do not decode, an instruction does not encode, or a program under construction cannot
be finished. Offsets are byte positions.
-/
namespace StackVM

inductive CodeError
  | invalidOpcode (pos : Nat) (byte : UInt8)
  | truncatedOperand (pos : Nat) (opcode : Opcode)
  | invalidText (pos : Nat)
  | outOfBounds (pos size : Nat)
  | textTooLong (size : Nat)
  | unboundLabel (label : Nat)
  | offsetOutOfRange (source target : Nat)
  deriving DecidableEq

namespace CodeError

def message : CodeError → String
  | .invalidOpcode pos byte => s!"invalid opcode 0x{Hex.ofByte byte} at offset {pos}"
  | .truncatedOperand pos opcode => s!"truncated operand for {opcode.mnemonic} at offset {pos}"
  | .invalidText pos => s!"string literal at offset {pos} is not valid UTF-8"
  | .outOfBounds pos size => s!"offset {pos} is outside the program (length {size})"
  | .textTooLong size => s!"string literal of {size} bytes exceeds the 255-byte limit"
  | .unboundLabel label => s!"label {label} referenced but never bound"
  | .offsetOutOfRange source target =>
    s!"target {target} is out of 16-bit range from offset {source}"

end CodeError
end StackVM
