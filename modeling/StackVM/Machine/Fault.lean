import StackVM.Code.Error
import StackVM.Code.Instr
import StackVM.Value.Tag

/-! # Faults

A fault ends a run. It names the offset of the instruction that could not be fetched or executed,
and the cause. Exceptions and failed calls are not faults: they are values.
-/
namespace StackVM

inductive Cause
  | stackOverflow
  | stackUnderflow
  | frameOverflow
  | handlerOverflow
  | globalUndefined (name : String)
  | localUndefined (slot : UInt8)
  | upvarUndefined (var : Upvar)
  | upvarOutOfRange (var : Upvar)
  | localOutOfRange (slot : UInt8)
  | noActiveFrame
  | invalidOpcode (byte : UInt8)
  | truncatedOperand (opcode : Opcode)
  | invalidText
  | ipOutOfRange
  | jumpOutOfRange (offset : Int16)
  | invalidPatch (target : UInt16)
  | patchAfterLink
  | invalidClosure (params slots : UInt8)
  | typeMismatch (expected : Tag) (found : Option Tag)
  | unbalancedTry
  | haltWithEmptyStack
  | unexpectedHalt
  deriving DecidableEq

structure Fault where
  pos : Nat
  cause : Cause
  deriving DecidableEq

namespace Fault

def message (f : Fault) : String :=
  let pos := f.pos
  match f.cause with
  | .stackOverflow => s!"stack overflow at offset {pos}"
  | .stackUnderflow => s!"stack underflow at offset {pos}"
  | .frameOverflow => s!"frame overflow at offset {pos}"
  | .handlerOverflow => s!"handler overflow at offset {pos}"
  | .globalUndefined name => s!"global {name} is undefined at offset {pos}"
  | .localUndefined slot => s!"local {slot.toNat} is undefined at offset {pos}"
  | .upvarUndefined var =>
    s!"upvar {var.depth.toNat}:{var.slot.toNat} is undefined at offset {pos}"
  | .upvarOutOfRange var =>
    s!"upvar {var.depth.toNat}:{var.slot.toNat} out of range at offset {pos}"
  | .localOutOfRange slot => s!"local {slot.toNat} out of range at offset {pos}"
  | .noActiveFrame => s!"no active frame at offset {pos}"
  | .invalidOpcode byte => s!"invalid opcode 0x{Hex.ofByte byte} at offset {pos}"
  | .truncatedOperand opcode => s!"truncated operand for {opcode.mnemonic} at offset {pos}"
  | .invalidText => s!"invalid string literal at offset {pos}"
  | .ipOutOfRange => s!"instruction pointer {pos} is outside the program"
  | .jumpOutOfRange offset => s!"relative target {offset.toInt} out of range at offset {pos}"
  | .invalidPatch target => s!"invalid patch of offset {target.toNat} at offset {pos}"
  | .patchAfterLink => s!"PATCH after linking at offset {pos}"
  | .invalidClosure params slots =>
    s!"closure with {params.toNat} params but {slots.toNat} locals at offset {pos}"
  | .typeMismatch expected found =>
    s!"expected {expected.name}, found {typeName found} at offset {pos}"
  | .unbalancedTry => s!"TRY_END without handler at offset {pos}"
  | .haltWithEmptyStack => s!"HALT with empty stack at offset {pos}"
  | .unexpectedHalt => s!"HALT inside a nested call at offset {pos}"

def ofDecode (ip : Nat) : CodeError → Fault
  | .invalidOpcode pos byte => ⟨pos, .invalidOpcode byte⟩
  | .truncatedOperand pos opcode => ⟨pos, .truncatedOperand opcode⟩
  | .invalidText pos => ⟨pos, .invalidText⟩
  | _ => ⟨ip, .ipOutOfRange⟩

end Fault
end StackVM
