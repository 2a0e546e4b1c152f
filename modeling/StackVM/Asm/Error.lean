import StackVM.Code.Error

/-! # Errors of assembly text

Every error that a source line causes carries its one-based line number. The others come from the
layout of the whole text.
-/
namespace StackVM

inductive LineFault
  | unknownOpcode (token : String)
  | missingArgument (opcode : Opcode) (expected : Nat)
  | invalidNumber (token : String)
  | unexpectedToken (token : String)
  | unterminatedText
  | invalidEscape (escape : Char)
  | textTooLong (size : Nat)
  | duplicateLabel (name : String)
  | undefinedLabel (name : String)
  deriving DecidableEq

def LineFault.message : LineFault → String
  | .unknownOpcode token => s!"unknown opcode '{token}'"
  | .missingArgument opcode expected => s!"{opcode.mnemonic} expects {expected} argument(s)"
  | .invalidNumber token => s!"invalid number '{token}'"
  | .unexpectedToken token => s!"unexpected token '{token}'"
  | .unterminatedText => "unterminated string literal"
  | .invalidEscape escape => s!"unknown escape '\\{escape}'"
  | .textTooLong size => s!"string literal of {size} bytes exceeds 255"
  | .duplicateLabel name => s!"label '{name}' already defined"
  | .undefinedLabel name => s!"undefined label '{name}'"

inductive AsmError
  | inLine (line : Nat) (fault : LineFault)
  | layout (error : CodeError)
  deriving DecidableEq

def AsmError.message : AsmError → String
  | .inLine line fault => s!"line {line}: {fault.message}"
  | .layout error => error.message

end StackVM
