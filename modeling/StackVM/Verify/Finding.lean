import StackVM.Code.Error

/-! # Findings of the verifier

Each finding about an instruction carries the instruction's offset.
-/
namespace StackVM

inductive Finding
  | undecodable (error : CodeError)
  | missingHalt
  | targetOutOfRange (pos : Nat) (offset : Int16)
  | targetNotOnBoundary (pos target : Nat)
  | invalidPatchTarget (pos : Nat) (target : UInt16)
  | patchAfterInitDone (pos initDone : Nat)
  | invalidClosure (pos : Nat) (params slots : UInt8)
  | countExceedsStack (pos count capacity : Nat)
  deriving DecidableEq

def Finding.message : Finding → String
  | .undecodable error => s!"undecodable stream: {error.message}"
  | .missingHalt => "program contains no HALT"
  | .targetOutOfRange pos offset =>
    s!"target of offset {offset.toInt} at {pos} is outside the program"
  | .targetNotOnBoundary pos target =>
    s!"target {target} of instruction at {pos} is not an instruction boundary"
  | .invalidPatchTarget pos target =>
    s!"PATCH at {pos} targets {target.toNat}, which is not a global-index operand"
  | .patchAfterInitDone pos initDone => s!"PATCH at {pos} follows INIT_DONE at {initDone}"
  | .invalidClosure pos params slots =>
    s!"closure at {pos} has {params.toNat} params but only {slots.toNat} locals"
  | .countExceedsStack pos count capacity =>
    s!"instruction at {pos} pops {count} values (stack holds {capacity})"

end StackVM
