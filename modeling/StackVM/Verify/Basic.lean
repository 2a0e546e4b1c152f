import StackVM.Code.Program
import StackVM.Machine.Capacity
import StackVM.Verify.Finding

/-! # Verification before loading

A program that decodes is checked in four rounds: some instruction halts; every distance leads to
an instruction; every link writes the operand of a global access, before linking is declared done;
no instruction asks for more than a context can ever supply. All findings are collected, round by
round and in program order within a round.
-/
namespace StackVM

/-- A decoded program: its instructions with their offsets, and its size in bytes. -/
structure Decoded where
  instrs : List (Nat × Instr)
  size : Nat
  deriving DecidableEq

namespace Decoded

/-- The instruction that starts exactly at an offset. -/
def instrAt? (d : Decoded) (pos : Nat) : Option Instr := d.instrs.lookup pos

def checkHalt (d : Decoded) : List Finding :=
  if d.instrs.any fun (_, i) => i.opcode = .halt then [] else [.missingHalt]

def target? (d : Decoded) (pos : Nat) (i : Instr) (distance : Int16) : Option Nat :=
  (relativeTarget? (pos + i.size) distance).filter (· < d.size)

def checkTarget (d : Decoded) (pos : Nat) (i : Instr) : List Finding :=
  match i.relative? with
  | none => []
  | some distance =>
    match d.target? pos i distance with
    | none => [.targetOutOfRange pos distance]
    | some target =>
      if (d.instrAt? target).isSome then [] else [.targetNotOnBoundary pos target]

def checkTargets (d : Decoded) : List Finding :=
  d.instrs.flatMap fun (pos, i) => d.checkTarget pos i

/-- Whether an address is that of the operand of an instruction that names a global. -/
def isGlobalOperand (d : Decoded) (address : Nat) : Bool :=
  match address with
  | 0 => false
  | site + 1 => (d.instrAt? site).any (·.opcode.takesGlobal)

def checkLink (d : Decoded) (initDone? : Option Nat) (pos : Nat) (target : UInt16) :
    List Finding :=
  (match initDone? with
    | some initDone => [.patchAfterInitDone pos initDone]
    | none => []) ++
  if d.isGlobalOperand target.toNat then [] else [.invalidPatchTarget pos target]

/-- Check the links among `instrs`, given the first end of linking before them. -/
def checkLinksFrom (d : Decoded) (initDone? : Option Nat) : List (Nat × Instr) → List Finding
  | [] => []
  | (pos, ⟨.initDone, _⟩) :: rest => d.checkLinksFrom (initDone?.or (some pos)) rest
  | (pos, ⟨.patch, target⟩) :: rest =>
    d.checkLink initDone? pos target ++ d.checkLinksFrom initDone? rest
  | _ :: rest => d.checkLinksFrom initDone? rest

def checkLinks (d : Decoded) : List Finding := d.checkLinksFrom none d.instrs

def builtFrom? : Instr → Option Nat
  | ⟨.makeClosure, e⟩ => some e.params.toNat
  | ⟨.makeArr, n⟩ => some n.toNat
  | ⟨.makeStr, n⟩ => some n.toNat
  | ⟨.makeHash, n⟩ => some (n.toNat * 2)
  | _ => none

def checkClosure (pos : Nat) : Instr → List Finding
  | ⟨.makeClosure, e⟩ =>
    if e.slots < e.params then [.invalidClosure pos e.params e.slots] else []
  | _ => []

def checkCount (pos : Nat) (i : Instr) : List Finding :=
  match builtFrom? i with
  | some count =>
    if count > Capacity.stack then [.countExceedsStack pos count Capacity.stack] else []
  | none => []

def checkLimits (d : Decoded) : List Finding :=
  d.instrs.flatMap fun (pos, i) => checkClosure pos i ++ checkCount pos i

def findings (d : Decoded) : List Finding :=
  d.checkHalt ++ d.checkTargets ++ d.checkLinks ++ d.checkLimits

end Decoded

/-- Everything the verifier finds; a program passes when the list is empty. -/
def Program.verify (p : Program) : List Finding :=
  match p.decodeAll with
  | .error e => [.undecodable e]
  | .ok instrs => (Decoded.mk instrs p.size).findings

end StackVM
