import StackVM.Code.Codec

/-! # Programs

A program is a flat run of bytes. A sweep decodes it front to back and stops at the first offset
where no instruction starts. Linking changes two-byte operands in place.
-/
namespace StackVM

structure Program where
  bytes : Array UInt8
  deriving DecidableEq, Inhabited

namespace Program

def empty : Program := ⟨#[]⟩

def size (p : Program) : Nat := p.bytes.size

def isEmpty (p : Program) : Bool := p.bytes.isEmpty

/-- The encodings of the instructions one after another; the first one that has none is an error. -/
def ofInstrs (instrs : List Instr) : Except CodeError Program :=
  (instrs.foldlM (fun acc (i : Instr) => i.encode.map acc.appendList) #[]).map Program.mk

def append (p : Program) (bytes : Array UInt8) : Program := ⟨p.bytes ++ bytes⟩

def byte? (p : Program) (pos : Nat) : Option UInt8 := p.bytes[pos]?

def decodeAt (p : Program) (pos : Nat) : Except CodeError (Instr × Nat) :=
  Instr.decode p.bytes pos

def readWord? (p : Program) (pos : Nat) : Option UInt16 :=
  (readLE p.bytes 2 pos).map UInt16.ofNat

/-- Store a two-byte operand; nothing changes unless both bytes lie inside the program. -/
def writeWord (p : Program) (pos : Nat) (value : UInt16) : Except CodeError Program :=
  if pos + 2 ≤ p.size then
    .ok ⟨(p.bytes.setIfInBounds pos (UInt8.ofNat value.toNat)).setIfInBounds (pos + 1)
      (UInt8.ofNat (value.toNat / 256))⟩
  else .error (.outOfBounds pos p.size)

def sweepFrom (p : Program) (pos : Nat) (found : List (Nat × Instr)) :
    List (Nat × Instr) × Option CodeError :=
  if pos < p.size then
    match _ : p.decodeAt pos with
    | .ok (i, next) => sweepFrom p next ((pos, i) :: found)
    | .error e => (found.reverse, some e)
  else (found.reverse, none)
termination_by p.size - pos
decreasing_by
  have := Instr.next_eq_of_decode ‹_›
  have := i.size_pos
  omega

/-- The instructions from the front with their offsets, and why the sweep stopped before the end. -/
def sweep (p : Program) : List (Nat × Instr) × Option CodeError := p.sweepFrom 0 []

def decodeAll (p : Program) : Except CodeError (List (Nat × Instr)) :=
  match p.sweep with
  | (instrs, none) => .ok instrs
  | (_, some e) => .error e

end Program
end StackVM
