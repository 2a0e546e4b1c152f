import StackVM.Code.Program
import StackVM.Code.Reference

/-! # Building programs with labels

A builder collects bytes, label positions and the operands that still have to be filled in.
Positions count from the builder's origin, so a unit can be laid out for the place where it will
be loaded. Errors wait until `finish`: the first text that is too long comes first, then the
first reference that cannot be filled in, in the order in which the references were made.
-/
namespace StackVM

structure Label where
  index : Nat
  deriving DecidableEq, Inhabited

/-- An operand to fill in once labels are bound. Sites are positions in the builder's bytes. -/
inductive Fixup
  | relative (site next : Nat) (label : Label)
  | address (site : Nat) (label : Label)
  deriving DecidableEq

structure Builder where
  origin : Nat
  bytes : Array UInt8
  labels : Array (Option Nat)
  fixups : Array Fixup
  error : Option CodeError
  deriving DecidableEq

namespace Builder

def new (origin : Nat) : Builder := ⟨origin, #[], #[], #[], none⟩

def offset (b : Builder) : Nat := b.origin + b.bytes.size

def label (b : Builder) : Label × Builder :=
  (⟨b.labels.size⟩, { b with labels := b.labels.push none })

/-- Bind a label to the current position; a later binding replaces an earlier one. -/
def bind (b : Builder) (l : Label) : Builder :=
  { b with labels := b.labels.setIfInBounds l.index (some b.offset) }

def here (b : Builder) : Label × Builder :=
  let (l, b) := b.label
  (l, b.bind l)

/-- Append an instruction. One without an encoding adds no bytes and is remembered. -/
def emit (b : Builder) (i : Instr) : Builder :=
  match i.encode with
  | .ok bytes => { b with bytes := b.bytes.appendList bytes }
  | .error e => { b with error := b.error.or (some e) }

def emitRef (b : Builder) (i : Instr) (fixup : (site next : Nat) → Fixup) : Builder :=
  let site := b.bytes.size + 1
  let b := b.emit i
  { b with fixups := b.fixups.push (fixup site b.offset) }

def jump (b : Builder) (branch : Branch) (target : Label) : Builder :=
  b.emitRef (branch.instr 0) fun site next => .relative site next target

def closure (b : Builder) (entry : Label) (params slots : UInt8) : Builder :=
  b.emitRef ⟨.makeClosure, ⟨0, params, slots⟩⟩ fun site next => .relative site next entry

def patch (b : Builder) (site : Label) : Builder :=
  b.emitRef ⟨.patch, (0 : UInt16)⟩ fun pos _ => .address pos site

/-- Code that resolves a global name and writes its index into the labelled instruction. -/
def link (b : Builder) (name : String) (site : Label) : Builder :=
  ((b.emit ⟨.pushText, name⟩).emit ⟨.resolveGlobal, ()⟩).patch site

def resolve (b : Builder) (l : Label) : Except CodeError Nat :=
  match b.labels[l.index]? with
  | some (some pos) => .ok pos
  | _ => .error (.unboundLabel l.index)

def fill (b : Builder) (p : Program) : Fixup → Except CodeError Program
  | .relative site next l => do
    let target ← b.resolve l
    let distance ← distanceTo next target
    p.writeWord site distance.toUInt16
  | .address pos l => do
    let site ← b.resolve l
    let address ← operandAddress (b.origin + pos) site
    p.writeWord pos address

def finish (b : Builder) : Except CodeError Program :=
  match b.error with
  | some e => .error e
  | none => b.fixups.foldlM b.fill ⟨b.bytes⟩

inductive Command
  | label
  | here
  | bind (label : Label)
  | emit (instr : Instr)
  | jump (branch : Branch) (target : Label)
  | closure (entry : Label) (params slots : UInt8)
  | patch (site : Label)
  | link (name : String) (site : Label)
  deriving DecidableEq

def perform (b : Builder) : Command → Builder
  | .label => b.label.2
  | .here => b.here.2
  | .bind l => b.bind l
  | .emit i => b.emit i
  | .jump branch target => b.jump branch target
  | .closure entry params slots => b.closure entry params slots
  | .patch site => b.patch site
  | .link name site => b.link name site

def performAll (b : Builder) (commands : List Command) : Builder := commands.foldl perform b

end Builder
end StackVM
