import StackVM.Asm.Statement
import StackVM.Code.Program
import StackVM.Text.Lines

/-! # Layout of assembly text

Statements are laid out one after another from offset zero. The size of a statement does not
depend on the position of its label, so one pass over the lines fixes the offset of every
statement and label, and a second pass over the statements turns labels into operands.
-/
namespace StackVM

/-- A statement with its source line and its offset. -/
structure Placed where
  line : Nat
  pos : Nat
  stmt : Stmt
  deriving DecidableEq

/-- The lines laid out so far: label positions and statements, both newest first. -/
structure Layout where
  labels : List (String × Nat)
  placed : List Placed
  size : Nat
  deriving DecidableEq

namespace Layout

def empty : Layout := ⟨[], [], 0⟩

def define (l : Layout) (name : String) : Except LineFault Layout :=
  if (l.labels.lookup name).isSome then .error (.duplicateLabel name)
  else .ok { l with labels := (name, l.size) :: l.labels }

def place (l : Layout) (line : Nat) (stmt : Stmt) : Layout :=
  { l with placed := ⟨line, l.size, stmt⟩ :: l.placed, size := l.size + stmt.size }

def addLine (l : Layout) (number : Nat) (line : Line) : Except LineFault Layout := do
  let l ← match line.label with
    | some name => l.define name
    | none => pure l
  match line.stmt with
  | some stmt => return l.place number stmt
  | none => return l

def addSource (l : Layout) (number : Nat) (source : List Char) : Except LineFault Layout := do
  let tokens ← tokenize source
  let line ← parseLine tokens
  l.addLine number line

def addSources (l : Layout) (number : Nat) : List (List Char) → Except AsmError Layout
  | [] => .ok l
  | source :: rest =>
    match l.addSource number source with
    | .error fault => .error (.inLine number fault)
    | .ok l => l.addSources (number + 1) rest

def statements (l : Layout) : List Placed := l.placed.reverse

/-- Every statement's label is defined; otherwise the first reference that is not is reported. -/
def checkDefined (l : Layout) : Except AsmError Unit :=
  let undefined? (p : Placed) : Option (Nat × String) :=
    match p.stmt.target? with
    | some name => if (l.labels.lookup name).isSome then none else some (p.line, name)
    | none => none
  match l.statements.findSome? undefined? with
  | some (line, name) => .error (.inLine line (.undefinedLabel name))
  | none => .ok ()

def position (l : Layout) (name : String) : Nat := (l.labels.lookup name).getD 0

def resolve (l : Layout) (p : Placed) : Except CodeError Instr :=
  let next := p.pos + p.stmt.size
  match p.stmt with
  | .plain i => .ok i
  | .branch kind name => do
    return kind.instr (← distanceTo next (l.position name))
  | .closure name params slots => do
    let offset ← distanceTo next (l.position name)
    return ⟨.makeClosure, ⟨offset, params, slots⟩⟩
  | .patch name => do
    let address ← operandAddress (p.pos + 1) (l.position name)
    return ⟨.patch, address⟩

def program (l : Layout) : Except CodeError Program := do
  Program.ofInstrs (← l.statements.mapM l.resolve)

end Layout

/-- The program that an assembly text describes. -/
def assemble (text : String) : Except AsmError Program := do
  let layout ← Layout.empty.addSources 1 (Text.lines text)
  layout.checkDefined
  match layout.program with
  | .ok program => .ok program
  | .error e => .error (.layout e)

end StackVM
