import StackVM.Asm.Token
import StackVM.Code.Codec
import StackVM.Code.Reference

/-! # Statements

A line holds at most one label definition and, after it, at most one statement. A statement is an
instruction whose operands are literals, or one whose target is the name of a label: the branches
and closures, and `PATCH`, which names the instruction whose operand it replaces.
-/
namespace StackVM

inductive Stmt
  | plain (instr : Instr)
  | branch (kind : Branch) (target : String)
  | closure (entry : String) (params slots : UInt8)
  | patch (site : String)
  deriving DecidableEq

structure Line where
  label : Option String
  stmt : Option Stmt
  deriving DecidableEq

namespace Stmt

/-- The instruction with a zero in place of a label. -/
def skeleton : Stmt → Instr
  | .plain i => i
  | .branch kind _ => kind.instr 0
  | .closure _ params slots => ⟨.makeClosure, ⟨0, params, slots⟩⟩
  | .patch _ => ⟨.patch, (0 : UInt16)⟩

def size (s : Stmt) : Nat := s.skeleton.size

def target? : Stmt → Option String
  | .plain _ => none
  | .branch _ name => some name
  | .closure name _ _ => some name
  | .patch name => some name

end Stmt

def Shape.arity : Shape → Nat
  | .bare => 0
  | .int | .text | .index | .slot | .offset => 1
  | .upvar => 2
  | .entry => 3

namespace Token

def within (low high : Int) : Token → Except LineFault Int
  | .number n =>
    if low ≤ n.toInt ∧ n.toInt ≤ high then .ok n.toInt
    else .error (.invalidNumber (toString n.toInt))
  | token => .error (.unexpectedToken token.spelling)

def int64 : Token → Except LineFault Int64
  | .number n => .ok n
  | token => .error (.unexpectedToken token.spelling)

def uint8 (t : Token) : Except LineFault UInt8 := do
  return UInt8.ofNat (← t.within 0 255).toNat

def uint16 (t : Token) : Except LineFault UInt16 := do
  return UInt16.ofNat (← t.within 0 65535).toNat

def int16 (t : Token) : Except LineFault Int16 := do
  return Int16.ofInt (← t.within (-32768) 32767)

def literal : Token → Except LineFault String
  | .text t =>
    if t.utf8ByteSize ≤ maxTextSize then .ok t else .error (.textTooLong t.utf8ByteSize)
  | token => .error (.unexpectedToken token.spelling)

end Token

/-- Exactly as many arguments as expected: too few are reported with the opcode, the first one too
many by itself. -/
def checkArity (op : Opcode) (args : List Token) : Except LineFault Unit :=
  if args.length < op.shape.arity then .error (.missingArgument op op.shape.arity)
  else
    match args.drop op.shape.arity with
    | extra :: _ => .error (.unexpectedToken extra.spelling)
    | [] => .ok ()

/-- An operand written with literals only. The counts of a closure are read before its entry. -/
def Shape.parseLiteral (op : Opcode) : (s : Shape) → List Token → Except LineFault s.Operand
  | .bare, _ => .ok ()
  | .int, [n] => n.int64
  | .text, [t] => t.literal
  | .index, [n] => n.uint16
  | .slot, [n] => n.uint8
  | .offset, [n] => n.int16
  | .upvar, [d, n] => do
    let depth ← d.uint8
    let slot ← n.uint8
    return ⟨depth, slot⟩
  | .entry, [e, p, n] => do
    let params ← p.uint8
    let slots ← n.uint8
    let offset ← e.int16
    return ⟨offset, params, slots⟩
  | s, _ => .error (.missingArgument op s.arity)

def parseStmt (op : Opcode) (args : List Token) : Except LineFault Stmt := do
  checkArity op args
  match op.toBranch, op, args with
  | .ok kind, _, [.ident name] => return .branch kind name
  | _, .makeClosure, [.ident name, p, n] =>
    let params ← p.uint8
    let slots ← n.uint8
    return .closure name params slots
  | _, .patch, [.ident name] => return .patch name
  | _, _, _ =>
    let operand ← op.shape.parseLiteral op args
    return .plain ⟨op, operand⟩

/-- The statement after a label, if there is one. Mnemonics are read in either case. -/
def parseBody : List Token → Except LineFault (Option Stmt)
  | [] => .ok none
  | .ident name :: args =>
    match Opcode.ofMnemonic? name.toUpper with
    | none => .error (.unknownOpcode name.toUpper)
    | some op => do return some (← parseStmt op args)
  | token :: _ => .error (.unexpectedToken token.spelling)

def parseLine : List Token → Except LineFault Line
  | .labelDef name :: rest => do return ⟨some name, ← parseBody rest⟩
  | tokens => do return ⟨none, ← parseBody tokens⟩

end StackVM
