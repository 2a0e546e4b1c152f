import StackVM.Asm.Layout
import StackVM.Asm.Printer
import StackVM.Cli.Script
import StackVM.Machine.Vm
import StackVM.Verify.Basic

/-! # Commands

Four commands work on files: `assemble` and `disassemble` go between text and bytecode, `verify`
checks bytecode, and `run` checks it and executes it. The exit code is 0 on success, 1 for input
that cannot be read, assembled or decoded, 2 for findings of the verifier, 3 for a fault and 4
for an uncaught exception.
-/
namespace StackVM.Cli

def textLines (lines : List String) : String := String.join (lines.map (· ++ "\n"))

def fail (code : Nat) (lines : List String) : Script := .done ⟨code, "", textLines lines⟩

def succeed (stdout : String) : Script := .done ⟨0, stdout, ""⟩

def usage : List String :=
  ["Usage: ngvm <command> [args]",
    "",
    "Commands:",
    "  assemble <input.nga> [-o output.ngb]   Assemble text to bytecode",
    "  verify <input.ngb>                     Verify a bytecode file",
    "  run <input.ngb> [-- args...]           Verify and execute a bytecode file",
    "  disassemble <input.ngb>                Disassemble bytecode to text"]

/-- The file that assembled code goes to: the one given by `-o`, or the input with the extension
for bytecode. -/
def outputPath (input : String) : List String → String
  | "-o" :: path :: _ => path
  | _ =>
    if input.endsWith ".nga" then (input.dropEnd 4).toString ++ ".ngb" else input ++ ".ngb"

/-- The arguments of a program: what follows a leading `--`, or everything. -/
def scriptArgs : List String → List String
  | "--" :: rest => rest
  | args => args

def decodeText (bytes : Array UInt8) : Except String String :=
  match String.fromUTF8? ⟨bytes⟩ with
  | some text => .ok text
  | none => .error "stream did not contain valid UTF-8"

def cannotRead (path reason : String) : Script :=
  fail 1 [s!"error: cannot read '{path}': {reason}"]

def assembleTo (text output : String) : Script :=
  match assemble text with
  | .error e => fail 1 [s!"error: {e.message}"]
  | .ok program =>
    .write output program.bytes fun
      | .error reason => fail 1 [s!"error: cannot write '{output}': {reason}"]
      | .ok () => fail 0 [s!"assembled {program.size} bytes -> {output}"]

def assembleFile (input : String) (flags : List String) : Script :=
  .read input fun content =>
    match content.bind decodeText with
    | .error reason => cannotRead input reason
    | .ok text => assembleTo text (outputPath input flags)

def withProgram (path : String) (next : Program → Script) : Script :=
  .read path fun
    | .error reason => cannotRead path reason
    | .ok bytes =>
      let program : Program := ⟨bytes⟩
      match program.decodeAll with
      | .error e => fail 1 [s!"error: invalid bytecode: {e.message}"]
      | .ok _ => next program

/-- Go on only with a program in which the verifier finds nothing. -/
def withVerified (path : String) (next : Program → Script) : Script :=
  withProgram path fun program =>
    match program.verify with
    | [] => next program
    | findings => fail 2 (findings.map fun f => s!"error: {f.message}")

def verifyFile (path : String) : Script :=
  withVerified path fun program => succeed s!"OK: {path} ({program.size} bytes)\n"

def report (result : Except Fault Outcome) (store : Store) : Script :=
  match result with
  | .ok (.ok v) => succeed (store.render v ++ "\n")
  | .ok (.exception v) => fail 4 [s!"uncaught exception: {store.render v}"]
  | .error f => fail 3 [s!"fatal: {f.message}"]

def execute (fuel : Nat) (argv : List String) (program : Program) : Script :=
  match ((Machine.init argv).load program.bytes).run Host.none fuel .new 0 with
  | some (result, m, _) => report result m.store
  | none => fail 3 ["fatal: out of fuel"]

def runFile (fuel : Nat) (path : String) (args : List String) : Script :=
  withVerified path (execute fuel (path :: scriptArgs args))

def disassembleFile (path : String) : Script :=
  withProgram path fun program =>
    match program.disassemble with
    | .ok text => succeed text
    | .error e => fail 1 [s!"error: invalid bytecode: {e.message}"]

/-- What the command line asks for. A run takes at most `fuel` steps. -/
def command (fuel : Nat) : List String → Script
  | [] => fail 1 usage
  | ["assemble"] =>
    fail 1 ["error: assemble requires an input file",
      "Usage: ngvm assemble <input.nga> [-o output.ngb]"]
  | "assemble" :: input :: flags => assembleFile input flags
  | ["verify"] => fail 1 ["error: verify requires an input file", "Usage: ngvm verify <input.ngb>"]
  | "verify" :: path :: _ => verifyFile path
  | ["run"] =>
    fail 1 ["error: run requires an input file", "Usage: ngvm run <input.ngb> [-- args...]"]
  | "run" :: path :: args => runFile fuel path args
  | ["disassemble"] =>
    fail 1 ["error: disassemble requires an input file", "Usage: ngvm disassemble <input.ngb>"]
  | "disassemble" :: path :: _ => disassembleFile path
  | "--help" :: _ | "-h" :: _ | "help" :: _ => fail 0 usage
  | other :: _ => fail 1 (s!"error: unknown command '{other}'" :: "" :: usage)

end StackVM.Cli
