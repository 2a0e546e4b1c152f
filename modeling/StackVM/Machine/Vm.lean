import StackVM.Machine.Config

/-! # A machine as a host uses it

A machine starts with the program's arguments, the built-in types and the built-in natives as
globals. A host loads code, which reopens linking, registers natives, and runs contexts.
-/
namespace StackVM

inductive Outcome
  | ok (v : Value)
  | exception (v : Value)
  deriving DecidableEq

namespace Machine

/-- A machine with the arguments under `ARGV` and `ARGC`, the types under their names, and the
built-in natives. -/
def init (argv : List String) : Machine :=
  let (args, store) := Store.empty.newArr (argv.map Value.str).toArray
  let globals := (Globals.empty.define "ARGV" args).2
  let globals := (globals.define "ARGC" (.int (Int64.ofNat argv.length))).2
  let globals := Tag.all.foldl (fun g t => (g.define t.name (.type t)).2) globals
  let m : Machine := ⟨.empty, globals, .linking, store⟩
  Builtin.table.foldl (fun m (name, b) => (m.defineNative ⟨name, .builtin b⟩).2) m

/-- Append code to the program and reopen linking. -/
def load (m : Machine) (code : Array UInt8) : Machine :=
  { m with program := m.program.append code, phase := .linking }

def resolveGlobal (m : Machine) (name : String) : Nat × Machine :=
  let (index, globals) := m.globals.resolve name
  (index, { m with globals := globals })

def startRun (m : Machine) : Machine :=
  if m.phase = .ready then { m with phase := .running } else m

def endRun (m : Machine) : Machine :=
  if m.phase = .running then { m with phase := .ready } else m

def runConfig (m : Machine) (ctx : Context) (entry : Nat) : Config :=
  ⟨.run ⟨ctx.depth, ctx.handlerCount, false⟩ entry, [], ⟨m.startRun, ctx⟩⟩

/-- What is left of an ended run: the handlers it installed go, unless it ended with a fault. -/
def finish (handlers : Nat) (exit : Except Fault Exit) (s : State) :
    Except Fault Outcome × Machine × Context :=
  let settled := { s.context with handlers := keepOldest handlers s.context.handlers }
  let m := s.machine.endRun
  match exit with
  | .ok (.halted v) | .ok (.returned v) => (.ok (.ok v), m, settled)
  | .ok (.raised v) => (.ok (.exception v), m, settled)
  | .error f => (.error f, m, s.context)

/-- Run a context from `entry` until it halts, leaves an exception uncaught or faults. There is no
result if that takes more than `fuel` steps. -/
def run (host : Host) (fuel : Nat) (m : Machine) (ctx : Context) (entry : Nat) :
    Option (Except Fault Outcome × Machine × Context) :=
  ((m.runConfig ctx entry).run host fuel).map fun (exit, s) => finish ctx.handlerCount exit s

end Machine
end StackVM
