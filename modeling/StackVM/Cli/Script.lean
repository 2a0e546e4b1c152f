/-! # Scripts

What a command does to the outside world, as a tree: it reads and writes files, each time going on
with the result, and ends with an exit code and the texts for the two output streams.
-/
namespace StackVM.Cli

structure Report where
  code : Nat
  stdout : String
  stderr : String
  deriving DecidableEq

inductive Script
  | read (path : String) (next : Except String (Array UInt8) → Script)
  | write (path : String) (bytes : Array UInt8) (next : Except String Unit → Script)
  | done (report : Report)

/-- The files of one flat directory, by name. -/
abbrev Directory := List (String × Array UInt8)

namespace Directory

def missing : String := "No such file or directory (os error 2)"

/-- The file that a path names. Empty parts and dots in front of the name stand for the directory
itself; it has no directories inside, so any other part leads nowhere. -/
def fileName? (path : String) : Option String :=
  match (path.splitOn "/").dropWhile fun part => part.isEmpty || part == "." with
  | [name] => if path.startsWith "/" || name == ".." then none else some name
  | _ => none

def read (d : Directory) (path : String) : Except String (Array UInt8) :=
  match (fileName? path).bind (List.lookup · d) with
  | some bytes => .ok bytes
  | none => .error missing

def write (d : Directory) (path : String) (bytes : Array UInt8) : Except String Directory :=
  match fileName? path with
  | some name => .ok ((name, bytes) :: d.filter (·.1 != name))
  | none => .error missing

end Directory

def Script.runIn : Script → Directory → Report × Directory
  | .read path next, d => (next (d.read path)).runIn d
  | .write path bytes next, d =>
    match d.write path bytes with
    | .ok d => (next (.ok ())).runIn d
    | .error e => (next (.error e)).runIn d
  | .done report, d => (report, d)

end StackVM.Cli
